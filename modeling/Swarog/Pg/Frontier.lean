import Mathlib

/-!
# A transaction-ordered log and its commit frontier

Transactions append entries to a shared log.  An entry is placed at
`(generation, xid, tie)`: the generation the writer read, the identifier of its
transaction and a value of one increasing sequence.  Entries become visible when
their transaction commits, in any order.  A reader may use an entry of the
current generation only when its transaction identifier lies below the least
identifier still in progress (`xmin`), and every entry of an older generation.

Every writer holds a shared lock until its transaction ends and a generation
change holds the lock exclusively, so no writer of an old generation is in
progress when a change commits.

The library shows that an eligible position is *closed*: nothing that commits
later can land at or below it.  A consumer that moves a cursor from one eligible
entry to the next therefore meets every selected entry exactly once; this is
the relation `Covers` and its advance rule `Covers.advance`.
-/

namespace Swarog.Pg

open Function

/-- A place in the log. -/
structure Position where
  generation : Int
  xid : Nat
  tie : Int
deriving DecidableEq

namespace Position

/-- The lexicographic key of a position. -/
def key (p : Position) : Int ×ₗ ℕ ×ₗ Int := toLex (p.generation, toLex (p.xid, p.tie))

theorem key_injective : Function.Injective key := by
  rintro ⟨g, x, t⟩ ⟨g', x', t'⟩ h
  have h' : (g, toLex (x, t)) = (g', toLex (x', t')) := toLex.injective h
  simp only [Prod.mk.injEq] at h'
  have hx : (x, t) = (x', t') := toLex.injective h'.2
  simp only [Prod.mk.injEq] at hx
  obtain ⟨hg, -⟩ := h'
  obtain ⟨hx, ht⟩ := hx
  subst hg hx ht
  rfl

instance : LinearOrder Position := LinearOrder.lift' key key_injective

theorem lt_iff (p q : Position) :
    p < q ↔
      p.generation < q.generation ∨
        p.generation = q.generation ∧ (p.xid < q.xid ∨ p.xid = q.xid ∧ p.tie < q.tie) := by
  show key p < key q ↔ _
  simp [key, Prod.Lex.lt_iff]

theorem le_iff (p q : Position) :
    p ≤ q ↔
      p.generation < q.generation ∨
        p.generation = q.generation ∧ (p.xid < q.xid ∨ p.xid = q.xid ∧ p.tie ≤ q.tie) := by
  show key p ≤ key q ↔ _
  simp [key, Prod.Lex.le_iff]

end Position

/-- A log entry. -/
structure Entry (ε : Type) where
  pos : Position
  data : ε
deriving DecidableEq

/-- The transactions in progress, their uncommitted entries, and the log. -/
structure Frontier (τ ε : Type) where
  nextXid : Nat
  running : List Nat
  nextTie : Int
  generation : Int
  writers : List τ
  fence : Option τ
  xid : τ → Option Nat
  inflight : τ → List (Entry ε)
  log : List (Entry ε)

namespace Frontier

variable {τ ε : Type}

/-- The least transaction identifier in progress, or the next one. -/
def xmin (F : Frontier τ ε) : Nat := F.running.foldr min F.nextXid

/-- What a reader may use: older generations, and current entries below
`xmin`. -/
def Eligible (F : Frontier τ ε) (p : Position) : Prop :=
  p.generation < F.generation ∨ p.xid < F.xmin

instance (F : Frontier τ ε) (p : Position) : Decidable (F.Eligible p) :=
  inferInstanceAs (Decidable (_ ∨ _))

/-- The identifier `t` writes under: its own, or the next one. -/
def current (F : Frontier τ ε) (t : τ) : Nat := (F.xid t).getD F.nextXid

variable [DecidableEq τ]

/-- The first write of `t` takes a transaction identifier. -/
def assign (t : τ) (F : Frontier τ ε) : Frontier τ ε :=
  match F.xid t with
  | some _ => F
  | none =>
    { F with
      nextXid := F.nextXid + 1
      running := F.nextXid :: F.running
      xid := Function.update F.xid t (some F.nextXid) }

/-- A statement that runs as a transaction of its own uses up one
identifier. -/
def burn (F : Frontier τ ε) : Frontier τ ε := { F with nextXid := F.nextXid + 1 }

/-- `t` takes the writer lock in shared mode. -/
def share (t : τ) (F : Frontier τ ε) : Frontier τ ε := { F with writers := t :: F.writers }

/-- `t` takes the writer lock in exclusive mode. -/
def exclude (t : τ) (F : Frontier τ ε) : Frontier τ ε := { F with fence := some t }

/-- `t` inserts an entry under the generation `g` it read. -/
def append (t : τ) (g : Int) (d : ε) (F : Frontier τ ε) : Frontier τ ε :=
  { F.assign t with
    nextTie := F.nextTie + 1
    inflight :=
      Function.update F.inflight t
        (F.inflight t ++ [⟨⟨g, F.current t, F.nextTie⟩, d⟩]) }

/-- `t` rolls back to a savepoint taken before it appended anything. -/
def undo (t : τ) (F : Frontier τ ε) : Frontier τ ε :=
  { F with
    writers := F.writers.filter (fun w => w ≠ t)
    inflight := Function.update F.inflight t [] }

/-- The transaction of `t` is over: its identifier, entries and locks go. -/
def close (t : τ) (F : Frontier τ ε) : Frontier τ ε :=
  { F with
    running := F.running.filter (fun x => F.xid t ≠ some x)
    writers := F.writers.filter (fun w => w ≠ t)
    fence := if F.fence = some t then none else F.fence
    xid := Function.update F.xid t none
    inflight := Function.update F.inflight t [] }

/-- `t` commits its entries. -/
def commit (t : τ) (F : Frontier τ ε) : Frontier τ ε :=
  { F with log := F.log ++ F.inflight t }.close t

/-- `t` commits a change of the generation. -/
def bump (t : τ) (g : Int) (F : Frontier τ ε) : Frontier τ ε := { F with generation := g }.close t

/-- Entries that are committed or still belong to a transaction in progress. -/
def Live (F : Frontier τ ε) (e : Entry ε) : Prop := e ∈ F.log ∨ ∃ t, e ∈ F.inflight t

/-- The well-formed frontiers. -/
structure WF (F : Frontier τ ε) : Prop where
  running_lt : ∀ x ∈ F.running, x < F.nextXid
  xid_running : ∀ t x, F.xid t = some x → x ∈ F.running
  xid_inj : ∀ t u x, F.xid t = some x → F.xid u = some x → t = u
  inflight_xid : ∀ t, ∀ e ∈ F.inflight t, F.xid t = some e.pos.xid
  inflight_generation : ∀ t, ∀ e ∈ F.inflight t, e.pos.generation = F.generation
  inflight_writer : ∀ t, ∀ e ∈ F.inflight t, t ∈ F.writers
  log_generation : ∀ e ∈ F.log, e.pos.generation ≤ F.generation
  fence_writers : ∀ t, F.fence = some t → F.writers = []
  tie_lt : ∀ e, F.Live e → e.pos.tie < F.nextTie
  tie_inj : ∀ e f, F.Live e → F.Live f → e.pos.tie = f.pos.tie → e = f

/-- Nothing can commit at or below a closed position any more. -/
def Closed (F : Frontier τ ε) (p : Position) : Prop :=
  p.generation < F.generation ∨
    p.generation = F.generation ∧ p.xid < F.nextXid ∧ ∀ x ∈ F.running, p.xid < x

section Eligibility

variable {F : Frontier τ ε}

theorem foldr_min_le
    {n x : Nat}
    {l : List Nat}
    (hx : x ∈ l) :
    l.foldr min n ≤ x := by
  induction l with
  | nil => simp at hx
  | cons y l ih =>
    rcases List.mem_cons.mp hx with rfl | hx
    · exact min_le_left _ _
    · exact le_trans (min_le_right _ _) (ih hx)

theorem foldr_min_le_base (n : Nat) (l : List Nat) : l.foldr min n ≤ n := by
  induction l with
  | nil => exact le_refl n
  | cons y l ih => exact le_trans (min_le_right _ _) ih

section

omit [DecidableEq τ]

/-- An eligible committed entry lies at a closed position. -/
theorem closed_of_eligible
    (h : WF F)
    {e : Entry ε}
    (he : e ∈ F.log)
    (hel : F.Eligible e.pos) :
    F.Closed e.pos := by
  rcases hel with hgen | hx
  · exact .inl hgen
  · rcases lt_or_eq_of_le (h.log_generation e he) with hlt | heq
    · exact .inl hlt
    · refine .inr ⟨heq, ?_, ?_⟩
      · exact lt_of_lt_of_le hx (foldr_min_le_base _ _)
      · intro x hx'
        exact lt_of_lt_of_le hx (foldr_min_le hx')

/-- Below an eligible position every position is eligible. -/
theorem eligible_of_le
    {p q : Position}
    (hpq : p ≤ q)
    (hq : F.Eligible q)
    (hp : p.generation ≤ F.generation)
    (hqg : q.generation ≤ F.generation) :
    F.Eligible p := by
  rw [Position.le_iff] at hpq
  unfold Eligible at hq ⊢
  omega

/-- An uncommitted entry lies above every closed position. -/
theorem lt_of_closed_of_inflight
    (h : WF F)
    {p : Position}
    {t : τ}
    {e : Entry ε}
    (hp : F.Closed p)
    (he : e ∈ F.inflight t) :
    p < e.pos := by
  have hgen := h.inflight_generation t e he
  have hrun := h.xid_running t _ (h.inflight_xid t e he)
  rw [Position.lt_iff]
  rcases hp with hlt | ⟨heq, -, hall⟩
  · exact .inl (by omega)
  · exact .inr ⟨by omega, .inl (hall _ hrun)⟩

end

end Eligibility

section Preservation

variable {F : Frontier τ ε}

@[simp] theorem assign_log (t : τ) : (F.assign t).log = F.log := by
  unfold assign
  split <;> rfl

@[simp] theorem assign_inflight (t : τ) : (F.assign t).inflight = F.inflight := by
  unfold assign
  split <;> rfl

@[simp] theorem assign_writers (t : τ) : (F.assign t).writers = F.writers := by
  unfold assign
  split <;> rfl

@[simp] theorem assign_fence (t : τ) : (F.assign t).fence = F.fence := by
  unfold assign
  split <;> rfl

@[simp] theorem assign_generation (t : τ) : (F.assign t).generation = F.generation := by
  unfold assign
  split <;> rfl

@[simp] theorem assign_nextTie (t : τ) : (F.assign t).nextTie = F.nextTie := by
  unfold assign
  split <;> rfl

theorem assign_xid_self (t : τ) : (F.assign t).xid t = some (F.current t) := by
  unfold assign current
  cases hx : F.xid t with
  | none => simp
  | some => simp [hx]

theorem assign_xid_of_some
    (t : τ)
    {u : τ}
    {x : Nat}
    (h : F.xid u = some x) :
    (F.assign t).xid u = some x := by
  cases ht : F.xid t with
  | some => simpa [assign, ht] using h
  | none =>
    have hne : u ≠ t := by
      rintro rfl
      rw [ht] at h
      cases h
    simpa [assign, ht, update_of_ne hne] using h

section

variable (h : WF F)
include h

/-- Taking an identifier keeps the frontier well formed. -/
theorem WF.assign (t : τ) : WF (F.assign t) := by
  cases ht : F.xid t with
  | some =>
    have heq : F.assign t = F := by simp [Frontier.assign, ht]
    rw [heq]
    exact h
  | none =>
    have hfresh : F.nextXid ∉ F.running := by
      intro hmem
      exact absurd (h.running_lt _ hmem) (lt_irrefl _)
    have hcase : ∀ u x, (F.assign t).xid u = some x →
        (u = t ∧ x = F.nextXid) ∨ F.xid u = some x := by
      intro u x hu
      by_cases hut : u = t
      · subst hut
        left
        simpa [Frontier.assign, ht, eq_comm] using hu
      · right
        simpa [Frontier.assign, ht, update_of_ne hut] using hu
    refine
      { running_lt := ?_, xid_running := ?_, xid_inj := ?_, inflight_xid := ?_
        inflight_generation := ?_, inflight_writer := ?_, log_generation := ?_
        fence_writers := ?_, tie_lt := ?_, tie_inj := ?_ }
    · intro x hx
      simp only [Frontier.assign, ht, List.mem_cons] at hx ⊢
      rcases hx with rfl | hx
      · omega
      · have := h.running_lt x hx
        omega
    · intro u x hu
      simp only [Frontier.assign, ht, List.mem_cons]
      rcases hcase u x hu with ⟨-, rfl⟩ | hu
      · exact .inl rfl
      · exact .inr (h.xid_running u x hu)
    · intro u w x hu hw
      rcases hcase u x hu with ⟨hut, rfl⟩ | hu'
      · rcases hcase w _ hw with ⟨hwt, -⟩ | hw'
        · rw [hut, hwt]
        · exact absurd (h.xid_running w _ hw') hfresh
      · rcases hcase w x hw with ⟨-, rfl⟩ | hw'
        · exact absurd (h.xid_running u _ hu') hfresh
        · exact h.xid_inj u w x hu' hw'
    · intro u e he
      rw [assign_inflight] at he
      exact assign_xid_of_some t (h.inflight_xid u e he)
    · intro u e he
      rw [assign_inflight] at he
      simpa using h.inflight_generation u e he
    · intro u e he
      rw [assign_inflight] at he
      simpa using h.inflight_writer u e he
    · intro e he
      simpa using h.log_generation e (by simpa using he)
    · intro u hu
      simpa using h.fence_writers u (by simpa using hu)
    · intro e he
      simpa [Live] using h.tie_lt e (by simpa [Live] using he)
    · intro e f he hf
      exact h.tie_inj e f (by simpa [Live] using he) (by simpa [Live] using hf)

section

omit [DecidableEq τ]

theorem WF.burn : WF F.burn :=
  { h with
    running_lt := fun x hx => Nat.lt_succ_of_lt (h.running_lt x hx) }

theorem WF.share {t : τ} (hf : F.fence = none) : WF (F.share t) :=
  { h with
    inflight_writer := fun u e he => List.mem_cons_of_mem _ (h.inflight_writer u e he)
    fence_writers := by
      intro u hu
      rw [show (F.share t).fence = F.fence from rfl, hf] at hu
      cases hu }

theorem WF.exclude {t : τ} (hw : F.writers = []) : WF (F.exclude t) :=
  { h with fence_writers := fun _ _ => hw }

end

/-- Inserting under the current generation while holding the shared lock keeps
the frontier well formed. -/
theorem WF.append
    {t : τ}
    (d : ε)
    (hw : t ∈ F.writers) :
    WF (F.append t F.generation d) := by
  have ha := h.assign t
  have hmem : ∀ u e, e ∈ (F.append t F.generation d).inflight u →
      e ∈ F.inflight u ∨ u = t ∧ e = ⟨⟨F.generation, F.current t, F.nextTie⟩, d⟩ := by
    intro u e he
    by_cases hut : u = t
    · subst hut
      simpa [Frontier.append] using he
    · left
      simpa [Frontier.append, update_of_ne hut] using he
  have hlive : ∀ e, (F.append t F.generation d).Live e →
      F.Live e ∨ e = ⟨⟨F.generation, F.current t, F.nextTie⟩, d⟩ := by
    rintro e (he | ⟨u, he⟩)
    · left
      left
      simpa [Frontier.append] using he
    · rcases hmem u e he with he | ⟨-, rfl⟩
      · exact .inl (.inr ⟨u, he⟩)
      · exact .inr rfl
  refine
    { running_lt := ha.running_lt, xid_running := ha.xid_running, xid_inj := ha.xid_inj
      inflight_xid := ?_, inflight_generation := ?_, inflight_writer := ?_
      log_generation := ha.log_generation, fence_writers := ha.fence_writers
      tie_lt := ?_, tie_inj := ?_ }
  · intro u e he
    rcases hmem u e he with he | ⟨rfl, rfl⟩
    · exact assign_xid_of_some t (h.inflight_xid u e he)
    · exact assign_xid_self u
  · intro u e he
    show e.pos.generation = (F.assign t).generation
    rw [assign_generation]
    rcases hmem u e he with he | ⟨-, rfl⟩
    · exact h.inflight_generation u e he
    · rfl
  · intro u e he
    show u ∈ (F.assign t).writers
    rw [assign_writers]
    rcases hmem u e he with he | ⟨rfl, -⟩
    · exact h.inflight_writer u e he
    · exact hw
  · intro e he
    show e.pos.tie < F.nextTie + 1
    rcases hlive e he with he | rfl
    · have := h.tie_lt e he
      omega
    · exact Int.lt_succ F.nextTie
  · intro e f he hf htie
    rcases hlive e he with he | rfl
    · rcases hlive f hf with hf | rfl
      · exact h.tie_inj e f he hf htie
      · have := h.tie_lt e he
        simp only at htie
        omega
    · rcases hlive f hf with hf | rfl
      · have := h.tie_lt f hf
        simp only at htie
        omega
      · rfl

/-- Rolling back to a savepoint keeps the frontier well formed. -/
theorem WF.undo (t : τ) : WF (F.undo t) := by
  have hmem : ∀ u e, e ∈ (F.undo t).inflight u → u ≠ t ∧ e ∈ F.inflight u := by
    intro u e he
    by_cases hut : u = t
    · subst hut
      simp [Frontier.undo] at he
    · exact ⟨hut, by simpa [Frontier.undo, update_of_ne hut] using he⟩
  have hlive : ∀ e, (F.undo t).Live e → F.Live e := by
    rintro e (he | ⟨u, he⟩)
    · exact .inl he
    · exact .inr ⟨u, (hmem u e he).2⟩
  refine
    { running_lt := h.running_lt, xid_running := h.xid_running, xid_inj := h.xid_inj
      inflight_xid := ?_, inflight_generation := ?_, inflight_writer := ?_
      log_generation := h.log_generation, fence_writers := ?_
      tie_lt := ?_, tie_inj := ?_ }
  · exact fun u e he => h.inflight_xid u e (hmem u e he).2
  · exact fun u e he => h.inflight_generation u e (hmem u e he).2
  · intro u e he
    obtain ⟨hut, he⟩ := hmem u e he
    simpa [Frontier.undo, hut] using h.inflight_writer u e he
  · intro u hu
    simp [Frontier.undo, h.fence_writers u hu]
  · exact fun e he => h.tie_lt e (hlive e he)
  · exact fun e f he hf => h.tie_inj e f (hlive e he) (hlive f hf)

/-- The end of a transaction keeps the frontier well formed. -/
theorem WF.close (t : τ) : WF (F.close t) := by
  have hxid : ∀ u x, (F.close t).xid u = some x → u ≠ t ∧ F.xid u = some x := by
    intro u x hu
    by_cases hut : u = t
    · subst hut
      simp [Frontier.close] at hu
    · exact ⟨hut, by simpa [Frontier.close, update_of_ne hut] using hu⟩
  have hmem : ∀ u e, e ∈ (F.close t).inflight u → u ≠ t ∧ e ∈ F.inflight u := by
    intro u e he
    by_cases hut : u = t
    · subst hut
      simp [Frontier.close] at he
    · exact ⟨hut, by simpa [Frontier.close, update_of_ne hut] using he⟩
  have hlive : ∀ e, (F.close t).Live e → F.Live e := by
    rintro e (he | ⟨u, he⟩)
    · exact .inl he
    · exact .inr ⟨u, (hmem u e he).2⟩
  refine
    { running_lt := ?_, xid_running := ?_, xid_inj := ?_, inflight_xid := ?_
      inflight_generation := ?_, inflight_writer := ?_
      log_generation := h.log_generation, fence_writers := ?_
      tie_lt := ?_, tie_inj := ?_ }
  · intro x hx
    exact h.running_lt x (List.mem_of_mem_filter hx)
  · intro u x hu
    obtain ⟨hut, hu⟩ := hxid u x hu
    have hne : F.xid t ≠ some x := fun ht => hut (h.xid_inj u t x hu ht)
    simpa [Frontier.close, hne] using h.xid_running u x hu
  · intro u w x hu hw
    exact h.xid_inj u w x (hxid u x hu).2 (hxid w x hw).2
  · intro u e he
    obtain ⟨hut, he⟩ := hmem u e he
    simpa [Frontier.close, update_of_ne hut] using h.inflight_xid u e he
  · exact fun u e he => h.inflight_generation u e (hmem u e he).2
  · intro u e he
    obtain ⟨hut, he⟩ := hmem u e he
    simpa [Frontier.close, hut] using h.inflight_writer u e he
  · intro u hu
    have hfence : ∃ w, F.fence = some w := by
      cases hf : F.fence with
      | none => simp [Frontier.close, hf] at hu
      | some w => exact ⟨w, rfl⟩
    obtain ⟨w, hw⟩ := hfence
    simp [Frontier.close, h.fence_writers w hw]
  · exact fun e he => h.tie_lt e (hlive e he)
  · exact fun e f he hf => h.tie_inj e f (hlive e he) (hlive f hf)

/-- Committing the entries of `t` keeps the frontier well formed. -/
theorem WF.commit (t : τ) : WF (F.commit t) := by
  have hlive : ∀ e, Live { F with log := F.log ++ F.inflight t } e → F.Live e := by
    rintro e (he | he)
    · rcases List.mem_append.mp he with he | he
      · exact .inl he
      · exact .inr ⟨t, he⟩
    · exact .inr he
  refine WF.close (F := { F with log := F.log ++ F.inflight t }) ?_ t
  refine
    { h with
      log_generation := ?_
      tie_lt := fun e he => h.tie_lt e (hlive e he)
      tie_inj := fun e f he hf => h.tie_inj e f (hlive e he) (hlive f hf) }
  intro e he
  rcases List.mem_append.mp he with he | he
  · exact h.log_generation e he
  · exact le_of_eq (h.inflight_generation t e he)

omit [DecidableEq τ] in
/-- A generation change that holds the lock exclusively meets no writer. -/
theorem WF.inflight_of_fence
    {t : τ}
    (hf : F.fence = some t)
    (u : τ) :
    F.inflight u = [] := by
  rw [List.eq_nil_iff_forall_not_mem]
  intro e he
  have hw := h.inflight_writer u e he
  rw [h.fence_writers t hf] at hw
  simp at hw

/-- Committing a generation change keeps the frontier well formed. -/
theorem WF.bump
    {t : τ}
    {g : Int}
    (hf : F.fence = some t)
    (hg : F.generation ≤ g) :
    WF (F.bump t g) := by
  refine WF.close (F := { F with generation := g }) ?_ t
  refine { h with inflight_generation := ?_, log_generation := ?_ }
  · intro u e he
    have hnil := h.inflight_of_fence hf u
    simp only at he
    rw [hnil] at he
    simp at he
  · exact fun e he => le_trans (h.log_generation e he) hg

end

end Preservation

end Frontier
end Swarog.Pg
