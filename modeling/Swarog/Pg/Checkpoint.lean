import Swarog.Pg.Frontier

/-!
# A cursor over a transaction-ordered log

A consumer keeps a cursor and moves it to the least eligible entry above it.
The module says once what one step of the transactions can do to the log
(`Advance`), and derives from it that the consumer's bookkeeping is stable:

* `Covers`: the positions handled so far are increasing and are exactly the
  selected visible entries between the start and the cursor;
* `Next`: the entry a consumer picked stays the next one until the consumer
  moves, whatever commits in between;
* `Covers.advance`: moving to the next entry keeps the bookkeeping.

The visible entries are a separate list `V`, because entries may be removed
from the table that holds the log after they were committed.
-/

namespace Swarog.Pg

open List

namespace Frontier

variable {τ ε : Type} [DecidableEq τ]

/-- What one step of any transaction can do to the log. -/
structure Advance (F F' : Frontier τ ε) : Prop where
  generation_le : F.generation ≤ F'.generation
  nextXid_le : F.nextXid ≤ F'.nextXid
  running_from : ∀ x ∈ F'.running, x ∈ F.running ∨ F.nextXid ≤ x
  log_from : ∀ e ∈ F'.log, e ∈ F.log ∨ ∃ t, e ∈ F.inflight t
  log_kept : ∀ e ∈ F.log, e ∈ F'.log

section Steps

variable {F F' : Frontier τ ε} {a : Option τ}

section

variable (F : Frontier τ ε)

omit [DecidableEq τ] in
theorem Advance.refl : Advance F F where
  generation_le := le_refl _
  nextXid_le := le_refl _
  running_from := fun _ hx => .inl hx
  log_from := fun _ he => .inl he
  log_kept := fun _ he => he

theorem advance_assign (t : τ) : Advance F (F.assign t) := by
  cases ht : F.xid t with
  | some =>
    have heq : F.assign t = F := by simp [assign, ht]
    rw [heq]
    exact Advance.refl F
  | none =>
    refine ⟨?_, ?_, ?_, ?_, ?_⟩
    · simp
    · simp [assign, ht]
    · intro _ hx
      simp only [assign, ht, mem_cons] at hx
      rcases hx with rfl | hx
      · exact .inr (le_refl _)
      · exact .inl hx
    · exact fun e he => .inl (by simpa using he)
    · exact fun e he => by simpa using he

section

omit [DecidableEq τ]

theorem advance_burn : Advance F F.burn := { Advance.refl F with nextXid_le := Nat.le_succ _ }

theorem advance_share (t : τ) : Advance F (F.share t) := { Advance.refl F with }

theorem advance_exclude (t : τ) : Advance F (F.exclude t) := { Advance.refl F with }

end

theorem advance_append (t : τ) (g : Int) (d : ε) : Advance F (F.append t g d) :=
  { advance_assign F t with }

theorem advance_undo (t : τ) : Advance F (F.undo t) := { Advance.refl F with }

theorem advance_close (t : τ) : Advance F (F.close t) :=
  { Advance.refl F with
    running_from := fun _ hx => .inl (mem_of_mem_filter hx) }

theorem advance_commit (t : τ) : Advance F (F.commit t) :=
  { advance_close F t with
    log_from := by
      intro _ he
      rcases mem_append.mp he with he | he
      · exact .inl he
      · exact .inr ⟨t, he⟩
    log_kept := fun _ he => mem_append_left _ he }

end

theorem advance_bump
    {t : τ}
    {g : Int}
    (hg : F.generation ≤ g) :
    Advance F (F.bump t g) :=
  { advance_close F t with generation_le := hg }

/-- One step of a transaction on the frontier, with the locks it needs. -/
inductive Step (F : Frontier τ ε) : Option τ → Frontier τ ε → Prop
  | same (a : Option τ) : Step F a F
  | burn (a : Option τ) : Step F a F.burn
  | assign (t : τ) : Step F (some t) (F.assign t)
  | share (t : τ) (hf : F.fence = none) : Step F (some t) (F.share t)
  | exclude (t : τ)
      (hw : F.writers = [])
      (hf : F.fence = none) :
      Step F (some t) (F.exclude t)
  | append (t : τ) (d : ε)
      (hw : t ∈ F.writers) :
      Step F (some t) (F.append t F.generation d)
  | undo (t : τ) : Step F (some t) (F.undo t)
  | close (t : τ) : Step F (some t) (F.close t)
  | commit (t : τ) : Step F (some t) (F.commit t)
  | bump (t : τ) (g : Int)
      (hf : F.fence = some t)
      (hg : F.generation ≤ g) :
      Step F (some t) (F.bump t g)

theorem Step.wf (hs : Step F a F') (h : WF F) : WF F' := by
  cases hs with
  | same => exact h
  | burn => exact h.burn
  | assign t => exact h.assign t
  | share _ hf => exact h.share hf
  | exclude _ hw => exact h.exclude hw
  | append _ d hw => exact h.append d hw
  | undo t => exact h.undo t
  | close t => exact h.close t
  | commit t => exact h.commit t
  | bump _ _ hf hg => exact h.bump hf hg

theorem Step.advance (hs : Step F a F') : Advance F F' := by
  cases hs with
  | same => exact Advance.refl F
  | burn => exact advance_burn F
  | assign t => exact advance_assign F t
  | share t => exact advance_share F t
  | exclude t => exact advance_exclude F t
  | append t d => exact advance_append F t F.generation d
  | undo t => exact advance_undo F t
  | close t => exact advance_close F t
  | commit t => exact advance_commit F t
  | bump _ _ _ hg => exact advance_bump hg

/-- What the locks of `u` guarantee while others move. -/
structure Keeps (u : τ) (F F' : Frontier τ ε) : Prop where
  writers : u ∈ F.writers → u ∈ F'.writers
  generation : u ∈ F.writers ∨ F.fence = some u → F'.generation = F.generation
  fence : F.fence = some u → F'.fence = some u

omit [DecidableEq τ] in
theorem Keeps.refl (u : τ) (F : Frontier τ ε) : Keeps u F F := ⟨id, fun _ => rfl, id⟩

theorem keeps_assign (u t : τ) (F : Frontier τ ε) : Keeps u F (F.assign t) :=
  ⟨fun h => by simpa using h, fun _ => by simp, fun h => by simpa using h⟩

theorem keeps_close
    {u t : τ}
    (F : Frontier τ ε)
    (hut : u ≠ t) :
    Keeps u F (F.close t) := by
  refine ⟨?_, fun _ => rfl, ?_⟩
  · intro h
    simpa [close, hut] using h
  · intro h
    have hne : F.fence ≠ some t := by
      rw [h]
      simpa using hut
    simpa [close, hne] using h

/-- A step of another transaction keeps what the locks of `u` guarantee. -/
theorem Step.keeps
    {u : τ}
    (hs : Step F a F')
    (h : WF F)
    (hu : a ≠ some u) :
    Keeps u F F' := by
  cases hs with
  | same => exact Keeps.refl u F
  | burn => exact ⟨id, fun _ => rfl, id⟩
  | assign t => exact keeps_assign u t F
  | share t => exact ⟨mem_cons_of_mem t, fun _ => rfl, id⟩
  | exclude _ _ hf =>
    refine ⟨id, fun _ => rfl, ?_⟩
    intro hfu
    rw [hf] at hfu
    cases hfu
  | append t =>
    have hk := keeps_assign u t F
    exact ⟨hk.writers, hk.generation, hk.fence⟩
  | undo t =>
    have hut : u ≠ t := fun he => hu (he ▸ rfl)
    refine ⟨?_, fun _ => rfl, id⟩
    intro hw
    simpa [Frontier.undo, hut] using hw
  | close => exact keeps_close F (fun he => hu (he ▸ rfl))
  | commit t =>
    have hk := keeps_close F (fun he : u = t => hu (he ▸ rfl))
    exact ⟨hk.writers, hk.generation, hk.fence⟩
  | bump t _ hf =>
    have hut : u ≠ t := fun he => hu (he ▸ rfl)
    have hk := keeps_close F hut
    refine ⟨hk.writers, ?_, hk.fence⟩
    rintro (hw | hfu)
    · rw [h.fence_writers t hf] at hw
      cases hw
    · rw [hf] at hfu
      exact absurd (Option.some.inj hfu).symm hut

omit [DecidableEq τ] in
/-- A closed position stays closed. -/
theorem Closed.advance
    {p : Position}
    (h : F.Closed p)
    (ha : Advance F F') :
    F'.Closed p := by
  have hgen := ha.generation_le
  have hnext := ha.nextXid_le
  rcases h with hlt | ⟨heq, hx, hall⟩
  · exact .inl (by omega)
  · rcases lt_or_eq_of_le hgen with hlt | hge
    · exact .inl (by omega)
    · refine .inr ⟨by omega, by omega, ?_⟩
      intro x hxr
      rcases ha.running_from x hxr with hold | hnew
      · exact hall x hold
      · omega

omit [DecidableEq τ] in
/-- No entry that a step makes visible lies at or below a closed position. -/
theorem Advance.above_closed
    (h : WF F)
    (ha : Advance F F')
    {p : Position}
    {e : Entry ε}
    (hp : F.Closed p)
    (he : e ∈ F'.log)
    (hnew : e ∉ F.log) :
    p < e.pos := by
  rcases ha.log_from e he with hold | ⟨_, ht⟩
  · exact absurd hold hnew
  · exact lt_of_closed_of_inflight h hp ht

end Steps

/-- The bookkeeping of a consumer that started at `start`, stands at `cursor`
and has handled `done`, in this order. -/
structure Covers
    (F : Frontier τ ε)
    (V : List (Entry ε))
    (sel : ε → Prop)
    (start cursor : Position)
    (done : List Position) :
    Prop where
  start_le : start ≤ cursor
  closed : cursor = start ∨ F.Closed cursor
  sorted : done.Pairwise (· < ·)
  within : ∀ p ∈ done, start < p ∧ p ≤ cursor
  genuine : ∀ p ∈ done, ∃ e ∈ F.log, e.pos = p ∧ sel e.data
  complete : ∀ e ∈ V, sel e.data → start < e.pos → e.pos ≤ cursor → e.pos ∈ done

/-- `e` is the selected entry a consumer at `cursor` handles next. -/
structure Next
    (F : Frontier τ ε)
    (V : List (Entry ε))
    (sel : ε → Prop)
    (cursor : Position)
    (e : Entry ε) :
    Prop where
  logged : e ∈ F.log
  selected : sel e.data
  above : cursor < e.pos
  closed : F.Closed e.pos
  least : ∀ f ∈ V, sel f.data → cursor < f.pos → f.pos ≤ e.pos → f.pos = e.pos

section Consumer

variable {F F' : Frontier τ ε} {V V' : List (Entry ε)} {sel : ε → Prop}
variable {start cursor : Position} {done : List Position} {e : Entry ε}

section

omit [DecidableEq τ]

/-- A new consumer has handled nothing. -/
theorem Covers.init
    (F : Frontier τ ε)
    (V : List (Entry ε))
    (sel : ε → Prop)
    (start : Position) :
    Covers F V sel start start [] where
  start_le := le_refl _
  closed := .inl rfl
  sorted := List.Pairwise.nil
  within := by simp
  genuine := by simp
  complete := fun _ _ _ hlt hle => absurd hle (not_le_of_gt hlt)

/-- Whatever the transactions do, and whatever is removed from the visible
entries, the bookkeeping of a consumer stands. -/
theorem Covers.frame
    (hc : Covers F V sel start cursor done)
    (hF : WF F)
    (ha : Advance F F')
    (hV : ∀ e ∈ V', e ∈ V ∨ ∃ t, e ∈ F.inflight t) :
    Covers F' V' sel start cursor done where
  start_le := hc.start_le
  closed := hc.closed.imp id (fun h => h.advance ha)
  sorted := hc.sorted
  within := hc.within
  genuine := by
    intro p hp
    obtain ⟨e, he, hpos⟩ := hc.genuine p hp
    exact ⟨e, ha.log_kept e he, hpos⟩
  complete := by
    intro e he hsel hlt hle
    rcases hV e he with hold | ⟨_, ht⟩
    · exact hc.complete e hold hsel hlt hle
    · rcases hc.closed with heq | hcl
      · rw [heq] at hle
        exact absurd hle (not_le_of_gt hlt)
      · exact absurd hle (not_le_of_gt (lt_of_closed_of_inflight hF hcl ht))

/-- The picked entry stays the next one. -/
theorem Next.frame
    (hn : Next F V sel cursor e)
    (hF : WF F)
    (ha : Advance F F')
    (hV : ∀ f ∈ V', f ∈ V ∨ ∃ t, f ∈ F.inflight t) :
    Next F' V' sel cursor e where
  logged := ha.log_kept e hn.logged
  selected := hn.selected
  above := hn.above
  closed := hn.closed.advance ha
  least := by
    intro f hf hsel hlt hle
    rcases hV f hf with hold | ⟨_, ht⟩
    · exact hn.least f hold hsel hlt hle
    · exact absurd hle (not_le_of_gt (lt_of_closed_of_inflight hF hn.closed ht))

/-- Handling the next entry moves the cursor to it and keeps the
bookkeeping. -/
theorem Covers.advance
    (hc : Covers F V sel start cursor done)
    (hn : Next F V sel cursor e) :
    Covers F V sel start e.pos (done ++ [e.pos]) where
  start_le := le_trans hc.start_le (le_of_lt hn.above)
  closed := .inr hn.closed
  sorted := by
    rw [pairwise_append]
    refine ⟨hc.sorted, pairwise_singleton _ _, ?_⟩
    intro p hp _ hq
    rw [mem_singleton] at hq
    subst hq
    exact lt_of_le_of_lt (hc.within p hp).2 hn.above
  within := by
    intro p hp
    rcases mem_append.mp hp with hp | hp
    · obtain ⟨hlt, hle⟩ := hc.within p hp
      exact ⟨hlt, le_trans hle (le_of_lt hn.above)⟩
    · rw [mem_singleton] at hp
      subst hp
      exact ⟨lt_of_le_of_lt hc.start_le hn.above, le_refl _⟩
  genuine := by
    intro p hp
    rcases mem_append.mp hp with hp | hp
    · exact hc.genuine p hp
    · rw [mem_singleton] at hp
      subst hp
      exact ⟨e, hn.logged, rfl, hn.selected⟩
  complete := by
    intro f hf hsel hlt hle
    rcases le_or_gt f.pos cursor with hcur | hcur
    · exact mem_append_left _ (hc.complete f hf hsel hlt hcur)
    · rw [hn.least f hf hsel hcur hle]
      simp

/-- A selected visible entry between start and cursor was handled exactly
once. -/
theorem Covers.count_eq_one
    (hc : Covers F V sel start cursor done)
    (he : e ∈ V)
    (hsel : sel e.data)
    (hlt : start < e.pos)
    (hle : e.pos ≤ cursor) :
    done.count e.pos = 1 := by
  have hnodup : done.Nodup := hc.sorted.imp (fun h => ne_of_lt h)
  exact count_eq_one_of_mem hnodup (hc.complete e he hsel hlt hle)

end

end Consumer

section Picking

variable (F : Frontier τ ε) (V : List (Entry ε))
variable (sel : ε → Prop) [DecidablePred sel] (cursor : Position)

/-- The least eligible selected entry above the cursor. -/
def pick : Option (Entry ε) :=
  ((V.filter (fun e => sel e.data ∧ cursor < e.pos ∧ F.Eligible e.pos)).insertionSort
    (fun a b => a.pos ≤ b.pos)).head?

variable {F V sel cursor}

section

omit [DecidableEq τ]

theorem mem_of_pick
    {e : Entry ε}
    (h : pick F V sel cursor = some e) :
    e ∈ V ∧ sel e.data ∧ cursor < e.pos ∧ F.Eligible e.pos := by
  have hmem := mem_of_mem_head? h
  rw [mem_insertionSort, mem_filter] at hmem
  simpa using hmem

theorem pick_le
    {e f : Entry ε}
    (h : pick F V sel cursor = some e)
    (hf : f ∈ V)
    (hsel : sel f.data)
    (hlt : cursor < f.pos)
    (hel : F.Eligible f.pos) :
    e.pos ≤ f.pos := by
  have hsorted := pairwise_insertionSort (fun a b : Entry ε => a.pos ≤ b.pos)
    (V.filter (fun e => sel e.data ∧ cursor < e.pos ∧ F.Eligible e.pos))
  have hmem : f ∈ (V.filter (fun e =>
      sel e.data ∧ cursor < e.pos ∧ F.Eligible e.pos)).insertionSort
        (fun a b => a.pos ≤ b.pos) := by
    rw [mem_insertionSort, mem_filter]
    simp [hf, hsel, hlt, hel]
  unfold pick at h
  cases hl : (V.filter (fun e =>
      sel e.data ∧ cursor < e.pos ∧ F.Eligible e.pos)).insertionSort
        (fun a b => a.pos ≤ b.pos) with
  | nil =>
    rw [hl] at h
    simp at h
  | cons =>
    rw [hl] at h hmem hsorted
    simp only [List.head?_cons, Option.some.injEq] at h
    subst h
    rcases mem_cons.mp hmem with rfl | hrest
    · exact le_refl _
    · exact (pairwise_cons.mp hsorted).1 f hrest

/-- The picked entry is the next one. -/
theorem next_of_pick
    (hF : WF F)
    (hV : ∀ e ∈ V, e ∈ F.log)
    {e : Entry ε}
    (h : pick F V sel cursor = some e) :
    Next F V sel cursor e := by
  obtain ⟨he, hsel, hlt, hel⟩ := mem_of_pick h
  refine ⟨hV e he, hsel, hlt, closed_of_eligible hF (hV e he) hel, ?_⟩
  intro f hf hfsel hflt hfle
  have hfel : F.Eligible f.pos :=
    eligible_of_le hfle hel (hF.log_generation f (hV f hf))
      (hF.log_generation e (hV e he))
  exact le_antisymm hfle (pick_le h hf hfsel hflt hfel)

end

end Picking

end Frontier
end Swarog.Pg
