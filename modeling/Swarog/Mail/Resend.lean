import Swarog.Mail.Truth

/-!
# How often a mail is handed to its provider

`tallied` is the outbox together with the generations under which each row was handed to the
provider.  Every claim hands the row over once at most.

The limit on the attempts is applied when the outcome of an attempt is written.  A claim does
not look at the counter, so that attempts whose outcome is lost are not limited.  As long as a
row whose last outcome was lost is claimed below the limit only, the attempts since the last
requeue stay within it (`Fair`).
-/

namespace Swarog.Mail

open Pg (Sess Stmt Programs World)
open TransitionSystem Function List Option

section Tally

/-- The generation of a claim. -/
def Event.claimGen? : Event → Option Int
  | .claimed g => some g
  | _ => none

def claims (l : List Event) : Nat := (l.filterMap Event.claimGen?).length

def requeues (l : List Event) : Nat := l.countP (fun e => decide (e = .requeued))

/-- The claims since the last requeue. -/
def burnt (l : List Event) : Nat :=
  l.foldl (fun n e =>
    match e with
    | .claimed _ => n + 1
    | .requeued => 0
    | _ => n) 0

/-- The outcome of the last attempt was not written. -/
def endsClaimed (l : List Event) : Bool := l.getLast?.any (fun e => e.claimGen?.isSome)

/-- The generations under which each row was handed over. -/
abbrev Handed := MailId → List Int

def Handed.note (handed : Handed) : Act → Handed
  | .send _ c _ => Function.update handed c.id (handed c.id ++ [c.generation])
  | _ => handed

/-- The outbox with a tally of what the provider was handed. -/
def tallied : TransitionSystem (World Data Pc × Handed) (Sess × Act) where
  start := (system.start, fun _ => [])
  enabled s l := system.enabled s.1 l
  effect s l := (system.effect s.1 l, s.2.note l.2)

instance (s : World Data Pc × Handed) (l : Sess × Act) :
    Decidable (tallied.enabled s l) :=
  inferInstanceAs (Decidable (system.enabled s.1 l))

/-- All drain loops have the limit `m`. -/
def Limited (m : Nat) (_ : World Data Pc × Handed) (l : Sess × Act) : Prop :=
  match l.2 with
  | .claim drain _ _ _ => drain.maxAttempts = m
  | _ => True

/-- Moreover a row whose last outcome was not written is claimed below the limit only. -/
def Settling (m : Nat) (s : World Data Pc × Handed) (l : Sess × Act) : Prop :=
  match l.2 with
  | .claim drain id _ row =>
    drain.maxAttempts = m ∧ (endsClaimed (s.1.data.story id) = true → row.attempts < m)
  | _ => True

instance (m : Nat) (s : World Data Pc × Handed) (l : Sess × Act) :
    Decidable (Limited m s l) := by
  unfold Limited
  split <;> infer_instance

instance (m : Nat) (s : World Data Pc × Handed) (l : Sess × Act) :
    Decidable (Settling m s l) := by
  unfold Settling
  split <;> infer_instance

variable {G : World Data Pc × Handed → Sess × Act → Prop} {s : World Data Pc × Handed}

/-- The tally does not change what the outbox does. -/
theorem reachable_fst (h : tallied.Reachable G s) : system.Reachable anyStep s.1 := by
  refine h.invariant ?_ ?_
  · exact Reaches.refl _
  · intro _ l _ hr _ en
    exact Reaches.tail l hr trivial en

end Tally

section Handing

variable {G : World Data Pc × Handed → Sess × Act → Prop} {s : World Data Pc × Handed}
variable {l : List Event} {g : Int}

theorem le_bumps (hnumbered : Numbered l) (hclaim : .claimed g ∈ l) : g ≤ bumps l := by
  obtain ⟨a, b, rfl⟩ := append_of_mem hclaim
  have hg := hnumbered a g b rfl
  have hcount : bumps (a ++ .claimed g :: b) = bumps a + (1 + bumps b) := bumps_claimed
  have hb : 0 ≤ bumps b := bumps_nonneg
  omega

/-- What a session is about to hand over. -/
def Pc.due? : Pc → Option (MailId × Int)
  | .sending _ c => some (c.id, c.generation)
  | _ => none

/-- Every hand-over belongs to a claim of its own, and what is about to be handed over was
not before. -/
structure Tallied (s : World Data Pc × Handed) : Prop where
  nodup : ∀ id, (s.2 id).Nodup
  claimed : ∀ id, ∀ g ∈ s.2 id, .claimed g ∈ s.1.data.story id
  fresh : ∀ t id g, (s.1.pc t).due? = some (id, g) → g ∉ s.2 id
  single : ∀ t u x, (s.1.pc t).due? = some x → (s.1.pc u).due? = some x → t = u

variable {w : World Data Pc} {t u : Sess} {a : Act} {id : MailId} {x : MailId × Int}

/-- A step claims the row under its next generation. -/
def Act.Claims (d : Data) (x : MailId × Int) : Act → Prop
  | .claim _ id _ row => d.outbox.get id = some row ∧ x = (id, row.generation + 1)
  | _ => False

/-- What is due after a step was due before, or has just been claimed. -/
theorem due_step (en : system.enabled w (t, a))
    (h : ((system.effect w (t, a)).pc u).due? = some x) :
    (w.pc u).due? = some x ∨ (u = t ∧ a.Claims w.data x) := by
  refine Programs.pc_read (X := programs) Pc.due? en (fun hafter => ?_) h
  cases a with
  | claim => exact .inr ⟨en.2.1, (some.inj hafter).symm⟩
  | _ => cases hafter

/-- A new claim has a generation of its own. -/
theorem claims_newer {id : MailId} (hs : Sound w.data id) (hclaims : a.Claims w.data (id, g)) :
    ∀ g', .claimed g' ∈ w.data.story id → g' < g := by
  intro _ hclaimed
  cases a with
  | claim _ _ _ row =>
    obtain ⟨hrow, heq⟩ := hclaims
    obtain ⟨rfl, rfl⟩ := Prod.mk.inj heq
    have hle := le_bumps hs.numbered hclaimed
    have hgen := (hs.row row hrow).generation
    omega
  | _ => exact hclaims.elim

theorem due_claimed (hk : (w.pc t).Knows w.data) (h : (w.pc t).due? = some (id, g)) :
    .claimed g ∈ w.data.story id := by
  cases hpc : w.pc t with
  | sending =>
    rw [hpc] at hk h
    obtain ⟨rfl, rfl⟩ := Prod.mk.inj (some.inj h)
    exact hk
  | _ =>
    rw [hpc] at h
    cases h

/-- A hand-over after a step was one before, or is the one of the session that made the
step. -/
theorem mem_note {handed : Handed} (en : system.enabled w (t, a)) (h : g ∈ handed.note a id) :
    g ∈ handed id ∨ ((w.pc t).due? = some (id, g) ∧
      ((system.effect w (t, a)).pc t).due? = none) := by
  cases a with
  | send drain c =>
    by_cases hid : id = c.id
    · subst hid
      rw [Handed.note, update_self, mem_append, mem_singleton] at h
      refine h.imp_right ?_
      rintro rfl
      constructor
      · rw [show w.pc t = .sending drain c from en.1]
        rfl
      · exact congrArg Pc.due? (Programs.pc_own (X := programs))
    · rw [Handed.note, update_of_ne hid] at h
      exact .inl h
  | _ => exact .inl h

theorem tallied_step (hr : system.Reachable anyStep s.1) (h : Tallied s)
    (en : tallied.enabled s (t, a)) : Tallied (tallied.effect s (t, a)) := by
  obtain ⟨w, handed⟩ := s
  obtain ⟨hs, hk⟩ := sound_reachable hr
  have hgrow : ∀ id e, e ∈ w.data.story id → e ∈ ((stmt t a).change w.data).story id := by
    intro id e he
    obtain ⟨es, -, heq⟩ := fated_reachable hr en id
    rw [heq]
    exact mem_append_left _ he
  refine ⟨?_, ?_, ?_, ?_⟩
  · intro id
    show (handed.note a id).Nodup
    cases a with
    | send drain c =>
      by_cases hid : id = c.id
      · subst hid
        have hdue : (w.pc t).due? = some (c.id, c.generation) := by
          rw [show w.pc t = .sending drain c from en.1]
          rfl
        rw [Handed.note, update_self, ← concat_eq_append]
        exact (h.nodup c.id).concat (h.fresh t _ _ hdue)
      · rw [Handed.note, update_of_ne hid]
        exact h.nodup id
    | _ => exact h.nodup id
  · intro id g hg
    rcases mem_note en hg with hold | hdue
    · exact hgrow id _ (h.claimed id g hold)
    · exact hgrow id _ (due_claimed (hk t) hdue.1)
  · intro u id g hdue hg
    rcases due_step en hdue with hold | ⟨rfl, hclaims⟩
    · rcases mem_note en hg with hmem | hdue'
      · exact h.fresh u id g hold hmem
      · -- The session that hands the row over is no longer about to.
        obtain rfl := h.single u t (id, g) hold hdue'.1
        exact some_ne_none _ (hdue.symm.trans hdue'.2)
    · rcases mem_note en hg with hmem | hdue'
      · exact Int.lt_irrefl _ (claims_newer (hs id) hclaims g (h.claimed id g hmem))
      · exact Int.lt_irrefl _ (claims_newer (hs id) hclaims g (due_claimed (hk u) hdue'.1))
  · intro u v x hu hv
    obtain ⟨id, g⟩ := x
    rcases due_step en hu with hold | ⟨rfl, hclaims⟩
    · rcases due_step en hv with hold' | ⟨rfl, hclaims⟩
      · exact h.single u v (id, g) hold hold'
      · exact absurd (claims_newer (hs id) hclaims g (due_claimed (hk u) hold))
          (Int.lt_irrefl _)
    · rcases due_step en hv with hold' | ⟨rfl, -⟩
      · exact absurd (claims_newer (hs id) hclaims g (due_claimed (hk v) hold'))
          (Int.lt_irrefl _)
      · rfl

/-- A row is handed over once for each of its claims at most. -/
theorem handed_le_claims (h : tallied.Reachable G s) (id : MailId) :
    (s.2 id).length ≤ claims (s.1.data.story id) := by
  have htallied : Tallied s := by
    refine h.invariant ?_ ?_
    · exact ⟨fun _ => nodup_nil, fun _ _ hg => (nomatch hg), fun _ _ _ hdue => (nomatch hdue),
        fun _ _ _ hdue => (nomatch hdue)⟩
    · rintro _ ⟨_, _⟩ hr hI _ en
      exact tallied_step (reachable_fst hr) hI en
  have hsub : s.2 id ⊆ (s.1.data.story id).filterMap Event.claimGen? := by
    intro g hg
    exact mem_filterMap.2 ⟨.claimed g, htallied.claimed id g hg, rfl⟩
  exact (subperm_of_subset (htallied.nodup id) hsub).length_le

end Handing

section Limits

variable {l : List Event} {e : Event} {m : Nat}

/-- The claims stay within the limit for every requeue, and those since the last one. -/
structure Fair (m : Nat) (l : List Event) : Prop where
  total : claims l ≤ m * requeues l + burnt l
  since : burnt l ≤ m

/-- The counter of a row is the number of its claims since the last requeue; a pending row
whose last outcome was written has an attempt left. -/
structure Spent (m : Nat) (l : List Event) (row : MailRow) : Prop where
  attempts : row.attempts = burnt l
  room : row.state = .pending → endsClaimed l = false → burnt l < m

theorem claims_append : claims (l ++ [e]) = claims l + (e.claimGen?.toList).length := by
  cases e <;> simp [claims, Event.claimGen?]

theorem requeues_append : requeues (l ++ [e]) = requeues l + if e = .requeued then 1 else 0 := by
  simp [requeues, countP_append, countP_singleton]

theorem burnt_claimed (g : Int) : burnt (l ++ [.claimed g]) = burnt l + 1 := by simp [burnt]

theorem burnt_requeued : burnt (l ++ [.requeued]) = 0 := by simp [burnt]

theorem endsClaimed_append : endsClaimed (l ++ [e]) = e.claimGen?.isSome := by simp [endsClaimed]

theorem Fair.claimed {g : Int} (h : Fair m l) (hroom : burnt l < m) :
    Fair m (l ++ [.claimed g]) := by
  have htotal := h.total
  constructor
  · rw [claims_append, requeues_append, burnt_claimed]
    simp [Event.claimGen?]
    omega
  · rw [burnt_claimed]
    exact hroom

theorem Fair.requeued (h : Fair m l) : Fair m (l ++ [.requeued]) := by
  have htotal := h.total
  have hsince := h.since
  constructor
  · rw [claims_append, requeues_append, burnt_requeued]
    simp [Event.claimGen?, Nat.mul_add]
    omega
  · rw [burnt_requeued]
    exact Nat.zero_le _

/-- Neither a written outcome nor a cancel counts. -/
theorem Fair.other (h : Fair m l) (hbumps : e.bumps = false) :
    Fair m (l ++ [e]) ∧ burnt (l ++ [e]) = burnt l := by
  cases e with
  | claimed | requeued => cases hbumps
  | finished g disposition =>
    have hburnt : burnt (l ++ [.finished g disposition]) = burnt l := by simp [burnt]
    refine ⟨⟨?_, ?_⟩, hburnt⟩
    · rw [claims_append, requeues_append, hburnt]
      simpa [Event.claimGen?] using h.total
    · rw [hburnt]
      exact h.since
  | cancelled =>
    have hburnt : burnt (l ++ [.cancelled]) = burnt l := by simp [burnt]
    refine ⟨⟨?_, ?_⟩, hburnt⟩
    · rw [claims_append, requeues_append, hburnt]
      simpa [Event.claimGen?] using h.total
    · rw [hburnt]
      exact h.since

theorem Fair.bound (h : Fair m l) : claims l ≤ m * (1 + requeues l) := by
  have htotal := h.total
  have hsince := h.since
  rw [Nat.mul_add]
  omega

end Limits

section Claims

variable {d d' : Data} {t : Sess} {a : Act} {id : MailId} {m : Nat}

/-- The claim that a session works on. -/
def Pc.claim? : Pc → Option (Drain × Claimed)
  | .sending drain c => some (drain, c)
  | .answered drain c _ => some (drain, c)
  | _ => none

/-- The limit is `m`, and the row has the counter that the claim has returned as long as it
has its generation. -/
def Burns (m : Nat) (d : Data) (pc : Pc) : Prop :=
  ∀ drain c, pc.claim? = some (drain, c) → drain.maxAttempts = m ∧
    ∀ row, d.outbox.get c.id = some row → row.generation = c.generation → row.attempts = c.attempts

theorem claim_known {pc : Pc} {drain : Drain} {c : Claimed} (hk : pc.Knows d)
    (h : pc.claim? = some (drain, c)) : .claimed c.generation ∈ d.story c.id := by
  cases pc with
  | sending =>
    obtain ⟨rfl, rfl⟩ := Prod.mk.inj (some.inj h)
    exact hk
  | answered =>
    obtain ⟨rfl, rfl⟩ := Prod.mk.inj (some.inj h)
    exact hk.1
  | _ => cases h

/-- The counter changes with the generation only. -/
theorem Fate.attempts {r r' : Option MailRow} {es : List Event} {row' : MailRow} {g n : Int}
    (h : Fate d id r r' es) (hs : Sound d id) (hr : r = d.outbox.get id) (hr' : r' = some row')
    (hclaimed : .claimed g ∈ d.story id) (hgen : row'.generation = g)
    (hold : ∀ row, r = some row → row.generation = g → row.attempts = n) : row'.attempts = n := by
  have hle : g ≤ bumps (d.story id) := le_bumps hs.numbered hclaimed
  cases h with
  | same => exact hold row' hr' hgen
  | created _ _ _ hopened =>
    obtain ⟨⟨u, r⟩, hget⟩ := ne_none_iff_exists'.1 hopened
    rw [(hs.opened u r hget).2.1] at hclaimed
    cases hclaimed
  | claimed row | requeued row =>
    obtain rfl := some.inj hr'
    have hrow := (hs.row row hr.symm).generation
    have hnew : row.generation + 1 = g := hgen
    omega
  | finished row disposition =>
    obtain rfl := some.inj hr'
    cases disposition <;> exact hold row rfl hgen
  | cancelled row =>
    obtain rfl := some.inj hr'
    exact hold row rfl hgen
  | pruned => cases hr'

theorem Burns.step {pc : Pc} (h : Burns m d pc) (hs : ∀ id, Sound d id) (hk : pc.Knows d)
    (hf : Fated d d') : Burns m d' pc := by
  intro drain c hpc
  obtain ⟨hlimit, hrow⟩ := h drain c hpc
  refine ⟨hlimit, fun row' hget hgen => ?_⟩
  obtain ⟨_, hfate, -⟩ := hf c.id
  exact hfate.attempts (hs c.id) rfl hget (claim_known hk hpc) hgen hrow

theorem outbox_claimDue {now lease : Int} {row : MailRow} (hget : d.outbox.get id = some row)
    (hdue : row.due now = true) :
    (d.claimDue id now lease).outbox.get id = some (row.claimed now lease) := by
  unfold Data.claimDue Data.updateWhere
  rw [hget]
  simp only [hdue, if_true]
  exact FinMap.get_set_self _ _ _

theorem burns_own (hs : ∀ id, Sound d id) (hk : (stmt t a).before.Knows d) (hg : (stmt t a).guard d)
    (hlimit : ∀ drain id now row, a = .claim drain id now row → drain.maxAttempts = m)
    (h : Burns m d (stmt t a).before) : Burns m ((stmt t a).change d) ((stmt t a).after d) := by
  cases a with
  | claim drain id now row =>
    intro drain' c hpc
    obtain ⟨rfl, rfl⟩ := Prod.mk.inj (some.inj hpc)
    refine ⟨hlimit _ _ _ _ rfl, fun row' hget _ => ?_⟩
    have hrow : some row' = some (row.claimed now drain.claimLease) :=
      hget.symm.trans (outbox_claimDue hg.1 hg.2)
    rw [some.inj hrow]
    rfl
  | send drain c result =>
    have hkept := h.step hs hk (fated_step (t := t) (a := .send drain c result) hs hk)
    exact fun drain' c' hpc => hkept drain' c' hpc
  | _ => exact fun _ _ hpc => (nomatch hpc)

end Claims

section Caps

variable {d d' : Data} {t : Sess} {a : Act} {m : Nat}

/-- Every row and its story stay within the limit. -/
def Capped (m : Nat) (d : Data) : Prop :=
  ∀ id, Fair m (d.story id) ∧ ∀ row, d.outbox.get id = some row → Spent m (d.story id) row

theorem Capped.updateWhere
    {id : MailId} {f : MailRow → Bool} {change : MailRow → MailRow} {event : MailRow → Event}
    (h : Capped m d)
    (hrow : ∀ row, d.outbox.get id = some row → f row = true → Fair m (d.story id) →
      Spent m (d.story id) row →
      Fair m (d.story id ++ [event row]) ∧ Spent m (d.story id ++ [event row]) (change row)) :
    Capped m (d.updateWhere id f change event) := by
  unfold Data.updateWhere
  cases hget : d.outbox.get id with
  | none => exact h
  | some row =>
    dsimp only
    split
    · rename_i hf
      intro id'
      by_cases hid : id' = id
      · subst hid
        obtain ⟨hfair, hspent⟩ := hrow row hget hf (h id').1 ((h id').2 row hget)
        simp only [update_self, FinMap.get_set_self, some.injEq]
        exact ⟨hfair, fun row' heq => heq ▸ hspent⟩
      · simp only [update_of_ne hid, FinMap.get_set_of_ne _ hid]
        exact h id'
    · exact h

/-- A step that writes no story: rows come into being without attempts. -/
theorem Capped.quiet (h : Capped m d) (hm : 1 ≤ m) (hs : ∀ id, Sound d id) (hf : Fated d d')
    (hstory : d'.story = d.story) : Capped m d' := by
  intro id
  obtain ⟨es, hfate, heq⟩ := hf id
  obtain rfl : es = [] := by simpa [hstory] using heq
  rw [hstory]
  refine ⟨(h id).1, fun row' hrow' => ?_⟩
  rw [hrow'] at hfate
  generalize hr : d.outbox.get id = r at hfate
  cases hfate with
  | same => exact (h id).2 row' hr
  | created _ _ _ hopened =>
    obtain ⟨⟨u, r⟩, hget⟩ := ne_none_iff_exists'.1 hopened
    rw [((hs id).opened u r hget).2.1]
    exact ⟨rfl, fun _ _ => hm⟩

/-- The status is written: a row that stays pending has an attempt left. -/
theorem Spent.finished
    {l : List Event} {row : MailRow} {result : SendResult} {provider : String} {g now n : Int}
    (h : Spent m l row) (hfair : Fair m l) (hn : row.attempts = n) :
    Spent m (l ++ [.finished g (disposition result n m)])
      (row.finished (disposition result n m) provider now) := by
  have hburnt := (hfair.other (e := .finished g (disposition result n m)) rfl).2
  have hattempts : (row.finished (disposition result n m) provider now).attempts =
      row.attempts := by
    cases disposition result n m <;> rfl
  refine ⟨?_, fun hpending _ => ?_⟩
  · rw [hattempts, hburnt]
    exact h.attempts
  · rw [hburnt]
    have hleft : n < m := by
      cases result with
      | ok | rejected => cases hpending
      | infra lastError =>
        by_contra hnot
        have hparked : disposition (.infra lastError) n m = .parked lastError := if_pos (by omega)
        rw [hparked] at hpending
        cases hpending
    have hcount := h.attempts
    omega

theorem requeued_spent {l : List Event} {row : MailRow} {now : Int} (hm : 1 ≤ m) :
    Spent m (l ++ [.requeued]) (row.requeued now) := by
  refine ⟨?_, fun _ _ => ?_⟩
  · rw [burnt_requeued]
    rfl
  · rw [burnt_requeued]
    exact hm

theorem Capped.requeueParked (h : Capped m d) (hm : 1 ≤ m) (id : MailId) (now : Int) :
    Capped m (d.requeueParked id now) :=
  h.updateWhere (fun _ _ _ hfair _ => ⟨hfair.requeued, requeued_spent hm⟩)

theorem Capped.requeueAllParked (h : Capped m d) (hm : 1 ≤ m) (ids : List MailId) (now : Int) :
    Capped m (d.requeueAllParked ids now) := by
  induction ids generalizing d with
  | nil => exact h
  | cons id _ ih => exact ih (h.requeueParked hm id now)

/-- A claim of a row whose last outcome was written, or that is below the limit. -/
theorem Capped.claimDue
    {id : MailId}
    (h : Capped m d)
    (hlost : ∀ row, d.outbox.get id = some row → endsClaimed (d.story id) = true →
      row.attempts < m)
    (now lease : Int) :
    Capped m (d.claimDue id now lease) := by
  refine h.updateWhere (fun row hget hdue hfair hspent => ?_)
  have hpending : row.state = .pending := of_decide_eq_true (Bool.and_eq_true_iff.1 hdue).1
  have hroom : burnt (d.story id) < m := by
    cases hends : endsClaimed (d.story id) with
    | false => exact hspent.room hpending hends
    | true =>
      have hleft := hlost row hget hends
      have hcount := hspent.attempts
      omega
  refine ⟨hfair.claimed hroom, ?_, fun _ hends => ?_⟩
  · rw [burnt_claimed]
    show row.attempts + 1 = _
    rw [hspent.attempts]
    rfl
  · rw [endsClaimed_append] at hends
    cases hends

theorem capped_step (hm : 1 ≤ m) (hs : ∀ id, Sound d id) (hk : (stmt t a).before.Knows d)
    (hburns : Burns m d (stmt t a).before)
    (hlost : ∀ drain id now row, a = .claim drain id now row →
      ∀ row, d.outbox.get id = some row → endsClaimed (d.story id) = true → row.attempts < m)
    (h : Capped m d) :
    Capped m ((stmt t a).change d) := by
  have hfated := fated_step hs hk
  cases a with
  | claim drain id now => exact h.claimDue (hlost _ _ _ _ rfl) now _
  | send =>
    refine h.quiet hm hs hfated ?_
    simp only [stmt]
    split <;> rfl
  | finish drain c =>
    refine h.updateWhere (fun row hget hcond hfair hspent => ?_)
    simp only [Bool.and_eq_true, decide_eq_true_eq] at hcond
    obtain ⟨hlimit, hattempts⟩ := hburns drain c rfl
    rw [hlimit]
    exact ⟨(hfair.other rfl).1, hspent.finished hfair (hattempts row hget hcond.2)⟩
  | requeue id now => exact h.requeueParked hm id now
  | requeueAll ids now => exact h.requeueAllParked hm ids now
  | cancel =>
    refine h.updateWhere (fun row _ _ hfair hspent => ?_)
    have hother := hfair.other (e := .cancelled) rfl
    refine ⟨hother.1, ?_, fun hpending => (by cases hpending)⟩
    rw [hother.2]
    exact hspent.attempts
  | reread =>
    refine h.quiet hm hs hfated ?_
    simp only [stmt, Data.reread]
    split <;> rfl
  | _ => exact h.quiet hm hs hfated rfl

end Caps

section Resend

variable {m : Nat} {s : World Data Pc × Handed}

theorem capped_reachable (hm : 1 ≤ m) (h : tallied.Reachable (Settling m) s) :
    Capped m s.1.data ∧ ∀ t, Burns m s.1.data (s.1.pc t) := by
  refine h.invariant ?_ ?_
  · exact ⟨fun _ => ⟨⟨Nat.zero_le _, Nat.zero_le _⟩, fun _ hrow => (nomatch hrow)⟩,
      fun _ _ _ hpc => (nomatch hpc)⟩
  rintro ⟨w, handed⟩ ⟨t, a⟩ hr ⟨hcapped, hburns⟩ hG en
  have hreach := reachable_fst hr
  obtain ⟨hs, hk⟩ := sound_reachable hreach
  have hbefore := knows_before hreach en
  have hburnt : Burns m w.data (stmt t a).before := by
    have hpc : w.pc t = (stmt t a).before := en.1
    exact hpc ▸ hburns t
  refine ⟨capped_step hm hs hbefore hburnt ?_ hcapped,
    Programs.pc_effect (X := programs) (fun _ => Burns m _) ?_ (fun u _ => ?_)⟩
  · rintro _ _ _ _ rfl row hget hends
    obtain rfl := some.inj (hget.symm.trans en.2.1)
    exact hG.2 hends
  · refine burns_own hs hbefore en.2 ?_ hburnt
    rintro _ _ _ _ rfl
    exact hG.1
  · exact (hburns u).step hs (hk u) (fated_reachable hreach en)

/-- As long as a row whose last outcome was lost is claimed below the limit only, a row is
handed to the provider within the limit for each of its requeues. -/
theorem resend_bounded (m : Nat) (hm : 1 ≤ m) (s : World Data Pc × Handed)
    (h : tallied.Reachable (Settling m) s) (id : MailId) :
    (s.2 id).length ≤ m * (1 + requeues (s.1.data.story id)) :=
  Nat.le_trans (handed_le_claims h id) ((capped_reachable hm h).1 id).1.bound

/-- The process dies after the first attempt, and the row is claimed again after its lease. -/
def lost (maxAttempts : Int) : List (Sess × Act) :=
  let drain := { smtp with maxAttempts := maxAttempts }
  let row := MailRow.inserted welcome 0
  let row₁ := row.claimed 5 drain.claimLease
  let c₁ := row₁.claim 1
  let c₂ := (row₁.claimed 40000 drain.claimLease).claim 1
  [(0, .begin), (0, .insert 1 welcome 0), (0, .commit), (1, .claim drain 1 5 row),
    (1, .send drain c₁ (.infra "timed out")), (1, .die (.answered drain c₁ (.infra "timed out"))),
    (2, .claim drain 1 40000 row₁), (2, .send drain c₂ (.infra "timed out"))]

/-- With two attempts the second claim is below the limit. -/
theorem resend_bounded_retried :
    ∃ s, tallied.Reachable (Settling 2) s ∧ (s.2 1).length = 2 ∧
      (s.2 1).length ≤ 2 * (1 + requeues (s.1.data.story 1)) := by
  obtain ⟨s, hr, hf⟩ := exec_exhibits (T := tallied) (Settling 2) (lost 2)
    (f := fun s => decide ((s.2 1).length = 2)) (by decide +kernel)
  exact ⟨s, hr, of_decide_eq_true hf, resend_bounded 2 (by decide) s hr 1⟩

/-- With a limit of one attempt and no requeue, the row is handed over twice. -/
theorem resend_lost :
    ¬ ∀ (m : Nat) (s : World Data Pc × Handed) (id : MailId), 1 ≤ m →
      tallied.Reachable (Limited m) s →
        (s.2 id).length ≤ m * (1 + requeues (s.1.data.story id)) := by
  intro hall
  obtain ⟨s, hr, hf⟩ := exec_exhibits (T := tallied) (Limited 1) (lost 1)
    (f := fun s => decide ((s.2 1).length = 2 ∧ requeues (s.1.data.story 1) = 0))
    (by decide +kernel)
  obtain ⟨htwo, hnone⟩ := of_decide_eq_true hf
  have hle := hall 1 s 1 (by decide) hr
  rw [htwo, hnone] at hle
  exact absurd hle (by decide)

end Resend

end Swarog.Mail
