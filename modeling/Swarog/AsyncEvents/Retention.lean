import Swarog.AsyncEvents.Delivery

/-!
# Retention never deletes an undelivered event

`gc_topic` computes a batch from one snapshot and the rows disappear when the
statement commits.  In between other sessions move cursors, change states and
register subscriptions.  The batch stays below every cursor that counts, because
cursors only grow; what could hurt is a subscription that enters the set of
subscriptions that count while the statement runs.  `Disciplined` rules out the
two ways of doing so: leaving the retired state, and registering during the
statement.
-/

namespace Swarog.AsyncEvents.Plane

open Pg Table Function List

section Contracts

variable {st : Plane} {a : Act}

/-- A history contract waiting for its commit is the first of its stream. -/
def ContractsOk (st : Plane) : Prop :=
  ∀ k s v, st.contracts.pending k = some (s, v) → st.contracts.committed k = none ∧ v ≠ none

/-- Every statement is one step on the contracts, and writes only where there
is none. -/
theorem contracts_step (hc : ContractsOk st) (en : st.enabled a) :
    ContractsOk (st.effect a) ∧
      ∀ k r, st.contracts.committed k = some r → (st.effect a).contracts.committed k = some r := by
  have hsame : ∀ st' : Plane, st'.contracts = st.contracts →
      ContractsOk st' ∧ ∀ k r, st.contracts.committed k = some r →
        st'.contracts.committed k = some r := by
    intro _ heq
    unfold ContractsOk
    rw [heq]
    exact ⟨hc, fun _ _ h => h⟩
  cases a with
  | ensureHistory s topic version =>
    obtain ⟨-, v, hv, -, -⟩ := en
    have hv' : i32TryFrom version = some v := hv
    simp only [effect, hv']
    cases hview : st.contracts.view s (topic, v) with
    | some => exact hsame _ rfl
    | none =>
      have hnone : st.contracts.committed (topic, v) = none := by
        cases hp : st.contracts.pending (topic, v) with
        | none => rw [← hview, view_of_pending_none hp]
        | some p => exact (hc (topic, v) p.1 p.2 hp).1
      refine ⟨?_, fun k r hr => by simpa using hr⟩
      intro k u w hp
      simp only [committed_write]
      by_cases hk : k = (topic, v)
      · subst hk
        simp only [pending_write_self] at hp
        cases hp
        exact ⟨hnone, by simp⟩
      · simp only [pending_write_of_ne s _ _ hk] at hp
        exact hc k u w hp
  | seedHistory topic version =>
    obtain ⟨v, hv, hpend, -⟩ := en
    have hv' : i32TryFrom version = some v := hv
    simp only [effect, hv']
    cases hview : st.contracts.committed (topic, v) with
    | some => exact hsame _ rfl
    | none =>
      constructor
      · intro k u w hp
        simp only [pending_put] at hp
        have hk : k ≠ (topic, v) := by
          rintro rfl
          rw [hpend] at hp
          cases hp
        simp only [committed_put, hk, if_false]
        exact hc k u w hp
      · intro k _ hr
        have hk : k ≠ (topic, v) := by
          rintro rfl
          rw [hview] at hr
          cases hr
        simpa [committed_put, hk] using hr
  | commit s =>
    constructor
    · intro k u w hp
      obtain ⟨hp, hu⟩ := (pending_commit s st.contracts k u w).mp hp
      obtain ⟨hnone, hw⟩ := hc k u w hp
      refine ⟨?_, hw⟩
      simp only [effect, committed_commit, view_of_pending_other hp hu, hnone]
    · intro k _ hr
      have hfree : ∀ w, st.contracts.pending k ≠ some (s, w) := by
        intro w hp
        rw [(hc k s w hp).1] at hr
        cases hr
      simpa [effect, view_of_not_holder hfree] using hr
  | abort s | fault s =>
    constructor
    · intro k u w hp
      obtain ⟨hp, -⟩ := (pending_rollback s st.contracts k u w).mp hp
      simpa [effect] using hc k u w hp
    · exact fun k r hr => by simpa [effect] using hr
  | register =>
    simp only [effect]
    split <;> exact hsame _ rfl
  | _ => exact hsame _ rfl

/-- The contract a sweep works on is stored. -/
def Contracted (st : Plane) (target : GcTarget) : Prop :=
  st.contracts.committed (target.topic, target.version) =
    some ⟨.minRetention, target.days⟩

/-- What a sweep knows independently of other sessions' cursors. -/
def Targets (st : Plane) : Role → Prop
  | .sweeping todo => ∀ t ∈ todo, st.Contracted t
  | .deleting target rest _ => ∀ t ∈ target :: rest, st.Contracted t
  | _ => True

/-- The roles of retention. -/
def Sweeps : Role → Prop
  | .sweeping _ | .deleting _ _ _ => True
  | _ => False

/-- The statements by which a session takes a role of retention. -/
def SweepAct : Act → Prop
  | .sweepList _ _ | .gcDelete _ _ _ | .gcCommit _ _ _ _ | .gcFail _ _ _ _ => True
  | _ => False

theorem not_sweeps_of_mayAppend {r : Role} (h : r.MayAppend) : ¬ Sweeps r := by
  cases r with
  | producer | handling c e | poisoned c => exact id
  | _ => exact False.elim h

theorem not_sweeps_of_mayBegin {r : Role} (h : st.MayBegin r) : ¬ Sweeps r := by
  cases r with
  | sweeping todo | deleting target rest batch => exact False.elim h
  | _ => exact id

/-- Other statements leave the sweeping sessions alone. -/
theorem session_of_sweeps {u : Sess} (en : st.enabled a) (ha : ¬ SweepAct a)
    (hs : Sweeps ((st.effect a).session u).role) : (st.effect a).session u = st.session u := by
  by_cases hu : a.actor = some u
  · cases a with
    | tick d | otherXid | seedHistory topic version history | recordStale c row error
    | dropStale c | operator cmd id row => cases hu
    | sweepList s targets | gcDelete s target rest | gcCommit s target rest batch
    | gcFail => exact absurd trivial ha
    | assignXid => rfl
    | ensureHistory =>
      simp only [effect]
      split
      · rfl
      · split <;> rfl
    | register =>
      cases hu
      simp only [effect] at hs
      split at hs <;> simp [become, Sweeps] at hs
    | begin =>
      cases hu
      simp only [effect, update_self] at hs
      exact absurd hs (not_sweeps_of_mayBegin en.2)
    | appendLock s req | appendRead s req | appendInsert s req g eventId =>
      cases hu
      simp only [effect, update_self] at hs
      exact absurd hs (not_sweeps_of_mayAppend en.1)
    | handle =>
      cases hu
      simp only [effect, update_self, en.1] at hs
      exact False.elim hs
    | commit s | abort s | sweepEnd s =>
      cases hu
      simp [effect, Session.idle, Sweeps] at hs
    | _ =>
      cases hu
      simp [effect, become, Sweeps] at hs
  · exact session_other hu

theorem contracted_of_gcTargets {t : GcTarget} (ht : t ∈ st.gcTargets) : st.Contracted t := by
  obtain ⟨⟨⟨_, _⟩, row⟩, hmem, rfl⟩ := mem_map.mp ht
  rw [mem_filter] at hmem
  obtain ⟨hmem, hpolicy⟩ := hmem
  have hrow := mem_rows.mp hmem
  obtain ⟨_, _⟩ := row
  simp only [decide_eq_true_eq] at hpolicy
  subst hpolicy
  exact hrow

/-- What every sweep knows of the contracts. -/
structure SweepOk (st : Plane) : Prop where
  contracts : ContractsOk st
  targets : ∀ s, st.Targets (st.session s).role

theorem targets_kept {st' : Plane} {r : Role} (h : st.Targets r)
    (hkept : ∀ k x, st.contracts.committed k = some x →
      st'.contracts.committed k = some x) : st'.Targets r := by
  cases r with
  | sweeping | deleting => exact fun t ht => hkept _ _ (h t ht)
  | _ => trivial

theorem sweepOk_step (h : SweepOk st) (en : st.enabled a) : SweepOk (st.effect a) := by
  obtain ⟨hok, hkept⟩ := contracts_step h.contracts en
  refine ⟨hok, ?_⟩
  intro u
  by_cases hother : a.actor = some u
  · by_cases ha : SweepAct a
    · cases a with
      | sweepList =>
        cases hother
        simp only [effect, become, update_self]
        intro t ht
        exact contracted_of_gcTargets (en.2.mem_iff.mp ht)
      | gcDelete s target rest =>
        cases hother
        have ht := h.targets u
        rw [en] at ht
        simp only [effect, update_self]
        exact ht
      | gcCommit s target rest batch =>
        cases hother
        have ht := h.targets u
        rw [en] at ht
        simp only [effect, become, update_self]
        split
        · exact fun t hmem => ht t (mem_cons_of_mem _ hmem)
        · exact ht
      | gcFail s target rest batch =>
        cases hother
        have ht := h.targets u
        rw [en] at ht
        simp only [effect, become, update_self]
        exact fun t hmem => ht t (mem_cons_of_mem _ hmem)
      | _ => exact False.elim ha
    · by_cases hs : Sweeps ((st.effect a).session u).role
      · rw [session_of_sweeps en ha hs]
        exact targets_kept (h.targets u) hkept
      · cases hr : ((st.effect a).session u).role with
        | sweeping todo | deleting target rest batch =>
          rw [hr] at hs
          exact absurd trivial hs
        | _ => trivial
  · rw [session_other hother]
    exact targets_kept (h.targets u) hkept

theorem sweepOk_reachable {G : Plane → Act → Prop} (h : system.Reachable G st) : SweepOk st := by
  refine h.invariant ?_ (fun _ _ _ hi _ en => sweepOk_step hi en)
  exact
    { contracts := fun _ _ _ hp => by simp [system, Plane.start] at hp
      targets := fun _ => trivial }

end Contracts

section Floor

variable {st : Plane} {a : Act} {target : GcTarget}

/-- The runs in which no subscription leaves the retired state and none
registers while a `DELETE` of retention runs. -/
def Disciplined (st : Plane) (a : Act) : Prop :=
  (∀ id row row', st.subs.committed id = some row → row.state = .retired →
    (st.effect a).subs.committed id = some row' → row'.state = .retired) ∧
  (∀ s entry, a = .commit s → (st.session s).role = .registered entry →
    st.subs.committed entry.id = none →
      ∀ u target rest batch, (st.session u).role ≠ .deleting target rest batch)

/-- Cursors only grow. -/
theorem RowStep.cursor_le
    {id : String} {v v' : Option SubRow} {new : List Position} {row row' : SubRow}
    (h : RowStep st a id v v' new) (hv : v = some row) (hv' : v' = some row') :
    row.cursor ≤ row'.cursor := by
  cases h with
  | kept =>
    rw [hv] at hv'
    cases hv'
    exact le_refl _
  | operated =>
    cases hv
    cases hv'
    rw [Command.cursor_apply]
  | stale | failed =>
    cases hv
    cases hv'
    rw [SubRow.cursor_recordFailure]
  | delivered s c e _ now act role same serves next | skipped s e _ reason now act role next =>
    cases hv
    cases hv'
    exact le_of_lt next.above
  | registered => cases hv

/-- Every position of the batch lies below the cursors that count. -/
def Below (st : Plane) (target : GcTarget) (batch : List Position) : Prop :=
  ∀ p ∈ batch, ∀ id row, st.subs.committed id = some row →
    row.topic = target.topic → row.contractVersion = target.version →
      row.state ≠ .retired → p < row.cursor

/-- Every position of the batch is that of an old event of the stream. -/
def Aged (st : Plane) (since : Nat) (target : GcTarget) (batch : List Position) : Prop :=
  since ≤ st.clock ∧ ∀ p ∈ batch, ∃ e ∈ st.front.log, e.pos = p ∧
    Selects target.topic target.version e.data ∧
      (e.data.createdAt : Int) < since - target.days * dayMicros

/-- What a running `DELETE` relies on. -/
def FloorOk (st : Plane) : Prop :=
  ∀ s target rest batch, (st.session s).role = .deleting target rest batch →
    st.Below target batch ∧ st.Aged (st.session s).startedAt target batch

theorem below_step {batch : List Position} {u : Sess} {rest : List GcTarget}
    (h : Inv st) (hd : Disciplined st a) (en : st.enabled a)
    (hrole : (st.session u).role = .deleting target rest batch) (hb : st.Below target batch) :
    (st.effect a).Below target batch := by
  intro p hp id row' hrow' htopic hversion hstate
  have hstep := row_step h en id
  cases hold : st.subs.committed id with
  | none =>
    -- a registration commits while the statement runs
    rw [hold, hrow'] at hstep
    generalize st.newlyHandledOf a id = new at hstep
    cases hstep with
    | registered s entry _ _ _ act role same =>
      subst same
      exact absurd hrole (hd.2 s entry act role hold u target rest batch)
  | some row =>
    obtain ⟨_, hrow'', hsame⟩ := hstep.same hold
    rw [hrow'] at hrow''
    cases hrow''
    have hstate' : row.state ≠ .retired := fun hr => hstate (hd.1 id row row' hold hr hrow')
    have hlt := hb p hp id row hold (hsame.topic.symm.trans htopic)
      (hsame.contractVersion.symm.trans hversion) hstate'
    exact lt_of_lt_of_le hlt (hstep.cursor_le hold hrow')

theorem clock_le (st : Plane) (a : Act) : st.clock ≤ (st.effect a).clock := by
  cases a with
  | tick => exact Nat.le_add_right _ _
  | ensureHistory | seedHistory =>
    simp only [effect]
    split
    · exact le_refl _
    · split <;> exact le_refl _
  | register =>
    simp only [effect]
    split <;> exact le_refl _
  | _ => exact le_refl _

theorem aged_step {since : Nat} {batch : List Position} (h : Inv st)
    (en : st.enabled a) (hag : st.Aged since target batch) :
    (st.effect a).Aged since target batch := by
  refine ⟨le_trans hag.1 (clock_le st a), ?_⟩
  intro p hp
  obtain ⟨e, he, hpos⟩ := hag.2 p hp
  exact ⟨e, (front_step h en).advance.log_kept e he, hpos⟩

theorem mem_gcBatch {p : Position} (hp : p ∈ st.gcBatch target) :
    ∃ e ∈ st.events, e.pos = p ∧ st.Reapable target e := by
  obtain ⟨e, he, rfl⟩ := mem_map.mp hp
  have hmem := mem_of_mem_take he
  rw [mem_insertionSort, mem_filter] at hmem
  exact ⟨e, hmem.1, rfl, by simpa using hmem.2⟩

/-- The batch a `DELETE` computes. -/
theorem floor_of_gcBatch (h : Inv st) (target : GcTarget) :
    st.Below target (st.gcBatch target) ∧ st.Aged st.clock target (st.gcBatch target) := by
  refine ⟨?_, le_refl _, ?_⟩
  · intro _ hp id row hrow htopic hversion hstate
    obtain ⟨_, -, rfl, -, -, hfloor⟩ := mem_gcBatch hp
    have hblock := hfloor (id, row) (mem_rows.mpr hrow)
    by_contra hle
    refine hblock ⟨htopic, hversion, ?_, not_lt.mp hle⟩
    cases hs : row.state with
    | active => exact .inl rfl
    | paused => exact .inr rfl
    | retired => exact absurd hs hstate
  · intro _ hp
    obtain ⟨e, he, rfl, hsel, hage, -⟩ := mem_gcBatch hp
    exact ⟨e, h.visible e he, rfl, hsel, hage⟩

theorem floor_step (h : Inv st) (hd : Disciplined st a) (en : st.enabled a) (hf : FloorOk st) :
    FloorOk (st.effect a) := by
  intro u target rest batch hrole'
  by_cases hgc : ∃ target' rest', a = .gcDelete u target' rest'
  · obtain ⟨target', _, rfl⟩ := hgc
    simp only [effect, update_self, Role.deleting.injEq] at hrole'
    obtain ⟨rfl, rfl, rfl⟩ := hrole'
    have hfloor := floor_of_gcBatch h target'
    simp only [effect, update_self]
    refine ⟨hfloor.1, hfloor.2.1, ?_⟩
    intro p hp
    obtain ⟨e, he, hpos⟩ := hfloor.2.2 p hp
    exact ⟨e, by simpa using he, hpos⟩
  · have hsess : (st.effect a).session u = st.session u := by
      by_cases hu : a.actor = some u
      · by_cases ha : SweepAct a
        · cases a with
          | gcDelete _ t r =>
            cases hu
            exact absurd ⟨t, r, rfl⟩ hgc
          | sweepList s t | gcCommit s t r b | gcFail s t r b =>
            cases hu
            simp [effect, become] at hrole'
          | _ => exact False.elim ha
        · exact session_of_sweeps en ha (by rw [hrole']; trivial)
      · exact session_other hu
    rw [hsess] at hrole' ⊢
    obtain ⟨hb, hag⟩ := hf u target rest batch hrole'
    exact ⟨below_step h hd en hrole' hb, aged_step h en hag⟩

theorem floor_reachable (h : system.Reachable Disciplined st) : FloorOk st := by
  refine h.invariant ?_
    (fun _ _ hr hi hd en => floor_step (inv_reachable hr) hd en hi)
  intro _ _ _ _ hrole
  simp [system, Plane.start, Session.idle] at hrole

end Floor

section Deletion

variable {st st' : Plane} {a : Act} {e : Entry Event} {row : SubRow} {id : String}

theorem eq_of_pos (h : Inv st) {f : Entry Event} (he : e ∈ st.front.log) (hf : f ∈ st.front.log)
    (hpos : e.pos = f.pos) : e = f :=
  h.wf.tie_inj e f (.inl he) (.inl hf) (by rw [hpos])

/-- Only the commit of a `DELETE` removes events, and only those of its
batch. -/
theorem deleted_from (he : e ∈ st.events) (hdel : e ∉ (st.effect a).events) :
    ∃ s target rest batch, a = .gcCommit s target rest batch ∧ e.pos ∈ batch := by
  by_cases hw : WithoutRetention st a
  · exact absurd (events_kept hw he) hdel
  · cases a with
    | gcCommit s target rest batch =>
      refine ⟨s, target, rest, batch, rfl, ?_⟩
      by_contra hpos
      exact hdel (mem_filter.mpr ⟨he, by simpa using hpos⟩)
    | _ => exact absurd trivial hw

theorem not_retired_of (h : row.state = .active ∨ row.state = .paused) : row.state ≠ .retired := by
  rcases h with h | h <;> simp [h]

/-- What a deleted event is, and where the cursors stand. -/
theorem deleted_below (h : system.Reachable Disciplined st)
    {s : Sess} {target : GcTarget} {rest : List GcTarget} {batch : List Position}
    (hrole : (st.session s).role = .deleting target rest batch) (he : e ∈ st.events)
    (hpos : e.pos ∈ batch) :
    Selects target.topic target.version e.data ∧
      (e.data.createdAt : Int) < st.clock - target.days * dayMicros ∧
      ∀ id row, st.subs.committed id = some row → row.Selects e.data →
        row.state ≠ .retired → e.pos < row.cursor := by
  obtain ⟨hbelow, hsince, haged⟩ := floor_reachable h s target rest batch hrole
  obtain ⟨f, hf, hfpos, hsel, hage⟩ := haged e.pos hpos
  have hi := inv_reachable h
  have heq : f = e := eq_of_pos hi hf (hi.visible e he) hfpos
  subst heq
  refine ⟨hsel, by omega, ?_⟩
  intro id row hrow hrsel hstate
  exact hbelow f.pos hpos id row hrow (hrsel.1.symm.trans hsel.1)
    (hrsel.2.symm.trans hsel.2) hstate

/-- An event that a commit adds to the log is visible. -/
theorem new_visible (he : e ∈ (st.effect a).front.log) (hnew : e ∉ st.front.log) :
    e ∈ (st.effect a).events := by
  by_cases hc : ∃ s, a = .commit s
  · obtain ⟨s, rfl⟩ := hc
    have he' : e ∈ (st.committedFront s (st.session s).role).log := he
    refine mem_append_right _ ?_
    cases hr : (st.session s).role with
    | bumped =>
      rw [hr] at he'
      exact absurd he' hnew
    | _ =>
      rw [hr] at he'
      exact (mem_append.mp he').resolve_left hnew
  · rw [log_of_not_commit (fun s hs => hc ⟨s, hs⟩)] at he
    exact absurd he hnew

/-- An event at or below the initial cursor, or handled. -/
def Settled (st : Plane) (id : String) (p : Position) : Prop :=
  ∃ start, st.initial id = some start ∧ (p ≤ start ∨ p ∈ st.handledOf id)

theorem settled_of_covers (hd : Delivered st)
    (hrow : st.subs.committed id = some row) (he : e ∈ st.events) (hsel : row.Selects e.data)
    (hle : e.pos ≤ row.cursor) : st.Settled id e.pos := by
  obtain ⟨start, hstart, hc⟩ := hd.covers id row hrow
  refine ⟨start, hstart, ?_⟩
  rcases le_or_gt e.pos start with hlow | hhigh
  · exact .inl hlow
  · exact .inr (hc.complete e he hsel hhigh hle)

theorem settled_step {p : Position}
    (hrow : st.subs.committed id = some row) (hs : st.Settled id p) :
    (st.effect a).Settled id p := by
  obtain ⟨start, hstart, hp⟩ := hs
  refine ⟨start, (initial_kept hrow).trans hstart, hp.imp_right ?_⟩
  intro hmem
  rw [handledOf_step]
  exact mem_append_left _ hmem

/-- What a subscription is owed of an event that was visible when it existed:
the event is still there, or the subscription is past it. -/
def Owed (st : Plane) (id : String) (row : SubRow) (e : Entry Event) : Prop :=
  e ∈ st.events ∨ row.state = .retired ∨ e.pos < row.cursor ∧ st.Settled id e.pos

theorem owed_step (h : system.Reachable Disciplined st) (hd : Disciplined st a) (en : st.enabled a)
    {row' : SubRow} (hrow : st.subs.committed id = some row)
    (hrow' : (st.effect a).subs.committed id = some row') (hsel : row.Selects e.data)
    (ho : st.Owed id row e) : (st.effect a).Owed id row' e := by
  have hle := (row_step (inv_reachable h) en id).cursor_le hrow hrow'
  rcases ho with hvis | hret | ⟨hlt, hs⟩
  · by_cases hkeep : e ∈ (st.effect a).events
    · exact .inl hkeep
    · obtain ⟨_, _, _, _, rfl, hpos⟩ := deleted_from hvis hkeep
      by_cases hret : row.state = .retired
      · exact .inr (.inl (hd.1 id row row' hrow hret hrow'))
      · obtain ⟨-, -, hbelow⟩ := deleted_below h en hvis hpos
        have hlt := hbelow id row hrow hsel hret
        have hs := settled_of_covers (delivered_reachable h) hrow hvis hsel (le_of_lt hlt)
        exact .inr (.inr ⟨lt_of_lt_of_le hlt hle, settled_step hrow hs⟩)
  · exact .inr (.inl (hd.1 id row row' hrow hret hrow'))
  · exact .inr (.inr ⟨lt_of_lt_of_le hlt hle, settled_step hrow hs⟩)

/-- Along a disciplined run a subscription is owed every event of its stream
that was visible at the beginning or committed on the way. -/
theorem owed_reaches (h : system.Reachable Disciplined st)
    (hrun : system.Reaches Disciplined st st') (hrow : st.subs.committed id = some row) :
    system.Reachable Disciplined st' ∧
      ∃ row', st'.subs.committed id = some row' ∧
        ∀ e ∈ st'.front.log, row'.Selects e.data →
          (e ∈ st.front.log → e ∈ st.events) → st'.Owed id row' e := by
  refine hrun.preserves ?_
    ⟨h, row, hrow, fun e he _ huniv => .inl (huniv he)⟩
  rintro r a ⟨hr, _, hrow₁, howed⟩ hd en
  obtain ⟨row₂, hrow₂, hsame⟩ := (row_step (inv_reachable hr) en id).same hrow₁
  refine ⟨hr.tail a hd en, row₂, hrow₂, ?_⟩
  intro e he hsel huniv
  rw [selects_of_same hsame] at hsel
  by_cases hold : e ∈ r.front.log
  · exact owed_step hr hd en hrow₁ hrow₂ hsel (howed e hold hsel huniv)
  · exact .inl (new_visible he hold)

/-- A settled event above the initial cursor was handled once. -/
theorem Settled.once (hd : Delivered st) {p : Position}
    (hrow : st.subs.committed id = some row) (hs : st.Settled id p) :
    ∃ start, st.initial id = some start ∧
      (p ≤ start ∨
        st.handled.count ⟨id, p, .delivered⟩ + st.handled.count ⟨id, p, .skipped⟩ = 1) := by
  obtain ⟨start, hstart, hp⟩ := hs
  refine ⟨start, hstart, hp.imp_right ?_⟩
  intro hmem
  obtain ⟨_, -, hc⟩ := hd.covers id row hrow
  rw [← count_handledOf]
  exact count_eq_one_of_mem (hc.sorted.imp (fun h => ne_of_lt h)) hmem

/-- Retention never deletes an undelivered event.  When a `DELETE` of `gc_topic`
takes an event away, its stream has a `min_retention` contract, the event is
older than the retention days, and it lies strictly below the cursor of every
active or paused subscription of the stream, which has handled it or started
above it.  Hence, from then on, an active or paused subscription still finds
every event of its stream that was visible when the subscription existed, or is
past it, and a worker's next event is the least one of them. -/
theorem retention_spares_undelivered {st : Plane} (h : system.Reachable Disciplined st) :
    (∀ s target rest batch e,
      st.enabled (.gcCommit s target rest batch) → e ∈ st.events →
      e ∉ (st.effect (.gcCommit s target rest batch)).events →
        st.contracts.committed (e.data.topic, e.data.contractVersion) =
            some ⟨.minRetention, target.days⟩ ∧
          (e.data.createdAt : Int) < st.clock - target.days * dayMicros ∧
          ∀ id row, st.subs.committed id = some row → row.Selects e.data →
            (row.state = .active ∨ row.state = .paused) →
              e.pos < row.cursor ∧
                ∃ start, st.initial id = some start ∧
                  (e.pos ≤ start ∨
                    st.handled.count ⟨id, e.pos, .delivered⟩ +
                      st.handled.count ⟨id, e.pos, .skipped⟩ = 1)) ∧
    (∀ st' id row row', system.Reaches Disciplined st st' →
      st.subs.committed id = some row → st'.subs.committed id = some row' →
      (row'.state = .active ∨ row'.state = .paused) →
        ∀ e ∈ st'.front.log, row'.Selects e.data →
          (e ∈ st.front.log → e ∈ st.events) →
            (e ∈ st'.events ∨
              e.pos < row'.cursor ∧
                ∃ start, st'.initial id = some start ∧
                  (e.pos ≤ start ∨
                    st'.handled.count ⟨id, e.pos, .delivered⟩ +
                      st'.handled.count ⟨id, e.pos, .skipped⟩ = 1)) ∧
            ∀ s c f, st'.enabled (.select s c f) → c.entry.id = id →
              row'.cursor < e.pos → f.pos ≤ e.pos) := by
  constructor
  · intro s target rest batch e en he hdel
    obtain ⟨s', target', rest', batch', hact, hpos⟩ := deleted_from he hdel
    cases hact
    obtain ⟨hsel, hage, hbelow⟩ := deleted_below h en he hpos
    have htarget := (sweepOk_reachable h).targets s
    rw [en] at htarget
    refine ⟨?_, hage, ?_⟩
    · rw [hsel.1, hsel.2]
      exact htarget target mem_cons_self
    · intro id row hrow hrsel hstate
      have hlt := hbelow id row hrow hrsel (not_retired_of hstate)
      have hd := delivered_reachable h
      exact ⟨hlt, (settled_of_covers hd hrow he hrsel (le_of_lt hlt)).once hd hrow⟩
  · intro st' id row row' hrun hrow hrow' hstate e he hsel huniv
    obtain ⟨hr', row'', hrow'', howed⟩ := owed_reaches h hrun hrow
    rw [hrow'] at hrow''
    cases hrow''
    have hcase : e ∈ st'.events ∨ e.pos < row'.cursor ∧ st'.Settled id e.pos := by
      rcases howed e he hsel huniv with hvis | hret | hpast
      · exact .inl hvis
      · exact absurd hret (not_retired_of hstate)
      · exact .inr hpast
    refine ⟨hcase.imp_right
      (fun hp => ⟨hp.1, hp.2.once (delivered_reachable hr') hrow'⟩), ?_⟩
    intro s c f en hid habove
    have hvis : e ∈ st'.events := hcase.resolve_right (fun hp => absurd habove (not_lt_of_gt hp.1))
    have hi := inv_reachable hr'
    obtain ⟨row₀, hl, hs⟩ := holds_of_role hi en.1
    rw [hid] at hl
    have heq : row₀ = row' := Option.some.inj (hl.found.symm.trans hrow')
    subst heq
    have hsel' : Selects c.entry.topic c.version e.data := by
      rw [← hs.topic, ← hs.version]
      exact hsel
    by_contra hlt
    have hflt : e.pos < f.pos := not_le.mp hlt
    obtain ⟨hfmem, -, -, hfel⟩ := Frontier.mem_of_pick en.2
    have hel : st'.front.Eligible e.pos :=
      Frontier.eligible_of_le (le_of_lt hflt) hfel
        (hi.wf.log_generation e he) (hi.wf.log_generation f (hi.visible f hfmem))
    exact absurd (Frontier.pick_le en.2 hvis hsel' (hs.cursor ▸ habove) hel) hlt

/-- A decidable discipline: nothing is retired, and subscriptions register
before there are contracts to sweep. -/
def EarlyRegistration (st : Plane) (a : Act) : Prop :=
  (∀ p ∈ st.subs.rows, p.2.state ≠ .retired) ∧
    match a with
    | .commit s =>
      match (st.session s).role with
      | .registered _ => st.contracts.rows = []
      | _ => True
    | _ => True

instance (st : Plane) (a : Act) : Decidable (EarlyRegistration st a) := by
  refine @instDecidableAnd _ _ inferInstance ?_
  induction a using Act.casesOn with
  | commit s => dsimp only; induction (st.session s).role using Role.casesOn <;> infer_instance
  | _ => infer_instance

theorem disciplined_of_earlyRegistration (h : system.Reachable EarlyRegistration st) :
    system.Reachable Disciplined st := by
  refine h.mono ?_
  rintro _ _ hr ⟨hnone, hreg⟩ -
  constructor
  · intro id row row' hrow hret
    exact absurd hret (hnone (id, row) (mem_rows.mpr hrow))
  · rintro s entry rfl hrole - u target rest batch hdel
    simp only [hrole] at hreg
    have htarget := (sweepOk_reachable hr).targets u
    rw [hdel] at htarget
    have hmem := mem_rows.mpr (htarget target mem_cons_self)
    rw [hreg] at hmem
    cases hmem

/-- Two events are delivered; two days later the sweep of a stream kept for one
day runs, up to the commit of its first `DELETE`. -/
def retentionRun : List Act :=
  let row := sampleEntry.newRow 1 ⟨0, 0, 0⟩ 0
  let first := sampleEvent 5 1 "e1"
  let second := sampleEvent 6 2 "e2"
  let claim₁ : Claim := ⟨sampleEntry, ⟨0, 0, 0⟩, 0⟩
  let claim₂ : Claim := ⟨sampleEntry, first.pos, 0⟩
  let row₁ := row.advance first.pos 0
  let target : GcTarget := ⟨"player.registered", 1, 1⟩
  [ .begin 0 (.reconciling sampleEntry), .register 0 sampleEntry 1, .commit 0,
    .seedHistory "player.registered" 1 (.minRetention 1),
    .begin 1 .producer, .appendLock 1 sampleAppend, .appendRead 1 sampleAppend,
    .appendInsert 1 sampleAppend 1 "e1", .commit 1,
    .begin 2 .producer, .appendLock 2 sampleAppend, .appendRead 2 sampleAppend,
    .appendInsert 2 sampleAppend 1 "e2", .commit 2,
    .begin 3 (.delivering sampleEntry), .claim 3 sampleEntry row,
    .select 3 claim₁ first, .handle 3 claim₁ first,
    .advance 3 claim₁ first row, .commit 3,
    .begin 3 (.delivering sampleEntry), .claim 3 sampleEntry row₁,
    .select 3 claim₂ second, .handle 3 claim₂ second,
    .advance 3 claim₂ second row₁, .commit 3,
    .tick 172800000000, .sweepList 4 [target], .gcDelete 4 target [] ]

theorem retentionRun_runs : (system.exec EarlyRegistration system.start retentionRun).isSome := by
  decide

/-- The state after `retentionRun`. -/
def retentionState : Plane :=
  TransitionSystem.final EarlyRegistration retentionRun retentionRun_runs

theorem retention_spares_undelivered_run :
    ∃ row, retentionState.subs.committed sampleEntry.id = some row ∧
      sampleEvent 5 1 "e1" ∈ retentionState.events ∧
      sampleEvent 5 1 "e1" ∉ (retentionState.effect
        (.gcCommit 4 ⟨"player.registered", 1, 1⟩ [] [⟨1, 5, 1⟩])).events ∧
      (sampleEvent 5 1 "e1").pos < row.cursor := by
  have hreach : system.Reachable Disciplined retentionState :=
    disciplined_of_earlyRegistration
      (TransitionSystem.reachable_final EarlyRegistration retentionRun retentionRun_runs)
  have hrow : retentionState.subs.committed sampleEntry.id = some
      (((sampleEntry.newRow 1 ⟨0, 0, 0⟩ 0).advance ⟨1, 5, 1⟩ 0).advance ⟨1, 6, 2⟩ 0) := by
    decide
  have hmem : sampleEvent 5 1 "e1" ∈ retentionState.events := by decide
  have hdel : sampleEvent 5 1 "e1" ∉ (retentionState.effect
      (.gcCommit 4 ⟨"player.registered", 1, 1⟩ [] [⟨1, 5, 1⟩])).events := by decide
  obtain ⟨-, -, hbelow⟩ :=
    (retention_spares_undelivered hreach).1 4 ⟨"player.registered", 1, 1⟩ [] [⟨1, 5, 1⟩]
      (sampleEvent 5 1 "e1") (by decide) hmem hdel
  obtain ⟨hlt, -⟩ := hbelow _ _ hrow ⟨rfl, rfl⟩ (.inl rfl)
  exact ⟨_, hrow, hmem, hdel, hlt⟩

end Deletion

end Swarog.AsyncEvents.Plane
