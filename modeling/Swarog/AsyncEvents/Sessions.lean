import Swarog.AsyncEvents.Plane

/-!
# What the sessions of the plane hold

Every statement is one step on the log frontier, one step on the subscription
table and one step of its own session (`front_step`, `subs_step`,
`session_other`).  From these three facts a session's knowledge is stable while
others move: the writer lock it holds, the subscription row it locked and the
version it leaves there, and the event it picked.

`SessionOk` is that knowledge; `Inv` adds what holds of the committed rows.
-/

namespace Swarog.AsyncEvents

open Pg Table Function

/-- The session a label belongs to. -/
def Act.actor : Act → Option Sess
  | .tick _ | .otherXid | .seedHistory _ _ _ | .recordStale _ _ _ | .dropStale _
  | .operator _ _ _ => none
  | .begin s _ | .assignXid s | .ensureHistory s _ _ _ | .appendLock s _
  | .appendRead s _ | .appendInsert s _ _ _ | .bumpLock s | .bumpUpdate s
  | .claim s _ _ | .selectNone s _ | .select s _ _ | .handle s _ _
  | .advance s _ _ _ | .fault s _ _ | .recordFault s _ _ _ | .timeout s _ _
  | .skipClaim s _ _ | .skipSelect s _ _ _ | .skipAdvance s _ _ _ _
  | .register s _ _ | .commit s | .abort s | .sweepList s _ | .gcDelete s _ _
  | .gcCommit s _ _ _ | .gcFail s _ _ _ | .sweepEnd s => some s

/-- The subscription rows a role may have locked. -/
def Role.Locks : Role → String → Prop
  | .claimed c, id | .drained c, id | .handling c _, id | .advanced c _, id
  | .faulted c, id | .recorded c, id | .poisoned c, id => id = c.entry.id
  | .skipClaimed id' _, id | .skipPicked id' _ _, id | .skipAdvanced id' _, id => id = id'
  | .registered entry, id => id = entry.id
  | _, _ => False

/-- The uncommitted effect that goes with a role. -/
def Role.Effect : Role → Option Handled → Prop
  | .handling c e, h => h = none ∨ h = some ⟨c.entry.id, e.pos, .delivered⟩
  | .advanced c e, h => h = some ⟨c.entry.id, e.pos, .delivered⟩
  | .skipAdvanced id e, h => h = some ⟨id, e.pos, .skipped⟩
  | .poisoned _, _ => True
  | _, h => h = none

/-- The row is one the registering code of some entry describes. -/
def SubRow.Describes (row : SubRow) (entry : SubEntry) : Prop :=
  row.specHash = entry.specHash ∧ row.topic = entry.topic ∧
    i32TryFrom entry.version = some row.contractVersion

/-- The row as the worker found it when it claimed it. -/
structure Serves (row : SubRow) (c : Claim) : Prop where
  active : row.state = .active
  cursor : row.cursor = c.cursor
  failures : row.consecutiveFailures = c.failures
  topic : row.topic = c.entry.topic
  version : row.contractVersion = c.version

namespace Plane

/-- `s` holds the lock of subscription `id`; it found `row` there and leaves
`row'`. -/
structure Locked (st : Plane) (s : Sess) (id : String) (row row' : SubRow) : Prop where
  found : st.subs.committed id = some row
  left : st.subs.pending id = some (s, some row')

/-- `e` is the event a subscription at `row` has to handle next. -/
def NextFor (st : Plane) (row : SubRow) (e : Entry Event) : Prop :=
  Frontier.Next st.front st.events row.Selects row.cursor e

/-- What a session in a role knows of the shared state. -/
def Holds (st : Plane) (s : Sess) : Role → Prop
  | .delivering entry => entry ∈ st.reconciled
  | .claimed c | .drained c | .faulted c | .poisoned c =>
    ∃ row, st.Locked s c.entry.id row row ∧ Serves row c
  | .handling c e => ∃ row, st.Locked s c.entry.id row row ∧ Serves row c ∧ st.NextFor row e
  | .advanced c e =>
    ∃ row now, st.Locked s c.entry.id row (row.advance e.pos now) ∧ Serves row c ∧ st.NextFor row e
  | .recorded c =>
    ∃ row error now, st.Locked s c.entry.id row (row.recordFailure c error now) ∧ Serves row c
  | .skipClaimed id row => st.Locked s id row row
  | .skipPicked id row e => st.Locked s id row row ∧ st.NextFor row e
  | .skipAdvanced id e =>
    ∃ row reason now, st.Locked s id row (row.skip e reason now) ∧ st.NextFor row e
  | .registered entry =>
    ∀ v, st.subs.pending entry.id = some (s, v) →
      st.subs.committed entry.id = none ∧
        ∃ version cursor now, v = some (entry.newRow version cursor now) ∧
          i32TryFrom entry.version = some version
  | _ => True

/-- The writer lock as a session sees it. -/
structure WriterOk (F : Frontier Sess Event) (s : Sess) (σ : Session) : Prop where
  appender : σ.appending ≠ .idle → σ.role.MayAppend
  locked : ∀ req, σ.appending = .locked req → s ∈ F.writers
  stamped : ∀ req g, σ.appending = .stamped req g → s ∈ F.writers ∧ g = F.generation
  fenced : σ.role = .fenced → F.fence = some s
  bumped : ∀ g, σ.role = .bumped g → F.fence = some s ∧ g = F.generation + 1

/-- Everything a session relies on. -/
structure SessionOk (st : Plane) (s : Sess) (σ : Session) : Prop where
  writer : WriterOk st.front s σ
  holds : st.Holds s σ.role
  only : ∀ id v, st.subs.pending id = some (s, v) → σ.role.Locks id
  effect : σ.role.Effect σ.effect

/-- The invariant of the plane. -/
structure Inv (st : Plane) : Prop where
  wf : st.front.WF
  session : ∀ s, st.SessionOk s (st.session s)
  visible : ∀ e ∈ st.events, e ∈ st.front.log
  described : ∀ id row, st.subs.committed id = some row → ∃ entry, row.Describes entry
  reconciled : ∀ entry ∈ st.reconciled, ∃ row,
    st.subs.committed entry.id = some row ∧ row.Describes entry

section Steps

variable {st : Plane} {a : Act}

/-- Every statement is one step on the log frontier. -/
theorem front_step (h : Inv st) (en : st.enabled a) :
    Frontier.Step st.front a.actor (st.effect a).front := by
  cases a with
  | tick | begin | appendRead | selectNone | select | handle | advance | recordFault | timeout
  | dropStale | skipSelect | skipAdvance | sweepList | sweepEnd => exact .same _
  | otherXid | recordStale | operator => exact .burn _
  | assignXid s | bumpUpdate s | claim s | skipClaim s | gcDelete s => exact .assign s
  | ensureHistory s =>
    simp only [effect]
    split
    · exact .same _
    · split
      · exact .same _
      · exact .assign s
  | seedHistory =>
    simp only [effect]
    split
    · exact .same _
    · split
      · exact .same _
      · exact .burn _
  | appendLock s => exact .share s en.2.2
  | appendInsert s req g =>
    obtain ⟨hw, rfl⟩ := (h.session s).writer.stamped req g en.2.1
    exact .append s _ hw
  | bumpLock s => exact .exclude s en.2.1 en.2.2
  | fault s => exact .undo s
  | register s =>
    simp only [effect]
    split
    · exact .same _
    · exact .assign s
  | commit s =>
    show Frontier.Step st.front (some s) (st.committedFront s (st.session s).role)
    cases hr : (st.session s).role with
    | bumped g =>
      obtain ⟨hf, hg⟩ := (h.session s).writer.bumped g hr
      exact .bump s g hf (by omega)
    | _ => exact .commit s
  | abort s | gcCommit s | gcFail s => exact .close s

/-- The row lock a worker or an operator holds is its own. -/
theorem Locked.free {s : Sess} {id : String} {row row' : SubRow} (h : st.Locked s id row row') :
    st.subs.Free s id :=
  free_of_pending_self h.left

/-- Every statement is one step on the subscription table. -/
theorem subs_step (h : Inv st) (en : st.enabled a) :
    Table.Step st.subs a.actor (st.effect a).subs := by
  cases a with
  | claim s | skipClaim s => exact .write s _ _ (free_of_pending_none s en.2.2.1)
  | advance s =>
    have hh := (h.session s).holds
    rw [en.1] at hh
    obtain ⟨row₀, hl, -, -⟩ := hh
    exact .write s _ _ hl.free
  | recordFault s =>
    have hh := (h.session s).holds
    rw [en.1] at hh
    obtain ⟨row₀, hl, -⟩ := hh
    exact .write s _ _ hl.free
  | recordStale => exact .put _ _ _ en.2.2
  | operator => exact .put _ _ _ en.2
  | skipAdvance s id row e =>
    have hh := (h.session s).holds
    rw [en] at hh
    exact .write s _ _ hh.1.free
  | register s entry version =>
    simp only [effect]
    split
    · exact .same _
    · rename_i hnone
      have hp : st.subs.pending entry.id = none := by
        rcases en.2.2 with hsome | hp
        · rw [hnone] at hsome
          cases hsome
        · exact hp
      exact .write s _ _ (free_of_pending_none s hp)
  | commit s => exact .commit s
  | abort s => exact .rollback s
  | ensureHistory | seedHistory =>
    simp only [effect]
    split
    · exact .same _
    · split <;> exact .same _
  | _ => exact .same _

/-- A statement changes no other session. -/
theorem session_other {u : Sess} (hu : a.actor ≠ some u) :
    (st.effect a).session u = st.session u := by
  have hne : ∀ {s : Sess}, some s ≠ some u → u ≠ s := by
    intro s hs hus
    exact hs (congrArg some hus.symm)
  cases a with
  | tick | otherXid | assignXid | recordStale | dropStale | operator => rfl
  | ensureHistory | seedHistory =>
    simp only [effect]
    split
    · rfl
    · split <;> rfl
  | register =>
    simp only [effect]
    split <;> exact update_of_ne (hne hu) _ _
  | _ => exact update_of_ne (hne hu) _ _

/-- Visible events come from the commits of producers. -/
theorem events_from (e : Entry Event) (he : e ∈ (st.effect a).events) :
    e ∈ st.events ∨ ∃ t, e ∈ st.front.inflight t := by
  cases a with
  | commit s =>
    rcases List.mem_append.mp he with he | he
    · exact .inl he
    · exact .inr ⟨s, he⟩
  | gcCommit => exact .inl (List.mem_of_mem_filter he)
  | ensureHistory | seedHistory =>
    simp only [effect] at he
    split at he
    · exact .inl he
    · split at he <;> exact .inl he
  | register =>
    simp only [effect] at he
    split at he <;> exact .inl he
  | _ => exact .inl he

/-- An entry that was reconciled stays so. -/
theorem reconciled_kept {entry : SubEntry} (he : entry ∈ st.reconciled) :
    entry ∈ (st.effect a).reconciled := by
  cases a with
  | commit s =>
    show entry ∈ st.committedReconciled (st.session s).role
    cases (st.session s).role with
    | registered => exact List.mem_cons_of_mem _ he
    | _ => exact he
  | ensureHistory | seedHistory =>
    simp only [effect]
    split
    · exact he
    · split <;> exact he
  | register =>
    simp only [effect]
    split <;> exact he
  | _ => exact he

end Steps

section Frame

variable {st st' : Plane} {u : Sess} {F : Frontier Sess Event} {σ : Session}

theorem Locked.frame {id : String} {row row' : SubRow} (h : st.Locked u id row row')
    (hsub : Table.Undisturbed u st.subs st'.subs) : st'.Locked u id row row' where
  found := by rw [hsub.committed_eq id _ h.left, h.found]
  left := (hsub.pending_iff id _).mpr h.left

theorem WriterOk.frame {F' : Frontier Sess Event} (h : WriterOk F u σ)
    (hk : Frontier.Keeps u F F') : WriterOk F' u σ where
  appender := h.appender
  locked := fun req hl => hk.writers (h.locked req hl)
  stamped := by
    intro req g hs
    obtain ⟨hw, hg⟩ := h.stamped req g hs
    exact ⟨hk.writers hw, by rw [hk.generation (.inl hw), hg]⟩
  fenced := fun hr => hk.fence (h.fenced hr)
  bumped := by
    intro g hr
    obtain ⟨hf, hg⟩ := h.bumped g hr
    exact ⟨hk.fence hf, by rw [hk.generation (.inr hf), hg]⟩

/-- What others can do between two states, as far as `u` is concerned. -/
structure Apart (u : Sess) (st st' : Plane) : Prop where
  wf : st.front.WF
  advance : Frontier.Advance st.front st'.front
  keeps : Frontier.Keeps u st.front st'.front
  subs : Table.Undisturbed u st.subs st'.subs
  events : ∀ e ∈ st'.events, e ∈ st.events ∨ ∃ t, e ∈ st.front.inflight t
  reconciled : ∀ entry ∈ st.reconciled, entry ∈ st'.reconciled

theorem NextFor.frame {row : SubRow} {e : Entry Event} (h : st.NextFor row e)
    (hm : Apart u st st') : st'.NextFor row e :=
  Frontier.Next.frame h hm.wf hm.advance hm.events

theorem Holds.frame {r : Role} (h : st.Holds u r) (hm : Apart u st st') : st'.Holds u r := by
  cases r with
  | delivering entry => exact hm.reconciled entry h
  | claimed c | drained c | faulted c | poisoned c =>
    obtain ⟨row, hl, hs⟩ := h
    exact ⟨row, hl.frame hm.subs, hs⟩
  | handling =>
    obtain ⟨row, hl, hs, hn⟩ := h
    exact ⟨row, hl.frame hm.subs, hs, hn.frame hm⟩
  | advanced =>
    obtain ⟨row, now, hl, hs, hn⟩ := h
    exact ⟨row, now, hl.frame hm.subs, hs, hn.frame hm⟩
  | recorded =>
    obtain ⟨row, error, now, hl, hs⟩ := h
    exact ⟨row, error, now, hl.frame hm.subs, hs⟩
  | skipClaimed => exact Locked.frame h hm.subs
  | skipPicked => exact ⟨h.1.frame hm.subs, h.2.frame hm⟩
  | skipAdvanced =>
    obtain ⟨row, reason, now, hl, hn⟩ := h
    exact ⟨row, reason, now, hl.frame hm.subs, hn.frame hm⟩
  | registered entry =>
    intro v hp
    have hp' := (hm.subs.pending_iff entry.id v).mp hp
    obtain ⟨hnone, hrow⟩ := h v hp'
    exact ⟨by rw [hm.subs.committed_eq entry.id v hp', hnone], hrow⟩
  | _ => exact h

/-- The knowledge of a session survives what others do. -/
theorem SessionOk.frame (h : st.SessionOk u σ) (hm : Apart u st st') : st'.SessionOk u σ where
  writer := h.writer.frame hm.keeps
  holds := h.holds.frame hm
  only := fun id v hp => h.only id v ((hm.subs.pending_iff id v).mp hp)
  effect := h.effect

/-- A session that moves on without touching the shared state. -/
theorem SessionOk.turn {σ' : Session} (h : st.SessionOk u σ) (hw : WriterOk st.front u σ')
    (hh : st.Holds u σ'.role) (hl : ∀ id, σ.role.Locks id → σ'.role.Locks id)
    (he : σ'.role.Effect σ'.effect) : st.SessionOk u σ' where
  writer := hw
  holds := hh
  only := fun id v hp => hl id (h.only id v hp)
  effect := he

/-- A session outside `append_event` and outside a generation bump. -/
theorem WriterOk.of_idle (hidle : σ.appending = .idle)
    (hf : σ.role ≠ .fenced) (hb : ∀ g, σ.role ≠ .bumped g) : WriterOk F u σ where
  appender := fun hne => absurd hidle hne
  locked := fun req hl => by rw [hidle] at hl; cases hl
  stamped := fun req g hl => by rw [hidle] at hl; cases hl
  fenced := fun hr => absurd hr hf
  bumped := fun g hr => absurd hr (hb g)

theorem WriterOk.idle_of_not_mayAppend (h : WriterOk F u σ)
    (hr : ¬ σ.role.MayAppend) : σ.appending = .idle := by
  by_contra hne
  exact hr (h.appender hne)

end Frame

section Self

variable {st : Plane} {a : Act} {s : Sess} {σ : Session} {q r : Role} {req : AppendReq}

/-- A step that keeps the subscription table and the locks of `s` is harmless
to `s` itself. -/
theorem apart_of_step (h : Inv st) (en : st.enabled a)
    (hk : Frontier.Keeps s st.front (st.effect a).front)
    (hsub : Table.Undisturbed s st.subs (st.effect a).subs) : Apart s st (st.effect a) where
  wf := h.wf
  advance := (front_step h en).advance
  keeps := hk
  subs := hsub
  events := events_from
  reconciled := fun _ he => reconciled_kept he

/-- What others do is harmless to `s`. -/
theorem apart_of_other (h : Inv st) (en : st.enabled a) (hs : a.actor ≠ some s) :
    Apart s st (st.effect a) :=
  apart_of_step h en ((front_step h en).keeps h.wf hs) ((subs_step h en).undisturbed hs)

/-- The statement leaves the session `s` with what it relies on. -/
def SelfOk (st : Plane) (a : Act) (s : Sess) : Prop :=
  (st.effect a).SessionOk s ((st.effect a).session s)

/-- A session that only changes its own record, while the shared state moves
without harming it. -/
theorem self_of_turn (h : Inv st) (en : st.enabled a) (hsess : (st.effect a).session s = σ)
    (hk : Frontier.Keeps s st.front (st.effect a).front) (hsub : (st.effect a).subs = st.subs)
    (hw : WriterOk (st.effect a).front s σ) (hh : (st.effect a).Holds s σ.role)
    (hl : ∀ id, (st.session s).role.Locks id → σ.role.Locks id) (he : σ.role.Effect σ.effect) :
    st.SelfOk a s := by
  have hm : Apart s st (st.effect a) := apart_of_step h en hk (hsub ▸ Undisturbed.refl s st.subs)
  unfold SelfOk
  rw [hsess]
  exact ((h.session s).frame hm).turn hw hh hl he

theorem WriterOk.become {F : Frontier Sess Event} (h : WriterOk F s σ)
    (hrole : σ.role = q) (hmay : q.MayAppend → r.MayAppend) (hf : r ≠ .fenced)
    (hb : ∀ g, r ≠ .bumped g) : WriterOk F s { σ with role := r } where
  appender := fun hne => hmay (hrole ▸ h.appender hne)
  locked := h.locked
  stamped := h.stamped
  fenced := fun hr => absurd hr hf
  bumped := fun g hr => absurd hr (hb g)

/-- The common case: only the role changes. -/
theorem self_become
    (h : Inv st)
    (en : st.enabled a)
    (hrole : (st.session s).role = q)
    (heq : st.effect a = { st with session := st.become s r })
    (hmay : q.MayAppend → r.MayAppend)
    (hf : r ≠ .fenced)
    (hb : ∀ g, r ≠ .bumped g)
    (hh : (st.effect a).Holds s r)
    (hl : ∀ id, q.Locks id → r.Locks id)
    (he : r.Effect (st.session s).effect) :
    st.SelfOk a s := by
  subst hrole
  have hk : Frontier.Keeps s st.front (st.effect a).front := by
    rw [heq]
    exact Frontier.Keeps.refl _ _
  have hsess : (st.effect a).session s = { st.session s with role := r } := by
    rw [heq]
    exact update_self s _ _
  exact self_of_turn h en hsess hk (by rw [heq])
    (((h.session s).writer.frame hk).become rfl hmay hf hb) hh hl he

/-- After a write of its own, a session holds what it held before and the
written row. -/
theorem self_write {id : String} {v : Option SubRow} (h : Inv st) (hrole : (st.session s).role = q)
    (hsess : (st.effect a).session s = σ) (hsub : (st.effect a).subs = st.subs.write s id v)
    (hw : WriterOk (st.effect a).front s σ) (hh : (st.effect a).Holds s σ.role)
    (hl : ∀ id', q.Locks id' → σ.role.Locks id') (hnew : σ.role.Locks id)
    (he : σ.role.Effect σ.effect) : st.SelfOk a s := by
  unfold SelfOk
  rw [hsess]
  refine ⟨hw, hh, ?_, he⟩
  intro id' w hp
  by_cases hid : id' = id
  · subst hid
    exact hnew
  · rw [hsub, pending_write_of_ne s v st.subs hid] at hp
    exact hl id' (hrole ▸ (h.session s).only id' w hp)

/-- The row that a session has just written. -/
theorem locked_write {st' : Plane} {id : String} {row row' : SubRow}
    (hsub : st'.subs = st.subs.write s id (some row')) (hfound : st.subs.committed id = some row) :
    st'.Locked s id row row' where
  found := by rw [hsub, committed_write, hfound]
  left := by rw [hsub, pending_write_self]

theorem self_begin {role : Role} (h : Inv st) (en : st.enabled (.begin s role)) :
    st.SelfOk (.begin s role) s := by
  obtain ⟨hclosed, hmay⟩ := id en
  refine self_of_turn h en (update_self s _ _) (Frontier.Keeps.refl _ _) rfl ?_ ?_ ?_ ?_
  · refine WriterOk.of_idle rfl ?_ ?_
    · rintro rfl
      exact hmay
    · rintro _ rfl
      exact hmay
  · cases role with
    | delivering => exact hmay
    | producer | bumping | skipping _ | reconciling _ => trivial
    | _ => exact False.elim hmay
  · intro _ hl
    rw [hclosed] at hl
    exact False.elim hl
  · cases role with
    | handling c e | advanced c e | skipAdvanced id e => exact False.elim hmay
    | poisoned => trivial
    | _ => rfl

/-- A statement of `s` that leaves its record and its row locks alone. -/
theorem self_of_same (h : Inv st) (en : st.enabled a)
    (hsess : (st.effect a).session s = st.session s)
    (hk : Frontier.Keeps s st.front (st.effect a).front) (hsub : (st.effect a).subs = st.subs) :
    st.SelfOk a s := by
  unfold SelfOk
  rw [hsess]
  exact (h.session s).frame
    (apart_of_step h en hk (hsub ▸ Undisturbed.refl s st.subs))

theorem self_ensureHistory {topic : String} {version : Nat} {history : HistoryPolicy} (h : Inv st)
    (en : st.enabled (.ensureHistory s topic version history)) :
    st.SelfOk (.ensureHistory s topic version history) s := by
  refine self_of_same h en ?_ ?_ ?_
  · simp only [effect]
    split
    · rfl
    · split <;> rfl
  · simp only [effect]
    split
    · exact Frontier.Keeps.refl _ _
    · split
      · exact Frontier.Keeps.refl _ _
      · exact Frontier.keeps_assign _ _ _
  · simp only [effect]
    split
    · rfl
    · split <;> rfl

theorem not_fenced_of_mayAppend (h : r.MayAppend) : r ≠ .fenced ∧ ∀ g, r ≠ .bumped g := by
  constructor
  · rintro rfl
    exact h
  · rintro _ rfl
    exact h

section

variable (h : Inv st)
include h

/-- A statement inside `append_event` changes only the progress of the
session. -/
theorem self_appending
    {p : Appending}
    (en : st.enabled a)
    (hsess : (st.effect a).session s = { st.session s with appending := p })
    (hk : Frontier.Keeps s st.front (st.effect a).front)
    (hsub : (st.effect a).subs = st.subs)
    (hmay : (st.session s).role.MayAppend)
    (hl : ∀ req, p = .locked req → s ∈ (st.effect a).front.writers)
    (hg : ∀ req g, p = .stamped req g →
      s ∈ (st.effect a).front.writers ∧ g = (st.effect a).front.generation) :
    st.SelfOk a s := by
  obtain ⟨hf, hb⟩ := not_fenced_of_mayAppend hmay
  have hok := (h.session s).frame
    (apart_of_step h en hk (hsub ▸ Undisturbed.refl s st.subs))
  refine self_of_turn h en hsess hk hsub ?_ hok.holds (fun _ => id) hok.effect
  exact
    { appender := fun _ => hmay
      locked := hl
      stamped := hg
      fenced := fun hr => absurd hr hf
      bumped := fun g hr => absurd hr (hb g) }

theorem self_appendLock (en : st.enabled (.appendLock s req)) :
    st.SelfOk (.appendLock s req) s := by
  refine self_appending h en (update_self s _ _)
    ⟨List.mem_cons_of_mem s, fun _ => rfl, id⟩ rfl en.1 ?_ ?_
  · exact fun _ _ => List.mem_cons_self
  · exact fun _ _ hp => by cases hp

theorem self_appendRead (en : st.enabled (.appendRead s req)) :
    st.SelfOk (.appendRead s req) s := by
  refine self_appending h en (update_self s _ _) (Frontier.Keeps.refl _ _) rfl
    en.1 ?_ ?_
  · exact fun _ hp => by cases hp
  · intro _ _ hp
    cases hp
    exact ⟨(h.session s).writer.locked req en.2, rfl⟩

theorem self_appendInsert {g : Int} {eventId : String}
    (en : st.enabled (.appendInsert s req g eventId)) :
    st.SelfOk (.appendInsert s req g eventId) s := by
  have hk := Frontier.keeps_assign s s st.front
  refine self_appending h en (update_self s _ _)
    ⟨hk.writers, hk.generation, hk.fence⟩ rfl en.1 ?_ ?_
  · exact fun _ hp => by cases hp
  · exact fun _ _ hp => by cases hp

/-- The statements of a generation bump: the session is not appending, and moves
between roles without row locks. -/
theorem self_bump
    {r' : Role}
    (en : st.enabled a)
    (hrole : (st.session s).role = r)
    (hr : ¬ r.MayAppend ∧ (∀ id, ¬ r.Locks id))
    (hsess : (st.effect a).session s = { st.session s with role := r' })
    (hk : Frontier.Keeps s st.front (st.effect a).front)
    (hsub : (st.effect a).subs = st.subs)
    (hf : r' = .fenced → (st.effect a).front.fence = some s)
    (hb : ∀ g, r' = .bumped g →
      (st.effect a).front.fence = some s ∧ g = (st.effect a).front.generation + 1)
    (hh : (st.effect a).Holds s r')
    (he : r.Effect (st.session s).effect → r'.Effect (st.session s).effect) :
    st.SelfOk a s := by
  have hok := h.session s
  rw [← hrole] at hr he
  have hidle : (st.session s).appending = .idle := hok.writer.idle_of_not_mayAppend hr.1
  refine self_of_turn h en hsess hk hsub ?_ hh (fun id hl => absurd hl (hr.2 id)) (he hok.effect)
  exact
    { appender := fun hne => absurd hidle hne
      locked := fun req hl => by rw [hidle] at hl; cases hl
      stamped := fun req g hl => by rw [hidle] at hl; cases hl
      fenced := hf
      bumped := hb }

theorem self_bumpLock (en : st.enabled (.bumpLock s)) : st.SelfOk (.bumpLock s) s := by
  refine self_bump h en en.1 ⟨id, fun _ => id⟩ (update_self s _ _) ?_ rfl
    (fun _ => rfl) (fun _ hr => by cases hr) trivial id
  refine ⟨id, fun _ => rfl, fun hf => ?_⟩
  rw [en.2.2] at hf
  cases hf

theorem self_bumpUpdate (en : st.enabled (.bumpUpdate s)) : st.SelfOk (.bumpUpdate s) s := by
  have hk := Frontier.keeps_assign s s st.front
  refine self_bump h en en ⟨id, fun _ => id⟩ (update_self s _ _) hk rfl
    (fun hr => by cases hr) ?_ trivial id
  intro _ hr
  cases hr
  have hf := (h.session s).writer.fenced en
  exact ⟨hk.fence hf, congrArg (· + 1) (hk.generation (.inr hf)).symm⟩

end

end Self

end Plane
end Swarog.AsyncEvents
