import Swarog.AsyncEvents.Sessions

/-!
# The invariant of the plane

The statements of workers, operators, registration and retention keep what
their sessions rely on; with the frame rules this gives `inv_step`, and `Inv`
holds in every reachable state under every step condition.

`RowStep` is the inversion lemma for committed subscription rows: it lists every
way in which a statement can replace one.  The results on delivery, retention
and operator decisions are read off from it.
-/

namespace Swarog.AsyncEvents.Plane

open Pg Table Function List Option

section Worker

variable {st : Plane} {s : Sess} {row : SubRow} {c : Claim} {e : Entry Event}

theorem effect_of_role {r : Role} (h : Inv st) (hr : (st.session s).role = r) :
    r.Effect (st.session s).effect := by
  have he := (h.session s).effect
  rwa [hr] at he

theorem holds_of_role {r : Role} (h : Inv st) (hr : (st.session s).role = r) : st.Holds s r := by
  have hh := (h.session s).holds
  rwa [hr] at hh

/-- The row a lock holder reads is the version it left. -/
theorem Locked.view {id : String} {row' : SubRow} (hl : st.Locked s id row row') :
    st.subs.view s id = some row' :=
  view_of_pending_self hl.left

section

variable (h : Inv st)
include h

theorem self_claim {entry : SubEntry}
    (en : st.enabled (.claim s entry row)) : st.SelfOk (.claim s entry row) s := by
  obtain ⟨hrole, hrow, -, hdue⟩ := en
  have hk := Frontier.keeps_assign s s st.front
  have heff : (st.session s).effect = none := effect_of_role h hrole
  obtain ⟨_, hrow', -, htopic, hversion⟩ := h.reconciled entry (holds_of_role h hrole)
  rw [hrow] at hrow'
  cases hrow'
  refine self_write h hrole (update_self s _ _) rfl ?_ ?_ (fun _ => False.elim) rfl heff
  · exact ((h.session s).writer.frame hk).become hrole False.elim (by simp) (by simp)
  · refine ⟨row, locked_write rfl hrow, ?_⟩
    exact
      { active := hdue.1
        cursor := rfl
        failures := rfl
        topic := htopic
        version := by simp [Claim.version, hversion] }

theorem self_selectNone (en : st.enabled (.selectNone s c)) : st.SelfOk (.selectNone s c) s := by
  obtain ⟨row, hl, hs⟩ := holds_of_role h en.1
  have heff : (st.session s).effect = none := effect_of_role h en.1
  exact self_become h en en.1 rfl id (by simp) (by simp) ⟨row, ⟨hl.found, hl.left⟩, hs⟩
    (fun _ => id) heff

theorem self_select (en : st.enabled (.select s c e)) : st.SelfOk (.select s c e) s := by
  obtain ⟨row, hl, hs⟩ := holds_of_role h en.1
  have hnext : st.NextFor row e := by
    unfold NextFor SubRow.Selects
    rw [hs.topic, hs.version, hs.cursor]
    exact Frontier.next_of_pick h.wf h.visible en.2
  exact self_become h en en.1 rfl False.elim (by simp) (by simp)
    ⟨row, ⟨hl.found, hl.left⟩, hs, hnext⟩ (fun _ => id) (.inl (effect_of_role h en.1))

theorem self_handle (en : st.enabled (.handle s c e)) : st.SelfOk (.handle s c e) s := by
  have hok := h.session s
  have hmay : (st.session s).role.MayAppend := by
    rw [en.1]
    trivial
  obtain ⟨hf, hb⟩ := not_fenced_of_mayAppend hmay
  refine self_of_turn h en (update_self s _ _) (Frontier.Keeps.refl _ _) rfl ?_ ?_
    (fun _ => id) ?_
  · exact
      { appender := fun _ => hmay
        locked := hok.writer.locked
        stamped := hok.writer.stamped
        fenced := fun hr => absurd hr hf
        bumped := fun g hr => absurd hr (hb g) }
  · exact hok.holds.frame (apart_of_step h en (Frontier.Keeps.refl _ _)
      (Undisturbed.refl s _))
  · simp only [en.1]
    exact .inr rfl

theorem self_advance
    (en : st.enabled (.advance s c e row)) : st.SelfOk (.advance s c e row) s := by
  obtain ⟨hrole, hidle, heff, hview⟩ := en
  obtain ⟨_, hl, hs, hn⟩ := holds_of_role h hrole
  rw [hl.view] at hview
  cases hview
  exact self_write h hrole (update_self s _ _) rfl
    (WriterOk.of_idle hidle (by simp) (by simp))
    ⟨row, (st.session s).startedAt, locked_write rfl hl.found, hs, hn⟩ (fun _ => id) rfl heff

theorem self_fault (en : st.enabled (.fault s c e)) : st.SelfOk (.fault s c e) s := by
  have hsess : (st.effect (.fault s c e)).session s =
      { st.session s with appending := .idle, effect := none, role := .faulted c } :=
    update_self s _ _
  obtain ⟨row, hl, hs, -⟩ := holds_of_role h en
  unfold SelfOk
  rw [hsess]
  refine
    { writer := WriterOk.of_idle rfl (by simp) (by simp)
      holds := ⟨row, ⟨hl.found, hl.left⟩, hs⟩, only := ?_, effect := rfl }
  intro id v hp
  have hlock := (h.session s).only id v hp
  rw [en] at hlock
  exact hlock

theorem self_recordFault {error : String}
    (en : st.enabled (.recordFault s c row error)) : st.SelfOk (.recordFault s c row error) s := by
  obtain ⟨hrole, hview⟩ := en
  obtain ⟨_, hl, hs⟩ := holds_of_role h hrole
  have heff : (st.session s).effect = none := effect_of_role h hrole
  rw [hl.view] at hview
  cases hview
  exact self_write h hrole (update_self s _ _) rfl
    ((h.session s).writer.become hrole id (by simp) (by simp))
    ⟨row, error, (st.session s).startedAt, locked_write rfl hl.found, hs⟩ (fun _ => id) rfl heff

theorem self_timeout (en : st.enabled (.timeout s c e)) : st.SelfOk (.timeout s c e) s := by
  have hrole : (st.session s).role = .handling c e := en
  obtain ⟨row, hl, hs, -⟩ := holds_of_role h hrole
  refine self_of_turn h en (update_self s _ _) (Frontier.Keeps.refl _ _) rfl
    ((h.session s).writer.become hrole (fun _ => trivial) (by simp) (by simp))
    ⟨row, ⟨hl.found, hl.left⟩, hs⟩ ?_ trivial
  rw [hrole]
  exact fun _ => id

end

end Worker

section Others

variable {st : Plane} {s : Sess} {id : String} {row : SubRow}

theorem self_skipClaim (h : Inv st)
    (en : st.enabled (.skipClaim s id row)) : st.SelfOk (.skipClaim s id row) s := by
  obtain ⟨hrole, hrow, -, -⟩ := en
  have hk := Frontier.keeps_assign s s st.front
  have heff : (st.session s).effect = none := effect_of_role h hrole
  refine self_write h hrole (update_self s _ _) rfl ?_ (locked_write rfl hrow)
    (fun _ hl => hl.elim) rfl heff
  exact ((h.session s).writer.frame hk).become hrole (fun hm => hm.elim) (by simp) (by simp)

theorem self_skipSelect {e : Entry Event} (h : Inv st)
    (en : st.enabled (.skipSelect s id row e)) : st.SelfOk (.skipSelect s id row e) s := by
  have hl := holds_of_role h en.1
  have heff : (st.session s).effect = none := effect_of_role h en.1
  have hnext : st.NextFor row e := Frontier.next_of_pick h.wf h.visible en.2
  exact self_become h en en.1 rfl (fun hm => hm) (by simp) (by simp)
    ⟨⟨hl.found, hl.left⟩, hnext⟩ (fun _ hlock => hlock) heff

theorem self_skipAdvance {e : Entry Event} {reason : String}
    (h : Inv st) (en : st.enabled (.skipAdvance s id row e reason)) :
    st.SelfOk (.skipAdvance s id row e reason) s := by
  have hrole : (st.session s).role = .skipPicked id row e := en
  obtain ⟨hl, hn⟩ := holds_of_role h hrole
  have hidle : (st.session s).appending = .idle :=
    (h.session s).writer.idle_of_not_mayAppend (by rw [hrole]; exact fun hm => hm)
  exact self_write h hrole (update_self s _ _) rfl
    (WriterOk.of_idle hidle (by simp) (by simp))
    ⟨row, reason, (st.session s).startedAt, locked_write rfl hl.found, hn⟩ (fun _ hl => hl) rfl rfl

theorem self_register {entry : SubEntry} {version : Int} (h : Inv st)
    (en : st.enabled (.register s entry version)) : st.SelfOk (.register s entry version) s := by
  obtain ⟨hrole, hversion, -⟩ := id en
  have heff : (st.session s).effect = none := effect_of_role h hrole
  have hsess : (st.effect (.register s entry version)).session s =
      { st.session s with role := .registered entry } := by
    simp only [effect]
    split <;> exact update_self s _ _
  cases hrow : st.subs.committed entry.id with
  | some =>
    have heq : st.effect (.register s entry version) =
        { st with session := st.become s (.registered entry) } := by
      simp [effect, hrow]
    refine self_become h en hrole heq False.elim (by simp) (by simp) ?_ (fun _ => False.elim) heff
    rw [heq]
    intro v hp
    have hl := (h.session s).only _ v hp
    rw [hrole] at hl
    exact False.elim hl
  | none =>
    have hfront : (st.effect (.register s entry version)).front = st.front.assign s := by
      simp [effect, hrow]
    have hsub : (st.effect (.register s entry version)).subs =
        st.subs.write s entry.id
          (some (entry.newRow version
            (startCursor st.front.generation (st.front.current s) entry.start)
            (st.session s).startedAt)) := by
      simp [effect, hrow]
    have hk := Frontier.keeps_assign s s st.front
    refine self_write h hrole hsess hsub ?_ ?_ (fun _ => False.elim) rfl heff
    · rw [hfront]
      exact ((h.session s).writer.frame hk).become hrole False.elim (by simp) (by simp)
    · intro _ hp
      rw [hsub, pending_write_self] at hp
      cases hp
      exact ⟨by rw [hsub, committed_write, hrow], version, _, _, rfl, hversion⟩

/-- A session without a transaction relies on nothing. -/
theorem sessionOk_plain {st' : Plane} {σ : Session} (hidle : σ.appending = .idle)
    (heff : σ.effect = none)
    (hrole : σ.role = .closed ∨ (∃ todo, σ.role = .sweeping todo) ∨
      ∃ target rest batch, σ.role = .deleting target rest batch)
    (hnone : ∀ id v, st'.subs.pending id ≠ some (s, v)) : st'.SessionOk s σ := by
  rcases hrole with hr | ⟨_, hr⟩ | ⟨_, _, _, hr⟩
  all_goals
    refine
      { writer := WriterOk.of_idle hidle (by simp [hr]) (by simp [hr]), holds := ?_
        only := fun id v hp => absurd hp (hnone id v), effect := ?_ }
    · rw [hr]
      trivial
    · rw [hr, heff]
      rfl

/-- A session without a transaction holds no row. -/
theorem noLock_of_role {r : Role} (h : Inv st) (hr : (st.session s).role = r)
    (hl : ∀ id, ¬ r.Locks id) : ∀ id v, st.subs.pending id ≠ some (s, v) := by
  intro id v hp
  have hlock := (h.session s).only id v hp
  rw [hr] at hlock
  exact hl id hlock

theorem self_commit (st : Plane) (s : Sess) : st.SelfOk (.commit s) s := by
  have hsess : (st.effect (.commit s)).session s = Session.idle := update_self s _ _
  unfold SelfOk
  rw [hsess]
  refine sessionOk_plain rfl rfl (.inl rfl) ?_
  intro id v hp
  exact ((pending_commit s st.subs id s v).mp hp).2 rfl

theorem self_abort (st : Plane) (s : Sess) : st.SelfOk (.abort s) s := by
  have hsess : (st.effect (.abort s)).session s = Session.idle := update_self s _ _
  unfold SelfOk
  rw [hsess]
  refine sessionOk_plain rfl rfl (.inl rfl) ?_
  intro id v hp
  exact ((pending_rollback s st.subs id s v).mp hp).2 rfl

/-- The statements of retention move a session without row locks among the
roles of retention. -/
theorem self_retention
    {a : Act} {r : Role}
    (h : Inv st)
    (hr : (st.session s).role = r)
    (hplain : r = .closed ∨ (∃ todo, r = .sweeping todo) ∨
      ∃ target rest batch, r = .deleting target rest batch)
    (hsub : (st.effect a).subs = st.subs)
    (happ : ((st.effect a).session s).appending = (st.session s).appending ∨
      ((st.effect a).session s).appending = .idle)
    (heff : ((st.effect a).session s).effect = (st.session s).effect ∨
      ((st.effect a).session s).effect = none)
    (hrole : ((st.effect a).session s).role = .closed ∨
      (∃ todo, ((st.effect a).session s).role = .sweeping todo) ∨
      ∃ target rest batch, ((st.effect a).session s).role = .deleting target rest batch) :
    st.SelfOk a s := by
  have hold : ¬ r.MayAppend ∧ (∀ id, ¬ r.Locks id) ∧ ∀ h, r.Effect h → h = none := by
    rcases hplain with rfl | ⟨_, rfl⟩ | ⟨_, _, _, rfl⟩ <;>
      exact ⟨fun hm => hm, fun _ hl => hl, fun _ he => he⟩
  obtain ⟨hmay, hlock, hnoeff⟩ := hold
  have hidle : (st.session s).appending = .idle :=
    (h.session s).writer.idle_of_not_mayAppend (by rw [hr]; exact hmay)
  have hnone : (st.session s).effect = none := hnoeff _ (effect_of_role h hr)
  refine sessionOk_plain ?_ ?_ hrole ?_
  · rcases happ with happ | happ
    · rw [happ, hidle]
    · exact happ
  · rcases heff with heff | heff
    · rw [heff, hnone]
    · exact heff
  · rw [hsub]
    exact noLock_of_role h hr hlock

/-- Every statement keeps what its own session relies on. -/
theorem session_self {a : Act} (h : Inv st) (en : st.enabled a) (hs : a.actor = some s) :
    st.SelfOk a s := by
  cases a with
  | tick d | otherXid | seedHistory topic version history | recordStale c row error
  | dropStale c | operator cmd id row => cases hs
  | begin => cases hs; exact self_begin h en
  | assignXid =>
    cases hs
    exact self_of_same h en rfl (Frontier.keeps_assign s s st.front) rfl
  | ensureHistory => cases hs; exact self_ensureHistory h en
  | appendLock => cases hs; exact self_appendLock h en
  | appendRead => cases hs; exact self_appendRead h en
  | appendInsert => cases hs; exact self_appendInsert h en
  | bumpLock => cases hs; exact self_bumpLock h en
  | bumpUpdate => cases hs; exact self_bumpUpdate h en
  | claim => cases hs; exact self_claim h en
  | selectNone => cases hs; exact self_selectNone h en
  | select => cases hs; exact self_select h en
  | handle => cases hs; exact self_handle h en
  | advance => cases hs; exact self_advance h en
  | fault => cases hs; exact self_fault h en
  | recordFault => cases hs; exact self_recordFault h en
  | timeout => cases hs; exact self_timeout h en
  | skipClaim => cases hs; exact self_skipClaim h en
  | skipSelect => cases hs; exact self_skipSelect h en
  | skipAdvance => cases hs; exact self_skipAdvance h en
  | register => cases hs; exact self_register h en
  | commit => cases hs; exact self_commit st s
  | abort => cases hs; exact self_abort st s
  | sweepList =>
    cases hs
    refine self_retention h en.1 (by simp) rfl ?_ ?_ ?_ <;> simp [effect, become]
  | gcDelete _ target rest =>
    cases hs
    refine self_retention h (r := .sweeping (target :: rest)) en (by simp) rfl ?_ ?_ ?_ <;>
      simp [effect]
  | gcCommit _ target rest batch =>
    cases hs
    refine self_retention h (r := .deleting target rest batch) en (by simp) rfl ?_ ?_ ?_ <;>
      simp [effect, become]
  | gcFail _ target rest batch =>
    cases hs
    refine self_retention h (r := .deleting target rest batch) en (by simp) rfl ?_ ?_ ?_ <;>
      simp [effect, become]
  | sweepEnd =>
    cases hs
    refine self_retention h (r := .sweeping []) en (by simp) rfl ?_ ?_ ?_ <;>
      simp [effect, Session.idle]

end Others

section Rows

variable {st : Plane} {a : Act} {id : String} {row row' : SubRow}

/-- The deliveries and skips a statement commits. -/
def newlyHandled (st : Plane) : Act → List Handled
  | .commit s => (st.session s).effect.toList
  | _ => []

/-- The positions among them that belong to one subscription. -/
def newlyHandledOf (st : Plane) (a : Act) (id : String) : List Position :=
  ((st.newlyHandled a).filter (fun x => x.sub = id)).map (·.pos)

/-- Every way in which a statement replaces a committed subscription row, with
the positions it thereby marks as handled. -/
inductive RowStep (st : Plane) (a : Act) (id : String) :
    Option SubRow → Option SubRow → List Position → Prop
  | kept (v : Option SubRow) : RowStep st a id v v []
  | operated (cmd : Command) (row : SubRow)
      (act : a = .operator cmd id row) :
      RowStep st a id (some row) (some (cmd.apply row st.clock)) []
  | stale (c : Claim) (row : SubRow) (error : String)
      (act : a = .recordStale c row error)
      (same : id = c.entry.id) :
      RowStep st a id (some row) (some (row.recordFailure c error st.clock)) []
  | delivered (s : Sess) (c : Claim) (e : Entry Event) (row : SubRow) (now : Nat)
      (act : a = .commit s)
      (role : (st.session s).role = .advanced c e)
      (same : id = c.entry.id)
      (serves : Serves row c)
      (next : st.NextFor row e) :
      RowStep st a id (some row) (some (row.advance e.pos now)) [e.pos]
  | failed (s : Sess) (c : Claim) (row : SubRow) (error : String) (now : Nat)
      (act : a = .commit s)
      (role : (st.session s).role = .recorded c)
      (same : id = c.entry.id)
      (serves : Serves row c) :
      RowStep st a id (some row) (some (row.recordFailure c error now)) []
  | skipped (s : Sess) (e : Entry Event) (row : SubRow) (reason : String) (now : Nat)
      (act : a = .commit s)
      (role : (st.session s).role = .skipAdvanced id e)
      (next : st.NextFor row e) :
      RowStep st a id (some row) (some (row.skip e reason now)) [e.pos]
  | registered (s : Sess) (entry : SubEntry) (version : Int) (cursor : Position) (now : Nat)
      (act : a = .commit s)
      (role : (st.session s).role = .registered entry)
      (same : id = entry.id)
      (fits : i32TryFrom entry.version = some version) :
      RowStep st a id none (some (entry.newRow version cursor now)) []

/-- A commit handles events only of the subscription its session has locked. -/
theorem newlyHandledOf_commit {s : Sess} (h : Inv st) (en : st.enabled (.commit s))
    (hfree : ∀ v, st.subs.pending id ≠ some (s, v)) : st.newlyHandledOf (.commit s) id = [] := by
  have hmay : st.MayCommit s (st.session s).role := en
  cases hr : (st.session s).role with
  | advanced c e =>
    have heff : (st.session s).effect = some ⟨c.entry.id, e.pos, .delivered⟩ := effect_of_role h hr
    obtain ⟨_, _, hl, -⟩ := holds_of_role h hr
    have hne : c.entry.id ≠ id := by
      rintro rfl
      exact hfree _ hl.left
    simp [newlyHandledOf, newlyHandled, heff, hne]
  | skipAdvanced id' e =>
    have heff : (st.session s).effect = some ⟨id', e.pos, .skipped⟩ := effect_of_role h hr
    obtain ⟨_, _, _, hl, -⟩ := holds_of_role h hr
    have hne : id' ≠ id := by
      rintro rfl
      exact hfree _ hl.left
    simp [newlyHandledOf, newlyHandled, heff, hne]
  | producer | drained c | recorded c | bumped g | registered entry =>
    have heff : (st.session s).effect = none := effect_of_role h hr
    simp [newlyHandledOf, newlyHandled, heff]
  | _ =>
    rw [hr] at hmay
    exact False.elim hmay

/-- The rows a commit replaces are those its session left. -/
theorem row_step_commit {s : Sess} (h : Inv st) (en : st.enabled (.commit s)) (id : String) :
    RowStep st (.commit s) id (st.subs.committed id) (st.subs.view s id)
      (st.newlyHandledOf (.commit s) id) := by
  by_cases hhold : ∃ v, st.subs.pending id = some (s, v)
  · obtain ⟨v, hp⟩ := hhold
    have hlock := (h.session s).only id v hp
    have hmay : st.MayCommit s (st.session s).role := en
    cases hr : (st.session s).role with
    | drained =>
      rw [hr] at hlock
      subst hlock
      obtain ⟨_, hl, -⟩ := holds_of_role h hr
      have heff : (st.session s).effect = none := effect_of_role h hr
      rw [hl.view, hl.found]
      simp only [newlyHandledOf, newlyHandled, heff]
      exact .kept _
    | advanced c e =>
      rw [hr] at hlock
      subst hlock
      obtain ⟨row, now, hl, hs, hn⟩ := holds_of_role h hr
      have heff : (st.session s).effect = some ⟨c.entry.id, e.pos, .delivered⟩ :=
        effect_of_role h hr
      rw [hl.view, hl.found]
      simp only [newlyHandledOf, newlyHandled, heff, toList_some,
        filter_cons_of_pos, decide_true, filter_nil, map_cons, map_nil]
      exact .delivered s c e row now rfl hr rfl hs hn
    | recorded c =>
      rw [hr] at hlock
      subst hlock
      obtain ⟨row, error, now, hl, hs⟩ := holds_of_role h hr
      have heff : (st.session s).effect = none := effect_of_role h hr
      rw [hl.view, hl.found]
      simp only [newlyHandledOf, newlyHandled, heff]
      exact .failed s c row error now rfl hr rfl hs
    | skipAdvanced _ e =>
      rw [hr] at hlock
      subst hlock
      obtain ⟨row, reason, now, hl, hn⟩ := holds_of_role h hr
      have heff : (st.session s).effect = some ⟨id, e.pos, .skipped⟩ := effect_of_role h hr
      rw [hl.view, hl.found]
      simp only [newlyHandledOf, newlyHandled, heff, toList_some,
        filter_cons_of_pos, decide_true, filter_nil, map_cons, map_nil]
      exact .skipped s e row reason now rfl hr hn
    | registered entry =>
      rw [hr] at hlock
      subst hlock
      obtain ⟨hnone, version, cursor, now, rfl, hfits⟩ := holds_of_role h hr v hp
      have heff : (st.session s).effect = none := effect_of_role h hr
      rw [view_of_pending_self hp, hnone]
      simp only [newlyHandledOf, newlyHandled, heff]
      exact .registered s entry version cursor now rfl hr rfl hfits
    | producer | bumped g =>
      rw [hr] at hlock
      exact False.elim hlock
    | _ =>
      rw [hr] at hmay
      exact False.elim hmay
  · have hfree : ∀ v, st.subs.pending id ≠ some (s, v) := fun v hp => hhold ⟨v, hp⟩
    rw [view_of_not_holder hfree, newlyHandledOf_commit h en hfree]
    exact .kept _

/-- The inversion lemma for committed subscription rows. -/
theorem row_step (h : Inv st) (en : st.enabled a) (id : String) :
    RowStep st a id (st.subs.committed id) ((st.effect a).subs.committed id)
      (st.newlyHandledOf a id) := by
  cases a with
  | claim s entry row | advance s c e row | recordFault s c row error
  | skipClaim s id' row | skipAdvance s id' row e reason =>
    simp only [effect, committed_write]
    exact .kept _
  | recordStale c row error =>
    simp only [effect, committed_put]
    by_cases hid : id = c.entry.id
    · subst hid
      rw [if_pos rfl, en.2.1]
      exact .stale c row error rfl rfl
    · rw [if_neg hid]
      exact .kept _
  | operator cmd id' row =>
    simp only [effect, committed_put]
    by_cases hid : id = id'
    · subst hid
      rw [if_pos rfl, en.1]
      exact .operated cmd row rfl
    · rw [if_neg hid]
      exact .kept _
  | register =>
    simp only [effect]
    split
    · exact .kept _
    · simp only [committed_write]
      exact .kept _
  | commit =>
    simp only [effect, committed_commit]
    exact row_step_commit h en id
  | abort =>
    simp only [effect, committed_rollback]
    exact .kept _
  | ensureHistory =>
    simp only [effect]
    split
    · exact .kept _
    · split <;> exact .kept _
  | seedHistory =>
    simp only [effect]
    split
    · exact .kept _
    · split <;> exact .kept _
  | _ => exact .kept _

/-- A committed row is never removed, and its topic, version and hash never
change. -/
theorem RowStep.same {v v' : Option SubRow} {new : List Position}
    (h : RowStep st a id v v' new) (hv : v = some row) :
    ∃ row', v' = some row' ∧ row.Same row' := by
  cases h with
  | kept => exact ⟨row, hv, .refl row⟩
  | operated cmd => cases hv; exact ⟨_, rfl, row.same_apply cmd _⟩
  | stale c _ error => cases hv; exact ⟨_, rfl, row.same_recordFailure c error _⟩
  | delivered _ _ e _ now =>
    cases hv
    exact ⟨_, rfl, row.same_advance e.pos now⟩
  | failed _ c _ error now =>
    cases hv
    exact ⟨_, rfl, row.same_recordFailure c error now⟩
  | skipped _ e _ reason now =>
    cases hv
    exact ⟨_, rfl, row.same_skip e reason now⟩
  | registered => cases hv

theorem describes_of_same {entry : SubEntry} (h : row.Describes entry)
    (hs : row.Same row') : row'.Describes entry :=
  ⟨hs.specHash.trans h.1, hs.topic.trans h.2.1, by rw [hs.contractVersion]; exact h.2.2⟩

/-- A row a committed row came from, or its registration. -/
theorem RowStep.described {v v' : Option SubRow} {new : List Position}
    (h : RowStep st a id v v' new) (hv : ∀ row, v = some row → ∃ entry, row.Describes entry)
    (hv' : v' = some row') : ∃ entry, row'.Describes entry := by
  cases hold : v with
  | some row =>
    obtain ⟨entry, hd⟩ := hv row hold
    obtain ⟨_, hrow'', hs⟩ := h.same hold
    rw [hv'] at hrow''
    cases hrow''
    exact ⟨entry, describes_of_same hd hs⟩
  | none =>
    subst hold
    cases h with
    | kept => cases hv'
    | registered _ entry _ _ _ _ _ _ fits =>
      cases hv'
      exact ⟨entry, rfl, rfl, fits⟩

end Rows

section Invariant

variable {st : Plane} {a : Act}

theorem visible_step (h : Inv st) (en : st.enabled a) (e : Entry Event)
    (he : e ∈ (st.effect a).events) : e ∈ (st.effect a).front.log := by
  have hkept := (front_step h en).advance.log_kept
  by_cases hc : ∃ s, a = .commit s
  · obtain ⟨s, rfl⟩ := hc
    rcases mem_append.mp he with he | he
    · exact hkept e (h.visible e he)
    · show e ∈ (st.committedFront s (st.session s).role).log
      cases hr : (st.session s).role with
      | bumped g =>
        have hf := ((h.session s).writer.bumped g hr).1
        rw [h.wf.inflight_of_fence hf s] at he
        cases he
      | _ => exact mem_append_right _ he
  · have hold : e ∈ st.events := by
      cases a with
      | commit s => exact absurd ⟨s, rfl⟩ hc
      | gcCommit => exact mem_of_mem_filter he
      | ensureHistory | seedHistory =>
        simp only [effect] at he
        split at he
        · exact he
        · split at he <;> exact he
      | register =>
        simp only [effect] at he
        split at he <;> exact he
      | _ => exact he
    exact hkept e (h.visible e hold)

/-- A statement reconciles at most the entry whose registration it commits. -/
theorem reconciled_from {entry : SubEntry} (he : entry ∈ (st.effect a).reconciled) :
    entry ∈ st.reconciled ∨ ∃ s, a = .commit s ∧ (st.session s).role = .registered entry := by
  cases a with
  | commit s =>
    have he' : entry ∈ st.committedReconciled (st.session s).role := he
    cases hr : (st.session s).role with
    | registered =>
      rw [hr] at he'
      rcases mem_cons.mp he' with rfl | hold
      · exact .inr ⟨s, rfl, hr⟩
      · exact .inl hold
    | _ =>
      rw [hr] at he'
      exact .inl he'
  | ensureHistory | seedHistory =>
    simp only [effect] at he
    split at he
    · exact .inl he
    · split at he <;> exact .inl he
  | register =>
    simp only [effect] at he
    split at he <;> exact .inl he
  | _ => exact .inl he

/-- Every statement keeps the invariant. -/
theorem inv_step (h : Inv st) (en : st.enabled a) : Inv (st.effect a) := by
  have hdescribed : ∀ id row, (st.effect a).subs.committed id = some row →
      ∃ entry, row.Describes entry := by
    intro id _ hrow
    exact (row_step h en id).described (h.described id) hrow
  refine
    { wf := (front_step h en).wf h.wf
      session := ?_
      visible := visible_step h en
      described := hdescribed
      reconciled := ?_ }
  · intro s
    by_cases hs : a.actor = some s
    · exact session_self h en hs
    · rw [session_other hs]
      exact (h.session s).frame (apart_of_other h en hs)
  · intro entry he
    rcases reconciled_from he with hold | ⟨s, rfl, hr⟩
    · obtain ⟨_, hrow, hd⟩ := h.reconciled entry hold
      obtain ⟨row', hrow', hs⟩ := (row_step h en entry.id).same hrow
      exact ⟨row', hrow', describes_of_same hd hs⟩
    · -- the hash check of the registration makes the row describe the entry
      have hmay : st.MayCommit s (st.session s).role := en
      rw [hr] at hmay
      have hcommit : (st.effect (.commit s)).subs.committed entry.id =
          st.subs.view s entry.id := committed_commit s st.subs entry.id
      obtain ⟨row, hview, hhash⟩ := map_eq_some_iff.mp hmay
      rw [hview] at hcommit
      obtain ⟨_, hhash', htopic', hversion'⟩ := hdescribed entry.id row hcommit
      obtain ⟨htopic, hversion⟩ := topic_version_of_specHash (hhash'.symm.trans hhash)
      refine ⟨row, hcommit, hhash, htopic'.trans htopic, ?_⟩
      rw [← hversion]
      exact hversion'

theorem inv_start : Inv Plane.start where
  wf :=
    { running_lt := by simp [Plane.start]
      xid_running := by simp [Plane.start]
      xid_inj := by simp [Plane.start]
      inflight_xid := by simp [Plane.start]
      inflight_generation := by simp [Plane.start]
      inflight_writer := by simp [Plane.start]
      log_generation := by simp [Plane.start]
      fence_writers := by simp [Plane.start]
      tie_lt := by simp [Plane.start, Frontier.Live]
      tie_inj := by simp [Plane.start, Frontier.Live] }
  session := fun s => sessionOk_plain rfl rfl (.inl rfl) (by simp [Plane.start])
  visible := by simp [Plane.start]
  described := by simp [Plane.start]
  reconciled := by simp [Plane.start]

/-- The invariant holds in every reachable state. -/
theorem inv_reachable {G : Plane → Act → Prop} (h : system.Reachable G st) : Inv st :=
  h.invariant inv_start (fun _ _ _ hi _ en => inv_step hi en)

end Invariant

end Swarog.AsyncEvents.Plane
