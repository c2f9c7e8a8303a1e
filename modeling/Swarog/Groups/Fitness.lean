import Swarog.Groups.Sessions

/-!
# Groups and their rosters

A group has an admin, and a membership belongs to an existing group (`Fit`).  A
session that holds the lock of a group knows its roster: while it holds the lock, the
other sessions can only take pending rows away (`Calm`).  `Knows` lists what a session
knows at each program point, and every `COMMIT` leaves fit groups behind because of
it.

The knowledge is stated about the committed rows together with the changes that the
session has made (`Snap.rowsWith`), so that it survives the return to a savepoint.
-/

namespace Swarog.Groups

open Pg Table List

section Fitness

/-- A group and its roster fit: an existing group has an admin, and a group that does
not exist has no rows. -/
def Fit (group : Option GroupRow) (row : Uuid → Option MemberRow) : Prop :=
  (group ≠ none ∧ ∃ p m, row p = some m ∧ m.IsAdmin) ∨ (group = none ∧ ∀ p, row p = none)

/-- The committed groups and memberships, and the group ids that nobody can create any
more. -/
structure Snap where
  groups : Uuid → Option GroupRow
  rows : Uuid × Uuid → Option MemberRow
  old : Uuid → Prop

def Data.snap (d : Data) : Snap where
  groups := d.groups.committed
  rows := d.memberships.committed
  old g := g ∈ d.uuids ∧ (d.groups.committed g = none → d.groups.pending g = none)

namespace Snap

/-- The roster of a group with the changes `cs`. -/
def rowsWith (s : Snap) (cs : List Change) (g p : Uuid) : Option MemberRow :=
  Pg.Change.apply cs s.rows (g, p)

/-- The group once the groups `gs` are deleted. -/
def groupWith (s : Snap) (gs : List Uuid) (g : Uuid) : Option GroupRow :=
  if g ∈ gs then none else s.groups g

def FitWith (s : Snap) (cs : List Change) (gs : List Uuid) (g : Uuid) : Prop :=
  Fit (s.groupWith gs g) (s.rowsWith cs g)

/-- Every group is fit. -/
def FitAll (s : Snap) : Prop := ∀ g, s.FitWith [] [] g

end Snap

variable {group : Option GroupRow} {row row' : Uuid → Option MemberRow} {p : Uuid}

theorem Fit.group_of_row {m : MemberRow} (h : Fit group row) (hrow : row p = some m) :
    group ≠ none := by
  rcases h with ⟨hg, -⟩ | ⟨-, hnone⟩
  · exact hg
  · rw [hnone p] at hrow
    cases hrow

/-- All that happens to a roster is that pending rows go. -/
def Fades (row row' : Uuid → Option MemberRow) : Prop :=
  ∀ p, row' p = row p ∨ (row' p = none ∧ ∀ m ∈ row p, ¬ m.IsMember)

theorem Fades.of_some {m : MemberRow} (h : Fades row row') (hrow : row' p = some m) :
    row p = some m := by
  rcases h p with heq | ⟨hnone, -⟩
  · rw [← heq, hrow]
  · rw [hnone] at hrow
    cases hrow

theorem Fades.member {m : MemberRow} (h : Fades row row') (hrow : row p = some m)
    (hm : m.IsMember) : row' p = some m := by
  rcases h p with heq | ⟨-, hpending⟩
  · rw [heq, hrow]
  · exact absurd hm (hpending m hrow)

theorem Fit.fades (h : Fit group row) (hf : Fades row row') : Fit group row' := by
  rcases h with ⟨hg, p, m, hrow, hadmin⟩ | ⟨hg, hnone⟩
  · exact .inl ⟨hg, p, m, hf.member hrow hadmin.1, hadmin⟩
  · refine .inr ⟨hg, ?_⟩
    intro p
    cases hrow : row' p with
    | none => rfl
    | some =>
      have hold := hf.of_some hrow
      rw [hnone p] at hold
      cases hold

namespace Snap

variable {s s' : Snap} {cs cs' : List Change} {gs : List Uuid} {g : Uuid}

theorem rowsWith_nil :
    s.rowsWith [] g = fun p => s.rows (g, p) := rfl

theorem groupWith_nil : s.groupWith [] g = s.groups g := if_neg not_mem_nil

theorem rowsWith_other (h : ∀ c ∈ cs', c.key.1 ≠ g) :
    s.rowsWith (cs ++ cs') g = s.rowsWith cs g := by
  funext p
  exact Pg.Change.apply_append_same (fun c hc hkey => h c hc (congrArg Prod.fst hkey))

theorem rowsWith_untouched (h : ∀ c ∈ cs, c.key.1 ≠ g) :
    s.rowsWith cs g = fun p => s.rows (g, p) := by
  funext p
  exact Pg.Change.apply_same (fun c hc hkey => h c hc (congrArg Prod.fst hkey))

/-- The changes of a session do not hide what happens to the roster. -/
theorem fades_rowsWith (h : Fades (fun p => s.rows (g, p)) (fun p => s'.rows (g, p))) :
    Fades (s.rowsWith cs g) (s'.rowsWith cs g) := by
  intro p
  rcases Pg.Change.apply_cases cs (g, p) with ⟨_, hv⟩ | hsame
  · exact .inl ((hv _).trans (hv _).symm)
  · unfold rowsWith
    rw [hsame, hsame]
    exact h p

/-- A group that none of the changes is about is as it was. -/
theorem FitAll.untouched (h : s.FitAll) (hcs : ∀ c ∈ cs, c.key.1 ≠ g) (hgs : g ∉ gs) :
    s.FitWith cs gs g := by
  have hg := h g
  unfold FitWith at hg ⊢
  rw [rowsWith_untouched hcs, groupWith, if_neg hgs]
  rwa [rowsWith_nil, groupWith_nil] at hg

/-- What has happened to a group and its roster while somebody held the lock. -/
structure Calm (s s' : Snap) (g : Uuid) : Prop where
  group : s'.groups g = s.groups g
  rows : Fades (fun p => s.rows (g, p)) (fun p => s'.rows (g, p))

theorem FitWith.calm (h : s.FitWith cs gs g) (hc : Calm s s' g) : s'.FitWith cs gs g := by
  have hgroup : s'.groupWith gs g = s.groupWith gs g := by
    unfold groupWith
    rw [hc.group]
  unfold FitWith at h ⊢
  rw [hgroup]
  exact h.fades (fades_rowsWith hc.rows)

end Snap

end Fitness

section Knowledge

/-- The row that `leave` has read is the one that is there, if any. -/
def Host.Read (h : Host) (row : Option MemberRow) : Prop :=
  match h with
  | .leave _ seen => ∀ m ∈ row, m = seen
  | .sweep _ _ _ _ => True

/-- What the counts say of the player `p`: a member is counted, and if an admin is not
the only one, there is another. -/
structure Counts.Tell (counts : Counts) (row : Uuid → Option MemberRow) (p : Uuid) : Prop where
  members : ∀ m, row p = some m → m.IsMember → counts.members ≠ 0
  admins : counts.admins ≠ 1 → ∀ m, row p = some m → m.IsAdmin →
    ∃ q m', q ≠ p ∧ row q = some m' ∧ m'.IsAdmin

/-- What is known at the end of a membership, when the group exists. -/
def Exit.Knows (h : Host) (group : Option GroupRow) (row : Uuid → Option MemberRow) : Exit → Prop
  | .locked => Fit group row ∧ h.Read (row h.key.2)
  | .weighed counts => Fit group row ∧ h.Read (row h.key.2) ∧ ¬ h.Refuses counts ∧
      counts.Tell row h.key.2
  | .emptying => True
  | .dissolving todo => ∀ q m, row q = some m → (h.key.1, q) ∈ todo
  | .done _ => Fit group row

def Host.todo : Host → List Uuid
  | .leave _ _ => []
  | .sweep _ _ _ todo => todo

def SweepStage.todo : SweepStage → List Uuid
  | .walking groups => groups
  | _ => []

/-- The caller of `decide` is an admin. -/
def Snap.Presides (s : Snap) (c : Call) : Prop :=
  ∀ me dec, c.op = .decide me dec → ∃ m, s.rows (c.group.id, me) = some m ∧ m.IsAdmin

/-- What a call has checked of the row of its subject. -/
def Call.Permits (c : Call) (row : MemberRow) : Prop :=
  match c.op with
  | .respond _ => row.state = .invited
  | .decide me _ => c.subject.id ≠ me
  | .promote => True
  | _ => False

/-- The groups that the changes `cs` are about exist, and are fit with the changes. -/
def Snap.FitTouched (s : Snap) (cs : List Change) (gs : List Uuid) : Prop :=
  ∀ c ∈ cs, s.groups c.key.1 ≠ none ∧ s.FitWith cs gs c.key.1

/-- What a session knows at its program point. -/
def Snap.Knows (s : Snap) : Pc → Prop
  | .op x (.placed _ _) | .op x (.roomy _ _) => s.groups x.call.group.id ≠ none
  | .op x .authorized => s.groups x.call.group.id ≠ none ∧ s.Presides x.call
  | .op x (.found seen) => s.groups x.call.group.id ≠ none ∧ s.Presides x.call ∧
      x.call.Permits seen ∧ ∀ m ∈ s.rows x.call.key, m = seen
  | .op x (.written c) => s.groups x.call.group.id ≠ none ∧ s.FitWith [c] [] x.call.group.id
  | .exit h st cs => s.FitTouched h.kept h.dissolved ∧ (∀ g ∈ h.todo, s.old g) ∧
      s.old h.key.1 ∧ (cs ≠ [] → s.groups h.key.1 ≠ none) ∧
        (s.groups h.key.1 ≠ none →
          st.Knows h (s.groupWith (h.dissolved ++ st.gone h.key.1) h.key.1)
            (s.rowsWith (h.kept ++ cs) h.key.1))
  | .sweep sw st => s.FitTouched sw.removed sw.dissolved ∧ ∀ g ∈ st.todo, s.old g
  | _ => True

variable {s s' : Snap} {row row' : Uuid → Option MemberRow} {group : Option GroupRow}

theorem Counts.Tell.fades {counts : Counts} {p : Uuid} (h : counts.Tell row p)
    (hf : Fades row row') : counts.Tell row' p where
  members := fun m hm => h.members m (hf.of_some hm)
  admins := by
    intro hne m hm hadmin
    obtain ⟨q, m', hq, hm', hadmin'⟩ := h.admins hne m (hf.of_some hm) hadmin
    exact ⟨q, m', hq, hf.member hm' hadmin'.1, hadmin'⟩

theorem Host.Read.fades {h : Host} {p : Uuid} (hr : h.Read (row p)) (hf : Fades row row') :
    h.Read (row' p) := by
  cases h with
  | leave => exact fun m hm => hr m (hf.of_some hm)
  | sweep => exact trivial

theorem Exit.Knows.fades {h : Host} {st : Exit} (hk : st.Knows h group row) (hf : Fades row row') :
    st.Knows h group row' := by
  cases st with
  | locked => exact ⟨hk.1.fades hf, hk.2.fades hf⟩
  | weighed => exact ⟨hk.1.fades hf, hk.2.1.fades hf, hk.2.2.1, hk.2.2.2.fades hf⟩
  | emptying => exact trivial
  | dissolving => exact fun q m hm => hk q m (hf.of_some hm)
  | done => exact Fit.fades hk hf

theorem Snap.FitTouched.calm {cs : List Change} {gs : List Uuid} (h : s.FitTouched cs gs)
    (hc : ∀ c ∈ cs, s.groups c.key.1 ≠ none → Snap.Calm s s' c.key.1) : s'.FitTouched cs gs := by
  intro c hmem
  obtain ⟨hg, hfit⟩ := h c hmem
  have hcalm := hc c hmem hg
  exact ⟨by rw [hcalm.group]; exact hg, hfit.calm hcalm⟩

theorem Snap.Presides.calm {c : Call} (h : s.Presides c) (hc : Snap.Calm s s' c.group.id) :
    s'.Presides c := by
  intro me dec hop
  obtain ⟨m, hm, hadmin⟩ := h me dec hop
  exact ⟨m, hc.rows.member hm hadmin.1, hadmin⟩

/-- The lock of a group as the source computes it is the lock of its id. -/
theorem lockKey_eq (c : Call) : c.lockKey = groupLockKey c.group.id.text :=
  uuidLockKey_eq _ c.group.reads

theorem Host.lock_mem (h : Host) : groupLockKey h.key.1.text ∈ h.locks := by
  cases h with
  | leave x => exact mem_singleton.2 (lockKey_eq x.call).symm
  | sweep => exact mem_append_right _ (mem_singleton.2 rfl)

theorem Host.Sound.kept_locked {h : Host} {c : Change} (hs : h.Sound) (hc : c ∈ h.kept) :
    groupLockKey c.key.1.text ∈ h.locks := by
  cases h with
  | leave => cases hc
  | sweep => exact mem_append_left _ (hs.1 c hc).2

/-- What a session knows survives the steps of the others: the groups it knows of are
those whose locks it holds. -/
theorem Snap.Knows.calm {pc : Pc} (h : s.Knows pc) (hs : pc.Sound)
    (hc : ∀ g, groupLockKey g.text ∈ pc.locksHeld → s.groups g ≠ none → Snap.Calm s s' g)
    (hold : ∀ g, s.old g → s'.old g)
    (hdead : ∀ g, s.old g → s'.groups g ≠ none → s.groups g ≠ none) : s'.Knows pc := by
  cases pc with
  | op x st =>
    have hcalm : (Pc.op x st).locksHeld = [x.call.lockKey] →
        s.groups x.call.group.id ≠ none → Snap.Calm s s' x.call.group.id := by
      intro hkeys
      exact hc _ (by rw [hkeys, lockKey_eq]; exact mem_singleton.2 rfl)
    have hgroup : (Pc.op x st).locksHeld = [x.call.lockKey] →
        s.groups x.call.group.id ≠ none → s'.groups x.call.group.id ≠ none := by
      intro hkeys hg
      rw [(hcalm hkeys hg).group]
      exact hg
    cases st with
    | opened | locked | cleared => exact trivial
    | placed | roomy => exact hgroup rfl h
    | authorized | written => exact ⟨hgroup rfl h.1, h.2.calm (hcalm rfl h.1)⟩
    | found =>
      refine ⟨hgroup rfl h.1, h.2.1.calm (hcalm rfl h.1), h.2.2.1, ?_⟩
      intro m hm
      exact h.2.2.2 m ((hcalm rfl h.1).rows.of_some (p := x.call.key.2) hm)
  | exit hst st =>
    obtain ⟨hkept, htodo, hg, hcs, hstage⟩ := h
    refine ⟨?_, fun g hmem => hold g (htodo g hmem), hold _ hg, ?_, ?_⟩
    · exact hkept.calm (fun c hmem => hc _ (hs.1.kept_locked hmem))
    · intro hne
      have halive := hcs hne
      rw [(hc _ hst.lock_mem halive).group]
      exact halive
    · intro halive'
      have halive := hdead _ hg halive'
      have hcalm := hc _ hst.lock_mem halive
      have hgroup : s'.groupWith (hst.dissolved ++ st.gone hst.key.1) hst.key.1 =
          s.groupWith (hst.dissolved ++ st.gone hst.key.1) hst.key.1 := by
        unfold Snap.groupWith
        rw [hcalm.group]
      rw [hgroup]
      exact (hstage halive).fades (Snap.fades_rowsWith hcalm.rows)
  | sweep =>
    exact ⟨h.1.calm (fun c hmem => hc _ (hs.1 c hmem).2), fun g hmem => hold g (h.2 g hmem)⟩
  | _ => exact trivial

end Knowledge

variable {G : World Data Pc → Sess × Act → Prop}
variable {w : World Data Pc} {t u : Sess} {a : Act} {d : Data}

section Others

variable {pc : Pc}

/-- A session has locked the group of a change, has created the group, or deletes a
pending row. -/
theorem change_authorized {c : Change} (hs : pc.Sound) (hc : c ∈ pc.changes) :
    groupLockKey c.key.1.text ∈ pc.locksHeld ∨ pc.drawn = some c.key.1 ∨
      (c.new = none ∧ ∀ m ∈ c.old, ¬ m.IsMember) := by
  cases pc with
  | create _ _ st =>
    cases st with
    | written =>
      cases mem_singleton.1 hc
      exact .inr (.inl rfl)
    | _ => cases hc
  | op _ st =>
    cases st with
    | written =>
      cases mem_singleton.1 hc
      refine .inl (mem_singleton.2 ?_)
      rw [hs.1, lockKey_eq]
      rfl
    | _ => cases hc
  | exit h =>
    refine .inl ?_
    rcases mem_append.1 hc with hc | hc
    · exact hs.1.kept_locked hc
    · rw [(hs.2.1 c hc).2]
      exact h.lock_mem
  | prune => exact .inr (.inr ⟨(hs c hc).1.new_eq, (hs c hc).2⟩)
  | sweep => exact .inl (hs.1 c hc).2
  | _ => cases hc

variable {g : Uuid}

/-- A session has locked the groups that it has deleted. -/
theorem dissolved_locked (hs : pc.Sound) (hg : g ∈ pc.dissolved) :
    groupLockKey g.text ∈ pc.locksHeld := by
  cases pc with
  | exit h st =>
    rcases mem_append.1 hg with hg | hg
    · cases h with
      | leave => cases hg
      | sweep sw g' p todo =>
        obtain ⟨_, hc, rfl⟩ := hs.1.2 g hg
        exact Host.Sound.kept_locked (h := .sweep sw g' p todo) hs.1 hc
    · have hkey : g = h.key.1 := by
        cases st with
        | done gone => cases gone with
          | true => exact mem_singleton.1 hg
          | false => cases hg
        | _ => cases hg
      rw [hkey]
      exact h.lock_mem
  | sweep =>
    obtain ⟨c, hc, rfl⟩ := hs.2 g hg
    exact (hs.1 c hc).2
  | _ => cases hg

/-- The committed groups and rows after a `COMMIT` are those that the session saw. -/
theorem snap_commit_rows {answers : List Answer} {k : Uuid × Uuid}
    (h : system.Reachable G w) (en : programs.enabled w (t, .commit pc answers)) :
    (w.data.commit t pc.changes answers).snap.rows k =
      Pg.Change.apply pc.changes w.data.snap.rows k := by
  have hk := keeps_reachable h t
  rw [show w.pc t = pc from en.1] at hk
  show (w.data.memberships.commit t).committed k = _
  rw [committed_commit]
  exact hk.owes.view_eq_apply k

/-- The group that a session has created is not committed. -/
theorem drawn_uncommitted (h : system.Reachable G w) (hg : (w.pc t).drawn = some g) :
    w.data.groups.committed g = none ∧ ∃ row, w.data.groups.pending g = some (t, some row) := by
  have ho := (owns_reachable h t).owes
  cases hpc : w.pc t with
  | create _ _ st =>
    rw [hpc] at hg ho
    cases st with
    | grouped id | written id =>
      cases hg
      exact ⟨ho.based _ mem_cons_self, _, ho.held _ mem_cons_self⟩
    | _ => cases hg
  | _ =>
    rw [hpc] at hg
    cases hg

theorem groupsHeld_of_drawn_none (h : pc.drawn = none) :
    pc.groupsHeld = .writing (pc.dissolved.map dissolvedWrite) := by
  cases pc with
  | create _ _ st => cases st <;> first | rfl | cases h
  | _ => rfl

/-- The groups that a session holds are those that it has deleted or created. -/
theorem group_held {v : Option GroupRow} (ho : d.groups.Owes t pc.groupsHeld)
    (hv : d.groups.pending g = some (t, v)) : g ∈ pc.dissolved ∨ pc.drawn = some g := by
  by_cases hd : pc.drawn = none
  · rw [groupsHeld_of_drawn_none hd] at ho
    rcases ho.only g v hv with ⟨_, hw', hkey, -⟩ | ⟨-, _, -, hdoom⟩
    · obtain ⟨_, hg', rfl⟩ := mem_map.1 hw'
      exact .inl (hkey ▸ hg')
    · exact hdoom.elim
  · refine .inr ?_
    cases pc with
    | create _ _ st =>
      cases st with
      | grouped id | written id =>
        rcases ho.only g v hv with ⟨_, hw', hkey, -⟩ | ⟨-, _, -, hdoom⟩
        · cases mem_singleton.1 hw'
          exact congrArg some hkey
        · exact hdoom.elim
      | _ => exact absurd rfl hd
    | _ => exact absurd rfl hd

/-- What a session that has created no group sees of the groups. -/
theorem view_group (h : system.Reachable G w) (hd : (w.pc t).drawn = none) (g : Uuid) :
    w.data.groups.view t g = w.data.snap.groupWith (w.pc t).dissolved g := by
  have ho := (owns_reachable h t).owes
  rw [groupsHeld_of_drawn_none hd] at ho
  unfold Snap.groupWith
  split
  · rename_i hmem
    exact view_of_pending_self (ho.held (dissolvedWrite g) (mem_map_of_mem hmem))
  · rename_i hmem
    refine view_of_not_holder ?_
    intro _ hv
    rcases group_held (owns_reachable h t).owes hv with hg | hg
    · exact hmem hg
    · rw [hd] at hg
      cases hg

theorem snap_commit_groups {answers : List Answer} (h : system.Reachable G w)
    (en : programs.enabled w (t, .commit pc answers)) (hd : pc.drawn = none) (g : Uuid) :
    (w.data.commit t pc.changes answers).snap.groups g = w.data.snap.groupWith pc.dissolved g := by
  show (w.data.groups.commit t).committed g = _
  have hpc : w.pc t = pc := en.1
  rw [committed_commit, ← hpc]
  exact view_group h (by rw [hpc]; exact hd) g

/-- While a session holds the lock of an existing group, the other sessions only take
pending rows away. -/
theorem calm_other (h : system.Reachable G w) (en : programs.enabled w (u, a))
    (hut : u ≠ t) (hlock : groupLockKey g.text ∈ (w.pc t).locksHeld)
    (hg : w.data.snap.groups g ≠ none) :
    Snap.Calm w.data.snap ((stmt u a).change w.data).snap g := by
  have hpc : w.pc u = (stmt u a).before := en.1
  have hs := sound_reachable h u
  have hexcl : groupLockKey g.text ∉ (w.pc u).locksHeld := by
    intro hlock'
    exact hut ((locks_held h u).exclusive (locks_held h t) hlock' hlock)
  have hdrawn : (w.pc u).drawn ≠ some g := by
    intro hd
    exact hg (drawn_uncommitted h hd).1
  rcases exists_or_ne Act.commit a with ⟨pc, answers, rfl⟩ | hquiet
  · have hpc : w.pc u = pc := en.1
    rw [hpc] at hs hexcl hdrawn
    constructor
    · show (w.data.groups.commit u).committed g = w.data.groups.committed g
      have ho := (owns_reachable h u).owes
      rw [hpc] at ho
      rw [committed_commit]
      refine view_of_not_holder ?_
      intro _ hv
      rcases group_held ho hv with hmem | hd
      · exact hexcl (dissolved_locked hs hmem)
      · exact hdrawn hd
    · intro p
      beta_reduce
      rw [show ((stmt u (.commit pc answers)).change w.data).snap.rows (g, p) = _ from
        snap_commit_rows h en]
      by_cases hmem : ∃ c ∈ pc.changes, c.key = (g, p)
      · obtain ⟨c, hc, hkey⟩ := hmem
        have hk := keeps_reachable h u
        rw [hpc] at hk
        have hgrp : c.key.1 = g := congrArg Prod.fst hkey
        rcases change_authorized hs hc with hl | hd | ⟨hnew, hpending⟩
        · exact absurd (hgrp ▸ hl) hexcl
        · exact absurd (hgrp ▸ hd) hdrawn
        · refine .inr ⟨?_, ?_⟩
          · rw [← hkey, Pg.Change.apply_changed hk.nodup hc, hnew]
          · have hold : w.data.snap.rows (g, p) = c.old := by
              rw [← hkey]
              exact hk.owes.old_change hc
            rw [hold]
            exact hpending
      · exact .inl (Pg.Change.apply_same (fun c hc hkey => hmem ⟨c, hc, hkey⟩))
  · exact ⟨groups_quiet hquiet g, fun p => .inl (memberships_quiet hquiet (g, p))⟩

/-- A group id that nobody can create stays so. -/
theorem old_step (en : programs.enabled w (t, a)) (h : w.data.snap.old g) :
    ((stmt t a).change w.data).snap.old g := by
  obtain ⟨hmem, hnone⟩ := h
  have hcommitted : ∀ {T : Table Uuid Sess GroupRow}, (T = w.data.groups.commit t ∨
      T = w.data.groups.rollback t) → T.committed g = none → T.pending g = none := by
    intro _ hT hT'
    by_contra hp
    obtain ⟨⟨u, v⟩, huv⟩ := Option.ne_none_iff_exists'.1 hp
    rcases hT with rfl | rfl
    · obtain ⟨hp', hu⟩ := (pending_commit t _ g u v).1 huv
      rw [committed_commit, view_of_pending_other hp' hu] at hT'
      rw [hnone hT'] at hp'
      cases hp'
    · obtain ⟨hp', -⟩ := (pending_rollback t _ g u v).1 huv
      rw [committed_rollback] at hT'
      rw [hnone hT'] at hp'
      cases hp'
  cases a with
  | insertGroup _ _ id =>
    refine ⟨mem_cons_of_mem _ hmem, ?_⟩
    intro hT
    have hid : g ≠ id := by
      rintro rfl
      exact en.2.1 hmem
    simp only [stmt]
    rw [pending_write_of_ne _ _ _ hid]
    exact hnone ((committed_write _ _ _ _ _).symm.trans hT)
  | deleteGroup hst =>
    refine ⟨hmem, ?_⟩
    intro hT
    have hT : w.data.groups.committed g = none := (committed_deleteWhere _ _ _ _ _).symm.trans hT
    simp only [stmt]
    unfold Table.deleteWhere
    split
    · rename_i hany
      have hne : g ≠ hst.key.1 := by
        rintro rfl
        rw [view_of_pending_none (hnone hT), hT] at hany
        cases hany
      rw [pending_write_of_ne _ _ _ hne]
      exact hnone hT
    · exact hnone hT
  | sweepAbort =>
    refine ⟨hmem, ?_⟩
    intro hT
    have hT : w.data.groups.committed g = none := (committed_restore _ _ _ _).symm.trans hT
    by_contra hp
    obtain ⟨⟨u, v⟩, huv⟩ := Option.ne_none_iff_exists'.1 hp
    obtain ⟨hp', -⟩ := (pending_restore t _ _ g u v).1 huv
    rw [hnone hT] at hp'
    cases hp'
  | commit => exact ⟨hmem, hcommitted (.inl rfl)⟩
  | refuse | fail => exact ⟨hmem, hcommitted (.inr rfl)⟩
  | _ => exact ⟨hmem, hnone⟩

/-- A group that does not exist and that nobody can create stays away. -/
theorem old_dead (h : w.data.snap.old g)
    (hg : ((stmt t a).change w.data).snap.groups g ≠ none) : w.data.snap.groups g ≠ none := by
  intro hnone
  rcases exists_or_ne Act.commit a with ⟨_, _, rfl⟩ | hquiet
  · refine hg ?_
    show (w.data.groups.commit t).committed g = none
    rw [committed_commit, view_of_pending_none (h.2 hnone)]
    exact hnone
  · exact hg ((groups_quiet hquiet g).trans hnone)

end Others

end Swarog.Groups
