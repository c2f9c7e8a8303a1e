import Swarog.Groups.Service

/-!
# What the sessions of the groups service hold

A session holds exactly the changes of memberships that its program point lists, the
groups that it has created or deleted, and the locks of the groups whose rows it has
changed.  Every change is one of five kinds (`Lawful`), each with its events.
-/

namespace Swarog.Groups

open Pg Table Programs List

section Kinds

/-- The changes of a membership, with the events of each. -/
inductive Lawful : Change → Prop
  | created (id p : Uuid) (name : String) (policy : JoinPolicy) (now : Int) :
      Lawful ⟨(id, p), none, some ⟨.member, .admin, now⟩,
        [.created id name p policy, .memberJoined id p .admin]⟩
  | joined (k : Uuid × Uuid) (old : Option MemberRow) (row : MemberRow)
      (hold : ∀ r ∈ old, ¬ r.IsMember)
      (hrow : row.IsMember) :
      Lawful ⟨k, old, some row, [.memberJoined k.1 k.2 row.role]⟩
  | pending (k : Uuid × Uuid) (row : MemberRow)
      (hrow : ¬ row.IsMember) :
      Lawful ⟨k, none, some row, []⟩
  | promoted (k : Uuid × Uuid) (row row' : MemberRow)
      (hrow : row.IsMember)
      (hrow' : row'.IsMember) :
      Lawful ⟨k, some row, some row', [.roleChanged k.1 k.2 row'.role]⟩
  | removed (k : Uuid × Uuid) (row : MemberRow) (actor : Option Uuid) (reason : Reason) :
      Lawful ⟨k, some row, none, [.memberLeft k.1 k.2 actor reason]⟩

/-- The change is the deletion of a row. -/
def Removes (c : Change) : Prop :=
  ∃ row actor reason, c.old = some row ∧ c.new = none ∧
    c.events = [.memberLeft c.key.1 c.key.2 actor reason]

theorem Removes.lawful {c : Change} (h : Removes c) : Lawful c := by
  obtain ⟨k, _, _, events⟩ := c
  obtain ⟨row, actor, reason, rfl, rfl, hevents⟩ := h
  have hevents : events = [.memberLeft k.1 k.2 actor reason] := hevents
  subst hevents
  exact .removed k row actor reason

theorem removes_removal (h : Host) (row : MemberRow) : Removes (h.removal row) := by
  cases h <;> exact ⟨row, _, _, rfl, rfl, rfl⟩

theorem removes_dissolves {d : Data} {t : Sess} {g : Uuid} {k : Uuid × Uuid} {c : Change}
    (hc : c ∈ d.dissolves t g k) :
    Removes c ∧ c.key = k ∧ k.1 = g ∧
      ∃ row, d.memberships.view t k = some row ∧ c.old = some row := by
  unfold Data.dissolves at hc
  split at hc
  · rename_i row hview
    split at hc
    · rename_i hg
      cases mem_singleton.1 hc
      exact ⟨⟨row, _, _, rfl, rfl, rfl⟩, rfl, hg, row, hview, rfl⟩
    · cases hc
  · cases hc

/-- What the write of a call can be. -/
theorem lawful_change {c : Call} {row : MemberRow} {ch : Change} (h : c.change row = some ch) :
    Lawful ch ∧ ch.key = c.key ∧ ch.old = some row := by
  have hjoins : ∀ {state : MemberState}, row.state = state → state ≠ .member →
      ∀ r ∈ some row, r.state ≠ .member := by
    rintro _ rfl hs _ hr
    cases hr
    exact hs
  unfold Call.change at h
  split at h
  · split at h
    · rename_i hs
      cases h
      exact ⟨.joined _ _ _ (hjoins hs MemberState.noConfusion) rfl, rfl, rfl⟩
    · cases h
  · cases h
    exact ⟨.removed _ _ _ _, rfl, rfl⟩
  · split at h
    · rename_i hs
      cases h
      exact ⟨.joined _ _ _ (hjoins hs MemberState.noConfusion) rfl, rfl, rfl⟩
    · cases h
  · cases h
    exact ⟨.removed _ _ _ _, rfl, rfl⟩
  · split at h
    · rename_i hs
      cases h
      exact ⟨.promoted _ _ _ hs rfl, rfl, rfl⟩
    · cases h
  · cases h

theorem lawful_admission (c : Call) (state : MemberState) (role : Role) (now : Int) :
    Lawful (c.admission state role now) := by
  unfold Call.admission
  split
  · rename_i hs
    refine .joined _ none ⟨state, role, now⟩ ?_ hs
    intro _ hr
    cases hr
  · rename_i hs
    exact .pending _ _ hs

end Kinds

section Held

/-- The version that the deletion of a group leaves. -/
def dissolvedWrite (g : Uuid) : Write Uuid GroupRow := ⟨g, fun old => old ≠ none, none⟩

namespace Host

def locks : Host → List Int
  | .leave x _ => [x.call.lockKey]
  | .sweep sw g _ _ => sw.locked ++ [groupLockKey g.text]

def tombs : Host → Tombstone.Hold
  | .leave _ _ => .nothing
  | .sweep sw _ _ _ => .sweep sw.claimed sw.skipped sw.stamped

end Host

namespace Pc

/-- The groups that the transaction has deleted. -/
def dissolved : Pc → List Uuid
  | .exit h st _ => h.dissolved ++ st.gone h.key.1
  | .sweep sw _ => sw.dissolved
  | _ => []

/-- The group that the transaction has created. -/
def drawn : Pc → Option Uuid
  | .create _ _ (.grouped id) | .create _ _ (.written id) => some id
  | _ => none

def groupsHeld : Pc → Holding Uuid GroupRow
  | .create c _ (.grouped id) | .create c _ (.written id) => .writing [Write.insert id c.row]
  | pc => .writing (pc.dissolved.map dissolvedWrite)

/-- The locks that a program point needs. -/
def locksHeld : Pc → List Int
  | .op _ .opened => []
  | .op x _ => [x.call.lockKey]
  | .exit h _ _ => h.locks
  | .sweep sw _ => sw.locked
  | _ => []

/-- What the transaction has done to the tombstones. -/
def tombs : Pc → Tombstone.Hold
  | .planted (some (p, row)) => .planted p row
  | .sweep sw .selecting => .sweep [] sw.skipped sw.stamped
  | .sweep sw _ => .sweep sw.claimed sw.skipped sw.stamped
  | .exit h _ _ => h.tombs
  | _ => .nothing

end Pc

/-- The rows that a sweep has deleted, and the locks it holds for them. -/
def Sweep.Sound (sw : Sweep) : Prop :=
  (∀ c ∈ sw.removed, Removes c ∧ groupLockKey c.key.1.text ∈ sw.locked) ∧
    ∀ g ∈ sw.dissolved, ∃ c ∈ sw.removed, c.key.1 = g

def Host.Sound : Host → Prop
  | .leave _ _ => True
  | .sweep sw _ _ _ => sw.Sound

/-- The group is being emptied, or was. -/
def Exit.Empties : Exit → Prop
  | .emptying | .dissolving _ | .done true => True
  | _ => False

/-- What the statements have checked of the changes. -/
def Pc.Sound : Pc → Prop
  | .op _ (.placed state role) | .op _ (.roomy state role) => state = .member ↔ role ≠ .empty
  | .op x (.written c) => c.key = x.call.key ∧ Lawful c ∧ ∀ row ∈ c.new, row.RoleOk
  | .exit h st cs => h.Sound ∧ (∀ c ∈ cs, Removes c ∧ c.key.1 = h.key.1) ∧ (st.Empties → cs ≠ [])
  | .prune pr _ => ∀ c ∈ pr.removed, Removes c ∧ ∀ row ∈ c.old, ¬ row.IsMember
  | .sweep sw _ => sw.Sound
  | _ => True

end Held

variable {G : World Data Pc → Sess × Act → Prop}
variable {w : World Data Pc} {t : Sess} {a : Act} {d : Data}

section Steps

theorem mem_stale {pr : Prune} {k : Uuid × Uuid} (h : k ∈ d.stale t pr) :
    d.memberships.Free t k ∧ ∃ row, d.memberships.view t k = some row ∧ ¬ row.IsMember := by
  have hmem := (mem_insertionSort _).1 (mem_of_mem_take h)
  obtain ⟨hsel, hfree⟩ := mem_filter.1 hmem
  obtain ⟨row, hrow, hcond⟩ := mem_select.1 hsel
  refine ⟨of_decide_eq_true hfree, row, hrow, ?_⟩
  intro hm
  simp only [Bool.and_eq_true, Bool.or_eq_true, beq_iff_eq, show row.state = .member from hm,
    reduceCtorEq, or_self, false_and] at hcond

theorem nodup_stale (d : Data) (t : Sess) (pr : Prune) : (d.stale t pr).Nodup := by
  refine (take_sublist _ _).nodup ?_
  exact (perm_insertionSort _ _).nodup_iff.2 ((d.memberships.nodup.filter _).filter _)

theorem mem_expired {pr : Prune} {c : Change} (h : c ∈ d.expired t pr) :
    c.key ∈ d.stale t pr ∧ ∃ row, d.memberships.view t c.key = some row ∧ c = expiry c.key row := by
  obtain ⟨_, hk, hc⟩ := mem_filterMap.1 h
  obtain ⟨row, hrow, rfl⟩ := Option.map_eq_some_iff.1 hc
  exact ⟨hk, row, hrow, rfl⟩

theorem expired_of_stale {pr : Prune} {k : Uuid × Uuid} (h : k ∈ d.stale t pr) :
    ∃ c ∈ d.expired t pr, c.key = k := by
  obtain ⟨-, row, hrow, -⟩ := mem_stale h
  exact ⟨expiry k row, mem_filterMap.2 ⟨k, h, by rw [hrow]; rfl⟩, rfl⟩

theorem nodup_expired (d : Data) (t : Sess) (pr : Prune) :
    ((d.expired t pr).map Pg.Change.key).Nodup := by
  unfold Data.expired
  rw [map_filterMap]
  refine List.Nodup.filterMap ?_ (nodup_stale d t pr)
  have hfst : ∀ k b, b ∈ ((d.memberships.view t k).map (expiry k)).map Pg.Change.key → b = k := by
    intro _ _ hb
    simp only [Option.map_map, Option.mem_def, Option.map_eq_some_iff] at hb
    obtain ⟨_, -, rfl⟩ := hb
    rfl
  intro k k' b hb hb'
  exact (hfst k b hb).symm.trans (hfst k' b hb')

/-- The only steps that change committed memberships are `COMMIT`s. -/
theorem memberships_quiet (hquiet : ∀ pc answers, a ≠ .commit pc answers) (k : Uuid × Uuid) :
    ((stmt t a).change d).memberships.committed k = d.memberships.committed k := by
  cases a with
  | insertCreator | insertMember | writeRow | deleteRow => exact committed_write _ _ _ _ _
  | dissolveRow => exact committed_deleteWhere _ _ _ _ _
  | pruneBatch => exact committed_eraseAll _ _ _ _
  | sweepAbort => exact committed_restore _ _ _ _
  | commit pc answers => exact absurd rfl (hquiet pc answers)
  | refuse | fail => exact committed_rollback _ _ _
  | _ => rfl

theorem events_quiet (hquiet : ∀ pc answers, a ≠ .commit pc answers) :
    ((stmt t a).change d).events = d.events := by
  cases a with
  | commit pc answers => exact absurd rfl (hquiet pc answers)
  | _ => rfl

theorem groups_step (hg : (stmt t a).guard d) :
    Table.Step d.groups (some t) ((stmt t a).change d).groups := by
  cases a with
  | insertGroup => exact .write t _ _ hg.2.1
  | deleteGroup => exact .deleteWhere (fun _ _ => true) hg
  | sweepAbort => exact .restore t _
  | _ => first | exact .same _ | exact .commit _ | exact .rollback _

theorem groups_quiet (hquiet : ∀ pc answers, a ≠ .commit pc answers) (g : Uuid) :
    ((stmt t a).change d).groups.committed g = d.groups.committed g := by
  cases a with
  | insertGroup => exact committed_write _ _ _ _ _
  | deleteGroup => exact committed_deleteWhere _ _ _ _ _
  | sweepAbort => exact committed_restore _ _ _ _
  | commit pc answers => exact absurd rfl (hquiet pc answers)
  | refuse | fail => exact committed_rollback _ _ _
  | _ => rfl

end Steps

section Own

theorem locks_pass (hg : (stmt t a).guard d) :
    Locks.Passes t d.locks (stmt t a).before.locksHeld ((stmt t a).change d).locks
      ((stmt t a).after d).locksHeld := by
  cases a with
  | lockGroup => exact .take hg
  | findRow x =>
    have hkeys : (Pc.op x x.call.op.findStage).locksHeld = [x.call.lockKey] := by
      cases hop : x.call.op <;> rfl
    exact ⟨Locks.apart_refl, fun h key hkey => h key (hkeys ▸ hkey)⟩
  | sweepLock =>
    refine ⟨Locks.apart_take hg.2, fun h key hkey => ?_⟩
    rcases mem_append.1 hkey with hkey | hkey
    · exact Locks.take_of_held (h key hkey)
    · cases mem_singleton.1 hkey
      exact Locks.take_self
  | sweepAbort =>
    exact ⟨Locks.apart_keep, fun h key hkey =>
      Locks.keep_of_mem (h key (mem_append_left _ hkey)) hkey⟩
  | _ => first | exact .same | exact .done | exact .release

/-- A sweep has one more group behind it. -/
theorem Sweep.Sound.release {sw : Sweep} {g : Uuid} {gone : Bool} {cs : List Change} (h : sw.Sound)
    (hcs : ∀ c ∈ cs, Removes c ∧ c.key.1 = g) (hne : (Exit.done gone).Empties → cs ≠ []) :
    (sw.release g gone cs).Sound := by
  constructor
  · intro c hc
    rcases mem_append.1 hc with hc | hc
    · exact ⟨(h.1 c hc).1, mem_append_left _ (h.1 c hc).2⟩
    · obtain ⟨hrem, rfl⟩ := hcs c hc
      exact ⟨hrem, mem_append_right _ (mem_singleton.2 rfl)⟩
  · intro g' hg'
    rcases mem_append.1 hg' with hg' | hg'
    · obtain ⟨c, hc, hkey⟩ := h.2 g' hg'
      exact ⟨c, mem_append_left _ hc, hkey⟩
    · cases gone with
      | false => cases hg'
      | true =>
        cases mem_singleton.1 hg'
        obtain ⟨c, hc⟩ := exists_mem_of_ne_nil cs (hne trivial)
        exact ⟨c, mem_append_right _ hc, (hcs c hc).2⟩

theorem roleOk_change {c : Call} {row : MemberRow} {ch : Change} (h : c.change row = some ch) :
    ∀ r ∈ ch.new, r.RoleOk := by
  have hpromote : ∀ role, role ≠ Role.empty → (row.promote role).RoleOk :=
    fun role hr => ⟨fun _ => hr, fun _ => rfl⟩
  intro _ hr
  unfold Call.change at h
  split at h
  · split at h
    · cases h
      cases hr
      exact hpromote _ (by decide)
    · cases h
  · cases h
    cases hr
  · split at h
    · cases h
      cases hr
      exact hpromote _ (by decide)
    · cases h
  · cases h
    cases hr
  · split at h
    · cases h
      cases hr
      exact hpromote _ (by decide)
    · cases h
  · cases h

theorem sound_own (hg : (stmt t a).guard d) (h : (stmt t a).before.Sound) :
    ((stmt t a).after d).Sound := by
  cases a with
  | readPolicy x policy state role =>
    show state = .member ↔ role ≠ .empty
    cases policy <;> cases hg.2 <;> decide
  | authorizeInvite =>
    show MemberState.invited = .member ↔ Role.empty ≠ .empty
    decide
  | countRows => exact h
  | insertMember =>
    refine ⟨rfl, lawful_admission _ _ _ _, ?_⟩
    intro row hrow
    cases hrow
    exact h
  | writeRow =>
    obtain ⟨hlaw, hkey, -⟩ := lawful_change hg.2.2
    exact ⟨hkey, hlaw, roleOk_change hg.2.2⟩
  | leaveRow =>
    refine ⟨trivial, ?_, fun hst => hst.elim⟩
    intro c hc
    cases hc
  | weigh hst | deleteMiss hst => exact ⟨h.1, h.2.1, fun hst => hst.elim⟩
  | deleteRow hst counts row =>
    refine ⟨h.1, ?_, fun _ => cons_ne_nil _ _⟩
    exact forall_mem_singleton.2 ⟨removes_removal hst row, rfl⟩
  | scanRows | deleteGroup => exact ⟨h.1, h.2.1, fun _ => h.2.2 trivial⟩
  | dissolveRow =>
    refine ⟨h.1, ?_, fun _ hnil => h.2.2 trivial (append_eq_nil_iff.1 hnil).1⟩
    intro c hc
    rcases mem_append.1 hc with hc | hc
    · exact h.2.1 c hc
    · obtain ⟨hrem, rfl, hgrp, -⟩ := removes_dissolves hc
      exact ⟨hrem, hgrp⟩
  | pruneOpen =>
    intro c hc
    cases hc
  | pruneBatch =>
    intro c hc
    rcases mem_append.1 hc with hc | hc
    · exact h c hc
    · obtain ⟨hk, row, hrow, hce⟩ := mem_expired hc
      obtain ⟨-, row', hrow', hm⟩ := mem_stale hk
      rw [hrow] at hrow'
      cases hrow'
      rw [hce]
      refine ⟨⟨row, _, _, rfl, rfl, rfl⟩, ?_⟩
      intro r hr
      cases hr
      exact hm
  | sweepOpen =>
    constructor
    · intro c hc
      cases hc
    · intro g hg
      cases hg
  | sweepLock =>
    refine ⟨h, ?_, fun hst => hst.elim⟩
    intro c hc
    cases hc
  | sweepRelease => exact Sweep.Sound.release h.1 h.2.1 h.2.2
  | sweepAbort => exact h.1
  | _ => first | exact h | exact trivial

theorem sound_reachable (h : system.Reachable G w) : ∀ t, (w.pc t).Sound :=
  pc_invariant (X := programs) Pc.Sound trivial (fun _ _ _ _ _ en => sound_own en.2) h

theorem locks_held (h : system.Reachable G w) : ∀ t, w.data.locks.HeldBy t (w.pc t).locksHeld :=
  holds_locks (X := programs) Data.locks Pc.locksHeld rfl
    (fun _ _ _ => locks_pass) h

end Own

section Memberships

theorem Removes.new_eq {c : Change} (h : Removes c) : c.new = none := by
  obtain ⟨_, _, _, -, hnew, -⟩ := h
  exact hnew

theorem Host.Sound.kept_removes {h : Host} (hs : h.Sound) : ∀ c ∈ h.kept, Removes c := by
  intro c hc
  cases h with
  | leave => cases hc
  | sweep => exact (hs.1 c hc).1

theorem exit_removes {h : Host} {st : Exit} {cs : List Change} (hs : (Pc.exit h st cs).Sound) :
    ∀ c ∈ h.kept ++ cs, Removes c := by
  intro c hc
  rcases mem_append.1 hc with hc | hc
  · exact hs.1.kept_removes c hc
  · exact (hs.2.1 c hc).1

/-- A batch of the retention sweep. -/
theorem made_prune {pr : Prune} (hs : (Pc.prune pr .selecting).Sound)
    (h : d.memberships.Made t pr.removed) :
    (d.memberships.eraseAll t (d.stale t pr)).Made t (pr.removed ++ d.expired t pr) := by
  have hnew : ∀ c ∈ pr.removed, c.key ∉ d.stale t pr := by
    intro c hc hmem
    obtain ⟨-, row, hview, -⟩ := mem_stale hmem
    exact h.owes.unchanged_of_view (fun c hc => (hs c hc).1.new_eq) hview c hc rfl
  have hview : ∀ c ∈ d.expired t pr, d.memberships.view t c.key = c.old ∧ c.new = none := by
    intro c hc
    obtain ⟨-, row, hrow, hce⟩ := mem_expired hc
    rw [hrow, hce]
    exact ⟨rfl, rfl⟩
  constructor
  · rw [Pg.Change.held, map_append]
    refine h.owes.writeAll _ ((d.expired t pr).map Pg.Change.write) ?_ ?_ ?_ ?_
    · intro k
      constructor
      · intro hk
        obtain ⟨c, hc, rfl⟩ := expired_of_stale hk
        exact ⟨c.write, mem_map_of_mem hc, rfl⟩
      · rintro ⟨w, hw, rfl⟩
        obtain ⟨c, hc, rfl⟩ := mem_map.1 hw
        exact (mem_expired hc).1
    · intro w hw
      obtain ⟨c, hc, rfl⟩ := mem_map.1 hw
      exact (hview c hc).2
    · intro w hw hmem
      obtain ⟨c, hc, rfl⟩ := Pg.Change.mem_held.1 hw
      exact absurd hmem (hnew c hc)
    · intro w hw
      obtain ⟨c, hc, rfl⟩ := mem_map.1 hw
      have hsame := h.owes.view_same (k := c.key)
        (fun c' hc' hk => hnew c' hc' (hk ▸ (mem_expired hc).1))
      exact hsame.symm.trans (hview c hc).1
  · rw [map_append]
    refine nodup_append.2 ⟨h.nodup, nodup_expired d t pr, ?_⟩
    intro k hk k' hk' he
    obtain ⟨c, hc, rfl⟩ := mem_map.1 hk
    obtain ⟨c', hc', rfl⟩ := mem_map.1 hk'
    exact hnew c hc (he ▸ (mem_expired hc').1)

theorem dissolves_nil {g : Uuid} {k : Uuid × Uuid}
    (h : ¬ ∃ row, d.memberships.view t k = some row ∧ k.1 = g) : d.dissolves t g k = [] := by
  unfold Data.dissolves
  split
  · rename_i row hview
    exact if_neg (fun hk => h ⟨row, hview, hk⟩)
  · rfl

theorem deleteWhere_idle {g : Uuid} {k : Uuid × Uuid}
    (h : ¬ ∃ row, d.memberships.view t k = some row ∧ k.1 = g) :
    ¬ (d.memberships.view t k).any (fun _ => k.1 == g) = true := by
  intro hany
  obtain ⟨row, hview, hk⟩ := (Option.any_eq_true _ _).1 hany
  exact h ⟨row, hview, by simpa using hk⟩

theorem memberships_edits (hg : (stmt t a).guard d) (hs : (stmt t a).before.Sound) :
    d.memberships.Edits t (stmt t a).before.changes ((stmt t a).change d).memberships
      ((stmt t a).after d).changes := by
  cases a with
  | insertCreator c now id => exact .first (c.admission id now) rfl hg.1 hg.2
  | insertMember x state role => exact .first (x.call.admission state role x.now) rfl hg.1 hg.2
  | writeRow _ _ _ ch =>
    obtain ⟨-, hkey, hold⟩ := lawful_change hg.2.2
    simp only [stmt, ← hkey]
    refine .first ch rfl ?_ ?_
    · rw [hkey]
      exact hg.1
    · rw [hkey, hold]
      exact hg.2.1
  | deleteRow hst _ row =>
    have hdel : ∀ c ∈ hst.kept, c.new = none := fun c hc => (hs.1.kept_removes c hc).new_eq
    show d.memberships.Edits t (hst.kept ++ []) _ _
    rw [append_nil]
    exact .seen (hst.removal row) hdel hg.1 hg.2 rfl
  | dissolveRow hst _ cs k =>
    show d.memberships.Edits t (hst.kept ++ cs)
      (d.memberships.deleteWhere t (fun k _ => k.1 == hst.key.1) k)
      (hst.kept ++ (cs ++ d.dissolves t hst.key.1 k))
    by_cases hdel : ∃ row, d.memberships.view t k = some row ∧ k.1 = hst.key.1
    · obtain ⟨row, hview, hk⟩ := hdel
      have hdel : ∀ c ∈ hst.kept ++ cs, c.new = none := fun c hc => (exit_removes hs c hc).new_eq
      simp only [Table.deleteWhere, Data.dissolves, hview, hk, Option.any_some, beq_self_eq_true,
        if_true, ← append_assoc]
      exact .seen (dissolution k row) hdel hg.2 hview rfl
    · rw [dissolves_nil hdel, append_nil, Table.deleteWhere, if_neg (deleteWhere_idle hdel)]
      exact .same
  | pruneBatch => exact ⟨.writeAll t _ _ (fun _ hk => (mem_stale hk).1), made_prune hs⟩
  | findRow x =>
    have hnil : (Pc.op x x.call.op.findStage).changes = [] := by cases x.call.op <;> rfl
    simp only [stmt]
    rw [hnil]
    exact .same
  | sweepLock sw =>
    show d.memberships.Edits t sw.removed _ (sw.removed ++ [])
    rw [append_nil]
    exact .same
  | sweepAbort sw _ _ _ _ _ _ cs =>
    refine ⟨.restore t _, fun h => ⟨h.owes.restore_changes h.nodup, ?_⟩⟩
    have hn : ((sw.removed ++ cs).map Pg.Change.key).Nodup := h.nodup
    rw [map_append] at hn
    exact (nodup_append.1 hn).1
  | commit => exact .commit
  | refuse | fail => exact .rollback
  | _ => exact .same

/-- The uncommitted memberships of a session: exactly its changes, each of another row. -/
theorem keeps_reachable (h : system.Reachable G w) :
    ∀ t, w.data.memberships.Made t (w.pc t).changes :=
  made_reachable (X := programs) Data.memberships Pc.changes rfl rfl
    (fun _ t _ hr en => memberships_edits en.2 (en.1 ▸ sound_reachable hr t)) h

end Memberships

section Groups

/-- The uncommitted groups of a session. -/
structure Owns (d : Data) (t : Sess) (pc : Pc) : Prop where
  owes : d.groups.Owes t pc.groupsHeld
  nodup : pc.dissolved.Nodup

theorem Owns.same {pc pc' : Pc} {d' : Data} (h : Owns d t pc)
    (hheld : pc'.groupsHeld = pc.groupsHeld) (hpc : pc'.dissolved = pc.dissolved)
    (hd : d'.groups = d.groups) : Owns d' t pc' := by
  constructor
  · rw [hheld, hd]
    exact h.owes
  · rw [hpc]
    exact h.nodup

/-- A group that a session sees is not one that it has deleted. -/
theorem undissolved {gs : List Uuid} {g : Uuid} {row : GroupRow}
    (h : d.groups.Owes t (.writing (gs.map dissolvedWrite)))
    (hview : d.groups.view t g = some row) : g ∉ gs := by
  intro hmem
  have hheld : d.groups.pending g = some (t, none) :=
    h.held (dissolvedWrite g) (mem_map_of_mem hmem)
  rw [view_of_pending_self hheld] at hview
  cases hview

theorem owns_own (hg : (stmt t a).guard d) (h : Owns d t (stmt t a).before) :
    Owns ((stmt t a).change d) t ((stmt t a).after d) := by
  cases a with
  | insertGroup =>
    refine ⟨?_, nodup_nil⟩
    refine h.owes.insert ?_ hg.2.2
    intro w hw
    cases hw
  | findRow x =>
    refine h.same ?_ ?_ rfl
    · cases x.call.op <;> rfl
    · cases x.call.op <;> rfl
  | deleteRow hst counts row =>
    have hgone : (if hst.Dissolves row counts then Exit.emptying else .done false).gone hst.key.1 =
        [] := by
      split <;> rfl
    refine h.same ?_ ?_ rfl
    · show Holding.writing ((hst.dissolved ++ _).map dissolvedWrite) = _
      rw [hgone]
      rfl
    · show hst.dissolved ++ _ = _
      rw [hgone]
      rfl
  | deleteGroup hst =>
    have ho : d.groups.Owes t (.writing ((hst.dissolved ++ []).map dissolvedWrite)) := h.owes
    have hn : (hst.dissolved ++ []).Nodup := h.nodup
    rw [append_nil] at ho hn
    cases hview : d.groups.view t hst.key.1 with
    | none =>
      refine h.same ?_ ?_ ?_
      · simp only [stmt]
        rw [hview]
        rfl
      · simp only [stmt]
        rw [hview]
        rfl
      · simp only [stmt]
        rw [Table.deleteWhere, hview]
        rfl
    | some =>
      have hnot := undissolved ho hview
      have hne : ∀ w ∈ hst.dissolved.map dissolvedWrite, w.key ≠ hst.key.1 := by
        intro w hw hkey
        obtain ⟨g, hgm, rfl⟩ := mem_map.1 hw
        exact hnot (hkey ▸ hgm)
      have hwrite := ho.write (dissolvedWrite hst.key.1) hne (by
        show d.groups.committed hst.key.1 ≠ none
        rw [ho.committed_of_view hne hview]
        exact Option.some_ne_none _)
      constructor
      · show (d.groups.deleteWhere t (fun _ _ => true) hst.key.1).Owes t
          (.writing ((hst.dissolved ++ (Exit.done (d.groups.view t hst.key.1).isSome).gone
            hst.key.1).map dissolvedWrite))
        rw [Table.deleteWhere, hview, map_append]
        exact hwrite
      · simp only [stmt]
        rw [hview]
        refine nodup_append.2 ⟨hn, nodup_singleton _, ?_⟩
        intro g hgm g' hgm' he
        cases mem_singleton.1 hgm'
        exact hnot (he ▸ hgm)
  | sweepLock =>
    refine h.same ?_ (append_nil _) rfl
    exact congrArg (fun l => Holding.writing (l.map dissolvedWrite)) (append_nil _)
  | sweepAbort sw g p todo tomb rest st =>
    have ho : d.groups.Owes t (.writing ((sw.dissolved ++ st.gone g).map dissolvedWrite)) := h.owes
    rw [map_append] at ho
    refine ⟨?_, (nodup_append.1 h.nodup).1⟩
    have hres := ho.restore ?_
    · rw [map_map] at hres
      rwa [show (Write.key ∘ dissolvedWrite) = id from rfl, map_id] at hres
    · intro w hw hmem
      obtain ⟨g₁, hg₁, rfl⟩ := mem_map.1 hw
      rw [map_map] at hmem
      obtain ⟨g₂, hg₂, hkey⟩ := mem_map.1 hmem
      exact (nodup_append.1 h.nodup).2.2 g₁ hg₁ g₂ hg₂ hkey.symm
  | commit => exact ⟨owes_commit _ _, nodup_nil⟩
  | refuse | fail => exact ⟨owes_rollback _ _, nodup_nil⟩
  | _ => exact h.same rfl rfl rfl

theorem owns_reachable (h : system.Reachable G w) : ∀ t, Owns w.data t (w.pc t) := by
  refine local_invariant (X := programs) (L := Owns)
    (fun t => ⟨owes_empty t, nodup_nil⟩) (fun _ _ _ _ _ en => owns_own en.2) ?_ h
  intro w t a u _ _ en hu ho
  refine ⟨ho.owes.of_undisturbed ((groups_step en.2).undisturbed ?_), ho.nodup⟩
  simpa using Ne.symm hu

end Groups

section Tombstones

theorem tombs_step (hg : (stmt t a).guard d) :
    Tombstone.Step t d.purged (stmt t a).before.tombs ((stmt t a).change d).purged
      ((stmt t a).after d).tombs := by
  have hclaimed : ∀ (sw : Sweep) (l : List (Uuid × Tombstone)), sw.claimed = l →
      Tombstone.Hold.sweep sw.claimed sw.skipped sw.stamped =
        .sweep l sw.skipped sw.stamped := by
    intro sw l hl
    rw [hl]
  cases a with
  | plant q handle => exact .plant q handle hg.1 hg.2
  | sweepOpen => exact .opening
  | sweepSelect => exact .claim _ _ _ _
  | findRow x =>
    have hbefore : (Pc.op x x.call.op.findStage).tombs = .nothing := by cases x.call.op <;> rfl
    simp only [stmt]
    rw [hbefore]
    exact .same _
  | sweepList sw p tomb rest =>
    have hafter : ((stmt t (.sweepList sw p tomb rest)).after d).tombs =
        .sweep sw.claimed sw.skipped sw.stamped := by
      simp only [stmt]
      split <;> rfl
    rw [hafter]
    exact .same _
  | sweepRelease sw g p todo gone cs spent =>
    have hafter : ((stmt t (.sweepRelease sw g p todo gone cs spent)).after d).tombs =
        .sweep sw.claimed sw.skipped sw.stamped := by
      simp only [stmt]
      split
      · rfl
      · split <;> rfl
    rw [hafter]
    exact .same _
  | sweepSkip sw p tomb rest _ spent | sweepAbort sw _ p _ tomb rest _ _ spent =>
    have hskip : Tombstone.Step t d.purged (.sweep sw.claimed sw.skipped sw.stamped) d.purged
        (.sweep rest ((p, tomb) :: sw.skipped) sw.stamped) := by
      rw [hclaimed sw _ hg]
      exact .skip p tomb rest _ _
    cases spent <;> exact hskip
  | sweepStamp sw p tomb rest spent =>
    have hafter : ((stmt t (.sweepStamp sw p tomb rest spent)).after d).tombs =
        .sweep rest (sw.skipped.filter (fun c => c.1 ≠ p)) (sw.stamped ++ [(p, tomb)]) := by
      cases spent <;> rfl
    rw [hafter]
    show Tombstone.Step t d.purged (.sweep sw.claimed sw.skipped sw.stamped) _ _
    rw [hclaimed sw _ hg]
    exact .stamp p tomb rest _ _
  | sweepMore sw =>
    show Tombstone.Step t d.purged (.sweep sw.claimed sw.skipped sw.stamped) d.purged _
    rw [hclaimed sw _ hg.1]
    exact .same _
  | _ => first | exact .same _ | exact .commit _ | exact .rollback _

theorem tombs_kept : Tombstone.Kept programs Data.purged Pc.tombs :=
  ⟨rfl, rfl, fun _ _ _ => tombs_step⟩

/-- Tombstones are stamped by `COMMIT`s only. -/
theorem purged_quiet {p : Uuid} (hquiet : ∀ pc answers, a ≠ .commit pc answers) :
    ((stmt t a).change d).purged.committed p = d.purged.committed p := by
  cases a with
  | plant | sweepStamp => exact committed_write _ _ _ _ _
  | sweepSelect => exact committed_lockAll _ _ _ _
  | commit pc answers => exact absurd rfl (hquiet pc answers)
  | refuse | fail => exact committed_rollback _ _ _
  | _ => rfl

end Tombstones

end Swarog.Groups
