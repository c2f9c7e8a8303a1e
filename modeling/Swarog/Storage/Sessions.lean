import Swarog.Storage.Store

/-!
# What the sessions of the object store hold

A create holds the row that it has inserted, and a sweep the rows that it has deleted; a
`COMMIT` applies them.  Creates and sweeps hold the lock of the owner whose objects they add
or delete, so that there is one of them at a time (`owner_exclusive`).  `Changes` says what a
step can commit at an address.
-/

namespace Swarog.Storage

open Pg Table Function List Option

variable {G : World Data Pc → Sess × Act → Prop}
variable {w : World Data Pc} {t u : Sess} {a : Act} {d : Data} {k : Address} {p : Uuid}

section Held

/-- The deletion of an object. -/
def removal (k : Address) : Write Address ObjectRow := Write.delete k (fun _ => True)

namespace Pc

def objectsHeld : Pc → Holding Address ObjectRow
  | .create c (.inserted life) => .writing [Write.insert c.address (c.row life)]
  | .sweep sw _ => .writing (sw.removed.map removal)
  | _ => .nothing

def locksHeld : Pc → List Int
  | .create _ .opened => []
  | .create c _ => [ownerLockKey c.me.text]
  | .sweep sw _ => sw.locked.map (fun p => ownerLockKey p.text)
  | _ => []

/-- What the transaction has done to the tombstones. -/
def tombs : Pc → Tombstone.Hold
  | .planted (some (p, row)) => .planted p row
  | .sweep sw .selecting => .sweep [] [] sw.stamped
  | .sweep sw _ => .sweep sw.claimed [] sw.stamped
  | _ => .nothing

/-- A sweep holds the locks of the owners that it has stamped, and of the one it is at. -/
def Locked : Pc → Prop
  | .sweep sw st => (∀ c ∈ sw.stamped, c.1 ∈ sw.locked) ∧
      (st = .locked ∨ (∃ todo, st = .deleting todo) → ∀ c ∈ sw.claimed.head?, c.1 ∈ sw.locked)
  | _ => True

end Pc

theorem reach_frame (sw : Sweep) (d : Data) (t : Sess) (p : Uuid) (k : Address) :
    (sw.reach d t p k).claimed = sw.claimed ∧ (sw.reach d t p k).stamped = sw.stamped ∧
      (sw.reach d t p k).locked = sw.locked := by
  unfold Sweep.reach
  split <;> exact ⟨rfl, rfl, rfl⟩

end Held

section Statements

/-- What a statement of its own does to the rows. -/
theorem casObject_objects (c : Cas) (seen : Option ObjectRow) (d : Data) :
    (∃ row, d.objects.committed c.address = some row ∧ row.version = c.expectedVersion ∧
      seen.any c.matches = true ∧
      (d.casObject c seen).objects = d.objects.put c.address (some (c.update row)) ∧
      (d.casObject c seen).story = update d.story c.address
        (d.story c.address ++ [.put c.expectedVersion (c.update row).version])) ∨
      ((d.casObject c seen).objects = d.objects ∧ (d.casObject c seen).story = d.story) := by
  unfold Data.casObject
  cases hfound : d.found c.address c.matches seen with
  | none => exact .inr ⟨rfl, rfl⟩
  | some row =>
    obtain ⟨hrow, hcond⟩ := filter_eq_some_iff.1 hfound
    obtain ⟨hseen, hmatch⟩ := Bool.and_eq_true_iff.1 hcond
    obtain ⟨old, hold, hboth⟩ := (any_eq_true _ _).1 hseen
    refine .inl ⟨row, hrow, of_decide_eq_true hmatch, ?_, rfl, rfl⟩
    exact (any_eq_true _ _).2 ⟨old, hold, (Bool.and_eq_true_iff.1 hboth).1⟩

theorem deleteObject_objects (c : Delete) (seen : Option ObjectRow) (d : Data) :
    (∃ row, d.objects.committed c.address = some row ∧ seen.isSome = true ∧
      (d.deleteObject c seen).objects = d.objects.put c.address none ∧
      (d.deleteObject c seen).story =
        update d.story c.address (d.story c.address ++ [.deleted])) ∨
      ((d.deleteObject c seen).objects = d.objects ∧ (d.deleteObject c seen).story = d.story) := by
  unfold Data.deleteObject
  cases hfound : d.found c.address (fun _ => true) seen with
  | none => exact .inr ⟨rfl, rfl⟩
  | some row =>
    obtain ⟨hrow, hcond⟩ := filter_eq_some_iff.1 hfound
    obtain ⟨_, hold, -⟩ := (any_eq_true _ _).1 (Bool.and_eq_true_iff.1 hcond).1
    exact .inl ⟨row, hrow, by rw [hold]; rfl, rfl, rfl⟩

/-- Statements of their own touch neither the tombstones nor the locks. -/
theorem casObject_frame (c : Cas) (seen : Option ObjectRow) (d : Data) :
    (d.casObject c seen).purged = d.purged ∧ (d.casObject c seen).locks = d.locks := by
  unfold Data.casObject
  split <;> exact ⟨rfl, rfl⟩

theorem deleteObject_frame (c : Delete) (seen : Option ObjectRow) (d : Data) :
    (d.deleteObject c seen).purged = d.purged ∧ (d.deleteObject c seen).locks = d.locks := by
  unfold Data.deleteObject
  split <;> exact ⟨rfl, rfl⟩

theorem objects_step (hg : (stmt t a).guard d) :
    Table.Step d.objects (some t) ((stmt t a).change d).objects := by
  cases a with
  | insertObject => exact .write t _ _ hg.1
  | casWrite c seen =>
    rcases casObject_objects c seen d with ⟨_, -, -, hseen, heq, -⟩ | ⟨heq, -⟩
    · simp only [stmt]
      rw [heq]
      exact .put _ _ _ (hg hseen)
    · simp only [stmt]
      rw [heq]
      exact .same _
  | deleteWrite c seen =>
    rcases deleteObject_objects c seen d with ⟨_, -, hseen, heq, -⟩ | ⟨heq, -⟩
    · simp only [stmt]
      rw [heq]
      exact .put _ _ _ (hg hseen)
    · simp only [stmt]
      rw [heq]
      exact .same _
  | sweepRow _ p _ _ _ k =>
    exact Table.Step.deleteWhere (fun k _ => decide (k.owner = p)) hg.2.2
  | _ => first | exact .same _ | exact .commit _ | exact .rollback _

end Statements

section Own

/-- A row that a sweep sees is not one that it has deleted. -/
theorem unseen_removed {T : Table Address Sess ObjectRow} {ks : List Address} {row : ObjectRow}
    (h : T.Owes t (.writing (ks.map removal))) (hview : T.view t k = some row) :
    ∀ k' ∈ ks, k' ≠ k := by
  rintro k' hk' rfl
  have hheld := h.held (removal k') (mem_map_of_mem hk')
  rw [show T.view t k' = _ from view_of_pending_self hheld] at hview
  cases hview

theorem owes_reach {sw : Sweep} {st : SweepStage} (p : Uuid) (k : Address)
    (h : d.objects.Owes t (Pc.sweep sw st).objectsHeld) :
    (d.objects.deleteWhere t (fun k _ => decide (k.owner = p)) k).Owes t
      (.writing ((sw.reach d t p k).removed.map removal)) := by
  unfold Table.deleteWhere Sweep.reach
  split
  · rename_i hany
    obtain ⟨row, hview, -⟩ := (any_eq_true _ _).1 hany
    have hnew := unseen_removed h hview
    have hnew' : ∀ w ∈ (Pc.sweep sw st).objectsHeld.writes, w.key ≠ k := by
      intro w hw
      obtain ⟨k', hk', rfl⟩ := mem_map.1 hw
      exact hnew k' hk'
    have hold := h.committed_of_view hnew' hview
    rw [map_append]
    exact Owes.write h (removal k) hnew' ⟨row, hold, trivial⟩
  · exact h

section

variable (hg : (stmt t a).guard d)
include hg

theorem objects_own (h : d.objects.Owes t (stmt t a).before.objectsHeld) :
    ((stmt t a).change d).objects.Owes t ((stmt t a).after d).objectsHeld := by
  cases a with
  | insertObject c =>
    exact Owes.write h (Write.insert c.address (c.row d.lives)) (fun _ hw => nomatch hw) hg.2
  | casWrite c seen =>
    have h : d.objects.HoldsNone t := Owes.holdsNone h
    exact owes_nothing (by
      simp only [stmt]
      rcases casObject_objects c seen d with ⟨row, -, -, hseen, heq, -⟩ | ⟨heq, -⟩
      · rw [heq]
        exact HoldsNone.of_undisturbed h (undisturbed_put _ (hg hseen))
      · rw [heq]
        exact h)
  | deleteWrite c seen =>
    have h : d.objects.HoldsNone t := Owes.holdsNone h
    exact owes_nothing (by
      simp only [stmt]
      rcases deleteObject_objects c seen d with ⟨row, -, hseen, heq, -⟩ | ⟨heq, -⟩
      · rw [heq]
        exact HoldsNone.of_undisturbed h (undisturbed_put _ (hg hseen))
      · rw [heq]
        exact h)
  | sweepRow sw p tomb rest todo k => exact owes_reach p k h
  | commit => exact owes_commit _ _
  | refuse | fail => exact owes_rollback _ _
  | _ => exact h

theorem locks_pass :
    Locks.Passes t d.locks (stmt t a).before.locksHeld ((stmt t a).change d).locks
      ((stmt t a).after d).locksHeld := by
  cases a with
  | lockOwner => exact .take hg
  | sweepLock =>
    refine ⟨Locks.apart_take hg.2, fun h key hkey => ?_⟩
    rcases mem_cons.1 hkey with rfl | hold
    · exact Locks.take_self
    · exact Locks.take_of_held (h key hold)
  | casWrite c seen =>
    simp only [stmt, (casObject_frame c seen d).2]
    exact .same
  | deleteWrite c seen =>
    simp only [stmt, (deleteObject_frame c seen d).2]
    exact .same
  | sweepRow sw p tomb rest todo k =>
    simp only [stmt, Pc.locksHeld, (reach_frame sw d t p k).2.2]
    exact .same
  | _ => first | exact .same | exact .done | exact .release

theorem tombs_step :
    Tombstone.Step t d.purged (stmt t a).before.tombs ((stmt t a).change d).purged
      ((stmt t a).after d).tombs := by
  cases a with
  | plant q handle => exact .plant q handle hg.1 hg.2
  | casWrite c seen =>
    simp only [stmt, (casObject_frame c seen d).1]
    exact .same _
  | deleteWrite c seen =>
    simp only [stmt, (deleteObject_frame c seen d).1]
    exact .same _
  | sweepOpen => exact .opening
  | sweepSelect => exact .claim _ _ _ _
  | sweepRow sw q tomb rest todo k =>
    obtain ⟨hclaimed, hstamped, -⟩ := reach_frame sw d t q k
    simp only [stmt, Pc.tombs, hclaimed, hstamped]
    exact .same _
  | sweepStamp sw q tomb rest spent =>
    have hafter : ((stmt t (.sweepStamp sw q tomb rest spent)).after d).tombs =
        .sweep rest [] (sw.stamped ++ [(q, tomb)]) := by
      cases spent <;> rfl
    have hbefore : (stmt t (.sweepStamp sw q tomb rest spent)).before.tombs =
        .sweep ((q, tomb) :: rest) [] sw.stamped :=
      congrArg (Tombstone.Hold.sweep · [] sw.stamped) hg
    rw [hafter, hbefore]
    exact .stamp q tomb rest [] sw.stamped
  | _ => first | exact .same _ | exact .commit _ | exact .rollback _

theorem locked_own (h : (stmt t a).before.Locked) : ((stmt t a).after d).Locked := by
  cases a with
  | sweepOpen => exact ⟨fun _ hc => (nomatch hc), fun _ _ hc => (nomatch hc)⟩
  | sweepSelect => exact ⟨h.1, fun hst => by rcases hst with hst | ⟨_, hst⟩ <;> cases hst⟩
  | sweepLock =>
    refine ⟨fun c hc => mem_cons_of_mem _ (h.1 c hc), fun _ c hc => ?_⟩
    rw [hg.1] at hc
    cases hc
    exact mem_cons_self
  | sweepDelete => exact ⟨h.1, fun _ => h.2 (.inl rfl)⟩
  | sweepRow sw p _ _ todo k =>
    obtain ⟨hclaimed, hstamped, hlocked⟩ := reach_frame sw d t p k
    refine ⟨?_, fun _ => ?_⟩
    · rw [hstamped, hlocked]
      exact h.1
    · rw [hclaimed, hlocked]
      exact h.2 (.inr ⟨todo, rfl⟩)
  | sweepStamp sw p tomb _ spent =>
    refine ⟨fun c hc => ?_, fun hst => ?_⟩
    · rcases mem_append.1 hc with hold | hnew
      · exact h.1 c hold
      · cases mem_singleton.1 hnew
        refine h.2 (.inr ⟨[], rfl⟩) (p, tomb) ?_
        rw [show sw.claimed = _ from hg]
        rfl
    · cases spent <;> rcases hst with hst | ⟨_, hst⟩ <;> cases hst
  | sweepEnd => exact ⟨h.1, fun hst => by rcases hst with hst | ⟨_, hst⟩ <;> cases hst⟩
  | _ => trivial

end

end Own

section Reachable

theorem objects_held (h : system.Reachable G w) : ∀ t, w.data.objects.Owes t (w.pc t).objectsHeld :=
  Programs.owes_reachable (X := programs) Data.objects Pc.objectsHeld owes_empty
    (fun _ _ _ => objects_step) (fun _ _ _ _ en => objects_own en.2) h

theorem locks_held (h : system.Reachable G w) : ∀ t, w.data.locks.HeldBy t (w.pc t).locksHeld :=
  Programs.holds_locks (X := programs) Data.locks Pc.locksHeld rfl
    (fun _ _ _ => locks_pass) h

theorem tombs_kept : Tombstone.Kept programs Data.purged Pc.tombs :=
  ⟨rfl, rfl, fun _ _ _ => tombs_step⟩

theorem locked_reachable (h : system.Reachable G w) : ∀ t, (w.pc t).Locked :=
  Programs.pc_invariant (X := programs) Pc.Locked trivial (fun _ _ _ _ _ en => locked_own en.2) h

theorem objects_before (h : system.Reachable G w) (en : programs.enabled w (t, a)) :
    w.data.objects.Owes t (stmt t a).before.objectsHeld := by
  have ho := objects_held h t
  rwa [show w.pc t = _ from en.1] at ho

/-- The owners whose locks a session holds. -/
def Pc.owners : Pc → List Uuid
  | .create _ .opened => []
  | .create c _ => [c.me.id]
  | .sweep sw _ => sw.locked
  | _ => []

theorem lockKey_of_owner {pc : Pc} (h : p ∈ pc.owners) : ownerLockKey p.text ∈ pc.locksHeld := by
  cases pc with
  | create c st =>
    cases st with
    | opened => cases h
    | _ =>
      cases mem_singleton.1 h
      exact mem_singleton.2 (uuidLockKey_eq _ c.me.reads).symm
  | sweep => exact mem_map.2 ⟨p, h, rfl⟩
  | _ => cases h

/-- One session at a time works on the objects of an owner. -/
theorem owner_exclusive (h : system.Reachable G w) (ht : p ∈ (w.pc t).owners)
    (hu : p ∈ (w.pc u).owners) : t = u :=
  (locks_held h t).exclusive (locks_held h u) (lockKey_of_owner ht) (lockKey_of_owner hu)

end Reachable

section Changes

/-- What can be committed at an address. -/
inductive Changes : Option ObjectRow → Event → Option ObjectRow → Prop
  | created (row : ObjectRow)
      (hversion : row.version = 1) :
      Changes none (.put 0 1) (some row)
  | updated (old row : ObjectRow)
      (hversion : row.version = old.version + 1) :
      Changes (some old) (.put old.version row.version) (some row)
  | deleted (old : ObjectRow) :
      Changes (some old) .deleted none

/-- Nothing was committed at the address in a step, or one change. -/
def Moved (d d' : Data) (k : Address) : Prop :=
  (d'.objects.committed k = d.objects.committed k ∧ d'.story k = d.story k) ∨
    ∃ e, Changes (d.objects.committed k) e (d'.objects.committed k) ∧ d'.story k = d.story k ++ [e]

theorem moved_commit {pc : Pc} {answers : List Answer} (ho : d.objects.Owes t pc.objectsHeld)
    (hresult : pc.result = some answers) : Moved d (d.commit t pc answers) k := by
  have hquiet : pc.objectsHeld = .nothing → pc.event k = [] →
      Moved d (d.commit t pc answers) k := by
    intro hnothing hevent
    rw [hnothing] at ho
    refine .inl ⟨HoldsNone.committed_commit ho.holdsNone k, ?_⟩
    show d.story k ++ pc.event k = d.story k
    rw [hevent, append_nil]
  cases pc with
  | create c st =>
    cases st with
    | inserted life =>
      have happ := Owes.applies ho
      by_cases hk : k = c.address
      · subst hk
        refine .inr ⟨.put 0 1, ?_, ?_⟩
        · rw [show d.objects.committed c.address = none from
            happ.based _ mem_cons_self, show (d.commit t _ _).objects.committed c.address =
              some (c.row life) from happ.written _ mem_cons_self]
          exact .created _ rfl
        · show d.story c.address ++ (if c.address = c.address then _ else _) = _
          rw [if_pos rfl]
          rfl
      · refine .inl ⟨happ.same k ?_, ?_⟩
        · exact forall_mem_singleton.2 (Ne.symm hk)
        · show d.story k ++ (if k = c.address then _ else _) = _
          rw [if_neg hk, append_nil]
    | _ => exact hquiet rfl rfl
  | sweep sw =>
    have happ := Owes.applies ho
    by_cases hk : k ∈ sw.removed
    · obtain ⟨old, hold, -⟩ := happ.based (removal k) (mem_map_of_mem hk)
      refine .inr ⟨.deleted, ?_, ?_⟩
      · rw [show d.objects.committed k = some old from hold,
          show (d.commit t _ _).objects.committed k = none from
            happ.written (removal k) (mem_map_of_mem hk)]
        exact .deleted old
      · show d.story k ++ (if k ∈ sw.removed then _ else _) = _
        rw [if_pos hk]
    · refine .inl ⟨happ.same k ?_, ?_⟩
      · intro w hw
        obtain ⟨k', hk', rfl⟩ := mem_map.1 hw
        rintro rfl
        exact hk hk'
      · show d.story k ++ (if k ∈ sw.removed then _ else _) = _
        rw [if_neg hk, append_nil]
  | _ => exact hquiet rfl rfl

theorem moved_replace {k' : Address} {row : Option ObjectRow} {e : Event} {d' : Data}
    (hobjects : d'.objects = d.objects.put k' row)
    (hstory : d'.story = update d.story k' (d.story k' ++ [e]))
    (hc : Changes (d.objects.committed k') e row) : Moved d d' k := by
  unfold Moved
  rw [hobjects, hstory, committed_put]
  by_cases hk : k = k'
  · subst hk
    refine .inr ⟨e, ?_, update_self _ _ _⟩
    rw [if_pos rfl]
    exact hc
  · exact .inl ⟨if_neg hk, update_of_ne hk _ _⟩

/-- What a step commits at an address. -/
theorem moved_step (hg : (stmt t a).guard d) (ho : d.objects.Owes t (stmt t a).before.objectsHeld) :
    Moved d ((stmt t a).change d) k := by
  cases a with
  | insertObject => exact .inl ⟨committed_write _ _ _ _ _, rfl⟩
  | casWrite c seen =>
    rcases casObject_objects c seen d with ⟨row, hrow, hversion, -, hobjects, hstory⟩ | ⟨ho, hs⟩
    · refine moved_replace hobjects hstory ?_
      rw [hrow, ← hversion]
      exact .updated row _ rfl
    · exact .inl ⟨congrArg (fun T => T.committed k) ho, congrFun hs k⟩
  | deleteWrite c seen =>
    rcases deleteObject_objects c seen d with ⟨row, hrow, -, hobjects, hstory⟩ | ⟨ho, hs⟩
    · refine moved_replace hobjects hstory ?_
      rw [hrow]
      exact .deleted row
    · exact .inl ⟨congrArg (fun T => T.committed k) ho, congrFun hs k⟩
  | sweepRow => exact .inl ⟨committed_deleteWhere _ _ _ _ _, rfl⟩
  | commit => exact moved_commit ho hg
  | refuse | fail => exact .inl ⟨committed_rollback _ _ _, rfl⟩
  | _ => exact .inl ⟨rfl, rfl⟩

end Changes

end Swarog.Storage
