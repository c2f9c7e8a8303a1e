import Swarog.Friends.Service

/-!
# What the sessions of the friends service hold

A session holds exactly the changes that its program point lists: the version that
each of them writes, over the version that it replaces.  Its `COMMIT` therefore
applies these changes, and no other step changes a committed edge.

A request holds the lock of its requester from its first statement on.
-/

namespace Swarog.Friends

open Pg

section Held

/-- The version that a change writes. -/
def Change.write (c : Change) : Write (Uuid × Uuid) EdgeRow :=
  ⟨c.key, fun old => old = c.old, c.new⟩

/-- The change of the table. -/
def Change.patch (c : Change) : Pg.Change (Uuid × Uuid) EdgeRow Event :=
  ⟨c.key, c.old, c.new, [c.event]⟩

namespace Pc

def edgesHeld (pc : Pc) : Holding (Uuid × Uuid) EdgeRow := .writing (pc.changes.map Change.write)

/-- The locks that a program point needs. -/
def locksHeld : Pc → List Int
  | .request _ .opened => []
  | .request r _ => [r.lockKey]
  | _ => []

/-- What the statements have checked of the changes. -/
def Sound : Pc → Prop
  | .request r (.inserted _) | .request r (.counted _) => Ordered r.pair
  | .request r (.crossed row) => row.Answerable r.me.id
  | .edge c (.written k row) => c.Finds k row
  | .purge q => q.Owned policy
  | _ => True

end Pc

end Held

variable {G : World Data Pc → Sess × Act → Prop}
variable {w : World Data Pc} {t : Sess} {a : Act} {d : Data}

section Steps

/-- The only steps that change committed edges are `COMMIT`s. -/
theorem edges_quiet
    (hquiet : ∀ pc answers, a ≠ .commit pc answers)
    (k : Uuid × Uuid) :
    ((stmt t a).change d).edges.committed k = d.edges.committed k := by
  cases a with
  | insertPending | insertAgain | acceptCrossing | writeEdge =>
    exact Table.committed_write _ _ _ _ _
  | purge m => exact m.committed k
  | commit pc answers => exact absurd rfl (hquiet pc answers)
  | refuse | fail => exact Table.committed_rollback _ _ _
  | _ => rfl

theorem events_quiet (hquiet : ∀ pc answers, a ≠ .commit pc answers) :
    ((stmt t a).change d).events = d.events := by
  cases a with
  | commit pc answers => exact absurd rfl (hquiet pc answers)
  | _ => rfl

end Steps

section Own

/-- A move of the purge leads to no call. -/
theorem after_purge (m : Sweeper.Move (Uuid × Uuid) EdgeRow) :
    (stmt t (.purge m)).after d = .idle ∨ ∃ q, (stmt t (.purge m)).after d = .purge q := by
  simp only [stmt, Stmt.along]
  cases (m.stmt policy t).after d.tables with
  | none => exact .inl rfl
  | some q => exact .inr ⟨q, rfl⟩

/-- The event of a deleted edge. -/
def deletionEvents (m : Sweeper.Removal (Uuid × Uuid) EdgeRow) : List Event := [(deletion m).event]

theorem changes_purge (q : Sweeper.Point (Uuid × Uuid) EdgeRow) :
    (Pc.purge q).changes.map Change.patch = q.changes deletionEvents := by
  cases q with
  | planted => rfl
  | sweep => exact List.map_map

theorem changes_ofPoint (q : Option (Sweeper.Point (Uuid × Uuid) EdgeRow)) :
    (Pc.ofPoint q).changes.map Change.patch = Sweeper.changesOf deletionEvents q := by
  cases q with
  | none => rfl
  | some q => exact changes_purge q

theorem edges_edits (hg : (stmt t a).guard d) :
    d.edges.Edits t ((stmt t a).before.changes.map Change.patch) ((stmt t a).change d).edges
      (((stmt t a).after d).changes.map Change.patch) := by
  cases a with
  | insertPending r e | insertAgain r e => exact .first (r.create e).patch rfl hg.1 hg.2.1
  | acceptCrossing r row => exact .first (r.cross row).patch rfl hg.1 hg.2.1
  | writeEdge c k row => exact .first (c.change k row).patch rfl hg.1 hg.2.1
  | purge m =>
    simp only [stmt, Stmt.along, changes_ofPoint]
    exact m.edits hg
  | commit => exact .commit
  | refuse | fail => exact .rollback
  | _ => exact .same

theorem locks_pass (hg : (stmt t a).guard d) :
    Locks.Passes t d.locks (stmt t a).before.locksHeld ((stmt t a).change d).locks
      ((stmt t a).after d).locksHeld := by
  cases a with
  | lockRequester => exact .take hg
  | purge m =>
    simp only [stmt, Stmt.along]
    cases (m.stmt policy t).after d.tables <;> exact .done
  | _ => first | exact .same | exact .done | exact .release

theorem sound_own
    (hg : (stmt t a).guard d)
    (h : (stmt t a).before.Sound) :
    ((stmt t a).after d).Sound := by
  cases a with
  | insertPending | insertAgain => exact hg.2.2.1
  | acceptCrossing | writeEdge => exact hg.2.2
  | purge m =>
    have hbefore : ∀ q, (m.stmt policy t).before = some q → q.Owned policy := by
      intro _ hq
      simp only [stmt, Stmt.along, hq] at h
      exact h
    show (Pc.ofPoint ((m.stmt policy t).after d.tables)).Sound
    cases hafter : (m.stmt policy t).after d.tables with
    | none => trivial
    | some q => exact m.owned hbefore q hafter
  | _ => first | exact h | exact trivial

end Own

section Reachable

section

variable (h : system.Reachable G w)
include h

theorem made_reachable : ∀ t, w.data.edges.Made t ((w.pc t).changes.map Change.patch) :=
  Programs.made_reachable (X := programs) Data.edges (fun pc => pc.changes.map Change.patch) rfl rfl
    (fun _ _ _ _ en => edges_edits en.2) h

theorem edges_held : ∀ t, w.data.edges.Owes t (w.pc t).edgesHeld := by
  intro t
  have ho := (made_reachable h t).owes
  rwa [Pg.Change.held, List.map_map] at ho

/-- The pairs that a session has changed are different. -/
theorem keys_nodup : ∀ t, ((w.pc t).changes.map Change.key).Nodup := by
  intro t
  have hn := (made_reachable h t).nodup
  rwa [List.map_map] at hn

theorem locks_held : ∀ t, w.data.locks.HeldBy t (w.pc t).locksHeld :=
  Programs.holds_locks (X := programs) Data.locks Pc.locksHeld rfl
    (fun _ _ _ => locks_pass) h

theorem sound_reachable : ∀ t, (w.pc t).Sound :=
  Programs.pc_invariant (X := programs) Pc.Sound trivial (fun _ _ _ _ _ en => sound_own en.2) h

/-- What a `COMMIT` does to the committed edges. -/
theorem commit_applies
    {pc : Pc}
    {answers : List Answer}
    (en : programs.enabled w (t, .commit pc answers)) :
    Table.Applies w.data.edges (w.data.commit t pc.changes answers).edges
      (pc.changes.map Change.write) := by
  have hpc : w.pc t = pc := en.1
  exact (hpc ▸ edges_held h t : w.data.edges.Owes t pc.edgesHeld).applies

/-- A `COMMIT` leaves the row of a change, or what was there. -/
theorem commit_cases
    {pc : Pc}
    {answers : List Answer}
    (en : programs.enabled w (t, .commit pc answers))
    (k : Uuid × Uuid) :
    (w.data.commit t pc.changes answers).edges.committed k = w.data.edges.committed k ∨
      ∃ c ∈ pc.changes, c.key = k ∧ w.data.edges.committed k = c.old ∧
        (w.data.commit t pc.changes answers).edges.committed k = c.new := by
  have hm := made_reachable h t
  rw [show w.pc t = pc from en.1] at hm
  rcases hm.commit_cases k with ⟨hsame, -⟩ | ⟨_, hmem, hcase⟩
  · exact .inl hsame
  · obtain ⟨c, hc, rfl⟩ := List.mem_map.1 hmem
    exact .inr ⟨c, hc, hcase⟩

/-- Requests of one player behind their first statement exclude each other. -/
theorem request_exclusive
    {r r' : Request}
    {st st' : RequestStage}
    {u : Sess}
    (ht : w.pc t = .request r st)
    (hu : w.pc u = .request r' st')
    (hst : st ≠ .opened)
    (hst' : st' ≠ .opened)
    (hme : r.me.id = r'.me.id) :
    t = u := by
  have hkey : r.lockKey = r'.lockKey := by
    unfold Request.lockKey requesterLockKey
    rw [uuidLockKey_eq _ r.me.reads, uuidLockKey_eq _ r'.me.reads, hme]
  have hkeys : ∀ (r : Request) (st : RequestStage), st ≠ .opened →
      r.lockKey ∈ (Pc.request r st).locksHeld := by
    intro r st hne
    cases st with
    | opened => exact absurd rfl hne
    | _ => exact List.mem_singleton.2 rfl
  exact (locks_held h t).exclusive (locks_held h u) (ht ▸ hkeys r st hst)
    (hu ▸ hkey ▸ hkeys r' st' hst')

end

end Reachable

end Swarog.Friends
