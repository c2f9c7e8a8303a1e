import Swarog.Friends.Sessions

/-!
# The purge of the friends service

The sweep deletes the edges of a purged player and stamps the tombstone in one
transaction.  A request reads the tombstone of its requester only, and takes no lock
that the sweep takes; whether a swept player has no edge therefore depends on the
moments at which requests insert.  `Fenced` is the condition on these moments under
which the purge is final.
-/

namespace Swarog.Friends

open Pg List Option

variable {G : World Data Pc → Sess × Act → Prop}
variable {w : World Data Pc} {t : Sess} {a : Act} {d : Data} {p : Uuid}

section Purge

/-- The friends service as its purge sees it. -/
def host : Sweeper.Host Data Pc (Uuid × Uuid) EdgeRow where
  tables := Data.tables
  point := Pc.point

theorem does (hg : (stmt t a).guard d) :
    Sweeper.Does policy t d.tables (stmt t a).before.point ((stmt t a).change d).tables
      ((stmt t a).after d).point := by
  cases a with
  | purge m =>
    have hpoint : ∀ q, (Pc.ofPoint q).point = q := by
      intro q
      cases q <;> rfl
    simp only [stmt, Stmt.along, hpoint]
    exact .move m hg
  | commit => exact .commit _
  | refuse | fail => exact .rollback _
  | _ => exact .rows _ (edges_edits hg).step

theorem runs : host.Runs policy programs deletionEvents where
  start := rfl
  idle := rfl
  does := fun _ _ _ => does
  made := by
    intro _ w h t _ hq
    have hm := made_reachable h t
    cases hpc : w.pc t with
    | purge =>
      rw [hpc] at hq hm
      cases hq
      rwa [changes_purge] at hm
    | _ =>
      rw [hpc] at hq
      cases hq

end Purge

section Erasure

/-- The request whose new edge a session has not committed yet. -/
def Pc.inserting : Pc → Option Request
  | .request r (.inserted _) | .request r (.counted _) => some r
  | _ => none

/-- How the sweep erases edges. -/
def eraser : Eraser Data Pc ((Uuid × Uuid) × Uuid) :=
  host.eraser policy (fun pc p => ∃ r, pc.inserting = some r ∧ Party r.pair p)

/-- Somebody is deleting the edges of `p`, or they are deleted.  A sweep that is at
`p` holds the tombstone. -/
def BeingErased (w : World Data Pc) (p : Uuid) : Prop :=
  Tombstone.Swept w.data.purged p ∨
    (w.data.purged.pending p).any (fun held =>
      decide (p ∈ (Sweeper.tombsOf (w.pc held.1).point).stamps) ||
        (host.erasing (w.pc held.1)).any (fun e => e.1 == p)) = true

instance (w : World Data Pc) (p : Uuid) : Decidable (BeingErased w p) :=
  inferInstanceAs (Decidable (_ ∨ _))

def Act.inserts : Act → Option Request
  | .insertPending r _ | .insertAgain r _ => some r
  | _ => none

/-- The condition on a step under which the purge is final: when the sweep's `DELETE`
for a player starts, no open transaction has inserted an edge of that player; and no
request inserts an edge of a player from then on.  As to the requester, that leaves the
requests that have read the tombstone before it was planted: `not_checked_of_erased`. -/
def Fenced (w : World Data Pc) (l : Sess × Act) : Prop :=
  (∀ p ∈ host.starting programs l.1 l.2 w.data, ∀ k ∈ w.data.edges.keys, Party k p →
    w.data.edges.committed k = none → w.data.edges.pending k = none) ∧
  ∀ r ∈ l.2.inserts, ¬ BeingErased w r.me.id ∧ ¬ BeingErased w r.target.playerId

instance (w : World Data Pc) (l : Sess × Act) : Decidable (Fenced w l) :=
  inferInstanceAs (Decidable (_ ∧ _))

theorem party_of_pair
    {r : Request}
    (hp : Party r.pair p) :
    p = r.me.id ∨ p = r.target.playerId := by
  unfold Request.pair pairOf at hp
  split at hp
  · exact hp
  · exact hp.symm

section

variable (h : system.Reachable G w)
include h

theorem beingErased_iff :
    BeingErased w p
      ↔
    eraser.Erasing w p := by
  constructor
  · rintro (hs | hheld)
    · exact .inl hs
    · obtain ⟨held, -, hheld⟩ := (Option.any_eq_true _ _).1 hheld
      refine .inr ⟨held.1, ?_⟩
      rcases Bool.or_eq_true_iff.1 hheld with hst | her
      · have hst : p ∈ (Sweeper.tombsOf (w.pc held.1).point).stamps := of_decide_eq_true hst
        exact .inl hst
      · obtain ⟨⟨q, todo⟩, hfound, hq⟩ := (Option.any_eq_true _ _).1 her
        obtain rfl : q = p := beq_iff_eq.1 hq
        obtain ⟨point, hpoint, he⟩ := bind_eq_some_iff.1 hfound
        exact .inr ⟨_, Sweeper.erasing_of_point hpoint he⟩
  · rintro (hs | ⟨t, hst | ⟨_, her⟩⟩)
    · exact .inl hs
    · have hst : p ∈ (Sweeper.tombsOf (w.pc t).point).stamps := hst
      obtain ⟨_, hv⟩ := Tombstone.pending_of_stamps (runs.tombs_kept.held h t).1 hst
      refine .inr ?_
      rw [show w.data.purged.pending p = _ from hv]
      simp [hst]
    · obtain ⟨point, _, hpoint, he, -⟩ := Sweeper.point_of_erasing her
      obtain ⟨sw, tomb, rfl, hhead⟩ := Sweeper.erasing_sweep he
      have ho := (runs.tombs_kept.held h t).1
      rw [hpoint] at ho
      refine .inr ?_
      rw [show w.data.purged.pending p = _ from
        Tombstone.pending_of_todo ho (mem_of_head? hhead)]
      simp [Sweeper.Host.erasing, hpoint, he]

/-- A request that comes to its check while its requester is being erased is refused. -/
theorem not_checked_of_erased
    {r : Request}
    (he : BeingErased w r.me.id) :
    ¬ programs.enabled w (t, .checkTombstone r) := by
  rintro ⟨hpc, hview⟩
  have hapart : host.point (w.pc t) = none := by
    rw [show w.pc t = .request r .locked from hpc]
    rfl
  exact runs.seen_of_erasing h hapart ((beingErased_iff h).1 he) hview

theorem adds
    (hG : Fenced w (t, a))
    {r : Request}
    (hr : ((stmt t a).after w.data).inserting = some r)
    (hp : Party r.pair p) :
    (∃ r, (stmt t a).before.inserting = some r ∧ Party r.pair p) ∨
      (¬ eraser.Erasing w p ∧ host.starting programs t a w.data ≠ some p) := by
  have hfence : ¬ BeingErased w r.me.id ∧ ¬ BeingErased w r.target.playerId →
      ¬ eraser.Erasing w p := by
    intro hfence he
    have he := (beingErased_iff h).2 he
    rcases party_of_pair hp with rfl | rfl
    · exact hfence.1 he
    · exact hfence.2 he
  cases a with
  | insertPending | insertAgain =>
    cases hr
    refine .inr ⟨hfence (hG.2 r rfl), ?_⟩
    intro hs
    cases hs
  | countAuthored =>
    cases hr
    exact .inl ⟨_, rfl, hp⟩
  | purge m =>
    rcases after_purge (t := t) (d := w.data) m with hpc | ⟨_, hpc⟩
    all_goals
      rw [hpc] at hr
      cases hr
  | _ => cases hr

/-- An edge that a session has inserted is not committed yet. -/
theorem inserting_pending
    {r : Request}
    (hr : (w.pc t).inserting = some r) :
    w.data.edges.committed r.pair = none ∧ w.data.edges.pending r.pair ≠ none := by
  have ho := edges_held h t
  have key : ∀ e, w.data.edges.Owes t (.writing [(r.create e).write]) →
      w.data.edges.committed r.pair = none ∧ w.data.edges.pending r.pair ≠ none := by
    intro _ ho
    refine ⟨ho.based _ mem_cons_self, ?_⟩
    rw [show w.data.edges.pending r.pair = _ from ho.held _ mem_cons_self]
    exact some_ne_none _
  cases hpc : w.pc t with
  | request _ st =>
    rw [hpc] at hr ho
    cases st with
    | inserted e | counted e =>
      cases hr
      exact key e ho
    | _ => cases hr
  | _ =>
    rw [hpc] at hr
    cases hr

theorem alone
    (hG : Fenced w (t, a))
    (hs : host.starting programs t a w.data = some p) :
    ∀ u, ¬ ∃ r, (w.pc u).inserting = some r ∧ Party r.pair p := by
  rintro _ ⟨r, hr, hp⟩
  obtain ⟨hnone, hpending⟩ := inserting_pending h hr
  refine hpending (hG.1 p hs r.pair ?_ hp hnone)
  by_contra hkeys
  exact hpending (by rw [Table.pending, w.data.edges.support _ hkeys]; rfl)

/-- Edges appear when a request commits. -/
theorem added
    {k : Uuid × Uuid}
    (en : programs.enabled w (t, a))
    (hown : Party k p)
    (hk : ((stmt t a).change w.data).edges.committed k ≠ none) :
    w.data.edges.committed k ≠ none ∨
      ∃ r, (stmt t a).before.inserting = some r ∧ Party r.pair p := by
  rcases exists_or_ne Act.commit a with ⟨pc, answers, rfl⟩ | hquiet
  · rcases commit_cases h en k with hsame | ⟨c, hc, rfl, hold, -⟩
    · exact .inl (hsame ▸ hk)
    · have hcreate : c.old ≠ none ∨ ∃ r, pc.inserting = some r ∧ Party r.pair p := by
        cases pc with
        | request r st =>
          cases st with
          | inserted e | counted e =>
            cases mem_singleton.1 hc
            exact .inr ⟨r, rfl, hown⟩
          | crossed =>
            cases mem_singleton.1 hc
            exact .inl (some_ne_none _)
          | _ => cases hc
        | edge _ st =>
          cases st with
          | written =>
            cases mem_singleton.1 hc
            exact .inl (some_ne_none _)
          | viewed => cases hc
        | purge =>
          obtain ⟨_, -, rfl⟩ := mem_map.1 hc
          exact .inl (some_ne_none _)
        | idle => cases hc
      exact hcreate.imp_left (fun hne => hold ▸ hne)
  · rw [edges_quiet hquiet] at hk
    exact .inl hk

end

theorem present_iff {k : Uuid × Uuid} :
    eraser.present d (k, p)
      ↔
    d.edges.committed k ≠ none ∧ Party k p := by
  show (∃ _, _ ∧ decide _ = true) ↔ _
  simp [ne_none_iff_exists', host, Data.tables]

theorem eraser_lawful :
    eraser.Lawful programs Fenced (fun t a d p => host.starting programs t a d = some p) where
  none_swept := runs.none_swept
  idle := ⟨runs.idle_apart.1, runs.idle_apart.2, fun _ ⟨_, hr, _⟩ => by cases hr⟩
  begins := fun _ _ _ _ _ => runs.begins
  erases := fun _ _ _ _ _ _ => runs.erases
  stamps := fun _ _ _ _ => runs.stamps
  sweeps := fun _ _ _ _ => runs.sweeps
  adds := fun _ _ _ _ h hG _ ⟨_, hr, hp⟩ => adds h hG hr hp
  alone := fun _ _ _ _ h hG _ => alone h hG
  added := by
    rintro _ _ _ _ ⟨k, p⟩ h en rfl hk
    obtain ⟨hk, hp⟩ := present_iff.1 hk
    exact (added h en hp hk).imp_left (fun hk => present_iff.2 ⟨hk, hp⟩)

/-- A swept player has no edges. -/
theorem swept_no_edges
    {k : Uuid × Uuid}
    (h : system.Reachable Fenced w)
    (hs : Tombstone.Swept w.data.purged p)
    (hp : Party k p) :
    w.data.edges.committed k = none := by
  by_contra hk
  exact (eraser_lawful.cleared h).swept p hs (k, p) rfl (present_iff.2 ⟨hk, hp⟩)

end Erasure

end Swarog.Friends
