import Swarog.Groups.Roster

/-!
# The purge of the groups service

The sweep ends the memberships of a purged player group by group, lists the groups
again until there are none, and stamps the tombstone.  The calls that insert a
membership read the tombstone of the player before they insert, or not at all
(`invite`), and the locks they hold are those of groups of which the player has no row
yet.  `Fenced` is the condition on the moments of the inserts under which a swept
player has no membership.
-/

namespace Swarog.Groups

open Pg List

variable {G : World Data Pc → Sess × Act → Prop}
variable {w : World Data Pc} {t : Sess} {a : Act} {d : Data} {p : Uuid}

section Points

namespace Pc

/-- The player for whom the sweep has found no group any more. -/
def erasing : Pc → Option (Uuid × List (Uuid × Uuid))
  | .sweep sw .purged => sw.claimed.head?.map (fun c => (c.1, []))
  | _ => none

/-- The rows that a sweep has deleted behind its savepoints. -/
def removed : Pc → List (Uuid × Uuid)
  | .sweep sw _ => sw.removed.map Pg.Change.key
  | .exit h _ _ => h.kept.map Pg.Change.key
  | _ => []

end Pc

/-- How the sweep erases memberships. -/
def eraser : Eraser Data Pc (Uuid × Uuid) where
  present d k := d.memberships.committed k ≠ none
  own p k := k.2 = p
  swept d p := Tombstone.Swept d.purged p
  erasing := Pc.erasing
  stamped pc p := p ∈ pc.tombs.stamps
  deleted pc k := k ∈ pc.removed
  adding pc p := ∃ k, pc.inserting = some k ∧ k.2 = p

/-- Somebody has found no group of `p` any more, or `p` is swept.  A sweep that is at
`p` holds the tombstone. -/
def BeingErased (w : World Data Pc) (p : Uuid) : Prop :=
  Tombstone.Swept w.data.purged p ∨
    (w.data.purged.pending p).any (fun held => decide (p ∈ (w.pc held.1).tombs.stamps) ||
      (w.pc held.1).erasing.any (fun e => e.1 == p)) = true

instance (w : World Data Pc) (p : Uuid) : Decidable (BeingErased w p) :=
  inferInstanceAs (Decidable (_ ∨ _))

/-- The condition on a step under which the purge is final: when the sweep finds no
group of a player, no open transaction has inserted a membership of that player; and
no call inserts one from then on.  `create` and `join` check the tombstone, which leaves
those that have read it before it was planted: `not_checked_of_erased`. -/
def Fenced (w : World Data Pc) : Sess × Act → Prop
  | (t, .sweepList sw p _ _) =>
    w.data.playerGroups t p sw.slots = [] →
      ∀ k ∈ w.data.memberships.keys, k.2 = p → w.data.memberships.committed k = none →
        w.data.memberships.pending k = none
  | (_, .insertCreator c _ _) => ¬ BeingErased w c.me.id
  | (_, .insertMember x _ _) => ¬ BeingErased w x.call.subject.id
  | _ => True

instance (w : World Data Pc) (a : Sess × Act) : Decidable (Fenced w a) := by
  unfold Fenced
  split <;> infer_instance

/-- The statement is a listing of the groups of `p`, and finds none. -/
def Starts (t : Sess) (a : Act) (d : Data) (p : Uuid) : Prop :=
  ∃ sw tomb rest, a = .sweepList sw p tomb rest ∧ d.playerGroups t p sw.slots = []

end Points

section Erasure

variable {todo : List (Uuid × Uuid)}

theorem erasing_sweep
    {pc : Pc}
    (h : pc.erasing = some (p, todo)) :
    ∃ sw tomb, pc = .sweep sw .purged ∧ sw.claimed.head? = some (p, tomb) ∧ todo = [] := by
  cases pc with
  | sweep sw st =>
    cases st with
    | purged =>
      obtain ⟨⟨_, tomb⟩, hc, he⟩ := Option.map_eq_some_iff.1 h
      cases he
      exact ⟨sw, tomb, rfl, hc, rfl⟩
    | _ => cases h
  | _ => cases h

theorem beingErased_of_erasing
    (h : system.Reachable G w)
    (he : eraser.Erasing w p) :
    BeingErased w p := by
  rcases he with hs | ⟨t, hst | ⟨todo, her⟩⟩
  · exact .inl hs
  · have hst : p ∈ (w.pc t).tombs.stamps := hst
    obtain ⟨_, hv⟩ := Tombstone.pending_of_stamps (tombs_kept.held h t).1 hst
    refine .inr ?_
    rw [hv]
    simp [hst]
  · have her : (w.pc t).erasing = some (p, todo) := her
    obtain ⟨_, _, hpc, hhead, -⟩ := erasing_sweep her
    have ho := (tombs_kept.held h t).1
    rw [hpc] at ho
    refine .inr ?_
    rw [Tombstone.pending_of_todo ho (mem_of_head? hhead)]
    simp [her]

/-- A player who is being erased has a committed tombstone. -/
theorem tombstone_of_erased
    (h : system.Reachable G w)
    (he : BeingErased w p) :
    w.data.purged.committed p ≠ none := by
  rcases he with ⟨row, hrow, -⟩ | hheld
  · rw [hrow]
    exact Option.some_ne_none _
  · obtain ⟨⟨t, _⟩, -, hheld⟩ := (Option.any_eq_true _ _).1 hheld
    have ho := (tombs_kept.held h t).1
    rcases (Bool.or_eq_true_iff).1 hheld with hst | her
    · exact Tombstone.committed_of_stamps ho (of_decide_eq_true hst)
    · obtain ⟨⟨q, todo⟩, hfound, hq⟩ := (Option.any_eq_true _ _).1 her
      obtain rfl : q = p := beq_iff_eq.1 hq
      obtain ⟨_, tomb, hpc, hhead, -⟩ := erasing_sweep hfound
      rw [hpc] at ho
      rw [show w.data.purged.committed q = some tomb from
        Tombstone.committed_of_todo ho (mem_of_head? hhead)]
      exact Option.some_ne_none _

/-- A call that comes to its check while the player is being erased is refused. -/
theorem not_checked_of_erased (h : system.Reachable G w) :
    (∀ c now, BeingErased w c.me.id → ¬ programs.enabled w (t, .createClear c now)) ∧
      ∀ x, BeingErased w x.call.subject.id → ¬ programs.enabled w (t, .checkTombstone x) := by
  have hview : ∀ p, (w.pc t).tombs = .nothing → BeingErased w p →
      w.data.purged.view t p ≠ none := by
    intro p hnothing he
    have ho := (tombs_kept.held h t).1
    rw [hnothing] at ho
    rw [Table.view_of_not_holder (Table.Owes.holdsNone ho p)]
    exact tombstone_of_erased h he
  constructor
  · rintro c now he ⟨hpc, hnone⟩
    exact hview _ (by rw [show w.pc t = _ from hpc]; rfl) he hnone
  · rintro x he ⟨hpc, -, hnone⟩
    exact hview _ (by rw [show w.pc t = _ from hpc]; rfl) he hnone

/-- A statement that leads to the stamp of a player is a listing without groups. -/
theorem erasing_after
    (hg : (stmt t a).guard d)
    (he : ((stmt t a).after d).erasing = some (p, todo)) :
    Starts t a d p := by
  cases a with
  | sweepList sw q tomb rest =>
    have he : (Pc.sweep sw (if d.playerGroups t q sw.slots = [] then .purged
      else .walking (d.playerGroups t q sw.slots))).erasing = some (p, todo) := he
    split at he
    · rename_i hnil
      have he : sw.claimed.head?.map (fun c => (c.1, [])) = some (p, todo) := he
      rw [hg.1] at he
      cases he
      exact ⟨sw, tomb, rest, rfl, hnil⟩
    · cases he
  | sweepRelease sw g _ todo' gone cs spent =>
    have he : (Pc.sweep (sw.release g gone cs) (if spent = true then .finished
      else if todo' = [] then .listing else .walking todo')).erasing = some (p, todo) := he
    split at he
    · cases he
    · split at he <;> cases he
  | sweepSkip sw q tomb rest groups spent | sweepAbort sw g q todo tomb rest st cs spent
  | sweepStamp _ _ _ _ spent => cases spent <;> cases he
  | _ => cases he

variable {k : Uuid × Uuid}

/-- No group is listed when there is none. -/
theorem not_view_of_playerGroups
    {n : Nat}
    (hn : n ≠ 0)
    (h : d.playerGroups t p n = [])
    (hk : k.2 = p) :
    d.memberships.view t k = none := by
  cases hview : d.memberships.view t k with
  | none => rfl
  | some row =>
    have hmem : k.1 ∈ (((d.memberships.select t (fun k _ => k.2 == p)).map Prod.fst).insertionSort
        (fun g g' => g.value ≤ g'.value)) := by
      refine (mem_insertionSort _).2 (mem_map_of_mem (Table.mem_select.2 ⟨row, hview, ?_⟩))
      simpa using hk
    rw [(take_eq_nil_iff.1 h).resolve_left hn] at hmem
    cases hmem

theorem erases
    (h : system.Reachable G w)
    (en : programs.enabled w (t, a))
    (he : ((stmt t a).after w.data).erasing = some (p, todo))
    (hown : k.2 = p)
    (hk : ((stmt t a).change w.data).memberships.committed k ≠ none) :
    k ∈ ((stmt t a).after w.data).removed := by
  obtain ⟨sw, tomb, rest, rfl, hnil⟩ := erasing_after en.2 he
  have ho := (keeps_reachable h t).owes
  rw [show w.pc t = .sweep sw .listing from en.1] at ho
  have hview := not_view_of_playerGroups en.2.2 hnil hown
  obtain ⟨c, hc, rfl⟩ := ho.changed_of_unseen hview hk
  exact mem_map_of_mem hc

theorem stamps
    (hg : (stmt t a).guard d)
    (hst : p ∈ ((stmt t a).after d).tombs.stamps) :
    (p ∈ (stmt t a).before.tombs.stamps ∨ (stmt t a).before.erasing = some (p, [])) ∧
      ∀ k, k ∈ (stmt t a).before.removed → k ∈ ((stmt t a).after d).removed := by
  cases a with
  | sweepList sw q =>
    have hst : p ∈ (Pc.sweep sw (if d.playerGroups t q sw.slots = [] then .purged
      else .walking (d.playerGroups t q sw.slots))).tombs.stamps := hst
    refine ⟨.inl ?_, fun k hk => hk⟩
    split at hst <;> exact hst
  | sweepRelease sw g q todo gone cs spent =>
    have hst : p ∈ (Pc.sweep (sw.release g gone cs) (if spent = true then .finished
      else if todo = [] then .listing else .walking todo)).tombs.stamps := hst
    refine ⟨.inl ?_, ?_⟩
    · split at hst
      · exact hst
      · split at hst <;> exact hst
    · intro k hk
      show k ∈ (sw.removed ++ cs).map Pg.Change.key
      rw [map_append]
      exact mem_append_left _ hk
  | sweepSkip sw q tomb rest groups spent | sweepAbort sw g q todo tomb rest st cs spent =>
    refine ⟨.inl ?_, fun k hk => hk⟩
    cases spent <;> exact hst
  | sweepStamp sw q tomb rest spent =>
    have hst : p ∈ (sw.stamped ++ [(q, tomb)]).map Prod.fst := by cases spent <;> exact hst
    refine ⟨?_, fun k hk => hk⟩
    rw [map_append, mem_append] at hst
    refine hst.imp id ?_
    intro hst
    cases mem_singleton.1 hst
    show sw.claimed.head?.map _ = _
    rw [hg]
    rfl
  | _ => first | cases hst | exact ⟨.inl hst, fun k hk => hk⟩

section

variable (h : system.Reachable G w)
include h

/-- The rows that a sweep has deleted are gone with its `COMMIT`. -/
theorem sweeps
    (en : programs.enabled w (t, a))
    (hs : Tombstone.Swept ((stmt t a).change w.data).purged p) :
    Tombstone.Swept w.data.purged p ∨ (p ∈ (stmt t a).before.tombs.stamps ∧
      ∀ k, k ∈ (stmt t a).before.removed →
        ¬ ((stmt t a).change w.data).memberships.committed k ≠ none) := by
  rcases exists_or_ne Act.commit a with ⟨pc, answers, rfl⟩ | hquiet
  · have hpc : w.pc t = pc := en.1
    have htombs := tombs_kept.held h t
    have hsound := sound_reachable h t
    have hkeeps := keeps_reachable h t
    rw [hpc] at htombs hsound hkeeps
    refine (Tombstone.swept_of_commit htombs.1 htombs.2 hs).imp_right ?_
    intro hst
    refine ⟨hst, ?_⟩
    intro k hk hne
    cases pc with
    | sweep sw st =>
      obtain ⟨c, hc, rfl⟩ := mem_map.1 hk
      refine hne ?_
      rw [show ((stmt t (.commit (.sweep sw st) answers)).change
        w.data).memberships.committed c.key = _ from snap_commit_rows h en]
      rw [Pg.Change.apply_changed hkeeps.nodup hc]
      exact (hsound.1 c hc).1.new_eq
    | exit host =>
      cases host with
      | leave => cases hk
      | sweep => cases en.2
    | _ => cases hk
  · refine .inl ?_
    obtain ⟨row, hrow, hswept⟩ := hs
    have hsame := purged_quiet (t := t) (d := w.data) (p := p) hquiet
    exact ⟨row, hsame.symm.trans hrow, hswept⟩

theorem adds
    (hG : Fenced w (t, a))
    (en : programs.enabled w (t, a))
    (hk : ((stmt t a).after w.data).inserting = some k)
    (hp : k.2 = p) :
    (∃ k, (stmt t a).before.inserting = some k ∧ k.2 = p) ∨
      (¬ eraser.Erasing w p ∧ ¬ Starts t a w.data p) := by
  cases a with
  | insertCreator | insertMember =>
    cases hk
    cases hp
    refine .inr ⟨fun he => hG (beingErased_of_erasing h he), ?_⟩
    rintro ⟨_, _, _, ha, -⟩
    cases ha
  | writeRow x _ row ch =>
    have hold : ch.old = some row := (lawful_change en.2.2.2).2.2
    have hk : (if ch.old = none then some x.call.key else none) = some k := hk
    rw [hold] at hk
    cases hk
  | _ => cases hk

/-- A row that a session has inserted is not committed yet. -/
theorem inserting_pending (hk : (w.pc t).inserting = some k) :
    w.data.memberships.committed k = none ∧ w.data.memberships.pending k ≠ none := by
  have ho := (keeps_reachable h t).owes
  have hs := sound_reachable h t
  have key : ∀ c ∈ (w.pc t).changes, c.key = k → c.old = none →
      w.data.memberships.committed k = none ∧ w.data.memberships.pending k ≠ none := by
    rintro _ hc rfl hold
    refine ⟨(ho.old_change hc).trans hold, ?_⟩
    rw [ho.pending_change hc]
    exact Option.some_ne_none _
  cases hpc : w.pc t with
  | create _ _ st =>
    rw [hpc] at hk key
    cases st with
    | written =>
      cases hk
      exact key _ mem_cons_self rfl rfl
    | _ => cases hk
  | op x st =>
    rw [hpc] at hk key hs
    cases st with
    | written ch =>
      have hk : (if ch.old = none then some x.call.key else none) = some k := hk
      split at hk
      · rename_i hold
        cases hk
        exact key ch mem_cons_self hs.1 hold
      · cases hk
    | _ => cases hk
  | _ =>
    rw [hpc] at hk
    cases hk

theorem alone
    (hG : Fenced w (t, a))
    (hs : Starts t a w.data p) :
    ∀ u, ¬ ∃ k, (w.pc u).inserting = some k ∧ k.2 = p := by
  rintro _ ⟨k, hk, hp⟩
  obtain ⟨_, _, _, rfl, hnil⟩ := hs
  obtain ⟨hnone, hpending⟩ := inserting_pending h hk
  refine hpending (hG hnil k ?_ hp hnone)
  by_contra hkeys
  exact hpending (by rw [Table.pending, w.data.memberships.support _ hkeys]; rfl)

/-- Memberships appear when the call that has inserted them commits. -/
theorem added
    (en : programs.enabled w (t, a))
    (hown : k.2 = p)
    (hk : ((stmt t a).change w.data).memberships.committed k ≠ none) :
    w.data.memberships.committed k ≠ none ∨
      ∃ k, (stmt t a).before.inserting = some k ∧ k.2 = p := by
  rcases exists_or_ne Act.commit a with ⟨pc, answers, rfl⟩ | hquiet
  · have hpc : w.pc t = pc := en.1
    have hsound := sound_reachable h t
    have hkeeps := keeps_reachable h t
    rw [hpc] at hsound hkeeps
    rcases hkeeps.commit_cases k with ⟨hsame, -⟩ | ⟨c, hc, rfl, hold, hnew⟩
    · exact .inl (hsame ▸ hk)
    · rw [hold]
      by_cases hnone : c.old = none
      · exact .inr ⟨c.key, inserting_of_insert hsound hc (hnew ▸ hk) hnone, hown⟩
      · exact .inl hnone
  · rw [memberships_quiet hquiet] at hk
    exact .inl hk

end

theorem eraser_lawful : eraser.Lawful programs Fenced Starts where
  none_swept := fun _ => Tombstone.not_swept_empty
  idle := ⟨rfl, fun _ hst => (not_mem_nil hst).elim, fun _ ⟨_, hk, _⟩ => by cases hk⟩
  begins := fun _ _ _ _ _ hg he => .inr (erasing_after hg he)
  erases := fun _ _ _ _ _ _ h en he hown hk _ => .inr (erases h en he hown hk)
  stamps := fun _ _ _ _ => stamps
  sweeps := fun _ _ _ _ => sweeps
  adds := fun _ _ _ _ h hG en ⟨_, hk, hp⟩ => adds h hG en hk hp
  alone := fun _ _ _ _ h hG _ => alone h hG
  added := fun _ _ _ _ _ => added

/-- A swept player has no memberships. -/
theorem swept_no_memberships
    (h : system.Reachable Fenced w)
    (hs : Tombstone.Swept w.data.purged p)
    (hp : k.2 = p) :
    w.data.memberships.committed k = none := by
  by_contra hk
  exact (eraser_lawful.cleared h).swept p hs k hp hk

end Erasure

end Swarog.Groups
