import Swarog.Pg.Count
import Swarog.Storage.Sessions

/-!
# Stored objects

The story of an address is a sequence of lives, each of which ends with a deletion; in a life
the versions are 1, 2, 3, ... (`Told`).  The objects of an owner are counted and inserted
under the lock of the owner, which bounds their number.  The same lock orders a create and a
sweep: a create that has read no tombstone commits before the sweep deletes, and a create
that gets the lock after the sweep reads the tombstone.
-/

namespace Swarog.Storage

open Pg Table List Option

variable {G : World Data Pc → Sess × Act → Prop}
variable {w w' : World Data Pc} {t u : Sess} {a : Act} {d : Data} {k : Address} {p : Uuid}

section Lives

/-- A story, and the version of the object that it ends with; zero without one. -/
inductive Told : List Event → Int → Prop
  | empty : Told [] 0
  | put (l : List Event) (v : Int)
      (h : Told l v) :
      Told (l ++ [.put v (v + 1)]) (v + 1)
  | deleted (l : List Event) (v : Int)
      (h : Told l v) :
      Told (l ++ [.deleted]) 0

/-- The puts of a life with `n` versions. -/
def life (n : Nat) : List Event := (List.range n).map (fun i : Nat => .put i (i + 1))

theorem life_succ (n : Nat) : life (n + 1) = life n ++ [.put n (n + 1)] := by
  unfold life
  rw [range_succ, map_append]
  rfl

/-- A part of a story that begins a life. -/
def Begins (a : List Event) : Prop := a = [] ∨ a.getLast? = some .deleted

/-- The last life of a story. -/
theorem Told.last {l : List Event} {v : Int} (h : Told l v) {a b : List Event} (hl : l = a ++ b)
    (ha : Begins a) (hb : .deleted ∉ b) : b = life b.length ∧ v = b.length := by
  induction h generalizing b with
  | empty =>
    obtain ⟨-, rfl⟩ := append_eq_nil_iff.1 hl.symm
    exact ⟨rfl, rfl⟩
  | put _ _ _ ih =>
    rcases eq_nil_or_concat b with rfl | ⟨_, _, rfl⟩
    · -- A part that begins a life does not end with a put.
      rw [append_nil] at hl
      rcases ha with rfl | hlast
      · exact absurd hl (by simp)
      · rw [← hl, List.getLast?_append_of_ne_nil _ (cons_ne_nil _ _)] at hlast
        cases hlast
    · rw [concat_eq_append] at hl hb ⊢
      rw [← append_assoc] at hl
      obtain ⟨hl', hx⟩ := append_inj' hl rfl
      cases hx
      obtain ⟨hlife, hv⟩ := ih hl' (fun hmem => hb (mem_append_left _ hmem))
      rw [length_append]
      constructor
      · rw [length_singleton, life_succ, ← hlife, hv]
      · rw [hv]
        rfl
  | deleted =>
    rcases eq_nil_or_concat b with rfl | ⟨_, _, rfl⟩
    · exact ⟨rfl, rfl⟩
    · rw [concat_eq_append] at hl hb
      rw [← append_assoc] at hl
      obtain ⟨-, hx⟩ := append_inj' hl rfl
      cases hx
      exact absurd (mem_append_right _ (mem_singleton_self _)) hb

/-- What was told up to some event. -/
theorem Told.before {l : List Event} {v : Int} (h : Told l v) {a c : List Event} (hl : l = a ++ c) :
    ∃ v', Told a v' := by
  induction h generalizing c with
  | empty =>
    obtain ⟨rfl, -⟩ := append_eq_nil_iff.1 hl.symm
    exact ⟨0, .empty⟩
  | put l v h ih =>
    rcases eq_nil_or_concat c with rfl | ⟨_, _, rfl⟩
    · rw [append_nil] at hl
      exact ⟨v + 1, hl ▸ .put l v h⟩
    · rw [concat_eq_append, ← append_assoc] at hl
      exact ih (append_inj' hl rfl).1
  | deleted l v h ih =>
    rcases eq_nil_or_concat c with rfl | ⟨_, _, rfl⟩
    · rw [append_nil] at hl
      exact ⟨0, hl ▸ .deleted l v h⟩
    · rw [concat_eq_append, ← append_assoc] at hl
      exact ih (append_inj' hl rfl).1

def versionOf (row : Option ObjectRow) : Int := row.elim 0 ObjectRow.version

theorem Told.changes {l : List Event} {old new : Option ObjectRow} {e : Event}
    (h : Told l (versionOf old)) (hc : Changes old e new) : Told (l ++ [e]) (versionOf new) := by
  cases hc with
  | created row hversion =>
    show Told _ row.version
    rw [hversion]
    exact .put l 0 h
  | updated old row hversion =>
    show Told _ row.version
    rw [hversion]
    exact .put l old.version h
  | deleted => exact .deleted l _ h

theorem told_reachable (h : system.Reachable G w) :
    ∀ k, Told (w.data.story k) (versionOf (w.data.objects.committed k)) := by
  refine Programs.data_invariant (X := programs)
    (I := fun d => ∀ k, Told (d.story k) (versionOf (d.objects.committed k))) (fun _ => .empty) ?_ h
  intro w t a hr _ en hold k
  rcases moved_step (k := k) en.2 (objects_before hr en) with ⟨hrow, hstory⟩ | ⟨_, hc, hstory⟩
  · show Told (((stmt t a).change w.data).story k) _
    rw [hstory]
    show Told _ (versionOf (((stmt t a).change w.data).objects.committed k))
    rw [hrow]
    exact hold k
  · show Told (((stmt t a).change w.data).story k) _
    rw [hstory]
    exact (hold k).changes hc

end Lives

section Capacity

/-- The number of objects of an owner. -/
def Data.held (d : Data) (owner : Uuid) : Nat :=
  d.objects.count (fun k _ => decide (k.owner = owner))

/-- The owner for whose object a create has found room. -/
def Pc.admitted : Pc → Option Uuid
  | .create c .counted => some c.me.id
  | .create c (.inserted _) => some c.me.id
  | _ => none

theorem owners_of_admitted {pc : Pc} (h : pc.admitted = some p) : p ∈ pc.owners := by
  cases pc with
  | create _ st =>
    cases st with
    | counted | inserted life =>
      cases h
      exact mem_singleton_self _
    | _ => cases h
  | _ => cases h

section

variable (hg : (stmt t a).guard d) (ho : d.objects.Owes t (stmt t a).before.objectsHeld)
include hg ho

/-- Rows appear where a create commits. -/
theorem appears_step (hk : ((stmt t a).change d).objects.committed k ≠ none) :
    d.objects.committed k ≠ none ∨
      ∃ c life answers, a = .commit (.create c (.inserted life)) answers ∧ k = c.address := by
  by_cases hnone : d.objects.committed k = none
  · right
    cases a with
    | commit pc answers =>
      cases pc with
      | create c st =>
        cases st with
        | inserted life =>
          refine ⟨c, life, answers, rfl, ?_⟩
          by_contra hne
          refine hk (((Owes.applies ho).same k ?_).trans hnone)
          exact forall_mem_singleton.2 (Ne.symm hne)
        | _ => cases hg
      | sweep sw =>
        refine absurd ?_ hk
        by_cases hmem : k ∈ sw.removed
        · exact (Owes.applies ho).written (removal k) (mem_map_of_mem hmem)
        · refine ((Owes.applies ho).same k (fun w hw => ?_)).trans hnone
          obtain ⟨_, hk', rfl⟩ := mem_map.1 hw
          rintro rfl
          exact hmem hk'
      | _ =>
        refine absurd ?_ hk
        exact (HoldsNone.committed_commit (Owes.holdsNone ho) k).trans hnone
    | casWrite c seen =>
      refine absurd ?_ hk
      rcases casObject_objects c seen d with ⟨_, hrow, -, -, hobjects, -⟩ | ⟨hobjects, -⟩
      · simp only [stmt]
        rw [hobjects, committed_put, if_neg, hnone]
        rintro rfl
        rw [hnone] at hrow
        cases hrow
      · simp only [stmt]
        rw [hobjects, hnone]
    | deleteWrite c seen =>
      refine absurd ?_ hk
      rcases deleteObject_objects c seen d with ⟨_, -, -, hobjects, -⟩ | ⟨hobjects, -⟩
      · simp only [stmt]
        rw [hobjects, committed_put]
        split
        · rfl
        · exact hnone
      · simp only [stmt]
        rw [hobjects, hnone]
    | insertObject => exact absurd ((committed_write _ _ _ _ _).trans hnone) hk
    | sweepRow => exact absurd ((committed_deleteWhere _ _ _ _ _).trans hnone) hk
    | refuse | fail => exact absurd ((committed_rollback _ _ _).trans hnone) hk
    | _ => exact absurd hnone hk
  · exact .inl hnone

theorem held_grows :
    ((stmt t a).change d).held p ≤ d.held p ∨
      ((stmt t a).before.admitted = some p ∧ ((stmt t a).after d).admitted ≠ some p ∧
        ((stmt t a).change d).held p ≤ d.held p + 1) := by
  have hback : ∀ k, ((stmt t a).change d).objects.committed k ≠ none →
      (∀ c life answers, a = .commit (.create c (.inserted life)) answers → k ≠ c.address) →
        d.objects.committed k ≠ none := by
    intro _ hk hnot
    refine (appears_step hg ho hk).resolve_right ?_
    rintro ⟨c, life, answers, ha, hkc⟩
    exact hnot c life answers ha hkc
  have hsome : ∀ k row, decide (k.owner = p) = true → d.objects.committed k ≠ none →
      ((stmt t a).change d).objects.committed k = some row →
        ∃ r', d.objects.committed k = some r' ∧ decide (k.owner = p) = true := by
    intro _ _ hown hk _
    obtain ⟨r', hr'⟩ := ne_none_iff_exists'.1 hk
    exact ⟨r', hr', hown⟩
  by_cases hcommit : ∃ c life answers, a = .commit (.create c (.inserted life)) answers ∧
      c.me.id = p
  · obtain ⟨c, _, _, rfl, hme⟩ := hcommit
    refine .inr ⟨by rw [← hme]; rfl, fun heq => (nomatch heq), ?_⟩
    refine count_le_succ c.address (fun k row hne hrow hown => ?_)
    refine hsome k row hown (hback k (by rw [hrow]; exact some_ne_none _) ?_) hrow
    rintro _ _ _ heq rfl
    cases heq
    exact hne rfl
  · refine .inl (count_le (fun k row hrow hown => ?_))
    refine hsome k row hown (hback k (by rw [hrow]; exact some_ne_none _) ?_) hrow
    rintro c life answers heq rfl
    exact hcommit ⟨c, life, answers, heq, of_decide_eq_true hown⟩

end

theorem held_bounded (h : system.Reachable G w) : ∀ p, w.data.held p ≤ maxObjectsPerOwner := by
  refine (Programs.capacity (X := programs) Data.held Pc.admitted maxObjectsPerOwner
    (fun _ => Nat.zero_le _) (fun _ heq => nomatch heq) ?_ ?_ ?_ h).1
  · intro _ _ _ _ hr _ en
    exact held_grows en.2 (objects_before hr en)
  · intro w t a _ hr _ en hadm
    cases a with
    | countObjects =>
      cases hadm
      refine .inr (Nat.lt_of_le_of_lt ?_ en.2)
      have ho : w.data.objects.HoldsNone t := Owes.holdsNone (objects_before hr en)
      refine count_le_select (fun k r hr hown => ⟨r, ?_, hown⟩)
      show w.data.objects.view t k = some r
      rw [view_of_not_holder (ho k)]
      exact hr
    | insertObject =>
      cases hadm
      exact .inl rfl
    | sweepStamp _ _ _ _ spent => cases spent <;> cases hadm
    | _ => cases hadm
  · intro _ _ _ _ hr ht hu
    exact owner_exclusive hr (owners_of_admitted ht) (owners_of_admitted hu)

end Capacity

section Isolation

/-- The player whose put or delete a session runs. -/
def Pc.player : Pc → Option Uuid
  | .create c _ => some c.me.id
  | .cas c _ => some c.me.id
  | .delete c _ => some c.me.id
  | _ => none

/-- A put or a delete changes objects of its player only. -/
theorem player_step (ho : d.objects.Owes t (stmt t a).before.objectsHeld)
    (hp : (stmt t a).before.player = some p) (hk : k.owner ≠ p) :
    ((stmt t a).change d).objects.committed k = d.objects.committed k := by
  have hput : ∀ (k' : Address) row, k'.owner = p →
      (d.objects.put k' row).committed k = d.objects.committed k := by
    intro _ _ hown
    rw [committed_put, if_neg]
    rintro rfl
    exact hk hown
  cases a with
  | insertObject => exact committed_write _ _ _ _ _
  | casWrite c seen =>
    cases hp
    simp only [stmt]
    rcases casObject_objects c seen d with ⟨_, -, -, -, hobjects, -⟩ | ⟨hobjects, -⟩
    · rw [hobjects]
      exact hput c.address _ rfl
    · rw [hobjects]
  | deleteWrite c seen =>
    cases hp
    simp only [stmt]
    rcases deleteObject_objects c seen d with ⟨_, -, -, hobjects, -⟩ | ⟨hobjects, -⟩
    · rw [hobjects]
      exact hput c.address _ rfl
    · rw [hobjects]
  | sweepRow => cases hp
  | commit pc =>
    cases pc with
    | create _ st =>
      cases hp
      cases st with
      | inserted =>
        refine (Owes.applies ho).same k (fun w hw => ?_)
        cases mem_singleton.1 hw
        rintro rfl
        exact hk rfl
      | _ => exact HoldsNone.committed_commit (Owes.holdsNone ho) k
    | cas | delete => exact HoldsNone.committed_commit (Owes.holdsNone ho) k
    | _ => cases hp
  | refuse | fail => exact committed_rollback _ _ _
  | _ => rfl

end Isolation

section Purge

namespace Pc

/-- The owner whose objects the sweep is deleting, and the addresses it has still to reach. -/
def erasing : Pc → Option (Uuid × List Address)
  | .sweep sw (.deleting todo) => sw.claimed.head?.map (fun c => (c.1, todo))
  | _ => none

def removed : Pc → List Address
  | .sweep sw _ => sw.removed
  | _ => []

/-- The owner who has no tombstone and whose object is going to be inserted. -/
def adding : Pc → Option Uuid
  | .create c .checked => some c.me.id
  | .create c .counted => some c.me.id
  | .create c (.inserted _) => some c.me.id
  | _ => none

end Pc

/-- How the sweep erases objects. -/
def eraser : Eraser Data Pc Address where
  present d k := d.objects.committed k ≠ none
  own p k := k.owner = p
  swept d p := Tombstone.Swept d.purged p
  erasing := Pc.erasing
  stamped pc p := p ∈ pc.tombs.stamps
  deleted pc k := k ∈ pc.removed
  adding pc p := pc.adding = some p

/-- The statement is the `DELETE` for `p`. -/
def Starts (a : Act) (p : Uuid) : Prop :=
  ∃ sw tomb rest, a = .sweepDelete sw p tomb rest ∧ sw.claimed = (p, tomb) :: rest

theorem owners_of_adding {pc : Pc} (h : pc.adding = some p) : p ∈ pc.owners := by
  cases pc with
  | create _ st =>
    cases st with
    | opened | locked => cases h
    | _ =>
      cases h
      exact mem_singleton_self _
  | _ => cases h

/-- A sweep that is at an owner, or has stamped the tombstone, holds the lock. -/
theorem owners_of_erasing {pc : Pc} (hl : pc.Locked)
    (h : p ∈ pc.tombs.stamps ∨ ∃ todo, pc.erasing = some (p, todo)) :
    p ∈ pc.owners ∧ pc.adding = none := by
  cases pc with
  | sweep sw st =>
    refine ⟨?_, rfl⟩
    rcases h with hstamp | ⟨_, herase⟩
    · have hstamp : p ∈ sw.stamped.map Prod.fst := by cases st <;> exact hstamp
      obtain ⟨c, hc, rfl⟩ := mem_map.1 hstamp
      exact hl.1 c hc
    · cases st with
      | deleting =>
        obtain ⟨c, hc, heq⟩ := map_eq_some_iff.1 herase
        cases heq
        exact hl.2 (.inr ⟨_, rfl⟩) c hc
      | _ => cases herase
  | planted row =>
    cases row with
    | none | some => rcases h with h | ⟨_, h⟩ <;> cases h
  | _ => rcases h with h | ⟨_, h⟩ <;> cases h

theorem begins {todo : List Address} (hg : (stmt t a).guard d)
    (he : ((stmt t a).after d).erasing = some (p, todo)) :
    (∃ todo', (stmt t a).before.erasing = some (p, todo')) ∨ Starts a p := by
  cases a with
  | sweepDelete sw q tomb rest =>
    have he : sw.claimed.head?.map (fun c => (c.1, d.objectsOf t q)) = some (p, todo) := he
    rw [show sw.claimed = _ from hg] at he
    cases he
    exact .inr ⟨sw, tomb, rest, rfl, hg⟩
  | sweepRow sw q _ _ todo₀ k =>
    refine .inl ⟨todo₀, ?_⟩
    have he : (sw.reach d t q k).claimed.head?.map
        (fun c => (c.1, todo₀.erase k)) = some (p, todo) := he
    rw [(reach_frame sw d t q k).1] at he
    obtain ⟨c, hc, hpt⟩ := map_eq_some_iff.1 he
    cases hpt
    exact map_eq_some_iff.2 ⟨c, hc, rfl⟩
  | sweepStamp _ _ _ _ spent => cases spent <;> cases he
  | _ => cases he

/-- The objects that a sweep does not see are not there, or deleted by itself. -/
theorem removed_of_unseen {sw : Sweep} {st : SweepStage}
    (ho : d.objects.Owes t (Pc.sweep sw st).objectsHeld) (hview : d.objects.view t k = none)
    (hk : d.objects.committed k ≠ none) : k ∈ sw.removed := by
  rcases d.objects.view_cases t k with ⟨v, hv, -⟩ | ⟨-, heq⟩
  · rcases ho.only k v hv with ⟨_, hw, rfl, -⟩ | ⟨-, _, -, hdoom⟩
    · obtain ⟨_, hk', rfl⟩ := mem_map.1 hw
      exact hk'
    · exact hdoom.elim
  · exact absurd (heq.symm.trans hview) hk

theorem reach_removed {sw : Sweep} {k' : Address} (hk : k' ∈ sw.removed) :
    k' ∈ (sw.reach d t p k).removed := by
  unfold Sweep.reach
  split
  · exact mem_append_left _ hk
  · exact hk

theorem erases {todo : List Address} (h : system.Reachable G w) (en : programs.enabled w (t, a))
    (he : ((stmt t a).after w.data).erasing = some (p, todo)) (hown : k.owner = p)
    (hk : ((stmt t a).change w.data).objects.committed k ≠ none)
    (hold : ∀ todo', (stmt t a).before.erasing = some (p, todo') →
      k ∈ todo' ∨ k ∈ (stmt t a).before.removed) :
    k ∈ todo ∨ k ∈ ((stmt t a).after w.data).removed := by
  have ho := objects_before h en
  cases a with
  | sweepDelete sw q =>
    have he : sw.claimed.head?.map (fun c => (c.1, w.data.objectsOf t q)) = some (p, todo) := he
    rw [show sw.claimed = _ from en.2] at he
    cases he
    by_cases hview : w.data.objects.view t k = none
    · exact .inr (removed_of_unseen ho hview hk)
    · obtain ⟨row, hrow⟩ := ne_none_iff_exists'.1 hview
      exact .inl (mem_select.2 ⟨row, hrow, decide_eq_true hown⟩)
  | sweepRow sw q tomb rest todo₀ k₀ =>
    have he : (sw.reach w.data t q k₀).claimed.head?.map
        (fun c => (c.1, todo₀.erase k₀)) = some (p, todo) := he
    rw [(reach_frame sw w.data t q k₀).1, en.2.1] at he
    cases he
    have hthere : w.data.objects.committed k ≠ none := by
      rw [← committed_deleteWhere t (fun k _ => decide (k.owner = q)) k₀]
      exact hk
    have hbefore : (stmt t (.sweepRow sw q tomb rest todo₀ k₀)).before.erasing =
        some (q, todo₀) := by
      show sw.claimed.head?.map (fun c => (c.1, todo₀)) = _
      rw [en.2.1]
      rfl
    rcases hold todo₀ hbefore with hmem | hrem
    · by_cases hkk : k = k₀
      · subst hkk
        refine .inr ?_
        by_cases hview : w.data.objects.view t k = none
        · exact reach_removed (removed_of_unseen ho hview hthere)
        · obtain ⟨row, hrow⟩ := ne_none_iff_exists'.1 hview
          show k ∈ (sw.reach w.data t q k).removed
          simp [Sweep.reach, hrow, hown]
      · exact .inl ((mem_erase_of_ne hkk).2 hmem)
    · exact .inr (reach_removed hrem)
  | sweepStamp sw q tomb rest spent => cases spent <;> cases he
  | _ => cases he

theorem stamps (hg : (stmt t a).guard d) (hst : p ∈ ((stmt t a).after d).tombs.stamps) :
    (p ∈ (stmt t a).before.tombs.stamps ∨ (stmt t a).before.erasing = some (p, [])) ∧
      ∀ k, k ∈ (stmt t a).before.removed → k ∈ ((stmt t a).after d).removed := by
  cases a with
  | sweepRow sw q tomb rest todo k =>
    refine ⟨.inl ?_, fun k' => reach_removed⟩
    have hst : p ∈ (sw.reach d t q k).stamped.map Prod.fst := hst
    rwa [(reach_frame sw d t q k).2.1] at hst
  | sweepStamp sw q tomb _ spent =>
    have hst : p ∈ (sw.stamped ++ [(q, tomb)]).map Prod.fst := by cases spent <;> exact hst
    refine ⟨?_, fun k hk => hk⟩
    rw [map_append, mem_append] at hst
    refine hst.imp id ?_
    intro hst
    cases mem_singleton.1 hst
    show sw.claimed.head?.map _ = _
    rw [show sw.claimed = _ from hg]
    rfl
  | _ => first | cases hst | exact ⟨.inl hst, fun k hk => hk⟩

section

variable (h : system.Reachable G w) (en : programs.enabled w (t, a))
include h en

/-- The objects that a sweep has deleted are gone with its `COMMIT`. -/
theorem sweeps (hs : Tombstone.Swept ((stmt t a).change w.data).purged p) :
    Tombstone.Swept w.data.purged p ∨ (p ∈ (stmt t a).before.tombs.stamps ∧
      ∀ k, k ∈ (stmt t a).before.removed →
        ¬ ((stmt t a).change w.data).objects.committed k ≠ none) := by
  have hquiet : ((stmt t a).change w.data).purged.committed p = w.data.purged.committed p →
      Tombstone.Swept w.data.purged p := by
    intro hsame
    obtain ⟨row, hrow, hswept⟩ := hs
    exact ⟨row, hsame.symm.trans hrow, hswept⟩
  cases a with
  | commit pc =>
    have htombs := tombs_kept.held h t
    rw [show w.pc t = _ from en.1] at htombs
    refine (Tombstone.swept_of_commit htombs.1 htombs.2 hs).imp_right ?_
    intro hst
    refine ⟨hst, fun k hk hne => ?_⟩
    have ho := objects_before h en
    cases pc with
    | sweep => exact hne ((Owes.applies ho).written (removal k) (mem_map_of_mem hk))
    | _ => cases hk
  | plant | sweepStamp => exact .inl (hquiet (committed_write _ _ _ _ _))
  | sweepSelect => exact .inl (hquiet (committed_lockAll _ _ _ _))
  | casWrite c seen =>
    refine .inl (hquiet ?_)
    exact congrArg (fun T => T.committed p) (casObject_frame c seen w.data).1
  | deleteWrite c seen =>
    refine .inl (hquiet ?_)
    exact congrArg (fun T => T.committed p) (deleteObject_frame c seen w.data).1
  | refuse | fail => exact .inl (hquiet (committed_rollback _ _ _))
  | _ => exact .inl (hquiet rfl)

/-- A create reads the tombstone under the lock. -/
theorem adds (hadd : ((stmt t a).after w.data).adding = some p) :
    (stmt t a).before.adding = some p ∨ (¬ eraser.Erasing w p ∧ ¬ Starts a p) := by
  cases a with
  | checkTombstone c =>
    cases hadd
    refine .inr ⟨?_, fun ⟨_, _, _, heq, _⟩ => nomatch heq⟩
    have hpc : w.pc t = .create c .locked := en.1
    rintro (⟨_, hrow, -⟩ | ⟨u, hu⟩)
    · have hview : w.data.purged.view t c.me.id = none := en.2
      have hnone : w.data.purged.HoldsNone t := by
        have ho := (tombs_kept.held h t).1
        rw [hpc] at ho
        exact Owes.holdsNone ho
      rw [view_of_not_holder (hnone _), hrow] at hview
      cases hview
    · have howner := (owners_of_erasing (locked_reachable h u) hu).1
      have ht : c.me.id ∈ (w.pc t).owners := by
        rw [hpc]
        exact mem_singleton_self _
      cases owner_exclusive h ht howner
      rw [hpc] at hu
      rcases hu with hu | ⟨_, hu⟩ <;> cases hu
  | countObjects | insertObject => exact .inl hadd
  | sweepStamp _ _ _ _ spent => cases spent <;> cases hadd
  | _ => cases hadd

theorem alone (hs : Starts a p) : ∀ u, (w.pc u).adding ≠ some p := by
  intro _ hadd
  obtain ⟨_, tomb, _, rfl, hclaimed⟩ := hs
  have hlocked := locked_reachable h t
  have ht : p ∈ (w.pc t).owners := by
    rw [en.1] at hlocked ⊢
    exact hlocked.2 (.inl rfl) (p, tomb) (by rw [hclaimed]; rfl)
  cases owner_exclusive h ht (owners_of_adding hadd)
  rw [en.1] at hadd
  cases hadd

end

theorem eraser_lawful : eraser.Lawful programs G (fun _ a _ p => Starts a p) where
  none_swept := fun _ => Tombstone.not_swept_empty
  idle := ⟨rfl, fun _ hst => (not_mem_nil hst).elim, fun _ heq => nomatch heq⟩
  begins := fun _ _ _ _ _ => begins
  erases := fun _ _ _ _ _ _ => erases
  stamps := fun _ _ _ _ => stamps
  sweeps := fun _ _ _ _ => sweeps
  adds := fun _ _ _ _ h _ => adds h
  alone := fun _ _ _ _ h _ => alone h
  added := fun w t a p k h en hown hk => by
    refine (appears_step en.2 (objects_before h en) hk).imp_right ?_
    rintro ⟨_, _, _, rfl, rfl⟩
    exact congrArg some hown

end Purge

section Kept

/-- The put of an address that an answer reports. -/
def Answer.puts (k : Address) : Answer → Option Event
  | .created c (.ok v) => if k = c.address then some (.put 0 v) else none
  | .swapped c (.ok v) => if k = c.address then some (.put c.expectedVersion v) else none
  | _ => none

def Event.isPut : Event → Bool
  | .put _ _ => true
  | .deleted => false

/-- What a step answers and what it commits at an address: the answers report the puts. -/
def Reported (d d' : Data) (k : Address) : Prop :=
  ∃ replies events, d'.answers = d.answers ++ replies ∧ d'.story k = d.story k ++ events ∧
    replies.filterMap (Answer.puts k) = events.filter Event.isPut

theorem reported_quiet
    {d' : Data}
    {replies : List Answer}
    (hanswers : d'.answers = d.answers ++ replies)
    (hstory : d'.story k = d.story k)
    (hreplies : replies.filterMap (Answer.puts k) = []) :
    Reported d d' k :=
  ⟨replies, [], hanswers, by rw [hstory, append_nil], hreplies⟩

theorem reported_commit
    {pc : Pc}
    {answers : List Answer}
    (hresult : pc.result = some answers) :
    Reported d (d.commit t pc answers) k := by
  refine ⟨answers, pc.event k, rfl, rfl, ?_⟩
  cases pc with
  | create c st =>
    cases st with
    | inserted life =>
      cases hresult
      by_cases hk : k = c.address
      · simp [Answer.puts, Pc.event, hk]
        rfl
      · simp [Answer.puts, Pc.event, hk]
    | _ => cases hresult
  | planted =>
    cases hresult
    rfl
  | sweep sw st =>
    cases st with
    | finished =>
      cases hresult
      by_cases hk : k ∈ sw.removed
      · simp [Pc.event, hk, Event.isPut]
      · simp [Pc.event, hk]
    | _ => cases hresult
  | _ => cases hresult

theorem reported_cas
    (c : Cas)
    (seen : Option ObjectRow) :
    Reported d (d.casObject c seen) k := by
  unfold Data.casObject
  cases d.found c.address c.matches seen with
  | none => exact reported_quiet rfl rfl rfl
  | some row =>
    by_cases hk : k = c.address
    · refine ⟨[.swapped c (.ok (c.update row).version)],
        [.put c.expectedVersion (c.update row).version], rfl, ?_, ?_⟩
      · rw [hk]
        exact Function.update_self _ _ _
      · simp [Answer.puts, hk]
        rfl
    · exact reported_quiet rfl (Function.update_of_ne hk _ _) (by simp [Answer.puts, hk])

theorem reported_delete
    (c : Delete)
    (seen : Option ObjectRow) :
    Reported d (d.deleteObject c seen) k := by
  unfold Data.deleteObject
  cases d.found c.address (fun _ => true) seen with
  | none => exact reported_quiet rfl rfl rfl
  | some =>
    by_cases hk : k = c.address
    · refine ⟨[.deleted c (.ok ())], [.deleted], rfl, ?_, rfl⟩
      rw [hk]
      exact Function.update_self _ _ _
    · exact reported_quiet rfl (Function.update_of_ne hk _ _) rfl

theorem refusal_puts
    (e : Error)
    (pc : Pc) :
    (pc.refusal e).filterMap (Answer.puts k) = [] := by
  cases pc <;> rfl

theorem reported_step (hg : (stmt t a).guard d) : Reported d ((stmt t a).change d) k := by
  cases a with
  | rejectPut | rejectDelete => exact reported_quiet rfl rfl rfl
  | casWrite c seen => exact reported_cas c seen
  | deleteWrite c seen => exact reported_delete c seen
  | commit => exact reported_commit hg
  | refuse pc e => exact reported_quiet rfl rfl (refusal_puts e pc)
  | fail pc => exact reported_quiet rfl rfl (refusal_puts _ pc)
  | _ => exact reported_quiet (append_nil _).symm rfl rfl

/-- The answers report the puts of a story one by one. -/
theorem reported_reachable (h : system.Reachable G w) :
    ∀ k, w.data.answers.filterMap (Answer.puts k) = (w.data.story k).filter Event.isPut := by
  refine Programs.data_invariant (X := programs)
    (I := fun d => ∀ k, d.answers.filterMap (Answer.puts k) = (d.story k).filter Event.isPut)
    (fun _ => rfl) ?_ h
  intro w t a _ _ en hold k
  obtain ⟨replies, events, hanswers, hstory, hnew⟩ := reported_step (k := k) en.2
  show ((stmt t a).change w.data).answers.filterMap _ =
    (((stmt t a).change w.data).story k).filter _
  rw [hanswers, hstory, filterMap_append, filter_append, hold k, hnew]

/-- A put that is answered with a version has replaced the one that it expected. -/
theorem casObject_answer {c : Cas} {seen : Option ObjectRow} {v : Int}
    (h : (d.casObject c seen).answers = d.answers ++ [.swapped c (.ok v)]) :
    ∃ row, d.objects.committed c.address = some row ∧ row.version = c.expectedVersion ∧
      v = row.version + 1 ∧
      (d.casObject c seen).objects.committed c.address = some (c.update row) := by
  unfold Data.casObject at h ⊢
  cases hfound : d.found c.address c.matches seen with
  | none =>
    rw [hfound] at h
    cases append_cancel_left h
  | some row =>
    rw [hfound] at h
    cases append_cancel_left h
    obtain ⟨hrow, hcond⟩ := filter_eq_some_iff.1 hfound
    refine ⟨row, hrow, of_decide_eq_true (Bool.and_eq_true_iff.1 hcond).2, rfl, ?_⟩
    exact (committed_put _ _ _ _).trans (if_pos rfl)

/-- Stored objects.  In a life of an address, from a create to the next deletion, the puts
make the versions 1, 2, 3, ... in turn, and nothing but these puts changes the object.  The
successful answers report these puts one by one, each with the step that commits it; a put
that succeeds has replaced the version that it expected.  No owner holds more than the
maximum.  A put or a delete of a player changes no object of another.  A player who is swept
has no object in any later state. -/
theorem objects_kept (h : system.Reachable TransitionSystem.anyStep w)
    (hrun : system.Reaches TransitionSystem.anyStep w w') :
    (∀ k a b c, w.data.story k = a ++ b ++ c → Begins a → .deleted ∉ b → b = life b.length) ∧
    (∀ k, w.data.answers.filterMap (Answer.puts k) = (w.data.story k).filter Event.isPut) ∧
    (∀ t a k, system.enabled w (t, a) → Moved w.data (system.effect w (t, a)).data k ∧
      Reported w.data (system.effect w (t, a)).data k) ∧
    (∀ t c seen v, system.enabled w (t, .casWrite c seen) →
      (system.effect w (t, .casWrite c seen)).data.answers =
        w.data.answers ++ [.swapped c (.ok v)] →
      ∃ row, w.data.objects.committed c.address = some row ∧ row.version = c.expectedVersion ∧
        v = row.version + 1 ∧ (system.effect w (t, .casWrite c seen)).data.objects.committed
          c.address = some (c.update row)) ∧
    (∀ p, w.data.held p ≤ maxObjectsPerOwner) ∧
    (∀ t a p k, system.enabled w (t, a) → (w.pc t).player = some p → k.owner ≠ p →
      (system.effect w (t, a)).data.objects.committed k = w.data.objects.committed k) ∧
    (∀ p k, Tombstone.Swept w.data.purged p → k.owner = p →
      w'.data.objects.committed k = none) := by
  refine ⟨?_, reported_reachable h, ?_, ?_, held_bounded h, ?_, ?_⟩
  · intro k _ _ _ hstory ha hb
    obtain ⟨_, htold⟩ := (told_reachable h k).before hstory
    exact (htold.last rfl ha hb).1
  · exact fun t a k en => ⟨moved_step en.2 (objects_before h en), reported_step en.2⟩
  · exact fun t c seen v en => casObject_answer
  · intro t a _ _ en hp hk
    rw [show w.pc t = (stmt t a).before from en.1] at hp
    exact player_step (objects_before h en) hp hk
  · intro p k hs hown
    by_contra hk
    exact (eraser_lawful.cleared (h.trans hrun)).swept p (tombs_kept.swept h hrun hs) k hown hk

def annId : Uuid := .filled 10

def ann : Uuid.Spelling where
  text := annId.text
  id := annId
  reads := by decide +kernel

/-- An object is created, replaced, deleted and created again, and its owner is purged. -/
def savedAndPurged : List (Sess × Act) :=
  let i : PutInput := ⟨some ann.text, "saves", "slot-1", "1", true, 0, ""⟩
  let c : Create := ⟨ann, "saves", "slot-1", "1", .aclPrivate⟩
  let s : Cas := ⟨ann, "saves", "slot-1", "2", 1, some .aclPublicRead⟩
  let r : Delete := ⟨ann, "saves", "slot-1"⟩
  let tomb := Tombstone.planted "ann"
  let sw : Sweep := { Sweep.first with claimed := [(ann.id, tomb)] }
  let swept : Sweep := ⟨[], [(ann.id, tomb)], [ann.id], [c.address]⟩
  [(0, .createOpen i c), (0, .lockOwner c), (0, .checkTombstone c), (0, .countObjects c),
    (0, .insertObject c), (0, .commit (.create c (.inserted 0)) [.created c (.ok 1)]),
    (1, .casOpen { i with value := "2", expectedVersion := 1, acl := "public_read" } s),
    (1, .casWrite s (some (c.row 0))),
    (2, .deleteOpen ⟨some ann.text, "saves", "slot-1"⟩ r),
    (2, .deleteWrite r (some (s.update (c.row 0)))),
    (0, .createOpen i c), (0, .lockOwner c), (0, .checkTombstone c),
    (3, .plant ann.id "ann"), (3, .commit (.planted (some (ann.id, tomb))) []),
    (4, .sweepOpen), (4, .sweepSelect .first),
    (0, .countObjects c), (0, .insertObject c),
    (0, .commit (.create c (.inserted 1)) [.created c (.ok 1)]),
    (4, .sweepLock sw ann.id tomb []),
    (4, .sweepDelete { sw with locked := [ann.id] } ann.id tomb []),
    (4, .sweepRow { sw with locked := [ann.id] } ann.id tomb [] [c.address] c.address),
    (4, .sweepStamp { sw with locked := [ann.id], removed := [c.address] } ann.id tomb [] true),
    (4, .commit (.sweep swept .finished) [])]

theorem objects_kept_purged :
    ∃ w k, system.Reachable TransitionSystem.anyStep w ∧
      w.data.story k = life 2 ++ [.deleted, .put 0 1, .deleted] ∧
      (∃ b, b = [.put 0 1, .put 1 2] ∧ b = life b.length) ∧
      w.data.answers.filterMap (Answer.puts k) = life 2 ++ life 1 ∧
      w.data.objects.committed k = none := by
  obtain ⟨w, hr, hf⟩ := TransitionSystem.exec_exhibits (T := system) TransitionSystem.anyStep
    savedAndPurged
    (f := fun w => decide (w.data.story ⟨ann.id, "saves", "slot-1"⟩ =
      [.put 0 1, .put 1 2, .deleted, .put 0 1, .deleted]) &&
      decide (Tombstone.Swept w.data.purged ann.id)) (by decide +kernel)
  obtain ⟨hstory, hswept⟩ := Bool.and_eq_true_iff.1 hf
  obtain ⟨hlives, hreported, -, -, -, -, hpurged⟩ := objects_kept hr (.refl w)
  have hstory := of_decide_eq_true hstory
  refine ⟨w, ⟨ann.id, "saves", "slot-1"⟩, hr, hstory, ⟨_, rfl, ?_⟩, ?_, ?_⟩
  · exact hlives _ [] [.put 0 1, .put 1 2] _ hstory (.inl rfl) (by decide)
  · exact (hreported _).trans (congrArg (filter Event.isPut) hstory)
  · exact hpurged ann.id _ (of_decide_eq_true hswept) rfl

end Kept

end Swarog.Storage
