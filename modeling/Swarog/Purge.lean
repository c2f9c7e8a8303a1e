import Swarog.Pg.Session
import Swarog.Pg.Uuid

/-!
# Tombstones of deleted players

Every service that keeps rows of players has a table `purged_players`.  The
delivery of `player.deleted` plants a tombstone there, and a scheduled sweep claims
the tombstones that are not stamped, erases the rows of their players and stamps
them.  The statements on the table are the same in all services.

A sweep holds the tombstones it has claimed and those it has stamped, and a
tombstone that is stamped stays so (`Tombstone.Step`).  `Eraser` is the argument that
a swept player has no rows left: as long as no row of a player appears while, or
after, a sweep erases the rows of that player.
-/

namespace Swarog

open Pg Table Programs List

/-- A row of `purged_players`; its key is the player id.  `swept` says whether
`swept_at` is set. -/
structure Tombstone where
  handle : String
  swept : Bool
deriving DecidableEq

namespace Tombstone

variable {T : Table Uuid Sess Tombstone} {t : Sess} {floor p : Uuid} {limit : Nat}
variable {row : Tombstone} {locked stamped : List (Uuid × Tombstone)}

/-- The tombstone that a delivery plants. -/
def planted (handle : String) : Tombstone := ⟨handle, false⟩

/-- The tombstone after its sweep. -/
def stamp (row : Tombstone) : Tombstone := { row with swept := true }

section Claims

/-- The tombstones that a sweep claims: the first `limit` by player id that are not
stamped and that no other transaction has locked, from `floor` on. -/
def due
    (T : Table Uuid Sess Tombstone)
    (t : Sess)
    (floor : Uuid)
    (limit : Nat) :
    List Uuid :=
  (((T.select t (fun p row => !row.swept && decide (floor.value ≤ p.value))).filter
    (fun p => T.Free t p)).insertionSort (fun p q => p.value ≤ q.value)).take limit

/-- The claimed tombstones with their rows. -/
def claims
    (T : Table Uuid Sess Tombstone)
    (t : Sess)
    (floor : Uuid)
    (limit : Nat) :
    List (Uuid × Tombstone) :=
  (due T t floor limit).filterMap (fun p => (T.view t p).map (fun row => (p, row)))

theorem mem_claims (h : (p, row) ∈ claims T t floor limit) :
    T.Free t p ∧ T.view t p = some row ∧ row.swept = false := by
  obtain ⟨_, hq, hrow⟩ := mem_filterMap.1 h
  obtain ⟨_, hview, heq⟩ := Option.map_eq_some_iff.1 hrow
  cases heq
  have hmem := (mem_insertionSort _).1 (mem_of_mem_take hq)
  obtain ⟨hsel, hfree⟩ := mem_filter.1 hmem
  obtain ⟨_, hrow'', hcond⟩ := mem_select.1 hsel
  rw [hview] at hrow''
  cases hrow''
  simp only [Bool.and_eq_true, Bool.not_eq_true'] at hcond
  exact ⟨of_decide_eq_true hfree, hview, hcond.1⟩

theorem nodup_claims : ((claims T t floor limit).map Prod.fst).Nodup := by
  have hdue : (due T t floor limit).Nodup := by
    refine (take_sublist _ _).nodup ?_
    exact (perm_insertionSort _ _).nodup_iff.2 ((T.nodup.filter _).filter _)
  unfold claims
  rw [map_filterMap]
  refine List.Nodup.filterMap ?_ hdue
  have hfst : ∀ q b, b ∈ ((T.view t q).map (fun row => (q, row))).map Prod.fst → b = q := by
    intro _ _ hb
    simp only [Option.map_map, Option.mem_def, Option.map_eq_some_iff] at hb
    obtain ⟨_, -, rfl⟩ := hb
    rfl
  intro q q' b hb hb'
  exact (hfst q b hb).symm.trans (hfst q' b hb')

end Claims

section Held

/-- The tombstones that a sweep has locked and those that it has stamped. -/
def held (locked stamped : List (Uuid × Tombstone)) : Holding Uuid Tombstone :=
  .writing (locked.map (fun c => Write.update c.1 c.2 c.2) ++
    stamped.map (fun c => Write.update c.1 c.2 c.2.stamp))

theorem mem_held {w : Write Uuid Tombstone} :
    w ∈ (held locked stamped).writes ↔
      (∃ c ∈ locked, Write.update c.1 c.2 c.2 = w) ∨
        ∃ c ∈ stamped, Write.update c.1 c.2 c.2.stamp = w := by
  simp only [held, Holding.writing, mem_append, mem_map]

/-- A claimed tombstone is committed as it was seen. -/
theorem committed_of_claim
    (h : T.Owes t (held locked stamped))
    (hc : (p, row) ∈ claims T t floor limit) :
    T.committed p = some row := by
  obtain ⟨-, hview, hunswept⟩ := mem_claims hc
  rcases T.view_cases t p with ⟨v, hv, heq⟩ | ⟨-, heq⟩ <;> rw [heq] at hview
  · rcases h.only p v hv with ⟨w, hw, hkey, hrow⟩ | ⟨-, _, -, hdoom⟩
    · have hbase := h.based w hw
      rcases mem_held.1 hw with ⟨_, -, rfl⟩ | ⟨_, -, rfl⟩
      · cases hkey
        cases hrow.trans hview
        exact hbase
      · cases hrow.trans hview
        cases hunswept
    · exact hdoom.elim
  · exact hview

/-- The selection of a sweep. -/
theorem owes_claims (h : T.Owes t (held locked stamped)) :
    (T.lockAll t ((claims T t floor limit).map Prod.fst)).Owes t
      (held (claims T t floor limit ++ locked) stamped) := by
  have hall := h.writeAll (f := T.view t) ((claims T t floor limit).map Prod.fst)
    ((claims T t floor limit).map (fun c => Write.update c.1 c.2 c.2)) ?_ ?_
    (fun w hw _ => view_of_pending_self (h.held w hw)) ?_
  · refine hall.reorder _ ?_
    intro _
    simp only [held, Holding.writing, map_append, mem_append]
    tauto
  · intro _
    constructor
    · intro hq
      obtain ⟨c, hc, rfl⟩ := mem_map.1 hq
      exact ⟨_, mem_map.2 ⟨c, hc, rfl⟩, rfl⟩
    · rintro ⟨_, hw, rfl⟩
      obtain ⟨c, hc, rfl⟩ := mem_map.1 hw
      exact mem_map.2 ⟨c, hc, rfl⟩
  · intro _ hw
    obtain ⟨_, hc, rfl⟩ := mem_map.1 hw
    exact (mem_claims hc).2.1.symm
  · intro _ hw
    obtain ⟨_, hc, rfl⟩ := mem_map.1 hw
    exact committed_of_claim h hc

/-- The stamp of a locked tombstone. -/
theorem owes_stamp
    {locked' : List (Uuid × Tombstone)}
    (h : T.Owes t (held locked stamped))
    (hp : (p, row) ∈ locked)
    (hlocked : ∀ c, c ∈ locked' ↔ c ∈ locked ∧ c.1 ≠ p) :
    (T.write t p (some row.stamp)).Owes t (held locked' (stamped ++ [(p, row)])) := by
  have hbase : T.committed p = some row :=
    h.based (Write.update p row row) (mem_held.2 (.inl ⟨_, hp, rfl⟩))
  refine h.rewrite (Write.update p row row.stamp)
    (held locked' (stamped ++ [(p, row)])).writes ?_ hbase ?_ ?_
  · exact mem_held.2 (.inr ⟨(p, row), by simp, rfl⟩)
  · intro _ hw
    rcases mem_held.1 hw with ⟨c, hc, rfl⟩ | ⟨c, hc, rfl⟩
    · obtain ⟨hmem, hne⟩ := (hlocked c).1 hc
      exact .inr ⟨hne, mem_held.2 (.inl ⟨c, hmem, rfl⟩)⟩
    · rcases mem_append.1 hc with hc | hc
      · have hmem : Write.update c.1 c.2 c.2.stamp ∈ (held locked stamped).writes :=
          mem_held.2 (.inr ⟨c, hc, rfl⟩)
        by_cases hkey : c.1 = p
        · have hbase' : T.committed c.1 = some c.2 := h.based _ hmem
          rw [hkey, hbase] at hbase'
          cases hbase'
          exact .inl (hkey ▸ rfl)
        · exact .inr ⟨hkey, hmem⟩
      · cases mem_singleton.1 hc
        exact .inl rfl
  · intro _ hw hkey
    rcases mem_held.1 hw with ⟨c, hc, rfl⟩ | ⟨c, hc, rfl⟩
    · exact mem_held.2 (.inl ⟨c, (hlocked c).2 ⟨hc, hkey⟩, rfl⟩)
    · exact mem_held.2 (.inr ⟨c, mem_append_left _ hc, rfl⟩)

end Held

section Steps

/-- What an open transaction has done to the tombstones: nothing, planted one, or
claimed some in a sweep, of which `todo` are still to be swept, others were skipped
and others are stamped. -/
inductive Hold
  | nothing
  | planted (p : Uuid) (row : Tombstone)
  | sweep (todo skipped stamped : List (Uuid × Tombstone))

namespace Hold

def holding : Hold → Holding Uuid Tombstone
  | .nothing => .nothing
  | .planted p row => .writing [Write.insert p row]
  | .sweep todo skipped stamped => held (todo ++ skipped) stamped

/-- A planted tombstone is not stamped, and a sweep has no player to sweep twice. -/
def Tidy : Hold → Prop
  | .planted _ row => row.swept = false
  | .sweep todo _ _ => (todo.map Prod.fst).Nodup
  | .nothing => True

/-- The players that the transaction has stamped. -/
def stamps : Hold → List Uuid
  | .sweep _ _ stamped => stamped.map Prod.fst
  | _ => []

end Hold

/-- What a statement of a session does to the tombstones. -/
inductive Step (t : Sess) (T : Table Uuid Sess Tombstone) :
    Hold → Table Uuid Sess Tombstone → Hold → Prop
  | same (h : Hold) : Step t T h T h
  | plant (p : Uuid) (handle : String)
      (hfree : T.Free t p)
      (hnone : T.committed p = none) :
      Step t T .nothing (T.write t p (some (.planted handle))) (.planted p (.planted handle))
  | opening : Step t T .nothing T (.sweep [] [] [])
  | claim (floor : Uuid) (limit : Nat) (skipped stamped : List (Uuid × Tombstone)) :
      Step t T (.sweep [] skipped stamped)
        (T.lockAll t ((claims T t floor limit).map Prod.fst))
        (.sweep (claims T t floor limit) skipped stamped)
  | skip (p : Uuid) (row : Tombstone) (rest skipped stamped : List (Uuid × Tombstone)) :
      Step t T (.sweep ((p, row) :: rest) skipped stamped) T
        (.sweep rest ((p, row) :: skipped) stamped)
  | stamp (p : Uuid) (row : Tombstone) (rest skipped stamped : List (Uuid × Tombstone)) :
      Step t T (.sweep ((p, row) :: rest) skipped stamped) (T.write t p (some row.stamp))
        (.sweep rest (skipped.filter (fun c => c.1 ≠ p)) (stamped ++ [(p, row)]))
  | commit (h : Hold) : Step t T h (T.commit t) .nothing
  | rollback (h : Hold) : Step t T h (T.rollback t) .nothing

variable {T' : Table Uuid Sess Tombstone} {h h' : Hold}

/-- The claimed tombstones that are left when the first one is stamped. -/
theorem mem_locked_rest
    {rest skipped : List (Uuid × Tombstone)}
    (hn : (((p, row) :: rest).map Prod.fst).Nodup)
    (c : Uuid × Tombstone) :
    c ∈ rest ++ skipped.filter (fun c => c.1 ≠ p) ↔
      c ∈ (p, row) :: rest ++ skipped ∧ c.1 ≠ p := by
  have hrest : c ∈ rest → c.1 ≠ p := by
    intro hc he
    exact (nodup_cons.1 hn).1 (mem_map.2 ⟨c, hc, he⟩)
  simp only [cons_append, mem_cons, mem_append, mem_filter, decide_eq_true_eq]
  constructor
  · rintro (hc | ⟨hc, hne⟩)
    · exact ⟨.inr (.inl hc), hrest hc⟩
    · exact ⟨.inr (.inr hc), hne⟩
  · rintro ⟨rfl | hc | hc, hne⟩
    · exact absurd rfl hne
    · exact .inl hc
    · exact .inr ⟨hc, hne⟩

theorem Step.tidy (hs : Step t T h T' h') (htidy : h.Tidy) : h'.Tidy := by
  cases hs with
  | same => exact htidy
  | plant => rfl
  | claim => exact nodup_claims
  | opening => exact nodup_nil
  | skip | stamp => exact (nodup_cons.1 htidy).2
  | commit | rollback => exact trivial

theorem Step.owes
    (hs : Step t T h T' h')
    (htidy : h.Tidy)
    (ho : T.Owes t h.holding) :
    T'.Owes t h'.holding := by
  cases hs with
  | same | opening => exact ho
  | plant _ _ _ hnone =>
    refine ho.insert ?_ hnone
    intro _ hw
    cases hw
  | claim => exact owes_claims ho
  | skip =>
    refine Owes.reorder ho (held _ _).writes ?_
    intro w
    simp only [Hold.holding, held, Holding.writing, map_append, map_cons, mem_append, mem_cons]
    tauto
  | stamp => exact owes_stamp ho mem_cons_self (mem_locked_rest htidy)
  | commit => exact owes_commit _ _
  | rollback => exact owes_rollback _ _

theorem Step.table
    (hs : Step t T h T' h')
    (ho : T.Owes t h.holding) :
    Table.Step T (some t) T' := by
  cases hs with
  | same | opening | skip => exact .same _
  | plant p _ hfree => exact .write t p _ hfree
  | claim =>
    refine .writeAll t _ _ ?_
    intro _ hp
    obtain ⟨_, hc, rfl⟩ := mem_map.1 hp
    exact (mem_claims hc).1
  | stamp p row =>
    refine .write t p _ (free_of_pending_self (v := some row) ?_)
    exact ho.held (Write.update p row row) (mem_held.2 (.inl ⟨_, mem_cons_self, rfl⟩))
  | commit => exact .commit t
  | rollback => exact .rollback t

/-- A sweep holds the tombstones that it has stamped. -/
theorem pending_of_stamps
    (ho : T.Owes t h.holding)
    (hp : p ∈ h.stamps) :
    ∃ v, T.pending p = some (t, v) := by
  cases h with
  | nothing | planted => cases hp
  | sweep =>
    obtain ⟨c, hc, rfl⟩ := mem_map.1 hp
    exact ⟨_, ho.held _ (mem_held.2 (.inr ⟨c, hc, rfl⟩))⟩

/-- A sweep holds the tombstones that it has claimed. -/
theorem pending_of_todo
    {todo skipped : List (Uuid × Tombstone)}
    (ho : T.Owes t (Hold.sweep todo skipped stamped).holding)
    (hp : (p, row) ∈ todo) :
    T.pending p = some (t, some row) :=
  ho.held (Write.update p row row)
    (mem_held.2 (.inl ⟨_, mem_append_left _ hp, rfl⟩))

theorem committed_of_todo
    {todo skipped : List (Uuid × Tombstone)}
    (ho : T.Owes t (Hold.sweep todo skipped stamped).holding)
    (hp : (p, row) ∈ todo) :
    T.committed p = some row :=
  ho.based (Write.update p row row) (mem_held.2 (.inl ⟨_, mem_append_left _ hp, rfl⟩))

/-- The tombstones that a sweep has stamped are committed. -/
theorem committed_of_stamps
    (ho : T.Owes t h.holding)
    (hp : p ∈ h.stamps) :
    T.committed p ≠ none := by
  cases h with
  | nothing | planted => cases hp
  | sweep =>
    obtain ⟨c, hc, rfl⟩ := mem_map.1 hp
    rw [show T.committed c.1 = some c.2 from ho.based _ (mem_held.2 (.inr ⟨c, hc, rfl⟩))]
    exact Option.some_ne_none _

/-- The tombstones of a service, and what its sessions hold of them. -/
structure Kept
    {D P A : Type}
    (X : Programs D P A)
    (purged : D → Table Uuid Sess Tombstone)
    (hold : P → Hold) :
    Prop where
  start : purged X.data = Table.empty
  idle : hold X.idle = .nothing
  step : ∀ t a d, (X.stmt t a).guard d →
    Step t (purged d) (hold (X.stmt t a).before) (purged ((X.stmt t a).change d))
      (hold ((X.stmt t a).after d))

section Kept

variable {D P A : Type} {X : Programs D P A} {G : World D P → Sess × A → Prop} {w : World D P}
variable {purged : D → Table Uuid Sess Tombstone} {hold : P → Hold}

/-- The sessions hold the tombstones that they have planted, claimed or stamped. -/
theorem Kept.held
    (K : Kept X purged hold)
    (hr : X.system.Reachable G w) :
    ∀ t, (purged w.data).Owes t (hold (w.pc t)).holding ∧ (hold (w.pc t)).Tidy := by
  refine (joint_invariant (X := X) (I := fun _ => True)
    (L := fun d t pc => (purged d).Owes t (hold pc).holding ∧ (hold pc).Tidy) trivial ?_ ?_ hr).2
  · intro t
    rw [K.start, K.idle]
    exact ⟨owes_empty t, trivial⟩
  intro w t a _ _ en _ hI ht
  have hs := K.step t a w.data en.2
  refine ⟨trivial, ⟨hs.owes ht.2 ht.1, hs.tidy ht.2⟩, fun u hu => ⟨?_, (hI u).2⟩⟩
  exact (hI u).1.of_undisturbed ((hs.table ht.1).undisturbed (by simpa using Ne.symm hu))

end Kept

end Steps

section Swept

variable {h h' : Hold} {T' : Table Uuid Sess Tombstone}

/-- The committed tombstone of `p` is stamped. -/
def Swept (T : Table Uuid Sess Tombstone) (p : Uuid) : Prop :=
  ∃ row, T.committed p = some row ∧ row.swept = true

instance (T : Table Uuid Sess Tombstone) (p : Uuid) : Decidable (Swept T p) :=
  decidable_of_iff ((T.committed p).any Tombstone.swept = true) (Option.any_eq_true _ _)

theorem not_swept_empty : ¬ Swept Table.empty p := by
  rintro ⟨_, hrow, -⟩
  cases hrow

/-- The players that become swept with a `COMMIT` are those that the transaction has
stamped. -/
theorem swept_of_commit
    (ho : T.Owes t h.holding)
    (htidy : h.Tidy)
    (hs : Swept (T.commit t) p) :
    Swept T p ∨ p ∈ h.stamps := by
  obtain ⟨row, hrow, hswept⟩ := hs
  refine ho.commit_elim (k := p) (P := fun v => v = some row → Swept T p ∨ p ∈ h.stamps) ?_ ?_
    (fun hv => .inl ⟨row, hv, hswept⟩) hrow
  · intro w hw hkey hbase hv
    cases h with
    | nothing => cases hw
    | planted =>
      cases mem_singleton.1 hw
      cases hv
      exact absurd hswept (by rw [show row.swept = false from htidy]; decide)
    | sweep =>
      rcases mem_held.1 hw with ⟨c, hc, rfl⟩ | ⟨c, hc, rfl⟩
      · cases hv
        exact .inl ⟨c.2, hbase, hswept⟩
      · cases hkey
        exact .inr (mem_map_of_mem hc)
  · intro r hr hd
    cases h <;> exact hd.elim

/-- A stamped tombstone stays stamped. -/
theorem Swept.step
    (hs : Step t T h T' h')
    (ho : T.Owes t h.holding)
    (hp : Swept T p) :
    Swept T' p := by
  obtain ⟨row, hrow, hswept⟩ := hp
  cases hs with
  | same | opening | skip => exact ⟨row, hrow, hswept⟩
  | plant | stamp => exact ⟨row, (committed_write _ _ _ _ _).trans hrow, hswept⟩
  | claim => exact ⟨row, (committed_lockAll _ _ _ _).trans hrow, hswept⟩
  | rollback => exact ⟨row, (committed_rollback _ _ _).trans hrow, hswept⟩
  | commit =>
    refine ho.commit_elim (k := p) (P := fun v => ∃ row, v = some row ∧ row.swept = true) ?_ ?_
      ⟨row, hrow, hswept⟩
    · intro _ hw _ hbase
      cases h with
      | nothing => cases hw
      | planted =>
        cases mem_singleton.1 hw
        rw [hrow] at hbase
        cases hbase
      | sweep =>
        rcases mem_held.1 hw with ⟨c, -, rfl⟩ | ⟨c, -, rfl⟩
        · rw [hrow] at hbase
          cases hbase
          exact ⟨c.2, rfl, hswept⟩
        · exact ⟨_, rfl, rfl⟩
    · intro _ _ hd
      cases h <;> exact hd.elim

/-- A swept player stays swept. -/
theorem Kept.swept
    {D P A : Type}
    {X : Programs D P A}
    {G : World D P → Sess × A → Prop}
    {w w' : World D P}
    {purged : D → Table Uuid Sess Tombstone}
    {hold : P → Hold}
    (K : Kept X purged hold)
    (h : X.system.Reachable G w)
    (hrun : X.system.Reaches G w w')
    (hs : Swept (purged w.data) p) :
    Swept (purged w'.data) p := by
  induction hrun with
  | refl => exact hs
  | tail b run _ en ih =>
    have htombs := (K.held (h.trans run) b.1).1
    rw [show _ = (X.stmt b.1 b.2).before from en.1] at htombs
    exact ih.step (K.step b.1 b.2 _ en.2) htombs

end Swept

end Tombstone

section Erasure

variable {D P A κ : Type}

/-- How a service erases the rows of purged players: the rows and whose they are, the
players that are swept, the player whose rows a session is erasing, with the rows it
has still to reach, the players that it has stamped and the rows that it has deleted
in the open transaction, and the players for whom it has rows to add. -/
structure Eraser (D P κ : Type) where
  present : D → κ → Prop
  own : Uuid → κ → Prop
  swept : D → Uuid → Prop
  erasing : P → Option (Uuid × List κ)
  stamped : P → Uuid → Prop
  deleted : P → κ → Prop
  adding : P → Uuid → Prop

namespace Eraser

/-- Somebody is erasing the rows of `p`, or they are erased. -/
def Erasing (E : Eraser D P κ) (w : World D P) (p : Uuid) : Prop :=
  E.swept w.data p ∨ ∃ t, E.stamped (w.pc t) p ∨ ∃ todo, E.erasing (w.pc t) = some (p, todo)

/-- What the statements have to satisfy; `starts t a d p` says that the
statement `a` of `t` is the start of an erasure of the rows of `p`. -/
structure Lawful
    (E : Eraser D P κ)
    (X : Programs D P A)
    (G : World D P → Sess × A → Prop)
    (starts : Sess → A → D → Uuid → Prop) :
    Prop where
  none_swept : ∀ p, ¬ E.swept X.data p
  idle : E.erasing X.idle = none ∧ (∀ p, ¬ E.stamped X.idle p) ∧ ∀ p, ¬ E.adding X.idle p
  begins : ∀ t a d p todo, (X.stmt t a).guard d →
    E.erasing ((X.stmt t a).after d) = some (p, todo) →
      (∃ todo', E.erasing (X.stmt t a).before = some (p, todo')) ∨ starts t a d p
  erases : ∀ w t a p todo k, X.system.Reachable G w → X.enabled w (t, a) →
    E.erasing ((X.stmt t a).after w.data) = some (p, todo) → E.own p k →
      E.present ((X.stmt t a).change w.data) k →
        (∀ todo', E.erasing (X.stmt t a).before = some (p, todo') →
          k ∈ todo' ∨ E.deleted (X.stmt t a).before k) →
            k ∈ todo ∨ E.deleted ((X.stmt t a).after w.data) k
  stamps : ∀ t a d p, (X.stmt t a).guard d → E.stamped ((X.stmt t a).after d) p →
    (E.stamped (X.stmt t a).before p ∨ E.erasing (X.stmt t a).before = some (p, [])) ∧
      ∀ k, E.deleted (X.stmt t a).before k → E.deleted ((X.stmt t a).after d) k
  sweeps : ∀ w t a p, X.system.Reachable G w → X.enabled w (t, a) →
    E.swept ((X.stmt t a).change w.data) p →
      E.swept w.data p ∨ (E.stamped (X.stmt t a).before p ∧
        ∀ k, E.deleted (X.stmt t a).before k → ¬ E.present ((X.stmt t a).change w.data) k)
  adds : ∀ w t a p, X.system.Reachable G w → G w (t, a) → X.enabled w (t, a) →
    E.adding ((X.stmt t a).after w.data) p →
      E.adding (X.stmt t a).before p ∨ (¬ E.Erasing w p ∧ ¬ starts t a w.data p)
  alone : ∀ w t a p, X.system.Reachable G w → G w (t, a) → X.enabled w (t, a) →
    starts t a w.data p → ∀ u, ¬ E.adding (w.pc u) p
  added : ∀ w t a p k, X.system.Reachable G w → X.enabled w (t, a) → E.own p k →
    E.present ((X.stmt t a).change w.data) k → E.present w.data k ∨ E.adding (X.stmt t a).before p

variable {E : Eraser D P κ} {X : Programs D P A} {G : World D P → Sess × A → Prop}
variable {starts : Sess → A → D → Uuid → Prop} {w : World D P} {t : Sess} {a : A} {p : Uuid}

/-- A step that brings a player under erasure is a start. -/
theorem Lawful.erasing_back
    (L : E.Lawful X G starts)
    (h : X.system.Reachable G w)
    (en : X.enabled w (t, a))
    (he : E.Erasing (X.effect w (t, a)) p) :
    E.Erasing w p ∨ starts t a w.data p := by
  have hpc : w.pc t = (X.stmt t a).before := en.1
  rcases he with hs | ⟨u, hu⟩
  · refine .inl ((L.sweeps w t a p h en hs).imp_right ?_)
    rintro ⟨hst, -⟩
    exact ⟨t, .inl (hpc ▸ hst)⟩
  · by_cases hut : u = t
    · subst hut
      rw [pc_own] at hu
      rcases hu with hst | ⟨todo, her⟩
      · rcases (L.stamps u a w.data p en.2 hst).1 with hold | her
        · exact .inl (.inr ⟨u, .inl (hpc ▸ hold)⟩)
        · exact .inl (.inr ⟨u, .inr ⟨[], hpc ▸ her⟩⟩)
      · refine (L.begins u a w.data p todo en.2 her).imp_left ?_
        rintro ⟨todo', hold⟩
        exact .inr ⟨u, .inr ⟨todo', hpc ▸ hold⟩⟩
    · rw [pc_other hut] at hu
      exact .inl (.inr ⟨u, hu⟩)

/-- Nobody adds rows of a player under erasure. -/
theorem Lawful.adding_apart
    (L : E.Lawful X G starts)
    (h : X.system.Reachable G w) :
    ∀ t p, E.adding (w.pc t) p → ¬ E.Erasing w p := by
  refine h.invariant ?_ ?_
  · intro _ p hadd
    exact absurd hadd (L.idle.2.2 p)
  rintro w ⟨t, a⟩ hr hI hG en u p hadd he
  have hback := L.erasing_back hr en he
  have hold : E.adding (w.pc u) p ∨ (¬ E.Erasing w p ∧ ¬ starts t a w.data p) := by
    by_cases hut : u = t
    · subst hut
      rw [show (X.system.effect w (u, a)).pc u = _ from pc_own] at hadd
      rw [show w.pc u = _ from en.1]
      exact L.adds w u a p hr hG en hadd
    · rw [show (X.system.effect w (t, a)).pc u = _ from pc_other hut] at hadd
      exact .inl hadd
  rcases hold with hold | ⟨hne, hns⟩
  · exact hback.elim (hI u p hold) (fun hs => L.alone w t a p hr hG en hs u hold)
  · exact hback.elim hne hns

/-- What the sweeps have achieved. -/
structure Cleared (E : Eraser D P κ) (w : World D P) : Prop where
  erasing : ∀ t p todo, E.erasing (w.pc t) = some (p, todo) →
    ∀ k, E.own p k → E.present w.data k → k ∈ todo ∨ E.deleted (w.pc t) k
  stamped : ∀ t p, E.stamped (w.pc t) p → ∀ k, E.own p k → E.present w.data k → E.deleted (w.pc t) k
  swept : ∀ p, E.swept w.data p → ∀ k, E.own p k → ¬ E.present w.data k

/-- A swept player has no rows. -/
theorem Lawful.cleared
    (L : E.Lawful X G starts)
    (h : X.system.Reachable G w) :
    E.Cleared w := by
  refine h.invariant ?_ ?_
  · refine ⟨?_, ?_, ?_⟩
    · intro _ _ _ he
      exact absurd (L.idle.1.symm.trans he) (Option.some_ne_none _).symm
    · intro _ p he
      exact absurd he (L.idle.2.1 p)
    · intro p he
      exact absurd he (L.none_swept p)
  rintro w ⟨t, a⟩ hr hI - en
  have hpc : w.pc t = (X.stmt t a).before := en.1
  -- the step has not brought a row of a player under erasure
  have hback : ∀ p k, E.Erasing w p → E.own p k →
      E.present (X.system.effect w (t, a)).data k → E.present w.data k := by
    intro p k he hown hk
    refine (L.added w t a p k hr en hown hk).resolve_right ?_
    intro hadd
    exact L.adding_apart hr t p (hpc ▸ hadd) he
  refine ⟨?_, ?_, ?_⟩
  · refine pc_effect (fun _ pc => ∀ p todo, E.erasing pc = some (p, todo) → ∀ k,
      E.own p k → E.present _ k → k ∈ todo ∨ E.deleted pc k) ?_ ?_
    · intro p todo he k hown hk
      refine L.erases w t a p todo k hr en he hown hk ?_
      intro todo' hb
      rw [← hpc] at hb ⊢
      exact hI.erasing t p todo' hb k hown (hback p k (.inr ⟨t, .inr ⟨todo', hb⟩⟩) hown hk)
    · intro u _ p todo he k hown hk
      exact hI.erasing u p todo he k hown (hback p k (.inr ⟨u, .inr ⟨todo, he⟩⟩) hown hk)
  · refine pc_effect (fun _ pc => ∀ p, E.stamped pc p → ∀ k, E.own p k →
      E.present _ k → E.deleted pc k) ?_ ?_
    · intro p he k hown hk
      obtain ⟨hbefore, hkeep⟩ := L.stamps t a w.data p en.2 he
      refine hkeep k ?_
      rw [← hpc] at hbefore ⊢
      rcases hbefore with hb | hb
      · exact hI.stamped t p hb k hown (hback p k (.inr ⟨t, .inl hb⟩) hown hk)
      · have hk' := hback p k (.inr ⟨t, .inr ⟨[], hb⟩⟩) hown hk
        exact (hI.erasing t p [] hb k hown hk').resolve_left not_mem_nil
    · intro u _ p he k hown hk
      exact hI.stamped u p he k hown (hback p k (.inr ⟨u, .inl he⟩) hown hk)
  · intro p he k hown hk
    rcases L.sweeps w t a p hr en he with hold | ⟨hst, hgone⟩
    · exact hI.swept p hold k hown (hback p k (.inl hold) hown hk)
    · rw [← hpc] at hst hgone
      exact hgone k (hI.stamped t p hst k hown (hback p k (.inr ⟨t, .inl hst⟩) hown hk)) hk

end Eraser

end Erasure

end Swarog
