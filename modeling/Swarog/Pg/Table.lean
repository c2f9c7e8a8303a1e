import Mathlib

/-!
# Tables under READ COMMITTED

A row slot has a committed version and at most one pending version.  A pending
version belongs to the transaction that holds the row lock: it is what that
transaction's own statements read, and it replaces the committed version when
the transaction commits.  Every other transaction keeps reading the committed
version, and a statement of another transaction that needs the row lock waits.

* an `UPDATE` or `SELECT ... FOR UPDATE` of a row is a `write` of its new (or
  unchanged) version;
* a `DELETE` is a `write` of no version;
* an `INSERT` under a unique key is a `write` into the slot of that key; it
  waits while another transaction holds the slot, exactly as Postgres waits for
  the transaction that inserted a conflicting key.

A table is a finite family of slots.  The keys that were ever touched are
listed, so that scans are computable; a slot outside the list is empty.
-/

namespace Swarog.Pg

/-- One row slot: the committed version and the pending version of the
transaction that holds the row lock. -/
structure Cell (τ ρ : Type) where
  committed : Option ρ
  pending : Option (τ × Option ρ)

namespace Cell

variable {τ ρ : Type}

/-- A slot no transaction ever wrote. -/
def empty : Cell τ ρ := ⟨none, none⟩

variable [DecidableEq τ] {c : Cell τ ρ}

/-- The version a statement of `t` reads. -/
def view (c : Cell τ ρ) (t : τ) : Option ρ :=
  match c.pending with
  | none => c.committed
  | some (u, v) => if u = t then v else c.committed

/-- The row lock can be taken by `t`: nobody else holds it. -/
def Free (c : Cell τ ρ) (t : τ) : Prop := ∀ u v, c.pending = some (u, v) → u = t

instance (c : Cell τ ρ) (t : τ) : Decidable (c.Free t) :=
  match h : c.pending with
  | none => isTrue (by intro u v hp; rw [h] at hp; cases hp)
  | some (u, v) =>
    if hu : u = t then
      isTrue (by
        intro _ _ hp
        rw [h] at hp
        cases hp
        exact hu)
    else
      isFalse (fun hf => hu (hf u v h))

/-- Take the row lock and leave `v` as the pending version. -/
def write (t : τ) (v : Option ρ) (c : Cell τ ρ) : Cell τ ρ := { c with pending := some (t, v) }

/-- End of the transaction `t`: release its lock, keeping `v` as committed. -/
def release (t : τ) (v : Option ρ) (c : Cell τ ρ) : Cell τ ρ :=
  match c.pending with
  | none => c
  | some (u, _) => if u = t then ⟨v, none⟩ else c

def commit (t : τ) (c : Cell τ ρ) : Cell τ ρ := c.release t (c.view t)

def rollback (t : τ) (c : Cell τ ρ) : Cell τ ρ := c.release t c.committed

theorem view_of_pending_none
    {t : τ}
    (h : c.pending = none) :
    c.view t = c.committed := by
  simp [view, h]

theorem view_of_pending_self
    {t : τ}
    {v : Option ρ}
    (h : c.pending = some (t, v)) :
    c.view t = v := by
  simp [view, h]

theorem view_of_pending_other
    {t u : τ}
    {v : Option ρ}
    (h : c.pending = some (u, v))
    (hu : u ≠ t) :
    c.view t = c.committed := by
  simp [view, h, hu]

@[simp] theorem committed_commit (t : τ) (c : Cell τ ρ) : (c.commit t).committed = c.view t := by
  cases hp : c.pending with
  | none => simp [commit, release, view, hp]
  | some p =>
    obtain ⟨u, _⟩ := p
    by_cases hu : u = t <;> simp [commit, release, view, hp, hu]

@[simp] theorem committed_rollback (t : τ) (c : Cell τ ρ) :
    (c.rollback t).committed = c.committed := by
  cases hp : c.pending with
  | none => simp [rollback, release, hp]
  | some p =>
    obtain ⟨u, _⟩ := p
    by_cases hu : u = t <;> simp [rollback, release, hp, hu]

/-- After `t` released its locks, the remaining pending versions are exactly
those of the other transactions. -/
theorem pending_release
    (t : τ)
    (v : Option ρ)
    (c : Cell τ ρ)
    (u : τ)
    (w : Option ρ) :
    (c.release t v).pending = some (u, w)
      ↔
    c.pending = some (u, w) ∧ u ≠ t := by
  cases hp : c.pending with
  | none => simp [release, hp]
  | some p =>
    obtain ⟨u', _⟩ := p
    by_cases hu : u' = t
    · subst hu
      simp only [release, hp, if_true, Option.some.injEq, Prod.mk.injEq]
      constructor
      · intro h
        cases h
      · rintro ⟨⟨rfl, _⟩, hne⟩
        exact absurd rfl hne
    · simp only [release, hp, hu, if_false, Option.some.injEq, Prod.mk.injEq]
      constructor
      · rintro ⟨rfl, rfl⟩
        exact ⟨⟨rfl, rfl⟩, hu⟩
      · exact fun h => h.1

end Cell

/-- A table: finitely many touched slots, all others empty. -/
structure Table (κ τ ρ : Type) where
  keys : List κ
  nodup : keys.Nodup
  cell : κ → Cell τ ρ
  support : ∀ k, k ∉ keys → cell k = Cell.empty

namespace Table

variable {κ τ ρ : Type} {T T' : Table κ τ ρ} {k k' : κ}

/-- The table without rows. -/
def empty : Table κ τ ρ where
  keys := []
  nodup := List.nodup_nil
  cell := fun _ => Cell.empty
  support := fun _ _ => rfl

/-- The committed row under a key. -/
def committed (T : Table κ τ ρ) (k : κ) : Option ρ := (T.cell k).committed

/-- The pending version under a key, with the transaction holding the lock. -/
def pending (T : Table κ τ ρ) (k : κ) : Option (τ × Option ρ) := (T.cell k).pending

/-- The committed rows, in the order in which their keys were first touched. -/
def rows (T : Table κ τ ρ) : List (κ × ρ) :=
  T.keys.filterMap (fun k => (T.committed k).map (fun r => (k, r)))

@[simp] theorem committed_empty
    (k : κ) :
    (empty : Table κ τ ρ).committed k = none := rfl

@[simp] theorem pending_empty
    (k : κ) :
    (empty : Table κ τ ρ).pending k = none := rfl

theorem mem_keys_of_committed
    {r : ρ}
    (h : T.committed k = some r) :
    k ∈ T.keys := by
  by_contra hk
  have hcell := T.support k hk
  simp [committed, hcell, Cell.empty] at h

theorem mem_rows {r : ρ} : (k, r) ∈ T.rows ↔ T.committed k = some r := by
  simp only [rows, List.mem_filterMap, Option.map_eq_some_iff, Prod.mk.injEq]
  constructor
  · rintro ⟨_, _, _, hr', rfl, rfl⟩
    exact hr'
  · intro h
    exact ⟨k, mem_keys_of_committed h, r, h, rfl, rfl⟩

theorem committed_of_rows_nil (h : T.rows = []) (k : κ) : T.committed k = none := by
  cases hk : T.committed k with
  | none => rfl
  | some =>
    have hmem := mem_rows.2 hk
    rw [h] at hmem
    cases hmem

theorem nodup_rows (T : Table κ τ ρ) : T.rows.Nodup := by
  refine List.Nodup.filterMap ?_ T.nodup
  intro _ _ _ hp hp'
  simp only [Option.mem_def, Option.map_eq_some_iff] at hp hp'
  obtain ⟨_, _, rfl⟩ := hp
  obtain ⟨_, _, h⟩ := hp'
  exact (congrArg Prod.fst h).symm

variable [DecidableEq κ] [DecidableEq τ] {t u : τ} {v : Option ρ}

/-- The row a statement of `t` reads under a key. -/
def view (T : Table κ τ ρ) (t : τ) (k : κ) : Option ρ := (T.cell k).view t

/-- The row lock under `k` can be taken by `t`. -/
def Free (T : Table κ τ ρ) (t : τ) (k : κ) : Prop := (T.cell k).Free t

instance (T : Table κ τ ρ) (t : τ) (k : κ) : Decidable (T.Free t k) :=
  inferInstanceAs (Decidable ((T.cell k).Free t))

/-- Apply `f` to every touched slot. -/
def mapCells
    (f : Cell τ ρ → Cell τ ρ)
    (hf : f Cell.empty = Cell.empty)
    (T : Table κ τ ρ) :
    Table κ τ ρ where
  keys := T.keys
  nodup := T.nodup
  cell := fun k => f (T.cell k)
  support := fun k hk => by rw [T.support k hk, hf]

/-- Replace the slot under `k`. -/
def setCell (k : κ) (c : Cell τ ρ) (T : Table κ τ ρ) : Table κ τ ρ where
  keys := if k ∈ T.keys then T.keys else k :: T.keys
  nodup := by
    by_cases hk : k ∈ T.keys
    · simpa [hk] using T.nodup
    · simpa [hk] using T.nodup
  cell := fun k' => if k' = k then c else T.cell k'
  support := by
    intro k' hk'
    by_cases hk : k ∈ T.keys
    · simp only [hk, if_true] at hk'
      have hne : k' ≠ k := fun he => hk' (he ▸ hk)
      simp [hne, T.support k' hk']
    · simp only [hk, if_false, List.mem_cons, not_or] at hk'
      simp [hk'.1, T.support k' hk'.2]

/-- Take the lock of slot `k` for `t` and leave `v` as its pending version. -/
def write (t : τ) (k : κ) (v : Option ρ) (T : Table κ τ ρ) : Table κ τ ρ :=
  T.setCell k ((T.cell k).write t v)

/-- A statement that runs as a transaction of its own replaces the committed
version of slot `k`. -/
def put (k : κ) (v : Option ρ) (T : Table κ τ ρ) : Table κ τ ρ :=
  T.setCell k { T.cell k with committed := v }

def commit (t : τ) (T : Table κ τ ρ) : Table κ τ ρ := T.mapCells (Cell.commit t) rfl

def rollback (t : τ) (T : Table κ τ ρ) : Table κ τ ρ := T.mapCells (Cell.rollback t) rfl

section

omit [DecidableEq τ]

@[simp] theorem committed_write (t : τ) (k : κ) (v : Option ρ) (T : Table κ τ ρ) (k' : κ) :
    (T.write t k v).committed k' = T.committed k' := by
  by_cases hk : k' = k
  · subst hk
    simp [committed, write, setCell, Cell.write]
  · simp [committed, write, setCell, hk]

@[simp] theorem pending_write_self (t : τ) (k : κ) (v : Option ρ) (T : Table κ τ ρ) :
    (T.write t k v).pending k = some (t, v) := by
  simp [pending, write, setCell, Cell.write]

theorem pending_write_of_ne
    (t : τ)
    (v : Option ρ)
    (T : Table κ τ ρ)
    (h : k' ≠ k) :
    (T.write t k v).pending k' = T.pending k' := by
  simp [pending, write, setCell, h]

theorem pending_write
    (t : τ)
    (k : κ)
    (v : Option ρ)
    (T : Table κ τ ρ)
    (k' : κ) :
    (T.write t k v).pending k' =
      if k' = k then some (t, v) else T.pending k' := by
  by_cases hk : k' = k
  · subst hk
    simp
  · simp [hk, pending_write_of_ne]

theorem committed_put
    (k : κ)
    (v : Option ρ)
    (T : Table κ τ ρ)
    (k' : κ) :
    (T.put k v).committed k' =
      if k' = k then v else T.committed k' := by
  by_cases hk : k' = k <;> simp [committed, put, setCell, hk]

@[simp] theorem pending_put (k : κ) (v : Option ρ) (T : Table κ τ ρ) (k' : κ) :
    (T.put k v).pending k' = T.pending k' := by
  by_cases hk : k' = k
  · subst hk
    simp [pending, put, setCell]
  · simp [pending, put, setCell, hk]

end

section

variable (t : τ) (T : Table κ τ ρ) (k : κ)

section

omit [DecidableEq κ]

@[simp] theorem committed_commit : (T.commit t).committed k = T.view t k := by
  simp [committed, commit, mapCells, view]

@[simp] theorem committed_rollback : (T.rollback t).committed k = T.committed k := by
  simp [committed, rollback, mapCells]

theorem pending_commit
    (u : τ)
    (w : Option ρ) :
    (T.commit t).pending k = some (u, w)
      ↔
    T.pending k = some (u, w) ∧ u ≠ t :=
  Cell.pending_release t _ (T.cell k) u w

theorem pending_rollback
    (u : τ)
    (w : Option ρ) :
    (T.rollback t).pending k = some (u, w)
      ↔
    T.pending k = some (u, w) ∧ u ≠ t :=
  Cell.pending_release t _ (T.cell k) u w

end

end

section

omit [DecidableEq κ]

theorem view_of_pending_none (h : T.pending k = none) : T.view t k = T.committed k :=
  Cell.view_of_pending_none h

theorem view_of_pending_self
    (h : T.pending k = some (t, v)) : T.view t k = v :=
  Cell.view_of_pending_self h

theorem view_of_pending_other
    (h : T.pending k = some (u, v))
    (hu : u ≠ t) :
    T.view t k = T.committed k :=
  Cell.view_of_pending_other h hu

/-- A slot without a pending version of `t` is read by `t` as committed. -/
theorem view_of_not_holder (h : ∀ v, T.pending k ≠ some (t, v)) : T.view t k = T.committed k := by
  cases hp : T.pending k with
  | none => exact view_of_pending_none hp
  | some p =>
    obtain ⟨u, v⟩ := p
    have hu : u ≠ t := by
      rintro rfl
      exact h v hp
    exact view_of_pending_other hp hu

end

@[simp] theorem view_write_self (t : τ) (k : κ) (v : Option ρ) (T : Table κ τ ρ) :
    (T.write t k v).view t k = v :=
  view_of_pending_self (pending_write_self t k v T)

theorem view_write_of_ne
    (t : τ)
    (v : Option ρ)
    (h : k' ≠ k) :
    (T.write t k v).view t k' = T.view t k' := by
  simp [view, write, setCell, h]

omit [DecidableEq κ] [DecidableEq τ] in
/-- A free slot is either unlocked or held by the transaction itself. -/
theorem pending_of_free
    (hfree : T.Free t k)
    (h : T.pending k = some (u, v)) :
    u = t :=
  hfree u v h

/-- From `T` to `T'` nothing happened to the slots that `u` holds. -/
structure Undisturbed (u : τ) (T T' : Table κ τ ρ) : Prop where
  pending_iff : ∀ k v, T'.pending k = some (u, v) ↔ T.pending k = some (u, v)
  committed_eq : ∀ k v, T.pending k = some (u, v) → T'.committed k = T.committed k

omit [DecidableEq κ] [DecidableEq τ] in
theorem Undisturbed.refl (u : τ) (T : Table κ τ ρ) : Undisturbed u T T :=
  ⟨fun _ _ => Iff.rfl, fun _ _ _ => rfl⟩

section

omit [DecidableEq κ]

/-- What `t` sees is what it has written, or what is committed. -/
theorem view_cases
    (T : Table κ τ ρ)
    (t : τ)
    (k : κ) :
    (∃ v, T.pending k = some (t, v) ∧ T.view t k = v) ∨
      ((∀ v, T.pending k ≠ some (t, v)) ∧ T.view t k = T.committed k) := by
  by_cases hheld : ∃ v, T.pending k = some (t, v)
  · obtain ⟨v, hv⟩ := hheld
    exact .inl ⟨v, hv, view_of_pending_self hv⟩
  · have hnot : ∀ v, T.pending k ≠ some (t, v) := fun v hv => hheld ⟨v, hv⟩
    exact .inr ⟨hnot, view_of_not_holder hnot⟩

/-- What the `COMMIT` of `t` leaves is what it has written, or what was there. -/
theorem commit_cases
    (T : Table κ τ ρ)
    (t : τ)
    (k : κ) :
    (∃ v, T.pending k = some (t, v) ∧ (T.commit t).committed k = v) ∨
      ((∀ v, T.pending k ≠ some (t, v)) ∧ (T.commit t).committed k = T.committed k) := by
  rw [committed_commit]
  exact T.view_cases t k

theorem Undisturbed.view_cases
    (h : Undisturbed u T T')
    (k : κ) :
    T'.view u k = T.view u k ∨ (T.view u k = T.committed k ∧ T'.view u k = T'.committed k) := by
  rcases T.view_cases u k with ⟨v, hv, heq⟩ | ⟨hnot, heq⟩
  · exact .inl ((view_of_pending_self ((h.pending_iff k v).2 hv)).trans heq.symm)
  · exact .inr ⟨heq, view_of_not_holder (fun v hv => hnot v ((h.pending_iff k v).1 hv))⟩

end

omit [DecidableEq τ] in
/-- A write of another transaction leaves the slots of `u` alone. -/
theorem undisturbed_write
    (v : Option ρ)
    (hfree : T.Free t k)
    (hut : u ≠ t) :
    Undisturbed u T (T.write t k v) := by
  refine ⟨?_, fun k' _ _ => committed_write t k v T k'⟩
  intro k' _
  by_cases hk : k' = k
  · subst hk
    rw [pending_write_self]
    constructor
    · rintro h
      cases h
      exact absurd rfl hut
    · intro h
      exact absurd (pending_of_free hfree h) hut
  · rw [pending_write_of_ne t v T hk]

omit [DecidableEq τ] in
/-- A statement of its own on an unlocked slot leaves the slots of `u`
alone. -/
theorem undisturbed_put
    (v : Option ρ)
    (hfree : T.pending k = none) :
    Undisturbed u T (T.put k v) := by
  refine ⟨fun k' w => by rw [pending_put], ?_⟩
  intro k' _ hp
  have hk : k' ≠ k := by
    rintro rfl
    rw [hfree] at hp
    cases hp
  simp [committed_put, hk]

omit [DecidableEq κ] in
/-- The commit of another transaction leaves the slots of `u` alone. -/
theorem undisturbed_commit
    (T : Table κ τ ρ)
    (hut : u ≠ t) :
    Undisturbed u T (T.commit t) := by
  refine ⟨fun k w => by simp [pending_commit, hut], ?_⟩
  intro _ _ hp
  rw [committed_commit, view_of_pending_other hp hut]

omit [DecidableEq κ] in
/-- The rollback of another transaction leaves the slots of `u` alone. -/
theorem undisturbed_rollback
    (T : Table κ τ ρ)
    (hut : u ≠ t) :
    Undisturbed u T (T.rollback t) :=
  ⟨fun k w => by simp [pending_rollback, hut], fun k _ _ => committed_rollback t T k⟩

omit [DecidableEq κ] [DecidableEq τ] in
theorem free_of_pending_none (t : τ) (h : T.pending k = none) : T.Free t k := by
  intro _ _ hp
  rw [show T.pending k = (T.cell k).pending from rfl] at h
  rw [h] at hp
  cases hp

omit [DecidableEq κ] [DecidableEq τ] in
theorem free_of_pending_self
    (h : T.pending k = some (t, v)) : T.Free t k := by
  intro _ _ hp
  rw [show T.pending k = (T.cell k).pending from rfl] at h
  rw [h] at hp
  cases hp
  rfl

/-- No other transaction has an uncommitted change of slot `k`; it may hold the
lock of the unchanged row. -/
def Settled (T : Table κ τ ρ) (t : τ) (k : κ) : Prop :=
  T.Free t k ∨ T.pending k = (T.pending k).map (fun p => (p.1, T.committed k))

instance [DecidableEq ρ] (T : Table κ τ ρ) (t : τ) (k : κ) : Decidable (T.Settled t k) :=
  inferInstanceAs (Decidable (_ ∨ _))

section Select

/-- The keys of the rows that a statement of `t` sees and that satisfy `f`. -/
def select (T : Table κ τ ρ) (t : τ) (f : κ → ρ → Bool) : List κ :=
  T.keys.filter (fun k => (T.view t k).any (f k))

theorem mem_keys_of_view
    {T : Table κ τ ρ}
    {t : τ}
    {k : κ}
    {r : ρ}
    (h : T.view t k = some r) :
    k ∈ T.keys := by
  by_contra hk
  simp [view, T.support k hk, Cell.empty, Cell.view] at h

theorem mem_select
    {T : Table κ τ ρ}
    {t : τ}
    {f : κ → ρ → Bool}
    {k : κ} :
    k ∈ T.select t f ↔ ∃ r, T.view t k = some r ∧ f k r = true := by
  simp only [select, List.mem_filter, Option.any_eq_true]
  constructor
  · rintro ⟨_, r, hr, hf⟩
    exact ⟨r, hr, hf⟩
  · rintro ⟨r, hr, hf⟩
    exact ⟨mem_keys_of_view hr, r, hr, hf⟩

end Select

section WriteAll

/-- Take the locks of the slots `ks`, leaving `f` as their pending versions. -/
def writeAll (t : τ) (f : κ → Option ρ) : List κ → Table κ τ ρ → Table κ τ ρ
  | [], T => T
  | k :: ks, T => writeAll t f ks (T.write t k (f k))

section

variable (t : τ) (f : κ → Option ρ) (ks : List κ) (T : Table κ τ ρ) (k : κ)

omit [DecidableEq τ] in
@[simp] theorem committed_writeAll :
    (T.writeAll t f ks).committed k = T.committed k := by
  induction ks generalizing T with
  | nil => rfl
  | cons _ _ ih => rw [writeAll, ih, committed_write]

omit [DecidableEq τ] in
theorem pending_writeAll :
    (T.writeAll t f ks).pending k =
      if k ∈ ks then some (t, f k) else T.pending k := by
  induction ks generalizing T with
  | nil => rfl
  | cons k' ks ih =>
    rw [writeAll, ih, pending_write]
    by_cases hks : k ∈ ks
    · simp [hks]
    · by_cases hk : k = k'
      · subst hk
        simp [hks]
      · simp [hks, hk]

end

omit [DecidableEq τ] in
/-- Writing slots that are free leaves the slots of another transaction
alone. -/
theorem undisturbed_writeAll
    {t u : τ}
    {f : κ → Option ρ}
    {ks : List κ}
    {T : Table κ τ ρ}
    (hfree : ∀ k ∈ ks, T.Free t k)
    (hut : u ≠ t) :
    Undisturbed u T (T.writeAll t f ks) := by
  refine ⟨?_, fun k _ _ => committed_writeAll t f ks T k⟩
  intro k _
  rw [pending_writeAll]
  split
  · rename_i hk
    constructor
    · intro h
      cases h
      exact absurd rfl hut
    · intro h
      exact absurd (pending_of_free (hfree k hk) h) hut
  · exact Iff.rfl

/-- `SELECT ... FOR UPDATE`: take the locks of the slots `ks` without changing
the rows. -/
def lockAll (t : τ) (ks : List κ) (T : Table κ τ ρ) : Table κ τ ρ := T.writeAll t (T.view t) ks

@[simp] theorem committed_lockAll (t : τ) (ks : List κ) (T : Table κ τ ρ) (k : κ) :
    (T.lockAll t ks).committed k = T.committed k :=
  committed_writeAll t _ ks T k

theorem pending_lockAll
    (t : τ)
    (ks : List κ)
    (T : Table κ τ ρ)
    (k : κ) :
    (T.lockAll t ks).pending k =
      if k ∈ ks then some (t, T.view t k) else T.pending k :=
  pending_writeAll t _ ks T k

/-- Delete the rows under `ks`. -/
def eraseAll (t : τ) (ks : List κ) (T : Table κ τ ρ) : Table κ τ ρ :=
  T.writeAll t (fun _ => none) ks

omit [DecidableEq τ] in
@[simp] theorem committed_eraseAll (t : τ) (ks : List κ) (T : Table κ τ ρ) (k : κ) :
    (T.eraseAll t ks).committed k = T.committed k :=
  committed_writeAll t _ ks T k

omit [DecidableEq τ] in
theorem pending_eraseAll
    (t : τ)
    (ks : List κ)
    (T : Table κ τ ρ)
    (k : κ) :
    (T.eraseAll t ks).pending k =
      if k ∈ ks then some (t, none) else T.pending k :=
  pending_writeAll t _ ks T k

end WriteAll

section DeleteWhere

/-- A `DELETE` whose snapshot contained the row under `k` reaches it: the row is
checked again and deleted if it still satisfies `f`. -/
def deleteWhere
    (t : τ)
    (f : κ → ρ → Bool)
    (k : κ)
    (T : Table κ τ ρ) :
    Table κ τ ρ :=
  if (T.view t k).any (f k) then T.write t k none else T

/-- `t` has deleted the committed rows that satisfy `f`, except for those in
`todo`. -/
def DeletedBut
    (T : Table κ τ ρ)
    (t : τ)
    (f : κ → ρ → Bool)
    (todo : List κ) :
    Prop :=
  ∀ k r, T.committed k = some r → f k r = true → k ∈ todo ∨ T.pending k = some (t, none)

@[simp] theorem committed_deleteWhere
    (t : τ) (f : κ → ρ → Bool) (k : κ) (T : Table κ τ ρ) (k' : κ) :
    (T.deleteWhere t f k).committed k' = T.committed k' := by
  unfold deleteWhere
  split
  · exact committed_write t k none T k'
  · rfl

variable {T T' : Table κ τ ρ} {t : τ} {f : κ → ρ → Bool} {todo : List κ}

/-- The snapshot of the statement contains every row it has to delete. -/
theorem deletedBut_select (hown : ∀ k v, T.pending k = some (t, v) → v = none) :
    T.DeletedBut t f (T.select t f) := by
  intro k r hr hf
  rcases T.view_cases t k with ⟨v, hv, -⟩ | ⟨-, heq⟩
  · rw [hown k v hv] at hv
    exact .inr hv
  · exact .inl (mem_select.2 ⟨r, heq.trans hr, hf⟩)

/-- The statement reaches the row under `k`. -/
theorem DeletedBut.deleteWhere
    (h : T.DeletedBut t f todo)
    (hown : ∀ k v, T.pending k = some (t, v) → v = none)
    (k : κ) :
    (T.deleteWhere t f k).DeletedBut t f (todo.erase k) := by
  intro k' r hr hf
  rw [committed_deleteWhere] at hr
  rcases T.view_cases t k' with ⟨v, hv, -⟩ | ⟨hnot, heq⟩
  · -- a row it holds is deleted already, and is not seen any more
    rw [hown k' v hv] at hv
    refine .inr ?_
    unfold Table.deleteWhere
    split
    · rw [pending_write]
      split
      · rfl
      · exact hv
    · exact hv
  · by_cases hk : k' = k
    · subst hk
      refine .inr ?_
      rw [Table.deleteWhere, if_pos (by rw [heq, hr]; exact hf), pending_write_self]
    · rcases h k' r hr hf with hmem | hp
      · exact .inl ((List.mem_erase_of_ne hk).2 hmem)
      · exact absurd hp (hnot none)

omit [DecidableEq κ] [DecidableEq τ] in
/-- Other transactions add nothing to what a `DELETE` has still to do, as long
as no row that satisfies `f` appears. -/
theorem DeletedBut.of_undisturbed (h : T.DeletedBut t f todo) (hu : Undisturbed t T T')
    (hnew : ∀ k r, T'.committed k = some r → f k r = true →
      ∃ r', T.committed k = some r' ∧ f k r' = true) : T'.DeletedBut t f todo := by
  intro k r hr hf
  obtain ⟨r', hr', hf'⟩ := hnew k r hr hf
  exact (h k r' hr' hf').imp_right (fun hp => (hu.pending_iff k none).2 hp)

omit [DecidableEq κ] in
/-- When the statement is through, its transaction sees no row that satisfies
`f`. -/
theorem DeletedBut.view
    (h : T.DeletedBut t f [])
    (hown : ∀ k v, T.pending k = some (t, v) → v = none)
    {k : κ}
    {r : ρ}
    (hview : T.view t k = some r) :
    f k r ≠ true := by
  intro hf
  rcases T.view_cases t k with ⟨v, hv, heq⟩ | ⟨hnot, heq⟩
  · rw [heq, hown k v hv] at hview
    cases hview
  · rcases h k r (heq.symm.trans hview) hf with hmem | hp
    · cases hmem
    · exact hnot none hp

end DeleteWhere

section Restore

/-- `ROLLBACK TO SAVEPOINT`: `t` gives up what it has written to the slots `ks`, none
of which it held at the savepoint. -/
def restore (t : τ) (ks : List κ) (T : Table κ τ ρ) : Table κ τ ρ where
  keys := T.keys
  nodup := T.nodup
  cell := fun k => if k ∈ ks then (T.cell k).rollback t else T.cell k
  support := by
    intro k hk
    rw [T.support k hk]
    exact ite_self _

@[simp] theorem committed_restore (t : τ) (ks : List κ) (T : Table κ τ ρ) (k : κ) :
    (T.restore t ks).committed k = T.committed k := by
  by_cases hk : k ∈ ks <;> simp [committed, restore, hk]

theorem pending_restore
    (t : τ)
    (ks : List κ)
    (T : Table κ τ ρ)
    (k : κ)
    (u : τ)
    (w : Option ρ) :
    (T.restore t ks).pending k = some (u, w)
      ↔
    T.pending k = some (u, w) ∧ (k ∈ ks → u ≠ t) := by
  by_cases hk : k ∈ ks
  · simp only [pending, restore, hk, if_true, true_implies]
    exact Cell.pending_release t _ (T.cell k) u w
  · simp [pending, restore, hk]

/-- A return of another transaction to a savepoint leaves the slots of `u` alone. -/
theorem undisturbed_restore
    {t u : τ}
    (ks : List κ)
    (T : Table κ τ ρ)
    (hut : u ≠ t) :
    Undisturbed u T (T.restore t ks) :=
  ⟨fun k w => by simp [pending_restore, hut], fun k _ _ => committed_restore t ks T k⟩

end Restore

section Holds

/-- `t` holds no slot. -/
def HoldsNone (t : τ) (T : Table κ τ ρ) : Prop := ∀ k v, T.pending k ≠ some (t, v)

/-- `t` holds slot `k`, with the pending version `v`, and no other slot. -/
structure HoldsOnly (t : τ) (k : κ) (v : Option ρ) (T : Table κ τ ρ) : Prop where
  held : T.pending k = some (t, v)
  only : ∀ k' v', T.pending k' = some (t, v') → k' = k

variable {t : τ} {T T' : Table κ τ ρ}

omit [DecidableEq κ] [DecidableEq τ] in
theorem HoldsNone.of_undisturbed
    (h : T.HoldsNone t)
    (hu : Undisturbed t T T') :
    T'.HoldsNone t :=
  fun k v hp => h k v ((hu.pending_iff k v).1 hp)

omit [DecidableEq κ] [DecidableEq τ] in
theorem HoldsOnly.of_undisturbed
    {k : κ}
    {v : Option ρ}
    (h : T.HoldsOnly t k v)
    (hu : Undisturbed t T T') :
    T'.HoldsOnly t k v :=
  ⟨(hu.pending_iff k v).2 h.held, fun k' v' hp => h.only k' v' ((hu.pending_iff k' v').1 hp)⟩

omit [DecidableEq τ] in
theorem HoldsNone.write
    (h : T.HoldsNone t)
    (k : κ)
    (v : Option ρ) :
    (T.write t k v).HoldsOnly t k v := by
  refine ⟨pending_write_self t k v T, ?_⟩
  intro k' v' hp
  by_contra hk
  rw [pending_write_of_ne t v T hk] at hp
  exact h k' v' hp

omit [DecidableEq τ] in
theorem HoldsOnly.write
    {k : κ}
    {v : Option ρ}
    (h : T.HoldsOnly t k v)
    (w : Option ρ) :
    (T.write t k w).HoldsOnly t k w := by
  refine ⟨pending_write_self t k w T, ?_⟩
  intro k' v' hp
  by_contra hk
  rw [pending_write_of_ne t w T hk] at hp
  exact hk (h.only k' v' hp)

section

omit [DecidableEq κ]

theorem holdsNone_commit (t : τ) (T : Table κ τ ρ) : (T.commit t).HoldsNone t :=
  fun k v hp => ((pending_commit t T k t v).1 hp).2 rfl

theorem holdsNone_rollback (t : τ) (T : Table κ τ ρ) : (T.rollback t).HoldsNone t :=
  fun k v hp => ((pending_rollback t T k t v).1 hp).2 rfl

theorem HoldsNone.committed_commit
    (h : T.HoldsNone t)
    (k : κ) :
    (T.commit t).committed k = T.committed k := by
  rw [Table.committed_commit, view_of_not_holder (h k)]

end

theorem HoldsOnly.committed_commit
    {k : κ}
    {v : Option ρ}
    (h : T.HoldsOnly t k v)
    (k' : κ) :
    (T.commit t).committed k' = if k' = k then v else T.committed k' := by
  rw [Table.committed_commit]
  split
  · rename_i hk
    subst hk
    exact view_of_pending_self h.held
  · rename_i hk
    exact view_of_not_holder (fun v' hp => hk (h.only k' v' hp))

end Holds

/-- One step on a table, and the transaction it belongs to. -/
inductive Step (T : Table κ τ ρ) : Option τ → Table κ τ ρ → Prop
  | same (a : Option τ) : Step T a T
  | write (t : τ) (k : κ) (v : Option ρ)
      (hfree : T.Free t k) :
      Step T (some t) (T.write t k v)
  | put (a : Option τ) (k : κ) (v : Option ρ)
      (hfree : T.pending k = none) :
      Step T a (T.put k v)
  | writeAll (t : τ) (f : κ → Option ρ) (ks : List κ)
      (hfree : ∀ k ∈ ks, T.Free t k) :
      Step T (some t) (T.writeAll t f ks)
  | commit (t : τ) : Step T (some t) (T.commit t)
  | rollback (t : τ) : Step T (some t) (T.rollback t)
  | restore (t : τ) (ks : List κ) : Step T (some t) (T.restore t ks)

/-- A `DELETE` reaches a row that is free. -/
theorem Step.deleteWhere
    (f : κ → ρ → Bool)
    (h : T.Free t k) :
    Step T (some t) (T.deleteWhere t f k) := by
  unfold Table.deleteWhere
  split
  · exact .write t k none h
  · exact .same _

/-- A step of another transaction leaves the slots of `u` alone. -/
theorem Step.undisturbed
    {a : Option τ}
    (hs : Step T a T')
    (hu : a ≠ some u) :
    Undisturbed u T T' := by
  cases hs with
  | same => exact Undisturbed.refl u T
  | write _ _ v hfree => exact undisturbed_write v hfree (fun he => hu (he ▸ rfl))
  | put _ _ v hfree => exact undisturbed_put v hfree
  | writeAll _ _ _ hfree => exact undisturbed_writeAll hfree (fun he => hu (he ▸ rfl))
  | commit => exact undisturbed_commit T (fun he => hu (he ▸ rfl))
  | rollback => exact undisturbed_rollback T (fun he => hu (he ▸ rfl))
  | restore _ ks => exact undisturbed_restore ks T (fun he => hu (he ▸ rfl))

/-- While a transaction holds a slot, the committed version stays. -/
theorem Step.committed_of_held
    {a : Option τ}
    {w : Option ρ}
    (hs : Step T a T')
    (hv : T.pending k = some (u, v))
    (hw : T'.pending k = some (u, w)) :
    T'.committed k = T.committed k := by
  cases hs with
  | same => rfl
  | write t k' v' => exact committed_write t k' v' T k
  | put _ _ _ hfree =>
    rw [committed_put, if_neg]
    rintro rfl
    rw [hfree] at hv
    cases hv
  | writeAll t f ks => exact committed_writeAll t f ks T k
  | commit t =>
    obtain ⟨-, hne⟩ := (pending_commit t T k u w).1 hw
    rw [committed_commit, view_of_pending_other hv hne]
  | rollback t => exact committed_rollback t T k
  | restore t ks => exact committed_restore t ks T k

end Table
end Swarog.Pg
