import Swarog.Pg.Table

/-!
# What a transaction holds in a table

At every program point of a transaction it is known which rows it has inserted,
updated or deleted so far, except that a `DELETE` of many rows has reached some
of them and not others.  A `Holding` describes both: the list of its writes, each
with what must be committed under the key underneath, and a predicate on the rows
that its unfinished or finished many-row `DELETE`s may have deleted.

`Table.Owes` says that the pending versions of a transaction are exactly those.
It survives the steps of the other transactions, follows the statements of the
transaction itself, and determines what its `COMMIT` changes.
-/

namespace Swarog.Pg

open List

/-- An uncommitted version: its key, what it replaces, and the new version. -/
structure Write (κ ρ : Type) where
  key : κ
  base : Option ρ → Prop
  row : Option ρ

namespace Write

variable {κ ρ : Type}

/-- A row inserted under an unused key. -/
def insert (k : κ) (r : ρ) : Write κ ρ := ⟨k, fun old => old = none, some r⟩

/-- A new version of the row `old`. -/
def update (k : κ) (old r : ρ) : Write κ ρ := ⟨k, fun old' => old' = some old, some r⟩

/-- A row written whether or not there was one. -/
def upsert (k : κ) (r : ρ) : Write κ ρ := ⟨k, fun _ => True, some r⟩

/-- The deletion of a row that satisfies `f`. -/
def delete (k : κ) (f : ρ → Prop) : Write κ ρ := ⟨k, fun old => ∃ r, old = some r ∧ f r, none⟩

end Write

/-- The writes of a transaction, and the rows its many-row `DELETE`s may have
deleted. -/
structure Holding (κ ρ : Type) where
  writes : List (Write κ ρ)
  dooms : κ → ρ → Prop

namespace Holding

variable {κ ρ : Type}

def nothing : Holding κ ρ := ⟨[], fun _ _ => False⟩

def writing (ws : List (Write κ ρ)) : Holding κ ρ := ⟨ws, fun _ _ => False⟩

def deleting (dooms : κ → ρ → Prop) : Holding κ ρ := ⟨[], dooms⟩

end Holding

namespace Table

variable {κ τ ρ : Type}
variable [DecidableEq κ] [DecidableEq τ]

/-- The pending versions of `t` are those that `H` describes. -/
structure Owes (T : Table κ τ ρ) (t : τ) (H : Holding κ ρ) : Prop where
  held : ∀ w ∈ H.writes, T.pending w.key = some (t, w.row)
  based : ∀ w ∈ H.writes, w.base (T.committed w.key)
  only : ∀ k v, T.pending k = some (t, v) →
    (∃ w ∈ H.writes, w.key = k ∧ w.row = v) ∨ (v = none ∧ ∃ r, T.committed k = some r ∧ H.dooms k r)

variable {T T' : Table κ τ ρ} {t : τ} {H : Holding κ ρ} {k : κ}

section

omit [DecidableEq κ] [DecidableEq τ]

theorem owes_nothing (h : T.HoldsNone t) : T.Owes t Holding.nothing where
  held := by
    intro _ hw
    cases hw
  based := by
    intro _ hw
    cases hw
  only := fun k v hp => absurd hp (h k v)

theorem Owes.holdsNone (h : T.Owes t Holding.nothing) : T.HoldsNone t := by
  intro k v hp
  rcases h.only k v hp with ⟨_, hw, -⟩ | ⟨-, _, -, hdoom⟩
  · cases hw
  · exact hdoom

theorem owes_empty (t : τ) : (empty : Table κ τ ρ).Owes t Holding.nothing :=
  owes_nothing (fun k v hp => by cases hp)

end

omit [DecidableEq κ] in
theorem owes_commit
    (T : Table κ τ ρ)
    (t : τ) :
    (T.commit t).Owes t Holding.nothing :=
  owes_nothing (holdsNone_commit t T)

omit [DecidableEq κ] in
theorem owes_rollback
    (T : Table κ τ ρ)
    (t : τ) :
    (T.rollback t).Owes t Holding.nothing :=
  owes_nothing (holdsNone_rollback t T)

section Frame

section

omit [DecidableEq κ] [DecidableEq τ]

/-- The other transactions do not touch what `t` holds. -/
theorem Owes.of_undisturbed
    (h : T.Owes t H)
    (hu : Undisturbed t T T') :
    T'.Owes t H where
  held := fun w hw => (hu.pending_iff _ _).2 (h.held w hw)
  based := by
    intro w hw
    rw [hu.committed_eq _ _ (h.held w hw)]
    exact h.based w hw
  only := by
    intro k v hp
    have hp' := (hu.pending_iff k v).1 hp
    rw [hu.committed_eq k v hp']
    exact h.only k v hp'

/-- A transaction may announce that it is going to delete more rows. -/
theorem Owes.announce
    (h : T.Owes t H)
    (dooms : κ → ρ → Prop)
    (hd : ∀ k r, H.dooms k r → dooms k r) :
    T.Owes t ⟨H.writes, dooms⟩ where
  held := h.held
  based := h.based
  only := by
    intro k v hp
    refine (h.only k v hp).imp_right ?_
    rintro ⟨hv, r, hr, hdoom⟩
    exact ⟨hv, r, hr, hd k r hdoom⟩

/-- The order in which the writes are listed does not matter. -/
theorem Owes.reorder
    (h : T.Owes t H)
    (ws : List (Write κ ρ))
    (hws : ∀ w, w ∈ ws ↔ w ∈ H.writes) :
    T.Owes t ⟨ws, H.dooms⟩ where
  held := fun w hw => h.held w ((hws w).1 hw)
  based := fun w hw => h.based w ((hws w).1 hw)
  only := by
    intro k v hp
    refine (h.only k v hp).imp_left ?_
    rintro ⟨w, hw, hkey, hrow⟩
    exact ⟨w, (hws w).2 hw, hkey, hrow⟩

end

end Frame

section Statements

omit [DecidableEq κ] [DecidableEq τ] in
/-- A transaction without writes holds deletions only. -/
theorem Owes.only_deletes
    (h : T.Owes t H)
    (hw : H.writes = [])
    (k : κ)
    (v : Option ρ)
    (hp : T.pending k = some (t, v)) :
    v = none := by
  rcases h.only k v hp with ⟨_, hmem, -⟩ | ⟨hv, -⟩
  · rw [hw] at hmem
    cases hmem
  · exact hv

omit [DecidableEq κ] in
/-- A row that `t` sees and has not written is committed. -/
theorem Owes.committed_of_view
    (h : T.Owes t H)
    (hnew : ∀ w ∈ H.writes, w.key ≠ k)
    {r : ρ}
    (hview : T.view t k = some r) :
    T.committed k = some r := by
  rcases T.view_cases t k with ⟨v, hv, heq⟩ | ⟨-, heq⟩
  · rcases h.only k v hv with ⟨w, hmem, hkey, -⟩ | ⟨hnone, -⟩
    · exact absurd hkey (hnew w hmem)
    · rw [heq, hnone] at hview
      cases hview
  · exact heq.symm.trans hview

section

omit [DecidableEq τ]

/-- `t` writes under a key, replacing what it has written there before; `ws` are
its writes afterwards. -/
theorem Owes.rewrite
    (h : T.Owes t H)
    (w : Write κ ρ)
    (ws : List (Write κ ρ))
    (hmem : w ∈ ws)
    (hbase : w.base (T.committed w.key))
    (hold : ∀ w' ∈ ws, w' = w ∨ (w'.key ≠ w.key ∧ w' ∈ H.writes))
    (hkeep : ∀ w' ∈ H.writes, w'.key ≠ w.key → w' ∈ ws) :
    (T.write t w.key w.row).Owes t ⟨ws, H.dooms⟩ where
  held := by
    intro w' hw'
    rcases hold w' hw' with rfl | ⟨hne, hmem'⟩
    · exact pending_write_self t _ _ T
    · rw [pending_write_of_ne t _ T hne]
      exact h.held w' hmem'
  based := by
    intro w' hw'
    rw [committed_write]
    rcases hold w' hw' with rfl | ⟨-, hmem'⟩
    · exact hbase
    · exact h.based w' hmem'
  only := by
    intro k v hp
    rw [committed_write]
    rw [pending_write] at hp
    split at hp
    · rename_i hk
      cases hp
      exact .inl ⟨w, hmem, hk.symm, rfl⟩
    · rename_i hk
      refine (h.only k v hp).imp_left ?_
      rintro ⟨w', hmem', rfl, hrow⟩
      exact ⟨w', hkeep w' hmem' hk, rfl, hrow⟩

/-- `t` writes under a key it has not written before. -/
theorem Owes.write
    (h : T.Owes t H)
    (w : Write κ ρ)
    (hnew : ∀ w' ∈ H.writes, w'.key ≠ w.key)
    (hbase : w.base (T.committed w.key)) :
    (T.write t w.key w.row).Owes t ⟨H.writes ++ [w], H.dooms⟩ := by
  refine h.rewrite w _ (by simp) hbase ?_ (fun w' hmem _ => mem_append_left _ hmem)
  intro w' hw'
  rcases mem_append.1 hw' with hmem | hmem
  · exact .inr ⟨hnew w' hmem, hmem⟩
  · exact .inl (mem_singleton.1 hmem)

/-- `t` writes under many keys; what it has written there before stays. -/
theorem Owes.writeAll
    (h : T.Owes t H)
    {f : κ → Option ρ}
    (ks : List κ)
    (ws : List (Write κ ρ))
    (hks : ∀ k, k ∈ ks ↔ ∃ w ∈ ws, w.key = k)
    (hrow : ∀ w ∈ ws, w.row = f w.key)
    (hkeep : ∀ w ∈ H.writes, w.key ∈ ks → f w.key = w.row)
    (hbase : ∀ w ∈ ws, w.base (T.committed w.key)) :
    (T.writeAll t f ks).Owes t ⟨H.writes ++ ws, H.dooms⟩ where
  held := by
    intro w hw
    rw [pending_writeAll]
    rcases mem_append.1 hw with hmem | hmem
    · split
      · rename_i hk
        rw [hkeep w hmem hk]
      · exact h.held w hmem
    · rw [if_pos ((hks _).2 ⟨w, hmem, rfl⟩), hrow w hmem]
  based := by
    intro w hw
    rw [committed_writeAll]
    rcases mem_append.1 hw with hmem | hmem
    · exact h.based w hmem
    · exact hbase w hmem
  only := by
    intro k v hp
    rw [committed_writeAll]
    rw [pending_writeAll] at hp
    split at hp
    · rename_i hk
      cases hp
      obtain ⟨w, hmem, hkey⟩ := (hks k).1 hk
      exact .inl ⟨w, mem_append_right _ hmem, hkey, hkey ▸ hrow w hmem⟩
    · refine (h.only k v hp).imp_left ?_
      rintro ⟨w, hmem, hkey, hr⟩
      exact ⟨w, mem_append_left _ hmem, hkey, hr⟩

end

/-- A return to the savepoint before the writes `ws'`. -/
theorem Owes.restore
    {ws ws' : List (Write κ ρ)}
    (h : T.Owes t (.writing (ws ++ ws')))
    (hapart : ∀ w ∈ ws, w.key ∉ ws'.map Write.key) :
    (T.restore t (ws'.map Write.key)).Owes t (.writing ws) where
  held := by
    intro w hw
    rw [pending_restore]
    exact ⟨h.held w (mem_append_left _ hw), fun hmem => absurd hmem (hapart w hw)⟩
  based := by
    intro w hw
    rw [committed_restore]
    exact h.based w (mem_append_left _ hw)
  only := by
    intro k v hp
    obtain ⟨hp, hnot⟩ := (pending_restore t _ T k t v).1 hp
    rcases h.only k v hp with ⟨w, hw, rfl, rfl⟩ | ⟨-, _, -, hdoom⟩
    · rcases mem_append.1 hw with hw | hw
      · exact .inl ⟨w, hw, rfl, rfl⟩
      · exact absurd rfl (hnot (mem_map_of_mem hw))
    · exact hdoom.elim

omit [DecidableEq τ] in
/-- The `INSERT` of a row: the key is unused, also by the transaction itself. -/
theorem Owes.insert
    (h : T.Owes t H)
    {r : ρ}
    (hnew : ∀ w' ∈ H.writes, w'.key ≠ k)
    (hnone : T.committed k = none) :
    (T.write t k (some r)).Owes t ⟨H.writes ++ [Write.insert k r], H.dooms⟩ :=
  h.write (Write.insert k r) hnew hnone

/-- A many-row `DELETE` of a transaction without writes reaches the row `k`. -/
theorem Owes.deleteWhere
    (h : T.Owes t H)
    (hw : H.writes = [])
    (f : κ → ρ → Bool)
    (k : κ)
    (hdoom : ∀ r, f k r = true → H.dooms k r) :
    (T.deleteWhere t f k).Owes t H := by
  refine ⟨by simp [hw], by simp [hw], ?_⟩
  intro k' v hp
  rw [committed_deleteWhere]
  unfold Table.deleteWhere at hp
  split at hp
  · rename_i hany
    rw [pending_write] at hp
    split at hp
    · rename_i hk
      subst hk
      cases hp
      obtain ⟨r, hview, hf⟩ := (Option.any_eq_true _ _).1 hany
      exact .inr ⟨rfl, r, h.committed_of_view (by simp [hw]) hview, hdoom r hf⟩
    · exact h.only k' v hp
  · exact h.only k' v hp

/-- A transaction without writes deletes all rows that satisfy `f`. -/
theorem Owes.eraseAll
    (h : T.Owes t H)
    (hw : H.writes = [])
    {f : κ → ρ → Bool}
    (hdoom : ∀ k r, f k r = true → H.dooms k r) :
    (T.eraseAll t (T.select t f)).Owes t H := by
  refine ⟨by simp [hw], by simp [hw], ?_⟩
  intro k v hp
  rw [committed_eraseAll]
  rw [pending_eraseAll] at hp
  split at hp
  · rename_i hmem
    cases hp
    obtain ⟨r, hview, hf⟩ := mem_select.1 hmem
    exact .inr ⟨rfl, r, h.committed_of_view (by simp [hw]) hview, hdoom k r hf⟩
  · exact h.only k v hp

end Statements

section Commit

variable {P : Option ρ → Prop}

section

omit [DecidableEq κ]

/-- What the `COMMIT` of `t` leaves under a key: one of its writes, nothing where
it has deleted a row, or what was there. -/
theorem Owes.commit_elim
    (h : T.Owes t H)
    (hwrite : ∀ w ∈ H.writes, w.key = k → w.base (T.committed k) → P w.row)
    (hdoom : ∀ r, T.committed k = some r → H.dooms k r → P none)
    (hsame : P (T.committed k)) :
    P ((T.commit t).committed k) := by
  rw [committed_commit]
  rcases T.view_cases t k with ⟨v, hv, heq⟩ | ⟨-, heq⟩ <;> rw [heq]
  · rcases h.only k v hv with ⟨w, hmem, rfl, rfl⟩ | ⟨rfl, r, hr, hd⟩
    · exact hwrite w hmem rfl (h.based w hmem)
    · exact hdoom r hr hd
  · exact hsame

/-- A `COMMIT` of a single write. -/
theorem Owes.commit_one
    {w : Write κ ρ}
    (h : T.Owes t (.writing [w]))
    (hwrite : w.key = k → w.base (T.committed k) → P w.row)
    (hsame : P (T.committed k)) :
    P ((T.commit t).committed k) := by
  refine h.commit_elim ?_ (fun _ _ hd => hd.elim) hsame
  intro _ hw'
  cases mem_singleton.1 hw'
  exact hwrite

/-- A `COMMIT` that has nothing to commit. -/
theorem Owes.commit_nothing
    (h : T.Owes t Holding.nothing)
    (hsame : P (T.committed k)) :
    P ((T.commit t).committed k) := by
  refine h.commit_elim ?_ (fun _ _ hd => hd.elim) hsame
  intro _ hw
  cases hw

/-- A `COMMIT` of deletions. -/
theorem Owes.commit_deleting
    {dooms : κ → ρ → Prop}
    (h : T.Owes t (.deleting dooms))
    (hdoom : ∀ r, T.committed k = some r → dooms k r → P none)
    (hsame : P (T.committed k)) :
    P ((T.commit t).committed k) := by
  refine h.commit_elim ?_ hdoom hsame
  intro _ hw
  cases hw

/-- The writes of `t` are committed by its `COMMIT`. -/
theorem Owes.committed_write
    (h : T.Owes t H)
    {w : Write κ ρ}
    (hw : w ∈ H.writes) :
    (T.commit t).committed w.key = w.row := by
  rw [committed_commit, view_of_pending_self (h.held w hw)]

end

/-- From `T` to `T'` the committed rows have changed by the writes `ws`. -/
structure Applies (T T' : Table κ τ ρ) (ws : List (Write κ ρ)) : Prop where
  based : ∀ w ∈ ws, w.base (T.committed w.key)
  written : ∀ w ∈ ws, T'.committed w.key = w.row
  same : ∀ k, (∀ w ∈ ws, w.key ≠ k) → T'.committed k = T.committed k

omit [DecidableEq κ] in
/-- A `COMMIT` applies the writes of its transaction. -/
theorem Owes.applies
    {ws : List (Write κ ρ)}
    (h : T.Owes t (.writing ws)) :
    Applies T (T.commit t) ws where
  based := h.based
  written := fun _ hw => h.committed_write hw
  same := by
    intro k hk
    refine h.commit_elim (P := fun v => v = T.committed k) ?_ (fun _ _ hd => hd.elim) rfl
    intro w hw hkey
    exact absurd hkey (hk w hw)

end Commit

section Acts

/-- What an action does to the table `T`, and what becomes of what its transaction
holds there.  The flag says whether it may change committed rows. -/
inductive Acts (T : Table κ τ ρ) (H : Holding κ ρ) :
    Option τ → Bool → Table κ τ ρ → Holding κ ρ → Prop
  | same {a : Option τ} {publishes : Bool} : Acts T H a publishes T H
  | put {k : κ} {v : Option ρ}
      (hfree : T.pending k = none) :
      Acts T H none true (T.put k v) H
  | write {t : τ} (w : Write κ ρ)
      (hfree : T.Free t w.key)
      (hnew : ∀ w' ∈ H.writes, w'.key ≠ w.key)
      (hbase : w.base (T.committed w.key)) :
      Acts T H (some t) false (T.write t w.key w.row) ⟨H.writes ++ [w], H.dooms⟩
  | announce {t : τ} {dooms : κ → ρ → Prop}
      (hd : ∀ k r, H.dooms k r → dooms k r) :
      Acts T H (some t) false T ⟨H.writes, dooms⟩
  | deleteWhere {t : τ} {f : κ → ρ → Bool} {k : κ}
      (hfree : T.Free t k)
      (hw : H.writes = [])
      (hdoom : ∀ r, f k r = true → H.dooms k r) :
      Acts T H (some t) false (T.deleteWhere t f k) H
  | eraseAll {t : τ} {f : κ → ρ → Bool} {dooms : κ → ρ → Prop}
      (hfree : ∀ k ∈ T.select t f, T.Free t k)
      (hw : H.writes = [])
      (hd : ∀ k r, H.dooms k r → dooms k r)
      (hdoom : ∀ k r, f k r = true → dooms k r) :
      Acts T H (some t) false (T.eraseAll t (T.select t f)) ⟨H.writes, dooms⟩
  | commit {t : τ} : Acts T H (some t) true (T.commit t) .nothing
  | rollback {t : τ} : Acts T H (some t) false (T.rollback t) .nothing

variable {H' : Holding κ ρ} {a : Option τ} {publishes : Bool}

theorem Acts.insert
    {r : ρ}
    (hfree : T.Free t k)
    (hnew : ∀ w ∈ H.writes, w.key ≠ k)
    (hnone : T.committed k = none) :
    Acts T H (some t) false (T.write t k (some r)) ⟨H.writes ++ [Write.insert k r], H.dooms⟩ :=
  .write (Write.insert k r) hfree hnew hnone

theorem Acts.sweep
    (f : κ → ρ → Bool)
    {dooms : κ → ρ → Prop}
    (hfree : T.Free t k)
    (hdoom : ∀ r, f k r = true → dooms k r) :
    Acts T (.deleting dooms) (some t) false (T.deleteWhere t f k) (.deleting dooms) :=
  .deleteWhere hfree rfl hdoom

theorem Acts.step (h : Acts T H a publishes T' H') : Step T a T' := by
  cases h with
  | same => exact .same _
  | put hfree => exact .put _ _ _ hfree
  | write w hfree => exact .write _ w.key w.row hfree
  | announce => exact .same _
  | deleteWhere hfree => exact .deleteWhere _ hfree
  | eraseAll hfree => exact .writeAll _ _ _ hfree
  | commit => exact .commit _
  | rollback => exact .rollback _

theorem Acts.owes
    (h : Acts T H (some t) publishes T' H')
    (ho : T.Owes t H) :
    T'.Owes t H' := by
  cases h with
  | same => exact ho
  | write w _ hnew hbase => exact ho.write w hnew hbase
  | announce hd => exact ho.announce _ hd
  | deleteWhere _ hw hdoom => exact ho.deleteWhere hw _ _ hdoom
  | eraseAll _ hw hd hdoom => exact (ho.announce _ hd).eraseAll hw hdoom
  | commit => exact owes_commit T t
  | rollback => exact owes_rollback T t

theorem Acts.committed
    (h : Acts T H a publishes T' H')
    (hquiet : publishes = false)
    (k : κ) :
    T'.committed k = T.committed k := by
  cases h with
  | same => rfl
  | put => cases hquiet
  | write => exact Table.committed_write _ _ _ T k
  | announce => rfl
  | deleteWhere => exact committed_deleteWhere _ _ _ T k
  | eraseAll => exact committed_eraseAll _ _ T k
  | commit => cases hquiet
  | rollback => exact committed_rollback _ T k

end Acts

end Table
end Swarog.Pg
