import Swarog.Pg.Table

/-!
# Foreign keys with `ON DELETE CASCADE`

A child row refers to a parent row.  The `INSERT` of a child locks the parent
against deletion: it waits for a transaction that is deleting the parent, and
fails if the parent is gone.  The `DELETE` of a parent waits for the
transactions that have inserted children of it or changed them, and then deletes
the children with it.

`Refers` is the invariant that results from the two waiting rules: every
committed child has a committed parent.  `RefStep` lists what may happen to the
two tables, and `Refers.step` is the induction step for all of it.
-/

namespace Swarog.Pg.Table

variable {α κ τ π ρ : Type}
variable [DecidableEq α] [DecidableEq κ] [DecidableEq τ]

/-- `t` may insert a child of `p`. -/
def Shareable (P : Table α τ π) (t : τ) (p : α) : Prop := P.view t p ≠ none ∧ P.Free t p

instance [DecidableEq π] (P : Table α τ π) (t : τ) (p : α) : Decidable (P.Shareable t p) :=
  inferInstanceAs (Decidable (_ ∧ _))

/-- The committed or the pending version of the slot `k` is a child of `p`. -/
def Concerns (C : Table κ τ ρ) (own : κ → ρ → α) (p : α) (k : κ) : Prop :=
  (C.committed k).any (fun r => own k r == p) = true ∨
    (C.pending k).any (fun held => held.2.any (fun r => own k r == p)) = true

instance (C : Table κ τ ρ) (own : κ → ρ → α) (p : α) (k : κ) : Decidable (C.Concerns own p k) :=
  inferInstanceAs (Decidable (_ ∨ _))

/-- No other transaction holds a child of `p`. -/
def Unshared (C : Table κ τ ρ) (own : κ → ρ → α) (t : τ) (p : α) : Prop :=
  ∀ k ∈ C.keys, C.Concerns own p k → C.Free t k

instance (C : Table κ τ ρ) (own : κ → ρ → α) (t : τ) (p : α) : Decidable (C.Unshared own t p) :=
  inferInstanceAs (Decidable (∀ k ∈ C.keys, C.Concerns own p k → C.Free t k))

/-- The children of `p` that the cascade of `t` deletes. -/
def childrenOf (C : Table κ τ ρ) (own : κ → ρ → α) (t : τ) (p : α) : List κ :=
  C.select t (fun k r => own k r == p)

/-- The cascade of the deletion of `p`. -/
def cascade (own : κ → ρ → α) (t : τ) (p : α) (C : Table κ τ ρ) : Table κ τ ρ :=
  C.eraseAll t (C.childrenOf own t p)

section Cascade

variable {C : Table κ τ ρ} {own : κ → ρ → α} {t u : τ} {p : α} {k : κ} {r : ρ}

omit [DecidableEq τ] in
theorem mem_keys_of_pending
    {v : Option ρ}
    (h : C.pending k = some (t, v)) :
    k ∈ C.keys := by
  by_contra hk
  simp [pending, C.support k hk, Cell.empty] at h

omit [DecidableEq κ] [DecidableEq τ] in
theorem Unshared.free_of_committed
    (h : C.Unshared own t p)
    (hr : C.committed k = some r)
    (hown : own k r = p) :
    C.Free t k := by
  refine h k (mem_keys_of_committed hr) (.inl ?_)
  rw [hr]
  exact beq_iff_eq.2 hown

omit [DecidableEq τ] in
theorem Unshared.eq_of_pending
    (h : C.Unshared own t p)
    (hr : C.pending k = some (u, some r))
    (hown : own k r = p) :
    u = t := by
  refine pending_of_free (h k (mem_keys_of_pending hr) (.inr ?_)) hr
  rw [hr]
  exact beq_iff_eq.2 hown

theorem mem_childrenOf : k ∈ C.childrenOf own t p ↔ ∃ r, C.view t k = some r ∧ own k r = p := by
  simp [childrenOf, mem_select]

theorem Unshared.free_of_child
    (h : C.Unshared own t p)
    (hk : k ∈ C.childrenOf own t p) :
    C.Free t k := by
  obtain ⟨_, hview, hown⟩ := mem_childrenOf.1 hk
  rcases C.view_cases t k with ⟨_, hv, -⟩ | ⟨-, heq⟩
  · exact free_of_pending_self hv
  · exact h.free_of_committed (heq.symm.trans hview) hown

end Cascade

/-- Every child has a parent, and keeps it. -/
structure Refers (own : κ → ρ → α) (P : Table α τ π) (C : Table κ τ ρ) : Prop where
  committed : ∀ k r, C.committed k = some r → P.committed (own k r) ≠ none
  pending : ∀ k t r, C.pending k = some (t, some r) → P.Shareable t (own k r)
  kept : ∀ k t r r', C.pending k = some (t, some r') → C.committed k = some r → own k r' = own k r
  inserted : ∀ p t row, P.pending p = some (t, some row) → P.committed p = none
  deleted : ∀ p t, P.pending p = some (t, none) →
    ∀ k r, C.committed k = some r → own k r = p → C.pending k = some (t, none)

/-- One step on a parent table and a child table. -/
inductive RefStep (own : κ → ρ → α) (P : Table α τ π) (C : Table κ τ ρ) :
    Table α τ π → Table κ τ ρ → Prop
  | same : RefStep own P C P C
  | insertParent (t : τ) (p : α) (row : π)
      (hfree : P.Free t p)
      (hnone : P.committed p = none) :
      RefStep own P C (P.write t p (some row)) C
  | insertChild (t : τ) (k : κ) (r : ρ)
      (hnone : C.committed k = none)
      (hparent : P.Shareable t (own k r)) :
      RefStep own P C P (C.write t k (some r))
  | updateChild (t : τ) (k : κ) (r r' : ρ)
      (hfree : C.Free t k)
      (hview : C.view t k = some r)
      (hown : own k r' = own k r) :
      RefStep own P C P (C.write t k (some r'))
  | putChild (k : κ) (r : ρ)
      (hfree : C.pending k = none)
      (hsome : P.committed (own k r) ≠ none)
      (hparent : P.pending (own k r) = none) :
      RefStep own P C P (C.put k (some r))
  | deleteChild (t : τ) (k : κ)
      (hfree : C.Free t k) :
      RefStep own P C P (C.write t k none)
  | deleteParent (t : τ) (p : α)
      (hfree : P.Free t p)
      (hchildren : C.Unshared own t p) :
      RefStep own P C (P.write t p none) (C.cascade own t p)
  | commit (t : τ) : RefStep own P C (P.commit t) (C.commit t)
  | rollback (t : τ) : RefStep own P C (P.rollback t) (C.rollback t)

section Shareable

variable {P : Table α τ π} {t u : τ} {p q : α}

theorem Shareable.write
    (h : P.Shareable u q)
    {v : Option π}
    (hfree : P.Free t p)
    (hq : q = p → u = t ∧ v ≠ none) :
    (P.write t p v).Shareable u q := by
  by_cases hqp : q = p
  · subst hqp
    obtain ⟨rfl, hv⟩ := hq rfl
    refine ⟨?_, free_of_pending_self (pending_write_self u q v P)⟩
    rw [view_of_pending_self (pending_write_self u q v P)]
    exact hv
  · have hcell : (P.write t p v).cell q = P.cell q := by simp [Table.write, setCell, hqp]
    exact ⟨by rw [view, hcell]; exact h.1, by rw [Free, hcell]; exact h.2⟩

section

omit [DecidableEq α]

/-- A parent that is locked against deletion stays so while others move. -/
theorem Shareable.of_undisturbed
    {P' : Table α τ π}
    (h : P.Shareable u q)
    (hu : Undisturbed u P P')
    (hpend : ∀ w v, P'.pending q = some (w, v) → P.pending q = some (w, v))
    (hcom : P.pending q = none → P'.committed q = P.committed q) :
    P'.Shareable u q := by
  refine ⟨?_, fun w v hw => pending_of_free h.2 (hpend w v hw)⟩
  have hview := h.1
  cases hp : P.pending q with
  | none =>
    have hp' : P'.pending q = none :=
      Option.eq_none_iff_forall_not_mem.2 (fun x hx => by
        have := hpend x.1 x.2 hx
        rw [hp] at this
        cases this)
    rw [view_of_pending_none hp', hcom hp]
    rwa [view_of_pending_none hp] at hview
  | some x =>
    obtain ⟨_, v⟩ := x
    obtain rfl := pending_of_free h.2 hp
    rw [view_of_pending_self ((hu.pending_iff q v).2 hp)]
    rwa [view_of_pending_self hp] at hview

theorem Shareable.commit
    (h : P.Shareable u q)
    (hu : u ≠ t) :
    (P.commit t).Shareable u q := by
  refine h.of_undisturbed (undisturbed_commit P hu) ?_ ?_
  · exact fun w v hw => ((pending_commit t P q w v).1 hw).1
  · exact fun hp => by rw [committed_commit, view_of_pending_none hp]

theorem Shareable.rollback
    (h : P.Shareable u q)
    (hu : u ≠ t) :
    (P.rollback t).Shareable u q := by
  refine h.of_undisturbed (undisturbed_rollback P hu) ?_ ?_
  · exact fun w v hw => ((pending_rollback t P q w v).1 hw).1
  · exact fun _ => committed_rollback t P q

end

end Shareable

section Steps

variable {own : κ → ρ → α} {P P' : Table α τ π} {C C' : Table κ τ ρ} {t : τ} {k : κ}

section

variable (h : Refers own P C)
include h

omit [DecidableEq κ] in
theorem Refers.insertParent
    {p : α}
    (row : π)
    (hfree : P.Free t p)
    (hnone : P.committed p = none) :
    Refers own (P.write t p (some row)) C where
  committed := by
    intro k r hr
    rw [committed_write]
    exact h.committed k r hr
  pending := by
    intro k u r hr
    have hsh := h.pending k u r hr
    refine hsh.write hfree (fun hp => ⟨?_, Option.some_ne_none row⟩)
    -- only the transaction that is inserting the parent can see it
    have hview := hsh.1
    rw [hp] at hview
    by_contra hut
    refine hview ((view_of_not_holder ?_).trans hnone)
    exact fun v hv => hut (pending_of_free hfree hv)
  kept := h.kept
  inserted := by
    intro q u row' hq
    rw [committed_write]
    rw [pending_write] at hq
    split at hq
    · rename_i hqp
      rw [hqp]
      exact hnone
    · exact h.inserted q u row' hq
  deleted := by
    intro q u hq
    rw [pending_write] at hq
    split at hq
    · cases hq
    · exact h.deleted q u hq

omit [DecidableEq α] in
/-- A child is written: its new version has the parent of the old one, which is not
being deleted by another transaction. -/
theorem Refers.writeChild
    (v : Option ρ)
    (hparent : ∀ r ∈ v, P.Shareable t (own k r))
    (hkept : ∀ r ∈ v, ∀ r₀ ∈ C.committed k, own k r = own k r₀)
    (hdel : ∀ r ∈ C.committed k, ∀ u, C.pending k = some (u, none) → u = t ∧ v = none) :
    Refers own P (C.write t k v) where
  committed := by
    intro k' r hr
    rw [committed_write] at hr
    exact h.committed k' r hr
  pending := by
    intro k' u r hr
    rw [pending_write] at hr
    split at hr
    · rename_i hk
      subst hk
      cases hr
      exact hparent r rfl
    · exact h.pending k' u r hr
  kept := by
    intro k' u r₀ r hr hr₀
    rw [committed_write] at hr₀
    rw [pending_write] at hr
    split at hr
    · rename_i hk
      subst hk
      cases hr
      exact hkept r rfl r₀ hr₀
    · exact h.kept k' u r₀ r hr hr₀
  inserted := h.inserted
  deleted := by
    intro p u hp k' r hr hown
    rw [committed_write] at hr
    have hold := h.deleted p u hp k' r hr hown
    rw [pending_write]
    split
    · rename_i hk
      subst hk
      obtain ⟨rfl, rfl⟩ := hdel r hr u hold
      rfl
    · exact hold

omit [DecidableEq α] in
theorem Refers.insertChild
    {r : ρ}
    (hnone : C.committed k = none)
    (hparent : P.Shareable t (own k r)) :
    Refers own P (C.write t k (some r)) := by
  refine h.writeChild _ ?_ ?_ ?_
  · rintro _ ⟨⟩
    exact hparent
  · simp [hnone]
  · simp [hnone]

omit [DecidableEq α] [DecidableEq κ] in
/-- A row that `t` can update is not being deleted with its parent. -/
theorem Refers.shareable_of_view
    {r : ρ}
    (hfree : C.Free t k)
    (hview : C.view t k = some r) :
    P.Shareable t (own k r) := by
  rcases C.view_cases t k with ⟨v, hv, heq⟩ | ⟨hnot, heq⟩ <;> rw [heq] at hview
  · subst hview
    exact h.pending k t r hv
  · have hsome := h.committed k r hview
    cases hp : P.pending (own k r) with
    | none =>
      refine ⟨?_, free_of_pending_none t hp⟩
      rw [view_of_pending_none hp]
      exact hsome
    | some x =>
      obtain ⟨u, v⟩ := x
      cases v with
      | none =>
        have hdel := h.deleted _ u hp k r hview rfl
        obtain rfl := pending_of_free hfree hdel
        exact absurd hdel (hnot none)
      | some row => exact absurd (h.inserted _ u row hp) hsome

section

omit [DecidableEq α]

theorem Refers.updateChild
    {r r' : ρ}
    (hfree : C.Free t k)
    (hview : C.view t k = some r)
    (hown : own k r' = own k r) :
    Refers own P (C.write t k (some r')) := by
  refine h.writeChild _ ?_ ?_ ?_
  · rintro _ ⟨⟩
    rw [hown]
    exact h.shareable_of_view hfree hview
  · rintro _ ⟨⟩ r₀ hr₀
    rw [hown]
    rcases C.view_cases t k with ⟨v, hv, heq⟩ | ⟨-, heq⟩ <;> rw [heq] at hview
    · subst hview
      exact h.kept k t r₀ r hv hr₀
    · rw [Option.some.inj (hview.symm.trans hr₀)]
  · intro _ _ _ hu
    obtain rfl := pending_of_free hfree hu
    rw [view_of_pending_self hu] at hview
    cases hview

theorem Refers.putChild
    {r : ρ}
    (hfree : C.pending k = none)
    (hsome : P.committed (own k r) ≠ none)
    (hparent : P.pending (own k r) = none) :
    Refers own P (C.put k (some r)) where
  committed := by
    intro k' r' hr
    rw [committed_put] at hr
    split at hr
    · rename_i hk
      subst hk
      cases hr
      exact hsome
    · exact h.committed k' r' hr
  pending := by
    intro k' u r' hr
    rw [pending_put] at hr
    exact h.pending k' u r' hr
  kept := by
    intro k' u r₀ r' hr hr₀
    rw [pending_put] at hr
    rw [committed_put, if_neg] at hr₀
    · exact h.kept k' u r₀ r' hr hr₀
    · rintro rfl
      rw [hfree] at hr
      cases hr
  inserted := h.inserted
  deleted := by
    intro p u hp k' r' hr hown
    rw [pending_put]
    rw [committed_put] at hr
    split at hr
    · rename_i hk
      subst hk
      cases hr
      rw [hown, hp] at hparent
      cases hparent
    · exact h.deleted p u hp k' r' hr hown

theorem Refers.deleteChild (hfree : C.Free t k) : Refers own P (C.write t k none) := by
  refine h.writeChild none (by simp) (by simp) ?_
  exact fun _ _ u hu => ⟨pending_of_free hfree hu, rfl⟩

end

theorem Refers.deleteParent
    {p : α}
    (hfree : P.Free t p)
    (hchildren : C.Unshared own t p) :
    Refers own (P.write t p none) (C.cascade own t p) where
  committed := by
    intro k r hr
    rw [cascade, committed_eraseAll] at hr
    rw [committed_write]
    exact h.committed k r hr
  pending := by
    intro k u r hr
    rw [cascade, pending_eraseAll] at hr
    split at hr
    · cases hr
    · rename_i hk
      refine (h.pending k u r hr).write hfree (fun hp => ?_)
      obtain rfl := hchildren.eq_of_pending hr hp
      exact absurd (mem_childrenOf.2 ⟨r, view_of_pending_self hr, hp⟩) hk
  kept := by
    intro k u r₀ r hr hr₀
    rw [cascade, committed_eraseAll] at hr₀
    rw [cascade, pending_eraseAll] at hr
    split at hr
    · cases hr
    · exact h.kept k u r₀ r hr hr₀
  inserted := by
    intro q u row hq
    rw [committed_write]
    rw [pending_write] at hq
    split at hq
    · cases hq
    · exact h.inserted q u row hq
  deleted := by
    intro q u hq k r hr hown
    rw [cascade, committed_eraseAll] at hr
    rw [cascade, pending_eraseAll]
    rw [pending_write] at hq
    split at hq
    · rename_i hqp
      subst hqp
      cases hq
      split
      · rfl
      · rename_i hk
        -- a child the cascade does not see has been deleted before
        rcases C.view_cases t k with ⟨v, hv, -⟩ | ⟨-, heq⟩
        · cases v with
          | none => exact hv
          | some r' =>
            have hown' : own k r' = q := (h.kept k t r r' hv hr).trans hown
            exact absurd (mem_childrenOf.2 ⟨r', view_of_pending_self hv, hown'⟩) hk
        · exact absurd (mem_childrenOf.2 ⟨r, heq.trans hr, hown⟩) hk
    · have hdel := h.deleted q u hq k r hr hown
      split
      · rename_i hk
        rw [pending_of_free (hchildren.free_of_child hk) hdel]
      · exact hdel

omit [DecidableEq α] [DecidableEq κ] in
theorem Refers.commit (t : τ) : Refers own (P.commit t) (C.commit t) where
  committed := by
    intro k r hr
    rw [committed_commit] at hr ⊢
    rcases C.view_cases t k with ⟨v, hv, heq⟩ | ⟨hnot, heq⟩ <;> rw [heq] at hr
    · subst hr
      exact (h.pending k t r hv).1
    · have hsome := h.committed k r hr
      rcases P.view_cases t (own k r) with ⟨v, hv, -⟩ | ⟨-, heq⟩
      · cases v with
        | none => exact absurd (h.deleted _ t hv k r hr rfl) (hnot none)
        | some row => exact absurd (h.inserted _ t row hv) hsome
      · rwa [heq]
  pending := by
    intro k u r hr
    obtain ⟨hr, hu⟩ := (pending_commit t C k u (some r)).1 hr
    exact (h.pending k u r hr).commit hu
  kept := by
    intro k u r₀ r hr hr₀
    obtain ⟨hr, hu⟩ := (pending_commit t C k u (some r)).1 hr
    rw [committed_commit, view_of_pending_other hr hu] at hr₀
    exact h.kept k u r₀ r hr hr₀
  inserted := by
    intro p u row hp
    obtain ⟨hp, hu⟩ := (pending_commit t P p u (some row)).1 hp
    rw [committed_commit, view_of_pending_other hp hu]
    exact h.inserted p u row hp
  deleted := by
    intro p u hp k r hr hown
    obtain ⟨hp, hu⟩ := (pending_commit t P p u none).1 hp
    rw [committed_commit] at hr
    rw [pending_commit]
    refine ⟨?_, hu⟩
    rcases C.view_cases t k with ⟨v, hv, heq⟩ | ⟨-, heq⟩ <;> rw [heq] at hr
    · subst hr
      have hsh := h.pending k t r hv
      rw [hown] at hsh
      exact absurd (pending_of_free hsh.2 hp) hu
    · exact h.deleted p u hp k r hr hown

omit [DecidableEq α] [DecidableEq κ] in
theorem Refers.rollback (t : τ) : Refers own (P.rollback t) (C.rollback t) where
  committed := by
    intro k r hr
    rw [committed_rollback] at hr ⊢
    exact h.committed k r hr
  pending := by
    intro k u r hr
    obtain ⟨hr, hu⟩ := (pending_rollback t C k u (some r)).1 hr
    exact (h.pending k u r hr).rollback hu
  kept := by
    intro k u r₀ r hr hr₀
    rw [committed_rollback] at hr₀
    exact h.kept k u r₀ r ((pending_rollback t C k u (some r)).1 hr).1 hr₀
  inserted := by
    intro p u row hp
    rw [committed_rollback]
    exact h.inserted p u row ((pending_rollback t P p u (some row)).1 hp).1
  deleted := by
    intro p u hp k r hr hown
    obtain ⟨hp, hu⟩ := (pending_rollback t P p u none).1 hp
    rw [committed_rollback] at hr
    rw [pending_rollback]
    exact ⟨h.deleted p u hp k r hr hown, hu⟩

/-- Every step keeps the foreign key. -/
theorem Refers.step (hs : RefStep own P C P' C') : Refers own P' C' := by
  cases hs with
  | same => exact h
  | insertParent _ _ row hfree hnone => exact h.insertParent row hfree hnone
  | insertChild _ _ _ hnone hparent => exact h.insertChild hnone hparent
  | updateChild _ _ _ _ hfree hview hown => exact h.updateChild hfree hview hown
  | putChild _ _ hfree hsome hparent => exact h.putChild hfree hsome hparent
  | deleteChild _ _ hfree => exact h.deleteChild hfree
  | deleteParent _ _ hfree hchildren => exact h.deleteParent hfree hchildren
  | commit t => exact h.commit t
  | rollback t => exact h.rollback t

end

omit [DecidableEq α] [DecidableEq κ] in
theorem refers_empty : Refers own (empty : Table α τ π) (empty : Table κ τ ρ) where
  committed := by
    intro _ _ hr
    cases hr
  pending := by
    intro _ _ _ hr
    cases hr
  kept := by
    intro _ _ _ _ hr
    cases hr
  inserted := by
    intro _ _ _ hp
    cases hp
  deleted := by
    intro _ _ hp
    cases hp

end Steps

end Swarog.Pg.Table
