import Mathlib

/-!
# Chains of rows

Rows that record the key of their successor.  `Chained row next l` says that the
keys in `l` have rows, that each row points to the key after it, and that the
last row points nowhere.  A chain grows at its end: the last row gets a
successor that was not there before.
-/

namespace Swarog.Pg

open List

variable {κ ρ : Type}

/-- The rows under `l` are linked by `next`, in this order. -/
def Chained (row : κ → Option ρ) (next : ρ → Option κ) : List κ → Prop
  | [] => False
  | [k] => ∃ r, row k = some r ∧ next r = none
  | k :: k' :: l => (∃ r, row k = some r ∧ next r = some k') ∧ Chained row next (k' :: l)

namespace Chained

variable {row row' : κ → Option ρ} {next : ρ → Option κ} {l : List κ} {k k' : κ} {r : ρ}

theorem singleton
    (hr : row k = some r)
    (hend : next r = none) :
    Chained row next [k] :=
  ⟨r, hr, hend⟩

/-- A chain depends on its own rows only. -/
theorem congr
    (h : Chained row next l)
    (heq : ∀ k ∈ l, row' k = row k) :
    Chained row' next l := by
  induction l with
  | nil => exact h
  | cons a l ih =>
    cases l with
    | nil =>
      obtain ⟨r, hr, hend⟩ := h
      exact ⟨r, (heq a (by simp)).trans hr, hend⟩
    | cons =>
      obtain ⟨⟨r, hr, hnext⟩, hrest⟩ := h
      refine ⟨⟨r, (heq a (by simp)).trans hr, hnext⟩, ih hrest ?_⟩
      exact fun k hk => heq k (mem_cons_of_mem a hk)

/-- The last row gets a successor. -/
theorem extend
    {r' : ρ}
    (h : Chained row next (l ++ [k]))
    (heq : ∀ a ∈ l, row' a = row a)
    (hr : row' k = some r)
    (hnext : next r = some k')
    (hr' : row' k' = some r')
    (hend : next r' = none) :
    Chained row' next (l ++ [k, k']) := by
  induction l with
  | nil => exact ⟨⟨r, hr, hnext⟩, r', hr', hend⟩
  | cons a l ih =>
    have hcons : ∀ x, Chained row next (a :: (l ++ [x])) →
        ∃ b m, l ++ [x] = b :: m ∧ (∃ r, row a = some r ∧ next r = some b) ∧
          Chained row next (l ++ [x]) := by
      intro x hx
      cases l with
      | nil => exact ⟨x, [], rfl, hx.1, hx.2⟩
      | cons b m => exact ⟨b, m ++ [x], rfl, hx.1, hx.2⟩
    obtain ⟨b, m, hbm, ⟨ra, hra, hrb⟩, hrest⟩ := hcons k h
    have ih' := ih hrest (fun x hx => heq x (mem_cons_of_mem a hx))
    have hhead : l ++ [k, k'] = b :: (m ++ [k']) := by
      rw [← cons_append, ← hbm]
      simp
    show Chained row' next (a :: (l ++ [k, k']))
    rw [hhead] at ih' ⊢
    exact ⟨⟨ra, (heq a (by simp)).trans hra, hrb⟩, ih'⟩

/-- Successors are found behind the head. -/
theorem next_mem_tail
    {a : κ}
    (h : Chained row next (a :: l))
    (hk : k ∈ a :: l)
    (hr : row k = some r)
    (hnext : next r = some k') :
    k' ∈ l := by
  induction l generalizing a with
  | nil =>
    cases mem_singleton.1 hk
    obtain ⟨_, hr', hend⟩ := h
    rw [hr] at hr'
    cases hr'
    rw [hnext] at hend
    cases hend
  | cons b _ ih =>
    obtain ⟨⟨_, hr', hb⟩, hrest⟩ := h
    rcases mem_cons.1 hk with rfl | hk
    · rw [hr] at hr'
      cases hr'
      rw [hnext] at hb
      cases hb
      exact mem_cons_self
    · exact mem_cons_of_mem b (ih hrest hk)

section

variable (h : Chained row next l)
include h

/-- The successor of a row is in the chain. -/
theorem next_mem
    (hk : k ∈ l)
    (hr : row k = some r)
    (hnext : next r = some k') :
    k' ∈ l := by
  cases l with
  | nil => exact h.elim
  | cons a => exact mem_cons_of_mem a (h.next_mem_tail hk hr hnext)

/-- Two rows do not share a successor. -/
theorem next_inj
    {a b : κ}
    {ra rb : ρ}
    (hnodup : l.Nodup)
    (ha : a ∈ l)
    (hra : row a = some ra)
    (hna : next ra = some k)
    (hb : b ∈ l)
    (hrb : row b = some rb)
    (hnb : next rb = some k) :
    a = b := by
  induction l with
  | nil => exact h.elim
  | cons _ l ih =>
    cases l with
    | nil => rw [mem_singleton.1 ha, mem_singleton.1 hb]
    | cons d l =>
      obtain ⟨⟨_, hrc, hd⟩, hrest⟩ := h
      obtain ⟨-, hnodup'⟩ := nodup_cons.1 hnodup
      -- a row behind the head cannot point to the second row
      have hsecond : ∀ x rx, x ∈ d :: l → row x = some rx → next rx ≠ some d := by
        intro _ _ hx hrx hnx
        exact (nodup_cons.1 hnodup').1 (hrest.next_mem_tail hx hrx hnx)
      rcases mem_cons.1 ha with rfl | ha'
      · rw [hra] at hrc
        cases hrc
        rw [hna] at hd
        cases hd
        rcases mem_cons.1 hb with rfl | hb'
        · rfl
        · exact absurd hnb (hsecond b rb hb' hrb)
      · rcases mem_cons.1 hb with rfl | hb'
        · rw [hrb] at hrc
          cases hrc
          rw [hnb] at hd
          cases hd
          exact absurd hna (hsecond a ra ha' hra)
        · exact ih hrest hnodup' ha' hb'

/-- The end of a chain. -/
theorem exists_end :
    ∃ m e, l = m ++ [e] ∧ (∃ r, row e = some r ∧ next r = none) ∧
      ∀ k ∈ m, ∃ r, row k = some r ∧ next r ≠ none := by
  induction l with
  | nil => exact h.elim
  | cons a l ih =>
    cases l with
    | nil => exact ⟨[], a, rfl, h, by simp⟩
    | cons b =>
      obtain ⟨⟨r, hr, hnext⟩, hrest⟩ := h
      obtain ⟨m, e, hl, hend, hm⟩ := ih hrest
      refine ⟨a :: m, e, by rw [hl]; rfl, hend, ?_⟩
      intro k hk
      rcases mem_cons.1 hk with rfl | hk
      · exact ⟨r, hr, by rw [hnext]; exact Option.some_ne_none b⟩
      · exact hm k hk

/-- Exactly one row of a chain has no successor. -/
theorem existsUnique_end : ∃! k, k ∈ l ∧ ∃ r, row k = some r ∧ next r = none := by
  obtain ⟨_, e, rfl, hend, hm⟩ := h.exists_end
  refine ⟨e, ⟨by simp, hend⟩, ?_⟩
  rintro k ⟨hk, _, hr, hnone⟩
  rcases mem_append.1 hk with hk | hk
  · obtain ⟨_, hr', hne⟩ := hm k hk
    rw [hr] at hr'
    cases hr'
    exact absurd hnone hne
  · exact mem_singleton.1 hk

/-- A row without successor is the last one. -/
theorem eq_append_of_end
    (hk : k ∈ l)
    (hr : row k = some r)
    (hend : next r = none) :
    ∃ m, l = m ++ [k] := by
  obtain ⟨m, e, rfl, hlast, -⟩ := h.exists_end
  obtain ⟨e', -, huniq⟩ := h.existsUnique_end
  have hke : k = e' := huniq k ⟨hk, r, hr, hend⟩
  have hee : e = e' := huniq e ⟨by simp, hlast⟩
  exact ⟨m, by rw [hke, hee]⟩

end

end Chained
end Swarog.Pg
