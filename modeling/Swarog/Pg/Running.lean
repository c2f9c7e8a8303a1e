import Mathlib

/-!
# Running totals

A statement of account is a list of entries, each with the amount it changed
the total by and the total it left.  `Running m l` says that the totals of `l`
are right when the total before its first entry was `m`.  The last total then
is the sum of the changes (`Running.total_eq`), and a statement is extended at
its end (`running_append_singleton`).

Entries are listed by a sequence number.  `sortBy` is that listing; on entries
with different numbers it does not depend on the order they are given in.
-/

namespace Swarog.Pg

section Running

variable {α M : Type}
variable (change after : α → M)

/-- The total after the entries of `l`. -/
def total (m : M) (l : List α) : M := (l.getLast?.map after).getD m

theorem total_cons
    (m : M)
    (a : α)
    (l : List α) :
    total after m (a :: l) = total after (after a) l := by
  cases l with
  | nil => rfl
  | cons => simp [total, List.getLast?_cons]

variable [AddMonoid M]

/-- Every entry leaves the total before it plus its own change. -/
def Running : M → List α → Prop
  | _, [] => True
  | m, a :: l => after a = m + change a ∧ Running (after a) l

theorem running_append_singleton
    (m : M)
    (l : List α)
    (a : α) :
    Running change after m (l ++ [a])
      ↔
    Running change after m l ∧ after a = total after m l + change a := by
  induction l generalizing m with
  | nil => simp [Running, total]
  | cons b l ih => rw [List.cons_append, Running, Running, ih, total_cons, and_assoc]

/-- The last total is the sum of the changes. -/
theorem Running.total_eq
    {m : M}
    {l : List α}
    (h : Running change after m l) :
    total after m l = m + (l.map change).sum := by
  induction l generalizing m with
  | nil => simp [total]
  | cons a l ih => rw [total_cons, ih h.2, h.1, List.map_cons, List.sum_cons, add_assoc]

/-- Running totals of entries that are read off other entries. -/
theorem running_map
    {β : Type}
    (f : β → α)
    (m : M)
    (l : List β) :
    Running change after m (l.map f)
      ↔
    Running (fun b => change (f b)) (fun b => after (f b)) m l := by
  induction l generalizing m with
  | nil => rfl
  | cons b l ih => rw [List.map_cons, Running, Running, ih]

end Running

section SortBy

variable {α : Type}
variable (f : α → Nat)

/-- The entries of `l` by increasing `f`. -/
def sortBy (l : List α) : List α := l.insertionSort (fun a b => f a ≤ f b)

/-- A permutation of a strictly increasing list is sorted into it. -/
theorem sortBy_eq_of_perm
    {l l' : List α}
    (hperm : l.Perm l')
    (hlt : l'.Pairwise (fun a b => f a < f b)) :
    sortBy f l = l' := by
  have hinj : ∀ a ∈ l', ∀ b ∈ l', f a = f b → a = b := by
    have hnodup : (l'.map f).Nodup := List.pairwise_map.2 (hlt.imp Nat.ne_of_lt)
    exact fun a ha b hb hab => List.inj_on_of_nodup_map hnodup ha hb hab
  have hsort : (sortBy f l).Perm l' := (List.perm_insertionSort _ l).trans hperm
  have : Std.Total (fun a b : α => f a ≤ f b) := ⟨fun a b => Nat.le_total (f a) (f b)⟩
  have : IsTrans α (fun a b : α => f a ≤ f b) := ⟨fun a b c => Nat.le_trans⟩
  refine List.Perm.eq_of_pairwise ?_ (List.pairwise_insertionSort _ l)
    (hlt.imp Nat.le_of_lt) hsort
  intro a b ha hb hab hba
  exact hinj a (hsort.mem_iff.1 ha) b hb (Nat.le_antisymm hab hba)

end SortBy

end Swarog.Pg
