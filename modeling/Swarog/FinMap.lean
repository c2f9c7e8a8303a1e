import Mathlib

/-!
# Finite maps

The content of a hash map: a list of entries in which no key is repeated.  The order of
the entries has no meaning.
-/

namespace Swarog

/-- A finite map. -/
structure FinMap (κ ν : Type) where
  entries : List (κ × ν)
  nodup : (entries.map Prod.fst).Nodup
deriving DecidableEq

namespace FinMap

section Operations

variable {κ ν : Type}

def empty : FinMap κ ν := ⟨[], List.nodup_nil⟩

def size (m : FinMap κ ν) : Nat := m.entries.length

/-- Only the entries that satisfy `f` stay. -/
def retain (f : κ → ν → Bool) (m : FinMap κ ν) : FinMap κ ν where
  entries := m.entries.filter (fun e => f e.1 e.2)
  nodup := m.nodup.sublist (List.filter_sublist.map _)

variable [DecidableEq κ]

def get (m : FinMap κ ν) (k : κ) : Option ν :=
  (m.entries.find? (fun e => decide (e.1 = k))).map Prod.snd

/-- Insert an entry, or replace the value of its key. -/
def set (k : κ) (v : ν) (m : FinMap κ ν) : FinMap κ ν where
  entries := (k, v) :: m.entries.filter (fun e => decide (e.1 ≠ k))
  nodup := by
    rw [List.map_cons, List.nodup_cons]
    refine ⟨?_, m.nodup.sublist (List.filter_sublist.map _)⟩
    intro hk
    obtain ⟨_, he, hkey⟩ := List.mem_map.1 hk
    exact of_decide_eq_true (List.mem_filter.1 he).2 hkey

/-- Drop the entry of a key. -/
def remove (k : κ) (m : FinMap κ ν) : FinMap κ ν := m.retain (fun k' _ => decide (k' ≠ k))

end Operations

section Lookup

variable {κ ν : Type} [DecidableEq κ] {m : FinMap κ ν} {k k' : κ} {v : ν}

theorem get_eq_some : m.get k = some v ↔ (k, v) ∈ m.entries := by
  unfold get
  rw [Option.map_eq_some_iff]
  constructor
  · rintro ⟨⟨k', _⟩, hfind, rfl⟩
    have hkey : k' = k := by simpa using List.find?_some hfind
    subst hkey
    exact List.mem_of_find?_eq_some hfind
  · intro hmem
    obtain ⟨e, hfind⟩ : ∃ e, m.entries.find? (fun e => decide (e.1 = k)) = some e := by
      rw [← Option.isSome_iff_exists, List.find?_isSome]
      exact ⟨(k, v), hmem, by simp⟩
    refine ⟨e, hfind, ?_⟩
    have hkey : e.1 = k := by simpa using List.find?_some hfind
    have heq : e = (k, v) :=
      List.inj_on_of_nodup_map m.nodup (List.mem_of_find?_eq_some hfind) hmem hkey
    rw [heq]

@[simp] theorem get_set_self (k : κ) (v : ν) (m : FinMap κ ν) : (m.set k v).get k = some v :=
  get_eq_some.2 List.mem_cons_self

theorem get_set_of_ne (v : ν) (h : k' ≠ k) : (m.set k v).get k' = m.get k' := by
  refine Option.ext (fun v' => ?_)
  rw [get_eq_some, get_eq_some]
  show (k', v') ∈ (k, v) :: m.entries.filter (fun e => decide (e.1 ≠ k)) ↔ _
  simp [h]

theorem get_retain (f : κ → ν → Bool) (m : FinMap κ ν) (k : κ) :
    (m.retain f).get k = (m.get k).filter (f k) := by
  refine Option.ext (fun v => ?_)
  rw [get_eq_some, Option.filter_eq_some_iff, get_eq_some]
  exact List.mem_filter

@[simp] theorem get_remove_self (k : κ) (m : FinMap κ ν) : (m.remove k).get k = none := by
  rw [remove, get_retain]
  simp

theorem get_remove_of_ne (h : k' ≠ k) : (m.remove k).get k' = m.get k' := by
  rw [remove, get_retain]
  cases m.get k' <;> simp [h]

end Lookup

end FinMap
end Swarog
