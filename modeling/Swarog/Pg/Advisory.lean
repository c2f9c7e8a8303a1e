import Swarog.Pg.Session

/-!
# Advisory locks

An advisory lock belongs to at most one session.  A session may take a lock that
it holds already; it gives its locks back at the end of its transaction, or some
of them when it returns to a savepoint.  No statement touches the locks of another
session (`Locks.Apart`), so a session at a program point behind the statement that
takes a lock holds it (`Programs.holds_locks`), and two sessions at program points
that need the same lock are one (`Locks.HeldBy.exclusive`).
-/

namespace Swarog.Pg

/-- Who holds which advisory lock. -/
abbrev Locks := Int → Option Sess

namespace Locks

/-- No lock is held. -/
def free : Locks := fun _ => none

/-- `t` can take the lock. -/
def Takeable (L : Locks) (t : Sess) (key : Int) : Prop := ∀ u ∈ L key, u = t

instance (L : Locks) (t : Sess) (key : Int) : Decidable (L.Takeable t key) :=
  inferInstanceAs (Decidable (∀ u ∈ L key, u = t))

def take (L : Locks) (t : Sess) (key : Int) : Locks := Function.update L key (some t)

/-- The locks after `t` has kept those in `kept` and given back the others. -/
def keep (L : Locks) (t : Sess) (kept : List Int) : Locks :=
  fun key => if L key = some t ∧ key ∉ kept then none else L key

/-- The locks after the end of the transaction of `t`. -/
def release (L : Locks) (t : Sess) : Locks := L.keep t []

/-- Nothing happened to the locks of the sessions other than `t`. -/
def Apart (t : Sess) (L L' : Locks) : Prop := ∀ key u, u ≠ t → L key = some u → L' key = some u

variable {L L' : Locks} {t u : Sess} {key key' : Int} {kept : List Int}

theorem apart_refl : Apart t L L := fun _ _ _ h => h

theorem apart_take (h : L.Takeable t key) : Apart t L (L.take t key) := by
  intro key' u hu hL
  have hne : key' ≠ key := by
    rintro rfl
    exact hu (h u hL)
  rw [take, Function.update_of_ne hne, hL]

theorem apart_keep : Apart t L (L.keep t kept) := by
  intro _ _ hu hL
  rw [keep, if_neg (fun hh => hu (Option.some.inj (hL.symm.trans hh.1))), hL]

theorem apart_release : Apart t L (L.release t) := apart_keep

@[simp] theorem take_self : L.take t key key = some t := Function.update_self key _ _

theorem take_of_held (h : L key' = some t) : L.take t key key' = some t := by
  by_cases he : key' = key
  · rw [he, take_self]
  · rw [take, Function.update_of_ne he, h]

theorem keep_of_mem
    (h : L key = some t)
    (hk : key ∈ kept) :
    L.keep t kept key = some t := by
  rw [keep, if_neg (fun hh => hh.2 hk), h]

/-- `t` holds the locks `keys`. -/
def HeldBy (L : Locks) (t : Sess) (keys : List Int) : Prop := ∀ key ∈ keys, L key = some t

theorem heldBy_nil : L.HeldBy t [] := by
  intro _ hkey
  cases hkey

theorem heldBy_take : (L.take t key).HeldBy t [key] := by
  intro _ hkey'
  rw [List.mem_singleton.1 hkey', take_self]

/-- Two sessions that hold the same lock are one. -/
theorem HeldBy.exclusive
    {keys keys' : List Int}
    (ht : L.HeldBy t keys)
    (hu : L.HeldBy u keys')
    (hk : key ∈ keys)
    (hk' : key ∈ keys') :
    t = u :=
  Option.some.inj ((ht key hk).symm.trans (hu key hk'))

/-- What a statement of `t` does to the locks, and to those that `t` needs. -/
structure Passes
    (t : Sess)
    (L : Locks)
    (keys : List Int)
    (L' : Locks)
    (keys' : List Int) :
    Prop where
  apart : Apart t L L'
  held : L.HeldBy t keys → L'.HeldBy t keys'

variable {keys : List Int}

theorem Passes.same : Passes t L keys L keys := ⟨apart_refl, id⟩

theorem Passes.done : Passes t L keys L [] := ⟨apart_refl, fun _ => heldBy_nil⟩

theorem Passes.take (h : L.Takeable t key) : Passes t L keys (L.take t key) [key] :=
  ⟨apart_take h, fun _ => heldBy_take⟩

theorem Passes.release : Passes t L keys (L.release t) [] := ⟨apart_release, fun _ => heldBy_nil⟩

end Locks

/-- A session holds the locks that its program point needs. -/
theorem Programs.holds_locks
    {D P A : Type} {X : Programs D P A} {G : World D P → Sess × A → Prop} {w : World D P}
    (L : D → Locks) (keys : P → List Int) (hidle : keys X.idle = [])
    (hpass : ∀ t a d, (X.stmt t a).guard d → Locks.Passes t (L d) (keys (X.stmt t a).before)
      (L ((X.stmt t a).change d)) (keys ((X.stmt t a).after d)))
    (h : X.system.Reachable G w) : ∀ t, (L w.data).HeldBy t (keys (w.pc t)) := by
  refine local_invariant (L := fun d t p => (L d).HeldBy t (keys p)) ?_ ?_ ?_ h
  · intro _
    rw [hidle]
    exact Locks.heldBy_nil
  · intro w t a _ _ en
    exact (hpass t a w.data en.2).held
  · intro w t a u _ _ en hu hk key hkey
    exact (hpass t a w.data en.2).apart key u hu (hk key hkey)

end Swarog.Pg
