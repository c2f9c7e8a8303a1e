import Swarog.Opsapi
import Swarog.Pg.LockKey

/-!
# The schema of the friends service

One row of `friends.edges` stands for a pair of players, stored in the order of
their ids; `requester` says which of them asked.  The transitions are asymmetric:
only the party that did not ask may answer a pending request.

Times (`created_at`, `accepted_at`) are read by listings only and are left out.
The ids in events are the uuids that the texts of the source denote.
-/

namespace Swarog.Friends

open Pg

section Constants

def maxPendingOutstanding : Nat := 100

/-- Tombstones claimed per selection statement of the sweep. -/
def purgeBatch : Nat := 256

/-- `accountsapi::MAX_HANDLE_BYTES`. -/
def maxHandleBytes : Nat := 128 + 5

def notFound : Error := Error.notFound "friend relation not found"

def noSuchPlayer : Error := Error.notFound "no player with that handle"

def playerDeleted : Error := Error.conflict "this account has been deleted"

def handleTooLong : Error := Error.invalid s!"handle exceeds {maxHandleBytes} bytes"

def selfRequest : Error := Error.invalid "cannot send a friend request to yourself"

def tooManyOutstanding : Error :=
  Error.conflict s!"at most {maxPendingOutstanding} outstanding friend requests"

def unresolvable : Error := Error.internal "friend relation neither created nor resolvable"

/-- The lock of the requests of one player. -/
def requesterLockKey (playerId : String) : Int := uuidLockKey "friends.requester/" playerId

end Constants

section Pairs

/-- `(least($1, $2), greatest($1, $2))`. -/
def pairOf (a b : Uuid) : Uuid × Uuid := if a.value ≤ b.value then (a, b) else (b, a)

/-- `$1 IN (low_id, high_id)`. -/
def Party (k : Uuid × Uuid) (p : Uuid) : Prop := p = k.1 ∨ p = k.2

instance (k : Uuid × Uuid) (p : Uuid) : Decidable (Party k p) := inferInstanceAs (Decidable (_ ∨ _))

/-- `CASE WHEN low_id = $1 THEN high_id ELSE low_id END`. -/
def otherOf (k : Uuid × Uuid) (p : Uuid) : Uuid := if k.1 = p then k.2 else k.1

/-- `CHECK (low_id < high_id)`. -/
def Ordered (k : Uuid × Uuid) : Prop := k.1.value < k.2.value

instance (k : Uuid × Uuid) : Decidable (Ordered k) := inferInstanceAs (Decidable (_ < _))

theorem pairOf_comm (a b : Uuid) : pairOf a b = pairOf b a := by
  unfold pairOf
  split <;> rename_i hab <;> split <;> rename_i hba
  · rw [Uuid.value_injective (Nat.le_antisymm hab hba)]
  · rfl
  · rfl
  · omega

theorem party_pairOf_left (a b : Uuid) : Party (pairOf a b) a := by
  unfold pairOf
  split
  · exact .inl rfl
  · exact .inr rfl

theorem party_pairOf_right (a b : Uuid) : Party (pairOf a b) b := by
  rw [pairOf_comm]
  exact party_pairOf_left b a

/-- An ordered pair is the pair of its parties. -/
theorem Ordered.pairOf_eq
    {k : Uuid × Uuid}
    {a b : Uuid}
    (h : Ordered k)
    (ha : Party k a)
    (hb : Party k b)
    (hab : a ≠ b) :
    pairOf a b = k := by
  rcases ha with rfl | rfl <;> rcases hb with rfl | rfl
  · exact absurd rfl hab
  · exact if_pos (Nat.le_of_lt h)
  · exact if_neg (Nat.not_le.2 h)
  · exact absurd rfl hab

theorem Ordered.ne {a b : Uuid} (h : Ordered (pairOf a b)) : a ≠ b := by
  rintro rfl
  rw [pairOf, if_pos (Nat.le_refl _)] at h
  exact Nat.lt_irrefl _ h

theorem party_otherOf (k : Uuid × Uuid) (p : Uuid) : Party k (otherOf k p) := by
  unfold otherOf
  split
  · exact .inr rfl
  · exact .inl rfl

theorem Ordered.otherOf_ne
    {k : Uuid × Uuid}
    {p : Uuid}
    (h : Ordered k) :
    otherOf k p ≠ p := by
  intro he
  have hlt : k.1.value < k.2.value := h
  unfold otherOf at he
  split at he
  · rename_i h1
    rw [h1, he] at hlt
    omega
  · rename_i h1
    exact h1 he

/-- The other party is the one that is not `p`. -/
theorem Ordered.otherOf_eq
    {k : Uuid × Uuid}
    {p q : Uuid}
    (h : Ordered k)
    (hp : Party k p)
    (hq : Party k q)
    (hpq : p ≠ q) :
    otherOf k p = q := by
  have hlt : k.1.value < k.2.value := h
  rcases hp with rfl | rfl <;> rcases hq with rfl | rfl
  · exact absurd rfl hpq
  · exact if_pos rfl
  · exact if_neg (fun he => by rw [he] at hlt; omega)
  · exact absurd rfl hpq

end Pairs

section Rows

inductive EdgeState
  | pending
  | accepted
deriving DecidableEq

/-- A row of `friends.edges`; its key is the ordered pair. -/
structure EdgeRow where
  id : Uuid
  requester : Uuid
  state : EdgeState
deriving DecidableEq

/-- The row of a new request. -/
def EdgeRow.request (id requester : Uuid) : EdgeRow := ⟨id, requester, .pending⟩

/-- The row after its acceptance. -/
def EdgeRow.accept (row : EdgeRow) : EdgeRow := { row with state := .accepted }

/-- The consent rule: a pending request is answered by the party that did not
author it. -/
def EdgeRow.Answerable (row : EdgeRow) (me : Uuid) : Prop :=
  row.state = .pending ∧ row.requester ≠ me

instance (row : EdgeRow) (me : Uuid) : Decidable (row.Answerable me) :=
  inferInstanceAs (Decidable (_ ∧ _))

end Rows

section Payloads

/-- A player with the handle it had when the event was made. -/
structure Named where
  id : Uuid
  handle : String
deriving DecidableEq

inductive Reason
  | declined
  | unfriended
  | withdrawn
  | accountDeleted
deriving DecidableEq

/-- The durable events of the service. -/
inductive Event
  | requested (edge : Uuid) (requester addressee : Named)
  | accepted (edge : Uuid) (requester addressee : Named)
  | removed (edge : Uuid) (actor other : Named) (reason : Reason)
deriving DecidableEq

/-- The edge an event is about. -/
def Event.edge : Event → Uuid
  | .requested e _ _ | .accepted e _ _ | .removed e _ _ _ => e

/-- The directory's summary of a player. -/
structure PlayerSummary where
  playerId : Uuid
  displayName : String
  handle : String
  onlineUntil : String
deriving DecidableEq

/-- Why `remove` ended the relation, decided from the deleted row. -/
def removalReason (row : EdgeRow) (me : Uuid) : Reason :=
  if row.state = .accepted then .unfriended
  else if row.requester = me then .withdrawn
  else .declined

end Payloads

end Swarog.Friends
