import Swarog.Net.Ip
import Swarog.Opsapi
import Swarog.Pg.Uuid

/-!
# Money movements

The input side of the wallet: the movement a caller describes, the policy
`validate_movement` checks it against, the errors of the movement authority and
the identity under which a replayed movement is recognised.

A player id travels as text.  Every statement casts it to `uuid`, so two
spellings of one uuid are one player; `player_id_eq` compares their hexadecimal
digits instead of their bytes.
-/

namespace Swarog.Wallet

open Pg

def idempotencyConflict : Error :=
  Error.conflict "idempotency_key already records a different movement"

def outOfRange : Error :=
  Error.conflict "movement rejected: insufficient funds or balance ceiling exceeded"

def unknownCurrency : Error := Error.invalid "unknown currency"

def malformedPlayerId : Error := Error.invalid "player_id is not a valid uuid"

def playerDeleted : Error := Error.conflict "player has been deleted"

def ledgerRowDisappeared : Error := Error.internal "conflicting ledger row disappeared"

/-- One requested movement.  The direction is the method, never the sign of the
amount. -/
structure Movement where
  idempotencyKey : String
  playerId : String
  currency : String
  amount : Int
  reason : String
deriving DecidableEq

def maxIdempotencyKeyBytes : Nat := 128
def maxCurrencyCodeBytes : Nat := 32
def maxReasonBytes : Nat := 256
def maxMovementAmount : Int := 1000000000000

/-- The upper bound of `balances_amount_check`. -/
def maxBalance : Int := 1000000000000000

/-- The movement-input policy. -/
def validateMovement (m : Movement) : Except Error Unit :=
  if m.idempotencyKey = "" then
    .error (.invalid "idempotency_key is required")
  else if maxIdempotencyKeyBytes < m.idempotencyKey.utf8ByteSize then
    .error (.invalid "idempotency_key exceeds 128 bytes")
  else if m.playerId.toList.all Net.isWhiteSpace then
    .error (.invalid "player_id is required")
  else if m.currency = "" then
    .error (.invalid "currency is required")
  else if maxCurrencyCodeBytes < m.currency.utf8ByteSize then
    .error (.invalid "currency exceeds 32 bytes")
  else if maxReasonBytes < m.reason.utf8ByteSize then
    .error (.invalid "reason exceeds 256 bytes")
  else if m.amount < 1 ∨ maxMovementAmount < m.amount then
    .error (.invalid "amount must be within 1..=1000000000000")
  else
    .ok ()

section PlayerId

/-- The 32 digits of a uuid spelling. -/
def hex32 (s : String) : Option (List Char) :=
  let hex := hexOf s.toList
  if hex.length = 32 then some hex else none

/-- The scan of `is_uuid_text` after `digits` digits. -/
def isUuidTextFrom : Nat → Bool → List Char → Bool
  | _, _, [] => true
  | digits, afterHyphen, c :: cs =>
    if c ∈ hexDigits then
      isUuidTextFrom (digits + 1) false cs
    else if c = '-' ∧ afterHyphen = false ∧ digits % 4 = 0 ∧ 1 ≤ digits ∧ digits < 32 then
      isUuidTextFrom digits true cs
    else
      false

/-- The spellings the starter grant accepts. -/
def isUuidText (id : String) : Bool := (hex32 id).isSome && isUuidTextFrom 0 false id.toList

/-- Two spellings name one player. -/
def playerIdEq (a b : String) : Bool :=
  match hex32 a, hex32 b with
  | some x, some y => x == y
  | _, _ => a == b

theorem hex32_text (u : Uuid) : hex32 u.text = some u.digits := by
  simp [hex32, Uuid.hexOf_text, u.length_eq]

theorem hex32_of_ofText {s : String} {u : Uuid} (h : Uuid.ofText s = some u) :
    hex32 s = some u.digits := by
  simp [hex32, Uuid.hexOf_of_ofText h, u.length_eq]

/-- On spellings the database accepts, the comparison is equality of uuids. -/
theorem playerIdEq_text {u v : Uuid} {s : String} (h : Uuid.ofText s = some v) :
    playerIdEq u.text s = true ↔ v = u := by
  simp only [playerIdEq, hex32_text, hex32_of_ofText h, beq_iff_eq]
  constructor
  · exact fun hd => Uuid.ext_digits hd.symm
  · rintro rfl
    rfl

end PlayerId

/-- The three callers of the movement authority. -/
inductive Origin
  | credit
  | debit
  | starterGrant
deriving DecidableEq

/-- The sign the authority is called with. -/
def Origin.sign : Origin → Int
  | .credit => 1
  | .debit => -1
  | .starterGrant => 1

/-- One call of the movement authority. -/
structure Call where
  origin : Origin
  movement : Movement
deriving DecidableEq

namespace Call

def key (c : Call) : String := c.movement.idempotencyKey

def currency (c : Call) : String := c.movement.currency

/-- The signed amount. -/
def delta (c : Call) : Int := c.origin.sign * c.movement.amount

/-- The player the call names, if its id is a uuid. -/
def player (c : Call) : Option Uuid := Uuid.ofText c.movement.playerId

end Call

/-- The movement of a starter grant. -/
def starterMovement (playerId currency : String) (amount : Int) : Movement where
  idempotencyKey := "starter:" ++ playerId
  playerId := playerId
  currency := currency
  amount := amount
  reason := "starter-grant"

/-- A row of `wallet.ledger`, stored under its idempotency key. -/
structure LedgerRow where
  seq : Nat
  id : Nat
  player : Uuid
  currency : String
  delta : Int
  balanceAfter : Int
  reason : String
deriving DecidableEq

/-- The identity under which a duplicate key is accepted as a replay. -/
def sameMovement (existing : LedgerRow) (c : Call) : Bool :=
  existing.delta == c.delta && existing.currency == c.currency &&
    existing.reason == c.movement.reason &&
    playerIdEq existing.player.text c.movement.playerId

/-- The row records exactly what the call describes: the same player, currency,
signed amount and reason. -/
structure Describes (c : Call) (row : LedgerRow) : Prop where
  player : c.player = some row.player
  currency : c.currency = row.currency
  delta : c.delta = row.delta
  reason : c.movement.reason = row.reason

instance (c : Call) (row : LedgerRow) : Decidable (Describes c row) :=
  decidable_of_iff
    (c.player = some row.player ∧ c.currency = row.currency ∧ c.delta = row.delta ∧
      c.movement.reason = row.reason)
    ⟨fun h => ⟨h.1, h.2.1, h.2.2.1, h.2.2.2⟩, fun h => ⟨h.1, h.2, h.3, h.4⟩⟩

/-- For a call that names a uuid, the comparison of the duplicate branch decides
exactly whether the stored row records the same movement. -/
theorem sameMovement_iff {row : LedgerRow} {c : Call} {p : Uuid} (hp : c.player = some p) :
    sameMovement row c = true ↔ Describes c row := by
  simp only [sameMovement, Bool.and_eq_true, beq_iff_eq, playerIdEq_text hp]
  constructor
  · rintro ⟨⟨⟨hd, hc⟩, hr⟩, hpl⟩
    exact ⟨by rw [hp, hpl], hc.symm, hd.symm, hr.symm⟩
  · rintro ⟨hpl, hc, hd, hr⟩
    rw [hp, Option.some.injEq] at hpl
    exact ⟨⟨⟨hd.symm, hc.symm⟩, hr.symm⟩, hpl⟩

end Swarog.Wallet
