import Swarog.Opsapi
import Swarog.Pg.Change
import Swarog.Pg.LockKey

/-!
# The schema of the party service

A party has a row in `party.parties`; its members have one row each in
`party.members`, whose key is the player, so that a player is in one party at most.
`party.invites` is keyed here by party and invitee, which are unique together; the id
of an invite is a column.  `party.player_revisions` holds the last revision of players
that are in no party.

Revisions are drawn from one sequence.  Times are numbers.
-/

namespace Swarog.Party

open Pg

section Constants

def maxMembers : Nat := 8

/-- `accountsapi::MAX_HANDLE_BYTES`. -/
def maxHandleBytes : Nat := 128 + 5

/-- Attempts at reading the caller's party, locking it and reading it again. -/
def membershipAttempts : Nat := 3

/-- Parties that one pass of the lease sweep selects. -/
def sweepBatch : Nat := 64

/-- The lock of the writes that remove members of a party, stamp it or count it. -/
def partyLockKey (partyId : String) : Int := uuidLockKey "party.party/" partyId

end Constants

section Rows

inductive Ready
  | ready
  | notReady
deriving DecidableEq

structure PartyRow where
  leader : Uuid
  revision : Nat
deriving DecidableEq

structure MemberRow where
  party : Uuid
  ready : Ready
  joinedAt : Int
  leaseUntil : Int
deriving DecidableEq

structure InviteRow where
  id : Uuid
  inviter : Uuid
  expiresAt : Int
deriving DecidableEq

/-- A change of a row; the service appends no events. -/
abbrev Patch (κ ρ : Type) := Pg.Change κ ρ Empty

def patch {κ ρ : Type} (key : κ) (old new : Option ρ) : Patch κ ρ := ⟨key, old, new, []⟩

/-- What `PLAYER_VIEW_SQL` reads; without a party there is no leader and no roster. -/
structure View where
  party : Option Uuid
  revision : Nat
  leader : Option Uuid
  members : List (Uuid × Ready)
deriving DecidableEq

/-- No flag is both unset and set. -/
theorem false_true_elim {b : Bool} {P : Prop} (hf : b = false) (ht : b = true) : P :=
  nomatch hf.symm.trans ht

end Rows

section Errors

def notFound : Error := Error.notFound "party not found"

def inviteNotFound : Error := Error.notFound "invite not found"

def noSuchPlayer : Error := Error.notFound "no player with that handle"

def alreadyInParty : Error := Error.conflict "already in a party"

def inThisParty : Error := Error.conflict "player is already in this party"

def partyFull : Error := Error.conflict s!"party is full ({maxMembers} members)"

def changedConcurrently : Error := Error.conflict "party membership changed concurrently; retry"

def vanished : Error := Error.internal "membership vanished while the party was locked"

def handleTooLong : Error := Error.invalid s!"handle exceeds {maxHandleBytes} bytes"

end Errors

section Validation

/-- The text has the shape of a uuid in its canonical spelling. -/
def isUuidText (s : String) : Bool :=
  s.utf8ByteSize == 36 &&
    (s.toList.zipIdx.all (fun (c, i) =>
      if i == 8 || i == 13 || i == 18 || i == 23 then c == '-' else c ∈ hexDigits))

/-- An id that the caller supplies. -/
def uuidArg (name value : String) : Except Error Uuid :=
  if isUuidText value then
    match Uuid.ofText value with
    | some u => .ok u
    | none => .error (Error.invalid (name ++ " is not a valid uuid"))
  else
    .error (Error.invalid (name ++ " is not a valid uuid"))

def validateState (state : String) : Except Error Ready :=
  if state = "ready" then
    .ok .ready
  else if state = "not_ready" then
    .ok .notReady
  else
    .error (Error.invalid "state must be ready or not_ready")

end Validation

end Swarog.Party
