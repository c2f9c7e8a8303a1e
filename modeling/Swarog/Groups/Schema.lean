import Swarog.Opsapi
import Swarog.Pg.Change
import Swarog.Pg.LockKey

/-!
# The schema of the groups service

A group has a row in `groups.groups`, and one row in `groups.memberships` for every
player related to it: its members, the players it has invited, and those who asked to
join.  A role belongs to members only.

The ids in events are the uuids that the texts of the source denote; an empty
`actor_id` is `none`.  Times are numbers of microseconds.
-/

namespace Swarog.Groups

open Pg

section Constants

def maxMembers : Nat := 500

def maxNameBytes : Nat := 64

/-- `accountsapi::MAX_HANDLE_BYTES`. -/
def maxHandleBytes : Nat := 128 + 5

/-- Rows per statement of the retention sweep. -/
def pruneBatch : Nat := 256

/-- Tombstones claimed per selection statement of the purge sweep. -/
def purgeBatch : Nat := 256

/-- Groups that one fire of the purge sweep may touch. -/
def groupsPerFire : Nat := 64

def dayMicros : Int := 86400000000

/-- The lock of the writes that decide from the roster of a group. -/
def groupLockKey (groupId : String) : Int := uuidLockKey "groups.group/" groupId

end Constants

section Vocabulary

inductive JoinPolicy
  | joinOpen
  | joinRequest
  | joinInvite
deriving DecidableEq

inductive Decision
  | accept
  | reject
deriving DecidableEq

inductive MemberState
  | member
  | invited
  | requested
deriving DecidableEq

def MemberState.text : MemberState → String
  | .member => "member"
  | .invited => "invited"
  | .requested => "requested"

/-- The column `role`; `empty` is the empty text. -/
inductive Role
  | empty
  | admin
  | member
deriving DecidableEq

inductive Reason
  | left
  | kicked
  | declined
  | expired
  | accountDeleted
  | groupDissolved
deriving DecidableEq

inductive Event
  | created (group : Uuid) (name : String) (creator : Uuid) (policy : JoinPolicy)
  | memberJoined (group player : Uuid) (role : Role)
  | memberLeft (group player : Uuid) (actor : Option Uuid) (reason : Reason)
  | roleChanged (group player : Uuid) (role : Role)
deriving DecidableEq

end Vocabulary

section Errors

def notFound : Error := Error.notFound "group not found"

def noSuchPlayer : Error := Error.notFound "no player with that handle"

def playerDeleted : Error := Error.conflict "this account has been deleted"

def handleTooLong : Error := Error.invalid s!"handle exceeds {maxHandleBytes} bytes"

def invitationOnly : Error := Error.conflict "this group admits members by invitation only"

def groupFull : Error := Error.conflict s!"group is full at {maxMembers} members"

def lastAdmin : Error := Error.conflict "the last admin cannot leave a group that still has members"

def ownMembership : Error := Error.conflict "use leave to end your own membership"

def validateName (name : String) : Except Error Unit :=
  if maxNameBytes < name.utf8ByteSize then
    .error (Error.invalid s!"name exceeds {maxNameBytes} bytes")
  else
    .ok ()

def validatePolicy (policy : String) : Except Error JoinPolicy :=
  if policy = "open" then
    .ok .joinOpen
  else if policy = "request" then
    .ok .joinRequest
  else if policy = "invite" then
    .ok .joinInvite
  else
    .error (Error.invalid "join_policy must be one of open, request, invite")

def validateDecision (decision : String) : Except Error Decision :=
  if decision = "accept" then
    .ok .accept
  else if decision = "reject" then
    .ok .reject
  else
    .error (Error.invalid "decision must be accept or reject")

/-- What the operator page answers for a promotion that is not made. -/
inductive Rejection
  | stale
  | rejected (msg : String)
  | internal (msg : String)
deriving DecidableEq

inductive Failure
  | error (e : Error)
  | rejection (r : Rejection)
deriving DecidableEq

end Errors

section Rows

/-- A row of `groups.groups`; its key is the id. -/
structure GroupRow where
  name : String
  joinPolicy : JoinPolicy
  creator : Uuid
deriving DecidableEq

/-- A row of `groups.memberships`; its key is the pair of group and player. -/
structure MemberRow where
  state : MemberState
  role : Role
  createdAt : Int
deriving DecidableEq

namespace MemberRow

/-- The constraint `memberships_role_check`. -/
def RoleOk (row : MemberRow) : Prop := row.state = .member ↔ row.role ≠ .empty

def IsMember (row : MemberRow) : Prop := row.state = .member

/-- The predicate of `VISIBLE_ROLE_SQL` for the role of an admin. -/
def IsAdmin (row : MemberRow) : Prop := row.state = .member ∧ row.role = .admin

instance (row : MemberRow) : Decidable row.RoleOk := inferInstanceAs (Decidable (_ ↔ _))

instance (row : MemberRow) : Decidable row.IsMember := inferInstanceAs (Decidable (_ = _))

instance (row : MemberRow) : Decidable row.IsAdmin := inferInstanceAs (Decidable (_ ∧ _))

/-- `promote_tx`: the row as a member with the given role. -/
def promote (row : MemberRow) (role : Role) : MemberRow :=
  { row with state := .member, role := role }

end MemberRow

/-- The counts of `counts_tx`. -/
structure Counts where
  rows : Nat
  members : Nat
  admins : Nat
deriving DecidableEq

/-- A change of `groups.memberships` with its events. -/
abbrev Change := Pg.Change (Uuid × Uuid) MemberRow Event

end Rows

end Swarog.Groups
