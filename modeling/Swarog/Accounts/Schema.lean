import Swarog.Opsapi
import Swarog.Pg.LockKey

/-!
# The schema of the accounts service

The rows of the `accounts` schema, the constants that the statements apply, the
advisory lock keys, and `classify_presentation`, the one decision that every
presented refresh token goes through.

Times are seconds.  Columns that no modelled statement reads (`created_at`,
`claimed_at`, `issued_at`, `secret_hash`) are left out.
-/

namespace Swarog.Accounts

open Pg

section Constants

def accessTtlMinutes : Nat := 60
def refreshTtlDays : Nat := 30
def refreshGraceSeconds : Nat := 30
def deleteTicketTtlMinutes : Nat := 10
def handleMintAttempts : Nat := 8
def maxSessionTokenBytes : Nat := 128
def maxDeleteTicketBytes : Nat := 128

/-- The lifetime the API reports for an access token. -/
def accessExpiresInSecs : Nat := accessTtlMinutes * 60

def sessionTokenWithinCap (token : String) : Prop := token.utf8ByteSize ≤ maxSessionTokenBytes

instance (token : String) : Decidable (sessionTokenWithinCap token) :=
  inferInstanceAs (Decidable (_ ≤ _))

def deleteTicketWithinCap (ticket : String) : Prop := ticket.utf8ByteSize ≤ maxDeleteTicketBytes

instance (ticket : String) : Decidable (deleteTicketWithinCap ticket) :=
  inferInstanceAs (Decidable (_ ≤ _))

/-- The provider of the anonymous device identity. -/
def guest : String := "guest"

/-- The provider of a password identity. -/
def dev : String := "dev"

end Constants

section Handles

/-- The four digits made of a random draw. -/
def newDiscriminator (draw : Nat) : String :=
  String.ofList
    [Nat.digitChar (draw / 1000 % 10), Nat.digitChar (draw / 100 % 10),
      Nat.digitChar (draw / 10 % 10), Nat.digitChar (draw % 10)]

def renderHandle (displayName discriminator : String) : String :=
  displayName ++ "#" ++ discriminator

end Handles

section LockKeys

/-- The lock key of the writers of one `(provider, subject)`. -/
def identityLockKey (provider subject : String) : Int :=
  asI64 (fnv1a ("accounts.identity.v1".toUTF8.toList ++ [0] ++ provider.toUTF8.toList ++ [0] ++
    subject.toUTF8.toList))

/-- The lock key of the writers of one player's identity set. -/
def playerLockKey (playerId : String) : Int :=
  asI64 (fnv1a ("accounts.player.v1".toUTF8.toList ++ [0] ++ playerId.toUTF8.toList))

end LockKeys

section Rows

/-- A row of `accounts.players`; its key is the player id.  `lowered` is the `lower` of the
display name, which depends on the locale of the database. -/
structure PlayerRow where
  displayName : String
  lowered : String
  discriminator : String
deriving DecidableEq

/-- The registry key of a player's handle. -/
def PlayerRow.pair (row : PlayerRow) : String × String := (row.lowered, row.discriminator)

def PlayerRow.handle (row : PlayerRow) : String := renderHandle row.displayName row.discriminator

/-- A row of `accounts.handles`; its key is the pair. -/
structure HandleRow where
  player : Option Uuid
deriving DecidableEq

/-- A row of `accounts.delete_tickets`; its key is the player id. -/
structure TicketRow where
  ticket : String
  expiresAt : Nat
deriving DecidableEq

/-- A row of `accounts.deletion_receipts`; its key is the player id. -/
structure ReceiptRow where
  handle : String
  ticket : String
  deletedAt : Nat
deriving DecidableEq

/-- A row of `accounts.identities`; its key is `(provider, subject)`. -/
structure IdentityRow where
  player : Uuid
deriving DecidableEq

/-- A row of `accounts.sessions`; its key is the access token. -/
structure SessionRow where
  player : Uuid
  family : Uuid
  expiresAt : Nat
deriving DecidableEq

/-- A row of `accounts.refresh_tokens`; its key is the refresh token. -/
structure TokenRow where
  player : Uuid
  family : Uuid
  expiresAt : Nat
  usedAt : Option Nat
  replacedBy : Option String
deriving DecidableEq

/-- The first row of a family. -/
def TokenRow.first (player family : Uuid) (now : Nat) : TokenRow where
  player := player
  family := family
  expiresAt := now + refreshTtlDays * 24 * 60 * 60
  usedAt := none
  replacedBy := none

/-- The row after its rotation. -/
def TokenRow.consume (row : TokenRow) (now : Nat) (successor : String) : TokenRow :=
  { row with usedAt := some now, replacedBy := some successor }

/-- The row of the successor. -/
def TokenRow.successor (row : TokenRow) : TokenRow :=
  { row with usedAt := none, replacedBy := none }

/-- The row of an access token. -/
def SessionRow.access (player family : Uuid) (now : Nat) : SessionRow where
  player := player
  family := family
  expiresAt := now + accessTtlMinutes * 60

end Rows

section Presentation

/-- The facts about a presented refresh token. -/
structure RefreshRow where
  playerId : Uuid
  familyId : Uuid
  replacedBy : Option String
  used : Bool
  usedWithinGrace : Bool
  expired : Bool
deriving DecidableEq

/-- The facts as the database evaluates them at `now`. -/
def TokenRow.facts (row : TokenRow) (now : Nat) : RefreshRow where
  playerId := row.player
  familyId := row.family
  replacedBy := row.replacedBy
  used := row.usedAt.isSome
  usedWithinGrace := row.usedAt.any (fun usedAt => now < usedAt + refreshGraceSeconds)
  expired := row.expiresAt ≤ now

/-- What a presented refresh token earns. -/
inductive RefreshVerdict
  | rotate (playerId familyId : Uuid)
  | graceReplay (playerId familyId : Uuid) (successor : String)
  | revoke (familyId : Uuid)
  | deny
deriving DecidableEq

def classifyPresentation (rotated : Option (Uuid × Uuid)) (row : Option RefreshRow) :
    RefreshVerdict :=
  match rotated with
  | some (playerId, familyId) => .rotate playerId familyId
  | none =>
    match row with
    | none => .deny
    | some row =>
      if row.expired || !row.used then
        .deny
      else
        match row.replacedBy with
        | some successor =>
          if row.usedWithinGrace then
            .graceReplay row.playerId row.familyId successor
          else
            .revoke row.familyId
        | none => .deny

/-- A grace replay hands out what the presented row has recorded. -/
theorem classify_grace {row : Option TokenRow} {now : Nat} {p f : Uuid} {successor : String}
    (h : classifyPresentation none (row.map (fun r => r.facts now)) = .graceReplay p f successor) :
    ∃ r, row = some r ∧ r.player = p ∧ r.family = f ∧ r.replacedBy = some successor := by
  cases row with
  | none => cases h
  | some r =>
    simp only [classifyPresentation, Option.map_some, TokenRow.facts] at h
    split at h
    · cases h
    · split at h
      · rename_i successor' hnext
        split at h
        · cases h
          exact ⟨r, rfl, rfl, rfl, hnext⟩
        · cases h
      · cases h

/-- A revocation takes the family of the presented row. -/
theorem classify_revoke {row : Option TokenRow} {now : Nat} {f : Uuid}
    (h : classifyPresentation none (row.map (fun r => r.facts now)) = .revoke f) :
    ∃ r, row = some r ∧ r.family = f := by
  cases row with
  | none => cases h
  | some r =>
    simp only [classifyPresentation, Option.map_some, TokenRow.facts] at h
    split at h
    · cases h
    · split at h
      · split at h
        · cases h
        · cases h
          exact ⟨r, rfl, rfl⟩
      · cases h

end Presentation

section Payloads

/-- The durable events of the service. -/
inductive Event
  | registered (playerId : Uuid) (displayName provider : String)
  | promoted (playerId : Uuid) (fromProvider toProvider : String)
  | deleted (playerId : Uuid) (handle : String)
deriving DecidableEq

/-- `accountsapi::Session`. -/
structure Session where
  playerId : Uuid
  token : String
  refreshToken : String
  accessExpiresInSecs : Nat
deriving DecidableEq

/-- `accountsapi::DeleteReceipt`. -/
structure DeleteReceipt where
  playerId : Uuid
  handle : String
  deletedAt : Nat
deriving DecidableEq

/-- The receipt that a stored row is answered with. -/
def ReceiptRow.answer (row : ReceiptRow) (playerId : Uuid) : DeleteReceipt where
  playerId := playerId
  handle := row.handle
  deletedAt := row.deletedAt

def handleExhausted : Error := Error.conflict "display name has no free handle"

def emailTaken : Error := Error.conflict "email already registered"

def identityTakenUnderLock : Error :=
  Error.internal "identity was taken while its writer lock was held"

def identityLinkedElsewhere : Error := Error.conflict "identity already linked to another player"

def invalidRefreshToken : Error := Error.unauthorized "invalid refresh token"

def playerNotFound : Error := Error.notFound "player not found"

def ticketTooLong : Error := Error.invalid "ticket too long"

def ticketNotFound : Error := Error.notFound "delete ticket not found"

end Payloads

end Swarog.Accounts
