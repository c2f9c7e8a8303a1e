import Swarog.Net.Ip
import Swarog.Opsapi
import Swarog.Pg.Advisory
import Swarog.Pg.LockKey
import Swarog.Sweeper

/-!
# Characters

Players create and delete characters.  A `create` takes the lock of the player, reads the
tombstone, the configured cap and the number of characters, inserts the row and appends
`character.created`; a `delete` deletes the row by one statement and appends
`character.deleted`.  The sweep of a deleted player deletes its characters and appends
`character.deleted` for each of them.  Every row and its event are committed by one
transaction.

The ids of characters are random; no id is drawn twice.
-/

namespace Swarog.Characters

open Pg

section Constants

def maxNameBytes : Nat := 128

def maxClassBytes : Nat := 64

/-- The cap of a player without a configured one. -/
def maxPerPlayer : Int := 10

def listHardLimit : Nat := 1000

def purgeBatch : Nat := 256

def playerDeleted : Error := Error.conflict "this account has been deleted"

def missingIdentity : Error := Error.invalid "missing player identity"

def notFound : Error := Error.notFound "character not found"

def limitReached (cap : Nat) : Error := Error.conflict s!"character limit reached ({cap})"

/-- The lock of the characters of one player. -/
def playerLockKey (playerId : String) : Int := uuidLockKey "characters.player/" playerId

/-- The configured cap, clamped to `0 ..= LIST_HARD_LIMIT`. -/
def clampedCap (configured : Option Int) : Nat :=
  min (configured.getD maxPerPlayer).toNat listHardLimit

end Constants

section Calls

structure CreateInput where
  playerId : Option String
  name : String
  cls : String
deriving DecidableEq

/-- A `create` that has passed its checks. -/
structure Create where
  playerId : String
  name : String
  cls : String
deriving DecidableEq

def nameWithinCap (name : String) : Bool := decide (name.utf8ByteSize ≤ maxNameBytes)

def classWithinCap (cls : String) : Bool := decide (cls.utf8ByteSize ≤ maxClassBytes)

def CreateInput.validated (i : CreateInput) : Except Error Create :=
  match i.playerId with
  | none => .error missingIdentity
  | some playerId =>
    if i.name.toList.all Net.isWhiteSpace then
      .error (.invalid "name is required")
    else
      let cls := if i.cls = "" then "novice" else i.cls
      if nameWithinCap i.name = false then
        .error (.invalid s!"name exceeds {maxNameBytes} bytes")
      else if classWithinCap cls = false then
        .error (.invalid s!"class exceeds {maxClassBytes} bytes")
      else
        .ok ⟨playerId, i.name, cls⟩

structure DeleteInput where
  playerId : Option String
  characterId : String
deriving DecidableEq

structure Delete where
  playerId : String
  characterId : String
deriving DecidableEq

def DeleteInput.validated (i : DeleteInput) : Except Error Delete :=
  match i.playerId with
  | none => .error missingIdentity
  | some playerId => .ok ⟨playerId, i.characterId⟩

/-- A row of `characters.characters`; its key is the id. -/
structure CharacterRow where
  playerId : Uuid
  name : String
  cls : String
deriving DecidableEq

def policy : Sweeper.Policy Uuid CharacterRow where
  owns p _ row := decide (row.playerId = p)
  batch := purgeBatch

/-- The events of the log. -/
inductive Event
  | created (characterId playerId name cls : String)
  | deleted (characterId playerId : String)
deriving DecidableEq

def Event.characterId : Event → String
  | .created characterId _ _ _ => characterId
  | .deleted characterId _ => characterId

/-- `character.created` of a row. -/
def createdEvent (id : Uuid) (row : CharacterRow) : Event :=
  .created id.text row.playerId.text row.name row.cls

/-- `character.deleted` of a row. -/
def deletedEvent (id : Uuid) (row : CharacterRow) : Event := .deleted id.text row.playerId.text

inductive Answer
  | created (i : CreateInput) (result : Except Error Uuid)
  | deleted (i : DeleteInput) (result : Except Error Unit)
deriving DecidableEq

def Answer.isOk : Answer → Bool
  | .created _ (.ok _) => true
  | .deleted _ (.ok _) => true
  | _ => false

end Calls

section ProgramPoints

/-- The caller as a uuid, the cap that was read, and the id of the inserted row. -/
inductive CreateStage
  | opened
  | locked
  | checked (me : Uuid)
  | capped (me : Uuid) (cap : Nat)
  | counted (me : Uuid) (cap : Nat)
  | inserted (me : Uuid) (cap : Nat) (id : Uuid)
  | emitted (me : Uuid) (cap : Nat) (id : Uuid)
deriving DecidableEq

inductive DeleteStage
  | opened
  | deleted (id : Uuid) (row : CharacterRow)
  | emitted (id : Uuid) (row : CharacterRow)
deriving DecidableEq

/-- Where a session is. -/
inductive Pc
  | idle
  | create (i : CreateInput) (c : Create) (st : CreateStage)
  | delete (i : DeleteInput) (c : Delete) (st : DeleteStage)
  | purge (q : Sweeper.Point Uuid CharacterRow)
deriving DecidableEq

def Create.row (c : Create) (me : Uuid) : CharacterRow := ⟨me, c.name, c.cls⟩

namespace Pc

def point : Pc → Option (Sweeper.Point Uuid CharacterRow)
  | .purge q => some q
  | _ => none

def ofPoint : Option (Sweeper.Point Uuid CharacterRow) → Pc
  | some q => .purge q
  | none => .idle

/-- The changes of `characters.characters` that the transaction has made, with the events
that it has appended. -/
def changes : Pc → List (Change Uuid CharacterRow Event)
  | .create _ c (.inserted me _ id) => [⟨id, none, some (c.row me), []⟩]
  | .create _ c (.emitted me _ id) => [⟨id, none, some (c.row me), [createdEvent id (c.row me)]⟩]
  | .delete _ _ (.deleted id row) => [⟨id, some row, none, []⟩]
  | .delete _ _ (.emitted id row) => [⟨id, some row, none, [deletedEvent id row]⟩]
  | .purge q => q.changes (fun m => [deletedEvent m.key m.row])
  | _ => []

/-- What a transaction that has come to its `COMMIT` answers. -/
def result : Pc → Option (List Answer)
  | .create i _ (.emitted _ _ id) => some [.created i (.ok id)]
  | .delete i _ (.emitted _ _) => some [.deleted i (.ok ())]
  | .purge q => if q.ready then some [] else none
  | _ => none

/-- What a call answers when it fails. -/
def refusal (e : Error) : Pc → List Answer
  | .create i _ _ => [.created i (.error e)]
  | .delete i _ _ => [.deleted i (.error e)]
  | _ => []

end Pc

end ProgramPoints

section Data

/-- The tables, the locks, the ids that were drawn, the log and the answers. -/
structure Data where
  characters : Table Uuid Sess CharacterRow
  purged : Table Uuid Sess Tombstone
  locks : Locks
  ids : List Uuid
  log : List Event
  answers : List Answer

namespace Data

def start : Data where
  characters := Table.empty
  purged := Table.empty
  locks := Locks.free
  ids := []
  log := []
  answers := []

def tables (d : Data) : Sweeper.Tables Uuid CharacterRow := ⟨d.characters, d.purged⟩

def setTables (d : Data) (T : Sweeper.Tables Uuid CharacterRow) : Data :=
  { d with characters := T.rows, purged := T.purged }

def reply (answers : List Answer) (d : Data) : Data := { d with answers := d.answers ++ answers }

def commit (t : Sess) (pc : Pc) (answers : List Answer) (d : Data) : Data :=
  { d with
    characters := d.characters.commit t
    purged := d.purged.commit t
    locks := d.locks.release t
    log := d.log ++ pc.changes.flatMap Change.events
    answers := d.answers ++ answers }

def rollback (t : Sess) (answers : List Answer) (d : Data) : Data :=
  { d with
    characters := d.characters.rollback t
    purged := d.purged.rollback t
    locks := d.locks.release t
    answers := d.answers ++ answers }

/-- `SELECT count(*) ... WHERE player_id = $1`. -/
def countOwned (t : Sess) (me : Uuid) (d : Data) : Nat :=
  (d.characters.select t (fun _ row => decide (row.playerId = me))).length

def insertCharacter (t : Sess) (c : Create) (me id : Uuid) (d : Data) : Data :=
  { d with
    characters := d.characters.write t id (some (c.row me))
    ids := id :: d.ids }

/-- The row that the `DELETE` of a call finds. -/
def found (c : Delete) (d : Data) : Option (Uuid × CharacterRow) :=
  (Uuid.ofText c.characterId).bind (fun id =>
    ((d.characters.committed id).filter
      (fun row => decide (Uuid.ofText c.playerId = some row.playerId))).map (fun row => (id, row)))

/-- What a call answers because of what its statement has found. -/
def refused (t : Sess) (d : Data) : Pc → Option Error
  | .create _ c .locked =>
    (Uuid.ofText c.playerId).bind (fun me =>
      if d.purged.view t me = none then none else some playerDeleted)
  | .create _ _ (.capped me cap) =>
    if cap ≤ d.countOwned t me then some (limitReached cap) else none
  | .delete _ c .opened => if d.found c = none then some notFound else none
  | _ => none

end Data

end Data

section Statements

inductive Act
  | rejectCreate (i : CreateInput) (e : Error)
  | rejectDelete (i : DeleteInput) (e : Error)
  -- a create
  | createOpen (i : CreateInput) (c : Create)
  | lockPlayer (i : CreateInput) (c : Create)
  | checkTombstone (i : CreateInput) (c : Create) (me : Uuid)
  | readCap (i : CreateInput) (c : Create) (me : Uuid) (configured : Option Int)
  | countOwned (i : CreateInput) (c : Create) (me : Uuid) (cap : Nat)
  | insertCharacter (i : CreateInput) (c : Create) (me : Uuid) (cap : Nat) (id : Uuid)
  | emitCreated (i : CreateInput) (c : Create) (me : Uuid) (cap : Nat) (id : Uuid)
  -- a delete
  | deleteOpen (i : DeleteInput) (c : Delete)
  | deleteOwned (i : DeleteInput) (c : Delete) (id : Uuid) (row : CharacterRow)
  | emitDeleted (i : DeleteInput) (c : Delete) (id : Uuid) (row : CharacterRow)
  -- the purge
  | purge (m : Sweeper.Move Uuid CharacterRow)
  -- the ends of transactions
  | commit (pc : Pc) (answers : List Answer)
  | refuse (pc : Pc) (e : Error)
  | fail (pc : Pc) (msg : String)
deriving DecidableEq

def stmt (t : Sess) : Act → Stmt Data Pc
  | .rejectCreate i e =>
    { before := .idle
      guard := fun _ => i.validated = .error e
      after := fun _ => .idle
      change := fun d => d.reply [.created i (.error e)] }
  | .rejectDelete i e =>
    { before := .idle
      guard := fun _ => i.validated = .error e
      after := fun _ => .idle
      change := fun d => d.reply [.deleted i (.error e)] }
  | .createOpen i c =>
    { before := .idle
      guard := fun _ => i.validated = .ok c
      after := fun _ => .create i c .opened }
  | .lockPlayer i c =>
    { before := .create i c .opened
      guard := fun d => d.locks.Takeable t (playerLockKey c.playerId)
      after := fun _ => .create i c .locked
      change := fun d => { d with locks := d.locks.take t (playerLockKey c.playerId) } }
  | .checkTombstone i c me =>
    { before := .create i c .locked
      guard := fun d => Uuid.ofText c.playerId = some me ∧ d.purged.view t me = none
      after := fun _ => .create i c (.checked me) }
  | .readCap i c me configured =>
    { before := .create i c (.checked me)
      after := fun _ => .create i c (.capped me (clampedCap configured)) }
  | .countOwned i c me cap =>
    { before := .create i c (.capped me cap)
      guard := fun d => d.countOwned t me < cap
      after := fun _ => .create i c (.counted me cap) }
  | .insertCharacter i c me cap id =>
    { before := .create i c (.counted me cap)
      guard := fun d => id ∉ d.ids ∧ d.characters.Free t id ∧ d.characters.committed id = none
      after := fun _ => .create i c (.inserted me cap id)
      change := fun d => d.insertCharacter t c me id }
  | .emitCreated i c me cap id =>
    { before := .create i c (.inserted me cap id)
      after := fun _ => .create i c (.emitted me cap id)
      change := fun d => d }
  | .deleteOpen i c =>
    { before := .idle
      guard := fun _ => i.validated = .ok c
      after := fun _ => .delete i c .opened }
  | .deleteOwned i c id row =>
    { before := .delete i c .opened
      guard := fun d => d.found c = some (id, row) ∧ d.characters.Free t id
      after := fun _ => .delete i c (.deleted id row)
      change := fun d => { d with characters := d.characters.write t id none } }
  | .emitDeleted i c id row =>
    { before := .delete i c (.deleted id row)
      after := fun _ => .delete i c (.emitted id row)
      change := fun d => d }
  | .purge m => (m.stmt policy t).along Data.tables Data.setTables Pc.ofPoint
  | .commit pc answers =>
    { before := pc
      guard := fun _ => pc.result = some answers
      after := fun _ => .idle
      change := fun d => d.commit t pc answers }
  | .refuse pc e =>
    { before := pc
      guard := fun d => d.refused t pc = some e
      after := fun _ => .idle
      change := fun d => d.rollback t (pc.refusal e) }
  | .fail pc msg =>
    { before := pc
      guard := fun _ => pc ≠ .idle
      after := fun _ => .idle
      change := fun d => d.rollback t (pc.refusal (.internal msg)) }

instance (t : Sess) (a : Act) (d : Data) : Decidable ((stmt t a).guard d) := by
  cases a <;> dsimp only [stmt, Stmt.along] <;> infer_instance

def programs : Programs Data Pc Act where
  data := Data.start
  idle := .idle
  stmt := stmt

/-- All interleavings of creates, deletes, deliveries and sweeps. -/
def system : TransitionSystem (World Data Pc) (Sess × Act) := programs.system

instance (w : World Data Pc) (a : Sess × Act) : Decidable (system.enabled w a) :=
  inferInstanceAs (Decidable (_ ∧ (stmt a.1 a.2).guard w.data))

end Statements

end Swarog.Characters
