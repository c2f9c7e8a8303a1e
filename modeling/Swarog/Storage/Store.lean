import Swarog.Opsapi
import Swarog.Pg.Advisory
import Swarog.Pg.LockKey
import Swarog.Purge

/-!
# The object store

Players keep documents under addresses of their own.  The statements of `put`, `delete`, of
the delivery that plants a tombstone and of the purge sweep are programs of database
sessions.

* A `put` with `expected_version = 0` creates: under the lock of the owner it reads the
  tombstone, counts the objects and inserts.
* A `put` with a positive version and a `delete` are one statement each and take no lock.  The
  statement works on the row that its snapshot saw: it waits for the row if necessary and
  checks it again.  A row that was deleted meanwhile is not found, even if the address is in
  use again; `life` tells the rows of an address apart.
* The sweep claims tombstones and, for each of them, takes the lock of the owner, deletes the
  objects one by one and stamps the tombstone.  Unlike the loop of `Sweeper` it claims one
  batch without a watermark and locks each owner, so it is a program of its own.

`story` is what was committed at an address.
-/

namespace Swarog.Storage

open Pg

section Constants

def maxCollectionBytes : Nat := 64

def maxKeyBytes : Nat := 128

def maxValueBytes : Nat := 65536

def maxObjectsPerOwner : Nat := 10000

/-- Tombstones that a sweep claims. -/
def storageOwnersPerFire : Nat := 64

def notFound : Error := Error.notFound "no such object"

def playerDeleted : Error := Error.conflict "this account has been deleted"

def malformedIdentity : Error := Error.internal "caller identity is not a uuid"

def tooManyObjects : Error :=
  Error.conflict s!"you already hold the maximum of {maxObjectsPerOwner} objects"

def addressTaken : Error :=
  Error.conflict "an object already exists at this address; read it and write with its version"

def staleVersion : Error :=
  Error.conflict "expected_version does not match the stored version; re-read and retry"

/-- The lock of the objects of one owner. -/
def ownerLockKey (ownerId : String) : Int := uuidLockKey "storage.owner/" ownerId

end Constants

section Validation

structure ColumnCap where
  what : String
  maxBytes : Nat

def collectionCap : ColumnCap := ⟨"collection", maxCollectionBytes⟩

def keyCap : ColumnCap := ⟨"key", maxKeyBytes⟩

def ColumnCap.check (cap : ColumnCap) (value : String) : Except Error Unit :=
  if cap.maxBytes < value.utf8ByteSize then
    .error (.invalid (cap.what ++ " exceeds " ++ toString cap.maxBytes ++ " bytes"))
  else
    .ok ()

def isLegalSegment (segment : String) : Bool :=
  !segment.isEmpty &&
    segment.toList.all (fun c => c.isAlphanum || c == '.' || c == '_' || c == '-')

def validateSegment (cap : ColumnCap) (segment : String) : Except Error Unit :=
  if isLegalSegment segment then cap.check segment
  else .error (.invalid (cap.what ++ " must be a non-empty run of [A-Za-z0-9._-]"))

def validateAddress (collection key : String) : Except Error Unit := do
  validateSegment collectionCap collection
  validateSegment keyCap key

/-- `parses` says whether the text is a json document. -/
def validateValue (value : String) (parses : Bool) : Except Error Unit :=
  if maxValueBytes < value.utf8ByteSize then
    .error (.invalid s!"value exceeds {maxValueBytes} bytes")
  else if parses then
    .ok ()
  else
    .error (.invalid "value is not valid json")

inductive Acl
  | aclPrivate
  | aclPublicRead
deriving DecidableEq

/-- The empty text leaves the acl unchanged. -/
def validateAcl : String → Except Error (Option Acl)
  | "" => .ok none
  | "private" => .ok (some .aclPrivate)
  | "public_read" => .ok (some .aclPublicRead)
  | _ => .error (.invalid "acl must be private, public_read, or empty to leave it unchanged")

def validateExpectedVersion (expectedVersion : Int) : Except Error Unit :=
  if expectedVersion < 0 then .error (.invalid "expected_version must not be negative")
  else .ok ()

/-- The canonical spelling with hyphens, in either case. -/
def isUuidText (s : String) : Bool :=
  decide (s.utf8ByteSize = 36) && s.toList.zipIdx.all (fun e =>
    if e.2 = 8 ∨ e.2 = 13 ∨ e.2 = 18 ∨ e.2 = 23 then e.1 == '-' else decide (e.1 ∈ hexDigits))

/-- The player of an identity. -/
def caller (playerId : Option String) : Except Error Uuid.Spelling :=
  match playerId with
  | none => .error (.unauthorized "a player identity is required")
  | some me =>
    if isUuidText me then
      match h : Uuid.ofText me with
      | some id => .ok ⟨me, id, h⟩
      | none => .error malformedIdentity
    else
      .error malformedIdentity

end Validation

section Calls

/-- The primary key of `storage.objects`. -/
structure Address where
  owner : Uuid
  collection : String
  key : String
deriving DecidableEq

structure PutInput where
  playerId : Option String
  collection : String
  key : String
  value : String
  parses : Bool
  expectedVersion : Int
  acl : String
deriving DecidableEq

structure Create where
  me : Uuid.Spelling
  collection : String
  key : String
  value : String
  acl : Acl
deriving DecidableEq

structure Cas where
  me : Uuid.Spelling
  collection : String
  key : String
  value : String
  expectedVersion : Int
  acl : Option Acl
deriving DecidableEq

/-- A `put` that has passed its checks. -/
inductive PutCall
  | create (c : Create)
  | cas (c : Cas)
deriving DecidableEq

def PutInput.validated (i : PutInput) : Except Error PutCall := do
  let me ← caller i.playerId
  validateAddress i.collection i.key
  validateValue i.value i.parses
  let acl ← validateAcl i.acl
  validateExpectedVersion i.expectedVersion
  if i.expectedVersion = 0 then
    pure (.create ⟨me, i.collection, i.key, i.value, acl.getD .aclPrivate⟩)
  else
    pure (.cas ⟨me, i.collection, i.key, i.value, i.expectedVersion, acl⟩)

structure DeleteInput where
  playerId : Option String
  collection : String
  key : String
deriving DecidableEq

structure Delete where
  me : Uuid.Spelling
  collection : String
  key : String
deriving DecidableEq

def DeleteInput.validated (i : DeleteInput) : Except Error Delete := do
  let me ← caller i.playerId
  validateAddress i.collection i.key
  pure ⟨me, i.collection, i.key⟩

def Create.address (c : Create) : Address := ⟨c.me.id, c.collection, c.key⟩

def Cas.address (c : Cas) : Address := ⟨c.me.id, c.collection, c.key⟩

def Delete.address (c : Delete) : Address := ⟨c.me.id, c.collection, c.key⟩

/-- A row of `storage.objects`. -/
structure ObjectRow where
  value : String
  version : Int
  acl : Acl
  life : Nat
deriving DecidableEq

/-- The inserted row; the version is the default of its column. -/
def Create.row (c : Create) (life : Nat) : ObjectRow where
  value := c.value
  version := 1
  acl := c.acl
  life := life

/-- `WHERE ... AND version = $5`. -/
def Cas.matches (c : Cas) (row : ObjectRow) : Bool := decide (row.version = c.expectedVersion)

def Cas.update (c : Cas) (row : ObjectRow) : ObjectRow :=
  { row with
    value := c.value
    acl := c.acl.getD row.acl
    version := row.version + 1 }

inductive Answer
  | put (i : PutInput) (e : Error)
  | delete (i : DeleteInput) (e : Error)
  | created (c : Create) (result : Except Error Int)
  | swapped (c : Cas) (result : Except Error Int)
  | deleted (c : Delete) (result : Except Error Unit)
deriving DecidableEq

/-- What was committed at an address: a `put` that expected a version and made another one,
or a deletion. -/
inductive Event
  | put (expected version : Int)
  | deleted
deriving DecidableEq

end Calls

section ProgramPoints

inductive CreateStage
  | opened
  | locked
  | checked
  | counted
  | inserted (life : Nat)
deriving DecidableEq

/-- A sweep: the tombstones that are still to be swept, the stamped ones, the owners whose
locks it holds and the addresses it has deleted. -/
structure Sweep where
  claimed : List (Uuid × Tombstone)
  stamped : List (Uuid × Tombstone)
  locked : List Uuid
  removed : List Address
deriving DecidableEq

def Sweep.first : Sweep := ⟨[], [], [], []⟩

inductive SweepStage
  | selecting
  | next
  | locked
  | deleting (todo : List Address)
  | finished
deriving DecidableEq

/-- Where a session is.  A statement of its own carries what its snapshot saw. -/
inductive Pc
  | idle
  | create (c : Create) (st : CreateStage)
  | cas (c : Cas) (seen : Option ObjectRow)
  | delete (c : Delete) (seen : Option ObjectRow)
  | planted (row : Option (Uuid × Tombstone))
  | sweep (sw : Sweep) (st : SweepStage)
deriving DecidableEq

/-- What a transaction that has come to its `COMMIT` answers. -/
def Pc.result : Pc → Option (List Answer)
  | .create c (.inserted life) => some [.created c (.ok (c.row life).version)]
  | .planted _ => some []
  | .sweep _ .finished => some []
  | _ => none

/-- What a call answers when its statement fails. -/
def Pc.refusal (e : Error) : Pc → List Answer
  | .create c _ => [.created c (.error e)]
  | .cas c _ => [.swapped c (.error e)]
  | .delete c _ => [.deleted c (.error e)]
  | _ => []

/-- What a transaction has written at an address. -/
def Pc.event (k : Address) : Pc → List Event
  | .create c (.inserted life) => if k = c.address then [.put 0 (c.row life).version] else []
  | .sweep sw _ => if k ∈ sw.removed then [.deleted] else []
  | _ => []

end ProgramPoints

section Data

/-- The tables, the locks, the number of rows ever inserted, what was committed at each
address and the answers. -/
structure Data where
  objects : Table Address Sess ObjectRow
  purged : Table Uuid Sess Tombstone
  locks : Locks
  lives : Nat
  story : Address → List Event
  answers : List Answer

namespace Data

def start : Data where
  objects := Table.empty
  purged := Table.empty
  locks := Locks.free
  lives := 0
  story := fun _ => []
  answers := []

def reply (answers : List Answer) (d : Data) : Data := { d with answers := d.answers ++ answers }

def commit (t : Sess) (pc : Pc) (answers : List Answer) (d : Data) : Data :=
  { d with
    objects := d.objects.commit t
    purged := d.purged.commit t
    locks := d.locks.release t
    story := fun k => d.story k ++ pc.event k
    answers := d.answers ++ answers }

def rollback (t : Sess) (answers : List Answer) (d : Data) : Data :=
  { d with
    objects := d.objects.rollback t
    purged := d.purged.rollback t
    locks := d.locks.release t
    answers := d.answers ++ answers }

/-- `SELECT count(*) ... WHERE owner_id = $1`. -/
def countObjects (t : Sess) (owner : Uuid) (d : Data) : Nat :=
  (d.objects.select t (fun k _ => decide (k.owner = owner))).length

/-- The addresses of an owner that a statement of `t` sees. -/
def objectsOf (t : Sess) (owner : Uuid) (d : Data) : List Address :=
  d.objects.select t (fun k _ => decide (k.owner = owner))

def insertObject (t : Sess) (c : Create) (d : Data) : Data :=
  { d with
    objects := d.objects.write t c.address (some (c.row d.lives))
    lives := d.lives + 1 }

/-- What a transaction answers that is rolled back because of what its statement has found. -/
def refused (t : Sess) (d : Data) : Pc → Option Error
  | .create c .locked => if (d.purged.view t c.me.id).isSome then some playerDeleted else none
  | .create c .checked =>
    if maxObjectsPerOwner ≤ d.countObjects t c.me.id then some tooManyObjects else none
  | .create c .counted =>
    if d.objects.Settled t c.address ∧ d.objects.committed c.address ≠ none then
      some addressTaken
    else
      none
  | _ => none

/-- The row that a statement finds at an address: the one that its snapshot saw, if it is
still there and satisfies the condition of the statement. -/
def found (k : Address) (f : ObjectRow → Bool) (seen : Option ObjectRow) (d : Data) :
    Option ObjectRow :=
  (d.objects.committed k).filter (fun row =>
    seen.any (fun old => f old && decide (old.life = row.life)) && f row)

/-- A row at an address is replaced by a statement of its own. -/
def replace (k : Address) (row : Option ObjectRow) (event : Event) (d : Data) : Data :=
  { d with
    objects := d.objects.put k row
    story := Function.update d.story k (d.story k ++ [event]) }

def casObject (c : Cas) (seen : Option ObjectRow) (d : Data) : Data :=
  match d.found c.address c.matches seen with
  | some row =>
    (d.replace c.address (some (c.update row)) (.put c.expectedVersion (c.update row).version)).reply
      [.swapped c (.ok (c.update row).version)]
  | none => d.reply [.swapped c (.error (if seen.isSome then staleVersion else notFound))]

def deleteObject (c : Delete) (seen : Option ObjectRow) (d : Data) : Data :=
  match d.found c.address (fun _ => true) seen with
  | some _ => (d.replace c.address none .deleted).reply [.deleted c (.ok ())]
  | none => d.reply [.deleted c (.error notFound)]

/-- The tombstones that a sweep claims. -/
def claims (t : Sess) (d : Data) : List (Uuid × Tombstone) :=
  Tombstone.claims d.purged t Uuid.nil storageOwnersPerFire

end Data

/-- The sweep after its `DELETE` has reached an address of `p`. -/
def Sweep.reach (sw : Sweep) (d : Data) (t : Sess) (p : Uuid) (k : Address) : Sweep :=
  if (d.objects.view t k).any (fun _ => decide (k.owner = p)) then
    { sw with removed := sw.removed ++ [k] }
  else sw

end Data

section Statements

inductive Act
  | rejectPut (i : PutInput) (e : Error)
  | rejectDelete (i : DeleteInput) (e : Error)
  -- a create
  | createOpen (i : PutInput) (c : Create)
  | lockOwner (c : Create)
  | checkTombstone (c : Create)
  | countObjects (c : Create)
  | insertObject (c : Create)
  -- statements of their own
  | casOpen (i : PutInput) (c : Cas)
  | casWrite (c : Cas) (seen : Option ObjectRow)
  | deleteOpen (i : DeleteInput) (c : Delete)
  | deleteWrite (c : Delete) (seen : Option ObjectRow)
  -- the tombstone
  | plant (p : Uuid) (handle : String)
  | plantConflict (p : Uuid)
  -- the sweep
  | sweepOpen
  | sweepSelect (sw : Sweep)
  | sweepLock (sw : Sweep) (p : Uuid) (tomb : Tombstone) (rest : List (Uuid × Tombstone))
  | sweepDelete (sw : Sweep) (p : Uuid) (tomb : Tombstone) (rest : List (Uuid × Tombstone))
  | sweepRow (sw : Sweep) (p : Uuid) (tomb : Tombstone) (rest : List (Uuid × Tombstone))
      (todo : List Address) (k : Address)
  | sweepStamp (sw : Sweep) (p : Uuid) (tomb : Tombstone) (rest : List (Uuid × Tombstone))
      (spent : Bool)
  | sweepEnd (sw : Sweep)
  -- the ends of transactions
  | commit (pc : Pc) (answers : List Answer)
  | refuse (pc : Pc) (e : Error)
  | fail (pc : Pc) (msg : String)
deriving DecidableEq

def stmt (t : Sess) : Act → Stmt Data Pc
  | .rejectPut i e =>
    { before := .idle
      guard := fun _ => i.validated = .error e
      after := fun _ => .idle
      change := fun d => d.reply [.put i e] }
  | .rejectDelete i e =>
    { before := .idle
      guard := fun _ => i.validated = .error e
      after := fun _ => .idle
      change := fun d => d.reply [.delete i e] }
  | .createOpen i c =>
    { before := .idle
      guard := fun _ => i.validated = .ok (.create c)
      after := fun _ => .create c .opened }
  | .lockOwner c =>
    { before := .create c .opened
      guard := fun d => d.locks.Takeable t (ownerLockKey c.me.text)
      after := fun _ => .create c .locked
      change := fun d => { d with locks := d.locks.take t (ownerLockKey c.me.text) } }
  | .checkTombstone c =>
    { before := .create c .locked
      guard := fun d => d.purged.view t c.me.id = none
      after := fun _ => .create c .checked }
  | .countObjects c =>
    { before := .create c .checked
      guard := fun d => d.countObjects t c.me.id < maxObjectsPerOwner
      after := fun _ => .create c .counted }
  | .insertObject c =>
    { before := .create c .counted
      guard := fun d => d.objects.Free t c.address ∧ d.objects.committed c.address = none
      after := fun d => .create c (.inserted d.lives)
      change := fun d => d.insertObject t c }
  | .casOpen i c =>
    { before := .idle
      guard := fun _ => i.validated = .ok (.cas c)
      after := fun d => .cas c (d.objects.committed c.address) }
  | .casWrite c seen =>
    { before := .cas c seen
      guard := fun d => seen.any c.matches = true → d.objects.pending c.address = none
      after := fun _ => .idle
      change := fun d => d.casObject c seen }
  | .deleteOpen i c =>
    { before := .idle
      guard := fun _ => i.validated = .ok c
      after := fun d => .delete c (d.objects.committed c.address) }
  | .deleteWrite c seen =>
    { before := .delete c seen
      guard := fun d => seen.isSome = true → d.objects.pending c.address = none
      after := fun _ => .idle
      change := fun d => d.deleteObject c seen }
  | .plant p handle =>
    { before := .idle
      guard := fun d => d.purged.Free t p ∧ d.purged.committed p = none
      after := fun _ => .planted (some (p, .planted handle))
      change := fun d => { d with purged := d.purged.write t p (some (.planted handle)) } }
  | .plantConflict p =>
    { before := .idle
      guard := fun d => d.purged.Settled t p ∧ d.purged.committed p ≠ none
      after := fun _ => .planted none }
  | .sweepOpen =>
    { before := .idle
      after := fun _ => .sweep .first .selecting }
  | .sweepSelect sw =>
    { before := .sweep sw .selecting
      after := fun d => .sweep { sw with claimed := d.claims t } .next
      change := fun d => { d with purged := d.purged.lockAll t ((d.claims t).map Prod.fst) } }
  | .sweepLock sw p tomb rest =>
    { before := .sweep sw .next
      guard := fun d => sw.claimed = (p, tomb) :: rest ∧ d.locks.Takeable t (ownerLockKey p.text)
      after := fun _ => .sweep { sw with locked := p :: sw.locked } .locked
      change := fun d => { d with locks := d.locks.take t (ownerLockKey p.text) } }
  | .sweepDelete sw p tomb rest =>
    { before := .sweep sw .locked
      guard := fun _ => sw.claimed = (p, tomb) :: rest
      after := fun d => .sweep sw (.deleting (d.objectsOf t p)) }
  | .sweepRow sw p tomb rest todo k =>
    { before := .sweep sw (.deleting todo)
      guard := fun d => sw.claimed = (p, tomb) :: rest ∧ k ∈ todo ∧ d.objects.Free t k
      after := fun d => .sweep (sw.reach d t p k) (.deleting (todo.erase k))
      change := fun d =>
        { d with objects := d.objects.deleteWhere t (fun k _ => decide (k.owner = p)) k } }
  | .sweepStamp sw p tomb rest spent =>
    { before := .sweep sw (.deleting [])
      guard := fun _ => sw.claimed = (p, tomb) :: rest
      after := fun _ => .sweep
        { sw with claimed := rest, stamped := sw.stamped ++ [(p, tomb)] }
        (if spent then .finished else .next)
      change := fun d => { d with purged := d.purged.write t p (some tomb.stamp) } }
  | .sweepEnd sw =>
    { before := .sweep sw .next
      guard := fun _ => sw.claimed = []
      after := fun _ => .sweep sw .finished }
  | .commit pc answers =>
    { before := pc
      guard := fun _ => pc.result = some answers
      after := fun _ => .idle
      change := fun d => d.commit t pc answers }
  | .refuse pc e =>
    { before := pc
      guard := fun d => d.refused t pc = some e
      after := fun _ => .idle
      change := fun d => d.rollback t (pc.refusal e) }
  | .fail pc msg =>
    { before := pc
      guard := fun _ => pc ≠ .idle
      after := fun _ => .idle
      change := fun d => d.rollback t (pc.refusal (.internal msg)) }

instance (t : Sess) (a : Act) (d : Data) : Decidable ((stmt t a).guard d) := by
  cases a <;> dsimp only [stmt] <;> infer_instance

def programs : Programs Data Pc Act where
  data := Data.start
  idle := .idle
  stmt := stmt

/-- All interleavings of puts, deletes, deliveries and sweeps. -/
def system : TransitionSystem (World Data Pc) (Sess × Act) := programs.system

instance (w : World Data Pc) (a : Sess × Act) : Decidable (system.enabled w a) :=
  inferInstanceAs (Decidable (_ ∧ (stmt a.1 a.2).guard w.data))

end Statements

end Swarog.Storage
