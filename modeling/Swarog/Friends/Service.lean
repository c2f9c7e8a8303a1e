import Swarog.Friends.Schema
import Swarog.Pg.Advisory
import Swarog.Sweeper

/-!
# The friends service

The statements of `request`, `accept`, `decline` and `remove` as programs of database
sessions.  The delivery that plants a tombstone and the purge sweep are those of `Sweeper`.

A transaction collects its changes of `friends.edges`, each with the event that is
appended for it; the events become visible with the `COMMIT`.

* `request` looks its target up before it opens the transaction.  Its statements
  are: the requester's lock, the read of the requester's own tombstone, the insert,
  and, when the pair has a row already, the answer to a crossing request, the read
  of the row, and one more insert if the row has disappeared.
* `accept`, `decline` and `remove` read the edge first, outside of their
  transaction, to resolve the handles of its parties.
-/

namespace Swarog.Friends

open Pg

section Calls

/-- A call of `request`, with what the directory answers for the target's handle
and for the caller. -/
structure RequestInput where
  me : Uuid.Spelling
  targetHandle : String
  found : Option PlayerSummary
  handle : String
deriving DecidableEq

/-- A request that has passed the checks in front of its transaction. -/
structure Request where
  me : Uuid.Spelling
  handle : String
  target : PlayerSummary
deriving DecidableEq

/-- `eq_ignore_ascii_case`. -/
def eqIgnoreAsciiCase (a b : String) : Bool :=
  a.toList.map Char.toLower == b.toList.map Char.toLower

/-- The checks in front of the transaction. -/
def RequestInput.validated (i : RequestInput) : Except Error Request :=
  if maxHandleBytes < i.targetHandle.utf8ByteSize then
    .error handleTooLong
  else
    match i.found with
    | none => .error noSuchPlayer
    | some target =>
      if eqIgnoreAsciiCase i.me.text target.playerId.text then
        .error selfRequest
      else
        .ok ⟨i.me, i.handle, target⟩

namespace Request

/-- The pair the request is about. -/
def pair (r : Request) : Uuid × Uuid := pairOf r.me.id r.target.playerId

def caller (r : Request) : Named := ⟨r.me.id, r.handle⟩

def addressee (r : Request) : Named := ⟨r.target.playerId, r.target.handle⟩

def lockKey (r : Request) : Int := requesterLockKey r.me.text

end Request

/-- How a request ended. -/
inductive RequestOutcome
  | created (edge : Uuid)
  | crossed (edge : Uuid)
  | repeated (row : EdgeRow)
  | refused (e : Error)
deriving DecidableEq

inductive EdgeOp
  | accept
  | decline
  | remove
deriving DecidableEq

/-- A call of `accept`, `decline` or `remove`, with the handles of the parties. -/
structure EdgeCall where
  op : EdgeOp
  me : Uuid
  edge : Uuid
  handle : String
  otherHandle : String
deriving DecidableEq

/-- The rows that the statement of a call finds. -/
def EdgeCall.Finds (c : EdgeCall) (k : Uuid × Uuid) (row : EdgeRow) : Prop :=
  row.id = c.edge ∧ Party k c.me ∧ (c.op = .remove ∨ row.Answerable c.me)

instance (c : EdgeCall) (k : Uuid × Uuid) (row : EdgeRow) : Decidable (c.Finds k row) :=
  inferInstanceAs (Decidable (_ ∧ _ ∧ _))

inductive Answer
  | rejected (i : RequestInput) (e : Error)
  | request (r : Request) (outcome : RequestOutcome)
  | edge (c : EdgeCall) (result : Except Error Unit)
deriving DecidableEq

end Calls

section Changes

/-- A change of `friends.edges` with its event. -/
structure Change where
  key : Uuid × Uuid
  old : Option EdgeRow
  new : Option EdgeRow
  event : Event
deriving DecidableEq

def Request.create (r : Request) (edge : Uuid) : Change where
  key := r.pair
  old := none
  new := some (.request edge r.me.id)
  event := .requested edge r.caller r.addressee

/-- The request answers the target's own one; the roles are the original ones. -/
def Request.cross (r : Request) (row : EdgeRow) : Change where
  key := r.pair
  old := some row
  new := some row.accept
  event := .accepted row.id r.addressee r.caller

def EdgeCall.change (c : EdgeCall) (k : Uuid × Uuid) (row : EdgeRow) : Change where
  key := k
  old := some row
  new :=
    match c.op with
    | .accept => some row.accept
    | .decline | .remove => none
  event :=
    match c.op with
    | .accept => .accepted row.id ⟨otherOf k c.me, c.otherHandle⟩ ⟨c.me, c.handle⟩
    | .decline => .removed row.id ⟨c.me, c.handle⟩ ⟨otherOf k c.me, c.otherHandle⟩ .declined
    | .remove =>
      .removed row.id ⟨c.me, c.handle⟩ ⟨otherOf k c.me, c.otherHandle⟩ (removalReason row c.me)

/-- An edge goes with each of its parties. -/
def policy : Sweeper.Policy (Uuid × Uuid) EdgeRow where
  owns p k _ := decide (Party k p)
  batch := purgeBatch

/-- The deletion of an edge by the sweep.  The handle of the other party is not resolved. -/
def deletion (m : Sweeper.Removal (Uuid × Uuid) EdgeRow) : Change where
  key := m.key
  old := some m.row
  new := none
  event := .removed m.row.id ⟨m.player, m.tomb.handle⟩ ⟨otherOf m.key m.player, ""⟩ .accountDeleted

end Changes

section ProgramPoints

inductive RequestStage
  | opened
  | locked
  | checked
  | inserted (edge : Uuid)
  | counted (edge : Uuid)
  | taken
  | crossed (row : EdgeRow)
  | uncrossed
  | vanished
deriving DecidableEq

inductive EdgeStage
  | viewed
  | written (k : Uuid × Uuid) (row : EdgeRow)
deriving DecidableEq

/-- Where a session is. -/
inductive Pc
  | idle
  | request (r : Request) (st : RequestStage)
  | edge (c : EdgeCall) (st : EdgeStage)
  | purge (q : Sweeper.Point (Uuid × Uuid) EdgeRow)
deriving DecidableEq

namespace Pc

def point : Pc → Option (Sweeper.Point (Uuid × Uuid) EdgeRow)
  | .purge q => some q
  | _ => none

def ofPoint : Option (Sweeper.Point (Uuid × Uuid) EdgeRow) → Pc
  | some q => .purge q
  | none => .idle

/-- The changes of `friends.edges` that the transaction has made. -/
def changes : Pc → List Change
  | .request r (.inserted id) | .request r (.counted id) => [r.create id]
  | .request r (.crossed row) => [r.cross row]
  | .edge c (.written k row) => [c.change k row]
  | .purge q => q.removals.map deletion
  | _ => []

/-- The transaction has come to its `COMMIT`; what the caller gets then. -/
def result : Pc → Option (List Answer)
  | .request r (.counted id) => some [.request r (.created id)]
  | .request r (.crossed row) => some [.request r (.crossed row.id)]
  | .edge c (.written _ _) => some [.edge c (.ok ())]
  | .purge q => if q.ready then some [] else none
  | _ => none

/-- What the caller gets when the transaction is rolled back with an error. -/
def refusal (e : Error) : Pc → List Answer
  | .request r _ => [.request r (.refused e)]
  | .edge c _ => [.edge c (.error e)]
  | _ => []

end Pc

end ProgramPoints

section Data

/-- The tables of the service, its locks, the ids drawn so far, the events and the
answers in commit order. -/
structure Data where
  edges : Table (Uuid × Uuid) Sess EdgeRow
  purged : Table Uuid Sess Tombstone
  locks : Locks
  uuids : List Uuid
  events : List Event
  answers : List Answer

namespace Data

def start : Data where
  edges := Table.empty
  purged := Table.empty
  locks := Locks.free
  uuids := []
  events := []
  answers := []

def tables (d : Data) : Sweeper.Tables (Uuid × Uuid) EdgeRow := ⟨d.edges, d.purged⟩

def setTables (d : Data) (T : Sweeper.Tables (Uuid × Uuid) EdgeRow) : Data :=
  { d with edges := T.rows, purged := T.purged }

def commit
    (d : Data)
    (t : Sess)
    (changes : List Change)
    (answers : List Answer) :
    Data :=
  { d with
    edges := d.edges.commit t
    purged := d.purged.commit t
    locks := d.locks.release t
    events := d.events ++ changes.map Change.event
    answers := d.answers ++ answers }

def rollback (d : Data) (t : Sess) (answers : List Answer) : Data :=
  { d with
    edges := d.edges.rollback t
    purged := d.purged.rollback t
    locks := d.locks.release t
    answers := d.answers ++ answers }

/-- The pending requests of a player, as a statement of `t` counts them. -/
def authoredPending (d : Data) (t : Sess) (p : Uuid) : Nat :=
  (d.edges.select t (fun _ row => row.requester == p && row.state == .pending)).length

/-- The insert of a pending edge is possible. -/
def Insertable (d : Data) (t : Sess) (r : Request) (edge : Uuid) : Prop :=
  d.edges.Free t r.pair ∧ d.edges.committed r.pair = none ∧ Ordered r.pair ∧ edge ∉ d.uuids

instance (d : Data) (t : Sess) (r : Request) (edge : Uuid) : Decidable (d.Insertable t r edge) :=
  inferInstanceAs (Decidable (_ ∧ _ ∧ _ ∧ _))

/-- The insert does nothing: the pair has a row. -/
def Conflicting (d : Data) (t : Sess) (r : Request) : Prop :=
  d.edges.Settled t r.pair ∧ d.edges.committed r.pair ≠ none

instance (d : Data) (t : Sess) (r : Request) : Decidable (d.Conflicting t r) :=
  inferInstanceAs (Decidable (_ ∧ _))

/-- The insert of a pending edge. -/
def insertPending (d : Data) (t : Sess) (r : Request) (edge : Uuid) : Data :=
  { d with
    edges := d.edges.write t r.pair (some (.request edge r.me.id))
    uuids := edge :: d.uuids }

/-- The visible row of a pair is the crossing request. -/
def crossing (r : Request) (row : EdgeRow) : Bool := decide (row.Answerable r.me.id)

/-- The answer of a transaction that is rolled back at a program point because of
what its statement has found. -/
def refused (d : Data) (t : Sess) : Pc → Option (List Answer)
  | .request r .locked =>
    if (d.purged.view t r.me.id).isSome then
      some [.request r (.refused playerDeleted)]
    else
      none
  | .request r (.inserted _) =>
    if maxPendingOutstanding < d.authoredPending t r.me.id then
      some [.request r (.refused tooManyOutstanding)]
    else
      none
  | .request r .uncrossed => (d.edges.view t r.pair).map (fun row => [.request r (.repeated row)])
  | .request r .vanished =>
    if d.Conflicting t r then some [.request r (.refused unresolvable)] else none
  | .edge c .viewed =>
    if ∀ k ∈ d.edges.keys, (d.edges.committed k).any (fun row => decide (c.Finds k row)) = false
    then
      some [.edge c (.error notFound)]
    else
      none
  | _ => none

end Data

end Data

section Statements

inductive Act
  -- a request
  | reject (i : RequestInput) (e : Error)
  | requestOpen (i : RequestInput) (r : Request)
  | lockRequester (r : Request)
  | checkTombstone (r : Request)
  | insertPending (r : Request) (edge : Uuid)
  | insertConflict (r : Request)
  | countAuthored (r : Request) (edge : Uuid)
  | acceptCrossing (r : Request) (row : EdgeRow)
  | noCrossing (r : Request)
  | noPair (r : Request)
  | insertAgain (r : Request) (edge : Uuid)
  -- an answer to a request, or its end
  | viewMiss (c : EdgeCall)
  | viewEdge (c : EdgeCall) (k : Uuid × Uuid) (row : EdgeRow)
  | writeEdge (c : EdgeCall) (k : Uuid × Uuid) (row : EdgeRow)
  -- the purge
  | purge (m : Sweeper.Move (Uuid × Uuid) EdgeRow)
  -- the ends of transactions
  | commit (pc : Pc) (answers : List Answer)
  | refuse (pc : Pc) (answers : List Answer)
  | fail (pc : Pc) (msg : String)
deriving DecidableEq

def stmt (t : Sess) : Act → Stmt Data Pc
  | .reject i e =>
    { before := .idle
      guard := fun _ => i.validated = .error e
      after := fun _ => .idle
      change := fun d => { d with answers := d.answers ++ [.rejected i e] } }
  | .requestOpen i r =>
    { before := .idle
      guard := fun _ => i.validated = .ok r
      after := fun _ => .request r .opened }
  | .lockRequester r =>
    { before := .request r .opened
      guard := fun d => d.locks.Takeable t r.lockKey
      after := fun _ => .request r .locked
      change := fun d => { d with locks := d.locks.take t r.lockKey } }
  | .checkTombstone r =>
    { before := .request r .locked
      guard := fun d => d.purged.view t r.me.id = none
      after := fun _ => .request r .checked }
  | .insertPending r edge =>
    { before := .request r .checked
      guard := fun d => d.Insertable t r edge
      after := fun _ => .request r (.inserted edge)
      change := fun d => d.insertPending t r edge }
  | .insertConflict r =>
    { before := .request r .checked
      guard := fun d => d.Conflicting t r
      after := fun _ => .request r .taken }
  | .countAuthored r edge =>
    { before := .request r (.inserted edge)
      guard := fun d => d.authoredPending t r.me.id ≤ maxPendingOutstanding
      after := fun _ => .request r (.counted edge) }
  | .acceptCrossing r row =>
    { before := .request r .taken
      guard := fun d => d.edges.Free t r.pair ∧ d.edges.committed r.pair = some row ∧
        row.Answerable r.me.id
      after := fun _ => .request r (.crossed row)
      change := fun d => { d with edges := d.edges.write t r.pair (some row.accept) } }
  | .noCrossing r =>
    { before := .request r .taken
      guard := fun d => (d.edges.committed r.pair).any (Data.crossing r) = false
      after := fun _ => .request r .uncrossed }
  | .noPair r =>
    { before := .request r .uncrossed
      guard := fun d => d.edges.view t r.pair = none
      after := fun _ => .request r .vanished }
  | .insertAgain r edge =>
    { before := .request r .vanished
      guard := fun d => d.Insertable t r edge
      after := fun _ => .request r (.inserted edge)
      change := fun d => d.insertPending t r edge }
  | .viewMiss c =>
    { before := .idle
      guard := fun d => ∀ k ∈ d.edges.keys,
        (d.edges.committed k).any (fun row => row.id == c.edge && decide (Party k c.me)) = false
      after := fun _ => .idle
      change := fun d => { d with answers := d.answers ++ [.edge c (.error notFound)] } }
  | .viewEdge c k row =>
    { before := .idle
      guard := fun d => d.edges.committed k = some row ∧ row.id = c.edge ∧ Party k c.me
      after := fun _ => .edge c .viewed }
  | .writeEdge c k row =>
    { before := .edge c .viewed
      guard := fun d => d.edges.Free t k ∧ d.edges.committed k = some row ∧ c.Finds k row
      after := fun _ => .edge c (.written k row)
      change := fun d => { d with edges := d.edges.write t k (c.change k row).new } }
  | .purge m => (m.stmt policy t).along Data.tables Data.setTables Pc.ofPoint
  | .commit pc answers =>
    { before := pc
      guard := fun _ => pc.result = some answers
      after := fun _ => .idle
      change := fun d => d.commit t pc.changes answers }
  | .refuse pc answers =>
    { before := pc
      guard := fun d => d.refused t pc = some answers
      after := fun _ => .idle
      change := fun d => d.rollback t answers }
  | .fail pc msg =>
    { before := pc
      guard := fun _ => pc ≠ .idle
      after := fun _ => .idle
      change := fun d => d.rollback t (pc.refusal (.internal msg)) }

instance (t : Sess) (a : Act) (d : Data) : Decidable ((stmt t a).guard d) := by
  cases a <;> dsimp only [stmt, Stmt.along] <;> infer_instance

def programs : Programs Data Pc Act where
  data := Data.start
  idle := .idle
  stmt := stmt

/-- The friends service. -/
def system : TransitionSystem (World Data Pc) (Sess × Act) := programs.system

instance (w : World Data Pc) (a : Sess × Act) : Decidable (system.enabled w a) :=
  inferInstanceAs (Decidable (_ ∧ (stmt a.1 a.2).guard w.data))

end Statements

end Swarog.Friends
