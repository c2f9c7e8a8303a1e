import Swarog.FinMap
import Swarog.Pg.Session

/-!
# The mail outbox

A row of the outbox is claimed by a drain loop, sent, and its status is written.  A claim
adds one to the `generation` of the row; the status is written only to a row that is pending
with the generation of the claim.  An operator requeues parked rows, which adds one as well,
and cancels pending ones; the retention prune deletes rows that are sent or cancelled.  Mail
is enqueued in transactions of others under an idempotency key.

A transaction of one statement takes effect with its commit: its rows are locked from the
statement on, so that nobody changes them in between.  Which due row a claim takes, and which
parked or old rows a batch covers, is left open.
-/

namespace Swarog.Mail

open Pg (Sess Stmt Programs World)

abbrev MailId := Nat

section Rows

/-- A request to enqueue. -/
structure NewMail where
  idempotencyKey : String
  recipient : String
  subject : String
  body : String
  kind : String
deriving DecidableEq

inductive MailState
  | pending
  | sent
  | parked
  | cancelled
deriving DecidableEq

/-- A row of `mail.outbox`.  Times are milliseconds. -/
structure MailRow where
  idempotencyKey : String
  recipient : String
  subject : String
  body : String
  kind : String
  state : MailState
  attempts : Int
  generation : Int
  nextAttemptAt : Int
  lastError : Option String
  provider : Option String
deriving DecidableEq

/-- What the insert leaves to the defaults of the columns. -/
def MailRow.inserted (m : NewMail) (now : Int) : MailRow where
  idempotencyKey := m.idempotencyKey
  recipient := m.recipient
  subject := m.subject
  body := m.body
  kind := m.kind
  state := .pending
  attempts := 0
  generation := 0
  nextAttemptAt := now
  lastError := none
  provider := none

inductive Enqueued
  | inserted (id : MailId)
  | duplicate
  | conflict
deriving DecidableEq

/-- `sent` is the only state whose body may be blanked. -/
def bodyIsComparable (state : MailState) : Bool := decide (state ≠ .sent)

/-- The same message under an existing key is a replay. -/
def classifyExisting (m : NewMail) (existing : MailRow) : Enqueued :=
  let same := decide (m.recipient = existing.recipient) && decide (m.subject = existing.subject) &&
    decide (m.kind = existing.kind) &&
    (!bodyIsComparable existing.state || decide (m.body = existing.body))
  if same then .duplicate else .conflict

end Rows

section Attempts

/-- What a claim returns. -/
structure Claimed where
  id : MailId
  recipient : String
  subject : String
  body : String
  kind : String
  attempts : Int
  generation : Int
deriving DecidableEq

/-- What came of a send.  The texts are those of `last_error`; a send that takes too long
ends as `infra`. -/
inductive SendResult
  | ok
  | rejected (lastError : String)
  | infra (lastError : String)
deriving DecidableEq

inductive Disposition
  | sent
  | parked (lastError : String)
  | retry (lastError : String) (backoffSecs : Int)
deriving DecidableEq

/-- A second, doubled for each attempt, five minutes at most. -/
def backoffSecs (attempts : Int) : Int := min (2 ^ (min (max (attempts - 1) 0) 30).toNat) 300

def disposition (result : SendResult) (attempts maxAttempts : Int) : Disposition :=
  match result with
  | .ok => .sent
  | .rejected lastError => .parked lastError
  | .infra lastError =>
    if attempts ≥ maxAttempts then .parked lastError
    else .retry lastError (backoffSecs attempts)

/-- A drain loop: the name of its provider and its limits. -/
structure Drain where
  provider : String
  sendTimeoutMs : Int
  maxAttempts : Int
deriving DecidableEq

def Drain.claimLease (drain : Drain) : Int := 3 * drain.sendTimeoutMs

namespace MailRow

def due (now : Int) (row : MailRow) : Bool :=
  decide (row.state = .pending) && decide (row.nextAttemptAt ≤ now)

def claimed (now lease : Int) (row : MailRow) : MailRow :=
  { row with
    attempts := row.attempts + 1
    generation := row.generation + 1
    nextAttemptAt := now + lease }

/-- What the claim of a row has returned. -/
def claim (id : MailId) (row : MailRow) : Claimed where
  id := id
  recipient := row.recipient
  subject := row.subject
  body := row.body
  kind := row.kind
  attempts := row.attempts
  generation := row.generation

def finished (disposition : Disposition) (provider : String) (now : Int) (row : MailRow) :
    MailRow :=
  match disposition with
  | .sent => { row with state := .sent, provider := some provider, lastError := none, body := "" }
  | .parked lastError =>
    { row with state := .parked, provider := some provider, lastError := some lastError }
  | .retry lastError backoff =>
    { row with
      nextAttemptAt := now + 1000 * backoff
      provider := some provider
      lastError := some lastError }

def requeued (now : Int) (row : MailRow) : MailRow :=
  { row with
    state := .pending
    attempts := 0
    generation := row.generation + 1
    nextAttemptAt := now }

def cancelled (row : MailRow) : MailRow := { row with state := .cancelled }

def prunable (row : MailRow) : Bool := decide (row.state = .sent) || decide (row.state = .cancelled)

end MailRow

end Attempts

section Data

/-- What has been committed on a row. -/
inductive Event
  | claimed (generation : Int)
  | finished (generation : Int) (disposition : Disposition)
  | requeued
  | cancelled
deriving DecidableEq

/-- An enqueue that was answered.  `original` is the message that the row found under the key
was enqueued with. -/
structure Answer where
  message : NewMail
  verdict : Enqueued
  original : Option NewMail

/-- The committed rows, and those that open transactions have inserted.  `origin` are the
messages of all rows that were ever inserted, `story` what was committed on each, `delivered`
the rows that a provider has accepted, and `answers` those of the enqueues. -/
structure Data where
  outbox : FinMap MailId MailRow
  opened : FinMap MailId (Sess × MailRow)
  origin : FinMap MailId NewMail
  story : MailId → List Event
  delivered : List MailId
  answers : List Answer

namespace Data

def new : Data where
  outbox := FinMap.empty
  opened := FinMap.empty
  origin := FinMap.empty
  story := fun _ => []
  delivered := []
  answers := []

/-- `UPDATE mail.outbox ... WHERE id = $1 AND ...`, and the event that it stands for. -/
def updateWhere (id : MailId) (f : MailRow → Bool) (change : MailRow → MailRow)
    (event : MailRow → Event) (d : Data) : Data :=
  match d.outbox.get id with
  | none => d
  | some row =>
    if f row then
      { d with
        outbox := d.outbox.set id (change row)
        story := Function.update d.story id (d.story id ++ [event row]) }
    else d

def claimDue (id : MailId) (now lease : Int) (d : Data) : Data :=
  d.updateWhere id (MailRow.due now) (MailRow.claimed now lease)
    (fun row => .claimed (row.generation + 1))

/-- The status is written to a row that is pending with the generation of the claim. -/
def finish (c : Claimed) (disposition : Disposition) (provider : String) (now : Int) (d : Data) :
    Data :=
  d.updateWhere c.id
    (fun row => decide (row.state = .pending) && decide (row.generation = c.generation))
    (MailRow.finished disposition provider now) (fun row => .finished row.generation disposition)

def requeueParked (id : MailId) (now : Int) (d : Data) : Data :=
  d.updateWhere id (fun row => decide (row.state = .parked)) (MailRow.requeued now)
    (fun _ => .requeued)

def requeueAllParked (ids : List MailId) (now : Int) (d : Data) : Data :=
  ids.foldl (fun d id => d.requeueParked id now) d

def cancelPending (id : MailId) (d : Data) : Data :=
  d.updateWhere id (fun row => decide (row.state = .pending)) MailRow.cancelled
    (fun _ => .cancelled)

def prune (ids : List MailId) (d : Data) : Data :=
  { d with outbox := d.outbox.retain (fun id row => !(decide (id ∈ ids) && row.prunable)) }

/-- The rows that hold a key for a transaction: the committed ones and its own. -/
def holders (t : Sess) (key : String) (d : Data) : List (MailId × MailRow) :=
  (d.outbox.entries ++
    (d.opened.entries.filter (fun e => decide (e.2.1 = t))).map (fun e => (e.1, e.2.2))).filter
      (fun e => decide (e.2.idempotencyKey = key))

/-- No row holds the key, not even one that is not committed. -/
def keyFree (key : String) (d : Data) : Bool :=
  d.outbox.entries.all (fun e => decide (e.2.idempotencyKey ≠ key)) &&
    d.opened.entries.all (fun e => decide (e.2.2.idempotencyKey ≠ key))

def insert (t : Sess) (id : MailId) (m : NewMail) (now : Int) (d : Data) : Data :=
  { d with
    opened := d.opened.set id (t, MailRow.inserted m now)
    origin := d.origin.set id m
    answers := d.answers ++ [⟨m, .inserted id, none⟩] }

/-- The row that holds the key is read again.  It may have been pruned meanwhile. -/
def reread (t : Sess) (m : NewMail) (d : Data) : Data :=
  match (d.holders t m.idempotencyKey).head? with
  | none => { d with answers := d.answers ++ [⟨m, .duplicate, none⟩] }
  | some (id, row) =>
    { d with answers := d.answers ++ [⟨m, classifyExisting m row, d.origin.get id⟩] }

/-- The rows of a transaction are committed. -/
def commit (t : Sess) (d : Data) : Data :=
  { d with
    outbox := d.opened.entries.foldl
      (fun o e => if e.2.1 = t then o.set e.1 e.2.2 else o) d.outbox
    opened := d.opened.retain (fun _ v => decide (v.1 ≠ t)) }

def rollback (t : Sess) (d : Data) : Data :=
  { d with opened := d.opened.retain (fun _ v => decide (v.1 ≠ t)) }

end Data

end Data

section Sessions

/-- Where a session is: a drain loop that has claimed a row or has heard from the provider,
or a transaction that enqueues. -/
inductive Pc
  | idle
  | sending (drain : Drain) (c : Claimed)
  | answered (drain : Drain) (c : Claimed) (result : SendResult)
  | handling
  | rereading (m : NewMail)
deriving DecidableEq

inductive Act
  | claim (drain : Drain) (id : MailId) (now : Int) (row : MailRow)
  | send (drain : Drain) (c : Claimed) (result : SendResult)
  | finish (drain : Drain) (c : Claimed) (result : SendResult) (now : Int)
  | die (pc : Pc)
  | requeue (id : MailId) (now : Int)
  | requeueAll (ids : List MailId) (now : Int)
  | cancel (id : MailId)
  | prune (ids : List MailId)
  | begin
  | insert (id : MailId) (m : NewMail) (now : Int)
  | conflict (m : NewMail)
  | reread (m : NewMail)
  | commit

/-- The steps.  A process may die at any point: its open transaction is rolled back. -/
def stmt (t : Sess) : Act → Stmt Data Pc
  | .claim drain id now row =>
    { before := .idle
      guard := fun d => d.outbox.get id = some row ∧ row.due now = true
      after := fun _ => .sending drain ((row.claimed now drain.claimLease).claim id)
      change := fun d => d.claimDue id now drain.claimLease }
  | .send drain c result =>
    { before := .sending drain c
      after := fun _ => .answered drain c result
      change := fun d => if result = .ok then { d with delivered := c.id :: d.delivered } else d }
  | .finish drain c result now =>
    { before := .answered drain c result
      after := fun _ => .idle
      change := fun d =>
        d.finish c (disposition result c.attempts drain.maxAttempts) drain.provider now }
  | .die pc =>
    { before := pc
      after := fun _ => .idle
      change := fun d => d.rollback t }
  | .requeue id now =>
    { before := .idle
      after := fun _ => .idle
      change := fun d => d.requeueParked id now }
  | .requeueAll ids now =>
    { before := .idle
      after := fun _ => .idle
      change := fun d => d.requeueAllParked ids now }
  | .cancel id =>
    { before := .idle
      after := fun _ => .idle
      change := fun d => d.cancelPending id }
  | .prune ids =>
    { before := .idle
      after := fun _ => .idle
      change := fun d => d.prune ids }
  | .begin =>
    { before := .idle
      after := fun _ => .handling }
  | .insert id m now =>
    { before := .handling
      guard := fun d => d.keyFree m.idempotencyKey = true ∧ d.origin.get id = none
      after := fun _ => .handling
      change := fun d => d.insert t id m now }
  | .conflict m =>
    { before := .handling
      guard := fun d => d.holders t m.idempotencyKey ≠ []
      after := fun _ => .rereading m }
  | .reread m =>
    { before := .rereading m
      after := fun _ => .handling
      change := fun d => d.reread t m }
  | .commit =>
    { before := .handling
      after := fun _ => .idle
      change := fun d => d.commit t }

def programs : Programs Data Pc Act where
  data := Data.new
  idle := .idle
  stmt := stmt

instance (t : Sess) (a : Act) (d : Data) :
    Decidable ((programs.stmt t a).guard d) := by
  cases a <;> dsimp only [programs, stmt] <;> infer_instance

/-- All interleavings of drain loops, operators, enqueues and the prune. -/
abbrev system : TransitionSystem (World Data Pc) (Sess × Act) := programs.system

end Sessions

end Swarog.Mail
