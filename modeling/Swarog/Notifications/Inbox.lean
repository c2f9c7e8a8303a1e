import Swarog.Net.Ip
import Swarog.Opsapi
import Swarog.Sweeper

/-!
# The inbox of notifications

A message is inserted by one function, `deliver_on`: it checks the message, reads the tombstone
of the player and inserts the row, unless its dedup key has one already.  A durable event runs
it in the transaction of its delivery; an operator runs it on a connection of the pool, where
every statement is a transaction of its own.  The purge of deleted players is the one of
`Sweeper`.

Every message has a dedup key, which is the key of the table.
-/

namespace Swarog.Notifications

open Pg

section Policy

def maxKindBytes : Nat := 64

def maxTitleBytes : Nat := 200

def maxBodyBytes : Nat := 4000

def maxDedupKeyBytes : Nat := 128

def purgeBatch : Nat := 256

def malformedPlayerId : Error := Error.invalid "player_id is not a valid uuid"

def playerDeleted : Error := Error.invalid "player has been deleted"

def malformedDedupKey : Error := Error.invalid "dedup key is not an operator key"

def operatorDedupPrefix : String := "admin-send-mail-"

def operatorDedupHex : Nat := 32

structure NewNotification where
  playerId : String
  kind : String
  title : String
  body : String
  sourceEventId : String
deriving DecidableEq

def tooLong (what : String) (maxBytes : Nat) (value : String) : Except Error Unit :=
  if maxBytes < value.utf8ByteSize then
    .error (.invalid (what ++ " exceeds " ++ toString maxBytes ++ " bytes"))
  else
    .ok ()

def isBlank (s : String) : Bool := s.toList.all Net.isWhiteSpace

def validateNew (n : NewNotification) : Except Error Unit := do
  if isBlank n.playerId then throw (.invalid "player_id is required")
  if n.kind = "" then throw (.invalid "kind is required")
  tooLong "kind" maxKindBytes n.kind
  tooLong "title" maxTitleBytes n.title
  tooLong "body" maxBodyBytes n.body
  if isBlank n.sourceEventId then throw (.invalid "dedup key is required")
  tooLong "dedup key" maxDedupKeyBytes n.sourceEventId

/-- The canonical spelling with hyphens, in either case. -/
def isUuidText (s : String) : Bool :=
  decide (s.utf8ByteSize = 36) && s.toList.zipIdx.all (fun e =>
    if e.2 = 8 ∨ e.2 = 13 ∨ e.2 = 18 ∨ e.2 = 23 then e.1 == '-' else decide (e.1 ∈ hexDigits))

def isOperatorDedupKey (s : String) : Bool :=
  operatorDedupPrefix.toList.isPrefixOf s.toList &&
    decide ((s.toList.drop operatorDedupPrefix.length).length = operatorDedupHex) &&
    (s.toList.drop operatorDedupPrefix.length).all (fun c => decide (c ∈ hexDigits))

/-- What an operator's message has to satisfy before its first statement. -/
def NewNotification.validated (n : NewNotification) : Except Error Unit :=
  if isOperatorDedupKey n.sourceEventId then validateNew n else .error malformedDedupKey

/-- A row of `notifications.messages`; its key is the dedup key. -/
structure MessageRow where
  playerId : Uuid
  kind : String
  title : String
  body : String
deriving DecidableEq

def NewNotification.row (n : NewNotification) (p : Uuid) : MessageRow :=
  ⟨p, n.kind, n.title, n.body⟩

def policy : Sweeper.Policy String MessageRow where
  owns p _ row := decide (row.playerId = p)
  batch := purgeBatch

/-- What the dedup index did with an operator's message. -/
inductive Sent
  | appended
  | duplicate
  | keyReused
deriving DecidableEq

structure Answer where
  message : NewNotification
  result : Except Error Sent
deriving DecidableEq

end Policy

section ProgramPoints

/-- The delivery of a durable event. -/
inductive DeliverStage
  | opened
  | checked (p : Uuid)
  | inserted (p : Uuid)
  | skipped
deriving DecidableEq

/-- An operator's message. -/
inductive SendStage
  | opened
  | checked (p : Uuid)
  | conflicted (p : Uuid)
deriving DecidableEq

/-- Where a session is. -/
inductive Pc
  | idle
  | deliver (n : NewNotification) (st : DeliverStage)
  | send (n : NewNotification) (st : SendStage)
  | purge (q : Sweeper.Point String MessageRow)
deriving DecidableEq

namespace Pc

def point : Pc → Option (Sweeper.Point String MessageRow)
  | .purge q => some q
  | _ => none

def ofPoint : Option (Sweeper.Point String MessageRow) → Pc
  | some q => .purge q
  | none => .idle

/-- The transaction of a delivery has come to its `COMMIT`. -/
def ready : Pc → Bool
  | .deliver _ (.inserted _) => true
  | .deliver _ .skipped => true
  | .purge q => q.ready
  | _ => false

def refusal (e : Error) : Pc → List Answer
  | .send n _ => [⟨n, .error e⟩]
  | _ => []

/-- The changes of `notifications.messages` that the transaction has made. -/
def changes : Pc → List (Change String MessageRow Empty)
  | .deliver n (.inserted p) => [⟨n.sourceEventId, none, some (n.row p), []⟩]
  | .purge q => q.changes (fun _ => [])
  | _ => []

/-- The player for whom a session has found no tombstone. -/
def adding : Pc → Option Uuid
  | .deliver _ (.checked p) => some p
  | .deliver _ (.inserted p) => some p
  | .send _ (.checked p) => some p
  | _ => none

end Pc

end ProgramPoints

section Data

structure Data where
  messages : Table String Sess MessageRow
  purged : Table Uuid Sess Tombstone
  answers : List Answer

namespace Data

def start : Data where
  messages := Table.empty
  purged := Table.empty
  answers := []

def tables (d : Data) : Sweeper.Tables String MessageRow := ⟨d.messages, d.purged⟩

def setTables (d : Data) (T : Sweeper.Tables String MessageRow) : Data :=
  { d with messages := T.rows, purged := T.purged }

def reply (answers : List Answer) (d : Data) : Data := { d with answers := d.answers ++ answers }

def commit (t : Sess) (d : Data) : Data :=
  { d with messages := d.messages.commit t, purged := d.purged.commit t }

def rollback (t : Sess) (d : Data) : Data :=
  { d with messages := d.messages.rollback t, purged := d.purged.rollback t }

/-- What an operator's message is answered because of what its statement has found. -/
def refused (d : Data) : Pc → Option Error
  | .send n .opened =>
    match Uuid.ofText n.playerId with
    | none => some malformedPlayerId
    | some p => if d.purged.committed p = none then none else some playerDeleted
  | _ => none

end Data

end Data

section Statements

inductive Act
  -- the delivery of a durable event
  | deliverOpen (n : NewNotification)
  | deliverCheck (n : NewNotification) (p : Uuid)
  | deliverPurged (n : NewNotification) (p : Uuid)
  | deliverInsert (n : NewNotification) (p : Uuid)
  | deliverConflict (n : NewNotification) (p : Uuid)
  -- an operator's message
  | reject (n : NewNotification) (e : Error)
  | sendOpen (n : NewNotification)
  | sendCheck (n : NewNotification) (p : Uuid)
  | sendInsert (n : NewNotification) (p : Uuid)
  | sendConflict (n : NewNotification) (p : Uuid)
  | sendMatch (n : NewNotification) (p : Uuid)
  -- the purge
  | purge (m : Sweeper.Move String MessageRow)
  -- the ends of transactions
  | commit (pc : Pc)
  | refuse (pc : Pc) (e : Error)
  | fail (pc : Pc) (msg : String)
deriving DecidableEq

def stmt (t : Sess) : Act → Stmt Data Pc
  -- a message that fails its checks costs no statement, and the delivery is committed
  | .deliverOpen n =>
    { before := .idle
      after := fun _ =>
        .deliver n (if isUuidText n.playerId ∧ validateNew n = .ok () then .opened else .skipped) }
  | .deliverCheck n p =>
    { before := .deliver n .opened
      guard := fun d => Uuid.ofText n.playerId = some p ∧ d.purged.view t p = none
      after := fun _ => .deliver n (.checked p) }
  | .deliverPurged n p =>
    { before := .deliver n .opened
      guard := fun d => Uuid.ofText n.playerId = some p ∧ d.purged.view t p ≠ none
      after := fun _ => .deliver n .skipped }
  | .deliverInsert n p =>
    { before := .deliver n (.checked p)
      guard := fun d => d.messages.Free t n.sourceEventId ∧
        d.messages.committed n.sourceEventId = none
      after := fun _ => .deliver n (.inserted p)
      change := fun d =>
        { d with messages := d.messages.write t n.sourceEventId (some (n.row p)) } }
  | .deliverConflict n p =>
    { before := .deliver n (.checked p)
      guard := fun d => d.messages.Settled t n.sourceEventId ∧
        d.messages.committed n.sourceEventId ≠ none
      after := fun _ => .deliver n .skipped }
  | .reject n e =>
    { before := .idle
      guard := fun _ => n.validated = .error e
      after := fun _ => .idle
      change := fun d => d.reply [⟨n, .error e⟩] }
  | .sendOpen n =>
    { before := .idle
      guard := fun _ => n.validated = .ok ()
      after := fun _ => .send n .opened }
  | .sendCheck n p =>
    { before := .send n .opened
      guard := fun d => Uuid.ofText n.playerId = some p ∧ d.purged.view t p = none
      after := fun _ => .send n (.checked p) }
  | .sendInsert n p =>
    { before := .send n (.checked p)
      guard := fun d => d.messages.pending n.sourceEventId = none ∧
        d.messages.committed n.sourceEventId = none
      after := fun _ => .idle
      change := fun d =>
        { d with messages := d.messages.put n.sourceEventId (some (n.row p)) }.reply
          [⟨n, .ok .appended⟩] }
  | .sendConflict n p =>
    { before := .send n (.checked p)
      guard := fun d => d.messages.Settled t n.sourceEventId ∧
        d.messages.committed n.sourceEventId ≠ none
      after := fun _ => .send n (.conflicted p) }
  | .sendMatch n p =>
    { before := .send n (.conflicted p)
      after := fun _ => .idle
      change := fun d => d.reply
        [⟨n, .ok (if d.messages.committed n.sourceEventId = some (n.row p) then .duplicate
          else .keyReused)⟩] }
  | .purge m => (m.stmt policy t).along Data.tables Data.setTables Pc.ofPoint
  | .commit pc =>
    { before := pc
      guard := fun _ => pc.ready = true
      after := fun _ => .idle
      change := fun d => d.commit t }
  | .refuse pc e =>
    { before := pc
      guard := fun d => d.refused pc = some e
      after := fun _ => .idle
      change := fun d => (d.rollback t).reply (pc.refusal e) }
  | .fail pc msg =>
    { before := pc
      guard := fun _ => pc ≠ .idle
      after := fun _ => .idle
      change := fun d => (d.rollback t).reply (pc.refusal (.internal msg)) }

instance (t : Sess) (a : Act) (d : Data) : Decidable ((stmt t a).guard d) := by
  cases a <;> dsimp only [stmt, Stmt.along] <;> infer_instance

def programs : Programs Data Pc Act where
  data := Data.start
  idle := .idle
  stmt := stmt

/-- All interleavings of deliveries, operators' messages and sweeps. -/
def system : TransitionSystem (World Data Pc) (Sess × Act) := programs.system

instance (w : World Data Pc) (a : Sess × Act) : Decidable (system.enabled w a) :=
  inferInstanceAs (Decidable (_ ∧ (stmt a.1 a.2).guard w.data))

end Statements

section Held

variable {G : World Data Pc → Sess × Act → Prop}
variable {w : World Data Pc} {t : Sess} {a : Act} {d : Data}

theorem ofPoint_frame (q : Option (Sweeper.Point String MessageRow)) :
    (Pc.ofPoint q).changes = Sweeper.changesOf (fun _ => []) q ∧
      (Pc.ofPoint q).point = q ∧ (Pc.ofPoint q).adding = none := by
  cases q <;> exact ⟨rfl, rfl, rfl⟩

theorem messages_edits (hg : (stmt t a).guard d) :
    d.messages.Edits t (stmt t a).before.changes ((stmt t a).change d).messages
      ((stmt t a).after d).changes := by
  cases a with
  | deliverOpen n =>
    have hnone : ((stmt t (.deliverOpen n)).after d).changes = [] := by
      dsimp only [stmt]
      split <;> rfl
    rw [hnone]
    exact .same
  | deliverInsert n p => exact .first ⟨n.sourceEventId, none, some (n.row p), []⟩ rfl hg.1 hg.2
  | sendInsert => exact .put hg.1
  | purge m =>
    simp only [stmt, Stmt.along, (ofPoint_frame _).1]
    exact m.edits hg
  | commit => exact .commit
  | refuse | fail => exact .rollback
  | _ => exact .same

theorem made_reachable (h : system.Reachable G w) : ∀ t, w.data.messages.Made t (w.pc t).changes :=
  Programs.made_reachable (X := programs) Data.messages Pc.changes rfl rfl
    (fun _ _ _ _ en => messages_edits en.2) h

/-- Notifications as a service with a purge. -/
def adder : Sweeper.Adder Data Pc String MessageRow where
  tables := Data.tables
  point := Pc.point
  adding := Pc.adding

theorem does (hg : (stmt t a).guard d) :
    Sweeper.Does policy t d.tables (stmt t a).before.point ((stmt t a).change d).tables
      ((stmt t a).after d).point := by
  cases a with
  | purge m =>
    simp only [stmt, Stmt.along, (ofPoint_frame _).2.1]
    exact .move m hg
  | commit => exact .commit _
  | refuse | fail => exact .rollback _
  | _ => exact .rows _ (messages_edits hg).step

/-- Messages appear where a delivery commits, or an operator's message is inserted. -/
theorem added {k : String} {row : MessageRow} {p : Uuid} (h : system.Reachable G w)
    (en : programs.enabled w (t, a))
    (hrow : ((stmt t a).change w.data).messages.committed k = some row)
    (hown : policy.owns p k row = true) :
    (∃ row', w.data.messages.committed k = some row' ∧ policy.owns p k row' = true) ∨
      (stmt t a).before.adding = some p := by
  have hsame : ((stmt t a).change w.data).messages.committed k = w.data.messages.committed k →
      ∃ row', w.data.messages.committed k = some row' ∧ policy.owns p k row' = true :=
    fun heq => ⟨row, heq.symm.trans hrow, hown⟩
  cases a with
  | sendInsert n p' =>
    by_cases hk : k = n.sourceEventId
    · subst hk
      rw [show ((stmt t (.sendInsert n p')).change w.data).messages.committed n.sourceEventId =
        some (n.row p') from (Table.committed_put _ _ _ _).trans (if_pos rfl)] at hrow
      cases hrow
      exact .inr (congrArg some (of_decide_eq_true hown))
    · exact .inl (hsame ((Table.committed_put _ _ _ _).trans (if_neg hk)))
  | commit pc =>
    have hm := made_reachable h t
    rw [show w.pc t = pc from en.1] at hm
    rcases hm.commit_cases k with ⟨hkept, -⟩ | ⟨c, hc, rfl, -, hnew⟩
    · exact .inl (hsame hkept)
    · have hnew : c.new = some row := hnew.symm.trans hrow
      cases pc with
      | deliver n st =>
        cases st with
        | inserted =>
          cases List.mem_singleton.1 hc
          cases hnew
          exact .inr (congrArg some (of_decide_eq_true hown))
        | _ => cases hc
      | purge q =>
        cases q with
        | planted => cases hc
        | sweep =>
          obtain ⟨e, -, rfl⟩ := List.mem_map.1 hc
          cases hnew
      | _ => cases hc
  | deliverInsert => exact .inl (hsame (Table.committed_write _ _ _ _ _))
  | purge m => exact .inl (hsame (m.committed _))
  | refuse | fail => exact .inl (hsame (Table.committed_rollback _ _ _))
  | _ => exact .inl (hsame rfl)

theorem lawful : adder.Lawful policy programs (fun _ => ([] : List Empty)) where
  start := rfl
  idle := rfl
  idle_adds := rfl
  does := fun _ _ _ => does
  apart := by
    intro pc p hadd
    cases pc with
    | purge => cases hadd
    | _ => rfl
  made := by
    intro G w h t q hq
    have hm := made_reachable h t
    cases hpc : w.pc t with
    | purge =>
      rw [hpc] at hq hm
      cases hq
      exact hm
    | _ =>
      rw [hpc] at hq
      cases hq
  adds := by
    intro t a d p hg hadd
    cases a with
    | deliverOpen n =>
      have hadd : ((stmt t (.deliverOpen n)).after d).adding = some p := hadd
      dsimp only [stmt] at hadd
      split at hadd <;> cases hadd
    | deliverCheck | sendCheck =>
      cases hadd
      exact .inr ⟨rfl, hg.2⟩
    | deliverInsert => exact .inl hadd
    | purge m =>
      have hadd : (Pc.ofPoint ((m.stmt policy t).after d.tables)).adding = some p := hadd
      rw [(ofPoint_frame _).2.2] at hadd
      cases hadd
    | _ => cases hadd
  added := fun _ _ _ _ _ _ _ h en hrow hown => added h en hrow hown

end Held

end Swarog.Notifications
