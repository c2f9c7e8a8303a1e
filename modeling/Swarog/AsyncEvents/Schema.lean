import Swarog.Pg.Table
import Swarog.Pg.Checkpoint

/-!
# Rows and values of the durable event plane

The data of `core/asyncevents`: events, history contracts, subscription rows,
and the pure parts of the functions that read and write them.

A subscription row is identified by its `spec_hash`, a rendering of topic,
contract version and start position.  Reconciliation refuses a row whose hash
differs from the registering code's, so the worker, which selects events by the
topic and version of its own entry, selects those of the row.  This rests on the
rendering being injective, which is proved here.
-/

namespace Swarog.AsyncEvents

open Pg

/-- `i32::MAX`. -/
def i32Max : Nat := 2147483647

/-- `i64::MAX`. -/
def i64Max : Int := 9223372036854775807

/-- `i32::try_from` on an unsigned value. -/
def i32TryFrom (n : Nat) : Option Int := if n ≤ i32Max then some n else none

/-- One row of `asyncevents.events` apart from its position. -/
structure Event where
  topic : String
  contractVersion : Int
  eventId : String
  payload : String
  createdAt : Nat
deriving DecidableEq

/-- `bus::HistoryPolicy`. -/
inductive HistoryPolicy
  | minRetention (days : Nat)
  | keepForever
deriving DecidableEq

/-- The `policy` column of `asyncevents.history_contracts`. -/
inductive Policy
  | minRetention
  | keepForever
deriving DecidableEq

/-- One row of `asyncevents.history_contracts`, keyed by topic and version. -/
structure ContractRow where
  policy : Policy
  minRetentionDays : Int
deriving DecidableEq

/-- `policy_columns`: the columns stored for a history policy. -/
def policyColumns : HistoryPolicy → ContractRow
  | .minRetention days => ⟨.minRetention, (i32TryFrom days).getD i32Max⟩
  | .keepForever => ⟨.keepForever, 7⟩

/-- `ensure_history_contract` refuses a stored row that differs from the
declared policy; days only count under `min_retention`. -/
def drifted (stored declared : ContractRow) : Prop :=
  stored.policy ≠ declared.policy ∨
    declared.policy = .minRetention ∧ stored.minRetentionDays ≠ declared.minRetentionDays

instance (stored declared : ContractRow) : Decidable (drifted stored declared) :=
  inferInstanceAs (Decidable (_ ∨ _))

/-- `bus::StartPosition`. -/
inductive StartPosition
  | genesis
  | afterRegistration
  | explicit (p : Position)
deriving DecidableEq

/-- `start_desc`. -/
def startDesc : StartPosition → String
  | .genesis => "genesis"
  | .afterRegistration => "after_registration"
  | .explicit p =>
    "explicit:" ++ toString p.generation ++ "/" ++ toString p.xid ++ "/" ++ toString p.tie

/-- `transport::SubEntry`: what the code registers for one subscription. -/
structure SubEntry where
  id : String
  start : StartPosition
  topic : String
  version : Nat
  history : Option HistoryPolicy
deriving DecidableEq

/-- `SubEntry::spec_hash`. -/
def SubEntry.specHash (entry : SubEntry) : String :=
  entry.topic ++ "|v" ++ toString entry.version ++ "|" ++ startDesc entry.start

/-- `SubEntry::start_kind`. -/
def SubEntry.startKind (entry : SubEntry) : String :=
  match entry.start with
  | .genesis => "genesis"
  | .afterRegistration => "after_registration"
  | .explicit _ => "explicit"

section SpecHash

/-- Two lists cut at the last occurrence of a separator. -/
theorem append_cons_inj_of_last {α : Type} {c : α} {a a' b b' : List α} (hb : c ∉ b) (hb' : c ∉ b')
    (h : a ++ c :: b = a' ++ c :: b') : a = a' ∧ b = b' := by
  rcases List.append_eq_append_iff.mp h with ⟨l, ha, hl⟩ | ⟨l, ha, hl⟩
  · cases l with
    | nil => simpa [ha] using hl
    | cons =>
      simp only [List.cons_append, List.cons.injEq] at hl
      exact absurd (by simp [hl.2]) hb
  · cases l with
    | nil => simpa [ha, eq_comm] using hl
    | cons =>
      simp only [List.cons_append, List.cons.injEq] at hl
      exact absurd (by simp [hl.2]) hb'

theorem bar_notMem_nat (n : Nat) : '|' ∉ (toString n).toList := by
  rw [Nat.toString_eq_repr, Nat.toList_repr]
  intro h
  have hd := Nat.isDigit_of_mem_toDigits (by decide) (by decide) h
  exact absurd hd (by decide)

theorem bar_notMem_int (i : Int) : '|' ∉ (toString i).toList := by
  cases i with
  | ofNat n => exact bar_notMem_nat n
  | negSucc n =>
    have hrepr : toString (Int.negSucc n) = "-" ++ toString (n + 1) := rfl
    rw [hrepr, String.toList_append, List.mem_append, not_or]
    exact ⟨by decide, bar_notMem_nat (n + 1)⟩

theorem bar_notMem_startDesc (s : StartPosition) : '|' ∉ (startDesc s).toList := by
  cases s with
  | genesis | afterRegistration => decide
  | explicit =>
    simp only [startDesc, String.toList_append, List.mem_append, not_or]
    exact ⟨⟨⟨⟨⟨by decide, bar_notMem_int _⟩, by decide⟩, bar_notMem_nat _⟩,
      by decide⟩, bar_notMem_int _⟩

/-- The rendering of a specification determines topic and version. -/
theorem topic_version_of_specHash {a b : SubEntry} (h : a.specHash = b.specHash) :
    a.topic = b.topic ∧ a.version = b.version := by
  have hshape : ∀ e : SubEntry, e.specHash.toList =
      (e.topic.toList ++ '|' :: 'v' :: (toString e.version).toList) ++
        '|' :: (startDesc e.start).toList := by
    intro e
    simp [SubEntry.specHash]
  have hlist := congrArg String.toList h
  rw [hshape a, hshape b] at hlist
  obtain ⟨hhead, -⟩ := append_cons_inj_of_last (bar_notMem_startDesc a.start)
    (bar_notMem_startDesc b.start) hlist
  have hver : ∀ e : SubEntry, '|' ∉ 'v' :: (toString e.version).toList := by
    intro e
    simp only [List.mem_cons, not_or]
    exact ⟨by decide, bar_notMem_nat e.version⟩
  obtain ⟨htopic, hversion⟩ := append_cons_inj_of_last (hver a) (hver b) hhead
  refine ⟨String.toList_inj.mp htopic, ?_⟩
  simp only [List.cons.injEq, true_and] at hversion
  have hnum := congrArg (fun ds => Nat.ofDigitChars 10 ds 0) hversion
  simpa [Nat.toString_eq_ofList_toDigits] using hnum

end SpecHash

/-- The `state` column of `asyncevents.subscriptions`. -/
inductive SubState
  | active
  | paused
  | retired
deriving DecidableEq

/-- One row of `asyncevents.subscriptions`, keyed by `subscription_id`. -/
structure SubRow where
  topic : String
  contractVersion : Int
  state : SubState
  cursor : Position
  nextAttemptAt : Option Nat
  consecutiveFailures : Int
  lastError : Option String
  specHash : String
  startKind : String
  updatedAt : Nat
deriving DecidableEq

/-- The exact `(topic, contract_version)` match of the event selects. -/
def Selects (topic : String) (version : Int) (ev : Event) : Prop :=
  ev.topic = topic ∧ ev.contractVersion = version

instance (topic : String) (version : Int) : DecidablePred (Selects topic version) :=
  fun _ => inferInstanceAs (Decidable (_ ∧ _))

/-- The events a subscription row stands for. -/
def SubRow.Selects (row : SubRow) : Event → Prop :=
  AsyncEvents.Selects row.topic row.contractVersion

instance (row : SubRow) : DecidablePred row.Selects :=
  inferInstanceAs (DecidablePred (AsyncEvents.Selects _ _))

/-- Microseconds in a second. -/
def secondMicros : Nat := 1000000

/-- Microseconds in a day. -/
def dayMicros : Int := 86400000000

/-- `PAUSE_AFTER`. -/
def pauseAfter : Int := 20

/-- `backoff_secs`: one second, doubled per failure, at most five minutes. -/
def backoffSecs (failures : Int) : Nat := min (2 ^ (max 0 (min (failures - 1) 30)).toNat) 300

/-- What a worker remembers of the row it claimed. -/
structure Claim where
  entry : SubEntry
  cursor : Position
  failures : Int
deriving DecidableEq

/-- The contract version a worker selects by:
`i32::try_from(entry.version).unwrap_or(i32::MAX)`. -/
def Claim.version (c : Claim) : Int := (i32TryFrom c.entry.version).getD i32Max

namespace SubRow

/-- The due-subscription condition of `deliver_one_on`. -/
def Due (row : SubRow) (now : Nat) : Prop := row.state = .active ∧ ∀ t ∈ row.nextAttemptAt, t ≤ now

instance (row : SubRow) (now : Nat) : Decidable (row.Due now) := inferInstanceAs (Decidable (_ ∧ _))

/-- The cursor update of a successful delivery. -/
def advance (row : SubRow) (p : Position) (now : Nat) : SubRow :=
  { row with
    cursor := p
    consecutiveFailures := 0
    nextAttemptAt := none
    lastError := none
    updatedAt := now }

/-- The compare-and-swap condition of `record_failure`: the row still carries
the claimed cursor and failure count. -/
def StillClaimed (row : SubRow) (c : Claim) : Prop :=
  row.cursor = c.cursor ∧ row.consecutiveFailures = c.failures

instance (row : SubRow) (c : Claim) : Decidable (row.StillClaimed c) :=
  inferInstanceAs (Decidable (_ ∧ _))

/-- `record_failure`, called with the claimed failure count plus one. -/
def recordFailure (row : SubRow) (c : Claim) (error : String) (now : Nat) : SubRow :=
  if row.StillClaimed c then
    { row with
      consecutiveFailures := c.failures + 1
      nextAttemptAt := some (now + backoffSecs (c.failures + 1) * secondMicros)
      lastError := some error
      state := if c.failures + 1 ≥ pauseAfter then .paused else row.state
      updatedAt := now }
  else
    row

/-- The cursor update of `eventctl skip`. -/
def skip (row : SubRow) (e : Entry Event) (reason : String) (now : Nat) : SubRow :=
  { row with
    cursor := e.pos
    consecutiveFailures := 0
    nextAttemptAt := none
    lastError := some ("skipped event " ++ e.data.eventId ++ ": " ++ reason)
    state := .active
    updatedAt := now }

/-- `eventctl skip` refuses a healthy subscription. -/
def Healthy (row : SubRow) : Prop := row.state = .active ∧ row.consecutiveFailures = 0

instance (row : SubRow) : Decidable row.Healthy := inferInstanceAs (Decidable (_ ∧ _))

end SubRow

/-- The single-statement operator commands of `eventctl`. -/
inductive Command
  | retry
  | pause
  | resume
  | retire
deriving DecidableEq

namespace Command

/-- `set_state`. -/
def setState (state : SubState) (row : SubRow) (now : Nat) : SubRow :=
  { row with state := state, updatedAt := now }

/-- The row an operator command leaves. -/
def apply : Command → SubRow → Nat → SubRow
  | .retry, row, now =>
    { row with
      consecutiveFailures := 0
      nextAttemptAt := none
      lastError := none
      updatedAt := now }
  | .pause, row, now => setState .paused row now
  | .resume, row, now => { row with state := .active, nextAttemptAt := none, updatedAt := now }
  | .retire, row, now => setState .retired row now

end Command

/-- The initial cursor of a start position, given the current generation and
the identifier of the registering transaction. -/
def startCursor (generation : Int) (xid : Nat) : StartPosition → Position
  | .genesis => ⟨0, 0, 0⟩
  | .afterRegistration => ⟨generation, xid, i64Max⟩
  | .explicit p => p

/-- The row `reconcile_one` inserts. -/
def SubEntry.newRow (entry : SubEntry) (version : Int) (cursor : Position) (now : Nat) : SubRow where
  topic := entry.topic
  contractVersion := version
  state := .active
  cursor := cursor
  nextAttemptAt := none
  consecutiveFailures := 0
  lastError := none
  specHash := entry.specHash
  startKind := entry.startKind
  updatedAt := now

section SameSubscription

/-- The immutable part of a subscription row. -/
structure SubRow.Same (row row' : SubRow) : Prop where
  topic : row'.topic = row.topic
  contractVersion : row'.contractVersion = row.contractVersion
  specHash : row'.specHash = row.specHash

variable (row : SubRow)

theorem SubRow.Same.refl : SubRow.Same row row := ⟨rfl, rfl, rfl⟩

theorem SubRow.same_advance (p : Position) (now : Nat) : SubRow.Same row (row.advance p now) :=
  ⟨rfl, rfl, rfl⟩

theorem SubRow.same_skip (e : Entry Event) (reason : String) (now : Nat) :
    SubRow.Same row (row.skip e reason now) :=
  ⟨rfl, rfl, rfl⟩

theorem SubRow.same_recordFailure (c : Claim) (error : String) (now : Nat) :
    SubRow.Same row (row.recordFailure c error now) := by
  unfold SubRow.recordFailure
  split
  · exact ⟨rfl, rfl, rfl⟩
  · exact SubRow.Same.refl row

theorem SubRow.same_apply (cmd : Command) (now : Nat) : SubRow.Same row (cmd.apply row now) := by
  cases cmd <;> exact ⟨rfl, rfl, rfl⟩

/-- Recording a failure does not move the cursor. -/
@[simp] theorem SubRow.cursor_recordFailure (c : Claim) (error : String) (now : Nat) :
    (row.recordFailure c error now).cursor = row.cursor := by
  unfold SubRow.recordFailure
  split <;> rfl

@[simp] theorem Command.cursor_apply (cmd : Command) (now : Nat) :
    (cmd.apply row now).cursor = row.cursor := by
  cases cmd <;> rfl

end SameSubscription

end Swarog.AsyncEvents
