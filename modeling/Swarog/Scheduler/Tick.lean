import Swarog.Pg.Advisory
import Swarog.Pg.LockKey

/-!
# The ticks of the scheduler

Every replica scans the schedules for those whose interval has elapsed and fires them one
after the other, each on a session of its own: it tries the session lock of the name,
checks again that the schedule is due, and then sets `last_fired` and appends
`scheduler.fired` in one transaction.  The lock is given back afterwards, or when the
session dies.

Schedules are inserted and deleted by others at any time.  Times are microseconds of the
database's clock, which does not go back; `now()` is the time at which the transaction has
begun.
-/

namespace Swarog.Scheduler

open Pg (Sess Stmt Programs World Table Locks)

abbrev Name := String

section Schedules

/-- A row of `scheduler.schedules`.  `row` tells a row from an earlier one of the same
name. -/
structure Schedule where
  row : Nat
  intervalSeconds : Int
  lastFired : Int
deriving DecidableEq

def intervalSecondsCeiling : Int := 9223372036854

namespace Schedule

/-- `make_interval(secs => interval_seconds)` in microseconds. -/
def interval (s : Schedule) : Int := s.intervalSeconds * 1000000

def elapsed (now : Int) (s : Schedule) : Bool := decide (now - s.lastFired ≥ s.interval)

def inBounds (s : Schedule) : Bool :=
  decide (1 ≤ s.intervalSeconds) && decide (s.intervalSeconds ≤ intervalSecondsCeiling)

end Schedule

/-- The scan: the names that are due, in order. -/
def dueSchedules (now : Int) (schedules : Table Name Sess Schedule) : List Name :=
  ((schedules.rows.filter (fun e => e.2.elapsed now && e.2.inBounds)).map Prod.fst).insertionSort
    (fun a b => a.toList ≤ b.toList)

/-- The check under the lock: a row that is missing or out of bounds gives no answer. -/
def fireRecheck (now : Int) (schedule : Option Schedule) : Option Bool :=
  (schedule.filter Schedule.inBounds).map (Schedule.elapsed now)

/-- Where the rotation of a sorted list of names resumes after the name that was attempted
last. -/
def rotationStart (names : List Name) (cursor : Option Name) : Nat :=
  if names = [] then
    0
  else
    let insertion :=
      match cursor with
      | none => 0
      | some last => (names.takeWhile (fun name => decide (name.toList ≤ last.toList))).length
    if insertion = names.length then 0 else insertion

def lockKey (name : Name) : Int := Pg.asI64 (Pg.fnv1a name.toUTF8.toList)

end Schedules

section Data

/-- A transaction that was committed by a fire: the events it has appended, and the row that
it has left in `scheduler.schedules`. -/
structure Fired where
  name : Name
  appended : List Name
  bumped : Option Schedule

structure Data where
  schedules : Table Name Sess Schedule
  locks : Locks
  clock : Int
  nextRow : Nat
  cursor : Sess → Option Name
  log : List Fired

namespace Data

def new : Data where
  schedules := Table.empty
  locks := Locks.free
  clock := 0
  nextRow := 0
  cursor := fun _ => none
  log := []

/-- The version that a transaction is about to leave. -/
def written (d : Data) (t : Sess) (name : Name) : Option Schedule :=
  match d.schedules.pending name with
  | some (u, v) => if u = t then v else none
  | none => none

/-- `UPDATE ... SET last_fired = now() WHERE name = $1`: no row, no effect. -/
def bump (t : Sess) (name : Name) (now : Int) (d : Data) : Data :=
  match d.schedules.committed name with
  | none => d
  | some s => { d with schedules := d.schedules.write t name (some { s with lastFired := now }) }

end Data

end Data

section Ticks

/-- How far a fire has come, once it has the lock. -/
inductive Stage
  | locked
  | due (checked : Int)
  | begun (now : Int)
  | bumped (now : Int)
  | emitted (now : Int) (events : List Name)
  | closing
deriving DecidableEq

/-- Where a replica is.  `todo` are the names that the tick has yet to attempt. -/
inductive Pc
  | idle
  | ticking (todo : List Name)
  | firing (name : Name) (st : Stage) (todo : List Name)
deriving DecidableEq

/-- The statements.  `insertRow` and `deleteRow` are those of other clients; a tick may stop
between two fires, and a session may die at any statement. -/
inductive Act
  | scan (now : Int)
  | yield (todo : List Name)
  | unconnected (name : Name) (todo : List Name)
  | tryLock (name : Name) (todo : List Name)
  | recheck (name : Name) (todo : List Name) (now : Int)
  | begin (name : Name) (todo : List Name) (checked now : Int)
  | update (name : Name) (todo : List Name) (now : Int)
  | emit (name : Name) (todo : List Name) (now : Int)
  | commit (name : Name) (todo : List Name) (now : Int) (events : List Name)
  | fail (name : Name) (todo : List Name) (st : Stage)
  | unlock (name : Name) (todo : List Name)
  | die (name : Name) (todo : List Name) (st : Stage)
  | insertRow (name : Name) (intervalSeconds lastFired : Int)
  | deleteRow (name : Name)

def stmt (t : Sess) : Act → Stmt Data Pc
  | .scan now =>
    { before := .idle
      guard := fun d => d.clock ≤ now
      after := fun d =>
        let due := dueSchedules now d.schedules
        .ticking (due.rotate (rotationStart due (d.cursor t)))
      change := fun d => { d with clock := now } }
  | .yield todo =>
    { before := .ticking todo
      after := fun _ => .idle }
  | .unconnected name todo =>
    { before := .ticking (name :: todo)
      after := fun _ => .ticking todo
      change := fun d => { d with cursor := Function.update d.cursor t (some name) } }
  | .tryLock name todo =>
    { before := .ticking (name :: todo)
      after := fun d =>
        if d.locks.Takeable t (lockKey name) then .firing name .locked todo else .ticking todo
      change := fun d =>
        { d with
          cursor := Function.update d.cursor t (some name)
          locks :=
            if d.locks.Takeable t (lockKey name) then d.locks.take t (lockKey name)
            else d.locks } }
  | .recheck name todo now =>
    { before := .firing name .locked todo
      guard := fun d => d.clock ≤ now
      after := fun d =>
        if fireRecheck now (d.schedules.committed name) = some true then
          .firing name (.due now) todo
        else
          .firing name .closing todo
      change := fun d => { d with clock := now } }
  | .begin name todo checked now =>
    { before := .firing name (.due checked) todo
      guard := fun d => d.clock ≤ now
      after := fun _ => .firing name (.begun now) todo
      change := fun d => { d with clock := now } }
  | .update name todo now =>
    { before := .firing name (.begun now) todo
      guard := fun d => d.schedules.pending name = none
      after := fun _ => .firing name (.bumped now) todo
      change := fun d => d.bump t name now }
  | .emit name todo now =>
    { before := .firing name (.bumped now) todo
      after := fun _ => .firing name (.emitted now [name]) todo }
  | .commit name todo now events =>
    { before := .firing name (.emitted now events) todo
      after := fun _ => .firing name .closing todo
      change := fun d =>
        { d with
          schedules := d.schedules.commit t
          log := d.log ++ [⟨name, events, d.written t name⟩] } }
  | .fail name todo st =>
    { before := .firing name st todo
      after := fun _ => .firing name .closing todo
      change := fun d => { d with schedules := d.schedules.rollback t } }
  | .unlock name todo =>
    { before := .firing name .closing todo
      after := fun _ => .ticking todo
      change := fun d => { d with locks := d.locks.release t } }
  | .die name todo st =>
    { before := .firing name st todo
      after := fun _ => .ticking todo
      change := fun d =>
        { d with
          schedules := d.schedules.rollback t
          locks := d.locks.release t } }
  | .insertRow name intervalSeconds lastFired =>
    { before := .idle
      guard := fun d => d.schedules.pending name = none ∧ d.schedules.committed name = none
      after := fun _ => .idle
      change := fun d =>
        { d with
          schedules := d.schedules.put name (some ⟨d.nextRow, intervalSeconds, lastFired⟩)
          nextRow := d.nextRow + 1 } }
  | .deleteRow name =>
    { before := .idle
      guard := fun d => d.schedules.pending name = none
      after := fun _ => .idle
      change := fun d => { d with schedules := d.schedules.put name none } }

def programs : Programs Data Pc Act where
  data := Data.new
  idle := .idle
  stmt := stmt

instance (t : Sess) (a : Act) (d : Data) :
    Decidable ((programs.stmt t a).guard d) := by
  cases a <;> dsimp only [programs, stmt] <;> infer_instance

/-- All interleavings of the replicas and of the other clients. -/
abbrev system : TransitionSystem (World Data Pc) (Sess × Act) := programs.system

end Ticks

end Swarog.Scheduler
