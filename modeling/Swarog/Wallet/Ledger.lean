import Swarog.Pg.Session
import Swarog.Wallet.Movement

/-!
# The wallet as a transition system

Movements, tombstone plantings and purge sweeps are transactions of Postgres
sessions on the tables of the wallet.  One label is one statement of one
session, or its `COMMIT` or `ROLLBACK`, together with what the statement
observed; its guard says when the statement can run with that outcome.

* A movement is `apply_on` inside `apply` or inside the delivery transaction of
  a starter grant.
* The `UPDATE` of a balance row takes effect when it obtains the row lock.  It
  misses as soon as no committed row exists, without waiting for an uncommitted
  insert.
* The `DELETE` and the `UPDATE` of a sweep work on the rows their statement
  snapshot saw and handle them one by one: a row is locked, waited for if
  necessary, and checked again.

`applied` and `answers` are history: the movements in commit order and what the
calls returned.  Every call gets a number of its own, and remembers how many
movements were recorded when it began.
-/

namespace Swarog.Wallet

open Pg

/-- A row of `wallet.purged_players`; `swept` says whether `swept_at` is set. -/
structure PurgedRow where
  handle : String
  swept : Bool
deriving DecidableEq

/-- The payload of `wallet.changed`. -/
structure Changed where
  playerId : Uuid
  currency : String
  delta : Int
  balanceAfter : Int
  reason : String
  ledgerId : Nat
deriving DecidableEq

/-- A call in progress. -/
structure Job where
  attempt : Nat
  began : Nat
  call : Call
deriving DecidableEq

/-- The ledger row of a job. -/
def Job.row (j : Job) (p : Uuid) (id seq : Nat) (balanceAfter : Int) : LedgerRow where
  seq := seq
  id := id
  player := p
  currency := j.call.currency
  delta := j.call.delta
  balanceAfter := balanceAfter
  reason := j.call.movement.reason

/-- The event of a job. -/
def Job.changed (j : Job) (p : Uuid) (id : Nat) (balanceAfter : Int) : Changed where
  playerId := p
  currency := j.call.currency
  delta := j.call.delta
  balanceAfter := balanceAfter
  reason := j.call.movement.reason
  ledgerId := id

/-- The balance row of a job. -/
def Job.pair (j : Job) (p : Uuid) : Uuid × String := (p, j.call.currency)

/-- Progress of `apply_on` after the tombstone check. -/
inductive Stage
  | checked
  | lost
  | claimed (id : Nat)
  | missed (id : Nat)
  | moved (id : Nat) (balance : Int)
  | stamped (id : Nat) (balance : Int)
  | emitted (id : Nat) (balance : Int)
deriving DecidableEq

/-- Progress of the sweep inside one batch: at the head of its loop, or inside
one of the two statements of `purge_player_tx` with the rows still to do. -/
inductive Phase
  | next
  | deleting (p : Uuid) (todo : List (Uuid × String))
  | reowning (p : Uuid) (todo : List String)
deriving DecidableEq

inductive Pc
  | idle
  | opened (j : Job)
  | moving (j : Job) (p : Uuid) (st : Stage)
  | closing (j : Job) (result : Except Error Int)
  | planting (p : Uuid) (handle : String)
  | planted
  | sweepOpen (watermark : Uuid)
  | sweeping (due rest : List Uuid) (ph : Phase)
  | swept
deriving DecidableEq

/-- The call a session works on and has not decided yet. -/
def Pc.job : Pc → Option Job
  | .opened j => some j
  | .moving j _ _ => some j
  | _ => none

/-- The sessions inside a planting or a sweep. -/
def Pc.IsPurge : Pc → Prop
  | .planting _ _ | .planted | .sweepOpen _ | .sweeping _ _ _ | .swept => True
  | _ => False

instance (pc : Pc) : Decidable pc.IsPurge := by
  cases pc <;> first | exact isTrue trivial | exact isFalse id

/-- A recorded movement: the call that made it, its key and its ledger row. -/
structure Applied where
  attempt : Nat
  key : String
  row : LedgerRow
deriving DecidableEq

/-- The event of a recorded movement. -/
def Applied.changed (a : Applied) : Changed where
  playerId := a.row.player
  currency := a.row.currency
  delta := a.row.delta
  balanceAfter := a.row.balanceAfter
  reason := a.row.reason
  ledgerId := a.row.id

/-- What a call returned; `committing` says whether it had sent `COMMIT`. -/
structure Answer where
  attempt : Nat
  began : Nat
  call : Call
  committing : Bool
  result : Except Error Int
deriving DecidableEq

/-- The answer of a job. -/
def Job.answer (j : Job) (committing : Bool) (result : Except Error Int) : Answer where
  attempt := j.attempt
  began := j.began
  call := j.call
  committing := committing
  result := result

/-- The shared state of the wallet. -/
structure State where
  currencies : List String
  balances : Table (Uuid × String) Sess Int
  ledger : Table String Sess LedgerRow
  purged : Table Uuid Sess PurgedRow
  nextSeq : Nat
  nextId : Nat
  nextAttempt : Nat
  pc : Sess → Pc
  changed : List Changed
  applied : List Applied
  answers : List Answer

/-- The wallet after its schema was created. -/
def State.start : State where
  currencies := []
  balances := Table.empty
  ledger := Table.empty
  purged := Table.empty
  nextSeq := 1
  nextId := 1
  nextAttempt := 0
  pc := fun _ => .idle
  changed := []
  applied := []
  answers := []

/-- Tombstones claimed per selection statement. -/
def purgeBatch : Nat := 256

/-- `balances_amount_check`. -/
def InRange (amount : Int) : Prop := 0 ≤ amount ∧ amount ≤ maxBalance

instance (amount : Int) : Decidable (InRange amount) := inferInstanceAs (Decidable (_ ∧ _))

namespace State

/-- The committed tombstone of a player carries `swept_at`. -/
def Swept (s : State) (p : Uuid) : Prop := (s.purged.committed p).map PurgedRow.swept = some true

instance (s : State) (p : Uuid) : Decidable (s.Swept p) := inferInstanceAs (Decidable (_ = _))

/-- The checks before a transaction is opened, or, for a starter grant, before
the authority is called inside the delivery transaction. -/
def Admits (s : State) (c : Call) : Prop :=
  match c.origin with
  | .starterGrant =>
    c.movement = starterMovement c.movement.playerId c.currency c.movement.amount ∧
      c.currency ≠ "" ∧ 0 < c.movement.amount ∧ c.movement.amount ≤ maxMovementAmount ∧
      isUuidText c.movement.playerId = true ∧ c.currency ∈ s.currencies
  | _ => validateMovement c.movement = .ok ()

instance (s : State) (c : Call) : Decidable (s.Admits c) := by
  unfold Admits
  cases c.origin <;> infer_instance

/-- The verdict with which the next statement of a session ends its call, if it
can run and has one. -/
def rejection (s : State) (t : Sess) : Pc → Option Error
  | .opened j =>
    match validateMovement j.call.movement with
    | .error e => some e
    | .ok () =>
      match j.call.player with
      | none => some malformedPlayerId
      | some p => if s.purged.committed p = none then none else some playerDeleted
  | .moving j _ .lost =>
    match s.ledger.committed j.call.key with
    | none => some ledgerRowDisappeared
    | some row => if sameMovement row j.call then none else some idempotencyConflict
  | .moving j p (.claimed _) =>
    match s.balances.committed (j.pair p) with
    | none => none
    | some amount =>
      if s.balances.Free t (j.pair p) ∧ ¬ InRange (amount + j.call.delta) then
        some outOfRange
      else
        none
  | .moving j p (.missed _) =>
    if j.call.delta < 0 then
      some (if j.call.currency ∈ s.currencies then outOfRange else unknownCurrency)
    else if s.balances.Free t (j.pair p) then
      match s.balances.committed (j.pair p) with
      | none =>
        -- the CHECK sees the tentative row before the foreign key is checked
        if InRange j.call.delta then
          if j.call.currency ∈ s.currencies then none else some unknownCurrency
        else
          some outOfRange
      | some amount =>
        if InRange j.call.delta ∧ InRange (amount + j.call.delta) then none
        else some outOfRange
    else
      none
  | _ => none

/-- The tombstones one selection statement of the sweep claims. -/
def dueBatch (s : State) (t : Sess) (watermark : Uuid) : List Uuid :=
  ((((s.purged.select t (fun p row => !row.swept && decide (watermark.value ≤ p.value))).filter
    (fun p => s.purged.Free t p)).insertionSort (fun p q => p.value ≤ q.value)).take purgeBatch)

/-- The balance rows the `DELETE` of a sweep sees. -/
def balancesOf (s : State) (t : Sess) (p : Uuid) : List (Uuid × String) :=
  s.balances.select t (fun k _ => k.1 == p)

/-- The ledger rows the re-owning `UPDATE` of a sweep sees. -/
def ledgerOf (s : State) (t : Sess) (p : Uuid) : List String :=
  s.ledger.select t (fun _ row => row.player == p)

end State

/-- The steps of the wallet. -/
inductive Act
  | addCurrency (code : String)
  -- a call
  | refuse (call : Call) (e : Error)
  | open (t : Sess) (call : Call)
  | check (t : Sess) (j : Job) (p : Uuid)
  | claim (t : Sess) (j : Job) (p : Uuid)
  | claimLost (t : Sess) (j : Job) (p : Uuid)
  | replay (t : Sess) (j : Job) (p : Uuid) (row : LedgerRow)
  | update (t : Sess) (j : Job) (p : Uuid) (id : Nat) (amount : Int)
  | updateMiss (t : Sess) (j : Job) (p : Uuid) (id : Nat)
  | insert (t : Sess) (j : Job) (p : Uuid) (id : Nat)
  | merge (t : Sess) (j : Job) (p : Uuid) (id : Nat) (amount : Int)
  | stamp (t : Sess) (j : Job) (p : Uuid) (id : Nat) (balance : Int) (row : LedgerRow)
  | emit (t : Sess) (j : Job) (p : Uuid) (id : Nat) (balance : Int)
  | reject (t : Sess) (j : Job) (e : Error)
  | finish (t : Sess) (j : Job) (result : Except Error Int)
  | fail (t : Sess) (j : Job) (message : String)
  | commit (t : Sess) (j : Job) (p : Uuid) (id : Nat) (balance : Int)
  | commitLost (t : Sess) (j : Job) (p : Uuid) (id : Nat) (balance : Int) (message : String)
  -- the planting of a tombstone
  | plantOpen (t : Sess) (p : Uuid) (handle : String)
  | plant (t : Sess) (p : Uuid) (handle : String)
  | plantLost (t : Sess) (p : Uuid) (handle : String)
  | commitPlant (t : Sess)
  -- the sweep
  | sweepOpen (t : Sess)
  | sweepSelect (t : Sess) (watermark : Uuid)
  | deleteStart (t : Sess) (due : List Uuid) (p : Uuid) (rest : List Uuid)
  | deleteRow (t : Sess) (due rest : List Uuid) (p : Uuid) (todo : List (Uuid × String))
      (k : Uuid × String)
  | reownStart (t : Sess) (due rest : List Uuid) (p : Uuid)
  | reownRow (t : Sess) (due rest : List Uuid) (p : Uuid) (todo : List String) (k : String)
  | stampSwept (t : Sess) (due rest : List Uuid) (p : Uuid) (row : PurgedRow)
  | sweepMore (t : Sess) (due : List Uuid) (last : Uuid)
  | sweepEnd (t : Sess) (due : List Uuid)
  | sweepBudget (t : Sess) (due rest : List Uuid)
  | commitSweep (t : Sess)
  | abort (t : Sess)
deriving DecidableEq

/-- The session of a step. -/
def Act.actor : Act → Option Sess
  | .addCurrency _ | .refuse _ _ => none
  | .open t _ | .check t _ _ | .claim t _ _ | .claimLost t _ _ | .replay t _ _ _
  | .update t _ _ _ _ | .updateMiss t _ _ _ | .insert t _ _ _ | .merge t _ _ _ _
  | .stamp t _ _ _ _ _ | .emit t _ _ _ _ | .reject t _ _ | .finish t _ _ | .fail t _ _
  | .commit t _ _ _ _ | .commitLost t _ _ _ _ _ | .plantOpen t _ _ | .plant t _ _
  | .plantLost t _ _ | .commitPlant t | .sweepOpen t | .sweepSelect t _
  | .deleteStart t _ _ _ | .deleteRow t _ _ _ _ _ | .reownStart t _ _ _
  | .reownRow t _ _ _ _ _ | .stampSwept t _ _ _ _ | .sweepMore t _ _ | .sweepEnd t _
  | .sweepBudget t _ _ | .commitSweep t | .abort t => some t

/-- The statements of the sweep. -/
def Act.sweeps : Act → Bool
  | .sweepOpen _ | .sweepSelect _ _ | .deleteStart _ _ _ _ | .deleteRow _ _ _ _ _ _
  | .reownStart _ _ _ _ | .reownRow _ _ _ _ _ _ | .stampSwept _ _ _ _ _ | .sweepMore _ _ _
  | .sweepEnd _ _ | .sweepBudget _ _ _ => true
  | _ => false

namespace State

def enabled (s : State) : Act → Prop
  | .addCurrency code => code.utf8ByteSize ≤ maxCurrencyCodeBytes
  | .refuse call e => call.origin ≠ .starterGrant ∧ validateMovement call.movement = .error e
  | .open t call => s.pc t = .idle ∧ s.Admits call
  | .check t j p =>
    s.pc t = .opened j ∧ validateMovement j.call.movement = .ok () ∧
      j.call.player = some p ∧ s.purged.committed p = none
  | .claim t j p =>
    s.pc t = .moving j p .checked ∧ s.ledger.Free t j.call.key ∧
      s.ledger.committed j.call.key = none
  | .claimLost t j p =>
    s.pc t = .moving j p .checked ∧ s.ledger.Free t j.call.key ∧
      s.ledger.committed j.call.key ≠ none
  | .replay t j p row =>
    s.pc t = .moving j p .lost ∧ s.ledger.committed j.call.key = some row ∧
      sameMovement row j.call = true
  | .update t j p id amount =>
    s.pc t = .moving j p (.claimed id) ∧ s.balances.Free t (j.pair p) ∧
      s.balances.committed (j.pair p) = some amount ∧ InRange (amount + j.call.delta)
  | .updateMiss t j p id =>
    s.pc t = .moving j p (.claimed id) ∧ s.balances.committed (j.pair p) = none
  | .insert t j p id =>
    s.pc t = .moving j p (.missed id) ∧ 0 ≤ j.call.delta ∧
      s.balances.Free t (j.pair p) ∧ s.balances.committed (j.pair p) = none ∧
      InRange j.call.delta ∧ j.call.currency ∈ s.currencies
  | .merge t j p id amount =>
    s.pc t = .moving j p (.missed id) ∧ 0 ≤ j.call.delta ∧
      s.balances.Free t (j.pair p) ∧ s.balances.committed (j.pair p) = some amount ∧
      InRange j.call.delta ∧ InRange (amount + j.call.delta)
  | .stamp t j p id balance row =>
    s.pc t = .moving j p (.moved id balance) ∧ s.ledger.Free t j.call.key ∧
      s.ledger.view t j.call.key = some row ∧ row.id = id
  | .emit t j p id balance => s.pc t = .moving j p (.stamped id balance)
  | .reject t j e => (s.pc t).job = some j ∧ s.rejection t (s.pc t) = some e
  | .finish t j result => s.pc t = .closing j result
  | .fail t j _ => (s.pc t).job = some j
  | .commit t j p id balance => s.pc t = .moving j p (.emitted id balance)
  | .commitLost t j p id balance _ => s.pc t = .moving j p (.emitted id balance)
  -- player ids are version 4 uuids, the nil uuid is none
  | .plantOpen t p _ => s.pc t = .idle ∧ p ≠ Uuid.nil
  | .plant t p handle =>
    s.pc t = .planting p handle ∧ s.purged.Free t p ∧ s.purged.committed p = none
  | .plantLost t p handle =>
    s.pc t = .planting p handle ∧ s.purged.Settled t p ∧ s.purged.committed p ≠ none
  | .commitPlant t => s.pc t = .planted
  | .sweepOpen t => s.pc t = .idle
  | .sweepSelect t watermark => s.pc t = .sweepOpen watermark
  | .deleteStart t due p rest => s.pc t = .sweeping due (p :: rest) .next
  | .deleteRow t due rest p todo k =>
    s.pc t = .sweeping due rest (.deleting p todo) ∧ k ∈ todo ∧ s.balances.Free t k
  | .reownStart t due rest p => s.pc t = .sweeping due rest (.deleting p [])
  | .reownRow t due rest p todo k =>
    s.pc t = .sweeping due rest (.reowning p todo) ∧ k ∈ todo ∧ s.ledger.Free t k
  | .stampSwept t due rest p row =>
    s.pc t = .sweeping due rest (.reowning p []) ∧ s.purged.Free t p ∧ s.purged.view t p = some row
  | .sweepMore t due last =>
    s.pc t = .sweeping due [] .next ∧ purgeBatch ≤ due.length ∧ due.getLast? = some last
  | .sweepEnd t due => s.pc t = .sweeping due [] .next ∧ due.length < purgeBatch
  | .sweepBudget t due rest => s.pc t = .sweeping due rest .next ∧ rest.length < due.length
  | .commitSweep t => s.pc t = .swept
  | .abort t => (s.pc t).IsPurge

instance (s : State) (a : Act) : Decidable (s.enabled a) := by
  cases a <;> unfold enabled <;> infer_instance

/-- The session `t` continues at `pc`. -/
def goto (s : State) (t : Sess) (pc : Pc) : State := { s with pc := Function.update s.pc t pc }

def commitTx (s : State) (t : Sess) : State :=
  { s with
    balances := s.balances.commit t
    ledger := s.ledger.commit t
    purged := s.purged.commit t
    pc := Function.update s.pc t .idle }

def rollbackTx (s : State) (t : Sess) : State :=
  { s with
    balances := s.balances.rollback t
    ledger := s.ledger.rollback t
    purged := s.purged.rollback t
    pc := Function.update s.pc t .idle }

/-- The caller of a job gets its answer. -/
def reply (s : State) (a : Answer) : State := { s with answers := s.answers ++ [a] }

/-- The movement that the open transaction of `t` is about to commit. -/
def entryOf (s : State) (t : Sess) (j : Job) : Option Applied :=
  (s.ledger.view t j.call.key).map (fun row => ⟨j.attempt, j.call.key, row⟩)

/-- `COMMIT` of a movement: the event and the history entry come with it. -/
def commitMovement (s : State) (t : Sess) (j : Job) (p : Uuid) (id : Nat) (balance : Int) :
    State :=
  { s.commitTx t with
    changed := s.changed ++ [j.changed p id balance]
    applied := s.applied ++ (s.entryOf t j).toList }

/-- The balances after the `DELETE` of a sweep reached the row `k`. -/
def deleteBalance (s : State) (t : Sess) (k : Uuid × String) : Table (Uuid × String) Sess Int :=
  if s.balances.view t k = none then s.balances else s.balances.write t k none

/-- The ledger after the re-owning `UPDATE` of a sweep reached the row `k`. -/
def reownEntry (s : State) (t : Sess) (p : Uuid) (k : String) : Table String Sess LedgerRow :=
  match s.ledger.view t k with
  | none => s.ledger
  | some row =>
    if row.player = p then
      s.ledger.write t k (some { row with player := Uuid.nil })
    else
      s.ledger

/-- The effects. -/
def effect (s : State) : Act → State
  | .addCurrency code => { s with currencies := code :: s.currencies }
  | .refuse call e =>
    { s.reply ⟨s.nextAttempt, s.applied.length, call, false, .error e⟩ with
      nextAttempt := s.nextAttempt + 1 }
  | .open t call =>
    { s.goto t (.opened ⟨s.nextAttempt, s.applied.length, call⟩) with
      nextAttempt := s.nextAttempt + 1 }
  | .check t j p => s.goto t (.moving j p .checked)
  | .claim t j p =>
    { s.goto t (.moving j p (.claimed s.nextId)) with
      ledger := s.ledger.write t j.call.key (some (j.row p s.nextId s.nextSeq 0))
      nextSeq := s.nextSeq + 1
      nextId := s.nextId + 1 }
  -- the defaults of the row are drawn before the conflict is found
  | .claimLost t j p =>
    { s.goto t (.moving j p .lost) with
      nextSeq := s.nextSeq + 1
      nextId := s.nextId + 1 }
  | .replay t j _ row => s.goto t (.closing j (.ok row.balanceAfter))
  | .update t j p id amount =>
    { s.goto t (.moving j p (.moved id (amount + j.call.delta))) with
      balances := s.balances.write t (j.pair p) (some (amount + j.call.delta)) }
  | .updateMiss t j p id => s.goto t (.moving j p (.missed id))
  | .insert t j p id =>
    { s.goto t (.moving j p (.moved id j.call.delta)) with
      balances := s.balances.write t (j.pair p) (some j.call.delta) }
  | .merge t j p id amount =>
    { s.goto t (.moving j p (.moved id (amount + j.call.delta))) with
      balances := s.balances.write t (j.pair p) (some (amount + j.call.delta)) }
  | .stamp t j p id balance row =>
    { s.goto t (.moving j p (.stamped id balance)) with
      ledger := s.ledger.write t j.call.key
        (some { row with balanceAfter := balance, seq := s.nextSeq })
      nextSeq := s.nextSeq + 1 }
  | .emit t j p id balance => s.goto t (.moving j p (.emitted id balance))
  | .reject t j e => s.goto t (.closing j (.error e))
  | .finish t j result => (s.rollbackTx t).reply (j.answer false result)
  | .fail t j message => (s.rollbackTx t).reply (j.answer false (.error (.internal message)))
  | .commit t j p id balance =>
    (s.commitMovement t j p id balance).reply (j.answer true (.ok balance))
  | .commitLost t j p id balance message =>
    (s.commitMovement t j p id balance).reply (j.answer true (.error (.internal message)))
  | .plantOpen t p handle => s.goto t (.planting p handle)
  | .plant t p handle =>
    { s.goto t .planted with purged := s.purged.write t p (some ⟨handle, false⟩) }
  | .plantLost t _ _ => s.goto t .planted
  | .commitPlant t => s.commitTx t
  | .sweepOpen t => s.goto t (.sweepOpen Uuid.nil)
  | .sweepSelect t watermark =>
    { s.goto t (.sweeping (s.dueBatch t watermark) (s.dueBatch t watermark) .next) with
      purged := s.purged.lockAll t (s.dueBatch t watermark) }
  | .deleteStart t due p rest => s.goto t (.sweeping due rest (.deleting p (s.balancesOf t p)))
  | .deleteRow t due rest p todo k =>
    { s.goto t (.sweeping due rest (.deleting p (todo.erase k))) with
      balances := s.deleteBalance t k }
  | .reownStart t due rest p => s.goto t (.sweeping due rest (.reowning p (s.ledgerOf t p)))
  | .reownRow t due rest p todo k =>
    { s.goto t (.sweeping due rest (.reowning p (todo.erase k))) with
      ledger := s.reownEntry t p k }
  | .stampSwept t due rest p row =>
    { s.goto t (.sweeping due rest .next) with
      purged := s.purged.write t p (some { row with swept := true }) }
  | .sweepMore t _ last => s.goto t (.sweepOpen last)
  | .sweepEnd t _ => s.goto t .swept
  | .sweepBudget t _ _ => s.goto t .swept
  | .commitSweep t => s.commitTx t
  | .abort t => s.rollbackTx t

end State

/-- The wallet. -/
def system : TransitionSystem State Act where
  start := State.start
  enabled := State.enabled
  effect := State.effect

instance (s : State) (a : Act) : Decidable (system.enabled s a) :=
  inferInstanceAs (Decidable (s.enabled a))

end Swarog.Wallet
