import Swarog.Edge.Wire
import Swarog.Pg.Session

/-!
# The pool of connections to a provider

A pool holds one reconnecting caller for each instance of a provider.  A caller caches one
connection behind a mutex that is held while it dials; a connection that a call saw fail
fatally is dropped from the cache, unless somebody has replaced it, and the call is replayed
once if it may be.  The pool selects an instance round-robin, and a call that may be replayed
fails over to another address once.

The steps of calls are separated where a call waits or takes a lock.  The answers of the
resolver, of dials and of wire calls and the verdicts of the probes are arbitrary.  `wire` is
the record of what each call has put on the wire.
-/

namespace Swarog.Remote

open Edge (EdgeError)
open Pg (Sess Stmt Programs World)

section Failures

inductive Provenance
  | connectionFatal
  | streamLocal
  | peerAnswer
deriving DecidableEq

structure CallFailure where
  mapped : Error
  provenance : Provenance
deriving DecidableEq

def mapEdgeCallFailure (failure : EdgeError) : CallFailure where
  mapped := failure.toError
  provenance :=
    match failure with
    | .connection _ => .connectionFatal
    | .remote _ => .peerAnswer
    | .unknownMethod _ => .peerAnswer
    | .invalidRequest _ => .peerAnswer
    | _ => .streamLocal

end Failures

section Data

abbrev Bytes := List UInt8

/-- An instance: its address, which is fixed, and the number under which it was built. -/
structure InstId where
  addr : String
  serial : Nat
deriving DecidableEq

/-- A connection to an instance. -/
structure ConnId where
  inst : InstId
  serial : Nat
deriving DecidableEq

/-- The cached connection and the holder of its mutex, and the verdict of the probe. -/
structure Inst where
  cur : Option ConnId
  lockedBy : Option Sess
  verdict : Bool
  lastProbeAt : Nat
deriving DecidableEq

def Inst.seed : Inst := ⟨none, none, false, 0⟩

def probeStallMax : Nat := 15

/-- The verdict of a completed probe that is not stale. -/
def Inst.healthy (now : Nat) (i : Inst) : Bool :=
  if i.lastProbeAt ≠ 0 ∧ probeStallMax < now - i.lastProbeAt then false else i.verdict

def Inst.isSelectable (now : Nat) (i : Inst) : Bool := decide (i.lastProbeAt = 0) || i.healthy now

/-- A wire call on a connection, with its outcome once it has one. -/
structure Exec where
  conn : ConnId
  outcome : Option (Except EdgeError Bytes)
deriving DecidableEq

/-- The state of the pool and of all instances that it ever built.  `gone` are those that wait
for their teardown. -/
structure Data where
  insts : InstId → Inst
  nextSerial : Nat
  nextConn : Nat
  current : List InstId
  gone : List InstId
  cursor : Nat
  lastRefresh : Nat
  resolveSeq : Nat
  appliedGen : Nat
  wire : Sess → List Exec

def poolRefreshInterval : Nat := 5

namespace Data

def new : Data where
  insts := fun _ => Inst.seed
  nextSerial := 0
  nextConn := 0
  current := []
  gone := []
  cursor := 0
  lastRefresh := 0
  resolveSeq := 0
  appliedGen := 0
  wire := fun _ => []

def setInst (i : InstId) (v : Inst) (d : Data) : Data :=
  { d with insts := Function.update d.insts i v }

/-- `get` finds no connection and keeps the mutex while it dials. -/
def lock (t : Sess) (i : InstId) (d : Data) : Data :=
  d.setInst i { d.insts i with lockedBy := some t }

def unlock (i : InstId) (d : Data) : Data := d.setInst i { d.insts i with lockedBy := none }

/-- A dial has succeeded. -/
def connect (i : InstId) (d : Data) : Data :=
  { d.setInst i { d.insts i with cur := some ⟨i, d.nextConn⟩, lockedBy := none } with
    nextConn := d.nextConn + 1 }

/-- Drop the cached connection if it is the one that failed. -/
def reset (i : InstId) (failed : ConnId) (d : Data) : Data :=
  if (d.insts i).cur = some failed then d.setInst i { d.insts i with cur := none } else d

/-- Drop the cached connection. -/
def close (i : InstId) (d : Data) : Data := d.setInst i { d.insts i with cur := none }

def stamp (i : InstId) (verdict : Bool) (now : Nat) (d : Data) : Data :=
  d.setInst i { d.insts i with verdict := verdict, lastProbeAt := max now 1 }

/-- A call that is dropped gives its mutex back. -/
def release (t : Sess) (d : Data) : Data :=
  { d with insts := fun i =>
      if (d.insts i).lockedBy = some t then { d.insts i with lockedBy := none } else d.insts i }

def send (t : Sess) (c : ConnId) (d : Data) : Data :=
  { d with wire := Function.update d.wire t (d.wire t ++ [⟨c, none⟩]) }

def answer (t : Sess) (c : ConnId) (outcome : Except EdgeError Bytes) (d : Data) : Data :=
  { d with wire := Function.update d.wire t ((d.wire t).dropLast ++ [⟨c, some outcome⟩]) }

/-- A new instance. -/
def build (addr : String) (d : Data) : Data :=
  { d.setInst ⟨addr, d.nextSerial⟩ Inst.seed with nextSerial := d.nextSerial + 1 }

/-- The instances of the wanted addresses: those that are kept, and new ones. -/
def rebuild : List String → List InstId → Data → List InstId × Data
  | [], _, d => ([], d)
  | addr :: wanted, kept, d =>
    match kept.find? (fun i => decide (i.addr = addr)) with
    | some i =>
      let rest := rebuild wanted (kept.erase i) d
      (i :: rest.1, rest.2)
    | none =>
      let rest := rebuild wanted kept (d.build addr)
      (⟨addr, d.nextSerial⟩ :: rest.1, rest.2)

def reconcile (addrs : List String) (d : Data) : Data :=
  let wanted := addrs.eraseDups
  let kept := d.current.filter (fun i => decide (i.addr ∈ wanted))
  let removed := d.current.filter (fun i => decide (i.addr ∉ wanted))
  let rebuilt := rebuild wanted kept d
  { rebuilt.2 with current := rebuilt.1, gone := d.gone ++ removed }

/-- The answer of the resolver, unless a newer one was applied. -/
def apply (gen : Nat) (addrs : List String) (d : Data) : Data :=
  if gen ≤ d.appliedGen then d else { d with appliedGen := gen }.reconcile addrs

/-- The slots from the cursor on, once around. -/
def slots (d : Data) : List InstId :=
  let start := d.cursor % d.current.length
  d.current.drop start ++ d.current.take start

def selectExcluding (now : Nat) (exclude : Option String) (d : Data) : Option InstId :=
  d.slots.find? (fun i => decide (exclude ≠ some i.addr) && (d.insts i).isSelectable now)

/-- The cursor moves unless there is no instance. -/
def advance (d : Data) : Data :=
  if d.current = [] then d else { d with cursor := (d.cursor + 1) % 2 ^ 64 }

def stop (d : Data) : Data := { d with current := [], gone := d.gone ++ d.current }

end Data

end Data

section Calls

/-- What a call is doing on an instance: `first` is the address that it fails over from. -/
structure At where
  mode : RetryMode
  now : Nat
  first : Option String
  inst : InstId
  replay : Bool
deriving DecidableEq

/-- Where a call is.  The points up to `resolving` belong to the refresh, which also runs
without a call. -/
inductive Pc
  | idle
  | started (mode : RetryMode)
  | loaded (call : Option RetryMode) (last now : Nat)
  | claimed (call : Option RetryMode)
  | resolving (call : Option RetryMode) (gen : Nat)
  | selecting (mode : RetryMode)
  | getting (k : At)
  | dialing (k : At)
  | handed (k : At) (c : ConnId)
  | calling (k : At) (c : ConnId)
  | resetting (k : At) (c : ConnId) (err : Error)
  | failover (mode : RetryMode) (now : Nat) (first : String) (err : Error)
  | returned (mode : RetryMode) (result : Except Error Bytes)
  | dropped (mode : RetryMode)
deriving DecidableEq

/-- The call at a point. -/
def Pc.mode? : Pc → Option RetryMode
  | .idle => none
  | .started mode => some mode
  | .loaded call _ _ => call
  | .claimed call => call
  | .resolving call _ => call
  | .selecting mode => some mode
  | .getting k => some k.mode
  | .dialing k => some k.mode
  | .handed k _ => some k.mode
  | .calling k _ => some k.mode
  | .resetting k _ _ => some k.mode
  | .failover mode _ _ _ => some mode
  | .returned mode _ => some mode
  | .dropped mode => some mode

/-- The points at which a call waits, and may be dropped. -/
def Pc.awaits : Pc → Bool
  | .resolving _ _ => true
  | .getting _ => true
  | .dialing _ => true
  | .calling _ _ => true
  | .resetting _ _ _ => true
  | _ => false

/-- What follows a refresh. -/
def resume : Option RetryMode → Pc
  | none => .idle
  | some mode => .selecting mode

/-- What the pool does with the result of an instance: a mutation, a definitive answer and the
result of the second instance are returned as they are. -/
def At.finish (k : At) : Except Error Bytes → Pc
  | .ok v => .returned k.mode (.ok v)
  | .error err =>
    if k.first.isSome ∨ k.mode ≠ .onceAfterReconnect ∨ err.status.isDefinitiveAnswer then
      .returned k.mode (.error err)
    else .failover k.mode k.now k.inst.addr err

/-- What follows the outcome of a wire call. -/
def At.settle (k : At) (c : ConnId) : Except EdgeError Bytes → Pc
  | .ok v => k.finish (.ok v)
  | .error failure =>
    if (mapEdgeCallFailure failure).provenance = .connectionFatal then
      .resetting k c (mapEdgeCallFailure failure).mapped
    else k.finish (.error (mapEdgeCallFailure failure).mapped)

def noReachableInstance : Error :=
  .unavailable "remote pool: no reachable instance (all resolved instances down, or none resolved yet)"

inductive Act
  | start (mode : RetryMode)
  | load (mode : RetryMode) (now : Nat)
  | poke (now : Nat)
  | claim (call : Option RetryMode) (last now : Nat)
  | number (call : Option RetryMode)
  | resolved (call : Option RetryMode) (gen : Nat) (addrs : List String)
  | unresolved (call : Option RetryMode) (gen : Nat)
  | select (mode : RetryMode) (now : Nat)
  | get (k : At)
  | dial (k : At)
  | dialFail (k : At) (err : Error)
  | send (k : At) (c : ConnId)
  | answer (k : At) (c : ConnId) (outcome : Except EdgeError Bytes)
  | reset (k : At) (c : ConnId) (err : Error)
  | failover (mode : RetryMode) (now : Nat) (first : String) (err : Error)
  | cancel (pc : Pc)
  -- the probes, the detached teardown and the stop of the pool
  | probe (i : InstId) (verdict : Bool) (now : Nat)
  | teardown (i : InstId)
  | stop
deriving DecidableEq

/-- The list is resolved again once the last time is long enough ago. -/
def Data.throttled (now : Nat) (d : Data) : Bool :=
  decide (d.lastRefresh ≠ 0 ∧ now - d.lastRefresh < poolRefreshInterval)

def stmt (t : Sess) : Act → Stmt Data Pc
  | .start mode =>
    { before := .idle
      after := fun _ => .started mode }
  | .load mode now =>
    { before := .started mode
      after := fun d =>
        if d.throttled now then .selecting mode else .loaded (some mode) d.lastRefresh now }
  | .poke now =>
    { before := .idle
      after := fun d => if d.throttled now then .idle else .loaded none d.lastRefresh now }
  | .claim call last now =>
    { before := .loaded call last now
      after := fun d => if d.lastRefresh = last then .claimed call else resume call
      change := fun d => if d.lastRefresh = last then { d with lastRefresh := max now 1 } else d }
  | .number call =>
    { before := .claimed call
      after := fun d => .resolving call (d.resolveSeq + 1)
      change := fun d => { d with resolveSeq := d.resolveSeq + 1 } }
  | .resolved call gen addrs =>
    { before := .resolving call gen
      after := fun _ => resume call
      change := fun d => d.apply gen addrs }
  | .unresolved call gen =>
    { before := .resolving call gen
      after := fun _ => resume call }
  | .select mode now =>
    { before := .selecting mode
      after := fun d =>
        (d.selectExcluding now none).elim (.returned mode (.error noReachableInstance))
          (fun i => .getting ⟨mode, now, none, i, false⟩)
      change := Data.advance }
  | .get k =>
    { before := .getting k
      guard := fun d => (d.insts k.inst).lockedBy = none
      after := fun d => (d.insts k.inst).cur.elim (.dialing k) (.handed k)
      change := fun d => if (d.insts k.inst).cur = none then d.lock t k.inst else d }
  | .dial k =>
    { before := .dialing k
      after := fun d => .handed k ⟨k.inst, d.nextConn⟩
      change := fun d => d.connect k.inst }
  | .dialFail k err =>
    { before := .dialing k
      after := fun _ => k.finish (.error err)
      change := fun d => d.unlock k.inst }
  | .send k c =>
    { before := .handed k c
      after := fun _ => .calling k c
      change := fun d => d.send t c }
  | .answer k c outcome =>
    { before := .calling k c
      after := fun _ => k.settle c outcome
      change := fun d => d.answer t c outcome }
  | .reset k c err =>
    { before := .resetting k c err
      guard := fun d => (d.insts k.inst).lockedBy = none
      after := fun _ =>
        if k.replay ∨ k.mode = .never then k.finish (.error err)
        else .getting { k with replay := true }
      change := fun d => d.reset k.inst c }
  | .failover mode now first err =>
    { before := .failover mode now first err
      after := fun d =>
        (d.selectExcluding now (some first)).elim (.returned mode (.error err))
          (fun i => .getting ⟨mode, now, some first, i, false⟩)
      change := Data.advance }
  | .cancel pc =>
    { before := pc
      guard := fun _ => pc.awaits = true
      after := fun _ => pc.mode?.elim .idle .dropped
      change := fun d => d.release t }
  | .probe i verdict now =>
    { before := .idle
      after := fun _ => .idle
      change := fun d => d.stamp i verdict now }
  | .teardown i =>
    { before := .idle
      guard := fun d => i ∈ d.gone ∧ (d.insts i).lockedBy = none
      after := fun _ => .idle
      change := fun d => { d.close i with gone := d.gone.erase i } }
  | .stop =>
    { before := .idle
      after := fun _ => .idle
      change := Data.stop }

def programs : Programs Data Pc Act where
  data := Data.new
  idle := .idle
  stmt := stmt

instance (t : Sess) (a : Act) (d : Data) :
    Decidable ((programs.stmt t a).guard d) := by
  cases a <;> dsimp only [programs, stmt] <;> infer_instance

/-- All interleavings of calls, refreshes, probes and teardowns. -/
abbrev system : TransitionSystem (World Data Pc) (Sess × Act) := programs.system

end Calls

end Swarog.Remote
