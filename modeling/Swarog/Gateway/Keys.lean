import Swarog.FinMap
import Swarog.Opsapi
import Swarog.Pg.Session

/-!
# The verifier of API keys

A lookup of a key is served from a cache for `keyCacheTtl`.  On a miss it takes the flight
lock of the key, looks again, takes one of the permits and calls the store; the answer is
stamped when the call returns and put into the cache.  A flight lock lives as long as a lookup
owns it: the table of flights only remembers it.

A call of the store reads it at some moment and answers later.  Times are nanoseconds and are
read from a clock that does not go back.
-/

namespace Swarog.Gateway.Keys

open Pg (Sess Stmt Programs World)

section Constants

def maxKeyBytes : Nat := 256

def keyCacheTtl : Int := 5000000000

def keyCacheMaxEntries : Nat := 10000

def keyLookupMaxInFlight : Nat := 64

end Constants

section Data

structure KeyRecord where
  name : String
  policy : String
deriving DecidableEq

/-- The verifier cannot answer. -/
structure LookupUnavailable where
deriving DecidableEq

abbrev Verdict := Except LookupUnavailable (Option KeyRecord)

structure CacheEntry where
  record : Option KeyRecord
  insertedAt : Int
  sequence : Nat
deriving DecidableEq

/-- The age of an entry, which is never negative. -/
def CacheEntry.elapsed (now : Int) (entry : CacheEntry) : Int := max 0 (now - entry.insertedAt)

/-- The order of `(inserted_at, sequence)`. -/
def CacheEntry.before (e e' : CacheEntry) : Bool :=
  decide (e.insertedAt < e'.insertedAt) ||
    (decide (e.insertedAt = e'.insertedAt) && decide (e.sequence ≤ e'.sequence))

/-- A mutex of the table of flights. -/
abbrev LockId := Nat

/-- A lookup that was answered. -/
structure Answer where
  key : String
  start : Int
  verdict : Verdict
deriving DecidableEq

/-- The state of the verifier, the store behind it and the clock.  `arcs` are the flight locks
that lookups own, `held` those that are locked, `permits` the lookups that have one. -/
structure Data where
  entries : FinMap String CacheEntry
  cacheSequence : Nat
  locks : FinMap String (LockId × Nat)
  flightSequence : Nat
  misses : Nat
  nextLock : LockId
  arcs : List (Sess × LockId)
  held : LockId → Option Sess
  permits : List Sess
  store : String → Option KeyRecord
  clock : Int
  answers : List Answer

namespace Data

def new : Data where
  entries := FinMap.empty
  cacheSequence := 0
  locks := FinMap.empty
  flightSequence := 0
  misses := 0
  nextLock := 0
  arcs := []
  held := fun _ => none
  permits := []
  store := fun _ => none
  clock := 0
  answers := []

/-- The entry of a key that is younger than the time to live. -/
def cached (key : String) (now : Int) (d : Data) : Option (Option KeyRecord) :=
  (d.entries.get key).bind (fun entry =>
    if entry.elapsed now < keyCacheTtl then some entry.record else none)

/-- The key of the oldest entry. -/
def oldest : List (String × CacheEntry) → Option String
  | [] => none
  | e :: rest => some (rest.foldl (fun least e' => if least.2.before e'.2 then least else e') e).1

/-- Purge the expired entries, evict the oldest one if there is no room, and insert. -/
def insert (key : String) (record : Option KeyRecord) (now : Int) (d : Data) : Data :=
  let fresh := d.entries.retain (fun _ entry => decide (entry.elapsed now < keyCacheTtl))
  let roomy :=
    if keyCacheMaxEntries ≤ fresh.size ∧ fresh.get key = none then
      (oldest fresh.entries).elim fresh fresh.remove
    else fresh
  let sequence := (d.cacheSequence + 1) % 2 ^ 64
  { d with
    entries := roomy.set key ⟨record, now, sequence⟩
    cacheSequence := sequence }

/-- `strong_count() != 0`. -/
def alive (d : Data) (l : LockId) : Bool := d.arcs.any (fun a => decide (a.2 = l))

def retainAlive (d : Data) : FinMap String (LockId × Nat) := d.locks.retain (fun _ v => d.alive v.1)

/-- A new flight lock for the lookup `t`. -/
def newFlight (t : Sess) (key : String) (d : Data) : Data :=
  let sequence := (d.flightSequence + 1) % 2 ^ 64
  { d with
    locks := d.locks.set key (d.nextLock, sequence)
    flightSequence := sequence
    nextLock := d.nextLock + 1
    arcs := (t, d.nextLock) :: d.arcs }

/-- One miss more, and the dead locks dropped now and then. -/
def countMiss (d : Data) : Data :=
  let misses := (d.misses + 1) % 2 ^ 64
  { d with
    misses := misses
    locks := if misses % 256 = 0 then d.retainAlive else d.locks }

/-- The flight lock of a key that somebody owns. -/
def upgrade (key : String) (d : Data) : Option LockId :=
  (d.locks.get key).bind (fun v => if d.alive v.1 then some v.1 else none)

/-- Drop the dead lock of the key, and all dead locks if the table is full. -/
def makeRoom (key : String) (d : Data) : Data :=
  let d := { d with locks := d.locks.remove key }
  if keyCacheMaxEntries ≤ d.locks.size then { d with locks := d.retainAlive } else d

/-- The flight lock of a key, unless the table is full of live ones. -/
def flight (t : Sess) (key : String) (d : Data) : Option LockId × Data :=
  let d := d.countMiss
  match d.upgrade key with
  | some l => (some l, { d with arcs := (t, l) :: d.arcs })
  | none =>
    let d := d.makeRoom key
    if keyCacheMaxEntries ≤ d.locks.size then (none, d) else (some d.nextLock, d.newFlight t key)

/-- A lookup ends: its guard, its permit and its flight lock are dropped. -/
def release (t : Sess) (d : Data) : Data :=
  { d with
    arcs := d.arcs.filter (fun a => decide (a.1 ≠ t))
    held := fun l => if d.held l = some t then none else d.held l
    permits := d.permits.filter (fun u => decide (u ≠ t)) }

def answer (key : String) (start : Int) (verdict : Verdict) (d : Data) : Data :=
  { d with answers := d.answers ++ [⟨key, start, verdict⟩] }

def setClock (now : Int) (d : Data) : Data := { d with clock := now }

end Data

end Data

section Lookups

/-- Where a lookup is.  `calling` is in the store, `read` has read it. -/
inductive Pc
  | idle
  | started (key : String) (start : Int)
  | missed (key : String) (start : Int)
  | waiting (key : String) (start : Int) (l : LockId)
  | locked (key : String) (start : Int) (l : LockId)
  | rechecked (key : String) (start : Int) (l : LockId)
  | calling (key : String) (start : Int) (l : LockId)
  | read (key : String) (start : Int) (l : LockId) (verdict : Verdict)
  | stamped (key : String) (start : Int) (l : LockId) (record : Option KeyRecord) (now : Int)
deriving DecidableEq

/-- The points at which a lookup waits, and may be dropped. -/
def Pc.awaits : Pc → Bool
  | .waiting _ _ _ => true
  | .calling _ _ _ => true
  | .read _ _ _ _ => true
  | _ => false

inductive Act
  | refuse (key : String) (now : Int)
  | start (key : String) (now : Int)
  | lookCache (key : String) (start now : Int)
  | flight (key : String) (start : Int)
  | lock (key : String) (start : Int) (l : LockId)
  | recheck (key : String) (start : Int) (l : LockId) (now : Int)
  | acquire (key : String) (start : Int) (l : LockId)
  | readStore (key : String) (start : Int) (l : LockId)
  | failStore (key : String) (start : Int) (l : LockId)
  | stamp (key : String) (start : Int) (l : LockId) (record : Option KeyRecord) (now : Int)
  | insert (key : String) (start : Int) (l : LockId) (record : Option KeyRecord) (now : Int)
  | unavailable (key : String) (start : Int) (l : LockId) (e : LookupUnavailable)
  | cancel (pc : Pc)
  -- the administration of the store
  | edit (key : String) (record : Option KeyRecord)
deriving DecidableEq

def stmt (t : Sess) : Act → Stmt Data Pc
  | .refuse key now =>
    { before := .idle
      guard := fun d => d.clock ≤ now ∧ maxKeyBytes < key.utf8ByteSize
      after := fun _ => .idle
      change := fun d => (d.setClock now).answer key now (.ok none) }
  | .start key now =>
    { before := .idle
      guard := fun d => d.clock ≤ now ∧ key.utf8ByteSize ≤ maxKeyBytes
      after := fun _ => .started key now
      change := fun d => d.setClock now }
  | .lookCache key start now =>
    { before := .started key start
      guard := fun d => d.clock ≤ now
      after := fun d => if (d.cached key now).isSome then .idle else .missed key start
      change := fun d =>
        match d.cached key now with
        | some record => (d.setClock now).answer key start (.ok record)
        | none => d.setClock now }
  | .flight key start =>
    { before := .missed key start
      after := fun d => (d.flight t key).1.elim .idle (.waiting key start)
      change := fun d =>
        if (d.flight t key).1.isSome then (d.flight t key).2
        else (d.flight t key).2.answer key start (.error ⟨⟩) }
  | .lock key start l =>
    { before := .waiting key start l
      guard := fun d => d.held l = none
      after := fun _ => .locked key start l
      change := fun d => { d with held := Function.update d.held l (some t) } }
  | .recheck key start l now =>
    { before := .locked key start l
      guard := fun d => d.clock ≤ now
      after := fun d => if (d.cached key now).isSome then .idle else .rechecked key start l
      change := fun d =>
        match d.cached key now with
        | some record => ((d.setClock now).answer key start (.ok record)).release t
        | none => d.setClock now }
  | .acquire key start l =>
    { before := .rechecked key start l
      after := fun d =>
        if d.permits.length < keyLookupMaxInFlight then .calling key start l else .idle
      change := fun d =>
        if d.permits.length < keyLookupMaxInFlight then { d with permits := t :: d.permits }
        else (d.answer key start (.error ⟨⟩)).release t }
  | .readStore key start l =>
    { before := .calling key start l
      after := fun d => .read key start l (.ok (d.store key)) }
  | .failStore key start l =>
    { before := .calling key start l
      after := fun _ => .read key start l (.error ⟨⟩) }
  | .stamp key start l record now =>
    { before := .read key start l (.ok record)
      guard := fun d => d.clock ≤ now
      after := fun _ => .stamped key start l record now
      change := fun d => d.setClock now }
  | .insert key start l record now =>
    { before := .stamped key start l record now
      after := fun _ => .idle
      change := fun d => ((d.insert key record now).answer key start (.ok record)).release t }
  | .unavailable key start l e =>
    { before := .read key start l (.error e)
      after := fun _ => .idle
      change := fun d => (d.answer key start (.error e)).release t }
  | .cancel pc =>
    { before := pc
      guard := fun _ => pc.awaits = true
      after := fun _ => .idle
      change := fun d => d.release t }
  | .edit key record =>
    { before := .idle
      after := fun _ => .idle
      change := fun d => { d with store := Function.update d.store key record } }

def programs : Programs Data Pc Act where
  data := Data.new
  idle := .idle
  stmt := stmt

instance (t : Sess) (a : Act) (d : Data) :
    Decidable ((programs.stmt t a).guard d) := by
  cases a <;> dsimp only [programs, stmt] <;> infer_instance

/-- All interleavings of lookups with changes of the store. -/
abbrev system : TransitionSystem (World Data Pc) (Sess × Act) := programs.system

end Lookups

end Swarog.Gateway.Keys
