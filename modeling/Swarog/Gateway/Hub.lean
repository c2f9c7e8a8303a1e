import Swarog.FinMap
import Swarog.Net.Ip
import Swarog.Pg.Session

/-!
# The push hub of a front

The registry of the push connections of one front, under one lock, and the queue of each
connection, under a lock of its own.  A connection task takes a slot, binds a player to it
and releases the slot in the end; `bind` and the release decide under the registry lock
whether a player comes online or goes offline, and announce it afterwards.

The critical sections are the steps of `system`; between them the tasks interleave
freely.
-/

namespace Swarog.Gateway

/-- An id of a connection.  A connection is run by a task of its own. -/
abbrev ConnId := Pg.Sess

section Limits

/-- The limits that a hub is built with.  A cap of zero is refused when they are read. -/
structure PushLimits where
  maxConnections : Nat
  maxPerIp : Nat
  maxPerPlayer : Nat
  presence : Bool
  connections_pos : 0 < maxConnections
  perIp_pos : 0 < maxPerIp
  perPlayer_pos : 0 < maxPerPlayer

end Limits

section Queues

/-- Why a queue was closed from outside of its connection task. -/
inductive CloseCode
  | replaced
  | shutdown
deriving DecidableEq

/-- The payload of a `push.presence` frame. -/
structure Presence (Player : Type) where
  player : Player
  online : Bool
deriving DecidableEq

variable {Player : Type}

/-- The queue of a connection: the reason it was closed for, and the presence frames that
were enqueued so far, the oldest first. -/
structure ConnQueue (Player : Type) where
  close : Option CloseCode
  events : List (Presence Player)

namespace ConnQueue

def new : ConnQueue Player := ⟨none, []⟩

/-- A queue that is closed takes no frame. -/
def push (f : Presence Player) (q : ConnQueue Player) : ConnQueue Player :=
  if q.close.isSome then q else { q with events := q.events ++ [f] }

/-- The first reason stays. -/
def closeWith (code : CloseCode) (q : ConnQueue Player) : ConnQueue Player :=
  if q.close.isSome then q else { q with close := some code }

end ConnQueue

end Queues

section Registry

/-- The registry: the connections that hold a slot, each with the player it was bound to,
and the connections of each player in the order of their binds. -/
structure HubState (Player : Type) where
  closing : Bool
  conns : FinMap ConnId (Option Player)
  byPlayer : FinMap Player (List ConnId)
  perIp : FinMap Net.IpAddr Nat

/-- Why no slot was given. -/
inductive AcceptError
  | closing
  | full
  | ipFull
deriving DecidableEq

/-- What a bind has observed. -/
structure Bound where
  first : Bool
  evicted : Option ConnId

namespace HubState

variable {Player : Type} [DecidableEq Player]

def new : HubState Player := ⟨false, FinMap.empty, FinMap.empty, FinMap.empty⟩

/-- The connections of a player. -/
def ids (s : HubState Player) (player : Player) : List ConnId := (s.byPlayer.get player).getD []

def accept (limits : PushLimits) (id : ConnId) (ip : Net.IpAddr) (s : HubState Player) :
    Except AcceptError (HubState Player) :=
  let taken := (s.perIp.get ip).getD 0
  if s.closing then
    .error .closing
  else if s.conns.size ≥ limits.maxConnections then
    .error .full
  else if taken ≥ limits.maxPerIp then
    .error .ipFull
  else
    .ok { s with
      perIp := s.perIp.set ip (taken + 1)
      conns := s.conns.set id none }

def bind (limits : PushLimits) (id : ConnId) (player : Player) (s : HubState Player) :
    Option (Bound × HubState Player) :=
  match s.conns.get id with
  | none => none
  | some _ =>
    let conns := s.conns.set id (some player)
    let ids := s.ids player ++ [id]
    let overCap := decide (ids.length > limits.maxPerPlayer)
    let evicted := if overCap then ids.head?.filter (fun id => (conns.get id).isSome) else none
    some (⟨decide (ids.length = 1), evicted⟩,
      { s with
        conns := conns
        byPlayer := s.byPlayer.set player (if overCap then ids.tail else ids) })

/-- The address gives a slot back. -/
def releaseIp (ip : Net.IpAddr) (s : HubState Player) : FinMap Net.IpAddr Nat :=
  match s.perIp.get ip with
  | none => s.perIp
  | some taken => if taken - 1 = 0 then s.perIp.remove ip else s.perIp.set ip (taken - 1)

/-- The slot is dropped.  The player is returned whose last connection it was. -/
def release (id : ConnId) (ip : Net.IpAddr) (s : HubState Player) :
    Option Player × HubState Player :=
  let perIp := s.releaseIp ip
  let conns := s.conns.remove id
  match s.conns.get id with
  | none => (none, { s with perIp := perIp })
  | some none => (none, { s with perIp := perIp, conns := conns })
  | some (some player) =>
    match s.byPlayer.get player with
    | none => (none, { s with perIp := perIp, conns := conns })
    | some ids =>
      let left := ids.filter (fun other => decide (other ≠ id))
      if left = [] then
        (some player,
          { s with
            perIp := perIp
            conns := conns
            byPlayer := s.byPlayer.remove player })
      else
        (none,
          { s with
            perIp := perIp
            conns := conns
            byPlayer := s.byPlayer.set player left })

/-- The connections that a frame for everyone is addressed to: those that are bound. -/
def resolveAll (s : HubState Player) : List ConnId :=
  (s.conns.entries.filter (fun e => e.2.isSome)).map Prod.fst

end HubState

end Registry

section Tasks

/-- The registry, the queues, and the ids that were minted so far.  A queue is shared, and
outlives the entry of its connection. -/
structure Hub (Player : Type) where
  state : HubState Player
  queues : ConnId → ConnQueue Player
  minted : List ConnId

/-- How far an announcement has come: it was called, it has found the front open, or it has
resolved the connections and has not yet reached some of them. -/
inductive Emission
  | called
  | opened
  | queued (todo : List ConnId)
deriving DecidableEq

/-- Where the task of a connection is.  An announcement of the release has no slot to go
on with. -/
inductive Pc (Player : Type)
  | idle
  | accepted (ip : Net.IpAddr)
  | bound (ip : Net.IpAddr) (player : Player) (first : Bool) (evicted : Option ConnId)
  | announcing (f : Presence Player) (e : Emission) (slot : Option Net.IpAddr)
  | serving (ip : Net.IpAddr)
  | gone
deriving DecidableEq

/-- What the task goes on with after an announcement. -/
def Pc.resume {Player : Type} : Option Net.IpAddr → Pc Player
  | some ip => .serving ip
  | none => .gone

/-- What a released slot has left to do. -/
def Pc.departing {Player : Type} : Option Player → Pc Player
  | some player => .announcing ⟨player, false⟩ .called none
  | none => .gone

/-- The steps of a task.  `shutdown` is a step of the process that stops the front. -/
inductive Act (Player : Type)
  | accept (ip : Net.IpAddr)
  | bind (ip : Net.IpAddr) (player : Player)
  | replace (ip : Net.IpAddr) (player : Player) (first : Bool) (evicted : Option ConnId)
  | announce (f : Presence Player) (slot : Option Net.IpAddr)
  | resolve (f : Presence Player) (slot : Option Net.IpAddr)
  | push (f : Presence Player) (todo : List ConnId) (slot : Option Net.IpAddr) (o : ConnId)
  | delivered (f : Presence Player) (slot : Option Net.IpAddr)
  | release (ip : Net.IpAddr) (served : Bool)
  | shutdown

variable {Player : Type} [DecidableEq Player]

namespace Hub

def new : Hub Player := ⟨HubState.new, fun _ => ConnQueue.new, []⟩

/-- Change one queue. -/
def onQueue (o : ConnId) (f : ConnQueue Player → ConnQueue Player) (d : Hub Player) :
    Hub Player :=
  { d with queues := Function.update d.queues o (f (d.queues o)) }

/-- Close the queue of the connection that was replaced. -/
def closeEvicted (evicted : Option ConnId) (d : Hub Player) : Hub Player :=
  match evicted with
  | none => d
  | some o => d.onQueue o (ConnQueue.closeWith .replaced)

/-- No connection is accepted from now on, and every one that holds a slot is closed. -/
def shutdown (d : Hub Player) : Hub Player where
  state := { d.state with closing := true }
  queues o := if (d.state.conns.get o).isSome then (d.queues o).closeWith .shutdown else d.queues o
  minted := d.minted

end Hub

def stmt (limits : PushLimits) (t : ConnId) : Act Player → Pg.Stmt (Hub Player) (Pc Player)
  | .accept ip =>
    { before := .idle
      after := fun d =>
        match d.state.accept limits t ip with
        | .ok _ => .accepted ip
        | .error _ => .idle
      change := fun d =>
        match d.state.accept limits t ip with
        | .ok s => { d with state := s, minted := t :: d.minted }
        | .error _ => d }
  | .bind ip player =>
    { before := .accepted ip
      after := fun d =>
        match d.state.bind limits t player with
        | some (b, _) => .bound ip player b.first b.evicted
        | none => .bound ip player false none
      change := fun d =>
        match d.state.bind limits t player with
        | some (_, s) => { d with state := s }
        | none => d }
  | .replace ip player first evicted =>
    { before := .bound ip player first evicted
      after := fun _ => if first then .announcing ⟨player, true⟩ .called (some ip) else .serving ip
      change := fun d => d.closeEvicted evicted }
  | .announce f slot =>
    { before := .announcing f .called slot
      after := fun d =>
        if !limits.presence || d.state.closing then Pc.resume slot
        else .announcing f .opened slot }
  | .resolve f slot =>
    { before := .announcing f .opened slot
      after := fun d => .announcing f (.queued d.state.resolveAll) slot }
  | .push f todo slot o =>
    { before := .announcing f (.queued todo) slot
      guard := fun _ => o ∈ todo
      after := fun _ => .announcing f (.queued (todo.filter (fun o' => decide (o' ≠ o)))) slot
      change := fun d => d.onQueue o (ConnQueue.push f) }
  | .delivered f slot =>
    { before := .announcing f (.queued []) slot
      after := fun _ => Pc.resume slot }
  | .release ip served =>
    { before := if served then .serving ip else .accepted ip
      after := fun d => Pc.departing (d.state.release t ip).1
      change := fun d => { d with state := (d.state.release t ip).2 } }
  | .shutdown =>
    { before := .idle
      after := fun _ => .idle
      change := Hub.shutdown }

def programs (Player : Type) [DecidableEq Player] (limits : PushLimits) :
    Pg.Programs (Hub Player) (Pc Player) (Act Player) where
  data := Hub.new
  idle := .idle
  stmt := stmt limits

instance (limits : PushLimits) (t : ConnId) (a : Act Player) (d : Hub Player) :
    Decidable (((programs Player limits).stmt t a).guard d) := by
  cases a <;> dsimp only [programs, stmt] <;> infer_instance

/-- All interleavings of the tasks of a front. -/
abbrev system (Player : Type) [DecidableEq Player] (limits : PushLimits) :
    TransitionSystem (Pg.World (Hub Player) (Pc Player)) (ConnId × Act Player) :=
  (programs Player limits).system

end Tasks

end Swarog.Gateway
