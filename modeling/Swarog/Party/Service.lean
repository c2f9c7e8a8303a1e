import Swarog.Party.Schema
import Swarog.Pg.Advisory

/-!
# The party service

The statements of the operations of players (`create`, `invite`, `accept`, `decline`,
`leave`, `kick`, `promote`, `set_ready`, the lease renewal), of the lease sweep, of the
deletion of expired invites and of the delivery that purges a player, as programs of
database sessions.

* `begin_locked` reads the caller's party, takes its lock and reads it again, in a
  fresh transaction for each attempt.
* Every transaction that removes members, stamps a party or counts its members holds
  the lock of the party.  `create` takes no lock; lease renewals, declines and the
  deletion of expired invites are statements without a lock.
* `settle_removal_tx` is shared by `leave`, `kick`, the sweep and the purge: the next
  leader is chosen among the members that are left, a revision is drawn, the party is
  stamped, or its invites and the party are deleted, and the revision is recorded for
  the removed players.

A transaction collects its changes (`Work`); they become visible with the `COMMIT`.
The calls to the directory and the pushes after the `COMMIT` are left out.
-/

namespace Swarog.Party

open Pg

section Calls

/-- The operations as they arrive.  `found` is the directory's answer for a handle. -/
inductive Input
  | create (me : Uuid)
  | invite (me : Uuid) (targetHandle : String) (found : Option Uuid)
  | accept (me : Uuid) (inviteId : String)
  | decline (me : Uuid) (inviteId : String)
  | leave (me : Uuid)
  | kick (me : Uuid) (playerId : String)
  | promote (me : Uuid) (playerId : String)
  | setReady (me : Uuid) (state : String)
deriving DecidableEq

/-- The transactions: the validated operations of players, the sweep of one party with
the parties that the pass has left, and the purge of a player. -/
inductive Job
  | create (me : Uuid)
  | invite (me target : Uuid)
  | accept (me invite : Uuid)
  | leave (me : Uuid)
  | kick (me target : Uuid)
  | promote (me target : Uuid)
  | ready (me : Uuid) (state : Ready)
  | sweep (rest : List Uuid)
  | purge (p : Uuid)
deriving DecidableEq

/-- The player that a transaction acts for. -/
def Job.me : Job → Uuid
  | .create me | .invite me _ | .accept me _ | .leave me | .kick me _ | .promote me _
  | .ready me _ => me
  | .sweep _ => Uuid.nil
  | .purge p => p

/-- The jobs that begin with `begin_locked`. -/
def Job.seeks : Job → Bool
  | .leave _ | .kick _ _ | .promote _ _ | .ready _ _ => true
  | _ => false

/-- The jobs that end with `settle_removal_tx`. -/
def Job.removes : Job → Bool
  | .leave _ | .kick _ _ | .sweep _ | .purge _ => true
  | _ => false

def Job.sweeps : Job → Bool
  | .sweep _ => true
  | _ => false

/-- The checks in front of the first statement. -/
def Input.check : Input → Except Error Unit
  | .invite _ targetHandle _ =>
    if maxHandleBytes < targetHandle.utf8ByteSize then .error handleTooLong else .ok ()
  | .accept _ inviteId | .decline _ inviteId => do
    let _ ← uuidArg "invite_id" inviteId
  | .kick me playerId => do
    let target ← uuidArg "player_id" playerId
    if target = me then .error (Error.invalid "cannot kick yourself; use leave") else .ok ()
  | .promote me playerId => do
    let target ← uuidArg "player_id" playerId
    if target = me then .error (Error.invalid "cannot promote yourself") else .ok ()
  | .setReady _ state => do
    let _ ← validateState state
  | _ => .ok ()

/-- The transaction of an operation, with its arguments read and its target looked up;
`decline` has none. -/
def Input.job : Input → Except Error (Option Job)
  | .create me => .ok (some (.create me))
  | .invite me _ found =>
    match found with
    | some target =>
      if target = me then
        .error (Error.invalid "cannot invite yourself")
      else
        .ok (some (.invite me target))
    | none => .error noSuchPlayer
  | .accept me inviteId => do
    let invite ← uuidArg "invite_id" inviteId
    pure (some (.accept me invite))
  | .decline _ _ => .ok none
  | .leave me => .ok (some (.leave me))
  | .kick me playerId => do
    let target ← uuidArg "player_id" playerId
    pure (some (.kick me target))
  | .promote me playerId => do
    let target ← uuidArg "player_id" playerId
    pure (some (.promote me target))
  | .setReady me state => do
    let readiness ← validateState state
    pure (some (.ready me readiness))

inductive Reply
  | unit
  | noParty (revision : Nat)
  | invite (id : Uuid) (party : Uuid) (expiresAt : Int)
deriving DecidableEq

inductive Answer
  | rejected (i : Input) (e : Error)
  | declined (me invite : Uuid) (outcome : Except Error Unit)
  | job (j : Job) (outcome : Except Error Reply)
deriving DecidableEq

end Calls

section ProgramPoints

/-- What a transaction has done. -/
structure Work where
  members : List (Patch Uuid MemberRow)
  parties : List (Patch Uuid PartyRow)
  invites : List (Patch (Uuid × Uuid) InviteRow)
  revisions : List (Patch Uuid Nat)
deriving DecidableEq

def Work.none : Work := ⟨[], [], [], []⟩

/-- A transaction on a party: the attempts that are left to its caller, its `now()` and
what it has done. -/
structure Run where
  job : Job
  party : Uuid
  outer : Nat
  inner : Nat
  now : Int
  work : Work
deriving DecidableEq

inductive Stage
  | found
  | locked
  | begun
  | led
  | checked
  | renewed
  | consumed
  | roomy
  | deleting (todo : List Uuid)
  | written
  | chosen (leader : Option Uuid)
  | drawn (leader : Option Uuid) (revision : Nat)
  | clearing (revision : Nat) (todo : List (Uuid × Uuid))
  | placed (revision : Nat) (todo : List Uuid)
  | invited (id : Uuid) (expiresAt : Int)
deriving DecidableEq

/-- The end of the purge of a player: the invites to and from the player, and the
player's revision. -/
inductive Forget
  | listing
  | clearing (todo : List (Uuid × Uuid))
  | done
deriving DecidableEq

/-- Where a session is. -/
inductive Pc
  | idle
  | seek (j : Job) (outer inner : Nat)
  | glance (me : Uuid) (outer : Nat)
  | run (r : Run) (st : Stage)
  | forget (p : Uuid) (party : Option Uuid) (work : Work) (st : Forget)
  | pass (parties : List Uuid)
  | expire (now : Int) (todo : List (Uuid × Uuid)) (work : Work)
deriving DecidableEq

namespace Run

def lockKey (r : Run) : Int := partyLockKey r.party.text

/-- The players whose rows the transaction has changed. -/
def moved (r : Run) : List Uuid := r.work.members.map Pg.Change.key

def patchMembers (r : Run) (cs : List (Patch Uuid MemberRow)) : Run :=
  { r with work := { r.work with members := r.work.members ++ cs } }

def patchParties (r : Run) (cs : List (Patch Uuid PartyRow)) : Run :=
  { r with work := { r.work with parties := r.work.parties ++ cs } }

def patchInvites (r : Run) (cs : List (Patch (Uuid × Uuid) InviteRow)) : Run :=
  { r with work := { r.work with invites := r.work.invites ++ cs } }

def patchRevisions (r : Run) (cs : List (Patch Uuid Nat)) : Run :=
  { r with work := { r.work with revisions := r.work.revisions ++ cs } }

end Run

/-- The player whose row `remove_member_tx` deletes, and the stage at which it does. -/
def Job.removal : Job → Option (Uuid × Stage)
  | .leave me => some (me, .begun)
  | .kick _ target => some (target, .led)
  | .purge p => some (p, .locked)
  | _ => none

/-- The stage at which the leadership of the caller is checked. -/
def Job.leadStage : Job → Option Stage
  | .invite _ _ => some .locked
  | .kick _ _ | .promote _ _ => some .begun
  | _ => none

/-- The stages at which the lease of the caller is renewed inside of the transaction. -/
def Job.Renews (j : Job) (st : Stage) : Prop :=
  match j, st with
  | .invite _ _, .checked | .promote _ _, .checked | .kick _ _, .placed _ [] => True
  | _, _ => False

instance (j : Job) (st : Stage) : Decidable (j.Renews st) := by
  unfold Job.Renews
  split <;> infer_instance

/-- The stages at which a revision is drawn, and the leader that is written with it;
without one the leader stays, or the party goes. -/
def Job.draws (j : Job) (st : Stage) : Option (Option Uuid) :=
  match j, st with
  | .create me, .written => some (some me)
  | .accept _ _, .written | .ready _ _, .written => some none
  | .promote _ target, .renewed => some (some target)
  | .leave _, .chosen leader | .kick _ _, .chosen leader | .sweep _, .chosen leader
  | .purge _, .chosen leader => some leader
  | _, _ => none

/-- The players whose revision is recorded after the party is stamped. -/
def Run.records (r : Run) : List Uuid :=
  match r.job with
  | .promote _ _ | .ready _ _ => []
  | .sweep _ => r.moved.insertionSort (fun p q => p.value ≤ q.value)
  | _ => r.moved

namespace Pc

def work : Pc → Work
  | .run r _ => r.work
  | .forget _ _ work _ => work
  | .expire _ _ work => work
  | _ => Work.none

/-- Where a session goes on after the end of a transaction. -/
def resume : Pc → Pc
  | .run ⟨.sweep rest, _, _, _, _, _⟩ _ => .pass rest
  | _ => .idle

/-- The transaction has come to its `COMMIT`; what the caller gets then. -/
def result : Pc → Option (List Answer)
  | .run r (.placed revision []) =>
    match r.job with
    | .create _ | .accept _ _ | .promote _ _ | .ready _ _ => some [.job r.job (.ok .unit)]
    | .leave _ => some [.job r.job (.ok (.noParty revision))]
    | .sweep _ => some []
    | _ => none
  | .run r .renewed =>
    match r.job with
    | .kick _ _ => some [.job r.job (.ok .unit)]
    | _ => none
  | .run r (.invited id expiresAt) => some [.job r.job (.ok (.invite id r.party expiresAt))]
  | .forget _ _ _ .done => some []
  | .expire _ [] _ => some []
  | _ => none

/-- What the caller gets when the transaction fails. -/
def failure (msg : String) : Pc → List Answer
  | .seek j _ _ => [.job j (.error (Error.internal msg))]
  | .glance me _ => [.job (.leave me) (.error (Error.internal msg))]
  | .run r _ =>
    match r.job with
    | .sweep _ | .purge _ => []
    | j => [.job j (.error (Error.internal msg))]
  | _ => []

end Pc

end ProgramPoints

section Data

/-- The tables of the service, the sequence of revisions, the locks, the ids drawn so
far and the answers in commit order. -/
structure Data where
  parties : Table Uuid Sess PartyRow
  members : Table Uuid Sess MemberRow
  invites : Table (Uuid × Uuid) Sess InviteRow
  revisions : Table Uuid Sess Nat
  seq : Nat
  locks : Locks
  uuids : List Uuid
  answers : List Answer

namespace Data

def start : Data where
  parties := Table.empty
  members := Table.empty
  invites := Table.empty
  revisions := Table.empty
  seq := 0
  locks := Locks.free
  uuids := []
  answers := []

def commit (d : Data) (t : Sess) (answers : List Answer) : Data :=
  { d with
    parties := d.parties.commit t
    members := d.members.commit t
    invites := d.invites.commit t
    revisions := d.revisions.commit t
    locks := d.locks.release t
    answers := d.answers ++ answers }

/-- `ROLLBACK` of the session `t`; the sequence keeps what was drawn. -/
def rollback (d : Data) (t : Sess) (answers : List Answer) : Data :=
  { d with
    parties := d.parties.rollback t
    members := d.members.rollback t
    invites := d.invites.rollback t
    revisions := d.revisions.rollback t
    locks := d.locks.release t
    answers := d.answers ++ answers }

def answer (d : Data) (a : Answer) : Data := { d with answers := d.answers ++ [a] }

/-- `party_of_tx`. -/
def partyOf (d : Data) (t : Sess) (p : Uuid) : Option Uuid :=
  (d.members.view t p).map MemberRow.party

/-- `led_party_tx`. -/
def led (d : Data) (t : Sess) (p : Uuid) : Option Uuid :=
  (d.members.view t p).bind (fun m => (d.parties.view t m.party).bind (fun row =>
    if row.leader = p then some m.party else none))

/-- The members of a party that a statement of `t` sees, by `(joined_at, player_id)`. -/
def seats (d : Data) (t : Sess) (party : Uuid) : List Uuid :=
  (d.members.select t (fun _ m => m.party == party)).insertionSort (fun p q =>
    toLex (((d.members.view t p).map MemberRow.joinedAt).getD 0, p.value) ≤
      toLex (((d.members.view t q).map MemberRow.joinedAt).getD 0, q.value))

/-- The leader that `settle_removal_tx` chooses. -/
def successor (d : Data) (t : Sess) (party : Uuid) : Option Uuid :=
  match d.parties.view t party with
  | some row => if row.leader ∈ d.seats t party then some row.leader else (d.seats t party).head?
  | none => none

/-- The first parties with an expired member, by the oldest lease. -/
def expiredParties (d : Data) (now : Int) : List Uuid :=
  ((((d.members.rows.filter (fun r => decide (r.2.leaseUntil < now))).insertionSort
    (fun r r' => r.2.leaseUntil ≤ r'.2.leaseUntil)).map (fun r => r.2.party)).eraseDups).take
      sweepBatch

/-- The roster of a party as the views list it. -/
def roster (d : Data) (party : Uuid) : List (Uuid × Ready) :=
  ((d.members.rows.filter (fun r => r.2.party == party)).insertionSort (fun r r' =>
    toLex (r.2.joinedAt, r.1.value) ≤ toLex (r'.2.joinedAt, r'.1.value))).map
      (fun r => (r.1, r.2.ready))

/-- `PLAYER_VIEW_SQL`. -/
def view (d : Data) (p : Uuid) : View :=
  match (d.members.committed p).bind (fun m =>
    (d.parties.committed m.party).map (fun row => (m.party, row))) with
  | some (party, row) => ⟨some party, row.revision, some row.leader, d.roster party⟩
  | none => ⟨none, (d.revisions.committed p).getD 0, none, []⟩

/-- The invite that an operation names is the one under `k`. -/
def Names (d : Data) (me invite : Uuid) (k : Uuid × Uuid) : Prop :=
  k.2 = me ∧ (d.invites.committed k).any (fun row => row.id == invite) = true

instance (d : Data) (me invite : Uuid) (k : Uuid × Uuid) : Decidable (d.Names me invite k) :=
  inferInstanceAs (Decidable (_ ∧ _))

/-- `pending_invite_party` reads the party of the invite under `k`. -/
def Pending (d : Data) (me invite : Uuid) (now : Int) (k : Uuid × Uuid) : Prop :=
  k.2 = me ∧
    (d.invites.committed k).any (fun row => row.id == invite && decide (now < row.expiresAt)) = true

instance (d : Data) (me invite : Uuid) (now : Int) (k : Uuid × Uuid) :
    Decidable (d.Pending me invite now k) :=
  inferInstanceAs (Decidable (_ ∧ _))

/-- `consume_invite_tx` finds the invite. -/
def Consumable (d : Data) (r : Run) (row : InviteRow) : Prop :=
  match r.job with
  | .accept me invite =>
    d.invites.committed (r.party, me) = some row ∧ row.id = invite ∧ r.now < row.expiresAt
  | _ => False

instance (d : Data) (r : Run) (row : InviteRow) : Decidable (d.Consumable r row) := by
  unfold Consumable
  split <;> infer_instance

/-- The member insert is possible. -/
def Insertable (d : Data) (t : Sess) (p : Uuid) : Prop :=
  d.members.Free t p ∧ d.members.committed p = none

instance (d : Data) (t : Sess) (p : Uuid) : Decidable (d.Insertable t p) :=
  inferInstanceAs (Decidable (_ ∧ _))

/-- The member insert raises a unique violation. -/
def Conflicting (d : Data) (t : Sess) (p : Uuid) : Prop :=
  d.members.Settled t p ∧ d.members.committed p ≠ none

instance (d : Data) (t : Sess) (p : Uuid) : Decidable (d.Conflicting t p) :=
  inferInstanceAs (Decidable (_ ∧ _))

/-- The answer of a transaction that is rolled back at a program point because of what
its statement has found. -/
def refused (d : Data) (t : Sess) : Pc → Option (List Answer)
  | .run r .locked =>
    match r.job with
    | .invite me _ =>
      if d.led t me = some r.party then none else some [.job r.job (.error notFound)]
    | .accept me _ =>
      if (d.invites.committed (r.party, me)).any (fun row => d.Consumable r row) then
        none
      else
        some [.job r.job (.error inviteNotFound)]
    | _ => none
  | .run r .begun =>
    match r.job with
    | .kick me _ | .promote me _ =>
      if d.led t me = some r.party then none else some [.job r.job (.error notFound)]
    | .leave me | .ready me _ =>
      if d.partyOf t me = some r.party then none else some [.job r.job (.error vanished)]
    | _ => none
  | .run r .led =>
    match r.job with
    | .invite _ target =>
      if d.partyOf t target = some r.party then
        some [.job r.job (.error inThisParty)]
      else
        none
    | .kick _ target | .promote _ target =>
      if d.partyOf t target = some r.party then none else some [.job r.job (.error notFound)]
    | _ => none
  | .run r .consumed =>
    if maxMembers ≤ (d.members.select t (fun _ m => m.party == r.party)).length then
      some [.job r.job (.error partyFull)]
    else
      none
  | .run r .roomy =>
    if d.Conflicting t r.job.me then some [.job r.job (.error alreadyInParty)] else none
  | .run r (.deleting []) => if r.work.members = [] then some [] else none
  | _ => none

end Data

end Data

section Statements

inductive Act
  -- the calls that do not reach a transaction, and the statements without one
  | reject (i : Input) (e : Error)
  | previewMiss (i : Input)
  | renew (p : Uuid) (row : MemberRow) (leaseUntil : Int)
  | decline (i : Input) (me invite : Uuid) (k : Uuid × Uuid)
  | declineMiss (i : Input) (me invite : Uuid)
  -- the beginnings of transactions
  | createConflict (me : Uuid)
  | createInsert (me party : Uuid) (joinedAt leaseUntil : Int)
  | inviteOpen (i : Input) (me target party : Uuid) (now : Int)
  | acceptOpen (i : Input) (me invite : Uuid) (k : Uuid × Uuid) (read now : Int)
  | acceptMiss (i : Input) (me invite : Uuid) (read : Int)
  | seek (i : Input) (j : Job)
  | findParty (j : Job) (outer inner : Nat) (party : Uuid) (now : Int)
  | findNone (j : Job) (outer inner : Nat)
  | leaveNone (me : Uuid) (outer inner : Nat)
  | glanceNone (me : Uuid) (outer : Nat)
  | glanceAgain (me : Uuid) (outer : Nat)
  | purgeFind (p party : Uuid) (now : Int)
  | purgeNone (p : Uuid)
  | passSelect (now : Int)
  | passNext (party : Uuid) (rest : List Uuid) (now : Int)
  -- under the lock
  | lock (r : Run)
  | confirm (r : Run)
  | changed (r : Run)
  | lead (r : Run) (st : Stage)
  | vacant (r : Run) (me target : Uuid)
  | present (r : Run) (me target : Uuid)
  | renewIn (r : Run) (st : Stage) (leaseUntil : Int)
  | upsertInvite (r : Run) (me target id : Uuid) (expiresAt : Int)
  | consume (r : Run) (me : Uuid) (row : InviteRow)
  | count (r : Run)
  | join (r : Run) (me : Uuid) (joinedAt leaseUntil : Int)
  | remove (r : Run) (p : Uuid) (st : Stage) (row : MemberRow)
  | setReady (r : Run) (me : Uuid) (state : Ready) (row : MemberRow) (leaseUntil : Int)
  | scanExpired (r : Run)
  | expireMember (r : Run) (todo : List Uuid) (p : Uuid)
  | expired (r : Run)
  -- the stamp
  | choose (r : Run)
  | draw (r : Run) (st : Stage) (leader : Option Uuid)
  | insertParty (r : Run) (me : Uuid) (revision : Nat)
  | updateParty (r : Run) (leader : Option Uuid) (revision : Nat)
  | scanInvites (r : Run) (revision : Nat)
  | clearInvite (r : Run) (revision : Nat) (todo : List (Uuid × Uuid)) (k : Uuid × Uuid)
  | deleteParty (r : Run) (revision : Nat)
  | record (r : Run) (revision : Nat) (p : Uuid) (todo : List Uuid)
  -- the rest of a purge
  | forget (r : Run) (p : Uuid) (revision : Nat)
  | scanInvolving (p : Uuid) (party : Option Uuid) (work : Work)
  | clearInvolving (p : Uuid) (party : Option Uuid) (work : Work) (todo : List (Uuid × Uuid))
      (k : Uuid × Uuid)
  | forgetRevision (p : Uuid) (party : Option Uuid) (work : Work)
  -- the expired invites
  | passExpire (parties : List Uuid) (now : Int)
  | expireInvite (now : Int) (todo : List (Uuid × Uuid)) (work : Work) (k : Uuid × Uuid)
  -- the ends of transactions
  | commit (pc : Pc) (answers : List Answer)
  | refuse (pc : Pc) (answers : List Answer)
  | fail (pc : Pc) (msg : String)

/-- The lease of a member is renewed inside of a transaction. -/
def Data.renewal (d : Data) (t : Sess) (p : Uuid) (leaseUntil : Int) :
    List (Patch Uuid MemberRow) :=
  match d.members.view t p with
  | some row => [patch p (some row) (some { row with leaseUntil := leaseUntil })]
  | none => []

/-- The stamp of a party, which may have no row. -/
def Data.stamp (d : Data) (t : Sess) (party : Uuid) (leader : Option Uuid) (revision : Nat) :
    List (Patch Uuid PartyRow) :=
  match d.parties.view t party with
  | some row => [patch party (some row) (some ⟨leader.getD row.leader, revision⟩)]
  | none => []

/-- The row that `upsert_invite_tx` leaves. -/
def InviteRow.upsert (old : Option InviteRow) (id inviter : Uuid) (expiresAt : Int) : InviteRow :=
  match old with
  | some row => ⟨row.id, inviter, expiresAt⟩
  | none => ⟨id, inviter, expiresAt⟩

/-- The changes of one statement on a table. -/
def writeAll {κ ρ : Type} [DecidableEq κ] (T : Table κ Sess ρ) (t : Sess) (cs : List (Patch κ ρ)) :
    Table κ Sess ρ :=
  cs.foldl (fun T c => T.write t c.key c.new) T

/-- A member of the party whose lease has expired. -/
def lapsed (party : Uuid) (now : Int) (_ : Uuid) (m : MemberRow) : Bool :=
  m.party == party && decide (m.leaseUntil < now)

/-- An invite to the party. -/
def invitesTo (party : Uuid) (k : Uuid × Uuid) (_ : InviteRow) : Bool := k.1 == party

/-- An invite that has expired. -/
def outdated (now : Int) (_ : Uuid × Uuid) (row : InviteRow) : Bool := decide (row.expiresAt < now)

/-- The invite is to the player or from the player. -/
def involves (p : Uuid) (k : Uuid × Uuid) (row : InviteRow) : Bool := k.2 == p || row.inviter == p

def stmt (t : Sess) : Act → Stmt Data Pc
  | .reject i e =>
    { before := .idle
      guard := fun d => i.check = .error e ∨
        (i.check = .ok () ∧ i.job = .error e ∧
          match i with
          | .invite me _ _ => d.led t me ≠ none
          | _ => True)
      after := fun _ => .idle
      change := fun d => d.answer (.rejected i e) }
  | .previewMiss i =>
    { before := .idle
      guard := fun d => i.check = .ok () ∧
        match i with
        | .invite me _ _ => d.led t me = none
        | _ => False
      after := fun _ => .idle
      change := fun d => d.answer (.rejected i notFound) }
  | .renew p row leaseUntil =>
    { before := .idle
      guard := fun d => d.members.pending p = none ∧ d.members.committed p = some row
      after := fun _ => .idle
      change := fun d =>
        { d with members := d.members.put p (some { row with leaseUntil := leaseUntil }) } }
  | .decline i me invite k =>
    { before := .idle
      guard := fun d => i.check = .ok () ∧
        (match i with
          | .decline me' inviteId => me' = me ∧ uuidArg "invite_id" inviteId = .ok invite
          | _ => False) ∧
        d.Names me invite k ∧ d.invites.pending k = none
      after := fun _ => .idle
      change := fun d =>
        { d with
          invites := d.invites.put k none
          answers := d.answers ++ [.declined me invite (.ok ())] } }
  | .declineMiss i me invite =>
    { before := .idle
      guard := fun d => i.check = .ok () ∧
        (match i with
          | .decline me' inviteId => me' = me ∧ uuidArg "invite_id" inviteId = .ok invite
          | _ => False) ∧
        ∀ k ∈ d.invites.keys, ¬ d.Names me invite k
      after := fun _ => .idle
      change := fun d => d.answer (.declined me invite (.error inviteNotFound)) }
  | .createConflict me =>
    { before := .idle
      guard := fun d => d.Conflicting t me
      after := fun _ => .idle
      change := fun d => d.answer (.job (.create me) (.error alreadyInParty)) }
  | .createInsert me party joinedAt leaseUntil =>
    { before := .idle
      guard := fun d => party ∉ d.uuids ∧ d.Insertable t me
      after := fun _ => .run
        ⟨.create me, party, 0, 0, 0,
          { Work.none with
            members := [patch me none (some ⟨party, .notReady, joinedAt, leaseUntil⟩)] }⟩
        .written
      change := fun d =>
        { d with
          members := d.members.write t me (some ⟨party, .notReady, joinedAt, leaseUntil⟩)
          uuids := party :: d.uuids } }
  | .inviteOpen i me target party now =>
    { before := .idle
      guard := fun d => i.check = .ok () ∧ d.led t me = some party ∧
        i.job = .ok (some (.invite me target))
      after := fun _ => .run ⟨.invite me target, party, 0, 0, now, .none⟩ .found }
  | .acceptOpen i me invite k read now =>
    { before := .idle
      guard := fun d => i.job = .ok (some (.accept me invite)) ∧ d.Pending me invite read k
      after := fun _ => .run ⟨.accept me invite, k.1, 0, 0, now, .none⟩ .found }
  | .acceptMiss i me invite read =>
    { before := .idle
      guard := fun d => i.job = .ok (some (.accept me invite)) ∧
        ∀ k ∈ d.invites.keys, ¬ d.Pending me invite read k
      after := fun _ => .idle
      change := fun d => d.answer (.job (.accept me invite) (.error inviteNotFound)) }
  | .seek i j =>
    { before := .idle
      guard := fun _ => i.check = .ok () ∧ i.job = .ok (some j) ∧ j.seeks = true
      after := fun _ => .seek j membershipAttempts membershipAttempts }
  | .findParty j outer inner party now =>
    { before := .seek j outer inner
      guard := fun d => j.seeks = true ∧ d.partyOf t j.me = some party
      after := fun _ => .run ⟨j, party, outer, inner, now, .none⟩ .found }
  | .findNone j outer inner =>
    { before := .seek j outer inner
      guard := fun d => j ≠ .leave j.me ∧ d.partyOf t j.me = none
      after := fun _ => .idle
      change := fun d => d.answer (.job j (.error notFound)) }
  | .leaveNone me outer inner =>
    { before := .seek (.leave me) outer inner
      guard := fun d => d.partyOf t me = none
      after := fun _ => .glance me outer }
  | .glanceNone me outer =>
    { before := .glance me outer
      guard := fun d => (d.view me).party = none
      after := fun _ => .idle
      change := fun d => d.answer (.job (.leave me) (.ok (.noParty (d.view me).revision))) }
  | .glanceAgain me outer =>
    { before := .glance me outer
      guard := fun d => (d.view me).party ≠ none
      after := fun _ =>
        if outer ≤ 1 then .idle else .seek (.leave me) (outer - 1) membershipAttempts
      change := fun d =>
        if outer ≤ 1 then d.answer (.job (.leave me) (.error changedConcurrently)) else d }
  | .purgeFind p party now =>
    { before := .idle
      guard := fun d => d.partyOf t p = some party
      after := fun _ => .run ⟨.purge p, party, 0, 0, now, .none⟩ .found }
  | .purgeNone p =>
    { before := .idle
      guard := fun d => d.partyOf t p = none
      after := fun _ => .forget p none .none .listing }
  | .passSelect now =>
    { before := .idle
      after := fun d => .pass (d.expiredParties now) }
  | .passNext party rest now =>
    { before := .pass (party :: rest)
      after := fun _ => .run ⟨.sweep rest, party, 0, 0, now, .none⟩ .found }
  | .lock r =>
    { before := .run r .found
      guard := fun d => d.locks.Takeable t r.lockKey
      after := fun _ => .run r .locked
      change := fun d => { d with locks := d.locks.take t r.lockKey } }
  | .confirm r =>
    { before := .run r .locked
      guard := fun d => r.job.seeks = true ∧ d.partyOf t r.job.me = some r.party
      after := fun _ => .run r .begun }
  | .changed r =>
    { before := .run r .locked
      guard := fun d => r.job.seeks = true ∧ d.partyOf t r.job.me ≠ some r.party
      after := fun _ => if r.inner ≤ 1 then .idle else .seek r.job r.outer (r.inner - 1)
      change := fun d =>
        d.rollback t (if r.inner ≤ 1 then [.job r.job (.error changedConcurrently)] else []) }
  | .lead r st =>
    { before := .run r st
      guard := fun d => r.job.leadStage = some st ∧ d.led t r.job.me = some r.party
      after := fun _ => .run r .led }
  | .vacant r me target =>
    { before := .run r .led
      guard := fun d => r.job = .invite me target ∧ d.partyOf t target ≠ some r.party
      after := fun _ => .run r .checked }
  | .present r me target =>
    { before := .run r .led
      guard := fun d => r.job = .promote me target ∧ d.partyOf t target = some r.party
      after := fun _ => .run r .checked }
  | .renewIn r st leaseUntil =>
    { before := .run r st
      guard := fun d => r.job.Renews st ∧
        (d.members.view t r.job.me ≠ none → d.members.Free t r.job.me)
      after := fun d => .run (r.patchMembers (d.renewal t r.job.me leaseUntil)) .renewed
      change := fun d =>
        { d with members := writeAll d.members t (d.renewal t r.job.me leaseUntil) } }
  | .upsertInvite r me target id expiresAt =>
    { before := .run r .renewed
      guard := fun d => r.job = .invite me target ∧ id ∉ d.uuids ∧
        d.invites.Free t (r.party, target)
      after := fun d =>
        let row := InviteRow.upsert (d.invites.committed (r.party, target)) id me expiresAt
        .run (r.patchInvites
          [patch (r.party, target) (d.invites.committed (r.party, target)) (some row)])
          (.invited row.id expiresAt)
      change := fun d =>
        { d with
          invites := d.invites.write t (r.party, target)
            (some (InviteRow.upsert (d.invites.committed (r.party, target)) id me expiresAt))
          uuids := id :: d.uuids } }
  | .consume r me row =>
    { before := .run r .locked
      guard := fun d => r.job.me = me ∧ d.Consumable r row ∧ d.invites.Free t (r.party, me)
      after := fun _ => .run (r.patchInvites [patch (r.party, me) (some row) none]) .consumed
      change := fun d => { d with invites := d.invites.write t (r.party, me) none } }
  | .count r =>
    { before := .run r .consumed
      guard := fun d => (d.members.select t (fun _ m => m.party == r.party)).length < maxMembers
      after := fun _ => .run r .roomy }
  | .join r me joinedAt leaseUntil =>
    { before := .run r .roomy
      guard := fun d => r.job.me = me ∧ d.Insertable t me
      after := fun _ => .run
        (r.patchMembers [patch me none (some ⟨r.party, .notReady, joinedAt, leaseUntil⟩)])
        .written
      change := fun d =>
        { d with
          members := d.members.write t me (some ⟨r.party, .notReady, joinedAt, leaseUntil⟩) } }
  | .remove r p st row =>
    { before := .run r st
      guard := fun d => r.job.removal = some (p, st) ∧ d.members.Free t p ∧
        d.members.committed p = some row ∧ row.party = r.party
      after := fun _ => .run (r.patchMembers [patch p (some row) none]) .written
      change := fun d => { d with members := d.members.write t p none } }
  | .setReady r me state row leaseUntil =>
    { before := .run r .begun
      guard := fun d => r.job = .ready me state ∧ d.members.Free t me ∧
        d.members.committed me = some row ∧ row.party = r.party
      after := fun _ => .run
        (r.patchMembers [patch me (some row)
          (some { row with ready := state, leaseUntil := leaseUntil })])
        .written
      change := fun d =>
        { d with
          members := d.members.write t me
            (some { row with ready := state, leaseUntil := leaseUntil }) } }
  | .scanExpired r =>
    { before := .run r .locked
      guard := fun _ => r.job.sweeps = true
      after := fun d => .run r (.deleting (d.members.select t (lapsed r.party r.now))) }
  | .expireMember r todo p =>
    { before := .run r (.deleting todo)
      guard := fun d => p ∈ todo ∧ d.members.Free t p
      after := fun d => .run
        (r.patchMembers (d.members.reached t (lapsed r.party r.now) p))
        (.deleting (todo.erase p))
      change := fun d =>
        { d with
          members := d.members.deleteWhere t (lapsed r.party r.now) p } }
  | .expired r =>
    { before := .run r (.deleting [])
      guard := fun _ => r.work.members ≠ []
      after := fun _ => .run r .written }
  | .choose r =>
    { before := .run r .written
      guard := fun _ => r.job.removes = true
      after := fun d => .run r (.chosen (d.successor t r.party)) }
  | .draw r st leader =>
    { before := .run r st
      guard := fun _ => r.job.draws st = some leader
      after := fun d => .run r (.drawn leader (d.seq + 1))
      change := fun d => { d with seq := d.seq + 1 } }
  | .insertParty r me revision =>
    { before := .run r (.drawn (some me) revision)
      guard := fun d => r.job = .create me ∧ d.parties.Free t r.party ∧
        d.parties.committed r.party = none
      after := fun _ => .run
        (r.patchParties [patch r.party none (some ⟨me, revision⟩)])
        (.placed revision r.records)
      change := fun d => { d with parties := d.parties.write t r.party (some ⟨me, revision⟩) } }
  | .updateParty r leader revision =>
    { before := .run r (.drawn leader revision)
      guard := fun d => r.job ≠ .create r.job.me ∧ (r.job.removes = true → leader ≠ none) ∧
        (d.parties.view t r.party ≠ none → d.parties.Free t r.party)
      after := fun d => .run (r.patchParties (d.stamp t r.party leader revision))
        (.placed revision r.records)
      change := fun d =>
        { d with parties := writeAll d.parties t (d.stamp t r.party leader revision) } }
  | .scanInvites r revision =>
    { before := .run r (.drawn none revision)
      guard := fun _ => r.job.removes = true
      after := fun d => .run r
        (.clearing revision (d.invites.select t (invitesTo r.party))) }
  | .clearInvite r revision todo k =>
    { before := .run r (.clearing revision todo)
      guard := fun d => k ∈ todo ∧ d.invites.Free t k
      after := fun d => .run
        (r.patchInvites (d.invites.reached t (invitesTo r.party) k))
        (.clearing revision (todo.erase k))
      change := fun d => { d with invites := d.invites.deleteWhere t (invitesTo r.party) k } }
  | .deleteParty r revision =>
    { before := .run r (.clearing revision [])
      guard := fun d => d.parties.Free t r.party
      after := fun d => .run
        (r.patchParties (d.parties.reached t (fun _ _ => true) r.party))
        (.placed revision r.records)
      change := fun d => { d with parties := d.parties.deleteWhere t (fun _ _ => true) r.party } }
  | .record r revision p todo =>
    { before := .run r (.placed revision (p :: todo))
      guard := fun d => d.revisions.Free t p
      after := fun d => .run
        (r.patchRevisions [patch p (d.revisions.committed p) (some revision)])
        (.placed revision todo)
      change := fun d => { d with revisions := d.revisions.write t p (some revision) } }
  | .forget r p revision =>
    { before := .run r (.placed revision [])
      guard := fun _ => r.job = .purge p
      after := fun _ => .forget p (some r.party) r.work .listing }
  | .scanInvolving p party work =>
    { before := .forget p party work .listing
      after := fun d => .forget p party work (.clearing (d.invites.select t (involves p))) }
  | .clearInvolving p party work todo k =>
    { before := .forget p party work (.clearing todo)
      guard := fun d => k ∈ todo ∧ d.invites.Free t k
      after := fun d => .forget p party
        { work with invites := work.invites ++ d.invites.reached t (involves p) k }
        (.clearing (todo.erase k))
      change := fun d => { d with invites := d.invites.deleteWhere t (involves p) k } }
  | .forgetRevision p party work =>
    { before := .forget p party work (.clearing [])
      guard := fun d => d.revisions.Free t p
      after := fun _ => .forget p party work .done
      change := fun d => { d with revisions := d.revisions.deleteWhere t (fun _ _ => true) p } }
  | .passExpire parties now =>
    { before := .pass parties
      after := fun d => .expire now
        (d.invites.select t (outdated now)) .none }
  | .expireInvite now todo work k =>
    { before := .expire now todo work
      guard := fun d => k ∈ todo ∧ d.invites.Free t k
      after := fun d => .expire now (todo.erase k)
        { work with
          invites := work.invites ++
            d.invites.reached t (outdated now) k }
      change := fun d =>
        { d with
          invites := d.invites.deleteWhere t (outdated now) k } }
  | .commit pc answers =>
    { before := pc
      guard := fun _ => pc.result = some answers
      after := fun _ => pc.resume
      change := fun d => d.commit t answers }
  | .refuse pc answers =>
    { before := pc
      guard := fun d => d.refused t pc = some answers
      after := fun _ => pc.resume
      change := fun d => d.rollback t answers }
  | .fail pc msg =>
    { before := pc
      guard := fun _ => pc ≠ .idle
      after := fun _ => pc.resume
      change := fun d => d.rollback t (pc.failure msg) }

instance (t : Sess) (a : Act) (d : Data) : Decidable ((stmt t a).guard d) := by
  cases a with
  | reject i => cases i <;> dsimp only [stmt] <;> infer_instance
  | previewMiss i => cases i <;> dsimp only [stmt] <;> infer_instance
  | decline i => cases i <;> dsimp only [stmt] <;> infer_instance
  | declineMiss i => cases i <;> dsimp only [stmt] <;> infer_instance
  | _ =>
    dsimp only [stmt]
    infer_instance

def programs : Programs Data Pc Act where
  data := Data.start
  idle := .idle
  stmt := stmt

/-- The party service. -/
def system : TransitionSystem (World Data Pc) (Sess × Act) := programs.system

instance (w : World Data Pc) (a : Sess × Act) : Decidable (system.enabled w a) :=
  inferInstanceAs (Decidable (_ ∧ (stmt a.1 a.2).guard w.data))

end Statements

end Swarog.Party
