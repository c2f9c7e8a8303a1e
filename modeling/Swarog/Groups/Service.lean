import Swarog.Groups.Schema
import Swarog.Pg.Advisory
import Swarog.Purge

/-!
# The groups service

The statements of the operations of players (`create`, `join`, `leave`, `invite`,
`respond`, `decide`), of the operator's `promote`, of the retention sweep, of the
delivery that plants a tombstone and of the purge sweep, as programs of database
sessions.

* Every operation on an existing group takes the lock of the group first and decides
  from what it reads under the lock.  `create` takes no lock, and neither does the
  retention sweep, which deletes rows that nobody else has locked.
* `leave` and the purge sweep end a membership in the same way: they count the rows
  of the group, delete the row and, if the group has lost its last member (or, in
  the sweep, its last admin), delete the other rows, one after the other as the
  statement reaches them, and the group.
* The purge sweep works on each group behind a savepoint.  A failure is answered by a
  return to the savepoint, which undoes the changes and releases the lock, and the
  player is skipped.  The loop of `Sweeper`, one `DELETE` for a player, is no part of it.

A transaction collects its changes with their events; the events become visible with
the `COMMIT`.
-/

namespace Swarog.Groups

open Pg

section Calls

/-- The operations as they arrive.  `found` is the directory's answer for a handle. -/
inductive Input
  | create (me : Uuid.Spelling) (name joinPolicy : String)
  | join (me group : Uuid.Spelling) (handle : String)
  | leave (me group : Uuid.Spelling)
  | invite (me group : Uuid.Spelling) (targetHandle : String) (found : Option Uuid.Spelling)
  | respond (me group : Uuid.Spelling) (decision : String)
  | decide (me group subject : Uuid.Spelling) (decision : String)
  | promote (group subject : Uuid.Spelling)
deriving DecidableEq

/-- A call of `create` that has been validated. -/
structure Create where
  me : Uuid.Spelling
  name : String
  policy : JoinPolicy
deriving DecidableEq

/-- The operations on an existing group; `me` is the caller where it is not the player
whose row is written. -/
inductive Op
  | join (handle : String)
  | leave
  | invite (me : Uuid)
  | respond (d : Decision)
  | decide (me : Uuid) (d : Decision)
  | promote
deriving DecidableEq

/-- A call that has been validated; `subject` is the player whose row is written. -/
structure Call where
  op : Op
  group : Uuid.Spelling
  subject : Uuid.Spelling
deriving DecidableEq

def Call.key (c : Call) : Uuid × Uuid := (c.group.id, c.subject.id)

def Call.lockKey (c : Call) : Int := groupLockKey c.group.text

/-- The checks in front of the first statement. -/
def Input.check : Input → Except Error Unit
  | .create _ name joinPolicy => do
    validateName name
    let _ ← validatePolicy joinPolicy
  | .invite _ _ targetHandle _ =>
    if maxHandleBytes < targetHandle.utf8ByteSize then .error handleTooLong else .ok ()
  | .respond _ _ decision | .decide _ _ _ decision => do
    let _ ← validateDecision decision
  | _ => .ok ()

/-- The operation with its arguments validated and its target looked up. -/
def Input.validated : Input → Except Error (Create ⊕ Call)
  | .create me name joinPolicy => do
    validateName name
    let policy ← validatePolicy joinPolicy
    pure (.inl ⟨me, name, policy⟩)
  | .join me group handle => .ok (.inr ⟨.join handle, group, me⟩)
  | .leave me group => .ok (.inr ⟨.leave, group, me⟩)
  | .invite me group _ found =>
    match found with
    | some target => .ok (.inr ⟨.invite me.id, group, target⟩)
    | none => .error noSuchPlayer
  | .respond me group decision => do
    let d ← validateDecision decision
    pure (.inr ⟨.respond d, group, me⟩)
  | .decide me group subject decision => do
    let d ← validateDecision decision
    pure (.inr ⟨.decide me.id d, group, subject⟩)
  | .promote group subject => .ok (.inr ⟨.promote, group, subject⟩)

inductive Reply
  | unit
  | group (id : Uuid) (name : String) (policy : JoinPolicy) (createdAt : Int)
      (state : MemberState) (role : Role)
  | member (player : Uuid) (handle : String) (state : MemberState) (role : Role)
      (joinedAt : Int)
  | promotion (group : Uuid) (name : String) (player : Uuid) (alreadyAdmin : Bool)
deriving DecidableEq

abbrev Outcome := Except Failure Reply

def refusedWith (e : Error) : Outcome := .error (.error e)

inductive Answer
  | rejected (i : Input) (e : Error)
  | created (c : Create) (outcome : Outcome)
  | called (c : Call) (outcome : Outcome)
deriving DecidableEq

end Calls

section Decisions

/-- What a call decides from the row of its subject. -/
def Call.verdict (c : Call) (groupName : String) : Option MemberRow → Except Outcome MemberRow
  | none =>
    match c.op with
    | .promote =>
      .error (.error (.rejection
        (.rejected ("groups: " ++ c.subject.text ++ " holds no row in this group"))))
    | _ => .error (refusedWith notFound)
  | some row =>
    match c.op with
    | .respond _ => if row.state = .invited then .ok row else .error (refusedWith notFound)
    | .decide me d =>
      if c.subject.id = me then
        .error (refusedWith ownMembership)
      else
        match d, row.state with
        | .accept, .invited =>
          .error (refusedWith (Error.conflict
            "an invitation is the invited player's to accept"))
        | .accept, .member =>
          .error (refusedWith (Error.conflict "that player is already a member"))
        | _, _ => .ok row
    | .promote =>
      if row.state ≠ .member then
        .error (.error (.rejection (.rejected ("groups: " ++ c.subject.id.text ++
          " holds a \"" ++ row.state.text ++ "\" row, not a member row"))))
      else if row.role = .admin then
        .error (.ok (.promotion c.group.id groupName c.subject.id true))
      else
        .ok row
    | _ => .ok row

/-- What the write of a call does to the row that it finds: `promote_tx` or
`delete_membership_tx`. -/
def Call.change (c : Call) (row : MemberRow) : Option Change :=
  match c.op with
  | .respond .accept =>
    if row.state = .invited then
      some ⟨c.key, some row, some (row.promote .member), [.memberJoined c.key.1 c.key.2 .member]⟩
    else
      none
  | .respond .reject =>
    some ⟨c.key, some row, none, [.memberLeft c.key.1 c.key.2 (some c.key.2) .declined]⟩
  | .decide _ .accept =>
    if row.state = .requested then
      some ⟨c.key, some row, some (row.promote .member), [.memberJoined c.key.1 c.key.2 .member]⟩
    else
      none
  | .decide me .reject =>
    some ⟨c.key, some row, none,
      [.memberLeft c.key.1 c.key.2 (some me)
        (if row.state = .member then .kicked else .declined)]⟩
  | .promote =>
    if row.state = .member then
      some ⟨c.key, some row, some (row.promote .admin), [.roleChanged c.key.1 c.key.2 .admin]⟩
    else
      none
  | _ => none

/-- The answer when that write finds no row. -/
def Call.vanished (c : Call) : Outcome :=
  match c.op with
  | .respond _ => refusedWith (Error.internal "invitation vanished while the group was locked")
  | .decide _ .accept => refusedWith (Error.internal "request vanished while the group was locked")
  | .promote => .error (.rejection .stale)
  | _ => refusedWith (Error.internal "membership vanished while the group was locked")

/-- The row that `join` and `invite` insert. -/
def Call.admission (c : Call) (state : MemberState) (role : Role) (now : Int) : Change where
  key := c.key
  old := none
  new := some ⟨state, role, now⟩
  events := if state = .member then [.memberJoined c.key.1 c.key.2 role] else []

/-- The answer when the pair has a row already. -/
def Call.related (c : Call) : Outcome :=
  match c.op with
  | .invite _ => refusedWith (Error.conflict "that player already has a relation to this group")
  | _ => refusedWith (Error.conflict "you already have a relation to this group")

/-- The row of the creator of a group. -/
def Create.admission (c : Create) (id : Uuid) (now : Int) : Change where
  key := (id, c.me.id)
  old := none
  new := some ⟨.member, .admin, now⟩
  events := [.created id c.name c.me.id c.policy, .memberJoined id c.me.id .admin]

def Create.row (c : Create) : GroupRow := ⟨c.name, c.policy, c.me.id⟩

/-- A pending row that the retention sweep deletes. -/
def expiry (k : Uuid × Uuid) (row : MemberRow) : Change :=
  ⟨k, some row, none, [.memberLeft k.1 k.2 none .expired]⟩

/-- A row that goes with its group. -/
def dissolution (k : Uuid × Uuid) (row : MemberRow) : Change :=
  ⟨k, some row, none, [.memberLeft k.1 k.2 none .groupDissolved]⟩

end Decisions

section ProgramPoints

/-- The transaction of a call: its time and the name of the group, once it is read. -/
structure Tx where
  call : Call
  now : Int
  groupName : String
deriving DecidableEq

inductive CreateStage
  | opened
  | cleared
  | grouped (id : Uuid)
  | written (id : Uuid)
deriving DecidableEq

inductive Stage
  | opened
  | locked
  | cleared
  | authorized
  | found (row : MemberRow)
  | placed (state : MemberState) (role : Role)
  | roomy (state : MemberState) (role : Role)
  | written (c : Change)
deriving DecidableEq

def Op.joins : Op → Bool
  | .join _ => true
  | _ => false

/-- The operations that read the row of their subject and then write it. -/
def Op.seeks : Op → Bool
  | .respond _ | .decide _ _ | .promote => true
  | _ => false

/-- The stage at which they read it. -/
def Op.findStage : Op → Stage
  | .decide _ _ | .promote => .authorized
  | _ => .locked

structure Prune where
  now : Int
  retentionDays : Int
  watermark : Option Int
  removed : List Change
deriving DecidableEq

inductive PruneStage
  | selecting
  | finished
deriving DecidableEq

/-- A purge sweep: the floor of its next selection, the size of the current batch, the
tombstones of the batch still to be swept, the skipped and the stamped ones, the groups
it may still touch, and what it has done outside of the current savepoint: the rows and
the groups it has deleted and the locks it has taken. -/
structure Sweep where
  watermark : Uuid
  size : Nat
  claimed : List (Uuid × Tombstone)
  skipped : List (Uuid × Tombstone)
  stamped : List (Uuid × Tombstone)
  slots : Nat
  removed : List Change
  dissolved : List Uuid
  locked : List Int
deriving DecidableEq

def Sweep.first : Sweep := ⟨Uuid.nil, 0, [], [], [], groupsPerFire, [], [], []⟩

inductive SweepStage
  | selecting
  | next
  | listing
  | walking (groups : List Uuid)
  | purged
  | finished
deriving DecidableEq

/-- Who ends a membership: a call of `leave`, which has read the row, or a sweep, in
the group `g`, with the groups of the player that are left. -/
inductive Host
  | leave (x : Tx) (row : MemberRow)
  | sweep (sw : Sweep) (g p : Uuid) (todo : List Uuid)
deriving DecidableEq

inductive Exit
  | locked
  | weighed (counts : Counts)
  | emptying
  | dissolving (todo : List (Uuid × Uuid))
  | done (gone : Bool)
deriving DecidableEq

namespace Host

def key : Host → Uuid × Uuid
  | .leave x _ => x.call.key
  | .sweep _ g p _ => (g, p)

/-- The end of the membership, with its event. -/
def removal (h : Host) (row : MemberRow) : Change where
  key := h.key
  old := some row
  new := none
  events :=
    match h with
    | .leave _ _ => [.memberLeft h.key.1 h.key.2 (some h.key.2)
        (if row.state = .member then .left else .declined)]
    | .sweep _ _ _ _ => [.memberLeft h.key.1 h.key.2 (some h.key.2) .accountDeleted]

/-- The end of the membership ends the group. -/
def Dissolves (h : Host) (row : MemberRow) (counts : Counts) : Prop :=
  match h with
  | .leave _ _ => row.state = .member ∧ counts.members = 1
  | .sweep _ _ _ _ => row.state = .member ∧
      (counts.members = 1 ∨ (row.role = .admin ∧ counts.admins = 1))

instance (h : Host) (row : MemberRow) (counts : Counts) : Decidable (h.Dissolves row counts) := by
  cases h <;> dsimp only [Dissolves] <;> infer_instance

/-- The last admin does not leave members behind. -/
def Refuses (h : Host) (counts : Counts) : Prop :=
  match h with
  | .leave _ row => row.IsAdmin ∧ counts.admins = 1 ∧ 1 < counts.members
  | .sweep _ _ _ _ => False

instance (h : Host) (counts : Counts) : Decidable (h.Refuses counts) := by
  cases h <;> dsimp only [Refuses] <;> infer_instance

def sweeps : Host → Bool
  | .leave _ _ => false
  | .sweep _ _ _ _ => true

/-- The changes in front of the savepoint. -/
def kept : Host → List Change
  | .leave _ _ => []
  | .sweep sw _ _ _ => sw.removed

/-- The groups deleted in front of the savepoint. -/
def dissolved : Host → List Uuid
  | .leave _ _ => []
  | .sweep sw _ _ _ => sw.dissolved

end Host

/-- The group that was deleted since the savepoint. -/
def Exit.gone (st : Exit) (g : Uuid) : List Uuid :=
  match st with
  | .done true => [g]
  | _ => []

/-- Where a session is. -/
inductive Pc
  | idle
  | create (c : Create) (now : Int) (st : CreateStage)
  | op (x : Tx) (st : Stage)
  | exit (h : Host) (st : Exit) (cs : List Change)
  | prune (pr : Prune) (st : PruneStage)
  | planted (row : Option (Uuid × Tombstone))
  | sweep (sw : Sweep) (st : SweepStage)
deriving DecidableEq

namespace Pc

/-- The changes of `groups.memberships` that the transaction has made. -/
def changes : Pc → List Change
  | .create c now (.written id) => [c.admission id now]
  | .op _ (.written ch) => [ch]
  | .exit h _ cs => h.kept ++ cs
  | .prune pr _ => pr.removed
  | .sweep sw _ => sw.removed
  | _ => []

/-- The transaction has come to its `COMMIT`; what the caller gets then. -/
def result : Pc → Option (List Answer)
  | .create c now (.written id) =>
    some [.created c (.ok (.group id c.name c.policy now .member .admin))]
  | .op x (.written ch) =>
    match x.call.op with
    | .join handle =>
      some [.called x.call (.ok (.member x.call.subject.id handle
        ((ch.new.map MemberRow.state).getD .member) ((ch.new.map MemberRow.role).getD .empty)
        x.now))]
    | .promote =>
      some [.called x.call (.ok (.promotion x.call.group.id x.groupName
        x.call.subject.id false))]
    | _ => some [.called x.call (.ok .unit)]
  | .exit (.leave x _) (.done _) _ => some [.called x.call (.ok .unit)]
  | .prune _ .finished => some []
  | .planted _ => some []
  | .sweep _ .finished => some []
  | _ => none

/-- What the caller gets when the transaction fails. -/
def failure (msg : String) : Pc → List Answer
  | .create c _ _ => [.created c (refusedWith (Error.internal msg))]
  | .op x _ =>
    match x.call.op with
    | .promote => [.called x.call (.error (.rejection (.internal ("groups: " ++ msg))))]
    | _ => [.called x.call (refusedWith (Error.internal msg))]
  | .exit (.leave x _) _ _ => [.called x.call (refusedWith (Error.internal msg))]
  | _ => []

end Pc

end ProgramPoints

section Data

/-- The tables of the service, its locks, the group ids drawn so far, the events and
the answers in commit order. -/
structure Data where
  groups : Table Uuid Sess GroupRow
  memberships : Table (Uuid × Uuid) Sess MemberRow
  purged : Table Uuid Sess Tombstone
  locks : Locks
  uuids : List Uuid
  events : List Event
  answers : List Answer

namespace Data

def start : Data where
  groups := Table.empty
  memberships := Table.empty
  purged := Table.empty
  locks := Locks.free
  uuids := []
  events := []
  answers := []

def commit (d : Data) (t : Sess) (changes : List Change) (answers : List Answer) : Data :=
  { d with
    groups := d.groups.commit t
    memberships := d.memberships.commit t
    purged := d.purged.commit t
    locks := d.locks.release t
    events := d.events ++ changes.flatMap Change.events
    answers := d.answers ++ answers }

def rollback (d : Data) (t : Sess) (answers : List Answer) : Data :=
  { d with
    groups := d.groups.rollback t
    memberships := d.memberships.rollback t
    purged := d.purged.rollback t
    locks := d.locks.release t
    answers := d.answers ++ answers }

/-- `counts_tx`. -/
def counts (d : Data) (t : Sess) (g : Uuid) : Counts where
  rows := (d.memberships.select t (fun k _ => k.1 == g)).length
  members := (d.memberships.select t (fun k row => k.1 == g && decide row.IsMember)).length
  admins := (d.memberships.select t (fun k row => k.1 == g && decide row.IsAdmin)).length

/-- `visible_role_tx` finds an admin. -/
def Administers (d : Data) (t : Sess) (g p : Uuid) : Prop :=
  (d.memberships.view t (g, p)).any (fun row => decide row.IsAdmin) = true

instance (d : Data) (t : Sess) (g p : Uuid) : Decidable (d.Administers t g p) :=
  inferInstanceAs (Decidable (_ = true))

/-- The pool read in front of the transaction of `invite`. -/
def Previewed (d : Data) : Input → Prop
  | .invite me group _ _ =>
    (d.memberships.committed (group.id, me.id)).any (fun row => decide row.IsAdmin) = true
  | _ => True

instance (d : Data) (i : Input) : Decidable (d.Previewed i) := by
  cases i <;> dsimp only [Previewed] <;> infer_instance

/-- The insert of a membership is possible. -/
def Insertable (d : Data) (t : Sess) (k : Uuid × Uuid) : Prop :=
  d.memberships.Free t k ∧ d.memberships.committed k = none

instance (d : Data) (t : Sess) (k : Uuid × Uuid) : Decidable (d.Insertable t k) :=
  inferInstanceAs (Decidable (_ ∧ _))

/-- The insert does nothing: the pair has a row. -/
def Conflicting (d : Data) (t : Sess) (k : Uuid × Uuid) : Prop :=
  d.memberships.Settled t k ∧ d.memberships.committed k ≠ none

instance (d : Data) (t : Sess) (k : Uuid × Uuid) : Decidable (d.Conflicting t k) :=
  inferInstanceAs (Decidable (_ ∧ _))

/-- `STALE_BATCH_SQL`: the pending rows that the retention sweep deletes next. -/
def stale (d : Data) (t : Sess) (pr : Prune) : List (Uuid × Uuid) :=
  (((d.memberships.select t (fun _ row =>
    (row.state == .invited || row.state == .requested) &&
      decide (row.createdAt < pr.now - pr.retentionDays * dayMicros) &&
        pr.watermark.all (fun floor => decide (floor ≤ row.createdAt)))).filter
    (fun k => d.memberships.Free t k)).insertionSort (fun k k' =>
      ((d.memberships.view t k).map MemberRow.createdAt).getD 0 ≤
        ((d.memberships.view t k').map MemberRow.createdAt).getD 0)).take pruneBatch

/-- The changes of that statement. -/
def expired (d : Data) (t : Sess) (pr : Prune) : List Change :=
  (d.stale t pr).filterMap (fun k => (d.memberships.view t k).map (expiry k))

/-- The highest `created_at` of the batch. -/
def high (d : Data) (t : Sess) (pr : Prune) : Option Int :=
  ((d.stale t pr).filterMap (fun k => (d.memberships.view t k).map MemberRow.createdAt)).max?

/-- The tombstones that the selection of a sweep claims. -/
def claims (d : Data) (t : Sess) (sw : Sweep) : List (Uuid × Tombstone) :=
  Tombstone.claims d.purged t sw.watermark purgeBatch

/-- `player_groups_tx`. -/
def playerGroups (d : Data) (t : Sess) (p : Uuid) (limit : Nat) : List Uuid :=
  (((d.memberships.select t (fun k _ => k.2 == p)).map Prod.fst).insertionSort
    (fun g g' => g.value ≤ g'.value)).take limit

/-- The answer of a transaction that is rolled back at a program point because of
what its statement has found. -/
def refused (d : Data) (t : Sess) : Pc → Option (List Answer)
  | .create c _ .opened =>
    if (d.purged.view t c.me.id).isSome then
      some [.created c (refusedWith playerDeleted)]
    else
      none
  | .create c _ (.grouped id) =>
    if d.Conflicting t (id, c.me.id) then
      some [.created c (refusedWith
        (Error.internal "freshly created group already had a member row"))]
    else
      none
  | .op x .locked =>
    match x.call.op with
    | .join _ =>
      if (d.purged.view t x.call.subject.id).isSome then
        some [.called x.call (refusedWith playerDeleted)]
      else
        none
    | .invite me | .decide me _ =>
      if d.Administers t x.call.group.id me then
        none
      else
        some [.called x.call (refusedWith notFound)]
    | .promote =>
      if (d.groups.view t x.call.group.id).isSome then
        none
      else
        some [.called x.call (.error (.rejection .stale))]
    | .leave | .respond _ =>
      match x.call.verdict x.groupName (d.memberships.view t x.call.key) with
      | .error outcome => some [.called x.call outcome]
      | .ok _ => none
  | .op x .cleared =>
    match d.groups.view t x.call.group.id with
    | none => some [.called x.call (refusedWith notFound)]
    | some row =>
      if row.joinPolicy = .joinInvite then
        some [.called x.call (refusedWith invitationOnly)]
      else
        none
  | .op x .authorized =>
    match x.call.verdict x.groupName (d.memberships.view t x.call.key) with
    | .error outcome => some [.called x.call outcome]
    | .ok _ => none
  | .op x (.placed _ _) =>
    if maxMembers ≤ (d.counts t x.call.group.id).rows then
      some [.called x.call (refusedWith groupFull)]
    else
      none
  | .op x (.roomy _ _) =>
    if d.Conflicting t x.call.key then some [.called x.call x.call.related] else none
  | .op x (.found _) =>
    if (d.memberships.committed x.call.key).bind x.call.change = none then
      some [.called x.call x.call.vanished]
    else
      none
  | .exit (.leave x row) .locked _ =>
    if (Host.leave x row).Refuses (d.counts t x.call.group.id) then
      some [.called x.call (refusedWith lastAdmin)]
    else
      none
  | .exit (.leave x _) (.weighed _) _ =>
    if d.memberships.view t x.call.key = none then
      some [.called x.call x.call.vanished]
    else
      none
  | _ => none

end Data

/-- The membership that `join` gets under a policy. -/
def JoinPolicy.admits : JoinPolicy → Option (MemberState × Role)
  | .joinOpen => some (.member, .member)
  | .joinRequest => some (.requested, .empty)
  | .joinInvite => none

/-- What the statement that deletes the rows of a group adds when it reaches `k`. -/
def Data.dissolves (d : Data) (t : Sess) (g : Uuid) (k : Uuid × Uuid) : List Change :=
  match d.memberships.view t k with
  | some row => if k.1 = g then [dissolution k row] else []
  | none => []

end Data

section Statements

inductive Act
  -- the calls that do not reach a transaction
  | reject (i : Input) (e : Error)
  | previewMiss (i : Input)
  -- create
  | createOpen (i : Input) (c : Create) (now : Int)
  | createClear (c : Create) (now : Int)
  | insertGroup (c : Create) (now : Int) (id : Uuid)
  | insertCreator (c : Create) (now : Int) (id : Uuid)
  -- the calls on an existing group
  | callOpen (i : Input) (c : Call) (now : Int)
  | lockGroup (x : Tx)
  | checkTombstone (x : Tx)
  | readPolicy (x : Tx) (policy : JoinPolicy) (state : MemberState) (role : Role)
  | authorizeInvite (x : Tx) (me : Uuid)
  | authorizeDecide (x : Tx) (me : Uuid) (d : Decision)
  | nameGroup (x : Tx) (row : GroupRow)
  | countRows (x : Tx) (state : MemberState) (role : Role)
  | insertMember (x : Tx) (state : MemberState) (role : Role)
  | findRow (x : Tx) (row : MemberRow)
  | writeRow (x : Tx) (seen row : MemberRow) (ch : Change)
  -- the end of a membership
  | leaveRow (x : Tx) (row : MemberRow)
  | weigh (h : Host)
  | deleteRow (h : Host) (counts : Counts) (row : MemberRow)
  | deleteMiss (h : Host) (counts : Counts)
  | scanRows (h : Host) (cs : List Change)
  | dissolveRow (h : Host) (todo : List (Uuid × Uuid)) (cs : List Change) (k : Uuid × Uuid)
  | deleteGroup (h : Host) (cs : List Change)
  -- the retention sweep
  | pruneOpen (now retentionDays : Int)
  | pruneBatch (pr : Prune) (spent : Bool)
  -- the tombstone
  | plant (p : Uuid) (handle : String)
  | plantConflict (p : Uuid)
  -- the purge sweep
  | sweepOpen
  | sweepSelect (sw : Sweep)
  | sweepPlayer (sw : Sweep)
  | sweepCap (sw : Sweep)
  | sweepList (sw : Sweep) (p : Uuid) (tomb : Tombstone) (rest : List (Uuid × Tombstone))
  | sweepLock (sw : Sweep) (p : Uuid) (tomb : Tombstone) (rest : List (Uuid × Tombstone))
      (g : Uuid) (todo : List Uuid)
  | sweepRelease (sw : Sweep) (g p : Uuid) (todo : List Uuid) (gone : Bool) (cs : List Change)
      (spent : Bool)
  | sweepSkip (sw : Sweep) (p : Uuid) (tomb : Tombstone) (rest : List (Uuid × Tombstone))
      (groups : List Uuid) (spent : Bool)
  | sweepAbort (sw : Sweep) (g p : Uuid) (todo : List Uuid) (tomb : Tombstone)
      (rest : List (Uuid × Tombstone)) (st : Exit) (cs : List Change) (spent : Bool)
  | sweepStamp (sw : Sweep) (p : Uuid) (tomb : Tombstone) (rest : List (Uuid × Tombstone))
      (spent : Bool)
  | sweepMore (sw : Sweep)
  | sweepEnd (sw : Sweep)
  -- the ends of transactions
  | commit (pc : Pc) (answers : List Answer)
  | refuse (pc : Pc) (answers : List Answer)
  | fail (pc : Pc) (msg : String)

/-- The sweep goes on to the next player, or ends because its budget is spent. -/
def SweepStage.onward (spent : Bool) : SweepStage := if spent then .finished else .next

/-- The sweep after it has left the player `p` without a stamp. -/
def Sweep.skip (sw : Sweep) (p : Uuid) (tomb : Tombstone) (rest : List (Uuid × Tombstone)) :
    Sweep :=
  { sw with watermark := p, claimed := rest, skipped := (p, tomb) :: sw.skipped }

/-- The sweep after it has released the savepoint of the group `g`. -/
def Sweep.release (sw : Sweep) (g : Uuid) (gone : Bool) (cs : List Change) : Sweep :=
  { sw with
    slots := sw.slots - 1
    removed := sw.removed ++ cs
    dissolved := sw.dissolved ++ (Exit.done gone).gone g
    locked := sw.locked ++ [groupLockKey g.text] }

def stmt (t : Sess) : Act → Stmt Data Pc
  | .reject i e =>
    { before := .idle
      guard := fun d => i.check = .error e ∨
        (i.check = .ok () ∧ d.Previewed i ∧ i.validated = .error e)
      after := fun _ => .idle
      change := fun d => { d with answers := d.answers ++ [.rejected i e] } }
  | .previewMiss i =>
    { before := .idle
      guard := fun d => i.check = .ok () ∧ ¬ d.Previewed i
      after := fun _ => .idle
      change := fun d => { d with answers := d.answers ++ [.rejected i notFound] } }
  | .createOpen i c now =>
    { before := .idle
      guard := fun _ => i.validated = .ok (.inl c)
      after := fun _ => .create c now .opened }
  | .createClear c now =>
    { before := .create c now .opened
      guard := fun d => d.purged.view t c.me.id = none
      after := fun _ => .create c now .cleared }
  | .insertGroup c now id =>
    { before := .create c now .cleared
      guard := fun d => id ∉ d.uuids ∧ d.groups.Free t id ∧ d.groups.committed id = none
      after := fun _ => .create c now (.grouped id)
      change := fun d =>
        { d with groups := d.groups.write t id (some c.row), uuids := id :: d.uuids } }
  | .insertCreator c now id =>
    { before := .create c now (.grouped id)
      guard := fun d => d.Insertable t (id, c.me.id)
      after := fun _ => .create c now (.written id)
      change := fun d =>
        { d with
          memberships := d.memberships.write t (id, c.me.id) (c.admission id now).new } }
  | .callOpen i c now =>
    { before := .idle
      guard := fun d => i.check = .ok () ∧ d.Previewed i ∧ i.validated = .ok (.inr c)
      after := fun _ => .op ⟨c, now, ""⟩ .opened }
  | .lockGroup x =>
    { before := .op x .opened
      guard := fun d => d.locks.Takeable t x.call.lockKey
      after := fun _ => .op x .locked
      change := fun d => { d with locks := d.locks.take t x.call.lockKey } }
  | .checkTombstone x =>
    { before := .op x .locked
      guard := fun d => x.call.op.joins = true ∧ d.purged.view t x.call.subject.id = none
      after := fun _ => .op x .cleared }
  | .readPolicy x policy state role =>
    { before := .op x .cleared
      guard := fun d => (d.groups.view t x.call.group.id).map GroupRow.joinPolicy = some policy ∧
        policy.admits = some (state, role)
      after := fun _ => .op x (.placed state role) }
  | .authorizeInvite x me =>
    { before := .op x .locked
      guard := fun d => x.call.op = .invite me ∧ d.Administers t x.call.group.id me
      after := fun _ => .op x (.placed .invited .empty) }
  | .authorizeDecide x me dec =>
    { before := .op x .locked
      guard := fun d => x.call.op = .decide me dec ∧ d.Administers t x.call.group.id me
      after := fun _ => .op x .authorized }
  | .nameGroup x row =>
    { before := .op x .locked
      guard := fun d => x.call.op = .promote ∧ d.groups.view t x.call.group.id = some row
      after := fun _ => .op { x with groupName := row.name } .authorized }
  | .countRows x state role =>
    { before := .op x (.placed state role)
      guard := fun d => (d.counts t x.call.group.id).rows < maxMembers
      after := fun _ => .op x (.roomy state role) }
  | .insertMember x state role =>
    { before := .op x (.roomy state role)
      guard := fun d => d.Insertable t x.call.key
      after := fun _ => .op x (.written (x.call.admission state role x.now))
      change := fun d =>
        { d with
          memberships := d.memberships.write t x.call.key
            (x.call.admission state role x.now).new } }
  | .findRow x row =>
    { before := .op x x.call.op.findStage
      guard := fun d => x.call.op.seeks = true ∧
        x.call.verdict x.groupName (d.memberships.view t x.call.key) = .ok row
      after := fun _ => .op x (.found row) }
  | .writeRow x seen row ch =>
    { before := .op x (.found seen)
      guard := fun d => d.memberships.Free t x.call.key ∧
        d.memberships.committed x.call.key = some row ∧ x.call.change row = some ch
      after := fun _ => .op x (.written ch)
      change := fun d => { d with memberships := d.memberships.write t x.call.key ch.new } }
  | .leaveRow x row =>
    { before := .op x .locked
      guard := fun d => x.call.op = .leave ∧ d.memberships.view t x.call.key = some row
      after := fun _ => .exit (.leave x row) .locked [] }
  | .weigh h =>
    { before := .exit h .locked []
      guard := fun d => ¬ h.Refuses (d.counts t h.key.1)
      after := fun d => .exit h (.weighed (d.counts t h.key.1)) [] }
  | .deleteRow h counts row =>
    { before := .exit h (.weighed counts) []
      guard := fun d => d.memberships.Free t h.key ∧ d.memberships.view t h.key = some row
      after := fun _ => .exit h (if h.Dissolves row counts then .emptying else .done false)
        [h.removal row]
      change := fun d => { d with memberships := d.memberships.write t h.key none } }
  | .deleteMiss h counts =>
    { before := .exit h (.weighed counts) []
      guard := fun d => h.sweeps = true ∧ d.memberships.view t h.key = none
      after := fun _ => .exit h (.done false) [] }
  | .scanRows h cs =>
    { before := .exit h .emptying cs
      after := fun d => .exit h
        (.dissolving (d.memberships.select t (fun k _ => k.1 == h.key.1))) cs }
  | .dissolveRow h todo cs k =>
    { before := .exit h (.dissolving todo) cs
      guard := fun d => k ∈ todo ∧ d.memberships.Free t k
      after := fun d => .exit h (.dissolving (todo.erase k)) (cs ++ d.dissolves t h.key.1 k)
      change := fun d =>
        { d with memberships := d.memberships.deleteWhere t (fun k _ => k.1 == h.key.1) k } }
  | .deleteGroup h cs =>
    { before := .exit h (.dissolving []) cs
      guard := fun d => d.groups.Free t h.key.1
      after := fun d => .exit h (.done (d.groups.view t h.key.1).isSome) cs
      change := fun d => { d with groups := d.groups.deleteWhere t (fun _ _ => true) h.key.1 } }
  | .pruneOpen now retentionDays =>
    { before := .idle
      after := fun _ => .prune ⟨now, retentionDays, none, []⟩ .selecting }
  | .pruneBatch pr spent =>
    { before := .prune pr .selecting
      after := fun d => .prune
        { pr with
          watermark := (d.high t pr).or pr.watermark
          removed := pr.removed ++ d.expired t pr }
        (if (d.stale t pr).length < pruneBatch ∨ spent = true then .finished else .selecting)
      change := fun d => { d with memberships := d.memberships.eraseAll t (d.stale t pr) } }
  | .plant p handle =>
    { before := .idle
      guard := fun d => d.purged.Free t p ∧ d.purged.committed p = none
      after := fun _ => .planted (some (p, .planted handle))
      change := fun d => { d with purged := d.purged.write t p (some (.planted handle)) } }
  | .plantConflict p =>
    { before := .idle
      guard := fun d => d.purged.Settled t p ∧ d.purged.committed p ≠ none
      after := fun _ => .planted none }
  | .sweepOpen =>
    { before := .idle
      after := fun _ => .sweep .first .selecting }
  | .sweepSelect sw =>
    { before := .sweep sw .selecting
      after := fun d => .sweep
        { sw with size := (d.claims t sw).length, claimed := d.claims t sw } .next
      change := fun d => { d with purged := d.purged.lockAll t ((d.claims t sw).map Prod.fst) } }
  | .sweepPlayer sw =>
    { before := .sweep sw .next
      guard := fun _ => sw.claimed ≠ []
      after := fun _ => .sweep sw .listing }
  | .sweepCap sw =>
    { before := .sweep sw .listing
      guard := fun _ => sw.slots = 0
      after := fun _ => .sweep sw .finished }
  | .sweepList sw p tomb rest =>
    { before := .sweep sw .listing
      guard := fun _ => sw.claimed = (p, tomb) :: rest ∧ sw.slots ≠ 0
      after := fun d => .sweep sw
        (if d.playerGroups t p sw.slots = [] then .purged
          else .walking (d.playerGroups t p sw.slots)) }
  | .sweepLock sw p tomb rest g todo =>
    { before := .sweep sw (.walking (g :: todo))
      guard := fun d => sw.claimed = (p, tomb) :: rest ∧ d.locks.Takeable t (groupLockKey g.text)
      after := fun _ => .exit (.sweep sw g p todo) .locked []
      change := fun d => { d with locks := d.locks.take t (groupLockKey g.text) } }
  | .sweepRelease sw g p todo gone cs spent =>
    { before := .exit (.sweep sw g p todo) (.done gone) cs
      after := fun _ => .sweep (sw.release g gone cs)
        (if spent = true then .finished else if todo = [] then .listing else .walking todo) }
  | .sweepSkip sw p tomb rest groups spent =>
    { before := .sweep sw (.walking groups)
      guard := fun _ => sw.claimed = (p, tomb) :: rest
      after := fun _ => .sweep (sw.skip p tomb rest) (.onward spent) }
  | .sweepAbort sw g p todo tomb rest st cs spent =>
    { before := .exit (.sweep sw g p todo) st cs
      guard := fun _ => sw.claimed = (p, tomb) :: rest
      after := fun _ => .sweep (sw.skip p tomb rest) (.onward spent)
      change := fun d =>
        { d with
          memberships := d.memberships.restore t (cs.map Pg.Change.key)
          groups := d.groups.restore t (st.gone g)
          locks := d.locks.keep t sw.locked } }
  | .sweepStamp sw p tomb rest spent =>
    { before := .sweep sw .purged
      guard := fun _ => sw.claimed = (p, tomb) :: rest
      after := fun _ => .sweep
        { sw with
          watermark := p
          claimed := rest
          skipped := sw.skipped.filter (fun c => c.1 ≠ p)
          stamped := sw.stamped ++ [(p, tomb)] }
        (.onward spent)
      change := fun d => { d with purged := d.purged.write t p (some tomb.stamp) } }
  | .sweepMore sw =>
    { before := .sweep sw .next
      guard := fun _ => sw.claimed = [] ∧ purgeBatch ≤ sw.size
      after := fun _ => .sweep sw .selecting }
  | .sweepEnd sw =>
    { before := .sweep sw .next
      guard := fun _ => sw.claimed = [] ∧ sw.size < purgeBatch
      after := fun _ => .sweep sw .finished }
  | .commit pc answers =>
    { before := pc
      guard := fun _ => pc.result = some answers
      after := fun _ => .idle
      change := fun d => d.commit t pc.changes answers }
  | .refuse pc answers =>
    { before := pc
      guard := fun d => d.refused t pc = some answers
      after := fun _ => .idle
      change := fun d => d.rollback t answers }
  | .fail pc msg =>
    { before := pc
      guard := fun _ => pc ≠ .idle
      after := fun _ => .idle
      change := fun d => d.rollback t (pc.failure msg) }

instance (t : Sess) (a : Act) (d : Data) : Decidable ((stmt t a).guard d) := by
  cases a <;> dsimp only [stmt] <;> infer_instance

def programs : Programs Data Pc Act where
  data := Data.start
  idle := .idle
  stmt := stmt

/-- The groups service. -/
def system : TransitionSystem (World Data Pc) (Sess × Act) := programs.system

instance (w : World Data Pc) (a : Sess × Act) : Decidable (system.enabled w a) :=
  inferInstanceAs (Decidable (_ ∧ (stmt a.1 a.2).guard w.data))

end Statements

end Swarog.Groups
