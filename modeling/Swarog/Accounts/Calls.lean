import Swarog.Accounts.Schema
import Swarog.Pg.Advisory
import Swarog.Pg.ForeignKey

/-!
# Calls and statements of the accounts service

Logins, links, refreshes, deletions and the daily prune are transactions of
Postgres sessions on the tables of the service.  This module has the calls, the
program points inside their transactions, the shared state, and the labels: one
label is one statement of one session, or its `COMMIT` or `ROLLBACK`, together
with what the statement observed.

`now` of a call is the start of its transaction, which is what `now()` means in
each of its statements.

`born`, `families`, `rotations`, `revoked` and `answers` are history: the players
and the refresh families in commit order, the rotations and the revocations that
committed, and what the calls returned.
-/

namespace Swarog.Accounts

open Pg

section Calls

/-- The three ways to a new session. -/
inductive LoginPath
  | external
  | register
  | password
deriving DecidableEq

/-- A call of `external_login`, `register` or `login`; for the latter two the
provider is `dev` and the subject is the e-mail address.  What the database makes of the
display name with `lower` is left open. -/
structure Login where
  path : LoginPath
  now : Nat
  provider : String
  subject : String
  displayName : String
  lowered : String
deriving DecidableEq

def Login.key (l : Login) : String × String := (l.provider, l.subject)

/-- The player row of a first login. -/
def Login.player (l : Login) (discriminator : String) : PlayerRow :=
  ⟨l.displayName, l.lowered, discriminator⟩

/-- The error of a unique violation on the identity. -/
def Login.taken (l : Login) : Error :=
  match l.path with
  | .register => emailTaken
  | _ => identityTakenUnderLock

/-- A call of `link_identity`. -/
structure Link where
  player : Uuid
  provider : String
  subject : String
deriving DecidableEq

def Link.key (k : Link) : String × String := (k.provider, k.subject)

/-- What a link attempt did. -/
inductive LinkOutcome
  | linked
  | alreadyLinked
deriving DecidableEq

/-- A call of `refresh` with the successor it has drawn. -/
structure Refresh where
  now : Nat
  token : String
  successor : String
deriving DecidableEq

/-- A call of `delete_account`; `late` says whether the player had been deleted
when it began. -/
structure Delete where
  now : Nat
  player : Uuid
  ticket : String
  late : Bool
deriving DecidableEq

/-- The receipt that a deletion writes. -/
def Delete.receipt (d : Delete) (row : PlayerRow) : ReceiptRow := ⟨row.handle, d.ticket, d.now⟩

/-- What a call returned. -/
inductive Answer
  | login (l : Login) (result : Except Error (Session × Bool))
  | link (k : Link) (result : Except Error LinkOutcome)
  | refresh (token : String) (result : Except Error Session)
  | beginDelete (player : Uuid) (result : Except Error TicketRow)
  | delete (d : Delete) (result : Except Error DeleteReceipt)
deriving DecidableEq

end Calls

section ProgramPoints

/-- Progress of a login.  `created` is the discriminator of a player that the
login has created. -/
inductive LoginStage
  | opened
  | locked
  | minting (tries : Nat)
  | claimed (id : Uuid) (discriminator : String)
  | inserted (id : Uuid) (discriminator : String)
  | identified (id : Uuid) (discriminator : String)
  | issuing (id : Uuid) (created : Option String)
  | issued (id : Uuid) (created : Option String) (family : Uuid) (refreshToken : String)
  | complete (id : Uuid) (created : Option String) (family : Uuid) (refreshToken token : String)
deriving DecidableEq

/-- Progress of a link. -/
inductive LinkStage
  | opened
  | playerLocked
  | locked
  | read (hadReal : Bool)
  | absent (hadReal : Bool)
  | inserted (hadReal : Bool)
  | complete (outcome : LinkOutcome) (promoted : Bool)
deriving DecidableEq

/-- Progress of a refresh.  `continuing` and `answered` are shared by rotations
and grace replays. -/
inductive RefreshStage
  | opened
  | missed
  | rotated (row : TokenRow)
  | continuing (row : TokenRow) (successor : String) (rotated : Bool)
  | answered (row : TokenRow) (successor : String) (rotated : Bool) (token : String)
  | revoking (family : Uuid)
  | killing (family : Uuid) (todo : List String)
  | killingSessions (family : Uuid) (todo : List String)
  | denied
deriving DecidableEq

/-- Progress of a deletion. -/
inductive DeleteStage
  | opened
  | locked
  | missed
  | replaying (row : ReceiptRow)
  | consumed
  | named (row : PlayerRow)
  | reserved (row : PlayerRow)
  | receipted (row : PlayerRow)
  | erased (row : PlayerRow)
  | emitted (row : PlayerRow)
deriving DecidableEq

/-- Progress of the prune. -/
inductive PruneStage
  | opened
  | sessions (todo : List String)
  | tokens (todo : List String)
  | tickets (todo : List Uuid)
deriving DecidableEq

inductive Pc
  | idle
  | login (l : Login) (st : LoginStage)
  | link (k : Link) (st : LinkStage)
  | refresh (r : Refresh) (st : RefreshStage)
  | delete (d : Delete) (st : DeleteStage)
  | prune (now : Nat) (st : PruneStage)
deriving DecidableEq

/-- What the call of a session returns if it ends with an error. -/
def Pc.refusal (e : Error) : Pc → Option Answer
  | .login l _ => some (.login l (.error e))
  | .link k _ => some (.link k (.error e))
  | .refresh r _ => some (.refresh r.token (.error e))
  | .delete d _ => some (.delete d (.error e))
  | _ => none

end ProgramPoints

section States

/-- A player that was created, with its first identity. -/
structure Birth where
  player : Uuid
  row : PlayerRow
  key : String × String
deriving DecidableEq

/-- The `player.registered` of a birth. -/
def Birth.event (b : Birth) : Event := .registered b.player b.row.displayName b.key.1

/-- A refresh family as it was born. -/
structure Family where
  id : Uuid
  player : Uuid
  expiresAt : Nat
deriving DecidableEq

/-- A rotation that committed. -/
structure Rotation where
  token : String
  successor : String
  player : Uuid
deriving DecidableEq

/-- The shared state of the service. -/
structure State where
  players : Table Uuid Sess PlayerRow
  handles : Table (String × String) Sess HandleRow
  tickets : Table Uuid Sess TicketRow
  receipts : Table Uuid Sess ReceiptRow
  identities : Table (String × String) Sess IdentityRow
  sessions : Table String Sess SessionRow
  refreshTokens : Table String Sess TokenRow
  locks : Locks
  clock : Nat
  uuids : List Uuid
  tokens : List String
  started : List Sess
  pc : Sess → Pc
  events : List Event
  born : List Birth
  families : List Family
  rotations : List Rotation
  revoked : List Uuid
  answers : List Answer

/-- The service after its schema was created. -/
def State.start : State where
  players := Table.empty
  handles := Table.empty
  tickets := Table.empty
  receipts := Table.empty
  identities := Table.empty
  sessions := Table.empty
  refreshTokens := Table.empty
  locks := Locks.free
  clock := 0
  uuids := []
  tokens := []
  started := []
  pc := fun _ => .idle
  events := []
  born := []
  families := []
  rotations := []
  revoked := []
  answers := []

namespace State

/-- The player an identity maps to. -/
def playerByIdentity (s : State) (key : String × String) : Option Uuid :=
  (s.identities.committed key).bind (fun row =>
    if s.players.committed row.player = none then none else some row.player)

/-- `p` holds an identity of a provider other than `guest`. -/
def hasRealIdentity (s : State) (p : Uuid) : Bool :=
  s.identities.keys.any (fun key =>
    key.1 != guest && (s.identities.committed key).any (fun row => row.player == p))

/-- What the presented token earns once its rotation has missed. -/
def verdict (s : State) (r : Refresh) : RefreshVerdict :=
  classifyPresentation none ((s.refreshTokens.committed r.token).map (fun row => row.facts r.now))

/-- `accounts_handle_idx` accepts the row of `id`. -/
def IndexAccepts (s : State) (id : Uuid) (row : PlayerRow) : Prop :=
  ∀ q ∈ s.players.keys, q ≠ id →
    (s.players.committed q).any (fun r => r.pair == row.pair) = false ∧
      (s.players.pending q).any (fun held => held.2.any (fun r => r.pair == row.pair)) = false

instance (s : State) (id : Uuid) (row : PlayerRow) : Decidable (s.IndexAccepts id row) :=
  inferInstanceAs (Decidable (∀ q ∈ s.players.keys, _))

/-- The row that the `UPDATE` of a rotation looks for. -/
def rotatable (r : Refresh) (row : TokenRow) : Bool :=
  row.usedAt.isNone && decide (r.now < row.expiresAt)

/-- The row that the `DELETE` of a delete ticket looks for. -/
def consumable (d : Delete) (row : TicketRow) : Bool :=
  row.ticket == d.ticket && decide (d.now < row.expiresAt)

/-- The ticket that `begin_delete` leaves behind. -/
def upsertTicket (s : State) (p : Uuid) (ticket : String) : TicketRow :=
  match s.tickets.committed p with
  | none => ⟨ticket, s.clock + deleteTicketTtlMinutes * 60⟩
  | some row =>
    if s.clock < row.expiresAt then row
    else ⟨ticket, s.clock + deleteTicketTtlMinutes * 60⟩

/-- The refusal with which the next statement of a session ends its call, if it
has one. -/
def rejection (s : State) (t : Sess) : Pc → Option Error
  | .login _ (.minting tries) => if tries = handleMintAttempts then some handleExhausted else none
  | .login l (.inserted _ _) =>
    if s.identities.Free t l.key ∧ s.identities.committed l.key ≠ none then some l.taken
    else none
  | .link k (.read _) =>
    match s.playerByIdentity k.key with
    | none => none
    | some p => if p = k.player then none else some identityLinkedElsewhere
  | .link k (.absent _) =>
    if s.identities.Free t k.key ∧ s.identities.committed k.key ≠ none then
      some identityLinkedElsewhere
    else none
  | .delete d .missed =>
    if (s.receipts.committed d.player).any (fun row => row.ticket == d.ticket) then none
    else some ticketNotFound
  | .delete d .consumed => if s.players.view t d.player = none then some ticketNotFound else none
  | .delete d (.receipted _) =>
    if s.players.view t d.player = none then some ticketNotFound else none
  | _ => none

end State

/-- The owners of the child rows. -/
def identityOwner (_ : String × String) (row : IdentityRow) : Uuid := row.player
def sessionOwner (_ : String) (row : SessionRow) : Uuid := row.player
def tokenOwner (_ : String) (row : TokenRow) : Uuid := row.player
def ticketOwner (p : Uuid) (_ : TicketRow) : Uuid := p

end States

section Labels

/-- The steps of the service. -/
inductive Act
  | tick (seconds : Nat)
  -- a login
  | loginOpen (t : Sess) (l : Login)
  | registerOpen (t : Sess) (l : Login)
  | passwordLogin (t : Sess) (l : Login) (id : Uuid)
  | loginLock (t : Sess) (l : Login)
  | loginFound (t : Sess) (l : Login) (id : Uuid)
  | loginAbsent (t : Sess) (l : Login)
  | claimHandle (t : Sess) (l : Login) (tries draw : Nat) (id : Uuid)
  | claimTaken (t : Sess) (l : Login) (tries draw : Nat)
  | insertPlayer (t : Sess) (l : Login) (id : Uuid) (discriminator : String)
  | insertIdentity (t : Sess) (l : Login) (id : Uuid) (discriminator : String)
  | emitRegistered (t : Sess) (l : Login) (id : Uuid) (discriminator : String)
  | insertFamily (t : Sess) (l : Login) (id : Uuid) (created : Option String) (family : Uuid)
      (refreshToken : String)
  | insertSession (t : Sess) (l : Login) (id : Uuid) (created : Option String) (family : Uuid)
      (refreshToken token : String)
  | commitLogin (t : Sess) (l : Login) (id : Uuid) (created : Option String) (family : Uuid)
      (refreshToken token : String)
  -- a link
  | linkOpen (t : Sess) (k : Link)
  | lockPlayer (t : Sess) (k : Link)
  | lockIdentity (t : Sess) (k : Link)
  | readReal (t : Sess) (k : Link)
  | linkAlready (t : Sess) (k : Link) (hadReal : Bool)
  | linkAbsent (t : Sess) (k : Link) (hadReal : Bool)
  | linkInsert (t : Sess) (k : Link) (hadReal : Bool)
  | linkEmit (t : Sess) (k : Link) (hadReal : Bool)
  | commitLink (t : Sess) (k : Link) (outcome : LinkOutcome) (promoted : Bool)
  -- a refresh
  | refuseToken (token : String)
  | refreshOpen (t : Sess) (r : Refresh)
  | rotate (t : Sess) (r : Refresh) (row : TokenRow)
  | rotateMiss (t : Sess) (r : Refresh)
  | graceReplay (t : Sess) (r : Refresh) (row : TokenRow) (successor : String)
  | revoke (t : Sess) (r : Refresh) (family : Uuid)
  | deny (t : Sess) (r : Refresh)
  | insertSuccessor (t : Sess) (r : Refresh) (row : TokenRow)
  | insertAccess (t : Sess) (r : Refresh) (row : TokenRow) (successor : String) (rotated : Bool)
      (token : String)
  | commitRefresh (t : Sess) (r : Refresh) (row : TokenRow) (successor : String)
      (rotated : Bool) (token : String)
  | killTokens (t : Sess) (r : Refresh) (family : Uuid)
  | killToken (t : Sess) (r : Refresh) (family : Uuid) (todo : List String) (token : String)
  | killSessions (t : Sess) (r : Refresh) (family : Uuid)
  | killSession (t : Sess) (r : Refresh) (family : Uuid) (todo : List String) (token : String)
  | commitRevoke (t : Sess) (r : Refresh) (family : Uuid)
  | commitDeny (t : Sess) (r : Refresh)
  -- a deletion
  | beginDelete (p : Uuid) (ticket : String)
  | beginMiss (p : Uuid)
  | refuseTicket (d : Delete)
  | deleteOpen (t : Sess) (d : Delete)
  | deleteLock (t : Sess) (d : Delete)
  | consume (t : Sess) (d : Delete) (row : TicketRow)
  | consumeMiss (t : Sess) (d : Delete)
  | readReceipt (t : Sess) (d : Delete) (row : ReceiptRow)
  | readHandle (t : Sess) (d : Delete) (row : PlayerRow)
  | reserveHandle (t : Sess) (d : Delete) (row : PlayerRow)
  | insertReceipt (t : Sess) (d : Delete) (row : PlayerRow)
  | deletePlayer (t : Sess) (d : Delete) (row : PlayerRow)
  | emitDeleted (t : Sess) (d : Delete) (row : PlayerRow)
  | commitDelete (t : Sess) (d : Delete) (row : PlayerRow)
  | replayReceipt (t : Sess) (d : Delete) (row : ReceiptRow)
  -- the prune
  | pruneOpen (t : Sess) (now : Nat)
  | pruneSessions (t : Sess) (now : Nat)
  | pruneSession (t : Sess) (now : Nat) (todo : List String) (token : String)
  | pruneTokens (t : Sess) (now : Nat)
  | pruneToken (t : Sess) (now : Nat) (todo : List String) (token : String)
  | pruneTickets (t : Sess) (now : Nat)
  | pruneTicket (t : Sess) (now : Nat) (todo : List Uuid) (p : Uuid)
  | commitPrune (t : Sess) (now : Nat)
  -- the other ends
  | refuse (t : Sess) (pc : Pc) (e : Error)
  | fail (t : Sess) (pc : Pc) (msg : String)
deriving DecidableEq

/-- The session of a step. -/
def Act.actor : Act → Option Sess
  | .tick _ | .refuseToken _ | .beginDelete _ _ | .beginMiss _ | .refuseTicket _ => none
  | .loginOpen t _ | .registerOpen t _ | .passwordLogin t _ _ | .loginLock t _ | .loginFound t _ _
  | .loginAbsent t _ | .claimHandle t _ _ _ _ | .claimTaken t _ _ _ | .insertPlayer t _ _ _
  | .insertIdentity t _ _ _ | .emitRegistered t _ _ _ | .insertFamily t _ _ _ _ _
  | .insertSession t _ _ _ _ _ _ | .commitLogin t _ _ _ _ _ _ | .linkOpen t _
  | .lockPlayer t _ | .lockIdentity t _ | .readReal t _ | .linkAlready t _ _
  | .linkAbsent t _ _ | .linkInsert t _ _ | .linkEmit t _ _ | .commitLink t _ _ _
  | .refreshOpen t _ | .rotate t _ _ | .rotateMiss t _ | .graceReplay t _ _ _
  | .revoke t _ _ | .deny t _ | .insertSuccessor t _ _ | .insertAccess t _ _ _ _ _
  | .commitRefresh t _ _ _ _ _ | .killTokens t _ _ | .killToken t _ _ _ _
  | .killSessions t _ _ | .killSession t _ _ _ _ | .commitRevoke t _ _ | .commitDeny t _
  | .deleteOpen t _ | .deleteLock t _ | .consume t _ _ | .consumeMiss t _
  | .readReceipt t _ _ | .readHandle t _ _ | .reserveHandle t _ _ | .insertReceipt t _ _
  | .deletePlayer t _ _ | .emitDeleted t _ _ | .commitDelete t _ _ | .replayReceipt t _ _
  | .pruneOpen t _ | .pruneSessions t _ | .pruneSession t _ _ _ | .pruneTokens t _
  | .pruneToken t _ _ _ | .pruneTickets t _ | .pruneTicket t _ _ _ | .commitPrune t _
  | .refuse t _ _ | .fail t _ _ => some t

/-- Where the session of a step has to be. -/
def Act.before : Act → Pc
  | .tick _ | .refuseToken _ | .beginDelete _ _ | .beginMiss _ | .refuseTicket _ => .idle
  | .loginOpen _ _ | .registerOpen _ _ | .passwordLogin _ _ _ | .linkOpen _ _ | .refreshOpen _ _
  | .deleteOpen _ _ | .pruneOpen _ _ => .idle
  | .loginLock _ l => .login l .opened
  | .loginFound _ l _ | .loginAbsent _ l => .login l .locked
  | .claimHandle _ l tries _ _ | .claimTaken _ l tries _ => .login l (.minting tries)
  | .insertPlayer _ l id disc => .login l (.claimed id disc)
  | .insertIdentity _ l id disc => .login l (.inserted id disc)
  | .emitRegistered _ l id disc => .login l (.identified id disc)
  | .insertFamily _ l id created _ _ => .login l (.issuing id created)
  | .insertSession _ l id created family tok _ => .login l (.issued id created family tok)
  | .commitLogin _ l id created family tok token => .login l (.complete id created family tok token)
  | .lockPlayer _ k => .link k .opened
  | .lockIdentity _ k => .link k .playerLocked
  | .readReal _ k => .link k .locked
  | .linkAlready _ k hadReal | .linkAbsent _ k hadReal => .link k (.read hadReal)
  | .linkInsert _ k hadReal => .link k (.absent hadReal)
  | .linkEmit _ k hadReal => .link k (.inserted hadReal)
  | .commitLink _ k outcome promoted => .link k (.complete outcome promoted)
  | .rotate _ r _ | .rotateMiss _ r => .refresh r .opened
  | .graceReplay _ r _ _ | .revoke _ r _ | .deny _ r => .refresh r .missed
  | .insertSuccessor _ r row => .refresh r (.rotated row)
  | .insertAccess _ r row successor rotated _ => .refresh r (.continuing row successor rotated)
  | .commitRefresh _ r row successor rotated token =>
    .refresh r (.answered row successor rotated token)
  | .killTokens _ r family => .refresh r (.revoking family)
  | .killToken _ r family todo _ => .refresh r (.killing family todo)
  | .killSessions _ r family => .refresh r (.killing family [])
  | .killSession _ r family todo _ => .refresh r (.killingSessions family todo)
  | .commitRevoke _ r family => .refresh r (.killingSessions family [])
  | .commitDeny _ r => .refresh r .denied
  | .deleteLock _ d => .delete d .opened
  | .consume _ d _ | .consumeMiss _ d => .delete d .locked
  | .readReceipt _ d _ => .delete d .missed
  | .readHandle _ d _ => .delete d .consumed
  | .reserveHandle _ d row => .delete d (.named row)
  | .insertReceipt _ d row => .delete d (.reserved row)
  | .deletePlayer _ d row => .delete d (.receipted row)
  | .emitDeleted _ d row => .delete d (.erased row)
  | .commitDelete _ d row => .delete d (.emitted row)
  | .replayReceipt _ d row => .delete d (.replaying row)
  | .pruneSessions _ now => .prune now .opened
  | .pruneSession _ now todo _ => .prune now (.sessions todo)
  | .pruneTokens _ now => .prune now (.sessions [])
  | .pruneToken _ now todo _ => .prune now (.tokens todo)
  | .pruneTickets _ now => .prune now (.tokens [])
  | .pruneTicket _ now todo _ => .prune now (.tickets todo)
  | .commitPrune _ now => .prune now (.tickets [])
  | .refuse _ pc _ | .fail _ pc _ => pc

end Labels

end Swarog.Accounts
