import Swarog.Accounts.Calls
import Swarog.Pg.Transition

/-!
# The accounts service as a transition system

A label is given by four functions: the program point at which its session must
be (`Act.before`), the condition on the data (`State.guard`), the program point
it leads to (`State.after`) and what it does to the tables and to the history
(`State.change`).

* The `DELETE`s of a revocation and of the prune work on the rows their statement
  snapshot saw and handle them one by one: a row is locked, waited for if
  necessary, and checked again.
* The deletion of a player takes effect, with its cascade, once no other
  transaction holds a child of the player.
* An advisory lock is held until its transaction ends.  A session may take a lock
  it already holds.
* A password login reads the identity before it opens its transaction.  The read
  and the `BEGIN` are one label: a player deleted in between is refused by the
  foreign key of the statements that follow.
* A link is called for a verified player, hence for one that was created.
-/

namespace Swarog.Accounts

open Pg

namespace State

section Control

/-- The refresh tokens of a family that a statement of `t` sees. -/
def tokensOf (s : State) (t : Sess) (family : Uuid) : List String :=
  s.refreshTokens.select t (fun _ row => row.family == family)

/-- The sessions of a family that a statement of `t` sees. -/
def sessionsOf (s : State) (t : Sess) (family : Uuid) : List String :=
  s.sessions.select t (fun _ row => row.family == family)

/-- Where the session of a step continues. -/
def after (s : State) : Act → Pc
  | .tick _ | .refuseToken _ | .beginDelete _ _ | .beginMiss _ | .refuseTicket _ => .idle
  | .loginOpen _ l => .login l .opened
  | .registerOpen _ l => .login l (.minting 0)
  | .passwordLogin _ l id => .login l (.issuing id none)
  | .loginLock _ l => .login l .locked
  | .loginFound _ l id => .login l (.issuing id none)
  | .loginAbsent _ l => .login l (.minting 0)
  | .claimHandle _ l _ draw id => .login l (.claimed id (newDiscriminator draw))
  | .claimTaken _ l tries _ => .login l (.minting (tries + 1))
  | .insertPlayer _ l id disc => .login l (.inserted id disc)
  | .insertIdentity _ l id disc => .login l (.identified id disc)
  | .emitRegistered _ l id disc => .login l (.issuing id (some disc))
  | .insertFamily _ l id created family tok => .login l (.issued id created family tok)
  | .insertSession _ l id created family tok token =>
    .login l (.complete id created family tok token)
  | .linkOpen _ k => .link k .opened
  | .lockPlayer _ k => .link k .playerLocked
  | .lockIdentity _ k => .link k .locked
  | .readReal _ k => .link k (.read (s.hasRealIdentity k.player))
  | .linkAlready _ k _ => .link k (.complete .alreadyLinked false)
  | .linkAbsent _ k hadReal => .link k (.absent hadReal)
  | .linkInsert _ k hadReal => .link k (.inserted hadReal)
  | .linkEmit _ k hadReal => .link k (.complete .linked (!hadReal && k.provider != guest))
  | .refreshOpen _ r => .refresh r .opened
  | .rotate _ r row => .refresh r (.rotated row)
  | .rotateMiss _ r => .refresh r .missed
  | .graceReplay _ r row successor => .refresh r (.continuing row successor false)
  | .revoke _ r family => .refresh r (.revoking family)
  | .deny _ r => .refresh r .denied
  | .insertSuccessor _ r row => .refresh r (.continuing row r.successor true)
  | .insertAccess _ r row successor rotated token =>
    .refresh r (.answered row successor rotated token)
  | .killTokens t r family => .refresh r (.killing family (s.tokensOf t family))
  | .killToken _ r family todo token => .refresh r (.killing family (todo.erase token))
  | .killSessions t r family => .refresh r (.killingSessions family (s.sessionsOf t family))
  | .killSession _ r family todo token => .refresh r (.killingSessions family (todo.erase token))
  | .deleteOpen _ d => .delete d .opened
  | .deleteLock _ d => .delete d .locked
  | .consume _ d _ => .delete d .consumed
  | .consumeMiss _ d => .delete d .missed
  | .readReceipt _ d row => .delete d (.replaying row)
  | .readHandle _ d row => .delete d (.named row)
  | .reserveHandle _ d row => .delete d (.reserved row)
  | .insertReceipt _ d row => .delete d (.receipted row)
  | .deletePlayer _ d row => .delete d (.erased row)
  | .emitDeleted _ d row => .delete d (.emitted row)
  | .pruneOpen _ now => .prune now .opened
  | .pruneSessions t now =>
    .prune now (.sessions (s.sessions.select t (fun _ row => decide (row.expiresAt ≤ now))))
  | .pruneSession _ now todo token => .prune now (.sessions (todo.erase token))
  | .pruneTokens t now =>
    .prune now (.tokens (s.refreshTokens.select t (fun _ row => decide (row.expiresAt ≤ now))))
  | .pruneToken _ now todo token => .prune now (.tokens (todo.erase token))
  | .pruneTickets t now =>
    .prune now (.tickets (s.tickets.select t (fun _ row => decide (row.expiresAt ≤ now))))
  | .pruneTicket _ now todo p => .prune now (.tickets (todo.erase p))
  | .commitLogin _ _ _ _ _ _ _ | .commitLink _ _ _ _ | .commitRefresh _ _ _ _ _ _
  | .commitRevoke _ _ _ | .commitDeny _ _ | .commitDelete _ _ _ | .replayReceipt _ _ _
  | .commitPrune _ _ | .refuse _ _ _ | .fail _ _ _ => .idle

/-- The program points after a step. -/
def advance (s : State) (a : Act) : Sess → Pc :=
  match a.actor with
  | none => s.pc
  | some t => Function.update s.pc t (s.after a)

end Control

section Data

/-- The conditions on the data. -/
def guard (s : State) : Act → Prop
  | .tick _ => True
  | .loginOpen _ l => l.now = s.clock ∧ l.path = .external
  | .registerOpen _ l => l.now = s.clock ∧ l.path = .register ∧ l.provider = dev
  | .passwordLogin _ l id =>
    l.now = s.clock ∧ l.path = .password ∧ l.provider = dev ∧ s.playerByIdentity l.key = some id
  | .loginLock t l => s.locks.Takeable t (identityLockKey l.provider l.subject)
  | .loginFound _ l id => s.playerByIdentity l.key = some id
  | .loginAbsent _ l => s.playerByIdentity l.key = none
  | .claimHandle t l tries draw id =>
    tries < handleMintAttempts ∧ s.handles.Free t (l.player (newDiscriminator draw)).pair ∧
      s.handles.committed (l.player (newDiscriminator draw)).pair = none ∧ id ∉ s.uuids
  | .claimTaken t l tries draw =>
    tries < handleMintAttempts ∧ s.handles.Settled t (l.player (newDiscriminator draw)).pair ∧
      s.handles.committed (l.player (newDiscriminator draw)).pair ≠ none
  | .insertPlayer t l id disc =>
    s.players.Free t id ∧ s.players.committed id = none ∧ s.IndexAccepts id (l.player disc)
  | .insertIdentity t l id _ =>
    s.identities.Free t l.key ∧ s.identities.committed l.key = none ∧ s.players.Shareable t id
  | .emitRegistered _ _ _ _ => True
  | .insertFamily t _ id _ family tok =>
    s.refreshTokens.Free t tok ∧ s.refreshTokens.committed tok = none ∧
      s.players.Shareable t id ∧ family ∉ s.uuids ∧ tok ∉ s.tokens
  | .insertSession t _ id _ _ _ token =>
    s.sessions.Free t token ∧ s.sessions.committed token = none ∧
      s.players.Shareable t id ∧ token ∉ s.tokens
  | .linkOpen _ k => k.player ∈ s.born.map Birth.player
  | .lockPlayer t k => s.locks.Takeable t (playerLockKey k.player.text)
  | .lockIdentity t k => s.locks.Takeable t (identityLockKey k.provider k.subject)
  | .readReal _ _ => True
  | .linkAlready _ k _ => s.playerByIdentity k.key = some k.player
  | .linkAbsent _ k _ => s.playerByIdentity k.key = none
  | .linkInsert t k _ =>
    s.identities.Free t k.key ∧ s.identities.committed k.key = none ∧ s.players.Shareable t k.player
  | .linkEmit _ _ _ => True
  | .refuseToken token => ¬ sessionTokenWithinCap token
  | .refreshOpen _ r => sessionTokenWithinCap r.token ∧ r.now = s.clock ∧ r.successor ∉ s.tokens
  | .rotate t r row =>
    s.refreshTokens.Free t r.token ∧ s.refreshTokens.committed r.token = some row ∧
      rotatable r row = true
  | .rotateMiss _ r => (s.refreshTokens.committed r.token).any (rotatable r) = false
  | .graceReplay _ r row successor =>
    s.refreshTokens.committed r.token = some row ∧
      s.verdict r = .graceReplay row.player row.family successor
  | .revoke _ r family => s.verdict r = .revoke family
  | .deny _ r => s.verdict r = .deny
  | .insertSuccessor t r row =>
    s.refreshTokens.view t r.token = some (row.consume r.now r.successor) ∧
      s.refreshTokens.Free t r.successor ∧ s.refreshTokens.view t r.successor = none ∧
      s.refreshTokens.committed r.successor = none ∧ s.players.Shareable t row.player
  | .insertAccess t _ row _ _ token =>
    s.sessions.Free t token ∧ s.sessions.committed token = none ∧
      s.players.Shareable t row.player ∧ token ∉ s.tokens
  | .killTokens _ _ _ | .killSessions _ _ _ => True
  | .killToken t _ _ todo token => token ∈ todo ∧ s.refreshTokens.Free t token
  | .killSession t _ _ todo token => token ∈ todo ∧ s.sessions.Free t token
  | .beginDelete p _ =>
    s.tickets.pending p = none ∧ s.players.committed p ≠ none ∧ s.players.pending p = none
  | .beginMiss p => s.players.committed p = none
  | .refuseTicket d => ¬ deleteTicketWithinCap d.ticket
  | .deleteOpen _ d =>
    deleteTicketWithinCap d.ticket ∧ d.now = s.clock ∧
      d.late = (s.receipts.committed d.player).isSome
  | .deleteLock t d => s.locks.Takeable t (playerLockKey d.player.text)
  | .consume t d row =>
    s.tickets.Free t d.player ∧ s.tickets.committed d.player = some row ∧ consumable d row = true
  | .consumeMiss _ d => (s.tickets.committed d.player).any (consumable d) = false
  | .readReceipt _ d row => s.receipts.committed d.player = some row ∧ row.ticket = d.ticket
  | .readHandle t d row => s.players.view t d.player = some row
  -- the pair is taken from the player's row, which is read again
  | .reserveHandle t d row => s.players.view t d.player = some row ∧ s.handles.Free t row.pair
  | .insertReceipt t d _ => s.receipts.Free t d.player ∧ s.receipts.committed d.player = none
  | .deletePlayer t d _ =>
    s.players.Free t d.player ∧ s.players.view t d.player ≠ none ∧
      s.identities.Unshared identityOwner t d.player ∧
      s.sessions.Unshared sessionOwner t d.player ∧
      s.refreshTokens.Unshared tokenOwner t d.player ∧
      s.tickets.Unshared ticketOwner t d.player
  | .emitDeleted _ _ _ => True
  | .pruneOpen _ now => now = s.clock
  | .pruneSessions _ _ | .pruneTokens _ _ | .pruneTickets _ _ => True
  | .pruneSession t _ todo token => token ∈ todo ∧ s.sessions.Free t token
  | .pruneToken t _ todo token => token ∈ todo ∧ s.refreshTokens.Free t token
  | .pruneTicket t _ todo p => p ∈ todo ∧ s.tickets.Free t p
  | .commitLogin _ _ _ _ _ _ _ | .commitLink _ _ _ _ | .commitRefresh _ _ _ _ _ _
  | .commitRevoke _ _ _ | .commitDeny _ _ | .commitDelete _ _ _ | .replayReceipt _ _ _
  | .commitPrune _ _ => True
  | .refuse t pc e => s.rejection t pc = some e
  | .fail _ pc _ => pc ≠ .idle

instance (s : State) (a : Act) : Decidable (s.guard a) := by
  cases a <;> unfold guard <;> infer_instance

/-- `BEGIN` of the session `t`. -/
def beginTx (s : State) (t : Sess) : State := { s with started := t :: s.started }

/-- The advisory lock `key` is taken. -/
def lock (s : State) (t : Sess) (key : Int) : State :=
  { s with locks := s.locks.take t key }

def commitTx (s : State) (t : Sess) : State :=
  { s with
    players := s.players.commit t
    handles := s.handles.commit t
    tickets := s.tickets.commit t
    receipts := s.receipts.commit t
    identities := s.identities.commit t
    sessions := s.sessions.commit t
    refreshTokens := s.refreshTokens.commit t
    locks := s.locks.release t }

def rollbackTx (s : State) (t : Sess) : State :=
  { s with
    players := s.players.rollback t
    handles := s.handles.rollback t
    tickets := s.tickets.rollback t
    receipts := s.receipts.rollback t
    identities := s.identities.rollback t
    sessions := s.sessions.rollback t
    refreshTokens := s.refreshTokens.rollback t
    locks := s.locks.release t }

/-- The caller gets its answer. -/
def reply (s : State) (answer : Answer) : State := { s with answers := s.answers ++ [answer] }

/-- `COMMIT` of a login. -/
def commitLoginTx (s : State) (t : Sess) (l : Login) (id : Uuid) (created : Option String)
    (family : Uuid) : State :=
  { s.commitTx t with
    events := s.events ++
      (created.map (fun _ => Event.registered id l.displayName l.provider)).toList
    born := s.born ++ (created.map (fun disc => ⟨id, l.player disc, l.key⟩)).toList
    families := s.families ++ [⟨family, id, (TokenRow.first id family l.now).expiresAt⟩] }

/-- What a step does to the tables and to the history. -/
def change (s : State) : Act → State
  | .tick seconds => { s with clock := s.clock + seconds }
  | .loginOpen t _ => s.beginTx t
  | .registerOpen t _ => s.beginTx t
  | .passwordLogin t _ _ => s.beginTx t
  | .loginLock t l => s.lock t (identityLockKey l.provider l.subject)
  | .claimHandle t l _ draw id =>
    { s with
      handles := s.handles.write t (l.player (newDiscriminator draw)).pair (some ⟨some id⟩)
      uuids := id :: s.uuids }
  | .insertPlayer t l id disc => { s with players := s.players.write t id (some (l.player disc)) }
  | .insertIdentity t l id _ => { s with identities := s.identities.write t l.key (some ⟨id⟩) }
  | .insertFamily t l id _ family tok =>
    { s with
      refreshTokens := s.refreshTokens.write t tok (some (TokenRow.first id family l.now))
      uuids := family :: s.uuids
      tokens := tok :: s.tokens }
  | .insertSession t l id _ family _ token =>
    { s with
      sessions := s.sessions.write t token (some (SessionRow.access id family l.now))
      tokens := token :: s.tokens }
  | .commitLogin t l id created family tok token =>
    (s.commitLoginTx t l id created family).reply
      (.login l (.ok (⟨id, token, tok, accessExpiresInSecs⟩, created.isSome)))
  | .linkOpen t _ => s.beginTx t
  | .lockPlayer t k => s.lock t (playerLockKey k.player.text)
  | .lockIdentity t k => s.lock t (identityLockKey k.provider k.subject)
  | .linkInsert t k _ => { s with identities := s.identities.write t k.key (some ⟨k.player⟩) }
  | .commitLink t k outcome promoted =>
    { (s.commitTx t).reply (.link k (.ok outcome)) with
      events := s.events ++
        (if promoted then [Event.promoted k.player guest k.provider] else []) }
  | .refuseToken token => s.reply (.refresh token (.error invalidRefreshToken))
  | .refreshOpen t r => { s.beginTx t with tokens := r.successor :: s.tokens }
  | .rotate t r row =>
    { s with
      refreshTokens := s.refreshTokens.write t r.token (some (row.consume r.now r.successor)) }
  | .insertSuccessor t r row =>
    { s with refreshTokens := s.refreshTokens.write t r.successor (some row.successor) }
  | .insertAccess t r row _ _ token =>
    { s with
      sessions := s.sessions.write t token
        (some (SessionRow.access row.player row.family r.now))
      tokens := token :: s.tokens }
  | .commitRefresh t r row successor rotated token =>
    { (s.commitTx t).reply
        (.refresh r.token (.ok ⟨row.player, token, successor, accessExpiresInSecs⟩)) with
      rotations := s.rotations ++
        (if rotated then [⟨r.token, successor, row.player⟩] else []) }
  | .killToken t _ family _ token =>
    { s with
      refreshTokens := s.refreshTokens.deleteWhere t (fun _ row => row.family == family) token }
  | .killSession t _ family _ token =>
    { s with
      sessions := s.sessions.deleteWhere t (fun _ row => row.family == family) token }
  | .commitRevoke t r family =>
    { (s.commitTx t).reply (.refresh r.token (.error invalidRefreshToken)) with
      revoked := s.revoked ++ [family] }
  | .commitDeny t r => (s.commitTx t).reply (.refresh r.token (.error invalidRefreshToken))
  | .beginDelete p ticket =>
    { s.reply (.beginDelete p (.ok (s.upsertTicket p ticket))) with
      tickets := s.tickets.put p (some (s.upsertTicket p ticket)) }
  | .beginMiss p => s.reply (.beginDelete p (.error playerNotFound))
  | .refuseTicket d => s.reply (.delete d (.error ticketTooLong))
  | .deleteOpen t _ => s.beginTx t
  | .deleteLock t d => s.lock t (playerLockKey d.player.text)
  | .consume t d _ => { s with tickets := s.tickets.write t d.player none }
  | .reserveHandle t _ row => { s with handles := s.handles.write t row.pair (some ⟨none⟩) }
  | .insertReceipt t d row =>
    { s with receipts := s.receipts.write t d.player (some (d.receipt row)) }
  | .deletePlayer t d _ =>
    { s with
      players := s.players.write t d.player none
      identities := s.identities.cascade identityOwner t d.player
      sessions := s.sessions.cascade sessionOwner t d.player
      refreshTokens := s.refreshTokens.cascade tokenOwner t d.player
      tickets := s.tickets.cascade ticketOwner t d.player }
  | .commitDelete t d row =>
    { (s.commitTx t).reply (.delete d (.ok ((d.receipt row).answer d.player))) with
      events := s.events ++ [Event.deleted d.player row.handle] }
  | .replayReceipt t d row => (s.rollbackTx t).reply (.delete d (.ok (row.answer d.player)))
  | .pruneOpen t _ => s.beginTx t
  | .pruneSession t now _ token =>
    { s with
      sessions := s.sessions.deleteWhere t (fun _ row => decide (row.expiresAt ≤ now)) token }
  | .pruneToken t now _ token =>
    { s with
      refreshTokens :=
        s.refreshTokens.deleteWhere t (fun _ row => decide (row.expiresAt ≤ now)) token }
  | .pruneTicket t now _ p =>
    { s with
      tickets := s.tickets.deleteWhere t (fun _ row => decide (row.expiresAt ≤ now)) p }
  | .commitPrune t _ => s.commitTx t
  | .refuse t pc e => { s.rollbackTx t with answers := s.answers ++ (pc.refusal e).toList }
  | .fail t pc msg =>
    { s.rollbackTx t with answers := s.answers ++ (pc.refusal (.internal msg)).toList }
  -- reads, and appends whose effect comes with the commit
  | .loginFound _ _ _ | .loginAbsent _ _ | .claimTaken _ _ _ _ | .emitRegistered _ _ _ _
  | .readReal _ _ | .linkAlready _ _ _ | .linkAbsent _ _ _ | .linkEmit _ _ _
  | .rotateMiss _ _ | .graceReplay _ _ _ _ | .revoke _ _ _ | .deny _ _ | .killTokens _ _ _
  | .killSessions _ _ _ | .consumeMiss _ _ | .readReceipt _ _ _ | .readHandle _ _ _
  | .emitDeleted _ _ _ | .pruneSessions _ _ | .pruneTokens _ _ | .pruneTickets _ _ => s

end Data

/-- The session of the step is where it has to be. -/
def At (s : State) (a : Act) : Prop := ∀ t ∈ a.actor, s.pc t = a.before

instance (s : State) (a : Act) : Decidable (s.At a) :=
  match h : a.actor with
  | none => isTrue (by rw [At, h]; intro t ht; cases ht)
  | some t =>
    decidable_of_iff (s.pc t = a.before)
      ⟨fun hpc u hu => by rw [h] at hu; cases hu; exact hpc, fun hat => hat t h⟩

def enabled (s : State) (a : Act) : Prop := s.At a ∧ s.guard a

instance (s : State) (a : Act) : Decidable (s.enabled a) := inferInstanceAs (Decidable (_ ∧ _))

def effect (s : State) (a : Act) : State := { s.change a with pc := s.advance a }

end State

/-- The accounts service. -/
def system : TransitionSystem State Act where
  start := State.start
  enabled := State.enabled
  effect := State.effect

instance (s : State) (a : Act) : Decidable (system.enabled s a) :=
  inferInstanceAs (Decidable (s.enabled a))

end Swarog.Accounts
