import Swarog.Opsapi
import Swarog.Pg.Advisory
import Swarog.Pg.LockKey
import Swarog.Sweeper

/-!
# The inventory

Holdings belong to players or to characters.  The deliveries of `character.created` and
`character.deleted` grant a character its starter item and wipe its holdings; they come on
two subscriptions, in any order.  Both take the lock of the character first; the wipe plants a
permanent row in `wiped_characters`, and the grant does nothing for a character that has one.

`Holdings::grant` adds to the holdings of a player, by three statements that are transactions
of their own.  The purge of deleted players is the one of `Sweeper`.

`created` and `deleted` are the deliveries that were committed; a delivery of `created` is
recorded with the stack that it has granted.  `errors` are the errors of `grant_starter` other
than failures of the database.
-/

namespace Swarog.Inventory

open Pg

section Constants

def maxHoldingQty : Int := 1000000

/-- The upper bound of the `CHECK` on stored quantities. -/
def maxStoredQty : Int := 2000000

def starterItem : String := "starter_sword"

def starterQty : Int := 1

/-- The items that the migration seeds. -/
def items : List String := ["coin", "starter_sword", "health_potion"]

def purgeBatch : Nat := 256

def playerDeleted : Error := Error.conflict "this account has been deleted"

def capReached : Error := Error.conflict "holding cap reached for this item"

/-- The lock of the holdings of one character. -/
def lockKey (characterId : String) : Int := uuidLockKey "inventory.character/" characterId

end Constants

section Quantities

structure QuantityError where
  qty : Int
deriving DecidableEq

def QuantityError.text (e : QuantityError) : String :=
  s!"quantity {e.qty} out of range (must be 1..={maxHoldingQty})"

def validateQuantity (qty : Int) : Except QuantityError Int :=
  if 0 < qty ∧ qty ≤ maxHoldingQty then .ok qty else .error ⟨qty⟩

/-- The settings that the grant reads, if they are set. -/
structure Config where
  starterItem : Option String
  starterQty : Option Int
deriving DecidableEq

def Config.starterSpec (cfg : Config) : String × Int :=
  (cfg.starterItem.getD Inventory.starterItem, cfg.starterQty.getD Inventory.starterQty)

def itemExists (item : String) : Bool := decide (item ∈ items)

/-- The stack that a new character gets: a value that cannot be granted is replaced by the
default. -/
def Config.starter (cfg : Config) : String × Int :=
  let qty :=
    match validateQuantity cfg.starterSpec.2 with
    | .ok qty => qty
    | .error _ => Inventory.starterQty
  let item := if itemExists cfg.starterSpec.1 then cfg.starterSpec.1 else Inventory.starterItem
  (item, qty)

end Quantities

section Rows

inductive OwnerType
  | player
  | character
deriving DecidableEq

structure Owner where
  otype : OwnerType
  id : Uuid
deriving DecidableEq

def Owner.player (id : Uuid) : Owner := ⟨.player, id⟩

def Owner.character (id : Uuid) : Owner := ⟨.character, id⟩

/-- The primary key of `inventory.holdings`; the row is the quantity. -/
structure HoldingKey where
  owner : Owner
  item : String
deriving DecidableEq

/-- The player-owned holdings are swept. -/
def policy : Sweeper.Policy HoldingKey Int where
  owns p k _ := decide (k.owner = .player p)
  batch := purgeBatch

inductive StoreError
  | protocol (msg : String)
  | foreignKeyViolation
  | checkViolation
deriving DecidableEq

/-- A call of `Holdings::grant`; `devGrant` is the switch of the process. -/
structure GrantInput where
  devGrant : Bool
  playerId : Option String
  item : String
  qty : Int
deriving DecidableEq

/-- A call that has passed its checks. -/
structure Buy where
  playerId : String
  item : String
  qty : Int
deriving DecidableEq

def GrantInput.validated (i : GrantInput) : Except Error Buy :=
  if i.devGrant then
    match i.playerId with
    | none => .error (.invalid "missing player identity")
    | some pid =>
      match validateQuantity i.qty with
      | .ok qty => .ok ⟨pid, i.item, qty⟩
      | .error _ => .error (.invalid s!"qty must be between 1 and {maxHoldingQty}")
  else
    .error (.notFound "grant is not enabled")

structure Answer where
  input : GrantInput
  result : Except Error Unit
deriving DecidableEq

end Rows

section ProgramPoints

/-- A delivery of `character.created`. -/
inductive GrantStage
  | opened
  | locked
  | cleared
  | resolved (item : String) (qty : Int)
  | written (item : String) (qty : Int) (old : Option Int)
  | skipped
deriving DecidableEq

/-- A delivery of `character.deleted`; `fresh` says that it has planted the row. -/
inductive WipeStage
  | opened
  | locked
  | planted (fresh : Bool)
  | deleting (fresh : Bool) (todo : List HoldingKey) (removed : List (HoldingKey × Int))
deriving DecidableEq

inductive BuyStage
  | opened
  | known
  | cleared (p : Uuid)
  | granted
deriving DecidableEq

/-- Where a session is. -/
inductive Pc
  | idle
  | grant (c : Uuid.Spelling) (st : GrantStage)
  | wipe (c : Uuid.Spelling) (st : WipeStage)
  | buy (i : GrantInput) (b : Buy) (st : BuyStage)
  | purge (q : Sweeper.Point HoldingKey Int)
deriving DecidableEq

/-- Where a session is in the purge. -/
def Pc.point : Pc → Option (Sweeper.Point HoldingKey Int)
  | .purge q => some q
  | _ => none

def Pc.ofPoint : Option (Sweeper.Point HoldingKey Int) → Pc
  | some q => .purge q
  | none => .idle

/-- What the caller gets when the call fails. -/
def Pc.refusal (e : Error) : Pc → List Answer
  | .buy i _ _ => [⟨i, .error e⟩]
  | _ => []

/-- The delivery that a transaction commits. -/
inductive Delivery
  | created (c : Uuid) (stack : Option (String × Int))
  | deleted (c : Uuid)
  | other
deriving DecidableEq

/-- What a transaction delivers with its `COMMIT`. -/
def Pc.delivers : Pc → Option Delivery
  | .grant c (.written item qty _) => some (.created c.id (some (item, qty)))
  | .grant c .skipped => some (.created c.id none)
  | .wipe c (.deleting _ [] _) => some (.deleted c.id)
  | .purge q => if q.ready then some .other else none
  | _ => none

end ProgramPoints

section Data

structure Data where
  holdings : Table HoldingKey Sess Int
  wiped : Table Uuid Sess Unit
  purged : Table Uuid Sess Tombstone
  locks : Locks
  created : List (Uuid × Option (String × Int))
  deleted : List Uuid
  errors : List (Uuid × StoreError)
  answers : List Answer

namespace Data

def start : Data where
  holdings := Table.empty
  wiped := Table.empty
  purged := Table.empty
  locks := Locks.free
  created := []
  deleted := []
  errors := []
  answers := []

def tables (d : Data) : Sweeper.Tables HoldingKey Int := ⟨d.holdings, d.purged⟩

def setTables (d : Data) (T : Sweeper.Tables HoldingKey Int) : Data :=
  { d with holdings := T.rows, purged := T.purged }

def reply (answers : List Answer) (d : Data) : Data := { d with answers := d.answers ++ answers }

/-- The delivery was not committed before. -/
def fresh (d : Data) : Delivery → Prop
  | .created c _ => c ∉ d.created.map Prod.fst
  | .deleted c => c ∉ d.deleted
  | .other => True

instance (d : Data) (e : Delivery) : Decidable (d.fresh e) := by
  cases e <;> dsimp only [fresh] <;> infer_instance

def record (d : Data) : Delivery → Data
  | .created c stack => { d with created := d.created ++ [(c, stack)] }
  | .deleted c => { d with deleted := d.deleted ++ [c] }
  | .other => d

/-- `COMMIT` of the session `t`, with the checkpoint of its delivery. -/
def commit (t : Sess) (e : Delivery) (d : Data) : Data :=
  { d.record e with
    holdings := d.holdings.commit t
    wiped := d.wiped.commit t
    purged := d.purged.commit t
    locks := d.locks.release t }

def rollback (t : Sess) (d : Data) : Data :=
  { d with
    holdings := d.holdings.rollback t
    wiped := d.wiped.rollback t
    purged := d.purged.rollback t
    locks := d.locks.release t }

/-- The `INSERT ... ON CONFLICT DO UPDATE` of a grant: the quantity that is stored. -/
def grantExec (t : Sess) (k : HoldingKey) (qty : Int) (d : Data) : Except StoreError Int :=
  match validateQuantity qty with
  | .error e => .error (.protocol e.text)
  | .ok qty =>
    let sum := (d.holdings.view t k).getD 0 + qty
    if itemExists k.item = false then .error .foreignKeyViolation
    else if 0 ≤ sum ∧ sum ≤ maxStoredQty then .ok sum
    else .error .checkViolation

/-- The holdings of an owner that a statement of `t` sees. -/
def holdingsOf (t : Sess) (owner : Owner) (d : Data) : List HoldingKey :=
  d.holdings.select t (fun k _ => decide (k.owner = owner))

/-- The `DELETE` of the holdings of an owner reaches `k`. -/
def deleteRow (t : Sess) (owner : Owner) (k : HoldingKey) (d : Data) : Data :=
  { d with holdings := d.holdings.deleteWhere t (fun k _ => decide (k.owner = owner)) k }

/-- What a call answers because of what its statement has found. -/
def refused (d : Data) : Pc → Option Error
  | .buy _ b .opened => if itemExists b.item then none else some (.invalid "unknown item")
  | .buy _ b .known =>
    (Uuid.ofText b.playerId).bind (fun p =>
      if d.purged.committed p = none then none else some playerDeleted)
  | _ => none

/-- The error that `grant` answers with. -/
def buyError : StoreError → Error
  | .checkViolation => capReached
  | .protocol msg => .internal msg
  | .foreignKeyViolation => .internal "violates foreign key constraint"

end Data

/-- The rows that a wipe has deleted after its `DELETE` has reached `k`. -/
def reachRow (d : Data) (t : Sess) (owner : Owner) (k : HoldingKey)
    (removed : List (HoldingKey × Int)) : List (HoldingKey × Int) :=
  match d.holdings.view t k with
  | some qty => if k.owner = owner then removed ++ [(k, qty)] else removed
  | none => removed

end Data

section Statements

inductive Act
  -- a delivery of `character.created`
  | grantOpen (c : Uuid.Spelling)
  | grantLock (c : Uuid.Spelling)
  | checkWiped (c : Uuid.Spelling)
  | skipWiped (c : Uuid.Spelling)
  | resolveStarter (c : Uuid.Spelling) (cfg : Config)
  | grantStarter (c : Uuid.Spelling) (item : String) (qty total : Int)
  | grantError (c : Uuid.Spelling) (item : String) (qty : Int) (e : StoreError)
  -- a delivery of `character.deleted`
  | wipeOpen (c : Uuid.Spelling)
  | wipeLock (c : Uuid.Spelling)
  | wipePlant (c : Uuid.Spelling)
  | wipePlantConflict (c : Uuid.Spelling)
  | wipeDelete (c : Uuid.Spelling) (fresh : Bool)
  | wipeRow (c : Uuid.Spelling) (fresh : Bool) (todo : List HoldingKey)
      (removed : List (HoldingKey × Int)) (k : HoldingKey)
  -- a call of `Holdings::grant`
  | reject (i : GrantInput) (e : Error)
  | buyOpen (i : GrantInput) (b : Buy)
  | buyItem (i : GrantInput) (b : Buy)
  | buyCheck (i : GrantInput) (b : Buy) (p : Uuid)
  | buyGrant (i : GrantInput) (b : Buy) (p : Uuid) (total : Int)
  | buyError (i : GrantInput) (b : Buy) (p : Uuid) (e : StoreError)
  | buyList (i : GrantInput) (b : Buy)
  -- the purge
  | purge (m : Sweeper.Move HoldingKey Int)
  -- the ends of transactions
  | commit (pc : Pc) (e : Delivery)
  | refuse (pc : Pc) (e : Error)
  | fail (pc : Pc) (msg : String)
deriving DecidableEq

def stmt (t : Sess) : Act → Stmt Data Pc
  | .grantOpen c =>
    { before := .idle
      after := fun _ => .grant c .opened }
  | .grantLock c =>
    { before := .grant c .opened
      guard := fun d => d.locks.Takeable t (lockKey c.text)
      after := fun _ => .grant c .locked
      change := fun d => { d with locks := d.locks.take t (lockKey c.text) } }
  | .checkWiped c =>
    { before := .grant c .locked
      guard := fun d => d.wiped.view t c.id = none
      after := fun _ => .grant c .cleared }
  | .skipWiped c =>
    { before := .grant c .locked
      guard := fun d => d.wiped.view t c.id ≠ none
      after := fun _ => .grant c .skipped }
  | .resolveStarter c cfg =>
    { before := .grant c .cleared
      after := fun _ => .grant c (.resolved cfg.starter.1 cfg.starter.2) }
  | .grantStarter c item qty total =>
    { before := .grant c (.resolved item qty)
      guard := fun d => d.holdings.Free t ⟨.character c.id, item⟩ ∧
        d.grantExec t ⟨.character c.id, item⟩ qty = .ok total
      after := fun d => .grant c
        (.written item qty (d.holdings.committed ⟨.character c.id, item⟩))
      change := fun d =>
        { d with holdings := d.holdings.write t ⟨.character c.id, item⟩ (some total) } }
  | .grantError c item qty e =>
    { before := .grant c (.resolved item qty)
      guard := fun d => d.holdings.Free t ⟨.character c.id, item⟩ ∧
        d.grantExec t ⟨.character c.id, item⟩ qty = .error e
      after := fun _ => .idle
      change := fun d => { d.rollback t with errors := d.errors ++ [(c.id, e)] } }
  | .wipeOpen c =>
    { before := .idle
      after := fun _ => .wipe c .opened }
  | .wipeLock c =>
    { before := .wipe c .opened
      guard := fun d => d.locks.Takeable t (lockKey c.text)
      after := fun _ => .wipe c .locked
      change := fun d => { d with locks := d.locks.take t (lockKey c.text) } }
  | .wipePlant c =>
    { before := .wipe c .locked
      guard := fun d => d.wiped.Free t c.id ∧ d.wiped.committed c.id = none
      after := fun _ => .wipe c (.planted true)
      change := fun d => { d with wiped := d.wiped.write t c.id (some ()) } }
  | .wipePlantConflict c =>
    { before := .wipe c .locked
      guard := fun d => d.wiped.Settled t c.id ∧ d.wiped.committed c.id ≠ none
      after := fun _ => .wipe c (.planted false) }
  | .wipeDelete c fresh =>
    { before := .wipe c (.planted fresh)
      after := fun d => .wipe c (.deleting fresh (d.holdingsOf t (.character c.id)) []) }
  | .wipeRow c fresh todo removed k =>
    { before := .wipe c (.deleting fresh todo removed)
      guard := fun d => k ∈ todo ∧ d.holdings.Free t k
      after := fun d => .wipe c (.deleting fresh (todo.erase k)
        (reachRow d t (.character c.id) k removed))
      change := fun d => d.deleteRow t (.character c.id) k }
  | .reject i e =>
    { before := .idle
      guard := fun _ => i.validated = .error e
      after := fun _ => .idle
      change := fun d => d.reply [⟨i, .error e⟩] }
  | .buyOpen i b =>
    { before := .idle
      guard := fun _ => i.validated = .ok b
      after := fun _ => .buy i b .opened }
  | .buyItem i b =>
    { before := .buy i b .opened
      guard := fun _ => itemExists b.item = true
      after := fun _ => .buy i b .known }
  | .buyCheck i b p =>
    { before := .buy i b .known
      guard := fun d => Uuid.ofText b.playerId = some p ∧ d.purged.view t p = none
      after := fun _ => .buy i b (.cleared p) }
  | .buyGrant i b p total =>
    { before := .buy i b (.cleared p)
      guard := fun d => d.holdings.pending ⟨.player p, b.item⟩ = none ∧
        d.grantExec t ⟨.player p, b.item⟩ b.qty = .ok total
      after := fun _ => .buy i b .granted
      change := fun d => { d with holdings := d.holdings.put ⟨.player p, b.item⟩ (some total) } }
  | .buyError i b p e =>
    { before := .buy i b (.cleared p)
      guard := fun d => d.holdings.pending ⟨.player p, b.item⟩ = none ∧
        d.grantExec t ⟨.player p, b.item⟩ b.qty = .error e
      after := fun _ => .idle
      change := fun d => d.reply [⟨i, .error (Data.buyError e)⟩] }
  | .buyList i b =>
    { before := .buy i b .granted
      after := fun _ => .idle
      change := fun d => d.reply [⟨i, .ok ()⟩] }
  | .purge m => (m.stmt policy t).along Data.tables Data.setTables Pc.ofPoint
  | .commit pc e =>
    { before := pc
      guard := fun d => pc.delivers = some e ∧ d.fresh e
      after := fun _ => .idle
      change := fun d => d.commit t e }
  | .refuse pc e =>
    { before := pc
      guard := fun d => d.refused pc = some e
      after := fun _ => .idle
      change := fun d => (d.rollback t).reply (pc.refusal e) }
  | .fail pc msg =>
    { before := pc
      guard := fun _ => pc ≠ .idle
      after := fun _ => .idle
      change := fun d => (d.rollback t).reply (pc.refusal (.internal msg)) }

instance (t : Sess) (a : Act) (d : Data) : Decidable ((stmt t a).guard d) := by
  cases a <;> dsimp only [stmt, Stmt.along] <;> infer_instance

def programs : Programs Data Pc Act where
  data := Data.start
  idle := .idle
  stmt := stmt

/-- All interleavings of deliveries, calls and sweeps. -/
def system : TransitionSystem (World Data Pc) (Sess × Act) := programs.system

instance (w : World Data Pc) (a : Sess × Act) : Decidable (system.enabled w a) :=
  inferInstanceAs (Decidable (_ ∧ (stmt a.1 a.2).guard w.data))

end Statements

end Swarog.Inventory
