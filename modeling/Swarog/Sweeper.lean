import Swarog.Purge

/-!
# The sweep of a purged player's rows

Several services keep rows of players in one table and drain their tombstones with the
same loop.  A batch of tombstones is claimed from a watermark on; for each of them the rows
of the player are deleted by one statement and the tombstone is stamped; a full batch is
followed by another one, all in one transaction.  `Move.stmt` is that program, together with
the delivery that plants a tombstone, on the two tables it works on.

A service runs the moves besides statements of its own (`Host`, `Does`).  Its own sessions
add rows of a player after they have found no tombstone (`Adder`).  `swept_none` is the rule
for the result of the purge: if no such session is in progress when the `DELETE` for its
player starts, a player whose tombstone is stamped has no row.
-/

namespace Swarog

open Pg Table List Option

/-- A statement on a part of the data. -/
def Pg.Stmt.along
    {D E P Q : Type}
    (s : Stmt E Q)
    (get : D → E)
    (put : D → E → D)
    (point : Q → P) :
    Stmt D P where
  before := point s.before
  guard := fun d => s.guard (get d)
  after := fun d => point (s.after (get d))
  change := fun d => put d (s.change (get d))

namespace Sweeper

section Program

/-- The tables of a sweep: the rows and the tombstones. -/
structure Tables (κ ρ : Type) where
  rows : Table κ Sess ρ
  purged : Table Uuid Sess Tombstone

/-- Which rows of a player are swept, and how many tombstones a batch has. -/
structure Policy (κ ρ : Type) where
  owns : Uuid → κ → ρ → Bool
  batch : Nat

/-- A deleted row, with the tombstone that the sweep was at. -/
structure Removal (κ ρ : Type) where
  key : κ
  row : ρ
  player : Uuid
  tomb : Tombstone
deriving DecidableEq

/-- A sweep: the floor of its next selection, the size of the current batch, the
tombstones of the batch that are still to be swept, the stamped ones, and the deleted
rows. -/
structure Sweep (κ ρ : Type) where
  watermark : Uuid
  size : Nat
  claimed : List (Uuid × Tombstone)
  stamped : List (Uuid × Tombstone)
  removed : List (Removal κ ρ)
deriving DecidableEq

inductive Stage (κ : Type)
  | selecting
  | next
  | deleting (todo : List κ)
  | finished
deriving DecidableEq

/-- Where a session of the purge is. -/
inductive Point (κ ρ : Type)
  | planted (row : Option (Uuid × Tombstone))
  | sweep (sw : Sweep κ ρ) (st : Stage κ)
deriving DecidableEq

inductive Move (κ ρ : Type)
  | plant (p : Uuid) (handle : String)
  | plantConflict (p : Uuid)
  | sweepOpen
  | select (sw : Sweep κ ρ)
  | delete (sw : Sweep κ ρ) (p : Uuid) (tomb : Tombstone) (rest : List (Uuid × Tombstone))
  | row (sw : Sweep κ ρ) (p : Uuid) (tomb : Tombstone) (rest : List (Uuid × Tombstone))
      (todo : List κ) (k : κ)
  | stamp (sw : Sweep κ ρ) (p : Uuid) (tomb : Tombstone) (rest : List (Uuid × Tombstone))
      (spent : Bool)
  | more (sw : Sweep κ ρ)
  | finish (sw : Sweep κ ρ)
deriving DecidableEq

variable {κ ρ ε : Type} [DecidableEq κ]

namespace Sweep

def first : Sweep κ ρ := ⟨Uuid.nil, 0, [], [], []⟩

/-- The changes of the sweep, with the events that go with each deleted row. -/
def changes
    (events : Removal κ ρ → List ε)
    (sw : Sweep κ ρ) :
    List (Change κ ρ ε) :=
  sw.removed.map (fun m => ⟨m.key, some m.row, none, events m⟩)

/-- The sweep after its `DELETE` for `p` has reached `k`. -/
def reach
    (o : Policy κ ρ)
    (T : Tables κ ρ)
    (t : Sess)
    (p : Uuid)
    (tomb : Tombstone)
    (k : κ)
    (sw : Sweep κ ρ) :
    Sweep κ ρ :=
  match T.rows.view t k with
  | some r => if o.owns p k r then { sw with removed := sw.removed ++ [⟨k, r, p, tomb⟩] } else sw
  | none => sw

end Sweep

namespace Tables

/-- The tombstones that a selection claims. -/
def claims
    (o : Policy κ ρ)
    (t : Sess)
    (sw : Sweep κ ρ)
    (T : Tables κ ρ) :
    List (Uuid × Tombstone) :=
  Tombstone.claims T.purged t sw.watermark o.batch

/-- The rows of a player that a statement of `t` sees. -/
def rowsOf (o : Policy κ ρ) (t : Sess) (p : Uuid) (T : Tables κ ρ) : List κ :=
  T.rows.select t (o.owns p)

end Tables

/-- The statements of a delivery that plants a tombstone, and of a sweep. -/
def Move.stmt
    (o : Policy κ ρ)
    (t : Sess) :
    Move κ ρ → Stmt (Tables κ ρ) (Option (Point κ ρ))
  | .plant p handle =>
    { before := none
      guard := fun T => T.purged.Free t p ∧ T.purged.committed p = none
      after := fun _ => some (.planted (some (p, .planted handle)))
      change := fun T => { T with purged := T.purged.write t p (some (.planted handle)) } }
  | .plantConflict p =>
    { before := none
      guard := fun T => T.purged.Settled t p ∧ T.purged.committed p ≠ none
      after := fun _ => some (.planted none) }
  | .sweepOpen =>
    { before := none
      after := fun _ => some (.sweep .first .selecting) }
  | .select sw =>
    { before := some (.sweep sw .selecting)
      after := fun T => some (.sweep
        { sw with size := (T.claims o t sw).length, claimed := T.claims o t sw } .next)
      change := fun T => { T with purged := T.purged.lockAll t ((T.claims o t sw).map Prod.fst) } }
  | .delete sw p tomb rest =>
    { before := some (.sweep sw .next)
      guard := fun _ => sw.claimed = (p, tomb) :: rest
      after := fun T => some (.sweep sw (.deleting (T.rowsOf o t p))) }
  | .row sw p tomb rest todo k =>
    { before := some (.sweep sw (.deleting todo))
      guard := fun T => sw.claimed = (p, tomb) :: rest ∧ k ∈ todo ∧ T.rows.Free t k
      after := fun T => some (.sweep (sw.reach o T t p tomb k) (.deleting (todo.erase k)))
      change := fun T => { T with rows := T.rows.deleteWhere t (o.owns p) k } }
  | .stamp sw p tomb rest spent =>
    { before := some (.sweep sw (.deleting []))
      guard := fun _ => sw.claimed = (p, tomb) :: rest
      after := fun _ => some (.sweep
        { sw with watermark := p, claimed := rest, stamped := sw.stamped ++ [(p, tomb)] }
        (if spent then .finished else .next))
      change := fun T => { T with purged := T.purged.write t p (some tomb.stamp) } }
  | .more sw =>
    { before := some (.sweep sw .next)
      guard := fun _ => sw.claimed = [] ∧ o.batch ≤ sw.size
      after := fun _ => some (.sweep sw .selecting) }
  | .finish sw =>
    { before := some (.sweep sw .next)
      guard := fun _ => sw.claimed = [] ∧ sw.size < o.batch
      after := fun _ => some (.sweep sw .finished) }

instance (o : Policy κ ρ) (t : Sess) (m : Move κ ρ) (T : Tables κ ρ) :
    Decidable ((m.stmt o t).guard T) := by
  cases m <;> dsimp only [Move.stmt] <;> infer_instance

namespace Point

/-- The transaction has come to its `COMMIT`. -/
def ready : Point κ ρ → Bool
  | .planted _ => true
  | .sweep _ .finished => true
  | _ => false

/-- The changes that the transaction has made. -/
def changes (events : Removal κ ρ → List ε) : Point κ ρ → List (Change κ ρ ε)
  | .planted _ => []
  | .sweep sw _ => sw.changes events

/-- What the transaction has done to the tombstones. -/
def tombs : Point κ ρ → Tombstone.Hold
  | .planted (some (p, row)) => .planted p row
  | .planted none => .nothing
  | .sweep sw .selecting => .sweep [] [] sw.stamped
  | .sweep sw _ => .sweep sw.claimed [] sw.stamped

/-- The player whose rows the sweep is deleting, and the rows it has still to reach. -/
def erasing : Point κ ρ → Option (Uuid × List κ)
  | .sweep sw (.deleting todo) => sw.claimed.head?.map (fun c => (c.1, todo))
  | _ => none

def removals : Point κ ρ → List (Removal κ ρ)
  | .planted _ => []
  | .sweep sw _ => sw.removed

def removed (q : Point κ ρ) : List κ := q.removals.map Removal.key

/-- The deleted rows were rows of their players. -/
def Owned (o : Policy κ ρ) (q : Point κ ρ) : Prop :=
  ∀ m ∈ q.removals, o.owns m.player m.key m.row = true

end Point

end Program

section Moves

variable {κ ρ ε : Type} [DecidableEq κ]
variable {o : Policy κ ρ} {t : Sess} {T : Tables κ ρ} {m : Move κ ρ} {k : κ} {p : Uuid}
variable {tomb : Tombstone} {events : Removal κ ρ → List ε} {sw : Sweep κ ρ}

/-- What a session has changed; nothing outside of the purge. -/
def changesOf
    (events : Removal κ ρ → List ε)
    (q : Option (Point κ ρ)) :
    List (Change κ ρ ε) :=
  q.elim [] (Point.changes events)

def tombsOf (q : Option (Point κ ρ)) : Tombstone.Hold := q.elim .nothing Point.tombs

section

omit [DecidableEq κ]

theorem reach_frame
    (o : Policy κ ρ)
    (T : Tables κ ρ)
    (t : Sess)
    (p : Uuid)
    (tomb : Tombstone)
    (k : κ)
    (sw : Sweep κ ρ) :
    (sw.reach o T t p tomb k).claimed = sw.claimed ∧
      (sw.reach o T t p tomb k).stamped = sw.stamped := by
  unfold Sweep.reach
  split
  · split <;> exact ⟨rfl, rfl⟩
  · exact ⟨rfl, rfl⟩

/-- A row that is reached is deleted for the player, or nothing is. -/
theorem reach_cases
    (o : Policy κ ρ)
    (T : Tables κ ρ)
    (t : Sess)
    (p : Uuid)
    (tomb : Tombstone)
    (k : κ)
    (sw : Sweep κ ρ) :
    (sw.reach o T t p tomb k).removed = sw.removed ∨
      ∃ r, T.rows.view t k = some r ∧ o.owns p k r = true ∧
        (sw.reach o T t p tomb k).removed = sw.removed ++ [⟨k, r, p, tomb⟩] := by
  unfold Sweep.reach
  cases hview : T.rows.view t k with
  | none => exact .inl rfl
  | some r =>
    cases hown : o.owns p k r with
    | true => exact .inr ⟨r, rfl, hown, by simp [hown]⟩
    | false => exact .inl (by simp [hown])

theorem reach_removed
    {k' : κ}
    (hk : k' ∈ sw.removed.map Removal.key) :
    k' ∈ (sw.reach o T t p tomb k).removed.map Removal.key := by
  rcases reach_cases o T t p tomb k sw with hsame | ⟨_, -, -, hnew⟩
  · rwa [hsame]
  · rw [hnew, map_append]
    exact mem_append_left _ hk

theorem changes_deleted : ∀ c ∈ sw.changes events, c.new = none := by
  intro _ hc
  obtain ⟨_, -, rfl⟩ := mem_map.1 hc
  rfl

theorem removed_of_changes
    {c : Change κ ρ ε}
    (hc : c ∈ sw.changes events) :
    c.key ∈ sw.removed.map Removal.key := by
  obtain ⟨_, he, rfl⟩ := mem_map.1 hc
  exact mem_map_of_mem he

theorem changes_of_removed
    (events : Removal κ ρ → List ε)
    (hk : k ∈ sw.removed.map Removal.key) :
    ∃ c ∈ sw.changes events, c.key = k := by
  obtain ⟨_, he, rfl⟩ := mem_map.1 hk
  exact ⟨_, mem_map_of_mem he, rfl⟩

end

/-- A move follows the tombstones. -/
theorem Move.tombs (hg : (m.stmt o t).guard T) :
    Tombstone.Step t T.purged (tombsOf (m.stmt o t).before) ((m.stmt o t).change T).purged
      (tombsOf ((m.stmt o t).after T)) := by
  cases m with
  | plant q handle => exact .plant q handle hg.1 hg.2
  | sweepOpen => exact .opening
  | select => exact .claim _ _ _ _
  | row sw q tomb rest todo k =>
    obtain ⟨hclaimed, hstamped⟩ := reach_frame o T t q tomb k sw
    simp only [Move.stmt, tombsOf, elim_some, Point.tombs, hclaimed, hstamped]
    exact .same _
  | stamp sw q tomb rest spent =>
    have hafter : tombsOf (((Move.stamp sw q tomb rest spent).stmt o t).after T) =
        .sweep rest [] (sw.stamped ++ [(q, tomb)]) := by
      cases spent <;> rfl
    have hbefore : tombsOf ((Move.stamp sw q tomb rest spent).stmt o t).before =
        .sweep ((q, tomb) :: rest) [] sw.stamped :=
      congrArg (Tombstone.Hold.sweep · [] sw.stamped) hg
    rw [hafter, hbefore]
    exact .stamp q tomb rest [] sw.stamped
  | more sw =>
    have hbefore : tombsOf ((Move.more sw).stmt o t).before = .sweep [] [] sw.stamped :=
      congrArg (Tombstone.Hold.sweep · [] sw.stamped) hg.1
    rw [hbefore]
    exact .same _
  | _ => exact .same _

theorem edits_reach
    (hfree : T.rows.Free t k) :
    T.rows.Edits t (sw.changes events)
      (T.rows.deleteWhere t (o.owns p) k)
      ((sw.reach o T t p tomb k).changes events) := by
  unfold Table.deleteWhere Sweep.reach
  cases hview : T.rows.view t k with
  | none => exact .same
  | some r =>
    cases hown : o.owns p k r with
    | true =>
      simp only [any_some, hown, if_true, Sweep.changes, map_append]
      exact .seen ⟨k, some r, none, events ⟨k, r, p, tomb⟩⟩ changes_deleted hfree hview rfl
    | false =>
      simp only [any_some, hown, Bool.false_eq_true, if_false]
      exact .same

omit [DecidableEq κ] in
theorem owned_reach
    {todo todo' : List κ}
    (h : (Point.sweep sw (.deleting todo)).Owned o) :
    (Point.sweep (sw.reach o T t p tomb k) (.deleting todo')).Owned o := by
  intro m hm
  have hm : m ∈ (sw.reach o T t p tomb k).removed := hm
  rcases reach_cases o T t p tomb k sw with hsame | ⟨_, -, hown, hnew⟩
  · rw [hsame] at hm
    exact h m hm
  · rw [hnew] at hm
    rcases mem_append.1 hm with hm | hm
    · exact h m hm
    · cases mem_singleton.1 hm
      exact hown

theorem Move.owned
    (h : ∀ q, (m.stmt o t).before = some q → q.Owned o) :
    ∀ q, (m.stmt o t).after T = some q → q.Owned o := by
  intro q hq
  cases m with
  | plant | plantConflict | sweepOpen =>
    cases hq
    exact forall_mem_nil _
  | row sw p tomb rest todo k =>
    cases hq
    exact owned_reach (h _ rfl)
  | select sw | delete sw | stamp sw | more sw | finish sw =>
    have hold : ∀ m ∈ sw.removed, o.owns m.player m.key m.row = true := h _ rfl
    cases hq
    exact hold

/-- A move makes the changes that its sweep records. -/
theorem Move.edits (hg : (m.stmt o t).guard T) :
    T.rows.Edits t (changesOf events (m.stmt o t).before) ((m.stmt o t).change T).rows
      (changesOf events ((m.stmt o t).after T)) := by
  cases m with
  | row => exact edits_reach hg.2.2
  | _ => exact .same

theorem Move.committed
    (m : Move κ ρ)
    (k : κ) :
    ((m.stmt o t).change T).rows.committed k = T.rows.committed k := by
  cases m with
  | row => exact committed_deleteWhere _ _ _ _ _
  | _ => rfl

theorem Move.committed_purged
    (m : Move κ ρ)
    (p : Uuid) :
    ((m.stmt o t).change T).purged.committed p = T.purged.committed p := by
  cases m with
  | plant | stamp => exact committed_write _ _ _ _ _
  | select => exact committed_lockAll _ _ _ _
  | _ => rfl

end Moves

section Services

variable {D P A κ ρ ε : Type} [DecidableEq κ] {T : Tables κ ρ}

/-- What a statement of a service does to the tables of its purge: a move, the end of a
transaction, or something to the rows by a session outside of the purge. -/
inductive Does (o : Policy κ ρ) (t : Sess) (T : Tables κ ρ) :
    Option (Point κ ρ) → Tables κ ρ → Option (Point κ ρ) → Prop
  | move (m : Move κ ρ)
      (hg : (m.stmt o t).guard T) :
      Does o t T (m.stmt o t).before ((m.stmt o t).change T) ((m.stmt o t).after T)
  | commit (q : Option (Point κ ρ)) :
      Does o t T q ⟨T.rows.commit t, T.purged.commit t⟩ none
  | rollback (q : Option (Point κ ρ)) :
      Does o t T q ⟨T.rows.rollback t, T.purged.rollback t⟩ none
  | rows (R : Table κ Sess ρ)
      (hR : Table.Step T.rows (some t) R) :
      Does o t T none ⟨R, T.purged⟩ none

theorem Does.tombs
    {o : Policy κ ρ}
    {t : Sess}
    {T' : Tables κ ρ}
    {q q' : Option (Point κ ρ)}
    (h : Does o t T q T' q') :
    Tombstone.Step t T.purged (tombsOf q) T'.purged (tombsOf q') := by
  cases h with
  | move m hg => exact m.tombs hg
  | commit => exact .commit _
  | rollback => exact .rollback _
  | rows => exact .same _

/-- What the purge sees of a service: its tables, and where its sessions are. -/
structure Host (D P κ ρ : Type) where
  tables : D → Tables κ ρ
  point : P → Option (Point κ ρ)

namespace Host

variable (S : Host D P κ ρ)

def erasing (pc : P) : Option (Uuid × List κ) := (S.point pc).bind Point.erasing

/-- The player whose rows the statement begins to delete. -/
def starting (X : Programs D P A) (t : Sess) (a : A) (d : D) : Option Uuid :=
  if (S.erasing (X.stmt t a).before).isSome then none
  else (S.erasing ((X.stmt t a).after d)).map Prod.fst

/-- How the sweep erases rows.  A row goes with its player; `adding` says that a session is
about to add rows of a player. -/
def eraser (o : Policy κ ρ) (adding : P → Uuid → Prop) : Eraser D P (κ × Uuid) where
  present d e := ∃ r, (S.tables d).rows.committed e.1 = some r ∧ o.owns e.2 e.1 r = true
  own p e := e.2 = p
  swept d p := Tombstone.Swept (S.tables d).purged p
  erasing pc := (S.erasing pc).map (fun e => (e.1, e.2.map (fun k => (k, e.1))))
  stamped pc p := p ∈ (tombsOf (S.point pc)).stamps
  deleted pc e := ∃ q ∈ S.point pc, e.1 ∈ q.removed
  adding := adding

/-- What the statements of a service have to satisfy.  `events` are the events of a
deleted row. -/
structure Runs
    (o : Policy κ ρ)
    (X : Programs D P A)
    (events : Removal κ ρ → List ε) :
    Prop where
  start : S.tables X.data = ⟨Table.empty, Table.empty⟩
  idle : S.point X.idle = none
  does : ∀ t a d, (X.stmt t a).guard d →
    Does o t (S.tables d) (S.point (X.stmt t a).before) (S.tables ((X.stmt t a).change d))
      (S.point ((X.stmt t a).after d))
  made : ∀ (G : World D P → Sess × A → Prop) w, X.system.Reachable G w → ∀ t q,
    S.point (w.pc t) = some q → (S.tables w.data).rows.Made t (q.changes events)

end Host

/-- A service, and the player for whom a session has found no tombstone and is going to add
rows. -/
structure Adder (D P κ ρ : Type) extends Host D P κ ρ where
  adding : P → Option Uuid

namespace Adder

variable (S : Adder D P κ ρ)

/-- The condition on a step under which the purge is final: when the `DELETE` for a player
starts, no session that has found no tombstone of this player is in progress. -/
def Fenced (X : Programs D P A) (w : World D P) (l : Sess × A) : Prop :=
  ∀ p ∈ S.starting X l.1 l.2 w.data, ∀ u, S.adding (w.pc u) ≠ some p

/-- The condition for runs of the sessions below `n`, which can be decided. -/
def FencedBelow
    (n : Nat)
    (X : Programs D P A)
    (w : World D P)
    (l : Sess × A) :
    Prop :=
  l.1 < n ∧ ∀ p ∈ S.starting X l.1 l.2 w.data, ∀ u < n, S.adding (w.pc u) ≠ some p

instance (n : Nat) (X : Programs D P A) (w : World D P) (l : Sess × A) :
    Decidable (S.FencedBelow n X w l) :=
  inferInstanceAs (Decidable (_ ∧ _))

/-- Rows are added for players without a tombstone only. -/
structure Lawful
    (o : Policy κ ρ)
    (X : Programs D P A)
    (events : Removal κ ρ → List ε) :
    Prop extends S.toHost.Runs o X events where
  idle_adds : S.adding X.idle = none
  apart : ∀ pc p, S.adding pc = some p → S.point pc = none
  adds : ∀ t a d p, (X.stmt t a).guard d → S.adding ((X.stmt t a).after d) = some p →
    S.adding (X.stmt t a).before = some p ∨
      (S.point (X.stmt t a).before = none ∧ (S.tables d).purged.view t p = none)
  added : ∀ (G : World D P → Sess × A → Prop) w t a k r p, X.system.Reachable G w →
    X.enabled w (t, a) → (S.tables ((X.stmt t a).change w.data)).rows.committed k = some r →
      o.owns p k r = true →
        (∃ r', (S.tables w.data).rows.committed k = some r' ∧ o.owns p k r' = true) ∨
          S.adding (X.stmt t a).before = some p

end Adder

variable {S : Host D P κ ρ} {o : Policy κ ρ} {X : Programs D P A}
variable {events : Removal κ ρ → List ε} {adding : P → Uuid → Prop}
variable {G : World D P → Sess × A → Prop} {w w' : World D P} {t : Sess} {a : A}
variable {d : D} {p : Uuid} {k : κ} {todo : List κ} {m : Move κ ρ}

theorem Host.Runs.tombs_kept (L : S.Runs o X events) :
    Tombstone.Kept X (fun d => (S.tables d).purged) (fun pc => tombsOf (S.point pc)) where
  start := congrArg Tables.purged L.start
  idle := congrArg tombsOf L.idle
  step := fun t a d hg => (L.does t a d hg).tombs

omit [DecidableEq κ] in
theorem erasing_sweep
    {q : Point κ ρ}
    (h : q.erasing = some (p, todo)) :
    ∃ sw tomb, q = .sweep sw (.deleting todo) ∧ sw.claimed.head? = some (p, tomb) := by
  cases q with
  | planted => cases h
  | sweep sw st =>
    cases st with
    | deleting =>
      obtain ⟨⟨_, tomb⟩, hc, he⟩ := map_eq_some_iff.1 h
      cases he
      exact ⟨sw, tomb, rfl, hc⟩
    | _ => cases h

section Points

variable {pc : P} {q : Point κ ρ} {keys : List (κ × Uuid)}

omit [DecidableEq κ] in
theorem erasing_of_point
    (hq : S.point pc = some q)
    (he : q.erasing = some (p, todo)) :
    (S.eraser o adding).erasing pc = some (p, todo.map (fun k => (k, p))) := by
  simp [Host.eraser, Host.erasing, hq, he]

omit [DecidableEq κ] in
theorem point_of_erasing
    (h : (S.eraser o adding).erasing pc = some (p, keys)) :
    ∃ q todo, S.point pc = some q ∧ q.erasing = some (p, todo) ∧
      keys = todo.map (fun k => (k, p)) := by
  obtain ⟨⟨_, todo⟩, hall, heq⟩ := map_eq_some_iff.1 h
  obtain ⟨q, hq, he⟩ := bind_eq_some_iff.1 hall
  cases heq
  exact ⟨q, todo, hq, he, rfl⟩

end Points

/-- The player of a sweep that is under way has a committed tombstone. -/
theorem tombstone_of_erasing
    (L : S.Runs o X events)
    (h : X.system.Reachable G w)
    (he : (S.eraser o adding).Erasing w p) :
    (S.tables w.data).purged.committed p ≠ none := by
  rcases he with ⟨row, hrow, -⟩ | ⟨t, hst | ⟨todo, her⟩⟩
  · rw [hrow]
    exact some_ne_none _
  · exact Tombstone.committed_of_stamps (L.tombs_kept.held h t).1 hst
  · obtain ⟨q, _, hq, hpoint, -⟩ := point_of_erasing her
    obtain ⟨sw, tomb, rfl, hhead⟩ := erasing_sweep hpoint
    have ho := (L.tombs_kept.held h t).1
    rw [hq] at ho
    rw [show (S.tables w.data).purged.committed p = some tomb from
      Tombstone.committed_of_todo ho (mem_of_head? hhead)]
    exact some_ne_none _

/-- A session outside of the purge sees the committed tombstones. -/
theorem view_of_apart
    (L : S.Runs o X events)
    (h : X.system.Reachable G w)
    (hq : S.point (w.pc t) = none) :
    (S.tables w.data).purged.view t p = (S.tables w.data).purged.committed p := by
  have ho := (L.tombs_kept.held h t).1
  rw [hq] at ho
  exact view_of_not_holder (Owes.holdsNone ho p)

/-- The rows that a sweep does not see are not there, or deleted by itself. -/
theorem removed_of_unseen
    {sw : Sweep κ ρ}
    (hm : T.rows.Made t (sw.changes events))
    (hview : T.rows.view t k = none)
    (hk : T.rows.committed k ≠ none) :
    k ∈ sw.removed.map Removal.key := by
  obtain ⟨_, hc, rfl⟩ := hm.owes.changed_of_unseen hview hk
  exact removed_of_changes hc

/-- The `DELETE` of a sweep: a row of the player is to be reached, or deleted. -/
theorem Move.erases {q : Point κ ρ} {r : ρ}
    (hg : (m.stmt o t).guard T)
    (hm : ∀ q', (m.stmt o t).before = some q' → T.rows.Made t (q'.changes events))
    (hq : (m.stmt o t).after T = some q) (he : q.erasing = some (p, todo))
    (hrow : T.rows.committed k = some r) (hown : o.owns p k r = true)
    (hold : ∀ q' todo', (m.stmt o t).before = some q' → q'.erasing = some (p, todo') →
      k ∈ todo' ∨ k ∈ q'.removed) : k ∈ todo ∨ k ∈ q.removed := by
  -- a sweep that sees the row sees it as it is committed
  have hseen : ∀ {sw : Sweep κ ρ} {r' : ρ}, T.rows.Made t (sw.changes events) →
      T.rows.view t k = some r' → r' = r := by
    intro sw r' hm hview
    have hnew := hm.owes.unchanged_of_view changes_deleted hview
    rw [hm.owes.committed_of_unchanged hnew hview] at hrow
    exact some.inj hrow
  have hthere : T.rows.committed k ≠ none := by
    rw [hrow]
    exact some_ne_none _
  cases m with
  | delete sw q₀ =>
    cases hq
    have he : sw.claimed.head?.map (fun c => (c.1, T.rowsOf o t q₀)) = some (p, todo) := he
    rw [show sw.claimed = _ from hg] at he
    cases he
    cases hview : T.rows.view t k with
    | none => exact .inr (removed_of_unseen (hm _ rfl) hview hthere)
    | some =>
      cases hseen (hm _ rfl) hview
      exact .inl (mem_select.2 ⟨r, hview, hown⟩)
  | row sw q₀ tomb rest todo₀ k₀ =>
    cases hq
    have he : (sw.reach o T t q₀ tomb k₀).claimed.head?.map
        (fun c => (c.1, todo₀.erase k₀)) = some (p, todo) := he
    rw [(reach_frame o T t q₀ tomb k₀ sw).1, hg.1] at he
    cases he
    have hbefore : (Point.sweep sw (.deleting todo₀)).erasing = some (q₀, todo₀) := by
      show sw.claimed.head?.map (fun c => (c.1, todo₀)) = _
      rw [hg.1]
      rfl
    rcases hold _ todo₀ rfl hbefore with hmem | hrem
    · by_cases hkk : k = k₀
      · subst hkk
        refine .inr ?_
        cases hview : T.rows.view t k with
        | none => exact reach_removed (removed_of_unseen (hm _ rfl) hview hthere)
        | some =>
          cases hseen (hm _ rfl) hview
          show k ∈ (sw.reach o T t q₀ tomb k).removed.map Removal.key
          simp [Sweep.reach, hview, hown]
      · exact .inl ((mem_erase_of_ne hkk).2 hmem)
    · exact .inr (reach_removed hrem)
  | stamp sw q₀ tomb rest spent => cases spent <;> cases hq <;> cases he
  | _ =>
    cases hq
    cases he

/-- A stamp follows the `DELETE`, and a sweep forgets no row that it has deleted. -/
theorem Move.stamps
    (hg : (m.stmt o t).guard T)
    (hst : p ∈ (tombsOf ((m.stmt o t).after T)).stamps) :
    (p ∈ (tombsOf (m.stmt o t).before).stamps ∨
      ∃ q, (m.stmt o t).before = some q ∧ q.erasing = some (p, [])) ∧
      ∀ q k, (m.stmt o t).before = some q → k ∈ q.removed →
        ∃ q' ∈ (m.stmt o t).after T, k ∈ q'.removed := by
  cases m with
  | row sw q tomb rest todo k =>
    refine ⟨.inl ?_, fun q' k' hq' hk' => ?_⟩
    · have hst : p ∈ (sw.reach o T t q tomb k).stamped.map Prod.fst := hst
      rwa [(reach_frame o T t q tomb k sw).2] at hst
    · cases hq'
      exact ⟨_, rfl, reach_removed hk'⟩
  | stamp sw q tomb rest spent =>
    have hst : p ∈ (sw.stamped ++ [(q, tomb)]).map Prod.fst := by cases spent <;> exact hst
    refine ⟨?_, fun q' k' hq' hk' => ?_⟩
    · rw [map_append, mem_append] at hst
      refine hst.imp id (fun hst => ⟨_, rfl, ?_⟩)
      cases mem_singleton.1 hst
      show sw.claimed.head?.map _ = _
      rw [show sw.claimed = _ from hg]
      rfl
    · cases hq'
      exact ⟨_, rfl, hk'⟩
  | plant | plantConflict | sweepOpen => cases hst
  | _ =>
    refine ⟨.inl hst, fun q' k' hq' hk' => ?_⟩
    cases hq'
    exact ⟨_, rfl, hk'⟩

/-- The player whose rows are being deleted stays the same until the stamp. -/
theorem Move.begins
    {q q' : Point κ ρ}
    {e : Uuid × List κ}
    (hg : (m.stmt o t).guard T)
    (hq : (m.stmt o t).before = some q)
    (hq' : (m.stmt o t).after T = some q')
    (hb : q.erasing = some e)
    (he : q'.erasing = some (p, todo)) :
    e.1 = p := by
  cases m with
  | row sw q₀ tomb _ todo₀ k =>
    cases hq
    cases hq'
    have he : (sw.reach o T t q₀ tomb k).claimed.head?.map (fun c => (c.1, todo₀.erase k)) =
        some (p, todo) := he
    have hb : sw.claimed.head?.map (fun c => (c.1, todo₀)) = some e := hb
    rw [(reach_frame o T t q₀ tomb k sw).1, hg.1] at he
    rw [hg.1] at hb
    cases he
    cases hb
    rfl
  | stamp _ _ _ _ spent => cases spent <;> cases hq' <;> cases he
  | delete =>
    cases hq
    cases hb
  | plant | plantConflict | sweepOpen => cases hq
  | _ =>
    cases hq'
    cases he

section Tables

variable {T T' : Tables κ ρ} {b c : Option (Point κ ρ)}

theorem Does.begins
    {q q' : Point κ ρ}
    {e : Uuid × List κ}
    {todo : List κ}
    (h : Does o t T (some q) T' (some q'))
    (hb : q.erasing = some e)
    (he : q'.erasing = some (p, todo)) :
    e.1 = p := by
  generalize hq : some q = b at h
  generalize hq' : some q' = c at h
  cases h with
  | commit | rollback | rows => cases hq'
  | move _ hg => exact Move.begins hg hq.symm hq'.symm hb he

theorem Does.erases
    {q : Point κ ρ}
    {todo : List κ}
    {r : ρ}
    (h : Does o t T b T' (some q))
    (hm : ∀ q', b = some q' → T.rows.Made t (q'.changes events))
    (he : q.erasing = some (p, todo))
    (hrow : T'.rows.committed k = some r)
    (hown : o.owns p k r = true)
    (hold : ∀ q' todo', b = some q' → q'.erasing = some (p, todo') → k ∈ todo' ∨ k ∈ q'.removed) :
    k ∈ todo ∨ k ∈ q.removed := by
  generalize hq : some q = c at h
  cases h with
  | commit | rollback | rows => cases hq
  | move m hg =>
    rw [m.committed] at hrow
    exact Move.erases hg hm hq.symm he hrow hown hold

theorem Does.stamps
    (h : Does o t T b T' c)
    (hst : p ∈ (tombsOf c).stamps) :
    (p ∈ (tombsOf b).stamps ∨ ∃ q, b = some q ∧ q.erasing = some (p, [])) ∧
      ∀ q k, b = some q → k ∈ q.removed → ∃ q' ∈ c, k ∈ q'.removed := by
  cases h with
  | commit | rollback | rows => cases hst
  | move _ hg => exact Move.stamps hg hst

theorem Does.sweeps
    (h : Does o t T b T' c)
    (hm : ∀ q', b = some q' → T.rows.Made t (q'.changes events))
    (htombs : T.purged.Owes t (tombsOf b).holding ∧ (tombsOf b).Tidy)
    (hs : Tombstone.Swept T'.purged p) :
    Tombstone.Swept T.purged p ∨ (p ∈ (tombsOf b).stamps ∧
      ∀ q k, b = some q → k ∈ q.removed → T'.rows.committed k = none) := by
  have hquiet : T'.purged.committed p = T.purged.committed p → Tombstone.Swept T.purged p := by
    intro hsame
    obtain ⟨row, hrow, hswept⟩ := hs
    exact ⟨row, hsame.symm.trans hrow, hswept⟩
  cases h with
  | move m => exact .inl (hquiet (m.committed_purged p))
  | rollback => exact .inl (hquiet (committed_rollback _ _ _))
  | rows => exact .inl (hquiet rfl)
  | commit =>
    refine (Tombstone.swept_of_commit htombs.1 htombs.2 hs).imp_right (fun hst => ⟨hst, ?_⟩)
    rintro q k rfl hmem
    cases q with
    | planted => cases hmem
    | sweep =>
      obtain ⟨c, hc, rfl⟩ := changes_of_removed events hmem
      have hgone := (hm _ rfl).owes.applies.written c.write (mem_map_of_mem hc)
      exact hgone.trans (changes_deleted c hc)

end Tables

namespace Host.Runs

variable {keys : List (κ × Uuid)} {e : κ × Uuid}

theorem made_before
    (L : S.Runs o X events)
    (h : X.system.Reachable G w)
    (en : X.enabled w (t, a)) :
    ∀ q, S.point (X.stmt t a).before = some q →
      (S.tables w.data).rows.Made t (q.changes events) := by
  have hmade := L.made G w h t
  rwa [show w.pc t = _ from en.1] at hmade

/-- An erasure goes on, or the statement starts it. -/
theorem begins
    (L : S.Runs o X events)
    (hg : (X.stmt t a).guard d)
    (he : (S.eraser o adding).erasing ((X.stmt t a).after d) = some (p, keys)) :
    (∃ keys', (S.eraser o adding).erasing (X.stmt t a).before = some (p, keys')) ∨
      S.starting X t a d = some p := by
  obtain ⟨q', _, hq', he, -⟩ := point_of_erasing he
  cases hb : S.erasing (X.stmt t a).before with
  | none =>
    refine .inr ?_
    rw [Host.starting, hb]
    simp [Host.erasing, hq', he]
  | some e =>
    obtain ⟨q, hq, hbe⟩ := bind_eq_some_iff.1 hb
    have hd := L.does t a d hg
    rw [hq, hq'] at hd
    cases hd.begins hbe he
    exact .inl ⟨_, erasing_of_point hq hbe⟩

/-- A row of the player that is there is still to be reached, or deleted. -/
theorem erases
    (L : S.Runs o X events)
    (h : X.system.Reachable G w)
    (en : X.enabled w (t, a))
    (he : (S.eraser o adding).erasing ((X.stmt t a).after w.data) = some (p, keys))
    (hown : e.2 = p)
    (hk : (S.eraser o adding).present ((X.stmt t a).change w.data) e)
    (hold : ∀ keys', (S.eraser o adding).erasing (X.stmt t a).before = some (p, keys') →
      e ∈ keys' ∨ (S.eraser o adding).deleted (X.stmt t a).before e) :
    e ∈ keys ∨ (S.eraser o adding).deleted ((X.stmt t a).after w.data) e := by
  obtain ⟨q, todo, hq, hpoint, rfl⟩ := point_of_erasing he
  obtain ⟨_, hrow, hrown⟩ := hk
  rw [hown] at hrown
  have hd := L.does t a w.data en.2
  rw [hq] at hd
  have hreached : ∀ q' todo', S.point (X.stmt t a).before = some q' →
      q'.erasing = some (p, todo') → e.1 ∈ todo' ∨ e.1 ∈ q'.removed := by
    intro q' todo' hq' he'
    rcases hold _ (erasing_of_point hq' he') with hmem | ⟨_, hq'', hmem⟩
    · obtain ⟨_, hk', rfl⟩ := mem_map.1 hmem
      exact .inl hk'
    · cases hq'.symm.trans hq''
      exact .inr hmem
  rcases hd.erases (L.made_before h en) hpoint hrow hrown hreached with hmem | hmem
  · exact .inl (mem_map.2 ⟨e.1, hmem, congrArg (Prod.mk e.1) hown.symm⟩)
  · exact .inr ⟨q, hq, hmem⟩

/-- A player is stamped when the erasure has come to its end. -/
theorem stamps
    (L : S.Runs o X events)
    (hg : (X.stmt t a).guard d)
    (hst : (S.eraser o adding).stamped ((X.stmt t a).after d) p) :
    ((S.eraser o adding).stamped (X.stmt t a).before p ∨
      (S.eraser o adding).erasing (X.stmt t a).before = some (p, [])) ∧
      ∀ e, (S.eraser o adding).deleted (X.stmt t a).before e →
        (S.eraser o adding).deleted ((X.stmt t a).after d) e := by
  obtain ⟨hbefore, hkeep⟩ := (L.does t a d hg).stamps hst
  refine ⟨hbefore.imp id ?_, ?_⟩
  · rintro ⟨q, hq, he⟩
    exact erasing_of_point hq he
  · rintro e ⟨q, hq, hmem⟩
    exact hkeep q e.1 hq hmem

/-- A player is swept when the stamp is committed, with the rows that were deleted. -/
theorem sweeps
    (L : S.Runs o X events)
    (h : X.system.Reachable G w)
    (en : X.enabled w (t, a))
    (hs : (S.eraser o adding).swept ((X.stmt t a).change w.data) p) :
    (S.eraser o adding).swept w.data p ∨
      ((S.eraser o adding).stamped (X.stmt t a).before p ∧
        ∀ e, (S.eraser o adding).deleted (X.stmt t a).before e →
          ¬ (S.eraser o adding).present ((X.stmt t a).change w.data) e) := by
  have htombs := L.tombs_kept.held h t
  rw [show w.pc t = _ from en.1] at htombs
  refine ((L.does t a w.data en.2).sweeps (L.made_before h en) htombs hs).imp_right ?_
  rintro ⟨hst, hgone⟩
  refine ⟨hst, ?_⟩
  rintro e ⟨q, hq, hmem⟩ ⟨r, hr, -⟩
  exact absurd ((hgone q e.1 hq hmem).symm.trans hr) (some_ne_none r).symm

theorem none_swept
    (L : S.Runs o X events)
    (p : Uuid) :
    ¬ (S.eraser o adding).swept X.data p := by
  intro hs
  have hs : Tombstone.Swept (S.tables X.data).purged p := hs
  rw [L.start] at hs
  exact Tombstone.not_swept_empty hs

theorem idle_apart (L : S.Runs o X events) :
    (S.eraser o adding).erasing X.idle = none ∧
      ∀ p, ¬ (S.eraser o adding).stamped X.idle p := by
  simp [Host.eraser, Host.erasing, L.idle, tombsOf, Tombstone.Hold.stamps]

/-- The tombstone of a player under erasure is seen by the sessions outside of the purge. -/
theorem seen_of_erasing
    (L : S.Runs o X events)
    (h : X.system.Reachable G w)
    (hq : S.point (w.pc t) = none)
    (he : (S.eraser o adding).Erasing w p) :
    (S.tables w.data).purged.view t p ≠ none := by
  rw [view_of_apart L h hq]
  exact tombstone_of_erasing L h he

end Host.Runs

section Adders

variable {S : Adder D P κ ρ}

/-- Whoever adds rows of a player has seen no tombstone, so that no erasure is under way. -/
theorem adds_apart
    (L : S.Lawful o X events)
    (h : X.system.Reachable G w)
    (en : X.enabled w (t, a))
    (hadd : S.adding ((X.stmt t a).after w.data) = some p) :
    S.adding (X.stmt t a).before = some p ∨
      (¬ (S.eraser o adding).Erasing w p ∧ S.starting X t a w.data ≠ some p) := by
  refine (L.adds t a w.data p en.2 hadd).imp_right ?_
  rintro ⟨hq, hview⟩
  refine ⟨fun he => ?_, fun hs => ?_⟩
  · exact L.seen_of_erasing h (by rw [show w.pc t = _ from en.1]; exact hq) he hview
  · have hnone : S.erasing ((X.stmt t a).after w.data) = none := by
      simp [Host.erasing, L.apart _ p hadd]
    rw [Host.starting, hnone] at hs
    split at hs <;> cases hs

theorem eraser_lawful (L : S.Lawful o X events) :
    (S.eraser o (fun pc p => S.adding pc = some p)).Lawful X (S.Fenced X)
      (fun t a d p => S.starting X t a d = some p) where
  none_swept := L.none_swept
  idle := ⟨L.idle_apart.1, L.idle_apart.2,
    fun p hadd => some_ne_none p (hadd.symm.trans L.idle_adds)⟩
  begins := fun _ _ _ _ _ => L.begins
  erases := fun _ _ _ _ _ _ => L.erases
  stamps := fun _ _ _ _ => L.stamps
  sweeps := fun _ _ _ _ => L.sweeps
  adds := fun _ _ _ _ h _ => adds_apart L h
  alone := fun _ _ _ p _ hG _ hs u => hG p hs u
  added := by
    rintro w t a _ ⟨k, q⟩ h en rfl ⟨r, hrow, hown⟩
    exact L.added _ w t a k r q h en hrow hown

omit [DecidableEq κ] in
/-- The sessions that take no step are idle. -/
theorem fenced_of_below
    {n : Nat}
    {l : Sess × A}
    (hidle : S.adding X.idle = none)
    (h : X.system.Reachable (S.FencedBelow n X) w)
    (hl : S.FencedBelow n X w l) :
    S.Fenced X w l := by
  intro p hp u
  have hquiet : ∀ u, n ≤ u → w.pc u = X.idle := by
    refine h.invariant (fun _ _ => rfl) ?_
    rintro _ ⟨t, _⟩ _ hI hG _ u hu
    have hut : u ≠ t := by
      rintro rfl
      exact Nat.not_lt.2 hu hG.1
    exact (Programs.pc_other hut).trans (hI u hu)
  by_cases hu : u < n
  · exact hl.2 p hp u hu
  · rw [hquiet u (Nat.not_lt.1 hu), hidle]
    exact (some_ne_none p).symm

/-- The rule: a player whose tombstone is stamped has no row, then and later. -/
theorem swept_none
    {w' : World D P}
    (L : S.Lawful o X events)
    (h : X.system.Reachable (S.Fenced X) w)
    (hrun : X.system.Reaches (S.Fenced X) w w')
    (hs : Tombstone.Swept (S.tables w.data).purged p) :
    ∀ k r, (S.tables w'.data).rows.committed k = some r → o.owns p k r ≠ true := by
  have hs' := L.tombs_kept.swept h hrun hs
  intro k r hrow hown
  exact ((eraser_lawful L).cleared (h.trans hrun)).swept p hs' (k, p) rfl ⟨r, hrow, hown⟩

end Adders

end Services

end Sweeper
end Swarog
