import Swarog.Characters.Purge
import Swarog.Inventory.Purge
import Swarog.Notifications.Inbox

/-!
# What belongs to a deleted player

Characters, the inventory and notifications each keep their own tombstones and run their own
sweep; they share nothing.  Each of them reads the tombstone before it adds a row, in a
statement that takes no lock which the plant or the sweep would wait for.
-/

namespace Swarog.Belongings

open Pg TransitionSystem

/-- The three services side by side. -/
def system := Characters.system.beside (Inventory.system.beside Notifications.system)

abbrev State :=
  World Characters.Data Characters.Pc ×
    World Inventory.Data Inventory.Pc × World Notifications.Data Notifications.Pc

abbrev Label := (Sess × Characters.Act) ⊕ (Sess × Inventory.Act) ⊕ (Sess × Notifications.Act)

instance (s : State) (l : Label) : Decidable (system.enabled s l) := by
  unfold system
  infer_instance

/-- When a sweep begins to delete the rows of a player, nothing that has found no tombstone
of this player is in progress in its service. -/
def fenced : State → Label → Prop :=
  TransitionSystem.eachStep (Characters.adder.Fenced Characters.programs)
    (TransitionSystem.eachStep (Inventory.adder.Fenced Inventory.programs)
      (Notifications.adder.Fenced Notifications.programs))

section Runs

variable {κ ρ A : Type}

/-- The tombstone of a player is planted, and a sweep stamps it after it has deleted the
rows `k`. -/
def purgeRun
    (act : Sweeper.Move κ ρ → A)
    (commit : Sweeper.Point κ ρ → A)
    (p : Uuid)
    (rows : List (κ × ρ)) :
    List (Sess × A) :=
  let tomb := Tombstone.planted "ann"
  let removed : List (Sweeper.Removal κ ρ) := rows.map (fun e => ⟨e.1, e.2, p, tomb⟩)
  let selected : Sweeper.Sweep κ ρ := ⟨Uuid.nil, 1, [(p, tomb)], [], []⟩
  let stamped : Sweeper.Sweep κ ρ := ⟨p, 1, [], [(p, tomb)], removed⟩
  [(1, act (.plant p "ann")), (1, commit (.planted (some (p, tomb)))),
   (2, act .sweepOpen), (2, act (.select .first)), (2, act (.delete selected p tomb []))] ++
    rows.map (fun e => (2, act (.row selected p tomb [] [e.1] e.1))) ++
    [(2, act (.stamp { selected with removed := removed } p tomb [] false)),
     (2, act (.finish stamped)), (2, commit (.sweep stamped .finished))]

def ann : Uuid := Characters.annId

open Characters in
def charactersPurge (rows : List (Uuid × CharacterRow)) : List (Sess × Characters.Act) :=
  purgeRun .purge (fun q => .commit (.purge q) []) ann rows

open Inventory in
def inventoryPurge (rows : List (HoldingKey × Int)) : List (Sess × Inventory.Act) :=
  purgeRun .purge (fun q => .commit (.purge q) .other) ann rows

open Notifications in
def notificationsPurge (rows : List (String × MessageRow)) : List (Sess × Notifications.Act) :=
  purgeRun .purge (fun q => .commit (.purge q)) ann rows

open Characters in
/-- A create up to the check of the tombstone, and the rest of it. -/
def create : List (Sess × Characters.Act) × List (Sess × Characters.Act) :=
  ([(0, .createOpen annCreates annKnight), (0, .lockPlayer annCreates annKnight),
    (0, .checkTombstone annCreates annKnight ann)],
   [(0, .readCap annCreates annKnight ann none), (0, .countOwned annCreates annKnight ann 10),
    (0, .insertCharacter annCreates annKnight ann 10 knightId),
    (0, .emitCreated annCreates annKnight ann 10 knightId),
    (0, .commit (.create annCreates annKnight (.emitted ann 10 knightId))
      [.created annCreates (.ok knightId)])])

open Inventory in
def grant : List (Sess × Inventory.Act) × List (Sess × Inventory.Act) :=
  let i : GrantInput := ⟨true, some ann.text, "coin", 1⟩
  let b : Buy := ⟨ann.text, "coin", 1⟩
  ([(0, .buyOpen i b), (0, .buyItem i b), (0, .buyCheck i b ann)],
   [(0, .buyGrant i b ann 1), (0, .buyList i b)])

/-- A message of an event. -/
def welcome : Notifications.NewNotification := ⟨ann.text, "system", "Welcome", "", "event-1"⟩

/-- A message of an operator. -/
def notice : Notifications.NewNotification :=
  ⟨ann.text, "system", "Notice", "", "admin-send-mail-00000000000000000000000000000000"⟩

open Notifications in
def deliver : List (Sess × Notifications.Act) × List (Sess × Notifications.Act) :=
  ([(0, .deliverOpen welcome), (0, .deliverCheck welcome ann)],
   [(0, .deliverInsert welcome ann), (0, .commit (.deliver welcome (.inserted ann)))])

open Notifications in
def send : List (Sess × Notifications.Act) × List (Sess × Notifications.Act) :=
  ([(3, .sendOpen notice), (3, .sendCheck notice ann)], [(3, .sendInsert notice ann)])

/-- Everything checks the tombstone before it is planted, and goes on after the sweep. -/
def lateRun : List Label :=
  (create.1 ++ charactersPurge [] ++ create.2).map .inl ++
    ((grant.1 ++ inventoryPurge [] ++ grant.2).map (fun l => .inr (.inl l)) ++
      (deliver.1 ++ send.1 ++ notificationsPurge [] ++ deliver.2 ++ send.2).map
        (fun l => .inr (.inr l)))

end Runs

theorem belongings_survive_purge :
    ∃ s, system.Reachable TransitionSystem.anyStep s ∧
      (Tombstone.Swept s.1.data.purged ann ∧
        s.1.data.characters.committed Characters.knightId = some ⟨ann, "Knight", "novice"⟩) ∧
      (Tombstone.Swept s.2.1.data.purged ann ∧
        s.2.1.data.holdings.committed ⟨⟨.player, ann⟩, "coin"⟩ = some 1) ∧
      (Tombstone.Swept s.2.2.data.purged ann ∧
        s.2.2.data.messages.committed "event-1" = some (welcome.row ann) ∧
        s.2.2.data.messages.committed notice.sourceEventId = some (notice.row ann)) := by
  obtain ⟨s, hr, hf⟩ := exec_exhibits (T := system) anyStep
    lateRun
    (f := fun s => decide (
      (Tombstone.Swept s.1.data.purged ann ∧
        s.1.data.characters.committed Characters.knightId = some ⟨ann, "Knight", "novice"⟩) ∧
      (Tombstone.Swept s.2.1.data.purged ann ∧
        s.2.1.data.holdings.committed ⟨⟨.player, ann⟩, "coin"⟩ = some 1) ∧
      (Tombstone.Swept s.2.2.data.purged ann ∧
        s.2.2.data.messages.committed "event-1" = some (welcome.row ann) ∧
        s.2.2.data.messages.committed notice.sourceEventId = some (notice.row ann))))
    (by decide +kernel)
  exact ⟨s, hr, of_decide_eq_true hf⟩

section Cleared

variable {s s' : State} {p : Uuid}

/-- Once a service has stamped the tombstone of a player it has no rows of this player, then
and later. -/
theorem belongings_purged (h : system.Reachable fenced s) (hrun : system.Reaches fenced s s') :
    (Tombstone.Swept s.1.data.purged p →
      ∀ id row, s'.1.data.characters.committed id = some row → row.playerId ≠ p) ∧
    (Tombstone.Swept s.2.1.data.purged p →
      ∀ item, s'.2.1.data.holdings.committed ⟨⟨.player, p⟩, item⟩ = none) ∧
    (Tombstone.Swept s.2.2.data.purged p →
      ∀ key row, s'.2.2.data.messages.committed key = some row → row.playerId ≠ p) := by
  refine ⟨?_, ?_, ?_⟩
  · intro hs id row hrow hown
    exact Sweeper.swept_none Characters.lawful h.fst hrun.fst hs id row hrow (decide_eq_true hown)
  · intro hs _
    refine Option.eq_none_iff_forall_ne_some.2 (fun qty hrow => ?_)
    exact Sweeper.swept_none Inventory.lawful h.snd.fst hrun.snd.fst hs _ qty hrow
      (decide_eq_true rfl)
  · intro hs key row hrow hown
    exact Sweeper.swept_none Notifications.lawful h.snd.snd hrun.snd.snd hs key row hrow
      (decide_eq_true hown)

/-- The condition for runs of the first four sessions of each service. -/
def fencedBelow : State → Label → Prop :=
  TransitionSystem.eachStep (Characters.adder.FencedBelow 4 Characters.programs)
    (TransitionSystem.eachStep (Inventory.adder.FencedBelow 4 Inventory.programs)
      (Notifications.adder.FencedBelow 4 Notifications.programs))

instance (s : State) (l : Label) : Decidable (fencedBelow s l) := by
  unfold fencedBelow
  infer_instance

theorem fenced_of_below (h : system.Reachable fencedBelow s) : system.Reachable fenced s := by
  refine Reachable.mono ?_ h
  rintro _ (_ | _ | _) hr hl -
  · exact Sweeper.fenced_of_below rfl hr.fst hl
  · exact Sweeper.fenced_of_below rfl hr.snd.fst hl
  · exact Sweeper.fenced_of_below rfl hr.snd.snd hl

/-- Everything is added before the tombstone is planted, and swept. -/
def earlyRun : List Label :=
  (create.1 ++ create.2 ++
    charactersPurge [(Characters.knightId, ⟨ann, "Knight", "novice"⟩)]).map .inl ++
    ((grant.1 ++ grant.2 ++ inventoryPurge [(⟨⟨.player, ann⟩, "coin"⟩, 1)]).map
        (fun l => .inr (.inl l)) ++
      (deliver.1 ++ deliver.2 ++
        notificationsPurge [(welcome.sourceEventId, welcome.row ann)]).map
        (fun l => .inr (.inr l)))

theorem belongings_purged_early :
    ∃ s, system.Reachable fenced s ∧
      (Tombstone.Swept s.1.data.purged ann ∧
        ∀ id row, s.1.data.characters.committed id = some row → row.playerId ≠ ann) ∧
      (Tombstone.Swept s.2.1.data.purged ann ∧
        ∀ item, s.2.1.data.holdings.committed ⟨⟨.player, ann⟩, item⟩ = none) ∧
      (Tombstone.Swept s.2.2.data.purged ann ∧
        ∀ key row, s.2.2.data.messages.committed key = some row → row.playerId ≠ ann) := by
  obtain ⟨s, hr, hf⟩ := exec_exhibits (T := system) fencedBelow earlyRun
    (f := fun s => decide (Tombstone.Swept s.1.data.purged ann ∧
      Tombstone.Swept s.2.1.data.purged ann ∧ Tombstone.Swept s.2.2.data.purged ann))
    (by decide +kernel)
  obtain ⟨hc, hi, hn⟩ := of_decide_eq_true hf
  have h := fenced_of_below hr
  obtain ⟨h₁, h₂, h₃⟩ := belongings_purged (p := ann) h (.refl s)
  exact ⟨s, h, ⟨hc, h₁ hc⟩, ⟨hi, h₂ hi⟩, ⟨hn, h₃ hn⟩⟩

end Cleared

end Swarog.Belongings
