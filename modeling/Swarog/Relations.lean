import Swarog.Friends.Consent
import Swarog.Friends.Purge
import Swarog.Groups.Journal
import Swarog.Groups.Purge

/-!
# The relations of deleted players

The friends and the groups service relate players to each other.  Both learn of the
deletion of an account by an event, plant a tombstone, and later sweep the relations of
the player.  The two services have their own tables and run side by side.

A call that has read the tombstone before it was planted, or that does not read it,
can insert a relation of a player who is swept: `purge_not_final`.  Under the condition
`Fenced` on the inserts the purge is final.
-/

namespace Swarog.Relations

open Pg TransitionSystem

section Systems

/-- The two services. -/
def system :
    TransitionSystem (World Friends.Data Friends.Pc × World Groups.Data Groups.Pc)
      ((Sess × Friends.Act) ⊕ (Sess × Groups.Act)) :=
  Friends.system.beside Groups.system

instance
    (w : World Friends.Data Friends.Pc × World Groups.Data Groups.Pc)
    (l : (Sess × Friends.Act) ⊕ (Sess × Groups.Act)) :
    Decidable (system.enabled w l) :=
  inferInstanceAs (Decidable ((Friends.system.beside Groups.system).enabled w l))

/-- The inserts of both services are fenced. -/
def Fenced :
    World Friends.Data Friends.Pc × World Groups.Data Groups.Pc →
      (Sess × Friends.Act) ⊕ (Sess × Groups.Act) → Prop :=
  eachStep Friends.Fenced Groups.Fenced

instance
    (w : World Friends.Data Friends.Pc × World Groups.Data Groups.Pc)
    (l : (Sess × Friends.Act) ⊕ (Sess × Groups.Act)) :
    Decidable (Fenced w l) :=
  inferInstanceAs (Decidable (eachStep Friends.Fenced Groups.Fenced w l))

end Systems

section Race

open Friends Sweeper in
/-- A request has read that its requester is not deleted; the tombstone is planted and
swept before the request inserts. -/
def lateRequestRun : List (Sess × Friends.Act) :=
  let r : Request := ⟨annAsks.me, "ann#0001", ⟨bob, "bob", "bob#0001", ""⟩⟩
  let tomb : Tombstone := .planted "ann#0001"
  let s₁ : Sweep (Uuid × Uuid) EdgeRow := { Sweep.first with size := 1, claimed := [(ann, tomb)] }
  let s₂ := { s₁ with watermark := ann, claimed := [], stamped := [(ann, tomb)] }
  [(1, .requestOpen annAsks r), (1, .lockRequester r), (1, .checkTombstone r),
   (2, .purge (.plant ann "ann#0001")), (2, .commit (.purge (.planted (some (ann, tomb)))) []),
   (3, .purge .sweepOpen), (3, .purge (.select .first)), (3, .purge (.delete s₁ ann tomb [])),
   (3, .purge (.stamp s₁ ann tomb [] false)), (3, .purge (.finish s₂)),
   (3, .commit (.purge (.sweep s₂ .finished)) []),
   (1, .insertPending r firstEdge), (1, .countAuthored r firstEdge),
   (1, .commit (.request r (.counted firstEdge)) [.request r (.created firstEdge)])]

open Groups in
/-- A creator has been found not deleted; the tombstone is planted and swept before the
group and the membership are inserted. -/
def lateCreateRun : List (Sess × Groups.Act) :=
  let c : Create := ⟨ann, "guild", .joinOpen⟩
  let tomb : Tombstone := .planted "ann#0001"
  let s₁ : Sweep := { Sweep.first with size := 1, claimed := [(ann.id, tomb)] }
  let s₂ : Sweep := { s₁ with watermark := ann.id, claimed := [], stamped := [(ann.id, tomb)] }
  [(1, .createOpen (.create ann "guild" "open") c 0), (1, .createClear c 0),
   (2, .plant ann.id "ann#0001"), (2, .commit (.planted (some (ann.id, tomb))) []),
   (3, .sweepOpen), (3, .sweepSelect .first), (3, .sweepPlayer s₁),
   (3, .sweepList s₁ ann.id tomb []), (3, .sweepStamp s₁ ann.id tomb [] false),
   (3, .sweepEnd s₂), (3, .commit (.sweep s₂ .finished) []),
   (1, .insertGroup c 0 guild.id), (1, .insertCreator c 0 guild.id),
   (1, .commit (.create c 0 (.written guild.id))
     [.created c (.ok (.group guild.id "guild" .joinOpen 0 .member .admin))])]

/-- A player whose tombstones are stamped in both services is a party of an edge and a
member of a group. -/
theorem purge_not_final :
    ∃ w, system.Reachable anyStep w ∧
      (Tombstone.Swept w.1.data.purged Friends.ann ∧
        ∃ k, Friends.Party k Friends.ann ∧ w.1.data.edges.committed k ≠ none) ∧
      (Tombstone.Swept w.2.data.purged Groups.ann.id ∧
        ∃ g, w.2.data.memberships.committed (g, Groups.ann.id) ≠ none) := by
  obtain ⟨w, hw, hf⟩ := exec_exhibits (T := system) anyStep
    (lateRequestRun.map Sum.inl ++ lateCreateRun.map Sum.inr)
    (f := fun w => decide (
      (Tombstone.Swept w.1.data.purged Friends.ann ∧
        w.1.data.edges.committed (Friends.ann, Friends.bob) ≠ none) ∧
      (Tombstone.Swept w.2.data.purged Groups.ann.id ∧
        w.2.data.memberships.committed (Groups.guild.id, Groups.ann.id) ≠ none)))
    (by decide +kernel)
  obtain ⟨⟨hs, hk⟩, hs', hk'⟩ := of_decide_eq_true hf
  exact ⟨w, hw, ⟨hs, _, .inl rfl, hk⟩, hs', _, hk'⟩

end Race

section Final

variable {w w' : World Friends.Data Friends.Pc × World Groups.Data Groups.Pc}

/-- In every run whose inserts are fenced, a player who is swept in a service has no
relation in this service, then and at any later time. -/
theorem purge_final_of_fenced (h : system.Reachable Fenced w) (hrun : system.Reaches Fenced w w') :
    (∀ p, Tombstone.Swept w.1.data.purged p →
      ∀ k, Friends.Party k p → w'.1.data.edges.committed k = none) ∧
    (∀ p, Tombstone.Swept w.2.data.purged p →
      ∀ g, w'.2.data.memberships.committed (g, p) = none) := by
  have hall : system.Reachable Fenced w' := h.trans hrun
  constructor
  · intro p hs k hk
    have hs' := Friends.runs.tombs_kept.swept (Reaches.fst h) (Reaches.fst hrun) hs
    exact Friends.swept_no_edges (Reaches.fst hall) hs' hk
  · intro p hs g
    have hs' := Groups.tombs_kept.swept (Reaches.snd h) (Reaches.snd hrun) hs
    exact Groups.swept_no_memberships (k := (g, p)) (Reaches.snd hall) hs' rfl

open Friends Sweeper in
/-- A player requests another one, is deleted and swept. -/
def sweptRequestRun : List (Sess × Friends.Act) :=
  let r : Request := ⟨annAsks.me, "ann#0001", ⟨bob, "bob", "bob#0001", ""⟩⟩
  let tomb : Tombstone := .planted "ann#0001"
  let s₁ : Sweep (Uuid × Uuid) EdgeRow := { Sweep.first with size := 1, claimed := [(ann, tomb)] }
  let s₂ := { s₁ with removed := [⟨(ann, bob), .request firstEdge ann, ann, tomb⟩] }
  let s₃ := { s₂ with watermark := ann, claimed := [], stamped := [(ann, tomb)] }
  [(1, .requestOpen annAsks r), (1, .lockRequester r), (1, .checkTombstone r),
   (1, .insertPending r firstEdge), (1, .countAuthored r firstEdge),
   (1, .commit (.request r (.counted firstEdge)) [.request r (.created firstEdge)]),
   (2, .purge (.plant ann "ann#0001")), (2, .commit (.purge (.planted (some (ann, tomb)))) []),
   (3, .purge .sweepOpen), (3, .purge (.select .first)), (3, .purge (.delete s₁ ann tomb [])),
   (3, .purge (.row s₁ ann tomb [] [(ann, bob)] (ann, bob))),
   (3, .purge (.stamp s₂ ann tomb [] false)), (3, .purge (.finish s₃)),
   (3, .commit (.purge (.sweep s₃ .finished)) [])]

/-- The sweeps of both services are through with a player who had an edge and was the
only admin of a group. -/
theorem purge_final_of_sweeps :
    ∃ w, system.Reachable Fenced w ∧ Tombstone.Swept w.1.data.purged Friends.ann ∧
      Tombstone.Swept w.2.data.purged Groups.ann.id ∧
      w.1.data.edges.committed (Friends.ann, Friends.bob) = none ∧
      w.2.data.memberships.committed (Groups.guild.id, Groups.ann.id) = none := by
  obtain ⟨w, hw, hf⟩ := exec_exhibits (T := system) Fenced
    (sweptRequestRun.map Sum.inl ++
      (Groups.foundingRun ++ Groups.joiningRun ++ Groups.dissolutionRun).map Sum.inr)
    (f := fun w => decide (Tombstone.Swept w.1.data.purged Friends.ann ∧
      Tombstone.Swept w.2.data.purged Groups.ann.id))
    (by decide +kernel)
  obtain ⟨hs, hs'⟩ := of_decide_eq_true hf
  obtain ⟨hedges, hmembers⟩ := purge_final_of_fenced hw (Reaches.refl w)
  exact ⟨w, hw, hs, hs', hedges _ hs _ (.inl rfl), hmembers _ hs' _⟩

end Final

end Swarog.Relations
