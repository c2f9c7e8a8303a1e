import Swarog.Wallet.Idempotency

/-!
# The starter grant

The starter grant of a player is a movement whose idempotency key is built from the
player id as the event spells it.  The ledger lets a key record one movement, for
ever: the purge re-owns ledger rows and does not delete them.  Players are compared
as uuids, and a uuid has more than one spelling that the grant accepts.

So a player is granted at most once as long as the events spell its id in one way
(`starter_granted_once`), whatever the configuration is at each delivery; two
spellings earn two grants (`two_spellings_granted_twice`).
-/

namespace Swarog.Wallet

open Pg

/-- The key belongs to the starter grant. -/
def isStarterKey (key : String) : Bool := key.toList.take 8 == "starter:".toList

namespace State

variable {s : State} {a : Act} {t : Sess} {j : Job}

/-- The starter grants that were applied to the balances of `p`. -/
def starterGrants (s : State) (p : Uuid) : List Applied :=
  s.applied.filter (fun e => isStarterKey e.key && e.row.player == p)

/-- The keys of the other movements are not those of starter grants. -/
def OthersApart (_ : State) : Act → Prop
  | .open _ call => call.origin = .starterGrant ∨ isStarterKey call.key = false
  | _ => True

instance (s : State) (a : Act) : Decidable (s.OthersApart a) := by
  induction a using Act.casesOn <;> dsimp only [OthersApart] <;> infer_instance

/-- Moreover, every delivery to the starter grant spells its player as `spell`
does. -/
def SpelledBy (spell : Uuid → String) (s : State) (a : Act) : Prop :=
  s.OthersApart a ∧
    match a with
    | .open _ call =>
      call.origin = .starterGrant →
        call.player.all (fun p => call.movement.playerId == spell p) = true
    | _ => True

instance (spell : Uuid → String) (s : State) (a : Act) : Decidable (SpelledBy spell s a) := by
  induction a using Act.casesOn <;> dsimp only [SpelledBy] <;> infer_instance

section Keys

variable {spell : Uuid → String}

/-- A call under the key of a starter grant has the key of its player's spelling. -/
def KeyedBy (spell : Uuid → String) (c : Call) : Prop :=
  isStarterKey c.key = true → ∀ p, c.player = some p → c.key = "starter:" ++ spell p

theorem keyedBy_of_open {c : Call} (hG : SpelledBy spell s (.open t c))
    (en : s.enabled (.open t c)) : KeyedBy spell c := by
  intro hkey _ hp
  obtain ⟨happ, hspell⟩ := hG
  rcases happ with horigin | hother
  · have hadm : s.Admits c := en.2
    rw [Admits, horigin] at hadm
    have htext := hspell horigin
    rw [hp, Option.all_some, beq_iff_eq] at htext
    rw [Call.key, hadm.1, ← htext]
    rfl
  · rw [hother] at hkey
    cases hkey

/-- A call is open after a step because it was open before, or was opened. -/
theorem Sound.call_origin (h : s.Sound) (en : s.enabled a)
    (hj : ((s.effect a).pc t).call = some j) : (s.pc t).call = some j ∨ a = .open t j.call := by
  cases h.call_cases en with
  | still calls => exact .inl (calls t ▸ hj)
  | refuses _ _ _ pcs => exact .inl (pcs ▸ hj)
  | ends _ _ _ _ _ idle others => exact .inl (call_of_ended idle others hj).2
  | commits _ _ _ _ _ _ _ _ _ idle others =>
    exact .inl (call_of_ended idle others hj).2
  | opens _ _ _ _ _ answers _ next =>
    cases a with
    | «open» u' call' =>
      by_cases ht : t = u'
      · subst ht
        rw [show (s.effect (.open t call')).pc t = .opened ⟨s.nextAttempt, _, call'⟩ from
          Function.update_self _ _ _] at hj
        cases hj
        exact .inr rfl
      · rw [show (s.effect (.open u' call')).pc t = s.pc t from
          Function.update_of_ne ht _ _] at hj
        exact .inl hj
    | refuse =>
      have hlen := congrArg List.length answers
      simp [effect, reply] at hlen
    | _ => exact absurd next (Nat.ne_of_lt (Nat.lt_succ_self _))

/-- What the keys of the open calls and of the recorded movements say. -/
structure Keyed (spell : Uuid → String) (s : State) : Prop where
  calls : ∀ t j, (s.pc t).call = some j → KeyedBy spell j.call
  applied : ∀ e ∈ s.applied, isStarterKey e.key = true → e.key = "starter:" ++ spell e.row.player

theorem Keyed.step (h : Keyed spell s) (hs : s.Sound) (hG : SpelledBy spell s a)
    (en : s.enabled a) : Keyed spell (s.effect a) where
  calls := by
    intro t j hj
    rcases hs.call_origin en hj with hold | rfl
    · exact h.calls t j hold
    · exact keyedBy_of_open hG en
  applied := by
    intro e he hkey
    rcases hs.commit_cases en with ⟨t, j, p, _, _, _, -, hpc, hrec⟩ | hera
    · rw [hrec.applied, List.mem_append, List.mem_singleton] at he
      rcases he with he | rfl
      · exact h.applied e he hkey
      · have hok := hs.sess t
        rw [hpc] at hok
        exact h.calls t j (by rw [hpc]; rfl) hkey p hok.2.2.1
    · rw [hera.applied] at he
      exact h.applied e he hkey

theorem keyed_reachable (h : system.Reachable (SpelledBy spell) s) : Keyed spell s := by
  refine h.invariant ?_ (fun _ _ hr ih hG en => ih.step (sound_reachable hr) hG en)
  constructor
  · intro _ _ hj
    cases hj
  · intro _ he
    cases he

end Keys

section Statement

/-- In every run in which the other movements keep off the keys of starter grants and
every player is spelled in one way, a player is granted at most once. -/
theorem starter_granted_once (spell : Uuid → String) (h : system.Reachable (SpelledBy spell) s)
    (p : Uuid) : (s.starterGrants p).length ≤ 1 := by
  have hbook := book_reachable h
  have hkeyed := keyed_reachable h
  have hsame : ∀ e ∈ s.starterGrants p, ∀ e' ∈ s.starterGrants p, e = e' := by
    intro e he e' he'
    simp only [starterGrants, List.mem_filter, Bool.and_eq_true, beq_iff_eq] at he he'
    refine hbook.eq_of_key he.1 he'.1 ?_
    rw [hkeyed.applied e he.1 he.2.1, hkeyed.applied e' he'.1 he'.2.1, he.2.2, he'.2.2]
  have hnodup : (s.starterGrants p).Nodup := (List.Nodup.of_map _ hbook.keys).filter _
  match hl : s.starterGrants p with
  | [] => exact Nat.zero_le 1
  | [_] => exact Nat.le_refl 1
  | e :: e' :: l =>
    rw [hl] at hsame hnodup
    refine absurd (hsame e (by simp) e' (by simp)) ?_
    rintro rfl
    simp at hnodup

/-- A delivery to the starter grant. -/
def grantOf (playerId : String) (amount : Int) : Call :=
  ⟨.starterGrant, starterMovement playerId "gold" amount⟩

/-- The registration is delivered twice, the second time with another amount. -/
def redeliveryRun : List Act :=
  let j₁ : Job := ⟨0, 0, grantOf playerText 100⟩
  let j₂ : Job := ⟨1, 1, grantOf playerText 200⟩
  [.addCurrency "gold", .open 1 j₁.call, .check 1 j₁ player, .claim 1 j₁ player,
   .updateMiss 1 j₁ player 1, .insert 1 j₁ player 1,
   .stamp 1 j₁ player 1 100 (j₁.row player 1 1 0), .emit 1 j₁ player 1 100,
   .commit 1 j₁ player 1 100, .open 1 j₂.call, .check 1 j₂ player, .claimLost 1 j₂ player,
   .reject 1 j₂ idempotencyConflict, .finish 1 j₂ (.error idempotencyConflict)]

theorem redeliveryRun_runs :
    (system.exec (SpelledBy Uuid.text) system.start redeliveryRun).isSome := by
  decide +kernel

/-- The state after `redeliveryRun`. -/
def redeliveryState : State :=
  TransitionSystem.final (SpelledBy Uuid.text) redeliveryRun redeliveryRun_runs

/-- The canonical spelling is granted once. -/
theorem starter_granted_once_redelivery :
    (redeliveryState.starterGrants player).length ≤ 1 ∧
      redeliveryState.balances.committed (player, "gold") = some 100 :=
  ⟨starter_granted_once Uuid.text (TransitionSystem.reachable_final _ _ redeliveryRun_runs) player,
    by decide +kernel⟩

/-- The registration spells the player with hyphens, the promotion without. -/
def twoSpellingsRun : List Act :=
  let j₁ : Job := ⟨0, 0, grantOf playerText 100⟩
  let j₂ : Job := ⟨1, 1, grantOf "11111111111141118111111111111111" 100⟩
  [.addCurrency "gold", .open 1 j₁.call, .check 1 j₁ player, .claim 1 j₁ player,
   .updateMiss 1 j₁ player 1, .insert 1 j₁ player 1,
   .stamp 1 j₁ player 1 100 (j₁.row player 1 1 0), .emit 1 j₁ player 1 100,
   .commit 1 j₁ player 1 100, .open 1 j₂.call, .check 1 j₂ player, .claim 1 j₂ player,
   .update 1 j₂ player 2 100, .stamp 1 j₂ player 2 200 (j₂.row player 2 3 0),
   .emit 1 j₂ player 2 200, .commit 1 j₂ player 2 200]

theorem twoSpellingsRun_runs : (system.exec OthersApart system.start twoSpellingsRun).isSome := by
  decide +kernel

/-- The state after `twoSpellingsRun`. -/
def twoSpellingsState : State :=
  TransitionSystem.final OthersApart twoSpellingsRun twoSpellingsRun_runs

/-- Two accepted spellings of one player, two starter grants on its balance. -/
theorem two_spellings_granted_twice :
    system.Reachable OthersApart twoSpellingsState ∧
      isUuidText playerText = true ∧ isUuidText "11111111111141118111111111111111" = true ∧
      (twoSpellingsState.starterGrants player).length = 2 ∧
      twoSpellingsState.balances.committed (player, "gold") = some 200 :=
  ⟨TransitionSystem.reachable_final _ _ twoSpellingsRun_runs, by decide +kernel⟩

end Statement

end State
end Swarog.Wallet
