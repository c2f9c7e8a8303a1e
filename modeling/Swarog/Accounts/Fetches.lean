import Swarog.Accounts.Oidc

/-!
# The fetches of a key set

A caller may go away, and its call is then dropped at an await: the mutex is released, and
nothing else is done.  An attempt is stamped when its fetch has returned, so a fetch that is
dropped leaves no stamp, and the next one may start at once.
-/

namespace Swarog.Accounts.Oidc

open Pg (Sess Programs Stmt World)
open TransitionSystem (anyStep)

/-- The verifier, the instants at which fetches have started, the last one first, and whether
one of them was dropped. -/
structure Traffic where
  verifier : Verifier
  starts : List Nat
  dropped : Bool

/-- The instant at which the fetch of a call has started. -/
def Pc.began : Pc → Option Nat
  | .fetching _ began => some began
  | _ => none

/-- A step of a call, or the end of its caller. -/
inductive Step
  | act (a : Act)
  | drop (p : Pc)

namespace Traffic

def stmt (t : Sess) : Step → Stmt Traffic Pc
  | .act a =>
    let s := Oidc.stmt t a
    ⟨s.before, fun d => s.guard d.verifier, fun d => s.after d.verifier, fun d =>
      ⟨s.change d.verifier, (s.after d.verifier).began.toList ++ d.starts, d.dropped⟩⟩
  -- a call that is dropped gives the mutex back if it holds it
  | .drop p => ⟨p, fun _ => True, fun _ => .idle, fun d =>
      ⟨if p.holds then d.verifier.unlock else d.verifier, d.starts, d.dropped || p.began.isSome⟩⟩

def programs : Programs Traffic Pc Step where
  data := ⟨Oidc.programs.data, [], false⟩
  idle := .idle
  stmt := stmt

abbrev system := programs.system

variable {d : Traffic} {w : World Traffic Pc} {t u : Sess} {a : Act} {p : Pc}

/-- The last stamp is not older than any fetch. -/
def Stamped (d : Traffic) : Prop :=
  d.dropped = false → ∀ s ∈ d.starts, ∃ last, d.verifier.refresh = some last ∧ s ≤ last

structure Sound (d : Traffic) : Prop where
  past : ∀ s ∈ d.starts, s ≤ d.verifier.now
  spaced : d.dropped = false → d.starts.Pairwise (fun s s' => s' + minRefreshInterval ≤ s)
  stamped : d.verifier.holder = none → d.Stamped

/-- What the call that holds the mutex knows. -/
def Knows (d : Traffic) (t : Sess) (p : Pc) : Prop :=
  p.holds = true → d.verifier.holder = some t ∧ (p.began = none → d.Stamped)

theorem began_found
    {c : Call}
    {found : Option Jwk}
    (hp : p.began = none) :
    (Pc.found c p found).began = none := by
  cases found with
  | none => exact hp
  | some => rfl

theorem holds_found
    {c : Call}
    {found : Option Jwk}
    (hp : p.holds = false) :
    (Pc.found c p found).holds = false := by
  cases found with
  | none => exact hp
  | some => rfl

/-- Only the second look at the cache begins a fetch, out of the cool-down. -/
theorem began_after
    {v : Verifier}
    {n : Nat}
    (h : ((Oidc.stmt t a).after v).began = some n) :
    ∃ c, a = .recheck c ∧ v.coolingDown = false ∧ n = v.now := by
  cases a with
  | recheck c =>
    cases hit : v.freshHit c.kid <;> cases hcool : v.coolingDown <;>
      simp [Oidc.stmt, hit, hcool, Pc.found, Pc.began] at h
    exact ⟨c, rfl, rfl, h.symm⟩
  | check | store => exact absurd (h.symm.trans (began_found rfl)) (Option.some_ne_none n)
  | cool =>
    simp only [Oidc.stmt] at h
    split at h
    · exact absurd (h.symm.trans (began_found rfl)) (Option.some_ne_none n)
    · cases h
  | _ => cases h

theorem began_other
    {v : Verifier}
    (h : ∀ c, a ≠ .recheck c) :
    ((Oidc.stmt t a).after v).began = none := by
  refine Option.eq_none_iff_forall_ne_some.2 fun n hn => ?_
  obtain ⟨c, hc, -⟩ := began_after hn
  exact h c hc

theorem Stamped.kept
    (h : d.Stamped)
    (hnone : ((Oidc.stmt t a).after d.verifier).began = none)
    (hrefresh : ((Oidc.stmt t a).change d.verifier).refresh = d.verifier.refresh) :
    ((stmt t (.act a)).change d).Stamped := by
  simpa [Stamped, stmt, hnone, hrefresh] using h

theorem Sound.past_step (hs : d.Sound) :
    ∀ s ∈ ((stmt t (.act a)).change d).starts,
      s ≤ ((stmt t (.act a)).change d).verifier.now := by
  intro s hmem
  refine Nat.le_trans ?_ (now_le t a d.verifier)
  rcases List.mem_append.1 hmem with hnew | hold
  · obtain ⟨-, -, -, rfl⟩ := began_after (Option.mem_toList.1 hnew)
    exact Nat.le_refl _
  · exact hs.past s hold

section

variable (hs : d.Sound) (hb : Knows d t (Oidc.stmt t a).before)
include hs hb

/-- A fetch starts out of the cool-down, and behind the mutex all fetches are stamped. -/
theorem spaced_step (hkept : d.dropped = false) :
    ((stmt t (.act a)).change d).starts.Pairwise (fun s s' => s' + minRefreshInterval ≤ s) := by
  simp only [stmt]
  cases hbegan : ((Oidc.stmt t a).after d.verifier).began with
  | none => exact hs.spaced hkept
  | some n =>
    obtain ⟨c, rfl, hcool, rfl⟩ := began_after hbegan
    refine .cons (fun s hmem => ?_) (hs.spaced hkept)
    obtain ⟨last, hlast, hle⟩ := (hb rfl).2 rfl hkept s hmem
    simp only [Verifier.coolingDown, hlast, Option.any_some, decide_eq_false_iff_not] at hcool
    have hpos : 0 < minRefreshInterval := by decide
    omega

/-- The mutex is given back after the stamp. -/
theorem stamped_step
    (hfree : ((stmt t (.act a)).change d).verifier.holder = none) :
    ((stmt t (.act a)).change d).Stamped := by
  cases a with
  | tick | call | check => exact (hs.stamped hfree).kept (began_other (by simp)) rfl
  | lock => cases hfree
  | recheck c =>
    cases hit : d.verifier.freshHit c.kid with
    | none =>
      simp only [stmt, Oidc.stmt, hit] at hfree
      exact absurd ((hb rfl).1.symm.trans hfree) (Option.some_ne_none t)
    | some =>
      refine ((hb rfl).2 rfl).kept ?_ ?_
      · simp [Oidc.stmt, hit, Pc.found, Pc.began]
      · simp [Oidc.stmt, hit, Verifier.unlock]
  | cool | store => exact ((hb rfl).2 rfl).kept (began_other (by simp)) rfl
  | respond => exact absurd ((hb rfl).1.symm.trans hfree) (Option.some_ne_none t)
  | fail => exact fun _ s hmem => ⟨_, rfl, hs.past s hmem⟩

theorem sound_step : ((stmt t (.act a)).change d).Sound :=
  ⟨hs.past_step, spaced_step hs hb, stamped_step hs hb⟩

theorem knows_own (hg : (Oidc.stmt t a).guard d.verifier) :
    Knows ((stmt t (.act a)).change d) t ((Oidc.stmt t a).after d.verifier) := by
  intro hp
  cases a with
  | lock => exact ⟨rfl, fun _ => (hs.stamped hg).kept (began_other (by simp)) rfl⟩
  | recheck c =>
    cases hit : d.verifier.freshHit c.kid with
    | none =>
      have hsame : ((Oidc.stmt t (.recheck c)).change d.verifier) = d.verifier := by
        simp [Oidc.stmt, hit]
      refine ⟨?_, fun hnone => ((hb rfl).2 rfl).kept hnone (by rw [hsame])⟩
      simp only [stmt, hsame, (hb rfl).1]
    | some => simp [Oidc.stmt, hit, Pc.found, Pc.holds] at hp
  | respond => exact ⟨(hb rfl).1, fun _ _ s hmem => ⟨_, rfl, hs.past s hmem⟩⟩
  | check | store => exact absurd (hp.symm.trans (holds_found rfl)) Bool.noConfusion
  | cool =>
    simp only [Oidc.stmt] at hp
    split at hp
    · exact absurd (hp.symm.trans (holds_found rfl)) Bool.noConfusion
    · cases hp
  | tick | call | fail => cases hp

end

theorem drop_step
    (hs : d.Sound)
    (hb : Knows d t p) :
    ((stmt t (.drop p)).change d).Sound := by
  have hkept : (d.dropped || p.began.isSome) = false → d.dropped = false ∧ p.began = none := by simp
  simp only [stmt]
  cases hp : p.holds with
  | false =>
    exact ⟨hs.past, fun h => hs.spaced (hkept h).1, fun hfree h => hs.stamped hfree (hkept h).1⟩
  | true =>
    exact ⟨hs.past, fun h => hs.spaced (hkept h).1, fun _ h => (hb hp).2 (hkept h).2 (hkept h).1⟩

/-- The steps of other calls do not touch what the holder of the mutex knows. -/
theorem Knows.frame
    {x : Step}
    (h : Knows d u p)
    (hb : Knows d t (stmt t x).before)
    (hg : (stmt t x).guard d)
    (hu : u ≠ t) :
    Knows ((stmt t x).change d) u p := by
  intro hp
  obtain ⟨hheld, hstamped⟩ := h hp
  have hother : (stmt t x).before.holds ≠ true := fun hholds =>
    hu (Option.some.inj (hheld.symm.trans (hb hholds).1))
  cases x with
  | act a =>
    obtain ⟨-, hrefresh, hholder⟩ := guarded_step (fun h => (hb h).1) hg hu hheld
    refine ⟨hholder.trans hheld, fun hp' => (hstamped hp').kept ?_ hrefresh⟩
    exact began_other fun c hc => hother (by rw [hc]; rfl)
  | drop q =>
    have hsame : (if q.holds then d.verifier.unlock else d.verifier) = d.verifier := if_neg hother
    simp only [stmt, Stamped, hsame]
    exact ⟨hheld, fun hp' hkept => hstamped hp' (Bool.or_eq_false_iff.1 hkept).1⟩

theorem sound_reachable (h : system.Reachable anyStep w) :
    w.data.Sound ∧ ∀ t, Knows w.data t (w.pc t) := by
  refine Programs.joint_invariant (X := programs) (I := Sound) (L := Knows)
    ⟨List.forall_mem_nil _, fun _ => .nil, fun _ _ => List.forall_mem_nil _⟩
    (fun _ h => absurd h Bool.false_ne_true) ?_ h
  intro _ _ x _ _ en hs hk hb
  refine ⟨?_, ?_, fun u hu => (hk u).frame hb en.2 hu⟩
  · cases x with
    | act => exact sound_step hs hb
    | drop => exact drop_step hs hb
  · cases x with
    | act => exact knows_own hs hb en.2
    | drop => exact fun h => absurd h Bool.false_ne_true

/-- At most one fetch is running, and unless one was dropped, the fetches start an interval
apart. -/
theorem fetches_apart (h : system.Reachable anyStep w) :
    (∀ t u, (w.pc t).began ≠ none → (w.pc u).began ≠ none → t = u) ∧
    (w.data.dropped = false →
      w.data.starts.Pairwise (fun s s' => s' + minRefreshInterval ≤ s)) := by
  obtain ⟨hs, hk⟩ := sound_reachable h
  have hholder : ∀ t, (w.pc t).began ≠ none → w.data.verifier.holder = some t := by
    intro t ht
    refine (hk t ?_).1
    cases hpc : w.pc t with
    | fetching => rfl
    | _ => exact absurd (by rw [hpc]; rfl) ht
  exact ⟨fun t u ht hu => Option.some.inj ((hholder t ht).symm.trans (hholder u hu)), hs.spaced⟩

instance (t : Sess) (x : Step) (d : Traffic) : Decidable ((programs.stmt t x).guard d) :=
  match x with
  | .act a => inferInstanceAs (Decidable ((Oidc.programs.stmt t a).guard d.verifier))
  | .drop _ => inferInstanceAs (Decidable True)

/-- A call without a `kid` goes as far as its fetch. -/
def asks (t : Sess) (now : Nat) : List (Sess × Step) :=
  let c : Call := ⟨none, now⟩
  [(t, .act (.call none)), (t, .act (.check c)), (t, .act (.lock c)), (t, .act (.recheck c))]

/-- The first fetch brings no key, and the second one starts after the interval. -/
theorem fetches_apart_two : ∃ w, system.Reachable anyStep w ∧
    w.data.starts = [minRefreshInterval, 0] ∧
    w.data.starts.Pairwise (fun s s' => s' + minRefreshInterval ≤ s) ∧
    ∀ t, (w.pc t).began ≠ none → t = 2 := by
  obtain ⟨w, hw, hf⟩ := TransitionSystem.exec_exhibits (T := system) anyStep
    (asks 1 0 ++ [(1, .act (.respond ⟨none, 0⟩ 0 [] 0)), (1, .act (.store ⟨none, 0⟩ [] 0)),
      (3, .act (.tick minRefreshInterval))] ++ asks 2 minRefreshInterval)
    (f := fun w => decide (w.data.starts = [minRefreshInterval, 0] ∧ w.data.dropped = false ∧
      (w.pc 2).began ≠ none)) (by decide +kernel)
  obtain ⟨hstarts, hkept, hpc⟩ := of_decide_eq_true hf
  obtain ⟨hone, hspaced⟩ := fetches_apart hw
  exact ⟨w, hw, hstarts, hspaced hkept, fun t ht => hone t 2 ht hpc⟩

/-- The caller of the first fetch goes away, and the next call fetches at the same instant. -/
theorem dropped_fetch_unstamped : ∃ w, system.Reachable anyStep w ∧
    ¬ w.data.starts.Pairwise (fun s s' => s' + minRefreshInterval ≤ s) := by
  obtain ⟨w, hw, hf⟩ := TransitionSystem.exec_exhibits (T := system) anyStep
    (asks 1 0 ++ [(1, .drop (.fetching ⟨none, 0⟩ 0))] ++ asks 2 0)
    (f := fun w => decide (w.data.starts = [0, 0])) (by decide +kernel)
  refine ⟨w, hw, ?_⟩
  rw [of_decide_eq_true hf]
  decide

end Traffic
end Swarog.Accounts.Oidc
