import Swarog.Pg.Session

/-!
# The key set of an identity provider

`key_for` answers from the cached set while it is fresh, refetches it under a mutex, and
serves a stale set within the cool-down after an attempt.  The code between two awaits is one
step, and a session makes one call.  Time is in nanoseconds.
-/

namespace Swarog.Accounts.Oidc

open Pg (Sess Programs Stmt World)
open Option

def minRefreshInterval : Nat := 30 * 10 ^ 9

def jwksCacheTtl : Nat := 600 * 10 ^ 9

structure Jwk where
  kid : Option String
  material : String
deriving DecidableEq

/-- The key of the `kid` that the token names, otherwise the first key. -/
def findKey (set : List Jwk) : Option String → Option Jwk
  | some kid => set.find? (fun k => k.kid == some kid)
  | none => set.head?

inductive VerifyError
  | rejectedCooling (kid : Option String)
  | rejectedFresh (kid : Option String)
  | neverFetched
  | fetchFailed
deriving DecidableEq

/-- The clock, the cached set with the instant it was fetched, the last attempt, and who holds
the mutex of the attempts. -/
structure Verifier where
  now : Nat
  keys : Option (List Jwk × Nat)
  refresh : Option Nat
  holder : Option Sess

namespace Verifier

def freshHit (v : Verifier) (kid : Option String) : Option Jwk :=
  match v.keys with
  | none => none
  | some (set, fetchedAt) => if v.now - fetchedAt ≥ jwksCacheTtl then none else findKey set kid

def coolingDown (v : Verifier) : Bool :=
  v.refresh.any (fun last => v.now - last < minRefreshInterval)

def unlock (v : Verifier) : Verifier := { v with holder := none }

end Verifier

/-- What a call asks for, and when it started. -/
structure Call where
  kid : Option String
  start : Nat
deriving DecidableEq

/-- Where a call is: before the first look at the cache, before the mutex, behind it, before
the stale set, at the provider, and before the write of the set it has fetched. -/
inductive Pc
  | idle
  | called (c : Call)
  | missed (c : Call)
  | locked (c : Call)
  | cooling (c : Call)
  | fetching (c : Call) (began : Nat)
  | storing (c : Call) (set : List Jwk) (stamp : Nat)
  | failed (c : Call) (e : VerifyError)
  | returned (c : Call) (k : Jwk)
deriving DecidableEq

/-- The call is behind the mutex. -/
def Pc.holds : Pc → Bool
  | .locked _ | .cooling _ | .fetching _ _ | .storing _ _ _ => true
  | _ => false

/-- The key that was found is returned, otherwise the call is at `p`. -/
def Pc.found (c : Call) (p : Pc) : Option Jwk → Pc
  | some k => .returned c k
  | none => p

/-- The answer of the provider carries the moment at which the set was served. -/
inductive Act
  | tick (n : Nat)
  | call (kid : Option String)
  | check (c : Call)
  | lock (c : Call)
  | recheck (c : Call)
  | cool (c : Call)
  | respond (c : Call) (began : Nat) (set : List Jwk) (moment : Nat)
  | fail (c : Call) (began : Nat)
  | store (c : Call) (set : List Jwk) (stamp : Nat)

def stmt (t : Sess) : Act → Stmt Verifier Pc
  | .tick n => ⟨.idle, fun _ => True, fun _ => .idle, fun v => { v with now := v.now + n }⟩
  | .call kid => ⟨.idle, fun _ => True, fun v => .called ⟨kid, v.now⟩, id⟩
  | .check c => ⟨.called c, fun _ => True, fun v => .found c (.missed c) (v.freshHit c.kid), id⟩
  | .lock c =>
    ⟨.missed c, fun v => v.holder = none, fun _ => .locked c, fun v => { v with holder := some t }⟩
  | .recheck c =>
    ⟨.locked c, fun _ => True,
      fun v => .found c (if v.coolingDown then .cooling c else .fetching c v.now)
        (v.freshHit c.kid),
      fun v => if (v.freshHit c.kid).isSome then v.unlock else v⟩
  | .cool c =>
    ⟨.cooling c, fun _ => True,
      fun v => match v.keys with
        | some (set, _) => .found c (.failed c (.rejectedCooling c.kid)) (findKey set c.kid)
        | none => .failed c .neverFetched,
      Verifier.unlock⟩
  -- both instants are taken before the write of the keys is waited for
  | .respond c began set _ =>
    ⟨.fetching c began, fun _ => True, fun v => .storing c set v.now,
      fun v => { v with refresh := some v.now }⟩
  | .fail c began =>
    ⟨.fetching c began, fun _ => True, fun _ => .failed c .fetchFailed,
      fun v => { v.unlock with refresh := some v.now }⟩
  | .store c set stamp =>
    ⟨.storing c set stamp, fun _ => True,
      fun _ => .found c (.failed c (.rejectedFresh c.kid)) (findKey set c.kid),
      fun v => { v.unlock with keys := some (set, stamp) }⟩

def programs : Programs Verifier Pc Act where
  data := ⟨0, none, none, none⟩
  idle := .idle
  stmt := stmt

abbrev system := programs.system

/-- Every fetch succeeds within `D` and answers a set that was served while it ran. -/
def Served (served : Nat → List Jwk → Prop) (D : Nat) (w : World Verifier Pc) : Sess × Act → Prop
  | (_, .respond _ began set moment) =>
    began ≤ moment ∧ moment ≤ w.data.now ∧ w.data.now ≤ began + D ∧ served moment set
  | (_, .fail _ _) => False
  | _ => True

instance (t : Sess) (a : Act) (v : Verifier) : Decidable ((programs.stmt t a).guard v) := by
  cases a <;> simp only [programs, stmt] <;> infer_instance

instance (served : Nat → List Jwk → Prop) [∀ m set, Decidable (served m set)] (D : Nat)
    (w : World Verifier Pc) (l : Sess × Act) : Decidable (Served served D w l) := by
  obtain ⟨-, a⟩ := l
  cases a <;> simp only [Served] <;> infer_instance

section Origin

variable {G : World Verifier Pc → Sess × Act → Prop} {w : World Verifier Pc} {v : Verifier}
variable {t : Sess} {a : Act} {c : Call} {k : Jwk} {set : List Jwk}

theorem findKey_mem (kid : Option String) (h : findKey set kid = some k) : k ∈ set := by
  cases kid with
  | none => exact List.mem_of_head? h
  | some => exact List.mem_of_find?_eq_some h

theorem kid_findKey {kid : String} (h : findKey set (some kid) = some k) : k.kid = some kid := by
  simpa using List.find?_some h

/-- The set that an answer is taken from: the cache, which is fresh or cooling down, or what
the call has fetched. -/
def Source (v : Verifier) (c : Call) (p : Pc) (set : List Jwk) : Prop :=
  ∃ stamp, (v.keys = some (set, stamp) ∧
      (p = .cooling c ∨ (p = .called c ∨ p = .locked c) ∧ v.now < stamp + jwksCacheTtl)) ∨
    p = .storing c set stamp

theorem freshHit_some {kid : Option String} (h : v.freshHit kid = some k) :
    ∃ set stamp, v.keys = some (set, stamp) ∧ v.now < stamp + jwksCacheTtl ∧
      findKey set kid = some k := by
  unfold Verifier.freshHit at h
  split at h
  · cases h
  · rename_i set stamp hkeys
    split at h
    · cases h
    · exact ⟨set, stamp, hkeys, by omega, h⟩

def Pc.result : Pc → Option (Call × Jwk)
  | .returned c k => some (c, k)
  | _ => none

theorem result_found {c' : Call} {p : Pc} {found : Option Jwk} (hp : p.result = none)
    (h : (Pc.found c p found).result = some (c', k)) : c' = c ∧ found = some k := by
  cases found with
  | none => exact nomatch hp.symm.trans h
  | some =>
    cases h
    exact ⟨rfl, rfl⟩

theorem source_after (h : ((stmt t a).after v).result = some (c, k)) :
    ∃ set, Source v c (stmt t a).before set ∧ findKey set c.kid = some k := by
  cases a with
  | check =>
    obtain ⟨rfl, hit⟩ := result_found rfl h
    obtain ⟨set, stamp, hkeys, hnew, hfound⟩ := freshHit_some hit
    exact ⟨set, ⟨stamp, .inl ⟨hkeys, .inr ⟨.inl rfl, hnew⟩⟩⟩, hfound⟩
  | recheck =>
    obtain ⟨rfl, hit⟩ := result_found (by split <;> rfl) h
    obtain ⟨set, stamp, hkeys, hnew, hfound⟩ := freshHit_some hit
    exact ⟨set, ⟨stamp, .inl ⟨hkeys, .inr ⟨.inr rfl, hnew⟩⟩⟩, hfound⟩
  | cool =>
    simp only [stmt] at h
    split at h
    · rename_i set stamp hkeys
      obtain ⟨rfl, hfound⟩ := result_found rfl h
      exact ⟨set, ⟨stamp, .inl ⟨hkeys, .inl rfl⟩⟩, hfound⟩
    · cases h
  | store _ set stamp =>
    obtain ⟨rfl, hfound⟩ := result_found rfl h
    exact ⟨set, ⟨stamp, .inr rfl⟩, hfound⟩
  | _ => cases h

/-- A returned key was found at some time of the call. -/
theorem source_reachable (h : system.Reachable G w) (hret : (w.pc t).result = some (c, k)) :
    ∃ w₀ set, system.Reachable G w₀ ∧ system.Reaches G w₀ w ∧
      Source w₀.data c (w₀.pc t) set ∧ findKey set c.kid = some k := by
  refine h.invariant ?_ ?_ hret
  · intro hret
    cases hret
  rintro w ⟨u, a⟩ hr hI hG en hret
  rcases Programs.pc_read (X := programs) Pc.result en (fun h => .inr (source_after h)) hret with
    hold | ⟨rfl, set, hsource, hfound⟩
  · obtain ⟨w₀, set, hr₀, hrun, hsource⟩ := hI hold
    exact ⟨w₀, set, hr₀, hrun.tail _ hG en, hsource⟩
  · refine ⟨w, set, hr, (TransitionSystem.Reaches.refl w).tail _ hG en, ?_, hfound⟩
    rw [show w.pc t = _ from en.1]
    exact hsource

end Origin

section Withdrawn

variable {served : Nat → List Jwk → Prop} {D : Nat} {w : World Verifier Pc} {v v' : Verifier}
variable {t u : Sess} {a : Act} {p : Pc}

/-- The last attempt has brought a set. -/
def Verifier.Settled (v : Verifier) : Prop :=
  ∀ last, v.refresh = some last → ∃ set stamp, v.keys = some (set, stamp) ∧ last ≤ stamp

/-- What a call knows, and the one that holds the mutex. -/
def Knows (served : Nat → List Jwk → Prop) (D : Nat) (v : Verifier) (t : Sess) : Pc → Prop
  | .idle | .failed _ _ | .returned _ _ => True
  | .called c | .missed c => c.start ≤ v.now
  | .locked c => v.holder = some t ∧ v.Settled ∧ c.start ≤ v.now
  | .cooling c => v.holder = some t ∧ v.Settled ∧
    ∃ last, v.refresh = some last ∧ c.start < last + minRefreshInterval
  | .fetching c began => v.holder = some t ∧ c.start ≤ began
  | .storing c set stamp => v.holder = some t ∧ v.refresh = some stamp ∧
    ∃ m, served m set ∧ stamp ≤ m + D ∧ c.start ≤ m

structure Verifier.Sound (served : Nat → List Jwk → Prop) (D : Nat) (v : Verifier) : Prop where
  cached : ∀ set stamp, v.keys = some (set, stamp) → ∃ m, served m set ∧ stamp ≤ m + D
  settled : v.holder = none → v.Settled

theorem Knows.frame (h : Knows served D v u p) (hnow : v.now ≤ v'.now)
    (hheld : v.holder = some u → v'.keys = v.keys ∧ v'.refresh = v.refresh ∧ v'.holder = v.holder) :
    Knows served D v' u p := by
  cases p with
  | idle | failed | returned => trivial
  | called | missed => exact Nat.le_trans h hnow
  | locked | cooling | fetching | storing =>
    obtain ⟨hkeys, hrefresh, hholder⟩ := hheld h.1
    simp only [Knows, Verifier.Settled, hkeys, hrefresh, hholder] at h ⊢
    grind

theorem Knows.holder (h : Knows served D v u p) (hp : p.holds = true) : v.holder = some u := by
  cases p with
  | locked | cooling | fetching | storing => exact h.1
  | _ => cases hp

theorem knows_found {c : Call} {found : Option Jwk} (h : Knows served D v t p) :
    Knows served D v t (.found c p found) := by
  cases found with
  | none => exact h
  | some => trivial

theorem now_le (t : Sess) (a : Act) (v : Verifier) : v.now ≤ ((stmt t a).change v).now := by
  cases a with
  | tick n => exact Nat.le_add_right _ _
  | recheck =>
    simp only [stmt]
    split <;> exact Nat.le_refl _
  | _ => exact Nat.le_refl _

/-- Only the holder of the mutex changes what it guards, and the cached set. -/
theorem guarded_step (hb : (stmt t a).before.holds = true → v.holder = some t)
    (hg : (stmt t a).guard v) (hu : u ≠ t) (hheld : v.holder = some u) :
    ((stmt t a).change v).keys = v.keys ∧ ((stmt t a).change v).refresh = v.refresh ∧
      ((stmt t a).change v).holder = v.holder := by
  cases a with
  | tick | call | check => exact ⟨rfl, rfl, rfl⟩
  | lock => exact absurd (hheld.symm.trans hg) (by simp)
  | recheck | cool | respond | fail | store =>
    exact absurd (some.inj (hheld.symm.trans (hb rfl))) hu

section

variable (h : w.data.Sound served D) (hG : Served served D w (t, a))
    (hb : Knows served D w.data t (stmt t a).before)
include h hG hb

theorem knows_own (hg : (stmt t a).guard w.data) :
    Knows served D ((stmt t a).change w.data) t ((stmt t a).after w.data) := by
  cases a with
  | tick => trivial
  | call => exact Nat.le_refl _
  | check => exact knows_found hb
  | lock => exact ⟨rfl, h.settled hg, hb⟩
  | recheck c =>
    obtain ⟨hholder, hsettled, hstart⟩ := hb
    cases hit : w.data.freshHit c.kid with
    | some => simp [stmt, hit, Pc.found, Knows]
    | none =>
      simp only [stmt, hit, Pc.found]
      by_cases hcool : w.data.coolingDown = true
      · obtain ⟨last, hlast, hlt⟩ := (any_eq_true _ _).1 hcool
        have hlt := of_decide_eq_true hlt
        rw [if_pos hcool]
        exact ⟨hholder, hsettled, last, hlast, by omega⟩
      · rw [if_neg hcool]
        exact ⟨hholder, hstart⟩
  | cool c =>
    simp only [stmt]
    split
    · exact knows_found trivial
    · trivial
  | respond c began set moment =>
    obtain ⟨hholder, hstart⟩ := hb
    obtain ⟨hbegan, -, hwithin, hserved⟩ := hG
    refine ⟨hholder, rfl, moment, hserved, ?_, Nat.le_trans hstart hbegan⟩
    omega
  | fail => exact hG.elim
  | store => exact knows_found trivial

theorem sound_step : ((stmt t a).change w.data).Sound served D := by
  constructor
  · intro set stamp hkeys
    cases a with
    | store =>
      cases hkeys
      obtain ⟨-, -, m, hserved, hle, -⟩ := hb
      exact ⟨m, hserved, hle⟩
    | recheck =>
      refine h.cached set stamp ?_
      simp only [stmt] at hkeys
      split at hkeys <;> exact hkeys
    | _ => exact h.cached set stamp hkeys
  · intro hfree
    cases a with
    | tick | call | check => exact h.settled hfree
    | lock => cases hfree
    | recheck =>
      simp only [stmt]
      split <;> exact hb.2.1
    | cool => exact hb.2.1
    | respond => exact absurd (hb.1.symm.trans hfree) (by simp)
    | fail => exact hG.elim
    | store c set stamp =>
      intro last hlast
      exact ⟨set, stamp, rfl, Nat.le_of_eq (some.inj (hlast.symm.trans hb.2.1))⟩

end

theorem sound_reachable (h : system.Reachable (Served served D) w) :
    w.data.Sound served D ∧ ∀ t, Knows served D w.data t (w.pc t) := by
  refine Programs.joint_invariant (X := programs) (I := Verifier.Sound served D)
    (L := Knows served D) ⟨fun _ _ hkeys => (nomatch hkeys), fun _ _ hlast => (nomatch hlast)⟩
    (fun _ => trivial) ?_ h
  intro w t a _ hG en hs hk hb
  exact ⟨sound_step hs hG hb, knows_own hs hG hb en.2,
    fun u hu => (hk u).frame (now_le t a _) (guarded_step hb.holder en.2 hu)⟩

/-- A key that is in no set served from `since` on is not in what a late call is answered from. -/
theorem source_old {since : Nat} {c : Call} {k : Jwk} {set : List Jwk} (h : v.Sound served D)
    (hk : Knows served D v t p) (hgone : ∀ m set, since ≤ m → served m set → k ∉ set)
    (hs : Source v c p set) (hlate : since + D + jwksCacheTtl ≤ c.start) : k ∉ set := by
  have hmin : minRefreshInterval ≤ jwksCacheTtl := by decide
  obtain ⟨stamp, ⟨hkeys, hp⟩ | rfl⟩ := hs
  · obtain ⟨m, hserved, hle⟩ := h.cached set stamp hkeys
    refine hgone m set ?_ hserved
    rcases hp with rfl | ⟨rfl | rfl, hnew⟩
    · obtain ⟨-, hsettled, last, hlast, hlt⟩ := hk
      obtain ⟨set', stamp', hkeys', hle'⟩ := hsettled last hlast
      rw [hkeys] at hkeys'
      cases hkeys'
      omega
    · have hstart : c.start ≤ v.now := hk
      omega
    · have hstart : c.start ≤ v.now := hk.2.2
      omega
  · obtain ⟨-, -, m, hserved, -, hm⟩ := hk
    exact hgone m set (by omega) hserved

/-- A key that is served no more from `since` on is not returned to a call that starts the
time of a fetch and of the cache later.  A key that is returned for a `kid` carries it, and
was in a set that the cache held during the call or that the call has fetched. -/
theorem withdrawn_key_expires {since : Nat} {k k' : Jwk} {c : Call}
    (hgone : ∀ m set, since ≤ m → served m set → k ∉ set)
    (h : system.Reachable (Served served D) w) (hret : w.pc t = .returned c k') :
    (since + D + jwksCacheTtl ≤ c.start → k' ≠ k) ∧
    (∀ kid, c.kid = some kid → k'.kid = some kid) ∧
    ∃ w₀ set, system.Reachable (Served served D) w₀ ∧ system.Reaches (Served served D) w₀ w ∧
      Source w₀.data c (w₀.pc t) set ∧ k' ∈ set := by
  obtain ⟨w₀, set, hr₀, hrun, hsource, hfound⟩ := source_reachable h (congrArg Pc.result hret)
  have hmem := findKey_mem c.kid hfound
  refine ⟨?_, ?_, w₀, set, hr₀, hrun, hsource, hmem⟩
  · rintro hlate rfl
    obtain ⟨hs, hk⟩ := sound_reachable hr₀
    exact source_old hs (hk t) hgone hsource hlate hmem
  · intro _ hkid
    rw [hkid] at hfound
    exact kid_findKey hfound

/-- The provider replaces a key by another one with the same `kid`. -/
abbrev rotated (m : Nat) (set : List Jwk) : Prop :=
  set = [⟨some "a", if m < 5 then "old" else "new"⟩]

/-- A call that fetches the key set. -/
def fetches (t : Sess) (start : Nat) (k : Jwk) : List (Sess × Act) :=
  let c : Call := ⟨k.kid, start⟩
  [(t, .call k.kid), (t, .check c), (t, .lock c), (t, .recheck c), (t, .respond c start [k] start),
    (t, .store c [k] start)]

theorem withdrawn_key_expires_rotated :
    ∃ w, system.Reachable (Served rotated 1) w ∧
      w.pc 1 = .returned ⟨some "a", jwksCacheTtl + 6⟩ ⟨some "a", "new"⟩ ∧
      (⟨some "a", "new"⟩ : Jwk) ≠ ⟨some "a", "old"⟩ := by
  obtain ⟨w, hw, hf⟩ := TransitionSystem.exec_exhibits (T := system) (Served rotated 1)
    (fetches 0 0 ⟨some "a", "old"⟩ ++ [(2, .tick (jwksCacheTtl + 6))] ++
      fetches 1 (jwksCacheTtl + 6) ⟨some "a", "new"⟩)
    (f := fun w => decide (w.pc 1 = .returned ⟨some "a", jwksCacheTtl + 6⟩ ⟨some "a", "new"⟩))
    (by decide +kernel)
  have hpc := of_decide_eq_true hf
  have hgone : ∀ m set, 5 ≤ m → rotated m set → ⟨some "a", "old"⟩ ∉ set := by
    rintro m set hm rfl
    simp [Nat.not_lt.2 hm]
  exact ⟨w, hw, hpc, (withdrawn_key_expires hgone hw hpc).1 (Nat.le_refl _)⟩

end Withdrawn

end Swarog.Accounts.Oidc
