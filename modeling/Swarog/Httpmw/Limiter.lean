import Swarog.FinMap
import Swarog.Pg.Transition

/-!
# The rate limiter

A token bucket for each address.  A caller reads the clock and enters the mutex later, so
that readings reach a bucket out of order; the reaper drops buckets that have not been
used for a while.  Times and tokens are rational numbers.

`Funded` relates a bucket to the calls that were admitted: what was admitted since `s`
and what is left is covered by the burst and the refill since `s`.  It is kept by calls
that enter in the order of their readings and by a reaper that drops refilled buckets
only.
-/

namespace Swarog.Httpmw

open TransitionSystem FinMap List

section Buckets

/-- `EVICT_AFTER`, in seconds. -/
def evictAfter : ℚ := 180

structure TokenBucket where
  rate : ℚ
  burst : ℚ
  tokens : ℚ
  last : ℚ
deriving DecidableEq

namespace TokenBucket

def new (rate burst now : ℚ) : TokenBucket := ⟨rate, burst, burst, now⟩

/-- The tokens at a reading; readings before the last one refill nothing. -/
def refilled (b : TokenBucket) (now : ℚ) : ℚ :=
  min (b.tokens + max (now - b.last) 0 * b.rate) b.burst

def allowAt (b : TokenBucket) (now : ℚ) : TokenBucket × Bool :=
  if 1 ≤ b.refilled now then
    ({ b with tokens := b.refilled now - 1, last := now }, true)
  else
    ({ b with tokens := b.refilled now, last := now }, false)

end TokenBucket

structure Visitor where
  bucket : TokenBucket
  lastSeen : ℚ
deriving DecidableEq

variable {α : Type} [DecidableEq α]

structure IpLimiter (α : Type) where
  visitors : FinMap α Visitor
  rate : ℚ
  burst : Nat
  maxVisitors : Nat

namespace IpLimiter

def new (rate : ℚ) (burst maxVisitors : Nat) : IpLimiter α :=
  ⟨FinMap.empty, rate, burst, maxVisitors⟩

/-- The critical section of `allow`, with the reading that was made before it. -/
def allow (l : IpLimiter α) (ip : α) (now : ℚ) : IpLimiter α × Bool :=
  match l.visitors.get ip with
  | some v =>
    let (bucket, allowed) := v.bucket.allowAt now
    ({ l with visitors := l.visitors.set ip ⟨bucket, now⟩ }, allowed)
  | none =>
    if l.maxVisitors ≤ l.visitors.size then
      (l, false)
    else
      let (bucket, allowed) := (TokenBucket.new l.rate l.burst now).allowAt now
      ({ l with visitors := l.visitors.set ip ⟨bucket, now⟩ }, allowed)

/-- The bucket has not been used for longer than `evictAfter`. -/
def idle (now : ℚ) (v : Visitor) : Bool := decide (evictAfter < max (now - v.lastSeen) 0)

def evictIdle (l : IpLimiter α) (now : ℚ) : IpLimiter α :=
  { l with visitors := l.visitors.retain (fun _ v => !idle now v) }

end IpLimiter

end Buckets

section System

variable {α : Type} [DecidableEq α]

/-- What a caller is about to do, with its reading of the clock. -/
inductive Job (α : Type)
  | call (ip : α) (now : ℚ)
  | reap (now : ℚ)
deriving DecidableEq

/-- What has been done under the mutex. -/
inductive Entry (α : Type)
  | call (ip : α) (now : ℚ) (admitted : Bool)
  | reap (now : ℚ)
deriving DecidableEq

/-- The limiter, the clock, the callers that have read it, and what was done. -/
structure State (α : Type) where
  limiter : IpLimiter α
  clock : ℚ
  waiting : Nat → Option (Job α)
  log : List (Entry α)

/-- A caller or the reaper reads the clock; a caller enters the mutex. -/
inductive Act (α : Type)
  | readCall (caller : Nat) (ip : α) (now : ℚ)
  | readReap (caller : Nat) (now : ℚ)
  | enterCall (caller : Nat) (ip : α) (now : ℚ)
  | enterReap (caller : Nat) (now : ℚ)

def enabled (s : State α) : Act α → Prop
  | .readCall caller _ now | .readReap caller now => s.waiting caller = none ∧ s.clock ≤ now
  | .enterCall caller ip now => s.waiting caller = some (.call ip now)
  | .enterReap caller now => s.waiting caller = some (.reap now)

instance (s : State α) (a : Act α) : Decidable (enabled s a) := by
  cases a <;> dsimp only [enabled] <;> infer_instance

def effect (s : State α) : Act α → State α
  | .readCall caller ip now =>
    { s with clock := now, waiting := Function.update s.waiting caller (some (.call ip now)) }
  | .readReap caller now =>
    { s with clock := now, waiting := Function.update s.waiting caller (some (.reap now)) }
  | .enterCall caller ip now =>
    { s with
      limiter := (s.limiter.allow ip now).1
      waiting := Function.update s.waiting caller none
      log := s.log ++ [.call ip now (s.limiter.allow ip now).2] }
  | .enterReap caller now =>
    { s with
      limiter := s.limiter.evictIdle now
      waiting := Function.update s.waiting caller none
      log := s.log ++ [.reap now] }

/-- All interleavings of callers and reapers, from an empty table. -/
def limiting (rate : ℚ) (burst maxVisitors : Nat) : TransitionSystem (State α) (Act α) where
  start := ⟨.new rate burst maxVisitors, 0, fun _ => none, []⟩
  enabled := enabled
  effect := effect

instance (rate : ℚ) (burst maxVisitors : Nat) (s : State α) (a : Act α) :
    Decidable ((limiting rate burst maxVisitors).enabled s a) :=
  inferInstanceAs (Decidable (enabled s a))

namespace Entry

/-- The entry is an admitted call of the address since `start`. -/
def admittedSince (ip : α) (start : ℚ) : Entry α → Bool
  | .call ip' now admitted => admitted && decide (ip' = ip) && decide (start ≤ now)
  | .reap _ => false

/-- The entry is an admitted call of the address with its reading in a window. -/
def admittedIn (ip : α) (start stop : ℚ) : Entry α → Bool
  | .call ip' now admitted =>
    admitted && decide (ip' = ip) && decide (start ≤ now) && decide (now ≤ stop)
  | .reap _ => false

/-- The reading of an entry that is about the address. -/
def reading (ip : α) : Entry α → Option ℚ
  | .call ip' now _ => if ip' = ip then some now else none
  | .reap now => some now

end Entry

/-- The readings about an address are not after `now`. -/
def Before (ip : α) (now : ℚ) (log : List (Entry α)) : Prop :=
  ∀ e ∈ log, ∀ t ∈ e.reading ip, t ≤ now

instance (ip : α) (now : ℚ) (log : List (Entry α)) : Decidable (Before ip now log) :=
  inferInstanceAs (Decidable (∀ e ∈ log, ∀ t ∈ e.reading ip, t ≤ now))

/-- A call enters after the calls of its address, and the reapers, that have read the
clock before it; a reaper drops buckets that have been refilled. -/
def InOrder (s : State α) : Act α → Prop
  | .enterCall _ ip now => Before ip now s.log
  | .enterReap _ now => ∀ e ∈ s.limiter.visitors.entries, IpLimiter.idle now e.2 = true →
      e.2.bucket.burst ≤ e.2.bucket.refilled now
  | _ => True

instance (s : State α) (a : Act α) : Decidable (InOrder s a) := by
  cases a <;> dsimp only [InOrder] <;> infer_instance

end System

section Funding

variable {α : Type} [DecidableEq α]

/-- The number of calls of an address that were admitted with a reading since `start`. -/
def admittedSince (log : List (Entry α)) (ip : α) (start : ℚ) : Nat :=
  log.countP (Entry.admittedSince ip start)

/-- The number of calls of an address that were admitted with a reading in a window. -/
def admittedIn (log : List (Entry α)) (ip : α) (start stop : ℚ) : Nat :=
  log.countP (Entry.admittedIn ip start stop)

/-- The bucket covers what was admitted. -/
structure Funded (r : ℚ) (n : Nat) (log : List (Entry α)) (ip : α) (v : Visitor) : Prop where
  rate : v.bucket.rate = r
  burst : v.bucket.burst = n
  seen : v.lastSeen = v.bucket.last
  nonneg : 0 ≤ v.bucket.tokens
  last : ∃ e ∈ log, v.bucket.last ∈ e.reading ip
  before : ∀ start, v.bucket.last < start → admittedSince log ip start = 0
  covered : ∀ start, start ≤ v.bucket.last →
    (admittedSince log ip start : ℚ) + v.bucket.tokens ≤ n + r * (v.bucket.last - start)

/-- Without a bucket the refill alone covers what was admitted. -/
def Refilled (rate : ℚ) (log : List (Entry α)) (ip : α) : Prop :=
  ∀ now, Before ip now log → ∀ start, start ≤ now →
    (admittedSince log ip start : ℚ) ≤ rate * (now - start)

/-- What is known about an address. -/
def Balanced (rate : ℚ) (burst : Nat) (log : List (Entry α)) (ip : α) : Option Visitor → Prop
  | some v => Funded rate burst log ip v
  | none => Refilled rate log ip

variable {rate : ℚ} {burst : Nat} {log : List (Entry α)} {ip ip' : α} {now : ℚ}
variable {v : Visitor} {b : TokenBucket}

theorem admittedSince_append (log : List (Entry α)) (e : Entry α) (ip : α) (start : ℚ) :
    admittedSince (log ++ [e]) ip start =
      admittedSince log ip start + if e.admittedSince ip start then 1 else 0 := by
  unfold admittedSince
  rw [countP_append, countP_singleton]

theorem admittedIn_append (log : List (Entry α)) (e : Entry α) (ip : α) (start stop : ℚ) :
    admittedIn (log ++ [e]) ip start stop =
      admittedIn log ip start stop + if e.admittedIn ip start stop then 1 else 0 := by
  unfold admittedIn
  rw [countP_append, countP_singleton]

theorem admittedIn_le_since (log : List (Entry α)) (ip : α) (start stop : ℚ) :
    admittedIn log ip start stop ≤ admittedSince log ip start := by
  refine countP_mono_left ?_
  intro e _ he
  cases e with
  | call => exact (Bool.and_eq_true_iff.1 he).1
  | reap => cases he

theorem Before.of_append {e : Entry α} (h : Before ip now (log ++ [e])) : Before ip now log :=
  fun e' he' => h e' (mem_append_left _ he')

/-- Nothing is admitted after the last reading. -/
theorem admittedSince_of_before {start : ℚ} (h : Before ip now log) (hstart : now < start) :
    admittedSince log ip start = 0 := by
  unfold admittedSince
  rw [countP_eq_zero]
  intro e he hadm
  cases e with
  | call ip' t =>
    simp only [Entry.admittedSince, Bool.and_eq_true, decide_eq_true_eq] at hadm
    have hle := h _ he t (by simp [Entry.reading, hadm.1.2])
    linarith [hadm.2]
  | reap => cases hadm

/-- A call of another address, a refused one, or a reaper. -/
theorem Balanced.of_other {e : Entry α} {v : Option Visitor} (h : Balanced rate burst log ip v)
    (he : ∀ start, e.admittedSince ip start = false) : Balanced rate burst (log ++ [e]) ip v := by
  have hsame : ∀ start, admittedSince (log ++ [e]) ip start = admittedSince log ip start := by
    intro _
    rw [admittedSince_append, he]
    rfl
  cases v with
  | some =>
    obtain ⟨e', he', hat⟩ := h.last
    refine ⟨h.rate, h.burst, h.seen, h.nonneg, ⟨e', mem_append_left _ he', hat⟩, ?_, ?_⟩
    · intro start hstart
      rw [hsame]
      exact h.before start hstart
    · intro start hstart
      rw [hsame]
      exact h.covered start hstart
  | none =>
    intro now hnow start hstart
    rw [hsame]
    exact h now hnow.of_append start hstart

theorem last_allowAt (b : TokenBucket) (now : ℚ) : (b.allowAt now).1.last = now := by
  unfold TokenBucket.allowAt
  split <;> rfl

/-- A bucket that covers what was admitted, at a reading that is not before its last
one. -/
theorem funded_allowAt (hrate : 0 ≤ rate) (hb : b.rate = rate) (hburst : b.burst = burst)
    (hnonneg : 0 ≤ b.tokens) (hnow : Before ip now log) (hlast : b.last ≤ now)
    (hcovered : ∀ start, start ≤ b.last →
      (admittedSince log ip start : ℚ) + b.tokens ≤ burst + rate * (b.last - start))
    (hafter : ∀ start, b.last < start → admittedSince log ip start = 0) :
    Funded rate burst (log ++ [.call ip now (b.allowAt now).2]) ip ⟨(b.allowAt now).1, now⟩ := by
  have hx : b.refilled now = min (b.tokens + (now - b.last) * rate) burst := by
    unfold TokenBucket.refilled
    rw [max_eq_left (by linarith), hb, hburst]
  have hle : b.refilled now ≤ burst := hx ▸ min_le_right _ _
  have hle' : b.refilled now ≤ b.tokens + (now - b.last) * rate := hx ▸ min_le_left _ _
  have hpos : 0 ≤ b.refilled now := by
    rw [hx]
    exact le_min (by nlinarith) (Nat.cast_nonneg burst)
  -- an admitted call spends the token that it is counted for
  have hsum : ∀ start, start ≤ now →
      (admittedSince (log ++ [.call ip now (b.allowAt now).2]) ip start : ℚ) +
        (b.allowAt now).1.tokens = admittedSince log ip start + b.refilled now := by
    intro start hstart
    rw [admittedSince_append]
    unfold TokenBucket.allowAt
    split
    · simp [Entry.admittedSince, hstart]
    · simp [Entry.admittedSince]
  have hlast' : (b.allowAt now).1.last = now := last_allowAt b now
  refine ⟨?_, ?_, hlast'.symm, ?_, ?_, ?_, ?_⟩
  · rw [← hb]
    unfold TokenBucket.allowAt
    split <;> rfl
  · rw [← hburst]
    unfold TokenBucket.allowAt
    split <;> rfl
  · unfold TokenBucket.allowAt
    split
    · rename_i hone
      exact sub_nonneg.2 hone
    · exact hpos
  · rw [hlast']
    exact ⟨_, mem_append_right _ mem_cons_self, if_pos rfl⟩
  · intro start hstart
    have hstart : now < start := hlast' ▸ hstart
    rw [admittedSince_append, admittedSince_of_before hnow hstart]
    simp [Entry.admittedSince, not_le.2 hstart]
  · intro start hstart
    have hstart : start ≤ now := hlast' ▸ hstart
    rw [hsum start hstart, hlast']
    rcases le_or_gt start b.last with hs | hs
    · have hcov := hcovered start hs
      linarith
    · rw [hafter start hs]
      have hrefill : 0 ≤ rate * (now - start) := mul_nonneg hrate (by linarith)
      simp only [Nat.cast_zero, zero_add]
      linarith

/-- The reaper drops a refilled bucket. -/
theorem refilled_of_dropped (hrate : 0 ≤ rate) (h : Funded rate burst log ip v)
    (hidle : IpLimiter.idle now v = true) (hfull : v.bucket.burst ≤ v.bucket.refilled now) :
    Refilled rate (log ++ [.reap now]) ip := by
  intro now' hnow' start hstart
  have hlater : now ≤ now' := hnow' _ (mem_append_right _ mem_cons_self) now rfl
  have hgap : v.bucket.last ≤ now := by
    have hidle := of_decide_eq_true hidle
    rw [h.seen] at hidle
    by_contra hlt
    rw [max_eq_right (by linarith)] at hidle
    unfold evictAfter at hidle
    linarith
  have htokens : (burst : ℚ) ≤ v.bucket.tokens + (now - v.bucket.last) * rate := by
    rw [← h.burst, ← h.rate]
    unfold TokenBucket.refilled at hfull
    rw [max_eq_left (by linarith)] at hfull
    exact le_trans hfull (min_le_left _ _)
  rw [admittedSince_append]
  simp only [Entry.admittedSince, if_false, Bool.false_eq_true, add_zero]
  rcases le_or_gt start v.bucket.last with hs | hs
  · have hcov := h.covered start hs
    have hrefill : 0 ≤ rate * (now' - now) := mul_nonneg hrate (by linarith)
    linarith
  · rw [h.before start hs]
    have hrefill : 0 ≤ rate * (now' - start) := mul_nonneg hrate (by linarith)
    simpa using hrefill

end Funding

section Runs

variable {α : Type} [DecidableEq α]
variable {rate : ℚ} {burst maxVisitors : Nat} {s : State α} {ip ip' : α} {now : ℚ}

/-- The parameters and the balance of every address. -/
structure Sound (r : ℚ) (n : Nat) (s : State α) : Prop where
  rate : s.limiter.rate = r
  burst : s.limiter.burst = n
  balanced : ∀ ip, Balanced r n s.log ip (s.limiter.visitors.get ip)
  bounded : ∀ ip start stop, start ≤ stop →
    (admittedIn s.log ip start stop : ℚ) ≤ n + r * (stop - start)

theorem allow_other (l : IpLimiter α) (now : ℚ) (h : ip' ≠ ip) :
    (l.allow ip now).1.visitors.get ip' = l.visitors.get ip' := by
  unfold IpLimiter.allow
  split
  · exact get_set_of_ne _ h
  · split
    · rfl
    · exact get_set_of_ne _ h

theorem allow_params (l : IpLimiter α) (ip : α) (now : ℚ) :
    (l.allow ip now).1.rate = l.rate ∧ (l.allow ip now).1.burst = l.burst := by
  unfold IpLimiter.allow
  split
  · exact ⟨rfl, rfl⟩
  · split <;> exact ⟨rfl, rfl⟩

/-- An admitted call has a bucket. -/
theorem allow_admitted {l : IpLimiter α} (h : (l.allow ip now).2 = true) :
    ∃ v, (l.allow ip now).1.visitors.get ip = some v ∧ v.bucket.last = now := by
  cases hget : l.visitors.get ip with
  | some v =>
    simp only [IpLimiter.allow, hget, get_set_self]
    exact ⟨_, rfl, last_allowAt v.bucket now⟩
  | none =>
    by_cases hfull : l.maxVisitors ≤ l.visitors.size
    · simp [IpLimiter.allow, hget, hfull] at h
    · simp only [IpLimiter.allow, hget, hfull, if_false, get_set_self]
      exact ⟨_, rfl, last_allowAt _ now⟩

/-- A call that enters in the order of the readings. -/
theorem balanced_allow (hrate : 0 ≤ rate) (h : Sound rate burst s) (hnow : Before ip now s.log) :
    Balanced rate burst (s.log ++ [.call ip now (s.limiter.allow ip now).2]) ip
      ((s.limiter.allow ip now).1.visitors.get ip) := by
  have hbal := h.balanced ip
  cases hget : s.limiter.visitors.get ip with
  | some =>
    rw [hget] at hbal
    obtain ⟨e, he, hat⟩ := hbal.last
    have hfunded := funded_allowAt hrate hbal.rate hbal.burst hbal.nonneg hnow
      (hnow e he _ hat) hbal.covered hbal.before
    simp only [IpLimiter.allow, hget, get_set_self]
    exact hfunded
  | none =>
    rw [hget] at hbal
    by_cases hfull : s.limiter.maxVisitors ≤ s.limiter.visitors.size
    · have hother := hbal.of_other (e := .call ip now false) (fun _ => rfl)
      simp only [IpLimiter.allow, hget, hfull, if_true]
      exact hother
    · have hfunded := funded_allowAt (b := TokenBucket.new s.limiter.rate s.limiter.burst now)
        hrate h.rate (congrArg Nat.cast h.burst)
        (Nat.cast_nonneg s.limiter.burst) hnow (le_refl now) (by
          intro start hstart
          have hcov := hbal now hnow start hstart
          dsimp only [TokenBucket.new]
          rw [h.burst]
          linarith)
        (fun start hstart => admittedSince_of_before hnow hstart)
      simp only [IpLimiter.allow, hget, hfull, if_false, get_set_self]
      exact hfunded

/-- An admitted call is covered by its bucket. -/
theorem bounded_allow (hrate : 0 ≤ rate) (h : Sound rate burst s) (hnow : Before ip now s.log)
    (ip' : α) (start stop : ℚ) (hstop : start ≤ stop) :
    (admittedIn (s.log ++ [.call ip now (s.limiter.allow ip now).2]) ip' start stop : ℚ) ≤
      burst + rate * (stop - start) := by
  by_cases hin : Entry.admittedIn ip' start stop (.call ip now (s.limiter.allow ip now).2) = true
  · simp only [Entry.admittedIn, Bool.and_eq_true, decide_eq_true_eq] at hin
    obtain ⟨⟨⟨hadmitted, rfl⟩, hstart⟩, hend⟩ := hin
    have hbal := balanced_allow hrate h hnow
    have hcount := admittedIn_le_since
      (s.log ++ [.call ip now (s.limiter.allow ip now).2]) ip start stop
    obtain ⟨v, hget, hlast⟩ := allow_admitted hadmitted
    rw [hget] at hbal
    have hcov := hbal.covered start (by rw [hlast]; exact hstart)
    rw [hlast] at hcov
    have hcast : (admittedIn (s.log ++ [.call ip now (s.limiter.allow ip now).2]) ip
        start stop : ℚ) ≤
        admittedSince (s.log ++ [.call ip now (s.limiter.allow ip now).2]) ip start :=
      Nat.cast_le.2 hcount
    have hlen : rate * (now - start) ≤ rate * (stop - start) :=
      mul_le_mul_of_nonneg_left (by linarith) hrate
    linarith [hbal.nonneg]
  · rw [admittedIn_append, if_neg hin]
    exact h.bounded ip' start stop hstop

theorem sound_call (caller : Nat) (hrate : 0 ≤ rate) (h : Sound rate burst s)
    (hnow : Before ip now s.log) : Sound rate burst (effect s (.enterCall caller ip now)) where
  rate := (allow_params s.limiter ip now).1.trans h.rate
  burst := (allow_params s.limiter ip now).2.trans h.burst
  balanced := by
    intro ip'
    show Balanced rate burst (s.log ++ [.call ip now (s.limiter.allow ip now).2]) ip'
      ((s.limiter.allow ip now).1.visitors.get ip')
    by_cases hip : ip' = ip
    · subst hip
      exact balanced_allow hrate h hnow
    · rw [allow_other s.limiter now hip]
      refine (h.balanced ip').of_other ?_
      intro start
      simp [Entry.admittedSince, Ne.symm hip]
  bounded := bounded_allow hrate h hnow

theorem sound_reap (caller : Nat) (hrate : 0 ≤ rate) (h : Sound rate burst s)
    (hfull : InOrder s (.enterReap caller now)) :
    Sound rate burst (effect s (.enterReap caller now)) where
  rate := h.rate
  burst := h.burst
  balanced := by
    intro ip
    show Balanced rate burst (s.log ++ [.reap now]) ip
      ((s.limiter.visitors.retain (fun _ v => !IpLimiter.idle now v)).get ip)
    rw [get_retain]
    have hbal := h.balanced ip
    cases hget : s.limiter.visitors.get ip with
    | none =>
      rw [hget] at hbal
      exact hbal.of_other (fun _ => rfl)
    | some v =>
      rw [hget] at hbal
      cases hidle : IpLimiter.idle now v with
      | false =>
        rw [Option.filter_some, if_pos (by rw [hidle]; rfl)]
        exact hbal.of_other (fun _ => rfl)
      | true =>
        rw [Option.filter_some, if_neg (by rw [hidle]; decide)]
        exact refilled_of_dropped hrate hbal hidle (hfull (ip, v) (get_eq_some.1 hget) hidle)
  bounded := by
    intro ip start stop hstop
    simp only [effect]
    rw [admittedIn_append]
    exact h.bounded ip start stop hstop

theorem sound_reachable
    (hrate : 0 ≤ rate)
    (h : (limiting (α := α) rate burst maxVisitors).Reachable InOrder s) :
    Sound rate burst s := by
  refine h.invariant ?_ ?_
  · refine ⟨rfl, rfl, ?_, ?_⟩
    · intro _ now _ start _
      have hrefill : 0 ≤ rate * (now - start) := mul_nonneg hrate (by linarith)
      simpa [admittedSince, limiting] using hrefill
    · intro _ start stop _
      have hbound : (0 : ℚ) ≤ burst + rate * (stop - start) :=
        add_nonneg (Nat.cast_nonneg burst) (mul_nonneg hrate (by linarith))
      simpa [admittedIn, limiting] using hbound
  intro _ a _ hsound hG _
  cases a with
  | readCall | readReap => exact ⟨hsound.rate, hsound.burst, hsound.balanced, hsound.bounded⟩
  | enterCall caller => exact sound_call caller hrate hsound hG
  | enterReap caller => exact sound_reap caller hrate hsound hG

end Runs

section Result

variable {α : Type} [DecidableEq α]

/-- In every run of callers that enter in the order of their readings, with a reaper that
drops refilled buckets only, the calls of an address that are admitted in a window are
covered by the burst and the rate. -/
theorem rate_limit_holds (rate : ℚ) (burst maxVisitors : Nat) (hrate : 0 ≤ rate) {s : State α}
    (h : (limiting rate burst maxVisitors).Reachable InOrder s) (ip : α) (start length : ℚ)
    (hlength : 0 ≤ length) :
    (admittedIn s.log ip start (start + length) : ℚ) ≤ burst + rate * length := by
  have hbound := (sound_reachable hrate h).bounded ip start (start + length) (by linarith)
  rwa [add_sub_cancel_left] at hbound

/-- A call, a reaper that drops the refilled bucket, and another call. -/
def idleRun : List (Act Nat) :=
  [.readCall 1 7 0, .enterCall 1 7 0, .readReap 2 181, .enterReap 2 181, .readCall 1 7 182,
   .enterCall 1 7 182]

/-- With a token for each second and a burst of one, both calls are admitted. -/
theorem rate_limit_idle :
    ∃ s, (limiting (α := Nat) 1 1 65536).Reachable InOrder s ∧
      admittedIn s.log 7 0 (0 + 182) = 2 ∧
      (admittedIn s.log 7 0 (0 + 182) : ℚ) ≤ (1 : Nat) + 1 * 182 := by
  obtain ⟨s, hs, hcount⟩ := exec_exhibits
    (T := limiting (α := Nat) 1 1 65536) InOrder idleRun
    (f := fun s => decide (admittedIn s.log 7 0 (0 + 182) = 2)) (by decide +kernel)
  exact ⟨s, hs, of_decide_eq_true hcount,
    rate_limit_holds 1 1 65536 (by decide +kernel) hs 7 0 182 (by decide +kernel)⟩

/-- A caller that has read the clock at `0` enters after one that has read it at `1`. -/
def overtakingRun : List (Act Nat) :=
  [.readCall 1 7 0, .enterCall 1 7 0, .readCall 2 7 0, .readCall 3 7 1, .enterCall 3 7 1,
   .enterCall 2 7 0, .readCall 3 7 1, .enterCall 3 7 1]

/-- A bucket that is never refilled is dropped. -/
def droppingRun : List (Act Nat) :=
  [.readCall 1 7 0, .enterCall 1 7 0, .readReap 2 181, .enterReap 2 181, .readCall 1 7 181,
   .enterCall 1 7 181]

/-- A late reading moves the refill time back, and a second is refilled twice: three calls
in one second.  The reaper drops a bucket that has not been refilled: two calls without a
rate.  Both exceed the limit. -/
theorem rate_limit_exceeded :
    (∃ s, (limiting (α := Nat) 1 1 65536).Reachable TransitionSystem.anyStep s ∧
      ¬ (admittedIn s.log 7 0 (0 + 1) : ℚ) ≤ (1 : Nat) + 1 * 1) ∧
    ∃ s, (limiting (α := Nat) 0 1 65536).Reachable TransitionSystem.anyStep s ∧
      ¬ (admittedIn s.log 7 0 (0 + 181) : ℚ) ≤ (1 : Nat) + 0 * 181 := by
  constructor
  · obtain ⟨s, hs, hcount⟩ := exec_exhibits
      (T := limiting (α := Nat) 1 1 65536) anyStep overtakingRun
      (f := fun s => decide (admittedIn s.log 7 0 (0 + 1) = 3)) (by decide +kernel)
    refine ⟨s, hs, ?_⟩
    rw [of_decide_eq_true hcount]
    norm_num
  · obtain ⟨s, hs, hcount⟩ := exec_exhibits
      (T := limiting (α := Nat) 0 1 65536) anyStep droppingRun
      (f := fun s => decide (admittedIn s.log 7 0 (0 + 181) = 2)) (by decide +kernel)
    refine ⟨s, hs, ?_⟩
    rw [of_decide_eq_true hcount]
    norm_num

end Result

end Swarog.Httpmw
