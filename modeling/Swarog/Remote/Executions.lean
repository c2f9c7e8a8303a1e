import Swarog.Remote.Pool

/-!
# What a call puts on the wire

The record of a call consists of its attempts on one instance, followed by those on an
instance of another address if the call may be replayed.  On one instance a second attempt
follows only a fatal failure of the first.  This gives the bounds on the number of executions
of a call.

A connection that failed fatally is out of every cache once the call that saw it has reset
it, and a connection that is out of the caches never comes back.
-/

namespace Swarog.Remote

open Edge (EdgeError)
open Pg (Sess Stmt Programs World)
open Pg.Programs TransitionSystem Function List Option

section Traces

/-- The call saw the connection fail. -/
def Exec.fatal (e : Exec) : Bool :=
  match e.outcome with
  | some (.error failure) => decide ((mapEdgeCallFailure failure).provenance = .connectionFatal)
  | _ => false

/-- The call failed on a connection that is alive: the peer answered, or the stream failed. -/
def Exec.failedAlive (e : Exec) : Bool :=
  match e.outcome with
  | some (.error failure) => decide ((mapEdgeCallFailure failure).provenance ≠ .connectionFatal)
  | _ => false

/-- The call ended in `NotFound` or `Invalid`. -/
def Exec.definitive (e : Exec) : Bool :=
  match e.outcome with
  | some (.error failure) => (mapEdgeCallFailure failure).mapped.status.isDefinitiveAnswer
  | _ => false

theorem definitive_of_fatal {failure : EdgeError}
    (h : (mapEdgeCallFailure failure).provenance = .connectionFatal) :
    (mapEdgeCallFailure failure).mapped.status.isDefinitiveAnswer = false := by
  cases failure with
  | connection => rfl
  | _ => cases h

theorem Exec.not_definitive_of_fatal {e : Exec} (h : e.fatal = true) : e.definitive = false := by
  unfold Exec.fatal at h
  unfold Exec.definitive
  split at h
  · exact definitive_of_fatal (of_decide_eq_true h)
  · cases h

theorem Exec.not_failedAlive_of_fatal {e : Exec} (h : e.fatal = true) : e.failedAlive = false := by
  unfold Exec.fatal at h
  unfold Exec.failedAlive
  split at h
  · simpa using h
  · cases h

/-- What one instance's caller puts on the wire for a call. -/
inductive Attempts (mode : RetryMode) (i : InstId) : List Exec → Prop
  | none : Attempts mode i []
  | once (e : Exec)
      (inst : e.conn.inst = i) :
      Attempts mode i [e]
  | replayed (e e' : Exec)
      (inst : e.conn.inst = i)
      (inst' : e'.conn.inst = i)
      (fatal : e.fatal = true)
      (mode_eq : mode = .onceAfterReconnect) :
      Attempts mode i [e, e']

/-- What the pool puts on the wire for a call. -/
def Trace (mode : RetryMode) (l : List Exec) : Prop :=
  ∃ i j a b, l = a ++ b ∧ Attempts mode i a ∧ Attempts mode j b ∧
    (b ≠ [] → mode = .onceAfterReconnect ∧ i.addr ≠ j.addr ∧ ∀ e ∈ a, e.definitive = false)

end Traces

section Bounds

variable {mode : RetryMode} {i : InstId} {l l₁ l₂ : List Exec} {e : Exec}

theorem Attempts.inst (h : Attempts mode i l) : ∀ e ∈ l, e.conn.inst = i := by
  cases h with
  | none => intro e he; cases he
  | once _ hinst => simpa using hinst
  | replayed _ _ hinst hinst' => simpa using ⟨hinst, hinst'⟩

theorem Attempts.length_le (h : Attempts mode i l) : l.length ≤ 2 := by cases h <;> simp

theorem Attempts.length_le_never (h : Attempts .never i l) : l.length ≤ 1 := by
  cases h with
  | none | once => simp
  | replayed _ _ _ _ _ hmode => cases hmode

/-- Only a fatal failure is followed by another attempt. -/
theorem Attempts.fatal_of_followed (h : Attempts mode i l) (hsplit : l = l₁ ++ e :: l₂)
    (hnext : l₂ ≠ []) : e.fatal = true := by
  cases h with
  | none => cases l₁ <;> cases hsplit
  | once =>
    cases l₁ with
    | nil => exact absurd (List.cons.inj hsplit).2.symm hnext
    | cons _ l₁ => cases l₁ <;> cases (List.cons.inj hsplit).2
  | replayed _ _ _ _ hfatal =>
    cases l₁ with
    | nil => exact (List.cons.inj hsplit).1 ▸ hfatal
    | cons _ l₁ =>
      cases l₁ with
      | nil => exact absurd (List.cons.inj (List.cons.inj hsplit).2).2.symm hnext
      | cons _ l₁ => cases l₁ <;> cases (List.cons.inj (List.cons.inj hsplit).2).2

theorem Trace.length_le_never (h : Trace .never l) : l.length ≤ 1 := by
  obtain ⟨_, _, _, b, rfl, ha, -, hnext⟩ := h
  by_cases hnil : b = []
  · simpa [hnil] using ha.length_le_never
  · cases (hnext hnil).1

theorem Trace.length_le (h : Trace mode l) : l.length ≤ 4 := by
  obtain ⟨_, _, _, _, rfl, ha, hb, _⟩ := h
  have hsum := Nat.add_le_add ha.length_le hb.length_le
  simpa using hsum

theorem Attempts.countP_le (h : Attempts mode i l) (p : Exec → Bool) : l.countP p ≤ 2 :=
  Nat.le_trans countP_le_length h.length_le

theorem Attempts.countP_other {addr : String} (h : Attempts mode i l) (hne : i.addr ≠ addr) :
    l.countP (fun e => decide (e.conn.inst.addr = addr)) = 0 := by
  rw [countP_eq_zero]
  intro e he
  simpa [h.inst e he] using hne

/-- Two executions on one address. -/
theorem Trace.countP_le (h : Trace mode l) (addr : String) :
    l.countP (fun e => decide (e.conn.inst.addr = addr)) ≤ 2 := by
  obtain ⟨i, _, _, b, rfl, ha, hb, hnext⟩ := h
  rw [countP_append]
  by_cases hnil : b = []
  · simpa [hnil] using ha.countP_le _
  · by_cases haddr : i.addr = addr
    · rw [hb.countP_other (haddr ▸ (hnext hnil).2.1.symm), Nat.add_zero]
      exact ha.countP_le _
    · rw [ha.countP_other haddr, Nat.zero_add]
      exact hb.countP_le _

/-- Executions on two addresses. -/
theorem Trace.addrs_le (h : Trace mode l) :
    (l.map (fun e => e.conn.inst.addr)).dedup.length ≤ 2 := by
  obtain ⟨i, j, a, b, rfl, ha, hb, _⟩ := h
  have hsub : ((a ++ b).map (fun e => e.conn.inst.addr)).dedup ⊆ [i.addr, j.addr] := by
    intro _ haddr
    obtain ⟨e, he, rfl⟩ := mem_map.1 (mem_dedup.1 haddr)
    rcases mem_append.1 he with he | he
    · simp [ha.inst e he]
    · simp [hb.inst e he]
  exact (subperm_of_subset (nodup_dedup _) hsub).length_le

/-- What follows an execution of the instance that a call tried last. -/
theorem Attempts.followed (h : Attempts mode i l) (hsplit : l = l₁ ++ e :: l₂) :
    (e.fatal = true ∨ ∀ e' ∈ l₂, e'.conn.inst.addr ≠ e.conn.inst.addr) ∧
      (l₂ ≠ [] → e.definitive = false) := by
  by_cases hne : l₂ = []
  · exact ⟨.inr (by simp [hne]), fun h => absurd hne h⟩
  · have hfatal := h.fatal_of_followed hsplit hne
    exact ⟨.inl hfatal, fun _ => Exec.not_definitive_of_fatal hfatal⟩

/-- An execution that another one follows failed fatally, or was followed on another
address only. -/
theorem Trace.followed (h : Trace mode l) (hsplit : l = l₁ ++ e :: l₂) :
    (e.fatal = true ∨ ∀ e' ∈ l₂, e'.conn.inst.addr ≠ e.conn.inst.addr) ∧
      (l₂ ≠ [] → e.definitive = false) := by
  obtain ⟨_, _, _, b, rfl, ha, hb, hnext⟩ := h
  rcases append_eq_append_iff.1 hsplit with ⟨m, rfl, hm⟩ | ⟨m, rfl, hm⟩
  · exact hb.followed hm
  · cases m with
    | nil =>
      have hfirst : b = [] ++ e :: l₂ := hm.symm
      exact hb.followed hfirst
    | cons _ m =>
      obtain ⟨rfl, rfl⟩ := List.cons.inj hm
      have he : e ∈ l₁ ++ e :: m := by simp
      by_cases hm : m = []
      · -- The last attempt on the first instance: the others are on the other address.
        subst hm
        constructor
        · right
          intro e' he'
          rw [ha.inst e he, hb.inst e' he']
          exact ((hnext (ne_nil_of_mem he')).2.1).symm
        · exact fun hne => (hnext hne).2.2 e he
      · have hfatal := ha.fatal_of_followed rfl hm
        exact ⟨.inl hfatal, fun _ => Exec.not_definitive_of_fatal hfatal⟩

end Bounds

section Points

/-- The attempts on the first instance, when the call has failed over. -/
def At.Past (k : At) (past : List Exec) : Prop :=
  match k.first with
  | none => past = []
  | some first =>
    k.mode = .onceAfterReconnect ∧ ∃ i : InstId, i.addr = first ∧ i.addr ≠ k.inst.addr ∧
      Attempts k.mode i past ∧ ∀ e ∈ past, e.definitive = false

/-- The attempt that a replay follows. -/
def At.Begun (k : At) (l : List Exec) : Prop :=
  if k.replay then
    k.mode = .onceAfterReconnect ∧ ∃ e, l = [e] ∧ e.conn.inst = k.inst ∧ e.fatal = true
  else l = []

/-- What a call has put on the wire at each point. -/
def Pc.Knows (l : List Exec) : Pc → Prop
  | .getting k => ∃ past begun, l = past ++ begun ∧ k.Past past ∧ k.Begun begun
  | .dialing k => ∃ past begun, l = past ++ begun ∧ k.Past past ∧ k.Begun begun
  | .handed k c => c.inst = k.inst ∧ ∃ past begun, l = past ++ begun ∧ k.Past past ∧ k.Begun begun
  | .calling k c =>
    c.inst = k.inst ∧ ∃ past begun, l = past ++ (begun ++ [⟨c, none⟩]) ∧ k.Past past ∧ k.Begun begun
  | .resetting k c err =>
    c.inst = k.inst ∧ ∃ past begun failure,
      l = past ++ (begun ++ [⟨c, some (.error failure)⟩]) ∧ k.Past past ∧ k.Begun begun ∧
      (mapEdgeCallFailure failure).provenance = .connectionFatal ∧
      err = (mapEdgeCallFailure failure).mapped
  | .failover mode _ first _ =>
    mode = .onceAfterReconnect ∧ ∃ i : InstId, i.addr = first ∧ Attempts mode i l ∧
      ∀ e ∈ l, e.definitive = false
  | .returned mode _ => Trace mode l
  | .dropped mode => Trace mode l
  | _ => l = []

variable {k : At} {past begun l : List Exec} {e : Exec} {pc : Pc} {mode : RetryMode}

theorem At.Begun.attempts (h : k.Begun begun) : Attempts k.mode k.inst begun := by
  unfold At.Begun at h
  split at h
  · obtain ⟨_, e, rfl, hinst, _⟩ := h
    exact .once e hinst
  · subst h
    exact .none

theorem At.Begun.extend (h : k.Begun begun) (he : e.conn.inst = k.inst) :
    Attempts k.mode k.inst (begun ++ [e]) := by
  unfold At.Begun at h
  split at h
  · obtain ⟨hmode, e', rfl, hinst, hfatal⟩ := h
    exact .replayed e' e hinst he hfatal hmode
  · subst h
    exact .once e he

theorem At.Begun.fatal (h : k.Begun begun) : ∀ e ∈ begun, e.fatal = true := by
  unfold At.Begun at h
  split at h
  · obtain ⟨_, _, rfl, _, hfatal⟩ := h
    simpa using hfatal
  · simp [h]

/-- What came before is on another address. -/
theorem At.Past.inst_ne (h : k.Past past) (he : e ∈ past) : e.conn.inst ≠ k.inst := by
  unfold At.Past at h
  split at h
  · simp [h] at he
  · obtain ⟨_, _, _, hne, hattempts, _⟩ := h
    intro heq
    exact hne (by rw [← hattempts.inst e he, heq])

theorem At.Past.trace (h : k.Past past) (hl : Attempts k.mode k.inst l) :
    Trace k.mode (past ++ l) := by
  unfold At.Past at h
  split at h
  · exact ⟨k.inst, k.inst, l, [], by simp [h], hl, .none, fun hne => absurd rfl hne⟩
  · obtain ⟨hmode, i, _, hne, hattempts, hdef⟩ := h
    exact ⟨i, k.inst, past, l, rfl, hattempts, hl, fun _ => ⟨hmode, hne, hdef⟩⟩

theorem Trace.nil (mode : RetryMode) : Trace mode [] :=
  ⟨⟨"", 0⟩, ⟨"", 0⟩, [], [], rfl, .none, .none, fun hne => absurd rfl hne⟩

/-- Every point knows the trace of its call. -/
theorem Pc.Knows.trace (h : pc.Knows l) (hmode : pc.mode? = some mode) : Trace mode l := by
  cases pc with
  | getting | dialing =>
    obtain ⟨past, begun, rfl, hpast, hbegun⟩ := h
    exact some.inj hmode ▸ hpast.trace hbegun.attempts
  | handed =>
    obtain ⟨_, past, begun, rfl, hpast, hbegun⟩ := h
    exact some.inj hmode ▸ hpast.trace hbegun.attempts
  | calling =>
    obtain ⟨hinst, past, begun, rfl, hpast, hbegun⟩ := h
    exact some.inj hmode ▸ hpast.trace (hbegun.extend hinst)
  | resetting =>
    obtain ⟨hinst, past, begun, failure, rfl, hpast, hbegun, _⟩ := h
    exact some.inj hmode ▸ hpast.trace (hbegun.extend hinst)
  | failover =>
    obtain ⟨_, i, _, hattempts, _⟩ := h
    exact some.inj hmode ▸
      ⟨i, i, l, [], by simp, hattempts, .none, fun hne => absurd rfl hne⟩
  | returned | dropped => exact some.inj hmode ▸ h
  | _ =>
    obtain rfl : l = [] := h
    exact Trace.nil mode

/-- The pool's decision on the result of an instance. -/
theorem At.finish_knows {result : Except Error Bytes} (hpast : k.Past past)
    (hl : Attempts k.mode k.inst l)
    (hdef : ∀ err, result = .error err → err.status.isDefinitiveAnswer = false →
      ∀ e ∈ l, e.definitive = false) : (k.finish result).Knows (past ++ l) := by
  cases result with
  | ok => exact hpast.trace hl
  | error err =>
    simp only [At.finish]
    split
    case isTrue => exact hpast.trace hl
    case isFalse hcond =>
      simp only [not_or, ne_eq, not_not, Bool.not_eq_true, isSome_eq_false_iff,
        isNone_iff_eq_none] at hcond
      obtain ⟨hfirst, hmode, hstatus⟩ := hcond
      obtain rfl : past = [] := by simpa [At.Past, hfirst] using hpast
      exact ⟨hmode, k.inst, rfl, hl, hdef err rfl hstatus⟩

end Points

section Caches

/-- Every cached connection belongs to its instance and was dialed. -/
def Homed (d : Data) : Prop := ∀ i c, (d.insts i).cur = some c → c.inst = i ∧ c.serial < d.nextConn

/-- No instance caches the connection. -/
def Uncached (d : Data) (c : ConnId) : Prop := ∀ i, (d.insts i).cur ≠ some c

variable {d : Data} {t u : Sess} {i j : InstId} {c : ConnId} {a : Act} {v : Inst}

theorem cur_setInst (h : ((d.setInst i v).insts j).cur = some c) :
    (j = i ∧ v.cur = some c) ∨ (d.insts j).cur = some c := by
  by_cases hj : j = i
  · subst hj
    exact .inl ⟨rfl, by simpa [Data.setInst] using h⟩
  · exact .inr (by simpa [Data.setInst, update_of_ne hj] using h)

theorem cur_setInst_kept (h : v.cur = (d.insts i).cur ∨ j ≠ i) :
    ((d.setInst i v).insts j).cur = (d.insts j).cur := by
  by_cases hj : j = i
  · subst hj
    simpa [Data.setInst] using h
  · simp [Data.setInst, update_of_ne hj]

/-- What a step of `t` leaves to the others: their records, and the caches, except for a
connection that was dialed. -/
structure Frame (t : Sess) (d d' : Data) : Prop where
  wire : ∀ u, u ≠ t → d'.wire u = d.wire u
  next : d.nextConn ≤ d'.nextConn
  cached : ∀ i c, (d'.insts i).cur = some c →
    (d.insts i).cur = some c ∨ (c = ⟨i, d.nextConn⟩ ∧ d'.nextConn = d.nextConn + 1)

/-- A step that dials nothing and puts nothing on the wire. -/
theorem Frame.quiet {d' : Data} (hwire : d'.wire = d.wire) (hnext : d'.nextConn = d.nextConn)
    (hcached : ∀ i c, (d'.insts i).cur = some c → (d.insts i).cur = some c) : Frame t d d' :=
  ⟨fun u _ => congrFun hwire u, Nat.le_of_eq hnext.symm, fun i c h => .inl (hcached i c h)⟩

theorem Frame.refl : Frame t d d := .quiet rfl rfl (fun _ _ h => h)

/-- An instance that caches what it did, or nothing. -/
theorem Frame.setInst (hv : v.cur = (d.insts i).cur ∨ v.cur = none) :
    Frame t d (d.setInst i v) := by
  refine .quiet rfl rfl (fun j c h => ?_)
  rcases cur_setInst h with ⟨rfl, hcur⟩ | hold
  · rcases hv with hv | hv
    · exact hv.symm.trans hcur
    · rw [hv] at hcur
      cases hcur
  · exact hold

theorem Frame.send : Frame t d (d.send t c) :=
  ⟨fun _ hu => update_of_ne hu _ _, Nat.le_refl _, fun _ _ h => .inl h⟩

theorem Frame.answer {outcome : Except EdgeError Bytes} : Frame t d (d.answer t c outcome) :=
  ⟨fun _ hu => update_of_ne hu _ _, Nat.le_refl _, fun _ _ h => .inl h⟩

theorem Frame.connect : Frame t d (d.connect i) := by
  refine ⟨fun _ _ => rfl, Nat.le_succ _, fun j c h => ?_⟩
  rcases cur_setInst (c := c) h with ⟨rfl, hnew⟩ | hold
  · exact .inr ⟨(some.inj hnew).symm, rfl⟩
  · exact .inl hold

theorem Frame.reset : Frame t d (d.reset i c) := by
  unfold Data.reset
  split
  · exact .setInst (.inr rfl)
  · exact .refl

theorem Frame.release : Frame t d (d.release u) := by
  refine .quiet rfl rfl (fun i c h => ?_)
  dsimp only [Data.release] at h
  split at h <;> exact h

/-- Building the instances caches nothing. -/
theorem Frame.rebuild (wanted : List String) (kept : List InstId) :
    Frame t d (Data.rebuild wanted kept d).2 := by
  have hspec : ∀ wanted kept (d : Data), (Data.rebuild wanted kept d).2.wire = d.wire ∧
      (Data.rebuild wanted kept d).2.nextConn = d.nextConn ∧
      ∀ i c, ((Data.rebuild wanted kept d).2.insts i).cur = some c →
        (d.insts i).cur = some c := by
    intro wanted
    induction wanted with
    | nil => exact fun _ _ => ⟨rfl, rfl, fun _ _ h => h⟩
    | cons addr _ ih =>
      intro kept d
      unfold Data.rebuild
      split
      · exact ih _ d
      · obtain ⟨hwire, hnext, hcur⟩ := ih kept (d.build addr)
        refine ⟨hwire, hnext, fun j c h => ?_⟩
        rcases cur_setInst (hcur j c h) with ⟨_, hseed⟩ | hold
        · cases hseed
        · exact hold
  obtain ⟨hwire, hnext, hcur⟩ := hspec wanted kept d
  exact .quiet hwire hnext hcur

theorem Frame.apply (gen : Nat) (addrs : List String) : Frame t d (d.apply gen addrs) := by
  unfold Data.apply
  split
  · exact .refl
  · have h : Frame t { d with appliedGen := gen } _ := Frame.rebuild (t := t) addrs.eraseDups
      (d.current.filter (fun i => decide (i.addr ∈ addrs.eraseDups)))
    exact ⟨h.wire, h.next, h.cached⟩

theorem step_frame (t : Sess) (a : Act) (d : Data) : Frame t d ((programs.stmt t a).change d) := by
  cases a with
  | claim =>
    dsimp only [programs, stmt]
    split
    · exact .quiet rfl rfl (fun _ _ h => h)
    · exact .refl
  | resolved _ gen addrs => exact .apply gen addrs
  | select | failover =>
    dsimp only [programs, stmt, Data.advance]
    split
    · exact .refl
    · exact .quiet rfl rfl (fun _ _ h => h)
  | get =>
    dsimp only [programs, stmt]
    split
    · exact .setInst (.inl rfl)
    · exact .refl
  | dial => exact .connect
  | dialFail | probe => exact .setInst (.inl rfl)
  | send => exact .send
  | answer => exact .answer
  | reset => exact .reset
  | cancel => exact .release
  | teardown i =>
    have h : Frame t d (d.close i) := .setInst (.inr rfl)
    exact ⟨h.wire, h.next, h.cached⟩
  | _ => exact .quiet rfl rfl (fun _ _ h => h)

theorem Homed.frame {d' : Data} (hf : Frame t d d') (h : Homed d) : Homed d' := by
  intro i c hc
  rcases hf.cached i c hc with hold | ⟨rfl, hnext⟩
  · exact ⟨(h i c hold).1, Nat.lt_of_lt_of_le (h i c hold).2 hf.next⟩
  · exact ⟨rfl, hnext ▸ Nat.lt_succ_self _⟩

/-- A connection that is out of the caches stays out. -/
theorem Uncached.frame {d' : Data} (hf : Frame t d d') (hserial : c.serial < d.nextConn)
    (h : Uncached d c) : Uncached d' c := by
  intro i hc
  rcases hf.cached i c hc with hold | ⟨rfl, _⟩
  · exact h i hold
  · exact Nat.lt_irrefl _ hserial

/-- A reset takes the connection out of the caches. -/
theorem Uncached.reset (hhomed : Homed d) : Uncached (d.reset c.inst c) c := by
  intro j hc
  have hcached : (d.insts j).cur = some c := by
    rcases (Frame.reset (t := 0)).cached j c hc with hold | ⟨rfl, hnext⟩
    · exact hold
    · unfold Data.reset at hnext
      split at hnext <;> exact absurd hnext (Nat.succ_ne_self _).symm
  obtain rfl := (hhomed j c hcached).1
  simp [Data.reset, hcached, Data.setInst] at hc

variable {G : World Data Pc → Sess × Act → Prop} {w : World Data Pc}

theorem homed_reachable (h : system.Reachable G w) : Homed w.data :=
  data_invariant (X := programs) (I := Homed) (fun _ _ hc => (nomatch hc))
    (fun w t a _ _ _ hI => hI.frame (step_frame t a w.data)) h

end Caches

section Records

variable {G : World Data Pc → Sess × Act → Prop} {w : World Data Pc} {t : Sess}

theorem knows_resume (call : Option RetryMode) : (resume call).Knows [] := by cases call <;> rfl

theorem selectExcluding_addr {d : Data} {now : Nat} {first : String} {i : InstId}
    (h : d.selectExcluding now (some first) = some i) : first ≠ i.addr := by
  have hfound := List.find?_some h
  simp only [Bool.and_eq_true, decide_eq_true_eq, ne_eq, some.injEq] at hfound
  exact hfound.1

theorem wire_advance (d : Data) : d.advance.wire = d.wire := by
  unfold Data.advance
  split <;> rfl

theorem wire_reset (i : InstId) (c : ConnId) (d : Data) : (d.reset i c).wire = d.wire := by
  unfold Data.reset
  split <;> rfl

/-- The outcome of a wire call. -/
theorem knows_settle
    {k : At} {c : ConnId} {past begun : List Exec} {outcome : Except EdgeError Bytes}
    (hinst : c.inst = k.inst) (hpast : k.Past past) (hbegun : k.Begun begun) :
    (k.settle c outcome).Knows (past ++ (begun ++ [⟨c, some outcome⟩])) := by
  have hattempts : Attempts k.mode k.inst (begun ++ [⟨c, some outcome⟩]) := hbegun.extend hinst
  cases outcome with
  | ok => exact hpast.trace hattempts
  | error failure =>
    simp only [At.settle]
    split
    case isTrue hfatal => exact ⟨hinst, past, begun, failure, rfl, hpast, hbegun, hfatal, rfl⟩
    case isFalse =>
      refine At.finish_knows hpast hattempts (fun err herr hstatus e he => ?_)
      obtain rfl := Except.error.inj herr
      rcases mem_append.1 he with he | he
      · exact Exec.not_definitive_of_fatal (hbegun.fatal e he)
      · obtain rfl := mem_singleton.1 he
        exact hstatus

/-- A reset is followed by the replay, or by the pool's decision. -/
theorem knows_reset {k : At} {c : ConnId} {err : Error} {l : List Exec}
    (h : (Pc.resetting k c err).Knows l) :
    (if k.replay ∨ k.mode = .never then k.finish (.error err)
      else .getting { k with replay := true }).Knows l := by
  obtain ⟨hinst, past, begun, failure, rfl, hpast, hbegun, hfatal, rfl⟩ := h
  have hexec : Exec.fatal ⟨c, some (.error failure)⟩ = true := decide_eq_true hfatal
  split
  case isTrue =>
    refine At.finish_knows hpast (hbegun.extend hinst) (fun _ _ _ e he => ?_)
    rcases mem_append.1 he with he | he
    · exact Exec.not_definitive_of_fatal (hbegun.fatal e he)
    · obtain rfl := mem_singleton.1 he
      exact Exec.not_definitive_of_fatal hexec
  case isFalse hcond =>
    simp only [not_or, Bool.not_eq_true] at hcond
    obtain rfl : begun = [] := by simpa [At.Begun, hcond.1] using hbegun
    have hmode : k.mode = .onceAfterReconnect := by
      cases hk : k.mode with
      | never => exact absurd hk hcond.2
      | onceAfterReconnect => rfl
    exact ⟨past, [⟨c, some (.error failure)⟩], rfl, hpast, hmode, _, rfl, hinst, hexec⟩

/-- The steps of a call keep what it knows. -/
theorem knows_own {d : Data} {t : Sess} {a : Act} (hhomed : Homed d)
    (hguard : (programs.stmt t a).guard d) (h : ((programs.stmt t a).before).Knows (d.wire t)) :
    ((programs.stmt t a).after d).Knows (((programs.stmt t a).change d).wire t) := by
  cases a with
  | start | number | probe | teardown | stop => exact h
  | load | poke =>
    dsimp only [programs, stmt]
    split <;> exact h
  | claim call =>
    dsimp only [programs, stmt]
    split
    · exact h
    · rw [h]
      exact knows_resume call
  | resolved call gen addrs =>
    have hnil : (d.apply gen addrs).wire t = [] := by
      rw [(Frame.apply (t := t + 1) gen addrs).wire t (Nat.succ_ne_self t).symm]
      exact h
    show (resume call).Knows ((d.apply gen addrs).wire t)
    rw [hnil]
    exact knows_resume call
  | unresolved call =>
    show (resume call).Knows (d.wire t)
    rw [h]
    exact knows_resume call
  | select mode now =>
    have hnil : d.advance.wire t = [] := (congrFun (wire_advance d) t).trans h
    dsimp only [programs, stmt]
    rw [hnil]
    cases d.selectExcluding now none with
    | none => exact Trace.nil mode
    | some => exact ⟨[], [], rfl, rfl, rfl⟩
  | get k =>
    obtain ⟨past, begun, hwire, hpast, hbegun⟩ := h
    dsimp only [programs, stmt]
    cases hcur : (d.insts k.inst).cur with
    | none => exact ⟨past, begun, hwire, hpast, hbegun⟩
    | some => exact ⟨(hhomed _ _ hcur).1, past, begun, hwire, hpast, hbegun⟩
  | dial => exact ⟨rfl, h⟩
  | dialFail k err =>
    obtain ⟨past, begun, hwire, hpast, hbegun⟩ := h
    show (k.finish (.error err)).Knows (d.wire t)
    rw [hwire]
    exact At.finish_knows hpast hbegun.attempts
      (fun _ _ _ e he => Exec.not_definitive_of_fatal (hbegun.fatal e he))
  | send k c =>
    obtain ⟨hinst, past, begun, hwire, hpast, hbegun⟩ := h
    have hsent : (d.send t c).wire t = past ++ (begun ++ [⟨c, none⟩]) := by simp [Data.send, hwire]
    exact ⟨hinst, past, begun, hsent, hpast, hbegun⟩
  | answer k c outcome =>
    obtain ⟨hinst, past, begun, hwire, hpast, hbegun⟩ := h
    have hanswered : (d.answer t c outcome).wire t =
        past ++ (begun ++ [⟨c, some outcome⟩]) := by
      simp [Data.answer, hwire, ← append_assoc]
    show (k.settle c outcome).Knows ((d.answer t c outcome).wire t)
    rw [hanswered]
    exact knows_settle hinst hpast hbegun
  | reset k c =>
    show Pc.Knows ((d.reset k.inst c).wire t) (if k.replay ∨ k.mode = .never then _ else _)
    rw [wire_reset]
    exact knows_reset h
  | failover mode now first =>
    obtain ⟨hmode, i, haddr, hattempts, hdef⟩ := h
    dsimp only [programs, stmt]
    rw [wire_advance]
    cases hselect : d.selectExcluding now (some first) with
    | none => exact ⟨i, i, _, [], by simp, hattempts, .none, fun hne => absurd rfl hne⟩
    | some j =>
      have hne : i.addr ≠ j.addr := haddr ▸ selectExcluding_addr hselect
      exact ⟨d.wire t, [], by simp, ⟨hmode, i, haddr, hne, hattempts, hdef⟩, rfl⟩
  | cancel pc =>
    dsimp only [programs, stmt, Data.release] at h ⊢
    cases hmode : pc.mode? with
    | some => exact h.trace hmode
    | none =>
      cases pc with
      | resolving => exact h
      | _ => cases hmode <;> cases hguard

/-- At every point a call knows its record. -/
theorem knows_reachable (h : system.Reachable G w) (t : Sess) : (w.pc t).Knows (w.data.wire t) := by
  refine local_invariant (X := programs) (L := fun d t pc => pc.Knows (d.wire t))
    (fun _ => rfl) ?_ ?_ h t
  · exact fun w t a hr _ en hL => knows_own (homed_reachable hr) en.2 hL
  · intro w t a u _ _ _ hu hL
    rw [(step_frame t a w.data).wire u hu]
    exact hL

end Records

section Eviction

/-- The connection that a call holds. -/
def Pc.conn? : Pc → Option ConnId
  | .handed _ c => some c
  | .calling _ c => some c
  | .resetting _ c _ => some c
  | _ => none

/-- The call has not reset the connection: it is about to, or was dropped. -/
def Pc.Leaves (c : ConnId) : Pc → Prop
  | .resetting _ c' _ => c' = c
  | .dropped _ => True
  | _ => False

/-- The connections of a call were dialed, and those that it saw fail are out of the caches
unless it is still to reset them. -/
structure Evicted (d : Data) (t : Sess) (pc : Pc) : Prop where
  held : ∀ c, pc.conn? = some c → c.serial < d.nextConn
  dialed : ∀ e ∈ d.wire t, e.conn.serial < d.nextConn
  fatal : ∀ e ∈ d.wire t, e.fatal = true → Uncached d e.conn ∨ pc.Leaves e.conn

variable {d : Data} {t u : Sess} {pc : Pc} {k : At}

theorem conn_finish (result : Except Error Bytes) : (k.finish result).conn? = none := by
  cases result with
  | ok => rfl
  | error =>
    simp only [At.finish]
    split <;> rfl

theorem conn_resume (call : Option RetryMode) : (resume call).conn? = none := by cases call <;> rfl

theorem conn_settle {c c' : ConnId} {outcome : Except EdgeError Bytes}
    (h : (k.settle c outcome).conn? = some c') : c = c' := by
  cases outcome with
  | ok => cases h
  | error =>
    simp only [At.settle] at h
    split at h
    · exact some.inj h
    · rw [conn_finish] at h
      cases h

/-- A call holds after a step what it held, what it found in a cache or what it dialed. -/
theorem held_step {a : Act} {c : ConnId} (h : ((programs.stmt t a).after d).conn? = some c) :
    (programs.stmt t a).before.conn? = some c ∨ (∃ i, (d.insts i).cur = some c) ∨
      (c.serial = d.nextConn ∧ ((programs.stmt t a).change d).nextConn = d.nextConn + 1) := by
  cases a with
  | load | poke =>
    dsimp only [programs, stmt] at h
    split at h <;> cases h
  | claim =>
    dsimp only [programs, stmt] at h
    split at h
    · cases h
    · rw [conn_resume] at h
      cases h
  | resolved | unresolved => exact absurd h (by simp [programs, stmt, conn_resume])
  | select mode now =>
    dsimp only [programs, stmt] at h
    cases hselect : d.selectExcluding now none <;> rw [hselect] at h <;> cases h
  | failover mode now first =>
    dsimp only [programs, stmt] at h
    cases hselect : d.selectExcluding now (some first) <;> rw [hselect] at h <;> cases h
  | get k =>
    dsimp only [programs, stmt] at h
    cases hcur : (d.insts k.inst).cur with
    | none =>
      rw [hcur] at h
      cases h
    | some =>
      rw [hcur] at h
      exact .inr (.inl ⟨k.inst, hcur.trans h⟩)
  | dial =>
    obtain rfl := some.inj h
    exact .inr (.inr ⟨rfl, rfl⟩)
  | dialFail => exact absurd h (by simp [programs, stmt, conn_finish])
  | send => exact .inl h
  | answer => exact .inl (congrArg some (conn_settle h))
  | reset =>
    dsimp only [programs, stmt] at h
    split at h
    · rw [conn_finish] at h
      cases h
    · cases h
  | cancel pc =>
    dsimp only [programs, stmt] at h
    cases hmode : pc.mode? <;> rw [hmode] at h <;> cases h
  | _ => cases h

/-- What a step adds to the record is on the connection that the call holds; after a fatal
failure the call owes a reset. -/
theorem recorded_step {a : Act} {e : Exec} (he : e ∈ ((programs.stmt t a).change d).wire t) :
    e ∈ d.wire t ∨ ((programs.stmt t a).before.conn? = some e.conn ∧
      (e.fatal = true → ((programs.stmt t a).after d).Leaves e.conn)) := by
  cases a with
  | claim | get =>
    dsimp only [programs, stmt] at he
    split at he <;> exact .inl he
  | resolved call gen addrs =>
    rw [← (Frame.apply (t := t + 1) gen addrs).wire t (Nat.succ_ne_self t).symm]
    exact .inl he
  | select | failover => exact .inl (congrFun (wire_advance d) t ▸ he)
  | send k c =>
    have hmem : e ∈ d.wire t ∨ e = ⟨c, none⟩ := by simpa [programs, stmt, Data.send] using he
    refine hmem.imp_right ?_
    rintro rfl
    exact ⟨rfl, fun hfatal => (nomatch hfatal)⟩
  | answer k c outcome =>
    have hmem : e ∈ (d.wire t).dropLast ∨ e = ⟨c, some outcome⟩ := by
      simpa [programs, stmt, Data.answer] using he
    refine hmem.imp (fun h => dropLast_subset _ h) ?_
    rintro rfl
    refine ⟨rfl, fun hfatal => ?_⟩
    cases outcome with
    | ok => cases hfatal
    | error failure =>
      have hprov : (mapEdgeCallFailure failure).provenance = .connectionFatal :=
        of_decide_eq_true hfatal
      simp [programs, stmt, At.settle, hprov, Pc.Leaves]
  | reset => exact .inl (congrFun (wire_reset _ _ _) t ▸ he)
  | _ => exact .inl he

/-- A call that owes a reset makes it, or is dropped. -/
theorem leaves_step {a : Act} {c : ConnId} (hhomed : Homed d) (hguard : (programs.stmt t a).guard d)
    (hknows : ((programs.stmt t a).before).Knows (d.wire t))
    (h : (programs.stmt t a).before.Leaves c) :
    Uncached ((programs.stmt t a).change d) c ∨ ((programs.stmt t a).after d).Leaves c := by
  cases a with
  | reset k c' =>
    obtain rfl : c' = c := h
    left
    show Uncached (d.reset k.inst c') c'
    rw [← hknows.1]
    exact .reset hhomed
  | cancel pc =>
    cases pc with
    | resetting => exact .inr trivial
    | dropped => cases hguard
    | _ => exact h.elim
  | _ => exact h.elim

theorem evicted_own {a : Act} (hhomed : Homed d) (hguard : (programs.stmt t a).guard d)
    (hknows : ((programs.stmt t a).before).Knows (d.wire t))
    (h : Evicted d t (programs.stmt t a).before) :
    Evicted ((programs.stmt t a).change d) t ((programs.stmt t a).after d) := by
  have hf := step_frame t a d
  refine ⟨fun c hc => ?_, fun e he => ?_, fun e he hfatal => ?_⟩
  · rcases held_step hc with hold | ⟨i, hcur⟩ | ⟨hnew, hnext⟩
    · exact Nat.lt_of_lt_of_le (h.held c hold) hf.next
    · exact Nat.lt_of_lt_of_le (hhomed i c hcur).2 hf.next
    · rw [hnew, hnext]
      exact Nat.lt_succ_self _
  · rcases recorded_step he with hold | ⟨hheld, _⟩
    · exact Nat.lt_of_lt_of_le (h.dialed e hold) hf.next
    · exact Nat.lt_of_lt_of_le (h.held _ hheld) hf.next
  · rcases recorded_step he with hold | ⟨_, hleaves⟩
    · rcases h.fatal e hold hfatal with hout | hleaves
      · exact .inl (hout.frame hf (h.dialed e hold))
      · exact leaves_step hhomed hguard hknows hleaves
    · exact .inr (hleaves hfatal)

variable {G : World Data Pc → Sess × Act → Prop} {w : World Data Pc}

theorem evicted_reachable (h : system.Reachable G w) (t : Sess) : Evicted w.data t (w.pc t) := by
  refine local_invariant (X := programs) (L := Evicted)
    (fun _ => ⟨fun _ hc => (nomatch hc), fun _ he => (nomatch he), fun _ he => (nomatch he)⟩)
    ?_ ?_ h t
  · intro w t a hr _ en hL
    exact evicted_own (homed_reachable hr) en.2 (en.1 ▸ knows_reachable hr t) hL
  · intro w t a u _ _ _ hu hL
    have hf := step_frame t a w.data
    have hwire := hf.wire u hu
    refine ⟨fun c hc => Nat.lt_of_lt_of_le (hL.held c hc) hf.next, ?_, ?_⟩
    · intro e he
      exact Nat.lt_of_lt_of_le (hL.dialed e (hwire ▸ he)) hf.next
    · intro e he hfatal
      rw [hwire] at he
      exact (hL.fatal e he hfatal).imp_left (fun hout => hout.frame hf (hL.dialed e he))

end Eviction

section Handing

/-- The call is not handed the connection. -/
structure Spared (c : ConnId) (u : Sess) (w : World Data Pc) : Prop where
  uncached : Uncached w.data c
  dialed : c.serial < w.data.nextConn
  held : (w.pc u).conn? ≠ some c
  unused : ∀ e ∈ w.data.wire u, e.conn ≠ c

variable {c : ConnId} {u : Sess} {w w' : World Data Pc} {G : World Data Pc → Sess × Act → Prop}

theorem Spared.step {a : Sess × Act} (h : Spared c u w) (en : programs.enabled w a) :
    Spared c u (programs.effect w a) := by
  obtain ⟨t, a⟩ := a
  have hf := step_frame t a w.data
  have hout : Uncached (programs.effect w (t, a)).data c := h.uncached.frame hf h.dialed
  have hdialed : c.serial < (programs.effect w (t, a)).data.nextConn :=
    Nat.lt_of_lt_of_le h.dialed hf.next
  by_cases hu : u = t
  · subst hu
    have hbefore : (programs.stmt u a).before.conn? ≠ some c := en.1 ▸ h.held
    refine ⟨hout, hdialed, fun hc => ?_, fun e he heq => ?_⟩
    · rw [pc_own] at hc
      rcases held_step hc with hold | ⟨i, hcur⟩ | ⟨hnew, _⟩
      · exact hbefore hold
      · exact h.uncached i hcur
      · exact Nat.lt_irrefl _ (hnew ▸ h.dialed)
    · rcases recorded_step he with hold | ⟨hheld, _⟩
      · exact h.unused e hold heq
      · exact hbefore (heq ▸ hheld)
  · refine ⟨hout, hdialed, ?_, ?_⟩
    · rw [pc_other hu]
      exact h.held
    · show ∀ e ∈ ((programs.stmt t a).change w.data).wire u, e.conn ≠ c
      rw [hf.wire u hu]
      exact h.unused

theorem Spared.reaches (h : Spared c u w) (hrun : system.Reaches G w w') : Spared c u w' :=
  hrun.preserves (fun _ _ hs _ en => hs.step en) h

end Handing

section Results

variable {w : World Data Pc} {G : World Data Pc → Sess × Act → Prop} {t : Sess} {a : Act} {e : Exec}

/-- Only the attempts before the point of a call can have failed on a live connection. -/
theorem At.Begun.inst_ne {k : At} {past begun : List Exec} (hbegun : k.Begun begun)
    (hpast : k.Past past) (he : e ∈ past ++ begun) (halive : e.failedAlive = true) :
    e.conn.inst ≠ k.inst := by
  rcases mem_append.1 he with he | he
  · exact hpast.inst_ne he
  · rw [Exec.not_failedAlive_of_fatal (hbegun.fatal e he)] at halive
    cases halive

/-- The connection of an execution that failed alive stays in its cache as far as the call is
concerned. -/
theorem cached_kept (h : system.Reachable G w) (en : programs.enabled w (t, a))
    (he : e ∈ (programs.effect w (t, a)).data.wire t) (halive : e.failedAlive = true)
    (hcur : (w.data.insts e.conn.inst).cur = some e.conn) :
    ((programs.effect w (t, a)).data.insts e.conn.inst).cur = some e.conn := by
  have hknows : ((programs.stmt t a).before).Knows (w.data.wire t) := en.1 ▸ knows_reachable h t
  have hnone : (programs.effect w (t, a)).data.wire t = [] → False := by
    intro hnil
    rw [hnil] at he
    cases he
  cases a with
  | claim =>
    dsimp only [Programs.effect, programs, stmt]
    split <;> exact hcur
  | resolved call gen addrs =>
    refine (hnone ?_).elim
    exact ((Frame.apply (t := t + 1) gen addrs).wire t (Nat.succ_ne_self t).symm).trans hknows
  | select | failover =>
    dsimp only [Programs.effect, programs, stmt, Data.advance]
    split <;> exact hcur
  | get =>
    dsimp only [Programs.effect, programs, stmt]
    split
    · refine Eq.trans (cur_setInst_kept ?_) hcur
      exact .inl rfl
    · exact hcur
  | dial =>
    obtain ⟨past, begun, hwire, hpast, hbegun⟩ := hknows
    have he : e ∈ past ++ begun := hwire ▸ he
    exact (cur_setInst_kept (.inr (hbegun.inst_ne hpast he halive))).trans hcur
  | dialFail =>
    refine Eq.trans (cur_setInst_kept ?_) hcur
    exact .inl rfl
  | reset k c =>
    obtain ⟨hinst, past, begun, failure, hwire, hpast, hbegun, hfatal, _⟩ := hknows
    have he : e ∈ past ++ begun ++ [⟨c, some (.error failure)⟩] := by
      rw [append_assoc, ← hwire, ← wire_reset k.inst c w.data]
      exact he
    have hne : e.conn.inst ≠ k.inst := by
      rcases mem_append.1 he with he | he
      · exact hbegun.inst_ne hpast he halive
      · obtain rfl := mem_singleton.1 he
        simp [Exec.failedAlive, hfatal] at halive
    show ((w.data.reset k.inst c).insts e.conn.inst).cur = _
    unfold Data.reset
    split
    · exact (cur_setInst_kept (.inr hne)).trans hcur
    · exact hcur
  | cancel =>
    dsimp only [Programs.effect, programs, stmt, Data.release]
    split <;> exact hcur
  | probe | teardown | stop => exact (hnone hknows).elim
  | _ => exact hcur

/-- The call has returned to its caller. -/
def Pc.hasReturned : Pc → Bool
  | .returned _ _ => true
  | _ => false

/-- What holds of the executions of a call. -/
structure Executions (w : World Data Pc) (t : Sess) : Prop where
  never : (w.pc t).mode? = some .never → (w.data.wire t).length ≤ 1
  perAddr : ∀ addr, (w.data.wire t).countP (fun e => decide (e.conn.inst.addr = addr)) ≤ 2
  addrs : ((w.data.wire t).map (fun e => e.conn.inst.addr)).dedup.length ≤ 2
  total : (w.data.wire t).length ≤ 4
  /-- A failure on a live connection is not repeated on the instance. -/
  alive : ∀ l e l', w.data.wire t = l ++ e :: l' → e.failedAlive = true →
    ∀ e' ∈ l', e'.conn.inst.addr ≠ e.conn.inst.addr
  definitive : ∀ l e l', w.data.wire t = l ++ e :: l' → e.definitive = true → l' = []
  /-- A failure on a live connection leaves it in the cache, when it occurs and later. -/
  kept : ∀ a e, system.enabled w (t, a) → e ∈ (system.effect w (t, a)).data.wire t →
    e.failedAlive = true → (w.data.insts e.conn.inst).cur = some e.conn →
    ((system.effect w (t, a)).data.insts e.conn.inst).cur = some e.conn
  /-- A connection that failed is not handed to a call that starts once this one is back. -/
  spared : ∀ e ∈ w.data.wire t, e.fatal = true → (w.pc t).hasReturned = true →
    ∀ u w', w.pc u = .idle → system.Reaches anyStep w w' →
      (w'.pc u).conn? ≠ some e.conn ∧ ∀ e' ∈ w'.data.wire u, e'.conn ≠ e.conn

theorem trace_reachable (h : system.Reachable G w) (t : Sess) :
    ∃ mode, Trace mode (w.data.wire t) ∧ ((w.pc t).mode? = some mode ∨ (w.pc t).mode? = none) := by
  have hknows := knows_reachable h t
  cases hmode : (w.pc t).mode? with
  | some mode => exact ⟨mode, hknows.trace hmode, .inl rfl⟩
  | none =>
    have hnil : w.data.wire t = [] := by
      cases hpc : w.pc t with
      | idle | loaded | claimed | resolving => rw [hpc] at hknows; exact hknows
      | _ => rw [hpc] at hmode; cases hmode
    exact ⟨.never, hnil ▸ Trace.nil _, .inr rfl⟩

/-- A mutation is executed once at most; a call that may be replayed twice on each of two
addresses at most. -/
theorem executions_bounded (w : World Data Pc) (h : system.Reachable anyStep w) (t : Sess) :
    Executions w t := by
  obtain ⟨mode, htrace, hmode⟩ := trace_reachable h t
  refine ⟨?_, htrace.countP_le, htrace.addrs_le, htrace.length_le, ?_, ?_, ?_, ?_⟩
  · intro hnever
    rcases hmode with hmode | hmode
    · obtain rfl := some.inj (hmode.symm.trans hnever)
      exact htrace.length_le_never
    · rw [hmode] at hnever
      cases hnever
  · intro l e l' hsplit halive
    refine (htrace.followed hsplit).1.resolve_left (fun hfatal => ?_)
    rw [Exec.not_failedAlive_of_fatal hfatal] at halive
    cases halive
  · intro l e l' hsplit hdef
    by_contra hne
    rw [(htrace.followed hsplit).2 hne] at hdef
    cases hdef
  · exact fun a e en he halive hcur => cached_kept h en he halive hcur
  · intro e he hfatal hreturned u w' hidle hrun
    have hevicted := evicted_reachable h t
    have hout : Uncached w.data e.conn := by
      refine (hevicted.fatal e he hfatal).resolve_right (fun hleaves => ?_)
      cases hpc : w.pc t with
      | returned =>
        rw [hpc] at hleaves
        exact hleaves
      | _ =>
        rw [hpc] at hreturned
        cases hreturned
    have hunused : ∀ e' ∈ w.data.wire u, e'.conn ≠ e.conn := by
      have hnil : w.data.wire u = [] := by
        have hknows := knows_reachable h u
        rw [hidle] at hknows
        exact hknows
      simp [hnil]
    have hspared : Spared e.conn u w :=
      ⟨hout, hevicted.dialed e he, by simp [hidle, Pc.conn?], hunused⟩
    exact ⟨(hspared.reaches hrun).held, (hspared.reaches hrun).unused⟩

/-- The first instance fails twice, the second one answers. -/
def failingRead : List (Sess × Act) :=
  let a : InstId := ⟨"a:9001", 0⟩
  let b : InstId := ⟨"b:9001", 1⟩
  let k : At := ⟨.onceAfterReconnect, 2, none, a, false⟩
  let replay : At := { k with replay := true }
  let other : At := ⟨.onceAfterReconnect, 2, some "a:9001", b, false⟩
  let lost : EdgeError := .connection "closed"
  [(9, .poke 1), (9, .claim none 0 1), (9, .number none),
    (9, .resolved none 1 ["a:9001", "b:9001"]),
    (0, .start .onceAfterReconnect), (0, .load .onceAfterReconnect 2),
    (0, .select .onceAfterReconnect 2),
    (0, .get k), (0, .dial k), (0, .send k ⟨a, 0⟩), (0, .answer k ⟨a, 0⟩ (.error lost)),
    (0, .reset k ⟨a, 0⟩ lost.toError),
    (0, .get replay), (0, .dial replay), (0, .send replay ⟨a, 1⟩),
    (0, .answer replay ⟨a, 1⟩ (.error lost)), (0, .reset replay ⟨a, 1⟩ lost.toError),
    (0, .failover .onceAfterReconnect 2 "a:9001" lost.toError),
    (0, .get other), (0, .dial other), (0, .send other ⟨b, 2⟩),
    (0, .answer other ⟨b, 2⟩ (.error (.remote "busy")))]

/-- A mutation afterwards. -/
def laterWrite : List (Sess × Act) :=
  let a : InstId := ⟨"a:9001", 0⟩
  let k : At := ⟨.never, 3, none, a, false⟩
  [(1, .start .never), (1, .load .never 3), (1, .select .never 3), (1, .get k), (1, .dial k),
    (1, .send k ⟨a, 3⟩)]

theorem executions_bounded_failover :
    ∃ w w', system.Reachable anyStep w ∧ system.Reaches anyStep w w' ∧ Executions w 0 ∧
      (w.data.wire 0).length = 3 ∧ (w'.data.wire 1).length = 1 ∧
      ∀ e ∈ w.data.wire 0, e.fatal = true → ∀ e' ∈ w'.data.wire 1, e'.conn ≠ e.conn := by
  have hrun : (system.exec anyStep system.start failingRead).any (fun w =>
      decide ((w.data.wire 0).length = 3) && (w.pc 0).hasReturned && decide (w.pc 1 = .idle) &&
        (system.exec anyStep w laterWrite).any (fun w' =>
          decide ((w'.data.wire 1).length = 1))) = true := by
    decide +kernel
  obtain ⟨w, hw, hchecks⟩ := (any_eq_true _ _).1 hrun
  simp only [Bool.and_eq_true, decide_eq_true_eq] at hchecks
  obtain ⟨⟨⟨hthree, hreturned⟩, hidle⟩, hlater⟩ := hchecks
  obtain ⟨w', hw', hone⟩ := (any_eq_true _ _).1 hlater
  have hreach : system.Reachable anyStep w := exec_reaches _ hw
  have hreach' : system.Reaches anyStep w w' := exec_reaches _ hw'
  have hbounds := executions_bounded w hreach 0
  exact ⟨w, w', hreach, hreach', hbounds, hthree, of_decide_eq_true hone,
    fun e he hfatal => (hbounds.spared e he hfatal hreturned 1 w' hidle hreach').2⟩

end Results

end Swarog.Remote
