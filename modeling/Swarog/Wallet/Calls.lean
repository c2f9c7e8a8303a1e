import Swarog.Wallet.Conservation

/-!
# Calls from opening to answer

`CallStep` lists what a step can do to the calls of the wallet: open one, refuse
one, answer one, commit one, or leave all of them open.  Numbering the calls
makes "this call moved money" a property of the history (`Attempts`).
-/

namespace Swarog.Wallet

open Pg Function List

/-- The call a session has not answered. -/
def Pc.call : Pc → Option Job
  | .opened j | .moving j _ _ | .closing j _ => some j
  | _ => none

/-- The job of an answer. -/
def Answer.job (ans : Answer) : Job := ⟨ans.attempt, ans.began, ans.call⟩

theorem Pc.call_of_job {pc : Pc} {j : Job} (h : pc.job = some j) : pc.call = some j := by
  cases pc <;> first | exact h | cases h

namespace State

/-- What a step does to the calls. -/
inductive CallStep (s s' : State) : Prop
  | still
      (calls : ∀ t, (s'.pc t).call = (s.pc t).call)
      (answers : s'.answers = s.answers)
      (applied : s'.applied = s.applied)
      (next : s'.nextAttempt = s.nextAttempt)
  | opens (t : Sess) (call : Call)
      (idle : (s.pc t).call = none)
      (opened : s'.pc t = .opened ⟨s.nextAttempt, s.applied.length, call⟩)
      (others : ∀ u, u ≠ t → s'.pc u = s.pc u)
      (answers : s'.answers = s.answers)
      (applied : s'.applied = s.applied)
      (next : s'.nextAttempt = s.nextAttempt + 1)
  | refuses (call : Call) (e : Error)
      (invalid : validateMovement call.movement = .error e)
      (pcs : s'.pc = s.pc)
      (answers : s'.answers =
        s.answers ++ [⟨s.nextAttempt, s.applied.length, call, false, .error e⟩])
      (applied : s'.applied = s.applied)
      (next : s'.nextAttempt = s.nextAttempt + 1)
  | ends (t : Sess) (j : Job) (result : Except Error Int)
      (open_ : (s.pc t).call = some j)
      (why : s.pc t = .closing j result ∨ ∃ message, result = .error (.internal message))
      (idle : s'.pc t = .idle)
      (others : ∀ u, u ≠ t → s'.pc u = s.pc u)
      (answers : s'.answers = s.answers ++ [j.answer false result])
      (applied : s'.applied = s.applied)
      (next : s'.nextAttempt = s.nextAttempt)
  | commits (t : Sess) (j : Job) (p : Uuid) (id seq : Nat) (b : Int)
      (result : Except Error Int)
      (open_ : s.pc t = .moving j p (.emitted id b))
      (result_eq : result = .ok b ∨ ∃ message, result = .error (.internal message))
      (idle : s'.pc t = .idle)
      (others : ∀ u, u ≠ t → s'.pc u = s.pc u)
      (answers : s'.answers = s.answers ++ [j.answer true result])
      (records : Records s s' ⟨j.attempt, j.call.key, j.row p id seq b⟩)
      (next : s'.nextAttempt = s.nextAttempt)

section CallStep

variable {s s' : State}

/-- A session moves on within its call. -/
theorem callStep_goto {t : Sess} (pc : Pc) (hpc : s'.pc = update s.pc t pc)
    (hcall : pc.call = (s.pc t).call) (hans : s'.answers = s.answers)
    (happ : s'.applied = s.applied) (hnext : s'.nextAttempt = s.nextAttempt) : CallStep s s' := by
  refine .still ?_ hans happ hnext
  intro u
  rw [hpc]
  by_cases hu : u = t
  · subst hu
    rw [update_self, hcall]
  · rw [update_of_ne hu]

theorem Sound.call_cases {a : Act} (h : s.Sound) (en : s.enabled a) : CallStep s (s.effect a) := by
  have hothers : ∀ {t : Sess} {pc : Pc} u, u ≠ t → update s.pc t pc u = s.pc u :=
    fun u hu => update_of_ne hu _ _
  cases a with
  | addCurrency => exact .still (fun _ => rfl) rfl rfl rfl
  | refuse call e => exact .refuses call e en.2 rfl rfl rfl rfl
  | «open» t call => exact .opens t call (by rw [en.1]; rfl) (update_self _ _ _) hothers rfl rfl rfl
  | check _ j p => exact callStep_goto (.moving j p .checked) rfl (by rw [en.1]; rfl) rfl rfl rfl
  | claim _ j p =>
    exact callStep_goto (.moving j p (.claimed _)) rfl (by rw [en.1]; rfl) rfl rfl rfl
  | claimLost _ j p => exact callStep_goto (.moving j p .lost) rfl (by rw [en.1]; rfl) rfl rfl rfl
  | replay _ j => exact callStep_goto (.closing j _) rfl (by rw [en.1]; rfl) rfl rfl rfl
  | update t j p id | insert t j p id | merge t j p id =>
    exact callStep_goto (.moving j p (.moved id _)) rfl (by rw [en.1]; rfl) rfl rfl rfl
  | updateMiss _ j p id =>
    exact callStep_goto (.moving j p (.missed id)) rfl (by rw [en.1]; rfl) rfl rfl rfl
  | stamp _ j p id b =>
    exact callStep_goto (.moving j p (.stamped id b)) rfl (by rw [en.1]; rfl) rfl rfl rfl
  | emit _ j p id b =>
    exact callStep_goto (.moving j p (.emitted id b)) rfl (by rw [en]; rfl) rfl rfl rfl
  | reject _ j e =>
    exact callStep_goto (.closing j (.error e)) rfl (Pc.call_of_job en.1).symm rfl rfl rfl
  | finish t j result =>
    exact .ends t j result (by rw [en]; rfl) (.inl en) (update_self _ _ _) hothers
      rfl rfl rfl
  | fail t j message =>
    exact .ends t j _ (Pc.call_of_job en) (.inr ⟨message, rfl⟩) (update_self _ _ _)
      hothers rfl rfl rfl
  | commit t j p id b =>
    obtain ⟨seq, hrec⟩ : ∃ seq, Records s (s.effect (.commit t j p id b)) _ :=
      h.records en rfl rfl rfl rfl rfl
    exact .commits t j p id seq b (.ok b) en (.inl rfl) (update_self _ _ _) hothers
      rfl hrec rfl
  | commitLost t j p id b message =>
    obtain ⟨seq, hrec⟩ : ∃ seq, Records s (s.effect (.commitLost t j p id b message)) _ :=
      h.records en rfl rfl rfl rfl rfl
    exact .commits t j p id seq b _ en (.inr ⟨message, rfl⟩) (update_self _ _ _)
      hothers rfl hrec rfl
  | plantOpen _ p handle =>
    exact callStep_goto (.planting p handle) rfl (by rw [en.1]; rfl) rfl rfl rfl
  | plant | plantLost => exact callStep_goto .planted rfl (by rw [en.1]; rfl) rfl rfl rfl
  | commitPlant =>
    exact callStep_goto .idle rfl (by rw [en]; rfl) rfl rfl rfl
  | sweepOpen =>
    exact callStep_goto (.sweepOpen Uuid.nil) rfl (by rw [en]; rfl) rfl rfl rfl
  | sweepSelect =>
    exact callStep_goto (.sweeping _ _ .next) rfl (by rw [en]; rfl) rfl rfl rfl
  | deleteStart _ due p rest =>
    exact callStep_goto (.sweeping due rest (.deleting p _)) rfl (by rw [en]; rfl) rfl rfl rfl
  | deleteRow _ due rest p =>
    exact callStep_goto (.sweeping due rest (.deleting p _)) rfl (by rw [en.1]; rfl) rfl rfl rfl
  | reownStart _ due rest p =>
    exact callStep_goto (.sweeping due rest (.reowning p _)) rfl (by rw [en]; rfl) rfl rfl rfl
  | reownRow _ due rest p =>
    exact callStep_goto (.sweeping due rest (.reowning p _)) rfl (by rw [en.1]; rfl) rfl rfl rfl
  | stampSwept _ due rest =>
    exact callStep_goto (.sweeping due rest .next) rfl (by rw [en.1]; rfl) rfl rfl rfl
  | sweepMore _ _ last =>
    exact callStep_goto (.sweepOpen last) rfl (by rw [en.1]; rfl) rfl rfl rfl
  | sweepEnd | sweepBudget => exact callStep_goto .swept rfl (by rw [en.1]; rfl) rfl rfl rfl
  | commitSweep =>
    exact callStep_goto .idle rfl (by rw [en]; rfl) rfl rfl rfl
  | abort t =>
    refine callStep_goto .idle rfl ?_ rfl rfl rfl
    have hpurge : (s.pc t).IsPurge := en
    cases hpc : s.pc t <;> rw [hpc] at hpurge <;> first | rfl | cases hpurge

end CallStep

section Attempts

/-- The call number `n` appears in the history. -/
def Used (s : State) (n : Nat) : Prop :=
  (∃ ans ∈ s.answers, ans.attempt = n) ∨ ∃ e ∈ s.applied, e.attempt = n

/-- Call numbers are not shared, and a call that ended without sending `COMMIT`
recorded no movement. -/
structure Attempts (s : State) : Prop where
  pending_lt : ∀ t j, (s.pc t).call = some j → j.attempt < s.nextAttempt
  used_lt : ∀ n, s.Used n → n < s.nextAttempt
  distinct : ∀ t u j j', (s.pc t).call = some j → (s.pc u).call = some j' →
    j.attempt = j'.attempt → t = u
  unused : ∀ t j, (s.pc t).call = some j → ¬ s.Used j.attempt
  unmoved : ∀ ans ∈ s.answers, ans.committing = false → ∀ e ∈ s.applied, e.attempt ≠ ans.attempt

variable {s s' : State}

theorem used_append_answer {ans : Answer} {n : Nat} (hans : s'.answers = s.answers ++ [ans])
    (happ : s'.applied = s.applied) : s'.Used n ↔ s.Used n ∨ n = ans.attempt := by
  simp only [Used, hans, happ, mem_append, mem_singleton]
  constructor
  · rintro (⟨a, ha | rfl, rfl⟩ | he)
    · exact .inl (.inl ⟨a, ha, rfl⟩)
    · exact .inr rfl
    · exact .inl (.inr he)
  · rintro ((⟨a, ha, rfl⟩ | he) | rfl)
    · exact .inl ⟨a, .inl ha, rfl⟩
    · exact .inr he
    · exact .inl ⟨ans, .inr rfl, rfl⟩

theorem used_append_both {ans : Answer} {e : Applied} {n : Nat}
    (hans : s'.answers = s.answers ++ [ans]) (happ : s'.applied = s.applied ++ [e])
    (he : e.attempt = ans.attempt) : s'.Used n ↔ s.Used n ∨ n = ans.attempt := by
  simp only [Used, hans, happ, mem_append, mem_singleton]
  constructor
  · rintro (⟨a, ha | rfl, rfl⟩ | ⟨e', he' | rfl, rfl⟩)
    · exact .inl (.inl ⟨a, ha, rfl⟩)
    · exact .inr rfl
    · exact .inl (.inr ⟨e', he', rfl⟩)
    · exact .inr he
  · rintro ((⟨a, ha, rfl⟩ | ⟨e', he', rfl⟩) | rfl)
    · exact .inl ⟨a, .inl ha, rfl⟩
    · exact .inr ⟨e', .inl he', rfl⟩
    · exact .inl ⟨ans, .inr rfl, rfl⟩

/-- The calls open after the call of `t` ended were open before, in other
sessions. -/
theorem call_of_ended {t u : Sess} {j : Job} (hidle : s'.pc t = .idle)
    (hothers : ∀ u, u ≠ t → s'.pc u = s.pc u) (hu : (s'.pc u).call = some j) :
    u ≠ t ∧ (s.pc u).call = some j := by
  have hut : u ≠ t := by
    rintro rfl
    rw [hidle] at hu
    cases hu
  exact ⟨hut, hothers u hut ▸ hu⟩

/-- The end of a call, with or without a recorded movement. -/
theorem Attempts.of_ended {t : Sess} {j : Job} (h : s.Attempts) (hopen : (s.pc t).call = some j)
    (hidle : s'.pc t = .idle) (hothers : ∀ u, u ≠ t → s'.pc u = s.pc u)
    (hused : ∀ n, s'.Used n ↔ s.Used n ∨ n = j.attempt) (hnext : s'.nextAttempt = s.nextAttempt)
    (hunmoved : ∀ ans ∈ s'.answers, ans.committing = false →
      ∀ e ∈ s'.applied, e.attempt ≠ ans.attempt) : s'.Attempts where
  pending_lt := fun u i hu => hnext ▸ h.pending_lt u i (call_of_ended hidle hothers hu).2
  used_lt := by
    intro n hn
    rw [hnext]
    rcases (hused n).1 hn with hn | rfl
    · exact h.used_lt n hn
    · exact h.pending_lt t j hopen
  distinct := fun u v i i' hu hv =>
    h.distinct u v i i' (call_of_ended hidle hothers hu).2 (call_of_ended hidle hothers hv).2
  unused := by
    intro u i hu hn
    obtain ⟨hut, hu⟩ := call_of_ended hidle hothers hu
    rcases (hused _).1 hn with hn | heq
    · exact h.unused u i hu hn
    · exact hut (h.distinct u t i j hu hopen heq)
  unmoved := hunmoved

theorem Attempts.step (h : s.Attempts) (hs : CallStep s s') : s'.Attempts := by
  cases hs with
  | still calls answers applied next =>
    have hused : ∀ n, s'.Used n ↔ s.Used n := fun n => by rw [Used, Used, answers, applied]
    constructor
    · intro t j hj
      rw [next]
      exact h.pending_lt t j (calls t ▸ hj)
    · intro n hn
      rw [next]
      exact h.used_lt n ((hused n).1 hn)
    · intro t u j j' hj hj'
      exact h.distinct t u j j' (calls t ▸ hj) (calls u ▸ hj')
    · intro t j hj hn
      exact h.unused t j (calls t ▸ hj) ((hused _).1 hn)
    · rw [answers, applied]
      exact h.unmoved
  | opens t call idle opened others answers applied next =>
    have hused : ∀ n, s'.Used n ↔ s.Used n := fun n => by rw [Used, Used, answers, applied]
    -- the new call has the next number, the others are below it
    have hcall : ∀ u j, (s'.pc u).call = some j →
        (u = t ∧ j.attempt = s.nextAttempt) ∨
          (u ≠ t ∧ (s.pc u).call = some j ∧ j.attempt < s.nextAttempt) := by
      intro u j hj
      by_cases hu : u = t
      · subst hu
        rw [opened] at hj
        cases hj
        exact .inl ⟨rfl, rfl⟩
      · rw [others u hu] at hj
        exact .inr ⟨hu, hj, h.pending_lt u j hj⟩
    constructor
    · intro u j hj
      rcases hcall u j hj with ⟨-, ha⟩ | ⟨-, -, ha⟩ <;> omega
    · intro n hn
      have := h.used_lt n ((hused n).1 hn)
      omega
    · intro u v j j' hu hv heq
      rcases hcall u j hu with ⟨hut, ha⟩ | ⟨hut, hu, ha⟩ <;>
        rcases hcall v j' hv with ⟨hvt, ha'⟩ | ⟨hvt, hv, ha'⟩
      · rw [hut, hvt]
      · omega
      · omega
      · exact h.distinct u v j j' hu hv heq
    · intro u j hj hn
      have hn := (hused _).1 hn
      rcases hcall u j hj with ⟨-, ha⟩ | ⟨-, hj, -⟩
      · have := h.used_lt _ hn
        omega
      · exact h.unused u j hj hn
    · rw [answers, applied]
      exact h.unmoved
  | refuses call e invalid pcs answers applied =>
    have hused : ∀ n, s'.Used n ↔ s.Used n ∨ n = s.nextAttempt :=
      fun n => used_append_answer answers applied
    constructor
    · intro t j hj
      have := h.pending_lt t j (pcs ▸ hj)
      omega
    · intro n hn
      rcases (hused n).1 hn with hn | rfl
      · have := h.used_lt n hn
        omega
      · omega
    · rw [pcs]
      exact h.distinct
    · intro t j hj hn
      rw [pcs] at hj
      rcases (hused _).1 hn with hn | heq
      · exact h.unused t j hj hn
      · have := h.pending_lt t j hj
        omega
    · intro ans hans hcom e' he'
      rw [applied] at he'
      rw [answers, mem_append, mem_singleton] at hans
      rcases hans with hans | rfl
      · exact h.unmoved ans hans hcom e' he'
      · exact Nat.ne_of_lt (h.used_lt _ (.inr ⟨e', he', rfl⟩))
  | ends t j result open_ why idle others answers applied next =>
    refine h.of_ended open_ idle others (fun n => used_append_answer answers applied) next ?_
    intro ans hans hcom e he
    rw [applied] at he
    rw [answers, mem_append, mem_singleton] at hans
    rcases hans with hans | rfl
    · exact h.unmoved ans hans hcom e he
    · exact fun heq => h.unused t j open_ (.inr ⟨e, he, heq⟩)
  | commits t j p id seq b result open_ result_eq idle others answers records next =>
    have hopen : (s.pc t).call = some j := by
      rw [open_]
      rfl
    refine h.of_ended hopen idle others
      (fun n => used_append_both answers records.applied rfl) next ?_
    intro ans hans hcom e he
    rw [answers, mem_append, mem_singleton] at hans
    rw [records.applied, mem_append, mem_singleton] at he
    rcases hans with hans | rfl
    · rcases he with he | rfl
      · exact h.unmoved ans hans hcom e he
      · exact fun heq => h.unused t j hopen (.inl ⟨ans, hans, heq.symm⟩)
    · cases hcom

theorem attempts_reachable {G : State → Act → Prop} (h : system.Reachable G s) : s.Attempts := by
  refine h.invariant ?_ ?_
  · constructor
    · intro _ _ hj
      cases hj
    · rintro _ (⟨_, hans, -⟩ | ⟨_, he, -⟩)
      · cases hans
      · cases he
    · intro _ _ _ _ hj
      cases hj
    · intro _ _ hj
      cases hj
    · intro _ hans
      cases hans
  · intro _ _ hr hatt _ en
    exact hatt.step ((sound_reachable hr).call_cases en)

end Attempts

end State
end Swarog.Wallet
