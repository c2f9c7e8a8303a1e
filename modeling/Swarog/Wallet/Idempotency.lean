import Swarog.Wallet.Calls

/-!
# Movements are idempotent per key

`Explained` says what an answer means: an `Ok` is the recorded balance of a
movement under the key, and a call that began when its key was already recorded
fails for one of three reasons only.  Together with the account book and the
numbering of the calls this gives `Idempotent`.
-/

namespace Swarog.Wallet

open Pg TransitionSystem Function List Option

namespace State

section Explained

/-- What the result of a call means.  An `Ok` is the balance recorded under its
key.  An error of a valid call that began when its key was recorded is an
infrastructure failure, the tombstone of its player, or the conflict of a
movement that the recorded row does not describe. -/
def Explained (s : State) (j : Job) : Except Error Int → Prop
  | .ok b =>
    ∃ e ∈ s.applied, e.key = j.call.key ∧ e.row.balanceAfter = b ∧
      (Describes j.call e.row ∨ s.Swept e.row.player)
  | .error err =>
    ∀ e ∈ s.applied.take j.began, e.key = j.call.key → ¬ s.Swept e.row.player →
      validateMovement j.call.movement = .ok () → ∀ p, j.call.player = some p →
        err.status = .internal ∨
        (err = playerDeleted ∧ s.purged.committed p ≠ none) ∨
        (err = idempotencyConflict ∧ ¬ Describes j.call e.row)

/-- The history grows and tombstones stay. -/
structure Extends (s s' : State) : Prop where
  applied : ∃ l, s'.applied = s.applied ++ l
  swept : ∀ p, s.Swept p → s'.Swept p
  planted : ∀ p, s.purged.committed p ≠ none → s'.purged.committed p ≠ none

variable {s s' : State} {t : Sess} {j : Job}

theorem Sound.extends {a : Act} (h : s.Sound) (en : s.enabled a) : Extends s (s.effect a) := by
  rcases h.commit_cases en with ⟨_, _, _, _, _, _, _, _, hrec⟩ | hera
  · refine ⟨⟨_, hrec.applied⟩, ?_, ?_⟩
    · intro _ _
      rwa [Swept, hrec.purged]
    · intro _ _
      rwa [hrec.purged]
  · exact ⟨⟨[], by rw [hera.applied, append_nil]⟩, hera.swept, hera.planted⟩

theorem Explained.mono {r : Except Error Int} (h : s.Explained j r)
    (hbegan : j.began ≤ s.applied.length) (hext : Extends s s') : s'.Explained j r := by
  obtain ⟨l, hl⟩ := hext.applied
  cases r with
  | ok =>
    obtain ⟨e, he, hkey, hb, hor⟩ := h
    exact ⟨e, hl ▸ mem_append_left l he, hkey, hb, hor.imp_right (hext.swept _)⟩
  | error =>
    intro e he hkey hsw hval p hp
    rw [hl, take_append_of_le_length hbegan] at he
    rcases h e he hkey (fun hs => hsw (hext.swept _ hs)) hval p hp with hi | ⟨hd, hpl⟩ | hc
    · exact .inl hi
    · exact .inr (.inl ⟨hd, hext.planted p hpl⟩)
    · exact .inr (.inr hc)

/-- The verdicts with which a statement ends a call. -/
theorem rejection_cases {pc : Pc} {err : Error} (hj : pc.job = some j)
    (h : s.rejection t pc = some err) :
    (pc = .opened j ∧ (validateMovement j.call.movement = .error err ∨
      j.call.player = none ∨
      ∃ p, j.call.player = some p ∧ s.purged.committed p ≠ none ∧ err = playerDeleted)) ∨
    (∃ p, pc = .moving j p .lost ∧ (s.ledger.committed j.call.key = none ∨
      ∃ row, s.ledger.committed j.call.key = some row ∧ sameMovement row j.call = false ∧
        err = idempotencyConflict)) ∨
    ∃ p id, pc = .moving j p (.claimed id) ∨ pc = .moving j p (.missed id) := by
  cases pc with
  | opened =>
    cases hj
    refine .inl ⟨rfl, ?_⟩
    simp only [rejection] at h
    split at h
    · rename_i e hval
      cases h
      exact .inl hval
    · split at h
      · rename_i hpl
        exact .inr (.inl hpl)
      · rename_i p hpl
        split at h
        · cases h
        · rename_i hne
          cases h
          exact .inr (.inr ⟨p, hpl, hne, rfl⟩)
  | moving _ p st =>
    cases hj
    cases st with
    | checked | moved | stamped | emitted => cases h
    | lost =>
      refine .inr (.inl ⟨p, rfl, ?_⟩)
      simp only [rejection] at h
      split at h
      · rename_i hnone
        exact .inl hnone
      · rename_i row hrow
        split at h
        · cases h
        · rename_i hsame
          cases h
          exact .inr ⟨row, hrow, by simpa using hsame, rfl⟩
    | claimed id => exact .inr (.inr ⟨p, id, .inl rfl⟩)
    | missed id => exact .inr (.inr ⟨p, id, .inr rfl⟩)
  | _ => cases hj

/-- The duplicate branch answers with the recorded balance. -/
theorem Book.explained_replay {row : LedgerRow} {p : Uuid} (h : s.Book)
    (hrow : s.ledger.committed j.call.key = some row) (hp : j.call.player = some p)
    (hsame : sameMovement row j.call = true) : s.Explained j (.ok row.balanceAfter) := by
  obtain ⟨e, he, hkey⟩ := h.row _ _ hrow
  refine ⟨e, he, hkey, ?_⟩
  rcases h.entry e he with hent | ⟨hsw, hent⟩ <;>
    rw [hkey, hrow, some.injEq] at hent <;> subst hent
  · exact ⟨rfl, .inl ((sameMovement_iff hp).1 hsame)⟩
  · exact ⟨rfl, .inr hsw⟩

/-- A verdict against a call is explained. -/
theorem Book.explained_reject {err : Error} (h : s.Book) (hok : s.PcOk t (s.pc t))
    (hj : (s.pc t).job = some j) (hrej : s.rejection t (s.pc t) = some err) :
    s.Explained j (.error err) := by
  intro e he hkey hsw hval _ hp
  have he := mem_of_mem_take he
  rcases rejection_cases hj hrej with ⟨-, hv | hnone | ⟨q, hq, hpl, rfl⟩⟩ |
      ⟨q, hpc, hnone | ⟨row, hrow, hsame, rfl⟩⟩ | ⟨q, id, hpc⟩
  · rw [hval] at hv
    cases hv
  · rw [hp] at hnone
    cases hnone
  · rw [hp, some.injEq] at hq
    exact .inr (.inl ⟨rfl, hq ▸ hpl⟩)
  · exact absurd hnone (hkey ▸ h.committed_ne_none he)
  · refine .inr (.inr ⟨rfl, ?_⟩)
    rcases h.entry e he with hent | ⟨hsw', -⟩
    · rw [hkey, hrow, some.injEq] at hent
      rw [← hent, ← sameMovement_iff hp, hsame]
      exact Bool.false_ne_true
    · exact absurd hsw' hsw
  · -- a session that holds the key found it unused
    have hclaim : s.ledger.committed j.call.key = none := by
      rcases hpc with hpc | hpc <;> rw [hpc] at hok
      · obtain ⟨-, -, -, ⟨_, hclaim⟩, -⟩ := hok
        exact hclaim.unused
      · obtain ⟨-, -, -, ⟨_, hclaim⟩, -⟩ := hok
        exact hclaim.unused
    exact absurd hclaim (hkey ▸ h.committed_ne_none he)

/-- A call is decided by the duplicate branch or by a verdict. -/
theorem closing_cases {a : Act} {r : Except Error Int} (en : s.enabled a)
    (h : (s.effect a).pc t = .closing j r) :
    s.pc t = .closing j r ∨
    (∃ p row, s.pc t = .moving j p .lost ∧ s.ledger.committed j.call.key = some row ∧
      sameMovement row j.call = true ∧ r = .ok row.balanceAfter) ∨
    ∃ err, (s.pc t).job = some j ∧ s.rejection t (s.pc t) = some err ∧ r = .error err := by
  by_cases ha : a.actor = some t
  · cases a with
    | replay _ j' p row =>
      cases ha
      have hpc : update s.pc t (.closing j' (.ok row.balanceAfter)) t = .closing j r := h
      rw [update_self] at hpc
      cases hpc
      exact .inr (.inl ⟨p, row, en.1, en.2.1, en.2.2, rfl⟩)
    | reject _ j' err =>
      cases ha
      have hpc : update s.pc t (.closing j' (.error err)) t = .closing j r := h
      rw [update_self] at hpc
      cases hpc
      exact .inr (.inr ⟨err, en.1, en.2, rfl⟩)
    | addCurrency | refuse => cases ha
    | _ =>
      cases ha
      simp [effect, goto, rollbackTx, commitTx, commitMovement, reply] at h
  · rw [pc_other ha] at h
    exact .inl h

end Explained

section Answered

/-- Every decided call is explained. -/
structure Answered (s : State) : Prop where
  pending : ∀ t j, (s.pc t).call = some j → j.began ≤ s.applied.length
  closing : ∀ t j r, s.pc t = .closing j r → s.Explained j r
  began : ∀ ans ∈ s.answers, ans.began ≤ s.applied.length
  answers : ∀ ans ∈ s.answers, s.Explained ans.job ans.result
  committing : ∀ ans ∈ s.answers, ans.committing = true →
    (∃ b, ans.result = .ok b) ∨ ∃ message, ans.result = .error (.internal message)

variable {s s' : State}

theorem explained_internal (s : State) (j : Job) (message : String) :
    s.Explained j (.error (.internal message)) :=
  fun _ _ _ _ _ _ _ => .inl rfl

theorem Extends.length_le (h : Extends s s') : s.applied.length ≤ s'.applied.length := by
  obtain ⟨_, hl⟩ := h.applied
  rw [hl, length_append]
  omega

/-- The calls after a step began no later than now. -/
theorem Answered.pending_step (h : s.Answered) (hext : Extends s s') (hs : CallStep s s')
    {t : Sess} {j : Job} (hj : (s'.pc t).call = some j) : j.began ≤ s'.applied.length := by
  have hlen := hext.length_le
  cases hs with
  | still calls =>
    have := h.pending t j (calls t ▸ hj)
    omega
  | opens u _ _ opened others =>
    by_cases hu : t = u
    · subst hu
      rw [opened] at hj
      cases hj
      exact hlen
    · rw [others t hu] at hj
      have := h.pending t j hj
      omega
  | refuses _ _ _ pcs =>
    rw [pcs] at hj
    have := h.pending t j hj
    omega
  | ends u j' result open_ why idle others
  | commits _ _ _ _ _ _ _ _ _ idle others =>
    have := h.pending t j (call_of_ended idle others hj).2
    omega

/-- The answer a step adds, if any, is explained. -/
theorem Sound.answer_step (h : s.Sound) (hans : s.Answered) (hext : Extends s s')
    (hs : CallStep s s') :
    s'.answers = s.answers ∨ ∃ ans, s'.answers = s.answers ++ [ans] ∧
      ans.began ≤ s'.applied.length ∧ s'.Explained ans.job ans.result ∧
      (ans.committing = true →
        (∃ b, ans.result = .ok b) ∨ ∃ message, ans.result = .error (.internal message)) := by
  have hlen := hext.length_le
  cases hs with
  | still calls answers | opens u call idle opened others answers => exact .inl answers
  | refuses call _ invalid _ answers =>
    refine .inr ⟨_, answers, hlen, ?_, fun hc => by cases hc⟩
    intro _ _ _ _ hval
    have hval : validateMovement call.movement = .ok () := hval
    rw [invalid] at hval
    cases hval
  | ends t j result open_ why _ _ answers =>
    have hbegan := hans.pending t j open_
    refine .inr ⟨_, answers, Nat.le_trans hbegan hlen, ?_, fun hc => by cases hc⟩
    rcases why with hpc | ⟨message, rfl⟩
    · exact (hans.closing t j result hpc).mono hbegan hext
    · exact explained_internal s' j message
  | commits t j p id seq b _ open_ result_eq _ _ answers records =>
    have hcall : (s.pc t).call = some j := by
      rw [open_]
      rfl
    refine .inr ⟨_, answers, Nat.le_trans (hans.pending t j hcall) hlen, ?_, ?_⟩
    · rcases result_eq with rfl | ⟨message, rfl⟩
      · have hok := h.sess t
        rw [open_] at hok
        refine ⟨⟨j.attempt, j.call.key, j.row p id seq b⟩, ?_, rfl, rfl, .inl ?_⟩
        · rw [records.applied]
          exact mem_append_right _ mem_cons_self
        · exact ⟨hok.2.2.1, rfl, rfl, rfl⟩
      · exact explained_internal s' j message
    · intro _
      exact result_eq.imp_left (fun hr => ⟨b, hr⟩)

theorem Answered.step {a : Act} (h : s.Answered) (hsound : s.Sound) (hbook : s.Book)
    (en : s.enabled a) : (s.effect a).Answered := by
  have hext := hsound.extends en
  have hcall := hsound.call_cases en
  have hold : ∀ ans ∈ s.answers, ans.began ≤ (s.effect a).applied.length ∧
      (s.effect a).Explained ans.job ans.result := by
    intro ans hans
    exact ⟨Nat.le_trans (h.began ans hans) hext.length_le,
      (h.answers ans hans).mono (h.began ans hans) hext⟩
  have hnew := hsound.answer_step h hext hcall
  have hall : ∀ ans ∈ (s.effect a).answers, ans.began ≤ (s.effect a).applied.length ∧
      (s.effect a).Explained ans.job ans.result ∧ (ans.committing = true →
        (∃ b, ans.result = .ok b) ∨ ∃ message, ans.result = .error (.internal message)) := by
    intro ans hans
    rcases hnew with hsame | ⟨_, happ, hbegan, hexp, hcom⟩
    · rw [hsame] at hans
      exact ⟨(hold ans hans).1, (hold ans hans).2, h.committing ans hans⟩
    · rw [happ, mem_append, mem_singleton] at hans
      rcases hans with hans | rfl
      · exact ⟨(hold ans hans).1, (hold ans hans).2, h.committing ans hans⟩
      · exact ⟨hbegan, hexp, hcom⟩
  constructor
  · exact fun t j hj => h.pending_step hext hcall hj
  · intro t j r hpc
    rcases closing_cases en hpc with hclosing | ⟨_, _, hlost, hrow, hsame, rfl⟩ |
        ⟨err, hjob, hrej, rfl⟩
    · exact (h.closing t j r hclosing).mono (h.pending t j (by rw [hclosing]; rfl)) hext
    · have hok := hsound.sess t
      rw [hlost] at hok
      exact (hbook.explained_replay hrow hok.2.2.1 hsame).mono
        (h.pending t j (by rw [hlost]; rfl)) hext
    · exact (hbook.explained_reject (hsound.sess t) hjob hrej).mono
        (h.pending t j (Pc.call_of_job hjob)) hext
  · exact fun ans hans => (hall ans hans).1
  · exact fun ans hans => (hall ans hans).2.1
  · exact fun ans hans => (hall ans hans).2.2

theorem answered_reachable {G : State → Act → Prop} (h : system.Reachable G s) : s.Answered := by
  refine h.invariant ?_ ?_
  · constructor
    · intro _ _ hj
      cases hj
    · intro _ _ _ hpc
      cases hpc
    · intro _ hans
      cases hans
    · intro _ hans
      cases hans
    · intro _ hans
      cases hans
  · intro _ _ hr hans _ en
    exact hans.step (sound_reachable hr) (book_reachable hr) en

end Answered

section Idempotent

/-- Nothing committed changes. -/
structure Same (s s' : State) : Prop where
  balances : ∀ k, s'.balances.committed k = s.balances.committed k
  ledger : ∀ k, s'.ledger.committed k = s.ledger.committed k
  changed : s'.changed = s.changed

/-- Movements take effect once per idempotency key.

* `once`, `ledger`, `events`: one recorded movement, one ledger row and one event
  per key;
* `steps`, `others`: a step of a call changes nothing, or it records the call's
  movement under a key that was free; other steps record nothing;
* `replays`: an `Ok` comes from a call that describes the recorded movement, and
  is its balance;
* `retries`: a valid call that began after the movement was recorded and names a
  uuid is answered with that balance if it describes the movement and with the
  conflict if it does not, unless its player was deleted or the infrastructure
  failed;
* `failures`: a failed call recorded nothing, unless the outcome of its `COMMIT`
  was lost. -/
structure Idempotent (s : State) : Prop where
  once : (s.applied.map Applied.key).Nodup
  ledger : ∀ k, s.ledger.committed k ≠ none ↔ ∃ e ∈ s.applied, e.key = k
  events : s.changed = s.applied.map Applied.changed
  steps : ∀ a t j, s.enabled a → a.actor = some t → (s.pc t).call = some j →
    Same s (s.effect a) ∨
    ∃ e : Applied, e.attempt = j.attempt ∧ e.key = j.call.key ∧
      e.key ∉ s.applied.map Applied.key ∧ Records s (s.effect a) e
  others : ∀ a, s.enabled a → (∀ t, a.actor = some t → (s.pc t).call = none) → Erases s (s.effect a)
  replays : ∀ ans ∈ s.answers, ∀ b, ans.result = .ok b →
    ∀ e ∈ s.applied, e.key = ans.call.key → ¬ s.Swept e.row.player →
      Describes ans.call e.row ∧ b = e.row.balanceAfter
  retries : ∀ ans ∈ s.answers, ∀ e ∈ s.applied.take ans.began, e.key = ans.call.key →
    ¬ s.Swept e.row.player → validateMovement ans.call.movement = .ok () →
    ∀ p, ans.call.player = some p →
      (if Describes ans.call e.row then ans.result = .ok e.row.balanceAfter
       else ans.result = .error idempotencyConflict) ∨
      (ans.result = .error playerDeleted ∧ s.purged.committed p ≠ none) ∨
      ∃ err, ans.result = .error err ∧ err.status = .internal
  failures : ∀ ans ∈ s.answers, ∀ err, ans.result = .error err →
    ans.committing = false ∨ err.status ≠ .internal →
    ∀ e ∈ s.applied, e.attempt ≠ ans.attempt

variable {s : State}

/-- Two recorded movements under one key are one. -/
theorem Book.eq_of_key (h : s.Book) {e e' : Applied} (he : e ∈ s.applied) (he' : e' ∈ s.applied)
    (hkey : e.key = e'.key) : e = e' :=
  inj_on_of_nodup_map h.keys he he' hkey

/-- The steps of a call change nothing that is committed, except its commit. -/
theorem Sound.call_same {a : Act} {t : Sess} {j : Job} (h : s.Sound) (en : s.enabled a)
    (ha : a.actor = some t) (hj : (s.pc t).call = some j) :
    Same s (s.effect a) ∨
    ∃ e : Applied, e.attempt = j.attempt ∧ e.key = j.call.key ∧ Records s (s.effect a) e := by
  cases a with
  | addCurrency | refuse => cases ha
  | commit _ _ p id b =>
    cases ha
    rw [en] at hj
    cases hj
    obtain ⟨seq, hrec⟩ : ∃ seq, Records s (s.effect (.commit t j p id b)) _ :=
      h.records en rfl rfl rfl rfl rfl
    exact .inr ⟨_, rfl, rfl, hrec⟩
  | commitLost _ _ p id b m =>
    cases ha
    rw [en] at hj
    cases hj
    obtain ⟨seq, hrec⟩ : ∃ seq, Records s (s.effect (.commitLost t j p id b m)) _ :=
      h.records en rfl rfl rfl rfl rfl
    exact .inr ⟨_, rfl, rfl, hrec⟩
  | commitPlant =>
    cases ha
    rw [en] at hj
    cases hj
  | commitSweep =>
    cases ha
    rw [en] at hj
    cases hj
  | deleteRow | reownRow =>
    cases ha
    rw [en.1] at hj
    cases hj
  | _ => refine .inl ⟨?_, ?_, rfl⟩ <;> intro k <;> simp [effect, goto, rollbackTx, reply]

theorem Answered.retries (h : s.Answered) (hbook : s.Book) {ans : Answer} {e : Applied} {p : Uuid}
    (hans : ans ∈ s.answers) (he : e ∈ s.applied.take ans.began) (hkey : e.key = ans.call.key)
    (hsw : ¬ s.Swept e.row.player) (hval : validateMovement ans.call.movement = .ok ())
    (hp : ans.call.player = some p) :
    (if Describes ans.call e.row then ans.result = .ok e.row.balanceAfter
     else ans.result = .error idempotencyConflict) ∨
    (ans.result = .error playerDeleted ∧ s.purged.committed p ≠ none) ∨
    ∃ err, ans.result = .error err ∧ err.status = .internal := by
  have hexp := h.answers ans hans
  cases hr : ans.result with
  | ok =>
    rw [hr] at hexp
    obtain ⟨e', he', hkey', hb, hor⟩ := hexp
    have heq := hbook.eq_of_key he' (mem_of_mem_take he) (hkey'.trans hkey.symm)
    subst heq
    have hdes : Describes ans.call e'.row := hor.resolve_right hsw
    exact .inl (by rw [if_pos hdes, hb])
  | error err =>
    rw [hr] at hexp
    rcases hexp e he hkey hsw hval p hp with hi | ⟨rfl, hpl⟩ | ⟨rfl, hdes⟩
    · exact .inr (.inr ⟨err, rfl, hi⟩)
    · exact .inr (.inl ⟨rfl, hpl⟩)
    · have hdes : ¬ Describes ans.call e.row := hdes
      exact .inl (by rw [if_neg hdes])

/-- In every interleaving of calls, plantings and sweeps, movements are
idempotent per key. -/
theorem movement_idempotent (h : system.Reachable TransitionSystem.anyStep s) : s.Idempotent := by
  have hsound := sound_reachable h
  have hbook := book_reachable h
  have hans := answered_reachable h
  constructor
  · exact hbook.keys
  · intro k
    constructor
    · intro hk
      obtain ⟨row, hrow⟩ := ne_none_iff_exists'.1 hk
      exact hbook.row k row hrow
    · rintro ⟨_, he, rfl⟩
      exact hbook.committed_ne_none he
  · exact hbook.changed
  · intro _ _ _ en ha hj
    refine (hsound.call_same en ha hj).imp_right ?_
    rintro ⟨e, hatt, hkey, hrec⟩
    refine ⟨e, hatt, hkey, ?_, hrec⟩
    intro hmem
    obtain ⟨_, he', hkey'⟩ := mem_map.1 hmem
    exact hbook.committed_ne_none he' (hkey' ▸ hrec.unused)
  · intro _ en hnone
    rcases hsound.commit_cases en with ⟨t, _, _, _, _, _, ha, hpc, -⟩ | hera
    · have hcall := hnone t ha
      rw [hpc] at hcall
      cases hcall
    · exact hera
  · intro ans hmem _ hb _ he hkey hsw
    have hexp := hans.answers ans hmem
    rw [hb] at hexp
    obtain ⟨_, he', hkey', hbal, hor⟩ := hexp
    have heq := hbook.eq_of_key he' he (hkey'.trans hkey.symm)
    subst heq
    exact ⟨hor.resolve_right hsw, hbal.symm⟩
  · intro _ hmem _ he hkey hsw hval _ hp
    exact hans.retries hbook hmem he hkey hsw hval hp
  · intro ans hmem _ herr hor e he
    have hcom : ans.committing = false := by
      rcases hor with hcom | hstatus
      · exact hcom
      · by_contra hcom
        rcases hans.committing ans hmem (by simpa using hcom) with ⟨_, hb⟩ | ⟨_, hm⟩
        · rw [herr] at hb
          cases hb
        · rw [herr] at hm
          cases hm
          exact hstatus rfl
    exact (attempts_reachable h).unmoved ans hmem hcom e he

/-- A credit is retried after another one, then its key is reused. -/
def retryRun : List Act :=
  let j₁ : Job := ⟨0, 0, creditOf "a" 100⟩
  let j₂ : Job := ⟨1, 1, creditOf "b" 50⟩
  let j₃ : Job := ⟨2, 2, creditOf "a" 100⟩
  let j₄ : Job := ⟨3, 2, debitOf "a" 100⟩
  [.addCurrency "gold", .open 1 j₁.call, .check 1 j₁ player, .claim 1 j₁ player,
   .updateMiss 1 j₁ player 1, .insert 1 j₁ player 1,
   .stamp 1 j₁ player 1 100 (j₁.row player 1 1 0), .emit 1 j₁ player 1 100,
   .commit 1 j₁ player 1 100, .open 1 j₂.call, .check 1 j₂ player, .claim 1 j₂ player,
   .update 1 j₂ player 2 100, .stamp 1 j₂ player 2 150 (j₂.row player 2 3 0),
   .emit 1 j₂ player 2 150, .commit 1 j₂ player 2 150, .open 1 j₃.call, .open 2 j₄.call,
   .check 1 j₃ player, .check 2 j₄ player, .claimLost 2 j₄ player, .claimLost 1 j₃ player,
   .replay 1 j₃ player (j₁.row player 1 2 100), .reject 2 j₄ idempotencyConflict,
   .finish 1 j₃ (.ok 100), .finish 2 j₄ (.error idempotencyConflict)]

theorem retryRun_runs : (system.exec anyStep system.start retryRun).isSome := by decide +kernel

/-- The state after `retryRun`. -/
def retryState : State := TransitionSystem.final TransitionSystem.anyStep retryRun retryRun_runs

theorem movement_idempotent_retry :
    retryState.Idempotent ∧
    retryState.answers.map Answer.result =
      [.ok 100, .ok 150, .ok 100, .error idempotencyConflict] :=
  ⟨movement_idempotent (reachable_final _ _ retryRun_runs), by decide +kernel⟩

end Idempotent

section Differing

/-- Four calls reuse the key of a recorded credit and describe something else:
one names an unknown currency and is over before the credit is recorded, one has
no amount, one names no player, one is cut off. -/
def reuseRun : List Act :=
  let j₀ : Job := ⟨0, 0, ⟨.credit, ⟨"a", playerText, "gems", 100, "quest"⟩⟩⟩
  let j₁ : Job := ⟨1, 0, creditOf "a" 100⟩
  let j₃ : Job := ⟨3, 1, ⟨.credit, ⟨"a", "nobody", "gold", 100, "quest"⟩⟩⟩
  let j₄ : Job := ⟨4, 1, debitOf "a" 100⟩
  [.addCurrency "gold", .open 2 j₀.call, .check 2 j₀ player, .claim 2 j₀ player,
   .updateMiss 2 j₀ player 1, .reject 2 j₀ unknownCurrency, .finish 2 j₀ (.error unknownCurrency),
   .open 1 j₁.call, .check 1 j₁ player, .claim 1 j₁ player, .updateMiss 1 j₁ player 2,
   .insert 1 j₁ player 2, .stamp 1 j₁ player 2 100 (j₁.row player 2 2 0),
   .emit 1 j₁ player 2 100, .commit 1 j₁ player 2 100,
   .refuse (creditOf "a" 0) (.invalid "amount must be within 1..=1000000000000"),
   .open 1 j₃.call, .reject 1 j₃ malformedPlayerId, .finish 1 j₃ (.error malformedPlayerId),
   .open 1 j₄.call, .check 1 j₄ player, .fail 1 j₄ "connection closed"]

theorem reuseRun_runs : (system.exec anyStep system.start reuseRun).isSome := by decide +kernel

/-- The state after `reuseRun`. -/
def reuseState : State := TransitionSystem.final TransitionSystem.anyStep reuseRun reuseRun_runs

/-- Calls with the key of a recorded movement that differ from it, and none of
which is answered with a conflict. -/
theorem differing_call_without_conflict :
    system.Reachable TransitionSystem.anyStep reuseState ∧
    reuseState.purged.rows = [] ∧
    ∃ e ∈ reuseState.applied, e.key = "a" ∧
      (reuseState.answers.filter
        (fun ans => ans.call.key = "a" ∧ ¬ Describes ans.call e.row)).map Answer.result =
        [.error unknownCurrency, .error (.invalid "amount must be within 1..=1000000000000"),
         .error malformedPlayerId, .error (.internal "connection closed")] := by
  let e : Applied := ⟨1, "a", 3, 2, player, "gold", 100, 100, "quest"⟩
  have hfacts : reuseState.purged.rows = [] ∧ e ∈ reuseState.applied ∧
      (reuseState.answers.filter
        (fun ans => ans.call.key = "a" ∧ ¬ Describes ans.call e.row)).map Answer.result =
        [.error unknownCurrency, .error (.invalid "amount must be within 1..=1000000000000"),
         .error malformedPlayerId, .error (.internal "connection closed")] := by
    decide +kernel
  exact ⟨reachable_final _ _ reuseRun_runs, hfacts.1, e, hfacts.2.1, rfl, hfacts.2.2⟩

end Differing

end State
end Swarog.Wallet
