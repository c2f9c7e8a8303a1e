import Swarog.Accounts.Families

/-!
# Revoked families

A revocation deletes the refresh tokens of the family and then its sessions, each
with a `DELETE` of its own snapshot.  Nothing keeps a concurrent rotation or
grace replay of another token of the family from inserting a row that the
snapshot does not contain.  Then a token of the revoked family survives and is
accepted later (`revoked_family_survives`).

`Fenced` is the discipline under which this cannot happen: no rotation of the
family is in progress when the first `DELETE` starts and none starts while it
runs; no grace replay of the family is in progress when the second `DELETE`
starts, and none is granted from then on until the revocation has ended.  Logins,
prunes, deletions, and other revocations of the same family may interleave in any
way.  Under it a revocation is final (`revocation_final`).
-/

namespace Swarog.Accounts

open Pg Table TransitionSystem List

namespace Pc

/-- The family in which a refresh rotates a token. -/
def rotation : Pc → Option Uuid
  | .refresh _ (.rotated row) => some row.family
  | .refresh _ (.continuing row _ rotated) | .refresh _ (.answered row _ rotated _) =>
    if rotated then some row.family else none
  | _ => none

/-- The family in which a refresh replays a rotation. -/
def replay : Pc → Option Uuid
  | .refresh _ (.continuing row _ rotated) | .refresh _ (.answered row _ rotated _) =>
    if rotated then none else some row.family
  | _ => none

/-- The family whose refresh tokens are being deleted. -/
def tokenKill : Pc → Option Uuid
  | .refresh _ (.killing family _) => some family
  | _ => none

/-- The family whose refresh tokens are deleted and whose sessions are being
deleted. -/
def sessionKill : Pc → Option Uuid
  | .refresh _ (.killingSessions family _) => some family
  | _ => none

theorem revokes_of_tokenKill {pc : Pc} {f : Uuid} (h : pc.tokenKill = some f) :
    pc.revokes = some f := by
  cases pc with
  | refresh _ st => cases st <;> first | exact h | cases h
  | _ => cases h

theorem revokes_of_sessionKill {pc : Pc} {f : Uuid} (h : pc.sessionKill = some f) :
    pc.revokes = some f := by
  cases pc with
  | refresh _ st => cases st <;> first | exact h | cases h
  | _ => cases h

end Pc

namespace State

/-- No rotation overlaps the `DELETE` of the refresh tokens of its family, and no
grace replay overlaps the rest of the revocation from the `DELETE` of the
sessions on. -/
def Fenced (s : State) : Act → Prop
  | .rotate _ _ row => ∀ u ∈ s.started, (s.pc u).tokenKill ≠ some row.family
  | .killTokens _ _ family => ∀ u ∈ s.started, (s.pc u).rotation ≠ some family
  | .graceReplay _ _ row _ => ∀ u ∈ s.started, (s.pc u).sessionKill ≠ some row.family
  | .killSessions _ _ family => ∀ u ∈ s.started, (s.pc u).replay ≠ some family
  | _ => True

instance (s : State) (a : Act) : Decidable (s.Fenced a) := by
  induction a using Act.casesOn <;> dsimp only [Fenced] <;> infer_instance

/-- A revocation of the family has begun to delete its refresh tokens. -/
def Closing (s : State) (f : Uuid) : Prop :=
  (∃ t, (s.pc t).tokenKill = some f) ∨ (∃ t, (s.pc t).sessionKill = some f) ∨ f ∈ s.revoked

/-- A revocation of the family has deleted its refresh tokens. -/
def Closed (s : State) (f : Uuid) : Prop := (∃ t, (s.pc t).sessionKill = some f) ∨ f ∈ s.revoked

/-- How far a revocation has come. -/
def Killed (s : State) (t : Sess) : Pc → Prop
  | .refresh _ (.killing f todo) => s.refreshTokens.DeletedBut t (fun _ row => row.family == f) todo
  | .refresh _ (.killingSessions f todo) =>
    s.refreshTokens.DeletedBut t (fun _ row => row.family == f) [] ∧
      s.sessions.DeletedBut t (fun _ row => row.family == f) todo
  | _ => True

/-- Nothing of the family is left. -/
structure Gone (s : State) (f : Uuid) : Prop where
  tokens : ∀ k row, s.refreshTokens.committed k = some row → row.family ≠ f
  sessions : ∀ k row, s.sessions.committed k = some row → row.family ≠ f

/-- What holds in fenced runs. -/
structure Revoking (s : State) : Prop where
  noRotation : ∀ f, s.Closing f → ∀ u, (s.pc u).rotation ≠ some f
  noReplay : ∀ f, s.Closed f → ∀ u, (s.pc u).replay ≠ some f
  killed : ∀ t, s.Killed t (s.pc t)
  gone : ∀ f ∈ s.revoked, s.Gone f

variable {s : State} {a : Act} {t u : Sess} {f : Uuid}

section Control

theorem rotation_after (h : (s.after a).rotation = some f) :
    a.before.rotation = some f ∨ ∃ t r row, a = .rotate t r row ∧ row.family = f := by
  cases a with
  | rotate t r row =>
    cases h
    exact .inr ⟨t, r, row, rfl, rfl⟩
  | insertSuccessor | insertAccess => exact .inl h
  | _ => cases h

theorem replay_after (h : (s.after a).replay = some f) :
    a.before.replay = some f ∨
      ∃ t r row successor, a = .graceReplay t r row successor ∧ row.family = f := by
  cases a with
  | graceReplay t r row successor =>
    cases h
    exact .inr ⟨t, r, row, successor, rfl, rfl⟩
  | insertAccess => exact .inl h
  | _ => cases h

theorem tokenKill_after (h : (s.after a).tokenKill = some f) :
    a.before.tokenKill = some f ∨ ∃ t r, a = .killTokens t r f := by
  cases a with
  | killTokens t r =>
    cases h
    exact .inr ⟨t, r, rfl⟩
  | killToken => exact .inl h
  | _ => cases h

theorem sessionKill_after (h : (s.after a).sessionKill = some f) :
    a.before.sessionKill = some f ∨ ∃ t r, a = .killSessions t r f := by
  cases a with
  | killSessions t r =>
    cases h
    exact .inr ⟨t, r, rfl⟩
  | killSession => exact .inl h
  | _ => cases h

/-- A session that does something has begun. -/
def Begun (s : State) : Prop := ∀ t, s.pc t ≠ .idle → t ∈ s.started

theorem started_step (h : t ∈ s.started) : t ∈ (s.effect a).started := by
  cases a with
  | loginOpen u | registerOpen u | passwordLogin u | linkOpen u | refreshOpen u | deleteOpen u
  | pruneOpen u => exact mem_cons_of_mem u h
  | _ => exact h

theorem Begun.step (h : s.Begun) (en : s.enabled a) : (s.effect a).Begun := by
  intro t hpc
  by_cases hold : s.pc t = .idle
  · -- the step has begun the transaction of `t`
    have ha : a.actor = some t := by
      by_contra ha
      rw [pc_other ha] at hpc
      exact hpc hold
    rw [pc_own ha] at hpc
    have hat := en.1 t ha
    rw [hold] at hat
    cases a with
    | loginOpen | registerOpen | passwordLogin | linkOpen | refreshOpen | deleteOpen
    | pruneOpen => cases ha; exact mem_cons_self
    | refuse | fail => exact absurd rfl hpc
    | _ => first | (cases ha; done) | cases hat
  · exact started_step (h t hold)

theorem begun_reachable {G : State → Act → Prop} (h : system.Reachable G s) : s.Begun :=
  h.invariant (fun _ hne => absurd rfl hne) (fun _ _ _ ih _ en => ih.step en)

theorem Begun.of_read {β : Type} {X : Pc → Option β} {b : β} (h : s.Begun) (hidle : X .idle = none)
    (hx : X (s.pc t) = some b) : t ∈ s.started := by
  refine h t (fun hpc => ?_)
  rw [hpc, hidle] at hx
  cases hx

end Control

section Closing

/-- A family begins to close at the start of the first `DELETE`. -/
theorem closing_step (en : s.enabled a) (h : (s.effect a).Closing f) :
    s.Closing f ∨ ∃ t r, a = .killTokens t r f := by
  rcases h with ⟨t, ht⟩ | ⟨t, ht⟩ | hrev
  · rcases pc_read Pc.tokenKill en tokenKill_after ht with hold | ⟨-, hnew⟩
    · exact .inl (.inl ⟨t, hold⟩)
    · exact .inr hnew
  · rcases pc_read Pc.sessionKill en sessionKill_after ht with hold | ⟨-, u, _, rfl⟩
    · exact .inl (.inr (.inl ⟨t, hold⟩))
    · refine .inl (.inl ⟨u, ?_⟩)
      rw [en.1 u rfl]
      rfl
  · cases a with
    | commitRevoke t =>
      rcases mem_append.1 hrev with hold | hnew
      · exact .inl (.inr (.inr hold))
      · cases mem_singleton.1 hnew
        refine .inl (.inr (.inl ⟨t, ?_⟩))
        rw [en.1 t rfl]
        rfl
    | _ => exact .inl (.inr (.inr hrev))

/-- A family is closed at the start of the second `DELETE`. -/
theorem closed_step (en : s.enabled a) (h : (s.effect a).Closed f) :
    s.Closed f ∨ ∃ t r, a = .killSessions t r f := by
  rcases h with ⟨t, ht⟩ | hrev
  · rcases pc_read Pc.sessionKill en sessionKill_after ht with hold | ⟨-, hnew⟩
    · exact .inl (.inl ⟨t, hold⟩)
    · exact .inr hnew
  · cases a with
    | commitRevoke t =>
      rcases mem_append.1 hrev with hold | hnew
      · exact .inl (.inr hold)
      · cases mem_singleton.1 hnew
        refine .inl (.inl ⟨t, ?_⟩)
        rw [en.1 t rfl]
        rfl
    | _ => exact .inl (.inr hrev)

theorem Closed.closing (h : s.Closed f) : s.Closing f := .inr h

theorem Lineage.born_of_closing (h : s.Lineage) (hc : s.Closing f) : s.Born f := by
  rcases hc with ⟨t, ht⟩ | ⟨t, ht⟩ | hrev
  · exact h.revokes t f (Pc.revokes_of_tokenKill ht)
  · exact h.revokes t f (Pc.revokes_of_sessionKill ht)
  · exact h.revoked f hrev

end Closing

section Appearance

/-- While a family is closing, no refresh token of it appears. -/
theorem Revoking.token_old (h : s.Revoking) (hh : s.Holds) (hl : s.Lineage) (en : s.enabled a)
    (hc : s.Closing f) {k : String} {row : TokenRow}
    (hrow : (s.effect a).refreshTokens.committed k = some row) (hf : row.family = f) :
    ∃ row', s.refreshTokens.committed k = some row' ∧ row'.family = f := by
  have hch := hh.token_change en k
  rw [hrow] at hch
  generalize ho : some row = o at hch
  cases hch with
  | same => exact ⟨row, ho.symm, hf⟩
  | born t =>
    cases ho
    have hnew : (s.pc t).newFamily = some f := by
      rw [en.1 t rfl, ← hf]
      rfl
    exact absurd (hl.born_of_closing hc) (hl.fresh t f hnew).2
  | consumed _ _ row' _ _ _ hrow' =>
    cases ho
    exact ⟨row', hrow', hf⟩
  | succeeded t =>
    cases ho
    refine absurd ?_ (h.noRotation f hc t)
    rw [en.1 t rfl, ← hf]
    rfl
  | revoked | erased | pruned => cases ho

/-- While a family is closed, no access token of it appears. -/
theorem Revoking.session_old (h : s.Revoking) (hh : s.Holds) (hl : s.Lineage) (en : s.enabled a)
    (hc : s.Closed f) {k : String} {row : SessionRow}
    (hrow : (s.effect a).sessions.committed k = some row) (hf : row.family = f) :
    s.sessions.committed k = some row := by
  have hch := hh.session_change en k
  rw [hrow] at hch
  generalize ho : some row = o at hch
  cases hch with
  | same => rfl
  | opened t =>
    cases ho
    have hnew : (s.pc t).newFamily = some f := by
      rw [en.1 t rfl, ← hf]
      rfl
    exact absurd (hl.born_of_closing hc.closing) (hl.fresh t f hnew).2
  | renewed t _ _ _ rotated =>
    cases ho
    cases rotated with
    | true =>
      refine absurd ?_ (h.noRotation f hc.closing t)
      rw [en.1 t rfl, ← hf]
      rfl
    | false =>
      refine absurd ?_ (h.noReplay f hc t)
      rw [en.1 t rfl, ← hf]
      rfl
  | revoked | erased | pruned => cases ho

end Appearance

section Steps

section

variable (h : s.Revoking)
include h

theorem Revoking.noRotation_step (hb : s.Begun) (hG : s.Fenced a)
    (en : s.enabled a) (hc : (s.effect a).Closing f) (u : Sess) :
    ((s.effect a).pc u).rotation ≠ some f := by
  intro hrot
  rcases pc_read Pc.rotation en rotation_after hrot with hold | ⟨hu, t, r, row, rfl, hf⟩
  · rcases closing_step en hc with hcl | ⟨t, r, rfl⟩
    · exact h.noRotation f hcl u hold
    · exact hG u (hb.of_read rfl hold) hold
  · cases hu
    subst hf
    obtain ⟨hfree, hrow, -⟩ := en.2
    rcases closing_step en hc with hcl | ⟨t, r, hbad⟩
    · rcases hcl with ⟨v, hv⟩ | ⟨v, hv⟩ | hrev
      · exact hG v (hb.of_read rfl hv) hv
      · -- the revocation has deleted the presented token and holds its lock
        have hk := h.killed v
        cases hpc : s.pc v with
        | refresh _ st =>
          rw [hpc] at hv hk
          cases st with
          | killingSessions =>
            cases hv
            rcases hk.1 _ row hrow (beq_self_eq_true _) with hmem | hp
            · cases hmem
            · cases pending_of_free hfree hp
              rw [en.1 u rfl] at hpc
              cases hpc
          | _ => cases hv
        | _ =>
          rw [hpc] at hv
          cases hv
      · exact (h.gone _ hrev).tokens _ row hrow rfl
    · cases hbad

theorem Revoking.noReplay_step (hb : s.Begun) (hG : s.Fenced a) (en : s.enabled a)
    (hc : (s.effect a).Closed f) (u : Sess) : ((s.effect a).pc u).replay ≠ some f := by
  intro hrep
  rcases pc_read Pc.replay en replay_after hrep with hold | ⟨hu, t, r, row, successor, rfl, hf⟩
  · rcases closed_step en hc with hcl | ⟨t, r, rfl⟩
    · exact h.noReplay f hcl u hold
    · exact hG u (hb.of_read rfl hold) hold
  · cases hu
    subst hf
    rcases closed_step en hc with hcl | ⟨t, r, hbad⟩
    · rcases hcl with ⟨v, hv⟩ | hrev
      · exact hG v (hb.of_read rfl hv) hv
      · exact (h.gone _ hrev).tokens _ row en.2.1 rfl
    · cases hbad

/-- A revocation keeps its progress while others move. -/
theorem Revoking.killed_other (hh : s.Holds) (hl : s.Lineage) (en : s.enabled a)
    (ha : a.actor ≠ some t) (hk : s.Killed t (s.pc t)) : (s.effect a).Killed t (s.pc t) := by
  have htok : ∀ f todo, s.Closing f →
      s.refreshTokens.DeletedBut t (fun _ row => row.family == f) todo →
      (s.effect a).refreshTokens.DeletedBut t (fun _ row => row.family == f) todo := by
    intro _ _ hc hdel
    refine hdel.of_undisturbed ((tokens_does en).undisturbed ha) ?_
    intro _ _ hrow hf
    obtain ⟨row', hrow', hf'⟩ := h.token_old hh hl en hc hrow (beq_iff_eq.1 hf)
    exact ⟨row', hrow', beq_iff_eq.2 hf'⟩
  cases hpc : s.pc t with
  | refresh _ st =>
    rw [hpc] at hk
    cases st with
    | killing f todo => exact htok f todo (.inl ⟨t, by rw [hpc]; rfl⟩) hk
    | killingSessions f =>
      have hc : s.Closed f := .inl ⟨t, by rw [hpc]; rfl⟩
      refine ⟨htok f [] hc.closing hk.1, ?_⟩
      refine hk.2.of_undisturbed ((sessions_does en).undisturbed ha) ?_
      intro _ row hrow hf
      exact ⟨row, h.session_old hh hl en hc hrow (beq_iff_eq.1 hf), hf⟩
    | _ => trivial
  | _ => trivial

/-- The statements of a revocation. -/
theorem Revoking.killed_own (hh : s.Holds) (en : s.enabled a)
    (ha : a.actor = some t) : (s.effect a).Killed t (s.after a) := by
  have hk := h.killed t
  have htok := hh.tokens t
  have hses := hh.sessions t
  rw [en.1 t ha] at hk htok hses
  cases a with
  | killTokens =>
    cases ha
    exact deletedBut_select (htok.only_deletes rfl)
  | killToken _ _ _ _ token =>
    cases ha
    exact DeletedBut.deleteWhere hk (htok.only_deletes rfl) token
  | killSessions =>
    cases ha
    exact ⟨hk, deletedBut_select (hses.only_deletes rfl)⟩
  | killSession _ _ _ _ token =>
    cases ha
    exact ⟨hk.1, DeletedBut.deleteWhere hk.2 (hses.only_deletes rfl) token⟩
  | _ => trivial

theorem Revoking.gone_step (hh : s.Holds) (hl : s.Lineage) (en : s.enabled a)
    (hf : f ∈ (s.effect a).revoked) : (s.effect a).Gone f := by
  by_cases hold : f ∈ s.revoked
  · have hc : s.Closed f := .inr hold
    constructor
    · intro k _ hrow hrf
      obtain ⟨row', hrow', hf'⟩ := h.token_old hh hl en hc.closing hrow hrf
      exact (h.gone f hold).tokens k row' hrow' hf'
    · intro k row hrow hrf
      exact (h.gone f hold).sessions k row (h.session_old hh hl en hc hrow hrf) hrf
  · cases a with
    | commitRevoke t =>
      rcases mem_append.1 hf with hbad | hnew
      · exact absurd hbad hold
      · cases mem_singleton.1 hnew
        have hk := h.killed t
        have htok := hh.tokens t
        have hses := hh.sessions t
        rw [en.1 t rfl] at hk htok hses
        constructor
        · intro _ _ hrow hrf
          rw [show (s.effect _).refreshTokens = s.refreshTokens.commit t from rfl,
            committed_commit] at hrow
          exact hk.1.view (htok.only_deletes rfl) hrow (beq_iff_eq.2 hrf)
        · intro _ _ hrow hrf
          rw [show (s.effect _).sessions = s.sessions.commit t from rfl, committed_commit] at hrow
          exact hk.2.view (hses.only_deletes rfl) hrow (beq_iff_eq.2 hrf)
    | _ => exact absurd hf hold

theorem Revoking.step (hh : s.Holds) (hl : s.Lineage) (hb : s.Begun)
    (hG : s.Fenced a) (en : s.enabled a) : (s.effect a).Revoking where
  noRotation := fun _ hc u => h.noRotation_step hb hG en hc u
  noReplay := fun _ hc u => h.noReplay_step hb hG en hc u
  killed := pc_invariant (fun _ hu hk => h.killed_other hh hl en hu hk)
    (fun _ hu => h.killed_own hh en hu) h.killed
  gone := fun _ hf => h.gone_step hh hl en hf

end

theorem revoking_start : State.start.Revoking where
  noRotation := by
    intro _ _ _ hrot
    cases hrot
  noReplay := by
    intro _ _ _ hrep
    cases hrep
  killed := fun _ => trivial
  gone := by
    intro _ hf
    cases hf

theorem revoking_reachable (h : system.Reachable Fenced s) : s.Revoking :=
  h.invariant revoking_start (fun _ _ hr ih hG en =>
    ih.step (holds_reachable hr) (lineage_reachable hr) (begun_reachable hr) hG en)

end Steps

section Statement

theorem revoked_step (h : f ∈ s.revoked) : f ∈ (s.effect a).revoked := by
  cases a with
  | commitRevoke => exact mem_append_left _ h
  | _ => exact h

/-- In a fenced run, once a revocation has committed, no later state has a refresh
token or an access token of the family, and no refresh of a token of the family
is answered with a session. -/
theorem revocation_final {s' : State} {r : Refresh} (h : system.Reachable Fenced s)
    (en : system.enabled s (.commitRevoke t r f))
    (run : system.Reaches Fenced (system.effect s (.commitRevoke t r f)) s') :
    (∀ k row, s'.refreshTokens.committed k = some row → row.family ≠ f) ∧
      (∀ k row, s'.sessions.committed k = some row → row.family ≠ f) ∧
      ∀ u r' row successor rotated token,
        system.enabled s' (.commitRefresh u r' row successor rotated token) → row.family ≠ f := by
  have hG : s.Fenced (.commitRevoke t r f) := trivial
  have hs' : system.Reachable Fenced s' := (Reaches.tail _ h hG en).trans run
  have hmem : f ∈ s'.revoked := by
    refine run.preserves (fun _ _ hf _ _ => revoked_step hf) ?_
    exact mem_append_right _ mem_cons_self
  have hrev := revoking_reachable hs'
  have hc : s'.Closed f := .inr hmem
  refine ⟨(hrev.gone f hmem).tokens, (hrev.gone f hmem).sessions, ?_⟩
  intro u r' row successor rotated token hen hf
  have hpc : s'.pc u = .refresh r' (.answered row successor rotated token) := hen.1 u rfl
  cases rotated with
  | true => exact hrev.noRotation f hc.closing u (by rw [hpc, ← hf]; rfl)
  | false => exact hrev.noReplay f hc u (by rw [hpc, ← hf]; rfl)

end Statement

section Example

def alice : Uuid where
  digits := "a11ce000000040008000000000000001".toList
  length_eq := by decide
  all_lower := by decide

/-- The family of the player's login. -/
def firstFamily : Uuid where
  digits := "fa000000000040008000000000000001".toList
  length_eq := by decide
  all_lower := by decide

def guestLogin : Login := ⟨.external, 0, guest, "device", "guest:device", "guest:device"⟩

/-- The first login of a device creates the player. -/
def firstLogin (t : Sess) : List Act :=
  let created := some "0007"
  [.loginOpen t guestLogin, .loginLock t guestLogin, .loginAbsent t guestLogin,
   .claimHandle t guestLogin 0 7 alice, .insertPlayer t guestLogin alice "0007",
   .insertIdentity t guestLogin alice "0007", .emitRegistered t guestLogin alice "0007",
   .insertFamily t guestLogin alice created firstFamily "r0",
   .insertSession t guestLogin alice created firstFamily "r0" "a0",
   .commitLogin t guestLogin alice created firstFamily "r0" "a0"]

/-- The unused row of the family. -/
def unusedRow : TokenRow := TokenRow.first alice firstFamily 0

/-- The statements of a rotation after the `UPDATE`. -/
def finishRotation (t : Sess) (r : Refresh) (token : String) : List Act :=
  [.insertSuccessor t r unusedRow, .insertAccess t r unusedRow r.successor true token,
   .commitRefresh t r unusedRow r.successor true token]

/-- The first token is rotated once and presented again after the grace window,
up to the end of the revocation's last `DELETE`. -/
def replayRun : List Act :=
  let r₁ : Refresh := ⟨1, "r0", "r1"⟩
  let r₂ : Refresh := ⟨60, "r0", "r2"⟩
  firstLogin 1 ++ [.tick 1, .refreshOpen 1 r₁, .rotate 1 r₁ unusedRow] ++
  finishRotation 1 r₁ "a1" ++
  [.tick 59, .refreshOpen 2 r₂, .rotateMiss 2 r₂, .revoke 2 r₂ firstFamily,
   .killTokens 2 r₂ firstFamily, .killToken 2 r₂ firstFamily ["r1", "r0"] "r0",
   .killToken 2 r₂ firstFamily ["r1"] "r1", .killSessions 2 r₂ firstFamily,
   .killSession 2 r₂ firstFamily ["a1", "a0"] "a1",
   .killSession 2 r₂ firstFamily ["a0"] "a0"]

theorem replayRun_runs : (system.exec Fenced system.start replayRun).isSome := by decide +kernel

/-- The state before the revocation commits. -/
def replayState : State := TransitionSystem.final Fenced replayRun replayRun_runs

/-- A revocation without overlap: nothing of the family is left. -/
theorem revocation_final_replay :
    replayState.refreshTokens.rows.length = 2 ∧
      ∀ k row, (system.effect replayState
        (.commitRevoke 2 ⟨60, "r0", "r2"⟩ firstFamily)).refreshTokens.committed k = some row →
        row.family ≠ firstFamily :=
  ⟨by decide +kernel,
    (revocation_final (reachable_final _ _ replayRun_runs) (by decide +kernel)
      (.refl _)).1⟩

/-- The rotation of the second token overlaps the `DELETE` of the revocation that
the replay of the first token causes; afterwards the third token is presented. -/
def overlapRun : List Act :=
  let r₁ : Refresh := ⟨1, "r0", "r1"⟩
  let r₂ : Refresh := ⟨60, "r1", "r2"⟩
  let r₃ : Refresh := ⟨60, "r0", "r3"⟩
  let r₄ : Refresh := ⟨60, "r2", "r4"⟩
  firstLogin 1 ++ [.tick 1, .refreshOpen 1 r₁, .rotate 1 r₁ unusedRow] ++
  finishRotation 1 r₁ "a1" ++
  [.tick 59, .refreshOpen 1 r₂, .rotate 1 r₂ unusedRow, .refreshOpen 2 r₃, .rotateMiss 2 r₃,
   .revoke 2 r₃ firstFamily, .killTokens 2 r₃ firstFamily,
   .killToken 2 r₃ firstFamily ["r1", "r0"] "r0"] ++
  finishRotation 1 r₂ "a2" ++
  [.killToken 2 r₃ firstFamily ["r1"] "r1", .killSessions 2 r₃ firstFamily,
   .killSession 2 r₃ firstFamily ["a2", "a1", "a0"] "a2",
   .killSession 2 r₃ firstFamily ["a1", "a0"] "a1",
   .killSession 2 r₃ firstFamily ["a0"] "a0", .commitRevoke 2 r₃ firstFamily,
   .refreshOpen 3 r₄, .rotate 3 r₄ unusedRow] ++
  finishRotation 3 r₄ "a4"

theorem overlapRun_runs : (system.exec anyStep system.start overlapRun).isSome := by decide +kernel

/-- The state after `overlapRun`. -/
def overlapState : State :=
  TransitionSystem.final TransitionSystem.anyStep overlapRun overlapRun_runs

/-- A token of the revoked family survives the revocation, is accepted, and is
succeeded by another one. -/
theorem revoked_family_survives :
    system.Reachable TransitionSystem.anyStep overlapState ∧
      firstFamily ∈ overlapState.revoked ∧
      overlapState.refreshTokens.committed "r4" = some unusedRow ∧
      unusedRow.family = firstFamily ∧
      Answer.refresh "r2" (.ok ⟨alice, "a4", "r4", 3600⟩) ∈ overlapState.answers :=
  ⟨reachable_final _ _ overlapRun_runs, by decide +kernel⟩

end Example

end State
end Swarog.Accounts
