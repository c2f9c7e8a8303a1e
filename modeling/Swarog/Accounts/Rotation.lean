import Swarog.Accounts.Revocation
import Swarog.Pg.Chain

/-!
# Rotation chains

As long as a family is neither revoked, nor expired, nor deleted with its player,
its rows form one chain linked by `replaced_by`: the rotation of a token consumes
the only unused row, which is the end of the chain, and commits its successor with
it.  Two presentations of one token are ordered by the lock of its row.

Every rotation that committed is recorded in the history.  A token is rotated at
most once, and every session handed out for it carries the successor that was
recorded with it (`refresh_chain`).
-/

namespace Swarog.Accounts

open Pg List Option

/-- The event of the deletion of `p`. -/
def Event.deletes (p : Uuid) : Event → Bool
  | .deleted q _ => q == p
  | _ => false

namespace Pc

/-- The refresh token that a call has drawn. -/
def newToken : Pc → Option String
  | .login _ st => st.family.map (fun c => c.2.2)
  | .refresh r _ => some r.successor
  | _ => none

/-- The token and the row that a rotation consumes. -/
def consumes : Pc → Option (String × TokenRow)
  | .refresh r (.rotated row) => some (r.token, row)
  | .refresh r (.continuing row _ rotated) | .refresh r (.answered row _ rotated _) =>
    if rotated then some (r.token, row) else none
  | _ => none

/-- The successor that a rotation has drawn, and the one it hands out. -/
def handsOut : Pc → Option (String × String)
  | .refresh r (.continuing _ successor rotated) | .refresh r (.answered _ successor rotated _) =>
    if rotated then some (r.successor, successor) else none
  | _ => none

/-- The rotation that a grace replay repeats. -/
def repeats : Pc → Option Rotation
  | .refresh r (.continuing row successor rotated)
  | .refresh r (.answered row successor rotated _) =>
    if rotated then none else some ⟨r.token, successor, row.player⟩
  | _ => none

/-- The time of a prune. -/
def pruneTime : Pc → Option Nat
  | .prune now _ => some now
  | _ => none

end Pc

namespace State

variable {s : State} {a : Act} {t : Sess}

/-- The family is not revoked, not expired, and its player is not deleted. -/
def Live (s : State) (F : Family) : Prop :=
  F.id ∉ s.revoked ∧ s.clock < F.expiresAt ∧ s.events.any (Event.deletes F.player) = false

/-- `l` lists the refresh tokens of the family, from the first to the last. -/
structure Spine (s : State) (F : Family) (l : List String) : Prop where
  nodup : l.Nodup
  rows : ∀ k, k ∈ l ↔ ∃ row, s.refreshTokens.committed k = some row ∧ row.family = F.id
  linked : Chained s.refreshTokens.committed TokenRow.replacedBy l

/-- Where refresh tokens come from. -/
structure Drawn (s : State) : Prop where
  rows : ∀ k, s.refreshTokens.committed k ≠ none → k ∈ s.tokens
  rotations : ∀ R ∈ s.rotations, R.token ∈ s.tokens
  fresh : ∀ t k, (s.pc t).newToken = some k →
    k ∈ s.tokens ∧ s.refreshTokens.committed k = none ∧ ∀ R ∈ s.rotations, R.token ≠ k
  apart : ∀ t u k, (s.pc t).newToken = some k → (s.pc u).newToken = some k → t = u

/-- What the rows and the answers say about rotations. -/
structure Recorded (s : State) : Prop where
  paired : ∀ k row, s.refreshTokens.committed k = some row →
    (row.usedAt = none ↔ row.replacedBy = none)
  unused : ∀ t k row, (s.pc t).consumes = some (k, row) → row.replacedBy = none
  handed : ∀ t k successor, (s.pc t).handsOut = some (k, successor) → k = successor
  used : ∀ k row successor, s.refreshTokens.committed k = some row →
    row.replacedBy = some successor → ⟨k, successor, row.player⟩ ∈ s.rotations
  kept : ∀ R ∈ s.rotations, ∀ row, s.refreshTokens.committed R.token = some row →
    row.replacedBy = some R.successor ∧ row.player = R.player
  once : (s.rotations.map Rotation.token).Nodup
  repeated : ∀ t R, (s.pc t).repeats = some R → R ∈ s.rotations
  answered : ∀ token session, Answer.refresh token (.ok session) ∈ s.answers →
    ⟨token, session.refreshToken, session.playerId⟩ ∈ s.rotations

section Tokens

variable {k : String}

theorem mem_tokens_step (h : k ∈ s.tokens) : k ∈ (s.effect a).tokens := by
  cases a with
  | insertFamily _ _ _ _ _ tok => exact mem_cons_of_mem tok h
  | insertSession t l id created family tok token
  | insertAccess _ _ _ _ _ token => exact mem_cons_of_mem token h
  | refreshOpen _ r => exact mem_cons_of_mem r.successor h
  | _ => exact h

/-- Only the commit of a rotation records one. -/
theorem rotations_step (s : State) (a : Act) :
    (s.effect a).rotations = s.rotations ∨
      ∃ t r row successor token, a = .commitRefresh t r row successor true token ∧
        (s.effect a).rotations = s.rotations ++ [⟨r.token, successor, row.player⟩] := by
  cases a with
  | commitRefresh t r row successor rotated token =>
    cases rotated with
    | true => exact .inr ⟨t, r, row, successor, token, rfl, rfl⟩
    | false => exact .inl (append_nil _)
  | _ => exact .inl rfl

theorem mem_rotations_step {R : Rotation} (h : R ∈ s.rotations) : R ∈ (s.effect a).rotations := by
  rcases rotations_step s a with heq | ⟨_, _, _, _, _, -, heq⟩
  · rwa [heq]
  · rw [heq]
    exact mem_append_left _ h

/-- The row that a rotation consumes stays committed until the rotation ends. -/
theorem Holds.committed_of_consumes (h : s.Holds) {row : TokenRow}
    (hc : (s.pc t).consumes = some (k, row)) : s.refreshTokens.committed k = some row := by
  have ho := h.tokens t
  cases hpc : s.pc t with
  | refresh _ st =>
    rw [hpc] at ho hc
    cases st with
    | rotated =>
      cases hc
      exact ho.based _ mem_cons_self
    | continuing row' successor rotated | answered row' successor rotated =>
      cases rotated with
      | true =>
        cases hc
        exact ho.based _ mem_cons_self
      | false => cases hc
    | _ => cases hc
  | _ =>
    rw [hpc] at hc
    cases hc

/-- A rotation is recorded when the session that consumes its token commits. -/
theorem rotation_cases {R : Rotation} (en : s.enabled a) (hR : R ∈ (s.effect a).rotations) :
    R ∈ s.rotations ∨ ∃ t row, a.actor = some t ∧ s.after a = .idle ∧
      (s.pc t).consumes = some (R.token, row) := by
  rcases rotations_step s a with heq | ⟨t, _, row, _, _, rfl, heq⟩
  · rw [heq] at hR
    exact .inl hR
  · rw [heq, mem_append] at hR
    rcases hR with hR | hR
    · exact .inl hR
    · cases mem_singleton.1 hR
      exact .inr ⟨t, row, rfl, rfl, by rw [en.1 t rfl]; rfl⟩

theorem newToken_after (en : s.enabled a) (h : (s.after a).newToken = some k) :
    a.before.newToken = some k ∨ (k ∉ s.tokens ∧ k ∈ (s.effect a).tokens) := by
  cases a with
  | insertFamily =>
    cases h
    exact .inr ⟨en.2.2.2.2.2, mem_cons_self⟩
  | refreshOpen =>
    cases h
    exact .inr ⟨en.2.2.2, mem_cons_self⟩
  | _ => first | exact .inl h | cases h

/-- The rows that appear in a step are those that its session has drawn. -/
theorem Holds.token_appears (h : s.Holds) (en : s.enabled a)
    (hnone : s.refreshTokens.committed k = none)
    (hsome : (s.effect a).refreshTokens.committed k ≠ none) :
    ∃ t, a.actor = some t ∧ (s.pc t).newToken = some k ∧ (s.after a) = .idle := by
  have hch := h.token_change en k
  generalize (s.effect a).refreshTokens.committed k = o at hch hsome
  cases hch with
  | same => exact absurd hnone hsome
  | born t => exact ⟨t, rfl, by rw [en.1 t rfl]; rfl, rfl⟩
  | consumed t r row successor token hk hrow =>
    rw [hrow] at hnone
    cases hnone
  | succeeded t r row successor token hk => exact ⟨t, rfl, by rw [en.1 t rfl, ← hk]; rfl, rfl⟩
  | revoked | erased | pruned => exact absurd rfl hsome

theorem Drawn.step (h : s.Drawn) (hh : s.Holds) (en : s.enabled a) : (s.effect a).Drawn where
  rows := by
    intro k hsome
    by_cases hnone : s.refreshTokens.committed k = none
    · obtain ⟨t, -, hnew, -⟩ := hh.token_appears en hnone hsome
      exact mem_tokens_step (h.fresh t k hnew).1
    · exact mem_tokens_step (h.rows k hnone)
  rotations := by
    intro R hR
    rcases rotation_cases en hR with hold | ⟨_, row, -, -, hc⟩
    · exact mem_tokens_step (h.rotations R hold)
    · have hrow := hh.committed_of_consumes hc
      exact mem_tokens_step (h.rows R.token (by rw [hrow]; exact some_ne_none row))
  fresh := by
    intro t k hnew
    rcases pc_read Pc.newToken en (newToken_after en) hnew with hold | ⟨-, hk, hmem⟩
    · obtain ⟨hused, hnone, hrot⟩ := h.fresh t k hold
      refine ⟨mem_tokens_step hused, ?_, ?_⟩
      · by_contra hsome
        obtain ⟨u, hu, hnew', hidle⟩ := hh.token_appears en hnone hsome
        cases h.apart t u k hold hnew'
        rw [pc_own hu, hidle] at hnew
        cases hnew
      · rintro R hR rfl
        rcases rotation_cases en hR with hRold | ⟨_, _, -, -, hc⟩
        · exact hrot R hRold rfl
        · rw [hh.committed_of_consumes hc] at hnone
          cases hnone
    · have hnone : s.refreshTokens.committed k = none := by
        by_contra hsome
        exact hk (h.rows k hsome)
      refine ⟨hmem, ?_, ?_⟩
      · by_contra hsome
        obtain ⟨u, -, hnew', -⟩ := hh.token_appears en hnone hsome
        exact hk (h.fresh u k hnew').1
      · rintro R hR rfl
        rcases rotation_cases en hR with hRold | ⟨_, _, -, -, hc⟩
        · exact hk (h.rotations R hRold)
        · rw [hh.committed_of_consumes hc] at hnone
          cases hnone
  apart := by
    intro t u k
    exact pc_apart Pc.newToken en (newToken_after en) (fun t hnew => (h.fresh t k hnew).1)
      (fun t u => h.apart t u k)

theorem drawn_start : State.start.Drawn where
  rows := fun _ hsome => absurd rfl hsome
  rotations := by
    intro _ hR
    cases hR
  fresh := by
    intro _ _ hk
    cases hk
  apart := by
    intro _ _ _ ht
    cases ht

theorem drawn_reachable {G : State → Act → Prop} (h : system.Reachable G s) : s.Drawn :=
  h.invariant drawn_start (fun _ _ hr ih _ en => ih.step (holds_reachable hr) en)

end Tokens

section Recorded

variable {k successor : String} {row : TokenRow}

theorem consumes_after (en : s.enabled a) (h : (s.after a).consumes = some (k, row)) :
    a.before.consumes = some (k, row) ∨
      (s.refreshTokens.committed k = some row ∧ row.usedAt = none) := by
  cases a with
  | rotate =>
    cases h
    obtain ⟨-, hrow, hrot⟩ := en.2
    rw [rotatable, Bool.and_eq_true, isNone_iff_eq_none] at hrot
    exact .inr ⟨hrow, hrot.1⟩
  | insertSuccessor | insertAccess => exact .inl h
  | _ => cases h

theorem handsOut_after (h : (s.after a).handsOut = some (k, successor)) :
    a.before.handsOut = some (k, successor) ∨ k = successor := by
  cases a with
  | insertSuccessor =>
    cases h
    exact .inr rfl
  | insertAccess => exact .inl h
  | _ => cases h

theorem repeats_after {R : Rotation} (en : s.enabled a) (h : (s.after a).repeats = some R) :
    a.before.repeats = some R ∨
      ∃ row, s.refreshTokens.committed R.token = some row ∧ row.replacedBy = some R.successor ∧
        row.player = R.player := by
  cases a with
  | graceReplay _ _ row =>
    cases h
    obtain ⟨hrow, hverdict⟩ := en.2
    obtain ⟨_, hrow', -, -, hnext⟩ := classify_grace hverdict
    rw [hrow] at hrow'
    cases hrow'
    exact .inr ⟨row, hrow, hnext, rfl⟩
  | insertAccess => exact .inl h
  | _ => cases h

/-- Only the commit of a rotation or of a grace replay hands out a session. -/
theorem answers_step {token : String} {session : Session}
    (h : Answer.refresh token (.ok session) ∈ (s.effect a).answers) :
    Answer.refresh token (.ok session) ∈ s.answers ∨
      ∃ t r row successor rotated access,
        a = .commitRefresh t r row successor rotated access ∧ token = r.token ∧
          session = ⟨row.player, access, successor, accessExpiresInSecs⟩ := by
  have hcons : ∀ x, Answer.refresh token (.ok session) ∈ s.answers ++ [x] →
      Answer.refresh token (.ok session) ≠ x →
      Answer.refresh token (.ok session) ∈ s.answers := by
    intro _ hx hne
    rcases mem_append.1 hx with hx | hx
    · exact hx
    · exact absurd (mem_singleton.1 hx) hne
  have hrefusal : ∀ pc : Pc, ∀ e,
      Answer.refresh token (.ok session) ∈ s.answers ++ (pc.refusal e).toList →
      Answer.refresh token (.ok session) ∈ s.answers := by
    intro pc _ hx
    rcases mem_append.1 hx with hx | hx
    · exact hx
    · cases pc <;> simp [Pc.refusal] at hx
  cases a with
  | commitRefresh t r row successor rotated access =>
    rcases mem_append.1 h with hold | hnew
    · exact .inl hold
    · cases mem_singleton.1 hnew
      exact .inr ⟨t, r, row, successor, rotated, access, rfl, rfl, rfl⟩
  | commitLogin | commitLink | refuseToken | commitRevoke | commitDeny | beginDelete
  | beginMiss | refuseTicket | commitDelete | replayReceipt =>
    exact .inl (hcons _ h (by intro he; cases he))
  | refuse _ pc e => exact .inl (hrefusal pc e h)
  | fail _ pc => exact .inl (hrefusal pc _ h)
  | _ => exact .inl h

section

variable (h : s.Recorded) (hh : s.Holds)
include h hh

theorem Recorded.paired_step (en : s.enabled a)
    (hrow : (s.effect a).refreshTokens.committed k = some row) :
    row.usedAt = none ↔ row.replacedBy = none := by
  have hch := hh.token_change en k
  rw [hrow] at hch
  generalize ho : some row = o at hch
  cases hch with
  | same => exact h.paired k row ho.symm
  | born | succeeded => cases ho; exact Iff.intro (fun _ => rfl) (fun _ => rfl)
  | consumed => cases ho; simp [TokenRow.consume]
  | revoked | erased | pruned => cases ho

theorem Recorded.used_step (en : s.enabled a)
    (hrow : (s.effect a).refreshTokens.committed k = some row)
    (hnext : row.replacedBy = some successor) :
    ⟨k, successor, row.player⟩ ∈ (s.effect a).rotations := by
  have hch := hh.token_change en k
  rw [hrow] at hch
  generalize ho : some row = o at hch
  cases hch with
  | same => exact mem_rotations_step (h.used k row successor ho.symm hnext)
  | born | succeeded => cases ho; cases hnext
  | consumed t r _ handed _ hk =>
    cases ho
    cases hnext
    have hhand := h.handed t r.successor handed (by rw [en.1 t rfl]; rfl)
    subst hk
    rw [hhand]
    exact mem_append_right _ mem_cons_self
  | revoked | erased | pruned => cases ho

theorem Recorded.kept_step (hd : s.Drawn) (en : s.enabled a)
    {R : Rotation} (hR : R ∈ (s.effect a).rotations)
    (hrow : (s.effect a).refreshTokens.committed R.token = some row) :
    row.replacedBy = some R.successor ∧ row.player = R.player := by
  by_cases hold : R ∈ s.rotations
  · have hch := hh.token_change en R.token
    rw [hrow] at hch
    generalize ho : some row = o at hch
    generalize hk : R.token = k at hch
    cases hch with
    | same => exact h.kept R hold row (by rw [hk]; exact ho.symm)
    | born t => exact absurd hk ((hd.fresh t k (by rw [en.1 t rfl]; rfl)).2.2 R hold)
    | consumed t r row' handed token hk' hrow' =>
      -- a token that was rotated is not rotated again
      have hunused := h.unused t r.token row' (by rw [en.1 t rfl]; rfl)
      rw [(h.kept R hold row' (by rw [hk]; exact hrow')).1] at hunused
      cases hunused
    | succeeded t r row' handed token hk' =>
      exact absurd hk ((hd.fresh t k (by rw [en.1 t rfl, ← hk']; rfl)).2.2 R hold)
    | revoked | erased | pruned => cases ho
  · rcases rotations_step s a with heq | ⟨t, r, row', handed, token, rfl, heq⟩
    · rw [heq] at hR
      exact absurd hR hold
    · rw [heq, mem_append] at hR
      rcases hR with hR | hR
      · exact absurd hR hold
      · cases mem_singleton.1 hR
        have hown := hh.tokens t
        rw [en.1 t rfl] at hown
        have hnew := hown.committed_write mem_cons_self
        have hrow : (s.refreshTokens.commit t).committed r.token = some row := hrow
        have hhand := h.handed t r.successor handed (by rw [en.1 t rfl]; rfl)
        rw [show (s.refreshTokens.commit t).committed r.token =
          some (row'.consume r.now r.successor) from hnew] at hrow
        cases hrow
        exact ⟨congrArg some hhand, rfl⟩

theorem Recorded.once_step (en : s.enabled a) :
    ((s.effect a).rotations.map Rotation.token).Nodup := by
  rcases rotations_step s a with heq | ⟨t, r, row, handed, token, rfl, heq⟩
  · rw [heq]
    exact h.once
  · have hc : (s.pc t).consumes = some (r.token, row) := by
      rw [en.1 t rfl]
      rfl
    rw [heq, map_append, nodup_append]
    refine ⟨h.once, nodup_singleton _, ?_⟩
    intro k hk k' hk'
    cases mem_singleton.1 hk'
    rintro rfl
    obtain ⟨R, hR, hRk⟩ := mem_map.1 hk
    have hunused := h.unused t _ row hc
    rw [(h.kept R hR row (by rw [hRk]; exact hh.committed_of_consumes hc)).1] at hunused
    cases hunused

theorem Recorded.step (hd : s.Drawn) (en : s.enabled a) : (s.effect a).Recorded where
  paired := fun _ _ hrow => h.paired_step hh en hrow
  unused := by
    intro t k row hc
    rcases pc_read Pc.consumes en (consumes_after en) hc with hold | ⟨-, hrow, hun⟩
    · exact h.unused t k row hold
    · exact (h.paired k row hrow).1 hun
  handed := by
    intro t k successor hout
    rcases pc_read Pc.handsOut en handsOut_after hout with hold | ⟨-, hnew⟩
    · exact h.handed t k successor hold
    · exact hnew
  used := fun _ _ _ hrow hnext => h.used_step hh en hrow hnext
  kept := fun _ hR _ hrow => h.kept_step hh hd en hR hrow
  once := h.once_step hh en
  repeated := by
    intro t R hrep
    rcases pc_read Pc.repeats en (repeats_after en) hrep with hold | ⟨-, row, hrow, hnext, hp⟩
    · exact mem_rotations_step (h.repeated t R hold)
    · have hmem := h.used R.token row R.successor hrow hnext
      rw [hp] at hmem
      exact mem_rotations_step hmem
  answered := by
    intro token session hans
    rcases answers_step hans with hold | ⟨t, _, _, _, rotated, _, rfl, rfl, rfl⟩
    · exact mem_rotations_step (h.answered token session hold)
    · cases rotated with
      | true => exact mem_append_right _ mem_cons_self
      | false =>
        refine mem_rotations_step (h.repeated t _ ?_)
        rw [en.1 t rfl]
        rfl

end

theorem recorded_start : State.start.Recorded where
  paired := by
    intro _ _ hrow
    cases hrow
  unused := by
    intro _ _ _ hc
    cases hc
  handed := by
    intro _ _ _ hout
    cases hout
  used := by
    intro _ _ _ hrow
    cases hrow
  kept := by
    intro _ hR
    cases hR
  once := nodup_nil
  repeated := by
    intro _ _ hrep
    cases hrep
  answered := by
    intro _ _ hans
    cases hans

theorem recorded_reachable {G : State → Act → Prop} (h : system.Reachable G s) : s.Recorded :=
  h.invariant recorded_start
    (fun _ _ hr ih _ en => ih.step (holds_reachable hr) (drawn_reachable hr) en)

end Recorded

section Liveness

variable {F : Family}

theorem clock_step (s : State) (a : Act) : s.clock ≤ (s.effect a).clock := by
  cases a with
  | tick => exact Nat.le_add_right _ _
  | _ => exact Nat.le_refl _

/-- The events that a step appends. -/
def appended : Act → List Event
  | .commitLogin _ l id created _ _ _ =>
    (created.map (fun _ => Event.registered id l.displayName l.provider)).toList
  | .commitLink _ k _ promoted =>
    if promoted then [Event.promoted k.player guest k.provider] else []
  | .commitDelete _ d row => [Event.deleted d.player row.handle]
  | _ => []

theorem events_eq (s : State) (a : Act) : (s.effect a).events = s.events ++ appended a := by
  cases a with
  | commitLogin | commitLink | commitDelete => rfl
  | _ => exact (append_nil _).symm

/-- A family that is live after a step was live before it. -/
theorem live_of_step (h : (s.effect a).Live F) : s.Live F := by
  refine ⟨fun hrev => h.1 (revoked_step hrev), Nat.lt_of_le_of_lt (clock_step s a) h.2.1, ?_⟩
  have hany := h.2.2
  rw [events_eq, any_append, Bool.or_eq_false_iff] at hany
  exact hany.1

/-- The prunes that run have begun. -/
def Timely (s : State) : Prop := ∀ t n, (s.pc t).pruneTime = some n → n ≤ s.clock

theorem pruneTime_after {n : Nat} (en : s.enabled a) (h : (s.after a).pruneTime = some n) :
    a.before.pruneTime = some n ∨ n = s.clock := by
  cases a with
  | pruneOpen =>
    cases h
    exact .inr en.2
  | _ => first | exact .inl h | cases h

theorem timely_reachable {G : State → Act → Prop} (h : system.Reachable G s) : s.Timely := by
  refine h.invariant ?_ ?_
  · intro _ _ hn
    cases hn
  · intro s a _ ih _ en t n hn
    rcases pc_read Pc.pruneTime en (pruneTime_after en) hn with hold | ⟨-, rfl⟩
    · exact Nat.le_trans (ih t n hold) (clock_step s a)
    · exact clock_step s a

/-- Families with the same id are the same. -/
theorem Lineage.family_inj {F' : Family} (h : s.Lineage) (hF : F ∈ s.families)
    (hF' : F' ∈ s.families) (hid : F.id = F'.id) : F = F' :=
  inj_on_of_nodup_map h.nodup hF hF' hid

/-- A committed row of a family has the player and the expiry of the family. -/
theorem Lineage.of_family {k : String} {row : TokenRow} (h : s.Lineage) (hF : F ∈ s.families)
    (hrow : s.refreshTokens.committed k = some row) (hid : row.family = F.id) : row.Of F := by
  obtain ⟨_, hF', hof⟩ := h.rows k row hrow
  cases h.family_inj hF hF' (hid.symm.trans hof.family)
  exact hof

end Liveness

section Spines

variable {F : Family}

/-- The version is not one of a row of the family. -/
def Outside (F : Family) (o : Option TokenRow) : Prop := ∀ row, o = some row → row.family ≠ F.id

/-- As long as a family is live, only its own rotations change its rows. -/
theorem Lineage.token_outside (h : s.Lineage) (hh : s.Holds) (ht : s.Timely) (en : s.enabled a)
    (hF : F ∈ s.families) (hlive : (s.effect a).Live F)
    (hother : ∀ t r row successor token,
      a = .commitRefresh t r row successor true token → row.family ≠ F.id)
    (k : String) :
    (s.effect a).refreshTokens.committed k = s.refreshTokens.committed k ∨
      (Outside F (s.refreshTokens.committed k) ∧
        Outside F ((s.effect a).refreshTokens.committed k)) := by
  have hnew : s.refreshTokens.committed k = none → Outside F (s.refreshTokens.committed k) := by
    intro hnone row hr
    rw [hnone] at hr
    cases hr
  have hgone : ∀ row, s.refreshTokens.committed k = some row → row.family ≠ F.id →
      Outside F (s.refreshTokens.committed k) ∧ Outside F none := by
    intro row hrow hne
    refine ⟨?_, fun _ hr => by cases hr⟩
    intro row' hrow'
    rw [hrow] at hrow'
    cases hrow'
    exact hne
  have hch := hh.token_change en k
  generalize (s.effect a).refreshTokens.committed k = o at hch
  cases hch with
  | same => exact .inl rfl
  | born t l id created family token hnone =>
    have hfresh : (s.pc t).newFamily = some family := by
      rw [en.1 t rfl]
      rfl
    refine .inr ⟨hnew hnone, ?_⟩
    rintro row hr hid
    cases hr
    have hid : family = F.id := hid
    exact (h.fresh t family hfresh).2 (hid ▸ mem_map_of_mem hF)
  | consumed t r row successor token hk hrow =>
    have hne := hother t r row successor token rfl
    refine .inr ⟨(hgone row hrow hne).1, ?_⟩
    intro row' hr
    cases hr
    exact hne
  | succeeded t r row successor token hk hnone =>
    refine .inr ⟨hnew hnone, ?_⟩
    intro row' hr
    cases hr
    exact hother t r row successor token rfl
  | revoked t r row hrow =>
    refine .inr (hgone row hrow (fun hid => hlive.1 ?_))
    rw [← hid]
    exact mem_append_right _ mem_cons_self
  | erased t d prow row hrow hplayer =>
    refine .inr (hgone row hrow (fun hid => ?_))
    have hany : (s.events ++ [Event.deleted d.player prow.handle]).any
        (Event.deletes F.player) = false := hlive.2.2
    rw [any_append, ← (h.of_family hF hrow hid).player, hplayer] at hany
    simp [Event.deletes] at hany
  | pruned t now row hrow hexpired =>
    refine .inr (hgone row hrow (fun hid => ?_))
    have hnow : now ≤ s.clock := by
      refine ht t now ?_
      rw [en.1 t rfl]
      rfl
    have hclock : s.clock < F.expiresAt := hlive.2.1
    rw [(h.of_family hF hrow hid).expiresAt] at hexpired
    omega

/-- A spine depends on the rows of its family only. -/
theorem Spine.congr {s' : State} {l : List String} (h : s.Spine F l)
    (heq : ∀ k, s'.refreshTokens.committed k = s.refreshTokens.committed k ∨
      (Outside F (s.refreshTokens.committed k) ∧ Outside F (s'.refreshTokens.committed k))) :
    s'.Spine F l := by
  have hrows : ∀ k, (∃ row, s'.refreshTokens.committed k = some row ∧ row.family = F.id) ↔
      ∃ row, s.refreshTokens.committed k = some row ∧ row.family = F.id := by
    intro k
    rcases heq k with hk | ⟨hout, hout'⟩
    · rw [hk]
    · constructor
      · rintro ⟨row, hrow, hid⟩
        exact absurd hid (hout' row hrow)
      · rintro ⟨row, hrow, hid⟩
        exact absurd hid (hout row hrow)
  refine ⟨h.nodup, fun k => (h.rows k).trans (hrows k).symm, h.linked.congr ?_⟩
  intro k hk
  rcases heq k with hk' | ⟨hout, -⟩
  · exact hk'
  · obtain ⟨row, hrow, hid⟩ := (h.rows k).1 hk
    exact absurd hid (hout row hrow)

/-- The rotation of a token of the family appends its successor. -/
theorem Spine.rotate {l : List String} {r : Refresh} {row : TokenRow} {successor token : String}
    (h : s.Spine F l) (hh : s.Holds) (hd : s.Drawn) (hrec : s.Recorded)
    (en : s.enabled (.commitRefresh t r row successor true token)) (hid : row.family = F.id) :
    ∃ l', (s.effect (.commitRefresh t r row successor true token)).Spine F l' := by
  have hpc : s.pc t = .refresh r (.answered row successor true token) := en.1 t rfl
  have hc : (s.pc t).consumes = some (r.token, row) := by
    rw [hpc]
    rfl
  have hrow := hh.committed_of_consumes hc
  have hnone : s.refreshTokens.committed r.successor = none :=
    (hd.fresh t r.successor (by rw [hpc]; rfl)).2.1
  have hown := hh.tokens t
  rw [hpc] at hown
  have hused : (s.refreshTokens.commit t).committed r.token =
      some (row.consume r.now r.successor) := hown.committed_write mem_cons_self
  have hnext : (s.refreshTokens.commit t).committed r.successor = some row.successor :=
    hown.committed_write (mem_cons_of_mem _ mem_cons_self)
  have hsame : ∀ k, k ≠ r.token → k ≠ r.successor →
      (s.refreshTokens.commit t).committed k = s.refreshTokens.committed k := by
    intro k hk hk'
    refine hown.commit_elim (P := fun o => o = s.refreshTokens.committed k) ?_
      (fun _ _ hdoom => hdoom.elim) rfl
    intro w hw hkey
    rcases mem_cons.1 hw with rfl | hw
    · exact absurd hkey.symm hk
    · cases mem_singleton.1 hw
      exact absurd hkey.symm hk'
  -- the consumed row had no successor, so it was the last one
  obtain ⟨m, rfl⟩ :=
    h.linked.eq_append_of_end ((h.rows r.token).2 ⟨row, hrow, hid⟩) hrow
      (hrec.unused t r.token row hc)
  have hnew : r.successor ∉ m ++ [r.token] := by
    intro hmem
    obtain ⟨row', hrow', -⟩ := (h.rows _).1 hmem
    rw [hnone] at hrow'
    cases hrow'
  have hm : ∀ k ∈ m, (s.refreshTokens.commit t).committed k = s.refreshTokens.committed k := by
    intro k hk
    refine hsame k ?_ ?_
    · rintro rfl
      exact (nodup_append.1 h.nodup).2.2 r.token hk r.token (by simp) rfl
    · rintro rfl
      exact hnew (mem_append_left _ hk)
  refine ⟨m ++ [r.token, r.successor], ?_, ?_, h.linked.extend hm hused rfl hnext rfl⟩
  · have happ : m ++ [r.token, r.successor] = (m ++ [r.token]) ++ [r.successor] := by simp
    rw [happ, nodup_append]
    refine ⟨h.nodup, nodup_singleton _, ?_⟩
    intro k hk k' hk'
    cases mem_singleton.1 hk'
    rintro rfl
    exact hnew hk
  · intro k
    show k ∈ m ++ [r.token, r.successor] ↔
      ∃ row', (s.refreshTokens.commit t).committed k = some row' ∧ row'.family = F.id
    by_cases hk : k = r.token
    · subst hk
      rw [hused]
      exact ⟨fun _ => ⟨_, rfl, hid⟩, fun _ => by simp⟩
    · by_cases hk' : k = r.successor
      · subst hk'
        rw [hnext]
        exact ⟨fun _ => ⟨_, rfl, hid⟩, fun _ => by simp⟩
      · rw [hsame k hk hk', ← h.rows k]
        simp [hk, hk']

/-- The first row of a new family. -/
theorem spine_born {l : Login} {id family : Uuid} {created : Option String} {tok token : String}
    (h : s.Lineage) (hh : s.Holds) (en : s.enabled (.commitLogin t l id created family tok token))
    (hF : F.id = family) :
    (s.effect (.commitLogin t l id created family tok token)).Spine F [tok] := by
  have hnew : (s.pc t).newFamily = some family := by
    rw [en.1 t rfl]
    rfl
  have hown := hh.tokens t
  rw [en.1 t rfl] at hown
  have hfirst : (s.refreshTokens.commit t).committed tok =
      some (TokenRow.first id family l.now) := hown.committed_write mem_cons_self
  refine ⟨nodup_singleton tok, ?_, .singleton hfirst rfl⟩
  intro k
  constructor
  · intro hk
    cases mem_singleton.1 hk
    exact ⟨_, hfirst, hF.symm⟩
  · rintro ⟨row, hrow, hid⟩
    refine mem_singleton.2 ?_
    revert hrow
    refine hown.commit_one (P := fun o => o = some row → k = tok)
      (fun hkey _ _ => hkey.symm) (fun hold => ?_)
    -- a row that was there before belongs to an older family
    refine absurd (h.rows k row hold).born ?_
    rw [hid, hF]
    exact (h.fresh t family hnew).2

/-- Every live family has a spine. -/
theorem spine_step (h : ∀ F ∈ s.families, s.Live F → ∃ l, s.Spine F l) (hh : s.Holds)
    (hl : s.Lineage) (ht : s.Timely) (hd : s.Drawn) (hrec : s.Recorded) (en : s.enabled a)
    (hF : F ∈ (s.effect a).families) (hlive : (s.effect a).Live F) :
    ∃ l, (s.effect a).Spine F l := by
  by_cases hold : F ∈ s.families
  · obtain ⟨l, hspine⟩ := h F hold (live_of_step hlive)
    by_cases hrot : ∃ t r row successor token,
        a = .commitRefresh t r row successor true token ∧ row.family = F.id
    · obtain ⟨_, _, _, _, _, rfl, hid⟩ := hrot
      exact hspine.rotate hh hd hrec en hid
    · refine ⟨l, hspine.congr (hl.token_outside hh ht en hold hlive ?_)⟩
      intro t r row successor token ha hid
      exact hrot ⟨t, r, row, successor, token, ha, hid⟩
  · rcases families_step s a with heq | ⟨_, _, _, _, _, tok, _, rfl, heq⟩
    · rw [heq] at hF
      exact absurd hF hold
    · rw [heq, mem_append] at hF
      rcases hF with hF | hF
      · exact absurd hF hold
      · cases mem_singleton.1 hF
        exact ⟨[tok], spine_born hl hh en rfl⟩

theorem spine_reachable {G : State → Act → Prop} (h : system.Reachable G s) (hF : F ∈ s.families)
    (hlive : s.Live F) : ∃ l, s.Spine F l := by
  refine h.invariant ?_ ?_
    F hF hlive
  · intro _ hF
    cases hF
  · intro _ _ hr ih _ en _ hF hlive
    exact spine_step ih (holds_reachable hr) (lineage_reachable hr) (timely_reachable hr)
      (drawn_reachable hr) (recorded_reachable hr) en hF hlive

end Spines

section Statement

/-- The rows of the family `F` form the chain `l`. -/
structure OneChain (s : State) (F : Family) (l : List String) : Prop where
  nodup : l.Nodup
  rows : ∀ k, k ∈ l ↔ ∃ row, s.refreshTokens.committed k = some row ∧ row.family = F.id
  linked : Chained s.refreshTokens.committed TokenRow.replacedBy l
  alike : ∀ k ∈ l, ∀ row, s.refreshTokens.committed k = some row →
    row.player = F.player ∧ row.expiresAt = F.expiresAt
  oneUnused : ∃! k, k ∈ l ∧ ∃ row, s.refreshTokens.committed k = some row ∧ row.usedAt = none
  atEnd : ∀ k ∈ l, ∀ row, s.refreshTokens.committed k = some row → row.usedAt = none →
    l.getLast? = some k
  succeeded : ∀ k ∈ l, ∀ row, s.refreshTokens.committed k = some row → row.usedAt ≠ none →
    ∃ k' ∈ l, row.replacedBy = some k'
  unshared : ∀ k ∈ l, ∀ k' ∈ l, ∀ row row' next,
    s.refreshTokens.committed k = some row → row.replacedBy = some next →
    s.refreshTokens.committed k' = some row' → row'.replacedBy = some next → k = k'

/-- What the refreshes have answered: the recorded successor and the player of the
presented token, the same for every presentation. -/
structure RefreshAnswers (s : State) : Prop where
  rotated : ∀ token session, Answer.refresh token (.ok session) ∈ s.answers →
    ⟨token, session.refreshToken, session.playerId⟩ ∈ s.rotations
  recorded : ∀ token session row, Answer.refresh token (.ok session) ∈ s.answers →
    s.refreshTokens.committed token = some row →
    row.replacedBy = some session.refreshToken ∧ row.player = session.playerId
  same : ∀ token session session', Answer.refresh token (.ok session) ∈ s.answers →
    Answer.refresh token (.ok session') ∈ s.answers →
    session.refreshToken = session'.refreshToken ∧ session.playerId = session'.playerId

/-- All rows of a family have the player and the expiry it was born with. -/
structure FamiliesFixed (s : State) : Prop where
  distinct : (s.families.map Family.id).Nodup
  rows : ∀ k row, s.refreshTokens.committed k = some row → ∃ F ∈ s.families, row.Of F

theorem Spine.oneChain {F : Family} {l : List String} (h : s.Spine F l) (hl : s.Lineage)
    (hrec : s.Recorded) (hF : F ∈ s.families) : s.OneChain F l where
  nodup := h.nodup
  rows := h.rows
  linked := h.linked
  alike := by
    intro k hk _ hrow
    obtain ⟨_, hrow', hid⟩ := (h.rows k).1 hk
    have hof := hl.of_family hF hrow' hid
    rw [hrow] at hrow'
    cases hrow'
    exact ⟨hof.player, hof.expiresAt⟩
  oneUnused := by
    obtain ⟨e, ⟨he, row, hrow, hend⟩, huniq⟩ := h.linked.existsUnique_end
    refine ⟨e, ⟨he, row, hrow, (hrec.paired e row hrow).2 hend⟩, ?_⟩
    rintro k ⟨hk, row', hrow', hun⟩
    exact huniq k ⟨hk, row', hrow', (hrec.paired k row' hrow').1 hun⟩
  atEnd := by
    intro k hk row hrow hun
    obtain ⟨_, rfl⟩ := h.linked.eq_append_of_end hk hrow ((hrec.paired k row hrow).1 hun)
    exact List.getLast?_concat
  succeeded := by
    intro k hk row hrow hused
    obtain ⟨k', hnext⟩ := ne_none_iff_exists'.1
      (fun hnone => hused ((hrec.paired k row hrow).2 hnone))
    exact ⟨k', h.linked.next_mem hk hrow hnext, hnext⟩
  unshared := by
    intro _ hk _ hk' _ _ _ hrow hnext hrow' hnext'
    exact h.linked.next_inj h.nodup hk hrow hnext hk' hrow' hnext'

theorem Recorded.refreshAnswers (h : s.Recorded) : s.RefreshAnswers where
  rotated := h.answered
  recorded := fun token session row hans hrow => h.kept _ (h.answered token session hans) row hrow
  same := by
    intro token session session' hans hans'
    have heq := inj_on_of_nodup_map h.once (h.answered token session hans)
      (h.answered token session' hans') rfl
    exact ⟨congrArg Rotation.successor heq, congrArg Rotation.player heq⟩

/-- In every reachable state, the rows of a family that is not revoked, not expired
and not deleted with its player form one chain; every refresh is answered with the
recorded successor; and no row outlives or changes the family it belongs to. -/
theorem refresh_chain (h : system.Reachable TransitionSystem.anyStep s) :
    (∀ F ∈ s.families, s.Live F → ∃ l, s.OneChain F l) ∧ s.RefreshAnswers ∧ s.FamiliesFixed := by
  have hl := lineage_reachable h
  have hrec := recorded_reachable h
  refine ⟨?_, hrec.refreshAnswers, hl.nodup, hl.rows⟩
  intro _ hF hlive
  obtain ⟨l, hspine⟩ := spine_reachable h hF hlive
  exact ⟨l, hspine.oneChain hl hrec hF⟩

/-- The first token is presented by two refreshes at once: one rotates it, the other
is given the same successor. -/
def graceRun : List Act :=
  let r₁ : Refresh := ⟨1, "r0", "r1"⟩
  let r₂ : Refresh := ⟨1, "r0", "r2"⟩
  firstLogin 1 ++ [.tick 1, .refreshOpen 1 r₁, .refreshOpen 2 r₂, .rotate 1 r₁ unusedRow] ++
  finishRotation 1 r₁ "a1" ++
  [.rotateMiss 2 r₂, .graceReplay 2 r₂ (unusedRow.consume 1 "r1") "r1",
   .insertAccess 2 r₂ (unusedRow.consume 1 "r1") "r1" false "a2",
   .commitRefresh 2 r₂ (unusedRow.consume 1 "r1") "r1" false "a2"]

theorem graceRun_runs : (system.exec TransitionSystem.anyStep system.start graceRun).isSome := by
  decide +kernel

/-- The state after `graceRun`. -/
def graceState : State := TransitionSystem.final TransitionSystem.anyStep graceRun graceRun_runs

/-- The family of `graceRun` is a chain of two rows, and both presentations were
answered. -/
theorem refresh_chain_grace :
    (∃ F ∈ graceState.families, ∃ l, graceState.OneChain F l) ∧ graceState.RefreshAnswers ∧
      graceState.refreshTokens.rows.length = 2 ∧
      Answer.refresh "r0" (.ok ⟨alice, "a2", "r1", 3600⟩) ∈ graceState.answers := by
  have h := refresh_chain (TransitionSystem.reachable_final _ _ graceRun_runs)
  have hlive : graceState.families = [⟨firstFamily, alice, unusedRow.expiresAt⟩] ∧
      firstFamily ∉ graceState.revoked ∧ graceState.clock < unusedRow.expiresAt ∧
      graceState.events.any (Event.deletes alice) = false ∧
      graceState.refreshTokens.rows.length = 2 ∧
      Answer.refresh "r0" (.ok ⟨alice, "a2", "r1", 3600⟩) ∈ graceState.answers := by
    decide +kernel
  obtain ⟨hF, hrev, hclock, hev, hrows⟩ := hlive
  have hmem : ⟨firstFamily, alice, unusedRow.expiresAt⟩ ∈ graceState.families := by
    rw [hF]
    exact mem_cons_self
  exact ⟨⟨_, hmem, h.1 _ hmem ⟨hrev, hclock, hev⟩⟩, h.2.1, hrows⟩

end Statement

end State
end Swarog.Accounts
