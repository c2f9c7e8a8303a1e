import Swarog.Accounts.Changes

/-!
# Refresh families

A family is born with the first refresh token of a login.  Every later row of the
family is copied from an earlier one, so all of them have the player and the
expiry of the first.  A family id is drawn once: the family of a login that has
not committed is not the family of any committed row, of any presented row, or of
any revocation.
-/

namespace Swarog.Accounts

open Pg List

/-- The row belongs to the family. -/
structure TokenRow.Of (row : TokenRow) (F : Family) : Prop where
  family : row.family = F.id
  player : row.player = F.player
  expiresAt : row.expiresAt = F.expiresAt

namespace Pc

/-- The row that a refresh rotates or replays. -/
def presented : Pc → Option TokenRow
  | .refresh _ (.rotated row) | .refresh _ (.continuing row _ _)
  | .refresh _ (.answered row _ _ _) => some row
  | _ => none

/-- The family that a refresh revokes. -/
def revokes : Pc → Option Uuid
  | .refresh _ (.revoking family) | .refresh _ (.killing family _)
  | .refresh _ (.killingSessions family _) => some family
  | _ => none

/-- The family that a login is creating. -/
def newFamily : Pc → Option Uuid
  | .login _ st => st.family.map (fun c => c.2.1)
  | _ => none

end Pc

namespace State

variable {s : State} {a : Act} {t : Sess}

/-- The row belongs to a family that was born. -/
def Known (s : State) (row : TokenRow) : Prop := ∃ F ∈ s.families, row.Of F

/-- The family was born. -/
def Born (s : State) (f : Uuid) : Prop := f ∈ s.families.map Family.id

/-- Where families come from. -/
structure Lineage (s : State) : Prop where
  rows : ∀ k row, s.refreshTokens.committed k = some row → s.Known row
  presented : ∀ t row, (s.pc t).presented = some row → s.Known row
  revokes : ∀ t f, (s.pc t).revokes = some f → s.Born f
  revoked : ∀ f ∈ s.revoked, s.Born f
  fresh : ∀ t f, (s.pc t).newFamily = some f → f ∈ s.uuids ∧ ¬ s.Born f
  apart : ∀ t u f, (s.pc t).newFamily = some f → (s.pc u).newFamily = some f → t = u
  drawn : ∀ f, s.Born f → f ∈ s.uuids
  nodup : (s.families.map Family.id).Nodup

section Steps

theorem families_step (s : State) (a : Act) :
    (s.effect a).families = s.families ∨
      ∃ t l id created family tok token,
        a = .commitLogin t l id created family tok token ∧
        (s.effect a).families =
          s.families ++ [⟨family, id, (TokenRow.first id family l.now).expiresAt⟩] := by
  cases a with
  | commitLogin t l id created family tok token =>
    exact .inr ⟨t, l, id, created, family, tok, token, rfl, rfl⟩
  | _ => exact .inl rfl

theorem mem_families_step {F : Family} (h : F ∈ s.families) : F ∈ (s.effect a).families := by
  rcases families_step s a with heq | ⟨_, _, _, _, _, _, _, -, heq⟩
  · rwa [heq]
  · rw [heq]
    exact mem_append_left _ h

theorem Known.step {row : TokenRow} (h : s.Known row) : (s.effect a).Known row := by
  obtain ⟨F, hF, hof⟩ := h
  exact ⟨F, mem_families_step hF, hof⟩

theorem Known.born {row : TokenRow} (h : s.Known row) : s.Born row.family := by
  obtain ⟨_, hF, hof⟩ := h
  rw [hof.family]
  exact mem_map_of_mem hF

theorem Born.step {f : Uuid} (h : s.Born f) : (s.effect a).Born f := by
  obtain ⟨_, hF, rfl⟩ := mem_map.1 h
  exact mem_map_of_mem (mem_families_step hF)

theorem born_cases {f : Uuid} (h : (s.effect a).Born f) :
    s.Born f ∨ ∃ t l id created tok token, a = .commitLogin t l id created f tok token := by
  rcases families_step s a with heq | ⟨t, l, id, created, _, tok, token, ha, heq⟩
  · rw [Born, heq] at h
    exact .inl h
  · rw [Born, heq, map_append, mem_append] at h
    rcases h with h | h
    · exact .inl h
    · cases mem_singleton.1 h
      exact .inr ⟨t, l, id, created, tok, token, ha⟩

theorem mem_uuids_step {f : Uuid} (h : f ∈ s.uuids) : f ∈ (s.effect a).uuids := by
  cases a with
  | claimHandle _ _ _ _ id => exact mem_cons_of_mem id h
  | insertFamily _ _ _ _ family => exact mem_cons_of_mem family h
  | _ => exact h

/-- A refresh presents a committed row, or the one it presented before. -/
theorem presented_after {row : TokenRow} (en : s.enabled a) (h : (s.after a).presented = some row) :
    a.before.presented = some row ∨ ∃ k, s.refreshTokens.committed k = some row := by
  cases a with
  | rotate _ r =>
    cases h
    exact .inr ⟨r.token, en.2.2.1⟩
  | graceReplay _ r =>
    cases h
    exact .inr ⟨r.token, en.2.1⟩
  | insertSuccessor | insertAccess => exact .inl h
  | _ => cases h

/-- A refresh revokes the family of a committed row, or the one it revoked
before. -/
theorem revokes_after {f : Uuid} (en : s.enabled a) (h : (s.after a).revokes = some f) :
    a.before.revokes = some f ∨
      ∃ k row, s.refreshTokens.committed k = some row ∧ row.family = f := by
  cases a with
  | revoke _ r =>
    cases h
    obtain ⟨row, hrow, hf⟩ := classify_revoke en.2
    exact .inr ⟨r.token, row, hrow, hf⟩
  | killTokens | killToken | killSessions | killSession => exact .inl h
  | _ => cases h

/-- A login creates a family it has just drawn, or the one it created before. -/
theorem newFamily_after {f : Uuid} (en : s.enabled a) (h : (s.after a).newFamily = some f) :
    a.before.newFamily = some f ∨ (f ∉ s.uuids ∧ f ∈ (s.effect a).uuids) := by
  cases a with
  | insertFamily =>
    cases h
    exact .inr ⟨en.2.2.2.2.1, mem_cons_self⟩
  | insertSession => exact .inl h
  | _ => cases h

end Steps

section Invariant

theorem Lineage.rows_step (h : s.Lineage) (hh : s.Holds) (en : s.enabled a)
    {k : String} {row : TokenRow} (hrow : (s.effect a).refreshTokens.committed k = some row) :
    (s.effect a).Known row := by
  have hch := hh.token_change en k
  rw [hrow] at hch
  generalize ho : some row = o at hch
  cases hch with
  | same => exact (h.rows k row ho.symm).step
  | born =>
    cases ho
    exact ⟨_, mem_append_right _ mem_cons_self, rfl, rfl, rfl⟩
  | consumed _ _ row' _ _ _ hrow' =>
    cases ho
    obtain ⟨F, hF, hof⟩ := (h.rows k row' hrow').step
    exact ⟨F, hF, hof.family, hof.player, hof.expiresAt⟩
  | succeeded t _ row' =>
    cases ho
    have hpres : (s.pc t).presented = some row' := by
      rw [en.1 t rfl]
      rfl
    obtain ⟨F, hF, hof⟩ := (h.presented t row' hpres).step
    exact ⟨F, hF, hof.family, hof.player, hof.expiresAt⟩
  | revoked | erased | pruned => cases ho

theorem Lineage.fresh_step (h : s.Lineage) (en : s.enabled a) {f : Uuid}
    (hf : ((s.effect a).pc t).newFamily = some f) :
    f ∈ (s.effect a).uuids ∧ ¬ (s.effect a).Born f := by
  have hused : f ∈ (s.effect a).uuids ∧ ¬ s.Born f := by
    rcases pc_read Pc.newFamily en (newFamily_after en) hf with hold | ⟨-, hnew, hmem⟩
    · exact ⟨mem_uuids_step (h.fresh t f hold).1, (h.fresh t f hold).2⟩
    · exact ⟨hmem, fun hb => hnew (h.drawn f hb)⟩
  refine ⟨hused.1, fun hb => ?_⟩
  rcases born_cases hb with hold | ⟨u, l, id, created, tok, token, rfl⟩
  · exact hused.2 hold
  · -- the family born in this step belongs to the session that has just ended
    by_cases hu : u = t
    · subst hu
      rw [pc_own rfl] at hf
      cases hf
    · have ha : (Act.commitLogin u l id created f tok token).actor ≠ some t :=
        fun he => hu (Option.some.inj he)
      rw [pc_other ha] at hf
      refine hu (h.apart u t f ?_ hf)
      rw [en.1 u rfl]
      rfl

theorem Lineage.apart_step (h : s.Lineage) (en : s.enabled a) {u : Sess} {f : Uuid}
    (ht : ((s.effect a).pc t).newFamily = some f) (hu : ((s.effect a).pc u).newFamily = some f) :
    t = u :=
  pc_apart Pc.newFamily en (newFamily_after en) (fun t hnew => (h.fresh t f hnew).1)
    (fun t u => h.apart t u f) ht hu

theorem Lineage.step (h : s.Lineage) (hh : s.Holds) (en : s.enabled a) : (s.effect a).Lineage where
  rows := fun _ _ hrow => h.rows_step hh en hrow
  presented := by
    intro t row hpres
    rcases pc_read Pc.presented en (presented_after en) hpres with hold | ⟨-, k, hrow⟩
    · exact (h.presented t row hold).step
    · exact (h.rows k row hrow).step
  revokes := by
    intro t f hrev
    rcases pc_read Pc.revokes en (revokes_after en) hrev with hold | ⟨-, k, row, hrow, rfl⟩
    · exact (h.revokes t f hold).step
    · exact (h.rows k row hrow).born.step
  revoked := by
    intro f hf
    cases a with
    | commitRevoke t =>
      rcases mem_append.1 hf with hf | hf
      · exact (h.revoked f hf).step
      · cases mem_singleton.1 hf
        refine (h.revokes t f ?_).step
        rw [en.1 t rfl]
        rfl
    | _ => exact (h.revoked f hf).step
  fresh := fun _ _ hf => h.fresh_step en hf
  apart := fun _ _ _ ht hu => h.apart_step en ht hu
  drawn := by
    intro f hb
    rcases born_cases hb with hold | ⟨t, _, _, _, _, _, rfl⟩
    · exact mem_uuids_step (h.drawn f hold)
    · refine mem_uuids_step (h.fresh t f ?_).1
      rw [en.1 t rfl]
      rfl
  nodup := by
    rcases families_step s a with heq | ⟨t, _, _, _, family, _, _, rfl, heq⟩
    · rw [heq]
      exact h.nodup
    · have hnew : (s.pc t).newFamily = some family := by
        rw [en.1 t rfl]
        rfl
      rw [heq, map_append, nodup_append]
      refine ⟨h.nodup, nodup_singleton _, ?_⟩
      intro f hf _ hg
      cases mem_singleton.1 hg
      rintro rfl
      exact (h.fresh t f hnew).2 hf

theorem lineage_start : State.start.Lineage where
  rows := by
    intro _ _ hrow
    cases hrow
  presented := by
    intro _ _ hpres
    cases hpres
  revokes := by
    intro _ _ hrev
    cases hrev
  revoked := by
    intro _ hf
    cases hf
  fresh := by
    intro _ _ hf
    cases hf
  apart := by
    intro _ _ _ ht
    cases ht
  drawn := by
    intro _ hb
    cases hb
  nodup := nodup_nil

theorem lineage_reachable {G : State → Act → Prop} (h : system.Reachable G s) : s.Lineage :=
  h.invariant lineage_start (fun _ _ hr ih _ en => ih.step (holds_reachable hr) en)

end Invariant

end State
end Swarog.Accounts
