import Swarog.Accounts.Rotation

/-!
# Players, their first identities and their handles

A player is born with the commit of the login or registration that created it:
with its row, its handle and its first identity, and with one `player.registered`.
`Births` relates the history of births to the tables.  A handle that was ever
claimed stays in the registry, so no two births have the same pair; the first
identity of a player stays as long as the player.

`References` are the four foreign keys on the players.
-/

namespace Swarog.Accounts

open Pg Table List Option

/-- The event of a registration. -/
def Event.registers : Event → Bool
  | .registered _ _ _ => true
  | _ => false

namespace Pc

/-- The player that a login is creating. -/
def newPlayer : Pc → Option Uuid
  | .login _ st => st.handle.map Prod.fst
  | _ => none

/-- The pair and the player of a login that has found its player. -/
def found : Pc → Option ((String × String) × Uuid)
  | .login l (.issuing id none) | .login l (.issued id none _ _)
  | .login l (.complete id none _ _ _) => some (l.key, id)
  | _ => none

/-- The player of a link. -/
def linksTo : Pc → Option Uuid
  | .link k _ => some k.player
  | _ => none

end Pc

namespace State

variable {s : State} {a : Act} {t : Sess}

/-- The rows of the players' children refer to players. -/
structure References (s : State) : Prop where
  identities : Table.Refers identityOwner s.players s.identities
  sessions : Table.Refers sessionOwner s.players s.sessions
  tokens : Table.Refers tokenOwner s.players s.refreshTokens
  tickets : Table.Refers ticketOwner s.players s.tickets

/-- The player was created at some time. -/
def WasBorn (s : State) (p : Uuid) : Prop := p ∈ s.born.map Birth.player

instance (s : State) (p : Uuid) : Decidable (s.WasBorn p) := inferInstanceAs (Decidable (_ ∈ _))

/-- The player exists. -/
def Alive (s : State) (p : Uuid) : Prop := s.players.committed p ≠ none

/-- What the history of births says about the tables. -/
structure Births (s : State) : Prop where
  players : ∀ p row, s.players.committed p = some row → ∃ b ∈ s.born, b.player = p ∧ b.row = row
  drawn : ∀ p, s.WasBorn p → p ∈ s.uuids
  fresh : ∀ t p, (s.pc t).newPlayer = some p → p ∈ s.uuids ∧ ¬ s.WasBorn p
  apart : ∀ t u p, (s.pc t).newPlayer = some p → (s.pc u).newPlayer = some p → t = u
  nodup : (s.born.map Birth.player).Nodup
  handles : ∀ b ∈ s.born, s.handles.committed b.row.pair ≠ none
  pairs : (s.born.map (fun b => b.row.pair)).Nodup
  first : ∀ b ∈ s.born, s.Alive b.player → s.identities.committed b.key = some ⟨b.player⟩
  registered : s.events.filter Event.registers = s.born.map Birth.event
  found : ∀ t key p, (s.pc t).found = some (key, p) →
    s.WasBorn p ∧ (s.Alive p → s.identities.committed key = some ⟨p⟩)
  linksTo : ∀ t p, (s.pc t).linksTo = some p → s.WasBorn p

section ForeignKeys

theorem deleteWhere_ref {κ ρ : Type} [DecidableEq κ]
    {C : Table κ Sess ρ} {own : κ → ρ → Uuid} (f : κ → ρ → Bool) {k : κ} (h : C.Free t k) :
    Table.RefStep own s.players C s.players (C.deleteWhere t f k) := by
  unfold Table.deleteWhere
  split
  · exact .deleteChild t k h
  · exact .same

theorem identities_ref (en : s.enabled a) :
    Table.RefStep identityOwner s.players s.identities (s.effect a).players
      (s.effect a).identities := by
  cases a with
  | insertPlayer t _ id => exact .insertParent t id _ en.2.1 en.2.2.1
  | insertIdentity t l id =>
    have hparent : s.players.Shareable t (identityOwner l.key ⟨id⟩) := en.2.2.2
    exact .insertChild t l.key ⟨id⟩ en.2.2.1 hparent
  | linkInsert t k =>
    have hparent : s.players.Shareable t (identityOwner k.key ⟨k.player⟩) := en.2.2.2
    exact .insertChild t k.key ⟨k.player⟩ en.2.2.1 hparent
  | deletePlayer t d => exact .deleteParent t d.player en.2.1 en.2.2.2.1
  | _ => first | exact .same | exact .commit _ | exact .rollback _

theorem sessions_ref (en : s.enabled a) :
    Table.RefStep sessionOwner s.players s.sessions (s.effect a).players
      (s.effect a).sessions := by
  cases a with
  | insertPlayer t _ id => exact .insertParent t id _ en.2.1 en.2.2.1
  | insertSession t l id _ family _ token =>
    exact .insertChild t token (SessionRow.access id family l.now) en.2.2.1 en.2.2.2.1
  | insertAccess t r row _ _ token =>
    exact .insertChild t token (SessionRow.access row.player row.family r.now) en.2.2.1
      en.2.2.2.1
  | killSession _ _ family => exact deleteWhere_ref (fun _ row => row.family == family) en.2.2
  | pruneSession _ now => exact deleteWhere_ref (fun _ row => decide (row.expiresAt ≤ now)) en.2.2
  | deletePlayer t d => exact .deleteParent t d.player en.2.1 en.2.2.2.2.1
  | _ => first | exact .same | exact .commit _ | exact .rollback _

theorem tokens_ref (hh : s.Holds) (en : s.enabled a) :
    Table.RefStep tokenOwner s.players s.refreshTokens (s.effect a).players
      (s.effect a).refreshTokens := by
  cases a with
  | insertPlayer t _ id => exact .insertParent t id _ en.2.1 en.2.2.1
  | insertFamily t l id _ family tok =>
    exact .insertChild t tok (TokenRow.first id family l.now) en.2.2.1 en.2.2.2.1
  | rotate t r row =>
    have hown := hh.tokens t
    rw [en.1 t rfl] at hown
    have hview : s.refreshTokens.view t r.token = some row := by
      rw [view_of_not_holder (Owes.holdsNone hown r.token)]
      exact en.2.2.1
    exact .updateChild t r.token row _ en.2.1 hview rfl
  | insertSuccessor t r row =>
    exact .insertChild t r.successor row.successor en.2.2.2.2.1 en.2.2.2.2.2
  | killToken _ _ family => exact deleteWhere_ref (fun _ row => row.family == family) en.2.2
  | pruneToken _ now => exact deleteWhere_ref (fun _ row => decide (row.expiresAt ≤ now)) en.2.2
  | deletePlayer t d => exact .deleteParent t d.player en.2.1 en.2.2.2.2.2.1
  | _ => first | exact .same | exact .commit _ | exact .rollback _

theorem tickets_ref (en : s.enabled a) :
    Table.RefStep ticketOwner s.players s.tickets (s.effect a).players
      (s.effect a).tickets := by
  cases a with
  | insertPlayer t _ id => exact .insertParent t id _ en.2.1 en.2.2.1
  | beginDelete p ticket => exact .putChild p (s.upsertTicket p ticket) en.2.1 en.2.2.1 en.2.2.2
  | consume t d => exact .deleteChild t d.player en.2.1
  | pruneTicket _ now => exact deleteWhere_ref (fun _ row => decide (row.expiresAt ≤ now)) en.2.2
  | deletePlayer t d => exact .deleteParent t d.player en.2.1 en.2.2.2.2.2.2
  | _ => first | exact .same | exact .commit _ | exact .rollback _

theorem references_reachable {G : State → Act → Prop} (h : system.Reachable G s) :
    s.References := by
  refine h.invariant ?_ ?_
  · exact ⟨refers_empty, refers_empty, refers_empty, refers_empty⟩
  · intro _ _ hr ih _ en
    exact ⟨ih.identities.step (identities_ref en), ih.sessions.step (sessions_ref en),
      ih.tokens.step (tokens_ref (holds_reachable hr) en), ih.tickets.step (tickets_ref en)⟩

end ForeignKeys

section Steps

variable {p : Uuid}

theorem born_step (s : State) (a : Act) :
    (s.effect a).born = s.born ∨
      ∃ t l id disc family tok token, a = .commitLogin t l id (some disc) family tok token ∧
        (s.effect a).born = s.born ++ [⟨id, l.player disc, l.key⟩] := by
  cases a with
  | commitLogin t l id created family tok token =>
    cases created with
    | none => exact .inl (append_nil _)
    | some disc => exact .inr ⟨t, l, id, disc, family, tok, token, rfl, rfl⟩
  | _ => exact .inl rfl

theorem mem_born_step {b : Birth} (h : b ∈ s.born) : b ∈ (s.effect a).born := by
  rcases born_step s a with heq | ⟨_, _, _, _, _, _, _, -, heq⟩
  · rwa [heq]
  · rw [heq]
    exact mem_append_left _ h

theorem WasBorn.step (h : s.WasBorn p) : (s.effect a).WasBorn p := by
  obtain ⟨_, hb, rfl⟩ := mem_map.1 h
  exact mem_map_of_mem (mem_born_step hb)

theorem newPlayer_after (en : s.enabled a) (h : (s.after a).newPlayer = some p) :
    a.before.newPlayer = some p ∨ (p ∉ s.uuids ∧ p ∈ (s.effect a).uuids) := by
  cases a with
  | claimHandle =>
    cases h
    exact .inr ⟨en.2.2.2.2, mem_cons_self⟩
  | _ => first | exact .inl h | cases h

theorem linksTo_after (en : s.enabled a) (h : (s.after a).linksTo = some p) :
    a.before.linksTo = some p ∨ s.WasBorn p := by
  cases a with
  | linkOpen =>
    cases h
    exact .inr en.2
  | _ => first | exact .inl h | cases h

theorem playerByIdentity_eq_some {key : String × String} (h : s.playerByIdentity key = some p) :
    s.identities.committed key = some ⟨p⟩ ∧ s.Alive p := by
  obtain ⟨_, hrow, hp⟩ := bind_eq_some_iff.1 h
  split at hp
  · cases hp
  · rename_i halive
    cases hp
    exact ⟨hrow, halive⟩

theorem found_after {key : String × String} (en : s.enabled a)
    (h : (s.after a).found = some (key, p)) :
    a.before.found = some (key, p) ∨ (s.identities.committed key = some ⟨p⟩ ∧ s.Alive p) := by
  cases a with
  | passwordLogin =>
    cases h
    exact .inr (playerByIdentity_eq_some en.2.2.2.2)
  | loginFound =>
    cases h
    exact .inr (playerByIdentity_eq_some en.2)
  | insertFamily t l id created | insertSession t l id created =>
    cases created with
    | none => exact .inl h
    | some => cases h
  | _ => cases h

/-- The deletion of a player removes it. -/
theorem Holds.not_alive_of_delete {d : Delete} {row : PlayerRow} (hh : s.Holds)
    (en : s.enabled (.commitDelete t d row)) :
    ¬ (s.effect (.commitDelete t d row)).Alive d.player := by
  have hown := hh.players t
  rw [en.1 t rfl] at hown
  exact fun halive => halive (hown.committed_write mem_cons_self)

/-- An identity stays as long as its player. -/
theorem Holds.identity_kept {key : String × String} (hh : s.Holds) (en : s.enabled a)
    (hkey : s.identities.committed key = some ⟨p⟩) (halive : (s.effect a).Alive p) :
    (s.effect a).identities.committed key = some ⟨p⟩ := by
  have hch := hh.identity_change en key
  generalize (s.effect a).identities.committed key = o at hch
  cases hch with
  | same => exact hkey
  | registered t l id disc family tok token hk hnone | linked t k promoted hk hnone =>
    rw [hkey] at hnone
    cases hnone
  | erased _ _ _ _ hrow hplayer =>
    rw [hkey] at hrow
    cases hrow
    cases hplayer
    exact absurd halive (hh.not_alive_of_delete en)

end Steps

section Invariant

variable {p : Uuid}

theorem Births.newPlayer_of_commit {l : Login} {id family : Uuid} {disc tok token : String}
    (en : s.enabled (.commitLogin t l id (some disc) family tok token)) :
    (s.pc t).newPlayer = some id := by
  rw [en.1 t rfl]
  rfl

/-- A player that was born before the step and exists after it existed before. -/
theorem Births.alive_before (h : s.Births) (hh : s.Holds) (en : s.enabled a) (hborn : s.WasBorn p)
    (halive : (s.effect a).Alive p) : s.Alive p := by
  have hch := hh.player_change en p
  unfold Alive at halive
  generalize (s.effect a).players.committed p = o at hch halive
  cases hch with
  | same => exact halive
  | created t => exact absurd hborn (h.fresh t p (newPlayer_of_commit en)).2
  | erased => exact absurd rfl halive

theorem Births.wasBorn_of_alive (h : s.Births) (halive : s.Alive p) : s.WasBorn p := by
  obtain ⟨row, hrow⟩ := ne_none_iff_exists'.1 halive
  obtain ⟨_, hb, rfl, -⟩ := h.players p row hrow
  exact mem_map_of_mem hb

theorem Births.players_step (h : s.Births) (hh : s.Holds) (en : s.enabled a) {row : PlayerRow}
    (hrow : (s.effect a).players.committed p = some row) :
    ∃ b ∈ (s.effect a).born, b.player = p ∧ b.row = row := by
  have hch := hh.player_change en p
  rw [hrow] at hch
  generalize ho : some row = o at hch
  cases hch with
  | same =>
    obtain ⟨b, hb, hp, hr⟩ := h.players p row ho.symm
    exact ⟨b, mem_born_step hb, hp, hr⟩
  | created _ l disc =>
    cases ho
    exact ⟨⟨p, l.player disc, l.key⟩, mem_append_right _ mem_cons_self, rfl, rfl⟩
  | erased => cases ho

theorem Births.fresh_step (h : s.Births) (en : s.enabled a)
    (hnew : ((s.effect a).pc t).newPlayer = some p) :
    p ∈ (s.effect a).uuids ∧ ¬ (s.effect a).WasBorn p := by
  have hused : p ∈ (s.effect a).uuids ∧ ¬ s.WasBorn p := by
    rcases pc_read Pc.newPlayer en (newPlayer_after en) hnew with hold | ⟨-, hdraw, hmem⟩
    · exact ⟨mem_uuids_step (h.fresh t p hold).1, (h.fresh t p hold).2⟩
    · exact ⟨hmem, fun hb => hdraw (h.drawn p hb)⟩
  refine ⟨hused.1, fun hb => ?_⟩
  rcases born_step s a with heq | ⟨u, l, id, disc, family, tok, token, rfl, heq⟩
  · rw [WasBorn, heq] at hb
    exact hused.2 hb
  · rw [WasBorn, heq, map_append, mem_append] at hb
    rcases hb with hb | hb
    · exact hused.2 hb
    · cases mem_singleton.1 hb
      -- the player born in this step belongs to the session that has just ended
      by_cases hu : u = t
      · subst hu
        rw [pc_own rfl] at hnew
        cases hnew
      · have ha : (Act.commitLogin u l id (some disc) family tok token).actor ≠ some t :=
          fun he => hu (some.inj he)
        rw [pc_other ha] at hnew
        exact hu (h.apart u t id (newPlayer_of_commit en) hnew)

theorem Births.apart_step (h : s.Births) (en : s.enabled a) {u : Sess}
    (ht : ((s.effect a).pc t).newPlayer = some p) (hu : ((s.effect a).pc u).newPlayer = some p) :
    t = u :=
  pc_apart Pc.newPlayer en (newPlayer_after en) (fun t hnew => (h.fresh t p hnew).1)
    (fun t u => h.apart t u p) ht hu

/-- A handle stays in the registry. -/
theorem Holds.handle_kept {pair : String × String} (hh : s.Holds) (en : s.enabled a)
    (h : s.handles.committed pair ≠ none) : (s.effect a).handles.committed pair ≠ none := by
  have hch := hh.handle_change en pair
  generalize (s.effect a).handles.committed pair = o at hch
  cases hch with
  | same => exact h
  | claimed | reserved => exact some_ne_none _

/-- What a commit of a new player writes. -/
theorem Holds.created {l : Login} {id family : Uuid} {disc tok token : String} (hh : s.Holds)
    (en : s.enabled (.commitLogin t l id (some disc) family tok token)) :
    s.handles.committed (l.player disc).pair = none ∧
      (s.handles.commit t).committed (l.player disc).pair = some ⟨some id⟩ ∧
      (s.identities.commit t).committed l.key = some ⟨id⟩ := by
  have hpc : s.pc t = .login l (.complete id (some disc) family tok token) := en.1 t rfl
  have hhandle := hh.handles t
  have hident := hh.identities t
  rw [hpc] at hhandle hident
  exact ⟨hhandle.based _ mem_cons_self, hhandle.committed_write mem_cons_self,
    hident.committed_write mem_cons_self⟩

theorem Births.born_step_nodup (h : s.Births) (hh : s.Holds) (en : s.enabled a) :
    ((s.effect a).born.map Birth.player).Nodup ∧
      ((s.effect a).born.map (fun b => b.row.pair)).Nodup := by
  rcases born_step s a with heq | ⟨t, _, _, _, _, _, _, rfl, heq⟩
  · rw [heq]
    exact ⟨h.nodup, h.pairs⟩
  · rw [heq, map_append, map_append, nodup_append, nodup_append]
    refine ⟨⟨h.nodup, nodup_singleton _, ?_⟩, h.pairs, nodup_singleton _, ?_⟩
    · intro _ hq _ hq'
      cases mem_singleton.1 hq'
      rintro rfl
      exact (h.fresh t _ (newPlayer_of_commit en)).2 hq
    · intro _ hpair _ hpair'
      cases mem_singleton.1 hpair'
      rintro rfl
      obtain ⟨b, hb, hbp⟩ := mem_map.1 hpair
      refine h.handles b hb ?_
      rw [hbp]
      exact (hh.created en).1

/-- What is known of all births is known after a step if the step keeps it for the
old ones and it holds for the new one. -/
theorem forall_born_step {P : Birth → Prop} (hold : ∀ b ∈ s.born, P b)
    (hnew : ∀ t l id disc family tok token,
      a = .commitLogin t l id (some disc) family tok token → P ⟨id, l.player disc, l.key⟩) :
    ∀ b ∈ (s.effect a).born, P b := by
  intro b hb
  rcases born_step s a with heq | ⟨t, l, id, disc, family, tok, token, ha, heq⟩
  · rw [heq] at hb
    exact hold b hb
  · rw [heq, mem_append] at hb
    rcases hb with hb | hb
    · exact hold b hb
    · cases mem_singleton.1 hb
      exact hnew t l id disc family tok token ha

theorem Births.registered_step (h : s.Births) :
    (s.effect a).events.filter Event.registers = (s.effect a).born.map Birth.event := by
  have hsame : ∀ l : List Event, l.filter Event.registers = [] →
      (s.events ++ l).filter Event.registers = s.born.map Birth.event := by
    intro l hl
    rw [filter_append, hl, append_nil, h.registered]
  cases a with
  | commitLogin t l id created =>
    show (s.events ++ _).filter Event.registers = (s.born ++ _).map Birth.event
    rw [filter_append, map_append, h.registered]
    cases created with
    | none | some => rfl
  | commitLink t k outcome promoted =>
    cases promoted with
    | true | false => exact hsame _ rfl
  | commitDelete => exact hsame _ rfl
  | _ => exact h.registered

theorem Births.step (h : s.Births) (hh : s.Holds) (en : s.enabled a) : (s.effect a).Births where
  players := fun _ _ hrow => h.players_step hh en hrow
  drawn := by
    intro p hb
    rcases born_step s a with heq | ⟨t, _, id, _, _, _, _, rfl, heq⟩
    · rw [WasBorn, heq] at hb
      exact mem_uuids_step (h.drawn p hb)
    · rw [WasBorn, heq, map_append, mem_append] at hb
      rcases hb with hb | hb
      · exact mem_uuids_step (h.drawn p hb)
      · cases mem_singleton.1 hb
        exact mem_uuids_step (h.fresh t id (newPlayer_of_commit en)).1
  fresh := fun _ _ hnew => h.fresh_step en hnew
  apart := fun _ _ _ ht hu => h.apart_step en ht hu
  nodup := (h.born_step_nodup hh en).1
  handles := by
    refine forall_born_step (fun b hb => hh.handle_kept en (h.handles b hb)) ?_
    rintro t l _ disc _ _ _ rfl hnone
    have hnew := (hh.created en).2.1
    rw [show (s.handles.commit t).committed (l.player disc).pair = none from hnone] at hnew
    cases hnew
  pairs := (h.born_step_nodup hh en).2
  first := by
    refine forall_born_step (fun b hb halive => ?_) ?_
    · have hbefore := h.alive_before hh en (mem_map_of_mem hb) halive
      exact hh.identity_kept en (h.first b hb hbefore) halive
    · rintro _ _ _ _ _ _ _ rfl -
      exact (hh.created en).2.2
  registered := h.registered_step
  found := by
    intro t key p hfound
    have hold : s.WasBorn p ∧ (s.Alive p → s.identities.committed key = some ⟨p⟩) := by
      rcases pc_read Pc.found en (found_after en) hfound with hold | ⟨-, hkey, halive⟩
      · exact h.found t key p hold
      · exact ⟨h.wasBorn_of_alive halive, fun _ => hkey⟩
    refine ⟨hold.1.step, fun halive => ?_⟩
    exact hh.identity_kept en (hold.2 (h.alive_before hh en hold.1 halive)) halive
  linksTo := by
    intro t p hlink
    rcases pc_read Pc.linksTo en (linksTo_after en) hlink with hold | ⟨-, hborn⟩
    · exact (h.linksTo t p hold).step
    · exact hborn.step

theorem births_start : State.start.Births where
  players := by
    intro _ _ hrow
    cases hrow
  drawn := by
    intro _ hb
    cases hb
  fresh := by
    intro _ _ hnew
    cases hnew
  apart := by
    intro _ _ _ ht
    cases ht
  nodup := nodup_nil
  handles := by
    intro _ hb
    cases hb
  pairs := nodup_nil
  first := by
    intro _ hb
    cases hb
  registered := rfl
  found := by
    intro _ _ _ hfound
    cases hfound
  linksTo := by
    intro _ _ hlink
    cases hlink

theorem births_reachable {G : State → Act → Prop} (h : system.Reachable G s) : s.Births :=
  h.invariant births_start (fun _ _ hr ih _ en => ih.step (holds_reachable hr) en)

/-- Two live players have different first identities. -/
theorem Births.first_inj {b b' : Birth} (h : s.Births) (hb : b ∈ s.born) (hb' : b' ∈ s.born)
    (hkey : b.key = b'.key) (halive : s.Alive b.player) (halive' : s.Alive b'.player) : b = b' := by
  have hrow := h.first b hb halive
  rw [hkey, h.first b' hb' halive'] at hrow
  exact inj_on_of_nodup_map h.nodup hb hb'
    (congrArg IdentityRow.player (some.inj hrow)).symm

end Invariant

end State
end Swarog.Accounts
