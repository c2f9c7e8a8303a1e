import Swarog.Accounts.Service
import Swarog.Pg.Holding

/-!
# What the sessions of the accounts service hold

For every table, the program point of a session determines its uncommitted
versions.  A login holds the rows of the player it creates, of the family and of
the access token it has inserted; a rotation holds the consumed token and its
successor; revocations, deletions and the prune hold deletions.

`Holds` says so for all sessions.  It is kept by every step: the statements of a
session move it to the holding of the next program point, and the statements of
the others cannot touch what it holds.
-/

namespace Swarog.Accounts

open Pg Table

section Progress

/-- The player whose handle a login has claimed, with the discriminator. -/
def LoginStage.handle : LoginStage → Option (Uuid × String)
  | .claimed id disc | .inserted id disc | .identified id disc => some (id, disc)
  | .issuing id created | .issued id created _ _ | .complete id created _ _ _ =>
    created.map (fun disc => (id, disc))
  | _ => none

/-- The player whose row a login has inserted. -/
def LoginStage.player : LoginStage → Option (Uuid × String)
  | .inserted id disc | .identified id disc => some (id, disc)
  | .issuing id created | .issued id created _ _ | .complete id created _ _ _ =>
    created.map (fun disc => (id, disc))
  | _ => none

/-- The player whose first identity a login has inserted. -/
def LoginStage.identity : LoginStage → Option (Uuid × String)
  | .identified id disc => some (id, disc)
  | .issuing id created | .issued id created _ _ | .complete id created _ _ _ =>
    created.map (fun disc => (id, disc))
  | _ => none

/-- The family whose first token a login has inserted. -/
def LoginStage.family : LoginStage → Option (Uuid × Uuid × String)
  | .issued id _ family tok | .complete id _ family tok _ => some (id, family, tok)
  | _ => none

/-- The access token that a login has inserted. -/
def LoginStage.access : LoginStage → Option (Uuid × Uuid × String)
  | .complete id _ family _ token => some (id, family, token)
  | _ => none

/-- The link has inserted its identity. -/
def LinkStage.identity : LinkStage → Bool
  | .inserted _ => true
  | .complete outcome _ => outcome == .linked
  | _ => false

/-- The deletion has consumed its ticket. -/
def DeleteStage.ticket : DeleteStage → Bool
  | .consumed | .named _ | .reserved _ | .receipted _ | .erased _ | .emitted _ => true
  | _ => false

/-- The deletion has reserved the handle of the row. -/
def DeleteStage.handle : DeleteStage → Option PlayerRow
  | .reserved row | .receipted row | .erased row | .emitted row => some row
  | _ => none

/-- The deletion has written the receipt of the row. -/
def DeleteStage.receipt : DeleteStage → Option PlayerRow
  | .receipted row | .erased row | .emitted row => some row
  | _ => none

/-- The deletion has deleted the player. -/
def DeleteStage.player : DeleteStage → Bool
  | .erased _ | .emitted _ => true
  | _ => false

end Progress

namespace Pc

section Holdings

def playersHeld : Pc → Holding Uuid PlayerRow
  | .login l st => .writing (st.player.map (fun c => Write.insert c.1 (l.player c.2))).toList
  | .delete d st => .writing (if st.player then [Write.delete d.player (fun _ => True)] else [])
  | _ => .nothing

def handlesHeld : Pc → Holding (String × String) HandleRow
  | .login l st =>
    .writing (st.handle.map (fun c => Write.insert (l.player c.2).pair ⟨some c.1⟩)).toList
  | .delete _ st => .writing (st.handle.map (fun row => Write.upsert row.pair ⟨none⟩)).toList
  | _ => .nothing

def identitiesHeld : Pc → Holding (String × String) IdentityRow
  | .login l st => .writing (st.identity.map (fun c => Write.insert l.key ⟨c.1⟩)).toList
  | .link k st => .writing (if st.identity then [Write.insert k.key ⟨k.player⟩] else [])
  | .delete d st => if st.player then .deleting (fun _ row => row.player = d.player) else .nothing
  | _ => .nothing

def receiptsHeld : Pc → Holding Uuid ReceiptRow
  | .delete d st =>
    .writing (st.receipt.map (fun row => Write.insert d.player (d.receipt row))).toList
  | _ => .nothing

def ticketsHeld : Pc → Holding Uuid TicketRow
  | .delete d st =>
    .writing (if st.ticket then
      [Write.delete d.player (fun row => State.consumable d row = true)] else [])
  | .prune now (.tickets _) => .deleting (fun _ row => row.expiresAt ≤ now)
  | _ => .nothing

def sessionsHeld : Pc → Holding String SessionRow
  | .login l st =>
    .writing (st.access.map (fun c =>
      Write.insert c.2.2 (SessionRow.access c.1 c.2.1 l.now))).toList
  | .refresh r (.answered row _ _ token) =>
    .writing [Write.insert token (SessionRow.access row.player row.family r.now)]
  | .refresh _ (.killingSessions family _) => .deleting (fun _ row => row.family = family)
  | .delete d st => if st.player then .deleting (fun _ row => row.player = d.player) else .nothing
  | .prune now (.sessions _) | .prune now (.tokens _) | .prune now (.tickets _) =>
    .deleting (fun _ row => row.expiresAt ≤ now)
  | _ => .nothing

/-- The two rows of a rotation. -/
def rotationWrites (r : Refresh) (row : TokenRow) : List (Write String TokenRow) :=
  [Write.update r.token row (row.consume r.now r.successor), Write.insert r.successor row.successor]

def tokensHeld : Pc → Holding String TokenRow
  | .login l st =>
    .writing (st.family.map (fun c => Write.insert c.2.2 (TokenRow.first c.1 c.2.1 l.now))).toList
  | .refresh r (.rotated row) => .writing [Write.update r.token row (row.consume r.now r.successor)]
  | .refresh r (.continuing row _ rotated) | .refresh r (.answered row _ rotated _) =>
    .writing (if rotated then rotationWrites r row else [])
  | .refresh _ (.killing family _) | .refresh _ (.killingSessions family _) =>
    .deleting (fun _ row => row.family = family)
  | .delete d st => if st.player then .deleting (fun _ row => row.player = d.player) else .nothing
  | .prune now (.tokens _) | .prune now (.tickets _) => .deleting (fun _ row => row.expiresAt ≤ now)
  | _ => .nothing

end Holdings

end Pc

namespace State

variable {s : State} {a : Act} {t : Sess}

section Control

theorem pc_own (ha : a.actor = some t) : (s.effect a).pc t = s.after a := by
  show s.advance a t = s.after a
  rw [advance, ha]
  exact Function.update_self t _ _

/-- A step leaves the program points of the other sessions alone. -/
theorem pc_other (ha : a.actor ≠ some t) : (s.effect a).pc t = s.pc t := by
  show s.advance a t = s.pc t
  unfold advance
  cases hu : a.actor with
  | none => rfl
  | some u =>
    have hne : t ≠ u := fun he => ha (by rw [hu, he])
    exact Function.update_of_ne hne _ _

/-- What is read off the program point of a session after a step was there before,
unless the step has brought it there. -/
theorem pc_read {β : Type} (X : Pc → Option β) {b : β} {Q : Prop} (en : s.enabled a)
    (hafter : X (s.after a) = some b → X a.before = some b ∨ Q)
    (h : X ((s.effect a).pc t) = some b) : X (s.pc t) = some b ∨ (a.actor = some t ∧ Q) := by
  by_cases ha : a.actor = some t
  · rw [pc_own ha] at h
    rcases hafter h with hold | hq
    · rw [en.1 t ha]
      exact .inl hold
    · exact .inr ⟨ha, hq⟩
  · rw [pc_other ha] at h
    exact .inl h

/-- Ids that no two sessions have, if a step brings one only where nobody has it. -/
theorem pc_apart {β : Type} (X : Pc → Option β) {b : β} {used Q : Prop} {u : Sess}
    (en : s.enabled a) (hafter : X (s.after a) = some b → X a.before = some b ∨ (¬ used ∧ Q))
    (hused : ∀ t, X (s.pc t) = some b → used)
    (hapart : ∀ t u, X (s.pc t) = some b → X (s.pc u) = some b → t = u)
    (ht : X ((s.effect a).pc t) = some b) (hu : X ((s.effect a).pc u) = some b) : t = u := by
  rcases pc_read X en hafter ht with hto | ⟨hta, hnew, -⟩
  · rcases pc_read X en hafter hu with huo | ⟨-, hnew, -⟩
    · exact hapart t u hto huo
    · exact absurd (hused t hto) hnew
  · rcases pc_read X en hafter hu with huo | ⟨hua, -⟩
    · exact absurd (hused u huo) hnew
    · rw [hta] at hua
      exact Option.some.inj hua

/-- What holds at the program points of all sessions is kept if the step brings
its own session to a good one and does not spoil it for the others. -/
theorem pc_invariant {P : State → Sess → Pc → Prop}
    (hother : ∀ u, a.actor ≠ some u → P s u (s.pc u) → P (s.effect a) u (s.pc u))
    (hown : ∀ u, a.actor = some u → P (s.effect a) u (s.after a)) (h : ∀ u, P s u (s.pc u))
    (u : Sess) : P (s.effect a) u ((s.effect a).pc u) := by
  by_cases ha : a.actor = some u
  · rw [pc_own ha]
    exact hown u ha
  · rw [pc_other ha]
    exact hother u ha (h u)

end Control

/-- The action may change committed rows: it is a `COMMIT`, or `begin_delete`. -/
def publishes : Act → Bool
  | .commitLogin .. | .commitLink .. | .commitRefresh .. | .commitRevoke .. | .commitDeny ..
  | .beginDelete .. | .commitDelete .. | .commitPrune .. => true
  | _ => false

section Tables

variable {κ ρ : Type} [DecidableEq κ]

/-- What an action does to a table, by the program points before and after it. -/
def Does (s : State) (a : Act) (T : State → Table κ Sess ρ) (H : Pc → Holding κ ρ) : Prop :=
  (T s).Acts (H a.before) a.actor (publishes a) (T (s.effect a)) (H (s.after a))

variable {T : State → Table κ Sess ρ} {H : Pc → Holding κ ρ}

theorem Does.undisturbed (h : s.Does a T H) (ht : a.actor ≠ some t) :
    Table.Undisturbed t (T s) (T (s.effect a)) :=
  (Table.Acts.step h).undisturbed ht

/-- What the sessions hold follows their program points. -/
theorem Does.owes (h : s.Does a T H) (en : s.enabled a) (ho : ∀ t, (T s).Owes t (H (s.pc t))) :
    ∀ t, (T (s.effect a)).Owes t (H ((s.effect a).pc t)) := by
  refine pc_invariant (P := fun s t pc => (T s).Owes t (H pc)) ?_ ?_ ho
  · intro t ht howes
    exact howes.of_undisturbed (h.undisturbed ht)
  · intro t ht
    unfold Does at h
    rw [ht] at h
    exact h.owes (en.1 t ht ▸ ho t)

/-- The committed rows change where the action publishes what its session holds. -/
theorem Does.change {P : Option ρ → Prop} {k : κ} (h : s.Does a T H) (en : s.enabled a)
    (ho : ∀ t, (T s).Owes t (H (s.pc t))) (hsame : P ((T s).committed k))
    (hpub : publishes a = true → (∀ t ∈ a.actor, (T s).Owes t (H a.before)) →
      P ((T (s.effect a)).committed k)) : P ((T (s.effect a)).committed k) := by
  cases hq : publishes a with
  | true => exact hpub hq (fun t ht => en.1 t ht ▸ ho t)
  | false =>
    rw [h.committed hq k]
    exact hsame

/-- The cascade of a deletion on a table in which the session holds nothing. -/
theorem cascade_acts {T : Table κ Sess ρ} {own : κ → ρ → Uuid} {p : Uuid} (h : T.Unshared own t p) :
    T.Acts .nothing (some t) false (T.cascade own t p) (.deleting (fun k r => own k r = p)) :=
  .eraseAll (fun _ hk => h.free_of_child hk) rfl (fun _ _ hf => hf.elim)
    (fun _ _ hown => beq_iff_eq.1 hown)

end Tables

/-- What every session holds in every table. -/
structure Holds (s : State) : Prop where
  players : ∀ t, s.players.Owes t (s.pc t).playersHeld
  handles : ∀ t, s.handles.Owes t (s.pc t).handlesHeld
  tickets : ∀ t, s.tickets.Owes t (s.pc t).ticketsHeld
  receipts : ∀ t, s.receipts.Owes t (s.pc t).receiptsHeld
  identities : ∀ t, s.identities.Owes t (s.pc t).identitiesHeld
  sessions : ∀ t, s.sessions.Owes t (s.pc t).sessionsHeld
  tokens : ∀ t, s.refreshTokens.Owes t (s.pc t).tokensHeld

section Own

theorem not_mem_writes {κ ρ : Type} {k : κ} : ∀ w ∈ ([] : List (Write κ ρ)), w.key ≠ k := by
  intro w hw
  cases hw

theorem Holds.players_does (h : s.Holds) (en : s.enabled a) :
    s.Does a State.players Pc.playersHeld := by
  cases a with
  | insertPlayer => exact .insert en.2.1 not_mem_writes en.2.2.1
  | deletePlayer t d =>
    have ho : s.players.Owes t (Pc.delete d _).playersHeld := en.1 t rfl ▸ h.players t
    obtain ⟨r, hr⟩ := Option.ne_none_iff_exists'.1 en.2.2.1
    exact .write (.delete d.player (fun _ => True)) en.2.1 not_mem_writes
      ⟨r, ho.committed_of_view not_mem_writes hr, trivial⟩
  | _ => first | exact .same | exact .commit | exact .rollback

section

variable (en : s.enabled a)
include en

theorem handles_does : s.Does a State.handles Pc.handlesHeld := by
  cases a with
  | claimHandle => exact .insert en.2.2.1 not_mem_writes en.2.2.2.1
  | reserveHandle t d row =>
    refine .write (.upsert row.pair ⟨none⟩) en.2.2 ?_ trivial
    exact not_mem_writes
  | _ => first | exact .same | exact .commit | exact .rollback

theorem receipts_does : s.Does a State.receipts Pc.receiptsHeld := by
  cases a with
  | insertReceipt => exact .insert en.2.1 not_mem_writes en.2.2
  | _ => first | exact .same | exact .commit | exact .rollback

theorem identities_does : s.Does a State.identities Pc.identitiesHeld := by
  cases a with
  | insertIdentity | linkInsert => exact .insert en.2.1 not_mem_writes en.2.2.1
  | deletePlayer => exact cascade_acts en.2.2.2.1
  | _ => first | exact .same | exact .commit | exact .rollback

theorem sessions_does : s.Does a State.sessions Pc.sessionsHeld := by
  cases a with
  | insertSession | insertAccess => exact .insert en.2.1 not_mem_writes en.2.2.1
  | killSessions | pruneSessions => exact .announce (fun _ _ hf => hf.elim)
  | killSession t r family =>
    refine .sweep (fun _ row => row.family == family) en.2.2 ?_
    exact fun _ hf => beq_iff_eq.1 hf
  | deletePlayer => exact cascade_acts en.2.2.2.2.1
  | pruneSession t now =>
    refine .sweep (fun _ row => decide (row.expiresAt ≤ now)) en.2.2 ?_
    exact fun _ hf => of_decide_eq_true hf
  | _ => first | exact .same | exact .commit | exact .rollback

theorem tokens_does : s.Does a State.refreshTokens Pc.tokensHeld := by
  cases a with
  | insertFamily => exact .insert en.2.1 not_mem_writes en.2.2.1
  | rotate t r row =>
    exact .write (.update r.token row (row.consume r.now r.successor)) en.2.1 not_mem_writes
      en.2.2.1
  | insertSuccessor t r =>
    refine .insert en.2.2.1 ?_ en.2.2.2.2.1
    -- the successor is not the presented token, which this session has consumed
    rintro w hw hkey
    cases List.mem_singleton.1 hw
    have hsame : r.token = r.successor := hkey
    have hview := en.2.2.2.1
    rw [← hsame, en.2.1] at hview
    cases hview
  | killTokens | pruneTokens => exact .announce (fun _ _ hf => hf.elim)
  | killToken t r family =>
    refine .sweep (fun _ row => row.family == family) en.2.2 ?_
    exact fun _ hf => beq_iff_eq.1 hf
  | deletePlayer => exact cascade_acts en.2.2.2.2.2.1
  | pruneToken t now =>
    refine .sweep (fun _ row => decide (row.expiresAt ≤ now)) en.2.2 ?_
    exact fun _ hf => of_decide_eq_true hf
  | _ => first | exact .same | exact .commit | exact .rollback

end

/-- The consumed ticket is all that the cascade could delete. -/
theorem tickets_cascade {p : Uuid} (h : s.tickets.pending p = some (t, none)) :
    s.tickets.cascade ticketOwner t p = s.tickets := by
  have hnil : s.tickets.childrenOf ticketOwner t p = [] := by
    refine List.eq_nil_iff_forall_not_mem.2 ?_
    intro k hk
    obtain ⟨r, hview, hown⟩ := mem_childrenOf.1 hk
    have hown : k = p := hown
    rw [hown, view_of_pending_self h] at hview
    cases hview
  rw [Table.cascade, hnil]
  rfl

theorem Holds.tickets_does (h : s.Holds) (en : s.enabled a) :
    s.Does a State.tickets Pc.ticketsHeld := by
  cases a with
  | beginDelete => exact .put en.2.1
  | consume t d row =>
    exact .write (.delete d.player (fun row => consumable d row = true)) en.2.1 not_mem_writes
      ⟨row, en.2.2.1, en.2.2.2⟩
  | deletePlayer t d row =>
    have hpc : s.pc t = .delete d (.receipted row) := en.1 t rfl
    have hsame : s.tickets.cascade ticketOwner t d.player = s.tickets := by
      refine tickets_cascade
        ((h.tickets t).held (.delete d.player (fun row => consumable d row = true)) ?_)
      rw [hpc]
      exact List.mem_singleton_self _
    show s.tickets.Acts _ _ _ (s.tickets.cascade ticketOwner t d.player) _
    rw [hsame]
    exact .same
  | pruneTickets => exact .announce (fun _ _ hf => hf.elim)
  | pruneTicket t now =>
    refine .sweep (fun _ row => decide (row.expiresAt ≤ now)) en.2.2 ?_
    exact fun _ hf => of_decide_eq_true hf
  | _ => first | exact .same | exact .commit | exact .rollback

end Own

theorem Holds.step (h : s.Holds) (en : s.enabled a) : (s.effect a).Holds where
  players := (h.players_does en).owes en h.players
  handles := (handles_does en).owes en h.handles
  tickets := (h.tickets_does en).owes en h.tickets
  receipts := (receipts_does en).owes en h.receipts
  identities := (identities_does en).owes en h.identities
  sessions := (sessions_does en).owes en h.sessions
  tokens := (tokens_does en).owes en h.tokens

theorem holds_start : State.start.Holds :=
  ⟨fun _ => owes_empty _, fun _ => owes_empty _, fun _ => owes_empty _,
    fun _ => owes_empty _, fun _ => owes_empty _, fun _ => owes_empty _,
    fun _ => owes_empty _⟩

theorem holds_reachable {G : State → Act → Prop} (h : system.Reachable G s) : s.Holds :=
  h.invariant holds_start (fun _ _ _ ih _ en => ih.step en)

end State
end Swarog.Accounts
