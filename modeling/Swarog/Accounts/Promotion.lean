import Swarog.Accounts.Registry

/-!
# One player per identity, one promotion per player

A pair of provider and subject has one row, and that row refers to an existing
player.  Concurrent first logins are ordered by the lock of the pair, or by the
slot of its row: all but one find the player that the other has created.

Whether a link promotes its player is decided from a read before the insert.  The
read stays true until the link commits, because whoever changes the identities of
an existing player holds the lock of that player (`Seen`).  Hence `player.promoted`
is appended exactly when a player that had no identity but guest ones gets another
one, and never twice.
-/

namespace Swarog.Accounts

open Pg Function List

/-- The event of the promotion of `p`. -/
def Event.promotes (p : Uuid) : Event → Bool
  | .promoted q _ _ => q == p
  | _ => false

/-- The player lock that a session holds. -/
def Pc.playerLock : Pc → Option Int
  | .link _ .opened | .delete _ .opened => none
  | .link k _ => some (playerLockKey k.player.text)
  | .delete d _ => some (playerLockKey d.player.text)
  | _ => none

namespace State

variable {s : State} {a : Act} {t u : Sess} {p : Uuid}

/-- `p` owns an identity that is not a guest's. -/
def HasReal (s : State) (p : Uuid) : Prop :=
  ∃ key : String × String, key.1 ≠ guest ∧ s.identities.committed key = some ⟨p⟩

/-- The player locks are held by the sessions that have taken them. -/
def Guarded (s : State) : Prop := ∀ t key, (s.pc t).playerLock = some key → s.locks key = some t

/-- What a link has read, or decided, is still the case. -/
def Seen (s : State) : Pc → Prop
  | .link k (.read hadReal) | .link k (.absent hadReal) | .link k (.inserted hadReal) =>
    hadReal = true ↔ s.HasReal k.player
  | .link k (.complete .linked promoted) =>
    promoted = true ↔ ¬ s.HasReal k.player ∧ k.provider ≠ guest
  | .link _ (.complete .alreadyLinked promoted) => promoted = false
  | _ => True

theorem hasRealIdentity_iff : s.hasRealIdentity p = true ↔ s.HasReal p := by
  simp only [hasRealIdentity, any_eq_true, Bool.and_eq_true, bne_iff_ne,
    Option.any_eq_true, beq_iff_eq]
  constructor
  · rintro ⟨key, -, hreal, _, hrow, rfl⟩
    exact ⟨key, hreal, hrow⟩
  · rintro ⟨key, hreal, hrow⟩
    exact ⟨key, Table.mem_keys_of_committed hrow, hreal, ⟨p⟩, hrow, rfl⟩

section Locks

/-- A lock stays with its session while the others move. -/
theorem locks_other {key : Int} (en : s.enabled a) (ha : a.actor ≠ some u)
    (h : s.locks key = some u) : (s.effect a).locks key = some u := by
  have hne : ∀ t, a.actor = some t → u ≠ t := fun t ht he => ha (he ▸ ht)
  cases a with
  | loginLock t | lockPlayer t | lockIdentity t | deleteLock t =>
    exact Locks.apart_take en.2 key u (hne t rfl) h
  | _ => first | exact h | exact Locks.apart_release key u (hne _ rfl) h

theorem guarded_own (h : s.Guarded) (en : s.enabled a) (ha : a.actor = some t) {key : Int}
    (hkey : (s.after a).playerLock = some key) : (s.effect a).locks key = some t := by
  have hheld : a.before.playerLock = some key → s.locks key = some t :=
    fun hb => h t key (by rw [en.1 t ha]; exact hb)
  cases a with
  | lockPlayer | deleteLock =>
    cases ha
    cases hkey
    exact Locks.take_self
  | lockIdentity u k =>
    -- the identity lock may be the very same key
    cases ha
    exact Locks.take_of_held (hheld hkey)
  | _ => first | (cases hkey; done) | exact hheld hkey

theorem guarded_reachable {G : State → Act → Prop} (h : system.Reachable G s) : s.Guarded := by
  refine h.invariant ?_ ?_
  · intro _ _ hkey
    cases hkey
  · intro s _ _ ih _ en t
    refine pc_invariant (P := fun s t pc => ∀ key, pc.playerLock = some key → s.locks key = some t)
      ?_ ?_ ih t
    · exact fun u ha hu key hkey => locks_other en ha (hu key hkey)
    · exact fun u ha key hkey => guarded_own ih en ha hkey

/-- Two sessions do not hold the lock of one player. -/
theorem Guarded.apart {key : Int} (h : s.Guarded) (ht : (s.pc t).playerLock = some key)
    (hu : (s.pc u).playerLock = some key) : t = u := by
  have hlock := h t key ht
  rw [h u key hu] at hlock
  exact (Option.some.inj hlock).symm

end Locks

section Reads

/-- The step writes the identities of `p`. -/
def Rewrites (p : Uuid) : Act → Prop
  | .commitLogin _ _ id (some _) _ _ _ => id = p
  | .commitLink _ k .linked _ => k.player = p
  | .commitDelete _ d _ => d.player = p
  | _ => False

theorem Holds.hasReal_step (hh : s.Holds) (en : s.enabled a) (hne : ¬ Rewrites p a) :
    (s.effect a).HasReal p ↔ s.HasReal p := by
  have hrow : ∀ key, (s.effect a).identities.committed key = some ⟨p⟩ ↔
      s.identities.committed key = some ⟨p⟩ := by
    intro key
    have hch := hh.identity_change en key
    generalize (s.effect a).identities.committed key = o at hch
    cases hch with
    | same => exact Iff.rfl
    | registered t l id disc family tok token hk hnone | linked t k promoted hk hnone =>
      rw [hnone]
      simp only [Option.some.injEq, IdentityRow.mk.injEq, reduceCtorEq, iff_false]
      exact hne
    | erased t d prow row hrow hplayer =>
      rw [hrow]
      simp only [reduceCtorEq, Option.some.injEq, false_iff]
      rintro rfl
      exact hne hplayer.symm
  exact exists_congr (fun key => and_congr_right (fun _ => hrow key))

/-- Who writes the identities of an existing player holds its lock. -/
theorem Births.playerLock_of_rewrites (h : s.Births) (en : s.enabled a) (hborn : s.WasBorn p)
    (hw : Rewrites p a) :
    ∃ t, a.actor = some t ∧ (s.pc t).playerLock = some (playerLockKey p.text) := by
  cases a with
  | commitLogin t l id created =>
    cases created with
    | none => exact hw.elim
    | some =>
      cases hw
      exact absurd hborn (h.fresh t _ (Births.newPlayer_of_commit en)).2
  | commitLink t k outcome =>
    cases outcome with
    | linked =>
      cases hw
      exact ⟨t, rfl, by rw [en.1 t rfl]; rfl⟩
    | alreadyLinked => exact hw.elim
  | commitDelete t =>
    cases hw
    exact ⟨t, rfl, by rw [en.1 t rfl]; rfl⟩
  | _ => exact hw.elim

/-- While a session holds the lock of a player, no other one changes whether the
player has a real identity. -/
theorem hasReal_other (hg : s.Guarded) (hb : s.Births) (hh : s.Holds) (en : s.enabled a)
    (ha : a.actor ≠ some u) (hborn : s.WasBorn p)
    (hlock : (s.pc u).playerLock = some (playerLockKey p.text)) :
    (s.effect a).HasReal p ↔ s.HasReal p := by
  refine hh.hasReal_step en (fun hw => ?_)
  obtain ⟨_, ht, hlock'⟩ := hb.playerLock_of_rewrites en hborn hw
  cases hg.apart hlock' hlock
  exact ha ht

theorem seen_other (h : s.Seen (s.pc u)) (hg : s.Guarded) (hb : s.Births) (hh : s.Holds)
    (en : s.enabled a) (ha : a.actor ≠ some u) : (s.effect a).Seen (s.pc u) := by
  cases hpc : s.pc u with
  | link k st =>
    rw [hpc] at h
    have hborn : s.WasBorn k.player := hb.linksTo u k.player (by rw [hpc]; rfl)
    have hreal : st ≠ .opened → ((s.effect a).HasReal k.player ↔ s.HasReal k.player) := by
      intro hst
      refine hasReal_other hg hb hh en ha hborn ?_
      rw [hpc]
      cases st with
      | opened => exact absurd rfl hst
      | _ => rfl
    cases st with
    | read | absent | inserted => exact h.trans (hreal (by simp)).symm
    | complete outcome =>
      cases outcome with
      | linked => exact h.trans (and_congr_left' (not_congr (hreal (by simp)).symm))
      | alreadyLinked => exact h
    | _ => trivial
  | _ => trivial

theorem seen_own (h : s.Seen a.before) (hh : s.Holds) (en : s.enabled a) :
    (s.effect a).Seen (s.after a) := by
  have hreal : ∀ q, ¬ Rewrites q a → ((s.effect a).HasReal q ↔ s.HasReal q) :=
    fun q hne => hh.hasReal_step en hne
  cases a with
  | readReal t k =>
    show s.hasRealIdentity k.player = true ↔ _
    rw [hasRealIdentity_iff, hreal _ id]
  | linkAlready => rfl
  | linkAbsent | linkInsert => exact h.trans (hreal _ id).symm
  | linkEmit t k hadReal =>
    show (!hadReal && k.provider != guest) = true ↔ _
    rw [hreal _ id, ← show hadReal = true ↔ s.HasReal k.player from h]
    simp
  | _ => trivial

theorem seen_reachable {G : State → Act → Prop} (h : system.Reachable G s) (t : Sess) :
    s.Seen (s.pc t) := by
  refine h.invariant (fun _ => trivial) ?_ t
  intro s _ hr ih _ en
  refine pc_invariant (P := fun s _ pc => s.Seen pc) ?_ ?_ ih
  · intro _ ha hu
    exact seen_other hu (guarded_reachable hr) (births_reachable hr) (holds_reachable hr) en ha
  · intro u ha
    refine seen_own ?_ (holds_reachable hr) en
    rw [← en.1 u ha]
    exact ih u

end Reads

section Promotions

/-- A step appends the promotion of `p`. -/
def Promotes (p : Uuid) (a : Act) : Prop := (appended a).any (Event.promotes p) = true

theorem promotes_iff :
    Promotes p a ↔ ∃ t k outcome, a = .commitLink t k outcome true ∧ k.player = p := by
  constructor
  · intro h
    cases a with
    | commitLink t k outcome promoted =>
      cases promoted with
      | true => exact ⟨t, k, outcome, rfl, by simpa [Promotes, appended, Event.promotes] using h⟩
      | false => cases h
    | commitLogin t l id created =>
      cases created with
      | none | some => cases h
    | _ => cases h
  · rintro ⟨t, k, outcome, rfl, rfl⟩
    simp [Promotes, appended, Event.promotes]

/-- The player of a link that has inserted its identity exists. -/
theorem References.alive_of_link {k : Link} {promoted : Bool} (hr : s.References) (hh : s.Holds)
    (hpc : s.pc t = .link k (.complete .linked promoted)) : s.Alive k.player := by
  have hident := hh.identities t
  have hplayers := hh.players t
  rw [hpc] at hident hplayers
  have hpend : s.identities.pending k.key = some (t, some ⟨k.player⟩) := hident.held _ mem_cons_self
  have hshare := (hr.identities.pending k.key t ⟨k.player⟩ hpend).1
  rwa [Table.view_of_not_holder (Table.Owes.holdsNone hplayers _)] at hshare

/-- The promotion of `p` is appended exactly when an existing player that had no
real identity gets one. -/
theorem promotes_exactly (hseen : ∀ t, s.Seen (s.pc t)) (hr : s.References) (hh : s.Holds)
    (en : s.enabled a) : Promotes p a ↔ s.Alive p ∧ ¬ s.HasReal p ∧ (s.effect a).HasReal p := by
  rw [promotes_iff]
  constructor
  · rintro ⟨t, k, outcome, rfl, rfl⟩
    have hpc : s.pc t = .link k (.complete outcome true) := en.1 t rfl
    have hdec := hseen t
    rw [hpc] at hdec
    cases outcome with
    | alreadyLinked => cases hdec
    | linked =>
      obtain ⟨hnot, hprov⟩ := hdec.1 rfl
      have hident := hh.identities t
      rw [hpc] at hident
      exact ⟨hr.alive_of_link hh hpc, hnot, k.key, hprov, hident.committed_write mem_cons_self⟩
  · rintro ⟨halive, hnot, key, hprov, hrow⟩
    have hch := hh.identity_change en key
    rw [hrow] at hch
    generalize ho : some (IdentityRow.mk p) = o at hch
    cases hch with
    | same => exact absurd ⟨key, hprov, ho.symm⟩ hnot
    | registered t =>
      cases ho
      have hplayers := hh.players t
      rw [en.1 t rfl] at hplayers
      exact absurd (hplayers.based _ mem_cons_self) halive
    | linked t k promoted hk =>
      cases ho
      subst hk
      have hdec := hseen t
      rw [en.1 t rfl] at hdec
      cases show promoted = true from hdec.2 ⟨hnot, hprov⟩
      exact ⟨t, k, .linked, rfl, rfl⟩
    | erased => cases ho

/-- How often `p` was promoted. -/
def promotions (s : State) (p : Uuid) : Nat := s.events.countP (Event.promotes p)

theorem countP_appended_le (a : Act) : (appended a).countP (Event.promotes p) ≤ 1 := by
  have hlen : (appended a).length ≤ 1 := by
    cases a with
    | commitLogin _ _ _ created => cases created <;> simp [appended]
    | commitLink _ _ _ promoted => cases promoted <;> simp [appended]
    | _ => simp [appended]
  exact Nat.le_trans countP_le_length hlen

theorem promotions_step (s : State) (a : Act) :
    (s.effect a).promotions p = s.promotions p ∧ ¬ Promotes p a ∨
      (s.effect a).promotions p = s.promotions p + 1 ∧ Promotes p a := by
  have hsum : (s.effect a).promotions p =
      s.promotions p + (appended a).countP (Event.promotes p) := by
    rw [promotions, events_eq, countP_append, promotions]
  by_cases hp : Promotes p a
  · obtain ⟨e, he, hpe⟩ := any_eq_true.1 hp
    have hpos : 0 < (appended a).countP (Event.promotes p) := countP_pos_iff.2 ⟨e, he, hpe⟩
    have hle := countP_appended_le (p := p) a
    exact .inr ⟨by omega, hp⟩
  · have hzero : (appended a).countP (Event.promotes p) = 0 := by
      rw [countP_eq_zero]
      exact fun e he hpe => hp (any_eq_true.2 ⟨e, he, hpe⟩)
    exact .inl ⟨by omega, hp⟩

/-- A player is promoted at most once, and has a real identity from then on. -/
def PromotedOnce (s : State) (p : Uuid) : Prop :=
  s.promotions p = 0 ∨ (s.promotions p = 1 ∧ s.WasBorn p ∧ (s.Alive p → s.HasReal p))

theorem PromotedOnce.step (h : s.PromotedOnce p) (hb : s.Births) (hh : s.Holds)
    (hp : Promotes p a ↔ s.Alive p ∧ ¬ s.HasReal p ∧ (s.effect a).HasReal p) (en : s.enabled a) :
    (s.effect a).PromotedOnce p := by
  rcases promotions_step s a with ⟨hcount, hnot⟩ | ⟨hcount, hyes⟩
  · rw [PromotedOnce, hcount]
    refine h.imp_right ?_
    rintro ⟨hone, hborn, hreal⟩
    refine ⟨hone, hborn.step, fun halive => ?_⟩
    obtain ⟨key, hprov, hrow⟩ := hreal (hb.alive_before hh en hborn halive)
    exact ⟨key, hprov, hh.identity_kept en hrow halive⟩
  · obtain ⟨halive, hnot, hnow⟩ := hp.1 hyes
    rcases h with hzero | ⟨-, -, hreal⟩
    · exact .inr ⟨by omega, (hb.wasBorn_of_alive halive).step, fun _ => hnow⟩
    · exact absurd (hreal halive) hnot

theorem promotedOnce_reachable {G : State → Act → Prop} (h : system.Reachable G s) (p : Uuid) :
    s.PromotedOnce p := by
  refine h.invariant (.inl rfl) ?_
  intro _ _ hr ih _ en
  exact ih.step (births_reachable hr) (holds_reachable hr)
    (promotes_exactly (seen_reachable hr) (references_reachable hr) (holds_reachable hr) en) en

end Promotions

section Statement

/-- A pair belongs to a player. -/
def Owns (s : State) (p : Uuid) (key : String × String) : Prop :=
  s.identities.committed key = some ⟨p⟩ ∧ s.Alive p

/-- Who owns the pairs, and who was registered. -/
structure OneOwner (s : State) : Prop where
  owned : ∀ key row, s.identities.committed key = some row → s.Owns row.player key
  unique : ∀ key p q, s.Owns p key → s.Owns q key → p = q
  created : ∀ p, s.Alive p → ∃! b, b ∈ s.born ∧ b.player = p
  single : ∀ b ∈ s.born, ∀ b' ∈ s.born, b.key = b'.key → s.Alive b.player → s.Alive b'.player →
    b = b'
  registered : s.events.filter Event.registers = s.born.map Birth.event

theorem oneOwner_reachable {G : State → Act → Prop} (h : system.Reachable G s) : s.OneOwner where
  owned := fun key row hrow => ⟨hrow, (references_reachable h).identities.committed key row hrow⟩
  unique := by
    rintro _ _ _ ⟨hp, -⟩ ⟨hq, -⟩
    rw [hp] at hq
    cases hq
    rfl
  created := by
    intro p halive
    have hb := births_reachable h
    obtain ⟨row, hrow⟩ := Option.ne_none_iff_exists'.1 halive
    obtain ⟨b, hmem, rfl, -⟩ := hb.players p row hrow
    refine ⟨b, ⟨hmem, rfl⟩, ?_⟩
    rintro _ ⟨hmem', hp⟩
    exact inj_on_of_nodup_map hb.nodup hmem' hmem hp
  single := fun b hb b' hb' hkey halive halive' =>
    (births_reachable h).first_inj hb hb' hkey halive halive'
  registered := (births_reachable h).registered

/-- The row of a player that a session's pending row refers to is committed, or
written by the session itself. -/
theorem References.alive_of_family
    {l : Login} {id family : Uuid} {created : Option String} {tok token : String}
    (hr : s.References) (hh : s.Holds)
    (en : s.enabled (.commitLogin t l id created family tok token)) :
    (s.effect (.commitLogin t l id created family tok token)).Alive id := by
  have hown := hh.tokens t
  rw [en.1 t rfl] at hown
  have hpend : s.refreshTokens.pending tok = some (t, some (TokenRow.first id family l.now)) :=
    hown.held _ mem_cons_self
  show (s.players.commit t).committed id ≠ none
  rw [Table.committed_commit]
  exact (hr.tokens.pending tok t _ hpend).1

/-- A login that commits leaves its pair with the player it answers. -/
theorem owns_of_login {l : Login} {id family : Uuid} {created : Option String} {tok token : String}
    (hb : s.Births) (hr : s.References) (hh : s.Holds)
    (en : s.enabled (.commitLogin t l id created family tok token)) :
    (s.effect (.commitLogin t l id created family tok token)).Owns id l.key := by
  have halive := hr.alive_of_family hh en
  refine ⟨?_, halive⟩
  cases created with
  | none =>
    have hfound := hb.found t l.key id (by rw [en.1 t rfl]; rfl)
    exact hh.identity_kept en (hfound.2 (hb.alive_before hh en hfound.1 halive)) halive
  | some => exact (hh.created en).2.2

/-- In every reachable state a pair belongs to at most one player, the live players
created for a pair are one, and there is one `player.registered` for each player
that was created; every login leaves its pair with the player it answers; a player is
promoted at most once, and in exactly the step in which it gets its first real
identity. -/
theorem identity_and_promotion (h : system.Reachable TransitionSystem.anyStep s) :
    s.OneOwner ∧
      (∀ t l id created family tok token,
        system.enabled s (.commitLogin t l id created family tok token) →
        (system.effect s (.commitLogin t l id created family tok token)).Owns id l.key) ∧
      (∀ p, s.promotions p ≤ 1) ∧
      ∀ a p, system.enabled s a →
        ((system.effect s a).promotions p = s.promotions p + 1 ↔
          s.Alive p ∧ ¬ s.HasReal p ∧ (system.effect s a).HasReal p) := by
  have hh := holds_reachable h
  have hr := references_reachable h
  refine ⟨oneOwner_reachable h, ?_, ?_, ?_⟩
  · intro t l id created family tok token en
    exact owns_of_login (births_reachable h) hr hh en
  · intro p
    rcases promotedOnce_reachable h p with hzero | ⟨hone, -⟩
    · omega
    · omega
  · intro a p en
    refine Iff.trans ?_ (promotes_exactly (seen_reachable h) hr hh en)
    show (s.effect a).promotions p = s.promotions p + 1 ↔ Promotes p a
    rcases promotions_step (p := p) s a with ⟨hcount, hnot⟩ | ⟨hcount, hyes⟩
    · exact ⟨fun he => by omega, fun hyes => absurd hyes hnot⟩
    · exact ⟨fun _ => hyes, fun _ => hcount⟩

/-- A link of the player of `firstLogin`. -/
def linkAlice (t : Sess) (k : Link) : List Act :=
  [.linkOpen t k, .lockPlayer t k, .lockIdentity t k]

/-- The device logs in and the player links two providers at once; the second link
waits for the player's lock. -/
def promotionRun : List Act :=
  let k₁ : Link := ⟨alice, "steam", "1"⟩
  let k₂ : Link := ⟨alice, "epic", "2"⟩
  firstLogin 1 ++ [.linkOpen 2 k₂] ++ linkAlice 1 k₁ ++
  [.readReal 1 k₁, .linkAbsent 1 k₁ false, .linkInsert 1 k₁ false, .linkEmit 1 k₁ false,
   .commitLink 1 k₁ .linked true, .lockPlayer 2 k₂, .lockIdentity 2 k₂, .readReal 2 k₂,
   .linkAbsent 2 k₂ true, .linkInsert 2 k₂ true, .linkEmit 2 k₂ true]

theorem promotionRun_runs :
    (system.exec TransitionSystem.anyStep system.start promotionRun).isSome := by
  decide +kernel

/-- The state before the second link commits. -/
def promotionState : State :=
  TransitionSystem.final TransitionSystem.anyStep promotionRun promotionRun_runs

/-- The player of `promotionRun` was promoted once, and the second link does not
promote it again. -/
theorem identity_and_promotion_two_links :
    promotionState.OneOwner ∧ promotionState.promotions alice = 1 ∧
      (system.effect promotionState (.commitLink 2 ⟨alice, "epic", "2"⟩ .linked false)).HasReal
        alice ∧
      (system.effect promotionState
        (.commitLink 2 ⟨alice, "epic", "2"⟩ .linked false)).promotions alice ≠ 2 := by
  have h := identity_and_promotion (TransitionSystem.reachable_final _ _ promotionRun_runs)
  have hfacts : promotionState.promotions alice = 1 ∧
      system.enabled promotionState (.commitLink 2 ⟨alice, "epic", "2"⟩ .linked false) ∧
      promotionState.identities.committed ("steam", "1") = some ⟨alice⟩ ∧
      (system.effect promotionState
        (.commitLink 2 ⟨alice, "epic", "2"⟩ .linked false)).identities.committed ("steam", "1") =
          some ⟨alice⟩ := by
    decide +kernel
  obtain ⟨hone, hen, hreal, hreal'⟩ := hfacts
  refine ⟨h.1, hone, ⟨_, by decide, hreal'⟩, fun htwo => ?_⟩
  refine ((h.2.2.2 _ alice hen).1 ?_).2.1 ⟨_, by decide, hreal⟩
  show (system.effect promotionState _).promotions alice = promotionState.promotions alice + 1
  rw [hone]
  exact htwo

end Statement

end State
end Swarog.Accounts
