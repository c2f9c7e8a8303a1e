import Swarog.Gateway.Hub

/-!
# The registry of the push hub

What a bind and a release do to the registry, and what every reachable hub satisfies: the
connections of a player are bound to them, a connection that has left does not come back,
nothing was enqueued to a connection before its bind, and on an open front only the queues
of connections that have left are closed (`sound_reachable`).
-/

namespace Swarog.Gateway

open FinMap List Option

section Basics

variable {Player : Type}
variable {limits : PushLimits} {d : Hub Player} {t o : ConnId}

/-- The connections that an announcement has yet to reach. -/
def Emission.todo : Emission → List ConnId
  | .queued todo => todo
  | _ => []

theorem accept_ok {s s' : HubState Player} {ip : Net.IpAddr} (h : s.accept limits t ip = .ok s') :
    s'.closing = s.closing ∧ s'.conns = s.conns.set t none ∧ s'.byPlayer = s.byPlayer := by
  unfold HubState.accept at h
  dsimp only at h
  split at h
  · cases h
  split at h
  · cases h
  split at h
  · cases h
  cases h
  exact ⟨rfl, rfl, rfl⟩

@[simp] theorem events_closeWith (code : CloseCode) (q : ConnQueue Player) :
    (q.closeWith code).events = q.events := by
  unfold ConnQueue.closeWith
  split <;> rfl

@[simp] theorem close_push (f : Presence Player) (q : ConnQueue Player) :
    (q.push f).close = q.close := by
  unfold ConnQueue.push
  split <;> rfl

theorem onQueue_of_ne {o' : ConnId} (f : ConnQueue Player → ConnQueue Player) (h : o' ≠ o) :
    (d.onQueue o f).queues o' = d.queues o' :=
  Function.update_of_ne h _ _

theorem onQueue_self (f : ConnQueue Player → ConnQueue Player) :
    (d.onQueue o f).queues o = f (d.queues o) :=
  Function.update_self o _ _

theorem state_closeEvicted (evicted : Option ConnId) (d : Hub Player) :
    (d.closeEvicted evicted).state = d.state := by
  cases evicted <;> rfl

end Basics

section Registry

variable {Player : Type} [DecidableEq Player]

/-- The player has a bound connection. -/
def HubState.online (s : HubState Player) (p : Player) : Bool := decide (s.ids p ≠ [])

variable {s s' : HubState Player} {id o : ConnId} {p q : Player} {ip : Net.IpAddr} {b : Bound}

/-- What a bind does: the connection goes to the end of those of its player, and the first
of these may have to leave. -/
structure Binds (id : ConnId) (p : Player) (s : HubState Player) (b : Bound)
    (s' : HubState Player) : Prop where
  closing : s'.closing = s.closing
  conns : s'.conns = s.conns.set id (some p)
  others : ∀ q, q ≠ p → s'.ids q = s.ids q
  first : b.first = !s.online p
  seats : (s'.ids p = s.ids p ++ [id] ∧ b.evicted = none) ∨
    ∃ o rest, s.ids p = o :: rest ∧ s'.ids p = rest ++ [id] ∧ ∀ o', b.evicted = some o' → o' = o

theorem online_congr (h : s'.byPlayer = s.byPlayer) (q : Player) : s'.online q = s.online q := by
  unfold HubState.online HubState.ids
  rw [h]

section

variable (closing : Bool) (conns : FinMap ConnId (Option Player)) (perIp : FinMap Net.IpAddr Nat)

theorem ids_seated (byPlayer : FinMap Player (List ConnId)) (p : Player) (l : List ConnId) :
    (HubState.mk closing conns (byPlayer.set p l) perIp).ids p = l := by
  unfold HubState.ids
  rw [get_set_self]
  rfl

theorem ids_elsewhere (l : List ConnId) (h : q ≠ p) :
    (HubState.mk closing conns (s.byPlayer.set p l) perIp).ids q = s.ids q :=
  congrArg (getD · []) (get_set_of_ne l h)

theorem ids_vacated (byPlayer : FinMap Player (List ConnId)) (p : Player) :
    (HubState.mk closing conns (byPlayer.remove p) perIp).ids p = [] := by
  unfold HubState.ids
  rw [get_remove_self]
  rfl

end

theorem bind_spec (limits : PushLimits) (p : Player) (h : s.conns.get id ≠ none) :
    ∃ b s', s.bind limits id p = some (b, s') ∧ Binds id p s b s' := by
  obtain ⟨_, hconn⟩ := ne_none_iff_exists'.1 h
  by_cases hcap : (s.ids p ++ [id]).length > limits.maxPerPlayer
  · cases hids : s.ids p with
    | nil =>
      rw [hids] at hcap
      exact absurd hcap (Nat.not_lt.2 limits.perPlayer_pos)
    | cons o rest =>
      rw [hids] at hcap
      refine ⟨⟨false, (some o).filter (fun o => ((s.conns.set id (some p)).get o).isSome)⟩,
        { s with
          conns := s.conns.set id (some p)
          byPlayer := s.byPlayer.set p (rest ++ [id]) }, ?_, rfl, rfl, ?_, ?_, .inr ?_⟩
      · simp only [HubState.bind, hconn, hids, decide_eq_true hcap, if_true]
        simp
      · exact fun q hq => ids_elsewhere _ _ _ _ hq
      · simp [HubState.online, hids]
      · refine ⟨o, rest, hids, ids_seated _ _ _ _ _ _, ?_⟩
        intro _ ho'
        dsimp only at ho'
        exact (some.inj (filter_eq_some_iff.1 ho').1).symm
  · refine ⟨⟨decide (s.ids p = []), none⟩,
      { s with
        conns := s.conns.set id (some p)
        byPlayer := s.byPlayer.set p (s.ids p ++ [id]) }, ?_, rfl, rfl, ?_, ?_, .inl ?_⟩
    · simp only [HubState.bind, hconn, decide_eq_false hcap]
      simp
    · exact fun q hq => ids_elsewhere _ _ _ _ hq
    · simp [HubState.online]
    · exact ⟨ids_seated _ _ _ _ _ _, rfl⟩

/-- What a release does: the connection leaves those of its player, and the player is
returned who has none left. -/
structure Releases (id : ConnId) (s : HubState Player) (departed : Option Player)
    (s' : HubState Player) : Prop where
  closing : s'.closing = s.closing
  conns : ∀ o, o ≠ id → s'.conns.get o = s.conns.get o
  removed : s'.conns.get id = none
  ids : ∀ q, s'.ids q = (s.ids q).filter (fun o => decide (o ≠ id))
  departed : ∀ q, s'.online q = (s.online q && decide (departed ≠ some q))

section

variable {departed : Option Player} (hclosing : s'.closing = s.closing)
    (hconns : ∀ o, o ≠ id → s'.conns.get o = s.conns.get o) (hremoved : s'.conns.get id = none)
include hclosing hconns hremoved

/-- A connection leaves and the players keep what they have. -/
theorem Releases.of_ids
    (hids : ∀ q, s'.ids q = s.ids q) (hnot : ∀ q, id ∉ s.ids q) : Releases id s none s' where
  closing := hclosing
  conns := hconns
  removed := hremoved
  ids q := by
    rw [hids]
    refine (filter_eq_self.2 ?_).symm
    intro _ ho
    refine decide_eq_true ?_
    rintro rfl
    exact hnot q ho
  departed q := by simp [HubState.online, hids]

/-- A connection leaves a player. -/
theorem Releases.of_player (hplayer : ∀ q, id ∈ s.ids q → q = p)
    (hleft : s'.ids p = (s.ids p).filter (fun o => decide (o ≠ id)))
    (hothers : ∀ q, q ≠ p → s'.ids q = s.ids q)
    (hdeparted : departed = if s'.ids p = [] then some p else none) :
    Releases id s departed s' where
  closing := hclosing
  conns := hconns
  removed := hremoved
  ids q := by
    by_cases hq : q = p
    · rw [hq, hleft]
    · rw [hothers q hq]
      refine (filter_eq_self.2 ?_).symm
      intro _ ho
      refine decide_eq_true ?_
      rintro rfl
      exact hq (hplayer q ho)
  departed q := by
    unfold HubState.online
    rw [hdeparted]
    by_cases hq : q = p
    · subst hq
      by_cases hnil : s'.ids q = []
      · simp [hnil]
      · have hbefore : s.ids q ≠ [] := by
          intro hempty
          rw [hleft, hempty] at hnil
          exact hnil rfl
        simp [hnil, hbefore]
    · rw [hothers q hq]
      split <;> simp [Ne.symm hq]

end

theorem release_spec (ip : Net.IpAddr)
    (hseated : ∀ q, id ∈ s.ids q → s.conns.get id = some (some q)) :
    Releases id s (s.release id ip).1 (s.release id ip).2 := by
  have hgone : (s.conns.remove id).get id = none := get_remove_self id s.conns
  have hothers : ∀ o, o ≠ id → (s.conns.remove id).get o = s.conns.get o :=
    fun o ho => get_remove_of_ne ho
  cases hconn : s.conns.get id with
  | none =>
    rw [show s.release id ip = (none, _) by simp only [HubState.release, hconn]; rfl]
    refine .of_ids rfl (fun _ _ => rfl) hconn (fun _ => rfl) ?_
    intro q hq
    rw [hseated q hq] at hconn
    cases hconn
  | some bound =>
    cases bound with
    | none =>
      rw [show s.release id ip = (none, _) by simp only [HubState.release, hconn]; rfl]
      refine .of_ids rfl hothers hgone (fun _ => rfl) ?_
      intro q hq
      rw [hseated q hq] at hconn
      cases hconn
    | some player =>
      have hplayer : ∀ q, id ∈ s.ids q → q = player := fun q hq =>
        some.inj (some.inj ((hseated q hq).symm.trans hconn))
      cases hids : s.byPlayer.get player with
      | none =>
        rw [show s.release id ip = (none, _) by simp only [HubState.release, hconn, hids]; rfl]
        refine .of_ids rfl hothers hgone (fun _ => rfl) ?_
        intro q hq
        have hnil : s.ids q = [] := by
          rw [hplayer q hq]
          exact congrArg (getD · []) hids
        rw [hnil] at hq
        exact not_mem_nil hq
      | some ids =>
        have hlist : s.ids player = ids := congrArg (getD · []) hids
        by_cases hleft : ids.filter (fun other => decide (other ≠ id)) = []
        · rw [show s.release id ip = (some player, _) by
            simp only [HubState.release, hconn, hids, if_pos hleft]; rfl]
          have hempty := ids_vacated s.closing (s.conns.remove id) (s.releaseIp ip)
            s.byPlayer player
          refine .of_player rfl hothers hgone hplayer ?_ ?_ (if_pos hempty).symm
          · rw [hlist, hleft]
            exact hempty
          · exact fun q hq => congrArg (getD · []) (get_remove_of_ne hq)
        · rw [show s.release id ip = (none, _) by
            simp only [HubState.release, hconn, hids, if_neg hleft]; rfl]
          have hseats := ids_seated s.closing (s.conns.remove id) (s.releaseIp ip)
            s.byPlayer player (ids.filter (fun other => decide (other ≠ id)))
          refine .of_player rfl hothers hgone hplayer ?_ ?_ (if_neg ?_).symm
          · rw [hlist]
            exact hseats
          · exact fun q hq => ids_elsewhere _ _ _ _ hq
          · exact fun hnil => hleft (hseats.symm.trans hnil)

theorem Binds.mem (h : Binds id p s b s') (ho : o ∈ s'.ids q) : o ∈ s.ids q ∨ (o = id ∧ q = p) := by
  by_cases hq : q = p
  · subst hq
    rcases h.seats with ⟨hids, -⟩ | ⟨o', _, hbefore, hids, -⟩
    · rw [hids, mem_append, mem_singleton] at ho
      exact ho.imp_right (fun heq => ⟨heq, rfl⟩)
    · rw [hids, mem_append, mem_singleton] at ho
      rw [hbefore]
      exact ho.imp (mem_cons_of_mem o') (fun heq => ⟨heq, rfl⟩)
  · rw [h.others q hq] at ho
    exact .inl ho

theorem Binds.nodup (h : Binds id p s b s') (hid : id ∉ s.ids p)
    (hnodup : ∀ q, (s.ids q).Nodup) (q : Player) : (s'.ids q).Nodup := by
  by_cases hq : q = p
  · subst hq
    have hbefore := hnodup q
    rcases h.seats with ⟨hids, -⟩ | ⟨o', _, hcons, hids, -⟩
    · rw [hids, ← concat_eq_append]
      exact hbefore.concat hid
    · rw [hids, ← concat_eq_append]
      rw [hcons] at hbefore hid
      exact (nodup_cons.1 hbefore).2.concat (fun hmem => hid (mem_cons_of_mem o' hmem))
  · rw [h.others q hq]
    exact hnodup q

/-- The connection that has to leave was bound to the player and is not any more. -/
theorem Binds.evicted (h : Binds id p s b s') (hid : id ∉ s.ids p)
    (hnodup : (s.ids p).Nodup) (ho : b.evicted = some o) : o ∈ s.ids p ∧ o ∉ s'.ids p := by
  rcases h.seats with ⟨-, hnone⟩ | ⟨_, _, hcons, hids, heq⟩
  · rw [hnone] at ho
    cases ho
  · cases heq o ho
    rw [hcons] at hnodup hid ⊢
    refine ⟨mem_cons_self, ?_⟩
    rw [hids, mem_append, mem_singleton]
    rintro (hmem | rfl)
    · exact (nodup_cons.1 hnodup).1 hmem
    · exact hid mem_cons_self

theorem Binds.online (h : Binds id p s b s') (q : Player) :
    s'.online q = (s.online q || decide (q = p)) := by
  unfold HubState.online
  by_cases hq : q = p
  · subst hq
    rcases h.seats with ⟨hids, -⟩ | ⟨o', rest, -, hids, -⟩ <;> simp [hids]
  · simp [h.others q hq, hq]

end Registry

section Slots

variable {Player : Type} [DecidableEq Player]
variable {limits : PushLimits} {d d' : Hub Player} {t u o : ConnId} {pc : Pc Player}
variable {a : Act Player} {s' : HubState Player} {ip : Net.IpAddr}

/-- The connection has an id and does not wait for its bind. -/
def Hub.Started (d : Hub Player) (o : ConnId) : Prop :=
  o ∈ d.minted ∧ d.state.conns.get o ≠ some none

/-- The connection will not be among those of a player any more. -/
def Hub.Left (d : Hub Player) (o : ConnId) : Prop := d.Started o ∧ ∀ q, o ∉ d.state.ids q

/-- The registry is consistent, and the queues are with it. -/
structure Hub.Sound (d : Hub Player) : Prop where
  known : ∀ o, d.state.conns.get o ≠ none → o ∈ d.minted
  seated : ∀ q o, o ∈ d.state.ids q → d.state.conns.get o = some (some q)
  nodup : ∀ q, (d.state.ids q).Nodup
  silent : ∀ o, ¬ d.Started o → (d.queues o).events = []
  closed : d.state.closing = false → ∀ o, (d.queues o).close ≠ none → d.Left o

/-- What a task knows at its program point. -/
def Pc.Knows (d : Hub Player) (t : ConnId) : Pc Player → Prop
  | .idle => t ∉ d.minted
  | .accepted _ => t ∈ d.minted ∧ d.state.conns.get t = some none
  | .bound _ _ _ evicted => t ∈ d.minted ∧ ∀ o, evicted = some o → d.Left o
  | .announcing _ e _ => t ∈ d.minted ∧ ∀ o ∈ e.todo, d.Started o
  | .serving _ => t ∈ d.minted
  | .gone => t ∈ d.minted

/-- What a step of a task leaves to the others. -/
structure Frame (t : ConnId) (d d' : Hub Player) : Prop where
  minted : ∀ u, u ≠ t → (u ∈ d'.minted ↔ u ∈ d.minted)
  conns : ∀ u, u ≠ t → d'.state.conns.get u = d.state.conns.get u
  started : ∀ o, d.Started o → d'.Started o
  left : ∀ o, d.Left o → d'.Left o

theorem knows_other (hf : Frame t d d') (hu : u ≠ t) (h : pc.Knows d u) : pc.Knows d' u := by
  cases pc with
  | idle => exact fun hmem => h ((hf.minted u hu).1 hmem)
  | accepted => exact ⟨(hf.minted u hu).2 h.1, (hf.conns u hu).trans h.2⟩
  | bound => exact ⟨(hf.minted u hu).2 h.1, fun o ho => hf.left o (h.2 o ho)⟩
  | announcing => exact ⟨(hf.minted u hu).2 h.1, fun o ho => hf.started o (h.2 o ho)⟩
  | serving | gone => exact (hf.minted u hu).2 h

theorem Frame.of_registry (hminted : d'.minted = d.minted) (hconns : d'.state.conns = d.state.conns)
    (hplayers : d'.state.byPlayer = d.state.byPlayer) : Frame t d d' := by
  have hstarted : ∀ o, d.Started o → d'.Started o := by
    intro _ ho
    unfold Hub.Started
    rw [hminted, hconns]
    exact ho
  have hids : ∀ q, d'.state.ids q = d.state.ids q :=
    fun q => congrArg (fun m => (FinMap.get m q).getD []) hplayers
  refine ⟨fun u _ => by rw [hminted], fun u _ => by rw [hconns], hstarted, ?_⟩
  intro o ho
  refine ⟨hstarted o ho.1, fun q => ?_⟩
  rw [hids]
  exact ho.2 q

/-- A step that changes queues only. -/
theorem Hub.Sound.of_queues (h : d.Sound) (hminted : d'.minted = d.minted)
    (hconns : d'.state.conns = d.state.conns) (hplayers : d'.state.byPlayer = d.state.byPlayer)
    (hevents : ∀ o, (d'.queues o).events = (d.queues o).events ∨ d.Started o)
    (hclosed : d'.state.closing = false → d.state.closing = false ∧
      ∀ o, (d'.queues o).close ≠ none → (d.queues o).close ≠ none ∨ d.Left o) : d'.Sound := by
  have hids : ∀ q, d'.state.ids q = d.state.ids q :=
    fun q => congrArg (fun m => (FinMap.get m q).getD []) hplayers
  have hframe : Frame 0 d d' := .of_registry hminted hconns hplayers
  refine ⟨?_, ?_, ?_, ?_, ?_⟩
  · rw [hminted, hconns]
    exact h.known
  · intro q o ho
    rw [hids] at ho
    rw [hconns]
    exact h.seated q o ho
  · intro q
    rw [hids]
    exact h.nodup q
  · intro o ho
    have hnot : ¬ d.Started o := fun hstarted => ho (hframe.started o hstarted)
    rw [(hevents o).resolve_right hnot]
    exact h.silent o hnot
  · intro hopen o ho
    obtain ⟨hbefore, hclose⟩ := hclosed hopen
    exact hframe.left o ((hclose o ho).elim (h.closed hbefore o) id)

/-- A step keeps the hub consistent, leaves the others alone and knows what it has done. -/
structure Keeps (t : ConnId) (d d' : Hub Player) (pc : Pc Player) : Prop where
  frame : Frame t d d'
  sound : d'.Sound
  knows : pc.Knows d' t

theorem keeps_same (hs : d.Sound) (hk : pc.Knows d t) : Keeps t d d pc :=
  ⟨.of_registry rfl rfl rfl, hs, hk⟩

theorem keeps_accept (hs : d.Sound) (hfresh : t ∉ d.minted)
    (h : d.state.accept limits t ip = .ok s') :
    Keeps t d { d with state := s', minted := t :: d.minted } (.accepted ip) := by
  obtain ⟨hclosing, hconns, hplayers⟩ := accept_ok h
  have hids : ∀ q, s'.ids q = d.state.ids q :=
    fun q => congrArg (fun m => (FinMap.get m q).getD []) hplayers
  have hget : ∀ u, u ≠ t → s'.conns.get u = d.state.conns.get u := by
    intro u hu
    rw [hconns]
    exact get_set_of_ne _ hu
  have hne : ∀ o, d.Started o → o ≠ t := by
    rintro o ho rfl
    exact hfresh ho.1
  have hstarted : ∀ o, d.Started o →
      ({ d with state := s', minted := t :: d.minted } : Hub Player).Started o := by
    intro o ho
    refine ⟨mem_cons_of_mem t ho.1, ?_⟩
    rw [hget o (hne o ho)]
    exact ho.2
  refine ⟨⟨?_, hget, hstarted, ?_⟩, ⟨?_, ?_, ?_, ?_, ?_⟩, ⟨mem_cons_self, ?_⟩⟩
  · intro u hu
    simp [hu]
  · intro o ho
    refine ⟨hstarted o ho.1, fun q => ?_⟩
    rw [hids]
    exact ho.2 q
  · intro o ho
    by_cases hot : o = t
    · subst hot
      exact mem_cons_self
    · rw [hget o hot] at ho
      exact mem_cons_of_mem t (hs.known o ho)
  · intro q o ho
    rw [hids] at ho
    have hseat := hs.seated q o ho
    have hmem : o ∈ d.minted := hs.known o (by rw [hseat]; exact some_ne_none _)
    rw [hget o (fun heq => hfresh (heq ▸ hmem))]
    exact hseat
  · intro q
    rw [hids]
    exact hs.nodup q
  · intro o ho
    exact hs.silent o (fun hst => ho (hstarted o hst))
  · intro hopen o ho
    have hleft := hs.closed (hclosing.symm.trans hopen) o ho
    refine ⟨hstarted o hleft.1, fun q => ?_⟩
    rw [hids]
    exact hleft.2 q
  · rw [hconns]
    exact get_set_self t none d.state.conns

theorem keeps_bind {b : Bound} {p : Player} (hs : d.Sound)
    (hk : (Pc.accepted ip).Knows d t) (h : Binds t p d.state b s') :
    Keeps t d { d with state := s' } (.bound ip p b.first b.evicted) := by
  have hget : ∀ u, u ≠ t → s'.conns.get u = d.state.conns.get u := by
    intro u hu
    rw [h.conns]
    exact get_set_of_ne _ hu
  have hself : s'.conns.get t = some (some p) := by
    rw [h.conns]
    exact get_set_self t (some p) d.state.conns
  have hne : ∀ o, d.Started o → o ≠ t := by
    rintro o ho rfl
    exact ho.2 hk.2
  have hstarted : ∀ o, d.Started o → ({ d with state := s' } : Hub Player).Started o := by
    intro o ho
    refine ⟨ho.1, ?_⟩
    rw [hget o (hne o ho)]
    exact ho.2
  have hseat : ∀ q o, o ∈ d.state.ids q → d.Started o := by
    intro q o ho
    have hconn := hs.seated q o ho
    refine ⟨hs.known o ?_, ?_⟩ <;> rw [hconn] <;> simp
  have hleft : ∀ o, d.Left o → ({ d with state := s' } : Hub Player).Left o := by
    intro o ho
    refine ⟨hstarted o ho.1, fun q hmem => ?_⟩
    rcases h.mem hmem with hold | ⟨rfl, -⟩
    · exact ho.2 q hold
    · exact hne o ho.1 rfl
  have hnot : ∀ q, t ∉ d.state.ids q := fun q hmem => hne t (hseat q t hmem) rfl
  refine ⟨⟨fun _ _ => Iff.rfl, hget, hstarted, hleft⟩, ⟨?_, ?_, ?_, ?_, ?_⟩, ⟨hk.1, ?_⟩⟩
  · intro o ho
    by_cases hot : o = t
    · subst hot
      exact hk.1
    · rw [hget o hot] at ho
      exact hs.known o ho
  · intro q o ho
    rcases h.mem ho with hold | ⟨rfl, rfl⟩
    · rw [hget o (hne o (hseat q o hold))]
      exact hs.seated q o hold
    · exact hself
  · exact h.nodup (hnot p) hs.nodup
  · intro o ho
    exact hs.silent o (fun hst => ho (hstarted o hst))
  · intro hopen o ho
    exact hleft o (hs.closed (h.closing.symm.trans hopen) o ho)
  · intro o ho
    obtain ⟨hbefore, hafter⟩ := h.evicted (hnot p) (hs.nodup p) ho
    refine ⟨hstarted o (hseat p o hbefore), fun q hmem => ?_⟩
    rcases h.mem hmem with hold | ⟨rfl, -⟩
    · have hq : q = p := by
        have heq := (hs.seated q o hold).symm.trans (hs.seated p o hbefore)
        exact some.inj (some.inj heq)
      exact hafter (hq ▸ hmem)
    · exact hnot p hbefore

theorem keeps_release {departed : Option Player} (hs : d.Sound)
    (hmem : t ∈ d.minted) (h : Releases t d.state departed s') :
    Keeps t d { d with state := s' } (Pc.departing departed) := by
  have hstarted : ∀ o, d.Started o → ({ d with state := s' } : Hub Player).Started o := by
    intro o ho
    refine ⟨ho.1, ?_⟩
    by_cases hot : o = t
    · subst hot
      rw [h.removed]
      exact fun heq => some_ne_none _ heq.symm
    · rw [h.conns o hot]
      exact ho.2
  have hids : ∀ q o, o ∈ s'.ids q → o ∈ d.state.ids q ∧ o ≠ t := by
    intro q o ho
    rw [h.ids] at ho
    exact ⟨mem_of_mem_filter ho, of_decide_eq_true (mem_filter.1 ho).2⟩
  have hleft : ∀ o, d.Left o → ({ d with state := s' } : Hub Player).Left o :=
    fun o ho => ⟨hstarted o ho.1, fun q hq => ho.2 q (hids q o hq).1⟩
  refine ⟨⟨fun _ _ => Iff.rfl, h.conns, hstarted, hleft⟩, ⟨?_, ?_, ?_, ?_, ?_⟩, ?_⟩
  · intro o ho
    by_cases hot : o = t
    · subst hot
      exact hmem
    · rw [h.conns o hot] at ho
      exact hs.known o ho
  · intro q o ho
    obtain ⟨hold, hot⟩ := hids q o ho
    rw [h.conns o hot]
    exact hs.seated q o hold
  · intro q
    rw [h.ids]
    exact (hs.nodup q).filter _
  · intro o ho
    exact hs.silent o (fun hst => ho (hstarted o hst))
  · intro hopen o ho
    exact hleft o (hs.closed (h.closing.symm.trans hopen) o ho)
  · cases departed with
    | none => exact hmem
    | some => exact ⟨hmem, fun o ho => absurd ho not_mem_nil⟩

theorem keeps_replace {p : Player} {first : Bool} {evicted : Option ConnId}
    (hs : d.Sound) (hk : (Pc.bound ip p first evicted).Knows d t) :
    Frame t d (d.closeEvicted evicted) ∧ (d.closeEvicted evicted).Sound := by
  cases evicted with
  | none => exact ⟨.of_registry rfl rfl rfl, hs⟩
  | some o =>
    refine ⟨.of_registry rfl rfl rfl, hs.of_queues rfl rfl rfl ?_ ?_⟩
    · intro o'
      by_cases ho : o' = o
      · subst ho
        exact .inr (hk.2 o' rfl).1
      · exact .inl (congrArg ConnQueue.events (onQueue_of_ne _ ho))
    · refine fun hopen => ⟨hopen, fun o' hclose => ?_⟩
      by_cases ho : o' = o
      · subst ho
        exact .inr (hk.2 o' rfl)
      · have hsame : ((d.closeEvicted (some o)).queues o').close = (d.queues o').close :=
          congrArg ConnQueue.close (onQueue_of_ne _ ho)
        exact .inl (hsame ▸ hclose)

theorem keeps_push (f : Presence Player) (hs : d.Sound) (ho : d.Started o) :
    Frame t d (d.onQueue o (ConnQueue.push f)) ∧ (d.onQueue o (ConnQueue.push f)).Sound := by
  refine ⟨.of_registry rfl rfl rfl, hs.of_queues rfl rfl rfl ?_ ?_⟩
  · intro o'
    by_cases heq : o' = o
    · subst heq
      exact .inr ho
    · exact .inl (congrArg ConnQueue.events (onQueue_of_ne _ heq))
  · refine fun hopen => ⟨hopen, fun o' hclose => .inl ?_⟩
    by_cases heq : o' = o
    · subst heq
      rwa [onQueue_self, close_push] at hclose
    · rwa [onQueue_of_ne _ heq] at hclose

theorem keeps_shutdown (hs : d.Sound) : Frame t d d.shutdown ∧ d.shutdown.Sound := by
  refine ⟨.of_registry rfl rfl rfl, hs.of_queues rfl rfl rfl ?_ ?_⟩
  · intro o
    left
    show (if (d.state.conns.get o).isSome then _ else d.queues o).events = _
    split
    · exact events_closeWith _ _
    · rfl
  · exact fun hopen => Bool.noConfusion hopen

theorem knows_resume (slot : Option Net.IpAddr) (h : t ∈ d.minted) :
    (Pc.resume slot).Knows d t := by
  cases slot <;> exact h

theorem keeps_step (hs : d.Sound) (hk : (stmt limits t a).before.Knows d t)
    (hg : (stmt limits t a).guard d) :
    Keeps t d ((stmt limits t a).change d) ((stmt limits t a).after d) := by
  cases a with
  | accept ip =>
    simp only [stmt]
    cases haccept : d.state.accept limits t ip with
    | error => exact keeps_same hs hk
    | ok => exact keeps_accept hs hk haccept
  | bind ip player =>
    have hconn : d.state.conns.get t ≠ none := by
      rw [hk.2]
      exact some_ne_none _
    obtain ⟨b, s', hbind, hspec⟩ := bind_spec limits player hconn
    simp only [stmt, hbind]
    exact keeps_bind hs hk hspec
  | replace ip player first evicted =>
    obtain ⟨hframe, hsound⟩ := keeps_replace hs hk
    refine ⟨hframe, hsound, ?_⟩
    have hmem : t ∈ (d.closeEvicted evicted).minted := by cases evicted <;> exact hk.1
    cases first with
    | false => exact hmem
    | true => exact ⟨hmem, fun o ho => absurd ho not_mem_nil⟩
  | announce f slot =>
    refine keeps_same hs ?_
    simp only [stmt]
    split
    · exact knows_resume slot hk.1
    · exact ⟨hk.1, fun o ho => absurd ho not_mem_nil⟩
  | resolve =>
    refine keeps_same hs ⟨hk.1, fun o ho => ?_⟩
    obtain ⟨e, he, rfl⟩ := mem_map.1 (show o ∈ d.state.resolveAll from ho)
    obtain ⟨hentry, hsome⟩ := mem_filter.1 he
    have hconn : d.state.conns.get e.1 = some e.2 := get_eq_some.2 hentry
    refine ⟨hs.known e.1 ?_, ?_⟩
    · rw [hconn]
      exact some_ne_none _
    · rw [hconn]
      intro hnone
      rw [some.inj hnone] at hsome
      cases hsome
  | push f todo slot o =>
    obtain ⟨hframe, hsound⟩ := keeps_push (t := t) f hs (hk.2 o hg)
    exact ⟨hframe, hsound, hk.1, fun o' ho' => hk.2 o' (mem_of_mem_filter ho')⟩
  | delivered f slot => exact keeps_same hs (knows_resume slot hk.1)
  | release ip served =>
    have hmem : t ∈ d.minted := by
      cases served
      · exact hk.1
      · exact hk
    exact keeps_release hs hmem (release_spec ip (fun q => hs.seated q t))
  | shutdown =>
    obtain ⟨hframe, hsound⟩ := keeps_shutdown (t := t) hs
    exact ⟨hframe, hsound, hk⟩

variable {G : Pg.World (Hub Player) (Pc Player) → ConnId × Act Player → Prop}
variable {w : Pg.World (Hub Player) (Pc Player)}

theorem sound_reachable (h : (system Player limits).Reachable G w) :
    w.data.Sound ∧ ∀ t, (w.pc t).Knows w.data t := by
  refine Pg.Programs.joint_invariant (X := programs Player limits) (I := Hub.Sound)
    (L := fun d t pc => pc.Knows d t) ⟨?_, ?_, ?_, ?_, ?_⟩ (fun t => not_mem_nil) ?_ h
  · exact fun o ho => absurd rfl ho
  · exact fun q o ho => absurd ho not_mem_nil
  · exact fun q => nodup_nil
  · exact fun o _ => rfl
  · exact fun _ o ho => absurd rfl ho
  intro w t a _ _ en hs hk hbefore
  have hkeeps := keeps_step hs hbefore en.2
  exact ⟨hkeeps.sound, hkeeps.knows, fun u hu => knows_other hkeeps.frame hu (hk u)⟩

end Slots

end Swarog.Gateway
