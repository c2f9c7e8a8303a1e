import Swarog.Gateway.Registry

/-!
# Presence

A presence frame reports a change of `online` that was decided under the registry lock, but
it is enqueued later.  When a player comes back while the departure is still being
announced, the two frames can be enqueued in the other order (`presence_latched`).

`Alone` excludes this: a player changes over only while nobody owes a frame about them.
Then an announcement that is under way agrees with the registry (`agrees_reachable`), and
what a bound connection was told last agrees with it as well, or an announcement has not
reached the connection yet (`told_reachable`).
-/

namespace Swarog.Gateway

open TransitionSystem Option

section Owed

variable {Player : Type}

/-- The frame that a task has decided on and not yet enqueued everywhere. -/
def Pc.owed : Pc Player → Option (Presence Player)
  | .bound _ player true _ => some ⟨player, true⟩
  | .announcing f _ _ => some f
  | _ => none

/-- The frame about `p` that a task owes has not yet reached the connection `o`. -/
def Pc.Due (o : ConnId) (p : Player) : Pc Player → Prop
  | .bound _ player first _ => first = true ∧ player = p
  | .announcing f (.queued todo) _ => f.player = p ∧ o ∈ todo
  | .announcing f _ _ => f.player = p
  | _ => False

/-- No bind, release or announcement is in progress. -/
def Pc.atRest : Pc Player → Bool
  | .bound _ _ _ _ => false
  | .announcing _ _ _ => false
  | _ => true

theorem owed_resume (slot : Option Net.IpAddr) : (Pc.resume slot : Pc Player).owed = none := by
  cases slot <;> rfl

end Owed

section Announcements

variable {Player : Type} [DecidableEq Player]
variable {limits : PushLimits} {d : Hub Player} {t u o : ConnId} {p q : Player}
variable {a : Act Player}

/-- What the last frame about a player has said. -/
def ConnQueue.said (q : ConnQueue Player) (p : Player) : Option Bool :=
  (q.events.reverse.find? (fun f => decide (f.player = p))).map Presence.online

/-- The player that a step brings online or takes offline. -/
def turns (s : HubState Player) (t : ConnId) : Act Player → Option Player
  | .bind _ player => if s.ids player = [] then some player else none
  | .release ip _ => (s.release t ip).1
  | _ => none

/-- A player changes over only while no task owes a frame about them. -/
def Alone (w : Pg.World (Hub Player) (Pc Player)) (a : ConnId × Act Player) : Prop :=
  ∀ p ∈ turns w.data.state a.1 a.2, ∀ u ∈ w.data.minted, (w.pc u).owed.map Presence.player ≠ some p

instance (w : Pg.World (Hub Player) (Pc Player)) (a : ConnId × Act Player) :
    Decidable (Alone w a) :=
  inferInstanceAs (Decidable (∀ p ∈ turns w.data.state a.1 a.2, _))

/-- The last frame about `p` that was enqueued to `o` agrees with the registry. -/
def Told (d : Hub Player) (o : ConnId) (p : Player) : Prop :=
  ∀ b, (d.queues o).said p = some b → b = d.state.online p

theorem bind_stmt
    {ip : Net.IpAddr} (player : Player)
    (hk : (Pc.accepted ip : Pc Player).Knows d t) :
    ∃ b s', Binds t player d.state b s' ∧
      (stmt limits t (.bind ip player)).change d = { d with state := s' } ∧
      (stmt limits t (.bind ip player)).after d = .bound ip player b.first b.evicted := by
  have hconn : d.state.conns.get t ≠ none := by
    rw [hk.2]
    exact some_ne_none _
  obtain ⟨b, s', hbind, hspec⟩ := bind_spec limits player hconn
  exact ⟨b, s', hspec, by simp only [stmt, hbind], by simp only [stmt, hbind]⟩

/-- A player who is not turned by a step stays as they are. -/
theorem online_step (hs : d.Sound) (hk : (stmt limits t a).before.Knows d t)
    (hnot : turns d.state t a ≠ some q) :
    ((stmt limits t a).change d).state.online q = d.state.online q := by
  cases a with
  | accept ip =>
    simp only [stmt]
    cases haccept : d.state.accept limits t ip with
    | error => rfl
    | ok =>
      obtain ⟨-, -, hplayers⟩ := accept_ok haccept
      exact online_congr hplayers q
  | bind ip player =>
    obtain ⟨b, s', hspec, hchange, -⟩ := bind_stmt player hk
    rw [hchange]
    rw [hspec.online]
    by_cases hq : q = player
    · subst hq
      have hids : d.state.ids q ≠ [] := fun hnil => hnot (if_pos hnil)
      simp [HubState.online, hids]
    · simp [hq]
  | replace ip player first evicted =>
    exact congrArg (fun s => HubState.online s q) (state_closeEvicted evicted d)
  | announce | resolve | push | delivered | shutdown => rfl
  | release ip =>
    have hspec := release_spec ip (fun q => hs.seated q t)
    have hdeparted : (d.state.release t ip).1 ≠ some q := hnot
    simp only [stmt]
    rw [hspec.departed, decide_eq_true hdeparted, Bool.and_true]

/-- The step that turns a player owes a frame that says so, and has told nobody yet. -/
theorem turned (hk : (stmt limits t a).before.Knows d t) (hturn : turns d.state t a = some q)
    (o : ConnId) : ((stmt limits t a).after d).Due o q := by
  cases a with
  | bind ip player =>
    obtain ⟨b, s', hspec, -, hafter⟩ := bind_stmt player hk
    rw [hafter]
    by_cases hids : d.state.ids player = []
    · have hq : player = q := some.inj ((if_pos hids).symm.trans hturn)
      refine ⟨?_, hq⟩
      rw [hspec.first]
      simp [HubState.online, hids]
    · have hnone : turns d.state t (.bind ip player) = none := if_neg hids
      rw [hnone] at hturn
      cases hturn
  | release ip =>
    have hdeparted : (d.state.release t ip).1 = some q := hturn
    simp only [stmt]
    rw [hdeparted]
    rfl
  | accept | replace | announce | resolve | push | delivered | shutdown => cases hturn

/-- What a task owes after its step agrees with the registry. -/
theorem agrees_own (hs : d.Sound) (hk : (stmt limits t a).before.Knows d t)
    (h : ∀ f, (stmt limits t a).before.owed = some f → f.online = d.state.online f.player)
    (f : Presence Player) (hf : ((stmt limits t a).after d).owed = some f) :
    f.online = ((stmt limits t a).change d).state.online f.player := by
  cases a with
  | accept =>
    simp only [stmt] at hf
    split at hf <;> cases hf
  | bind _ player =>
    obtain ⟨b, _, hspec, hchange, hafter⟩ := bind_stmt player hk
    rw [hafter] at hf
    rw [hchange]
    rw [hspec.online]
    cases hfirst : b.first with
    | false =>
      rw [hfirst] at hf
      cases hf
    | true =>
      rw [hfirst] at hf
      cases hf
      simp
  | replace ip player first evicted =>
    rw [show ((stmt limits t (.replace ip player first evicted)).change d).state = d.state from
      state_closeEvicted evicted d]
    cases first with
    | false => cases hf
    | true => exact h f hf
  | announce =>
    simp only [stmt] at hf
    split at hf
    · rw [owed_resume] at hf
      cases hf
    · exact h f hf
  | resolve | push => exact h f hf
  | delivered g slot =>
    rw [show ((stmt limits t (.delivered g slot)).after d).owed = none from owed_resume slot] at hf
    cases hf
  | release ip =>
    have hspec := release_spec ip (fun q => hs.seated q t)
    replace hf : (Pc.departing (d.state.release t ip).1).owed = some f := hf
    simp only [stmt]
    rw [hspec.departed]
    cases hdeparted : (d.state.release t ip).1 with
    | none =>
      rw [hdeparted] at hf
      cases hf
    | some =>
      rw [hdeparted] at hf
      cases hf
      simp
  | shutdown => cases hf

variable {w : Pg.World (Hub Player) (Pc Player)}

theorem minted_of_owed {pc : Pc Player} {f : Presence Player} (hk : pc.Knows d u)
    (h : pc.owed = some f) : u ∈ d.minted := by
  cases pc with
  | bound | announcing => exact hk.1
  | idle | accepted | serving | gone => cases h

/-- What the tasks owe agrees with the registry. -/
theorem agrees_reachable (h : (system Player limits).Reachable Alone w)
    (t : ConnId) (f : Presence Player) (hf : (w.pc t).owed = some f) :
    f.online = w.data.state.online f.player := by
  refine Pg.Programs.local_invariant (X := programs Player limits)
    (L := fun d _ pc => ∀ f, pc.owed = some f → f.online = d.state.online f.player)
    ?_ ?_ ?_ h t f hf
  · intro _ _ hf
    cases hf
  · intro _ t _ hr _ en hown
    obtain ⟨hs, hk⟩ := sound_reachable hr
    exact agrees_own hs (en.1 ▸ hk t) hown
  · intro w t a u hr hG en _ hother f hf
    obtain ⟨hs, hk⟩ := sound_reachable hr
    have hnot : turns w.data.state t a ≠ some f.player := by
      intro hturn
      exact hG f.player hturn u (minted_of_owed (hk u) hf) (by rw [hf]; rfl)
    rw [hother f hf]
    exact (online_step hs (en.1 ▸ hk t) hnot).symm

theorem said_push (f : Presence Player) {c : ConnQueue Player} (h : c.close = none) (p : Player) :
    (c.push f).said p = if f.player = p then some f.online else c.said p := by
  unfold ConnQueue.push ConnQueue.said
  rw [h]
  simp only [isSome_none, Bool.false_eq_true, if_false, List.reverse_append,
    List.reverse_singleton, List.singleton_append, List.find?_cons]
  by_cases hp : f.player = p <;> simp [hp]

theorem said_closeEvicted (evicted : Option ConnId) (d : Hub Player) (o : ConnId) (p : Player) :
    ((d.closeEvicted evicted).queues o).said p = (d.queues o).said p := by
  cases evicted with
  | none => rfl
  | some o' =>
    by_cases ho : o = o'
    · subst ho
      unfold ConnQueue.said
      rw [show (d.closeEvicted (some o)).queues o = _ from onQueue_self _, events_closeWith]
    · rw [show (d.closeEvicted (some o')).queues o = _ from onQueue_of_ne _ ho]

/-- A frame reaches a bound connection of an open front. -/
theorem told_push {f : Presence Player} (hs : d.Sound) (hopen : d.state.closing = false)
    (ho : o ∈ d.state.ids q) (hf : f.online = d.state.online f.player) :
    Told (d.onQueue o (ConnQueue.push f)) o f.player := by
  have hclose : (d.queues o).close = none := by
    by_contra hne
    exact (hs.closed hopen o hne).2 q ho
  intro _ hb
  rw [onQueue_self, said_push f hclose, if_pos rfl] at hb
  exact (some.inj hb).symm.trans hf

/-- What a bound connection was told, and what it is yet to be told, after a step. -/
theorem told_own (hpresence : limits.presence = true) (hs : d.Sound)
    (hk : (stmt limits t a).before.Knows d t)
    (hagree : ∀ f, (stmt limits t a).before.owed = some f → f.online = d.state.online f.player)
    (hopen : ((stmt limits t a).change d).state.closing = false) (ho : o ∈ d.state.ids q)
    (h : Told d o p ∨ (stmt limits t a).before.Due o p) :
    Told ((stmt limits t a).change d) o p ∨ ((stmt limits t a).after d).Due o p := by
  by_cases hturn : turns d.state t a = some p
  · exact .inr (turned hk hturn o)
  have honline := online_step hs hk hturn
  have hkept : ((((stmt limits t a).change d).queues o).said p = (d.queues o).said p) →
      Told d o p → Told ((stmt limits t a).change d) o p := by
    intro hsaid htold b hb
    rw [hsaid] at hb
    exact (htold b hb).trans honline.symm
  cases a with
  | accept =>
    refine .inl (hkept ?_ (h.resolve_right id))
    simp only [stmt]
    split <;> rfl
  | bind ip player =>
    refine .inl (hkept ?_ (h.resolve_right id))
    obtain ⟨b, s', -, hchange, -⟩ := bind_stmt player hk
    rw [hchange]
  | replace ip player first evicted =>
    refine h.imp (hkept (said_closeEvicted evicted d o p)) ?_
    rintro ⟨rfl, hp⟩
    exact hp
  | announce =>
    have hclosing : d.state.closing = false := hopen
    refine h.imp (hkept rfl) ?_
    intro hdue
    simp only [stmt, hpresence, hclosing]
    exact hdue
  | resolve =>
    refine h.imp (hkept rfl) ?_
    intro hdue
    refine ⟨hdue, List.mem_map.2 ⟨(o, some q), List.mem_filter.2 ⟨?_, rfl⟩, rfl⟩⟩
    exact FinMap.get_eq_some.1 (hs.seated q o ho)
  | push f todo slot o' =>
    have hf : f.online = d.state.online f.player := hagree f rfl
    by_cases hoo : o = o'
    · subst hoo
      by_cases hp : f.player = p
      · subst hp
        exact .inl (told_push hs hopen ho hf)
      · refine .inl (hkept ?_ (h.resolve_right (fun hdue => hp hdue.1)))
        simp only [stmt]
        have hclose : (d.queues o).close = none := by
          by_contra hne
          exact (hs.closed hopen o hne).2 q ho
        rw [onQueue_self, said_push f hclose, if_neg hp]
    · refine h.imp (hkept ?_) ?_
      · exact congrArg (fun c => ConnQueue.said c p) (onQueue_of_ne _ hoo)
      · rintro ⟨hp, hmem⟩
        exact ⟨hp, List.mem_filter.2 ⟨hmem, decide_eq_true hoo⟩⟩
  | delivered =>
    refine .inl (hkept rfl (h.resolve_right ?_))
    exact fun hdue => List.not_mem_nil hdue.2
  | release ip served =>
    refine .inl (hkept rfl (h.resolve_right ?_))
    cases served <;> exact id
  | shutdown => cases hopen

/-- A connection that is bound by a step was bound before, or has been told nothing. -/
theorem bound_step (hs : d.Sound) (hk : (stmt limits t a).before.Knows d t)
    (ho : o ∈ ((stmt limits t a).change d).state.ids q) :
    o ∈ d.state.ids q ∨ ∀ p, Told ((stmt limits t a).change d) o p := by
  cases a with
  | accept ip =>
    left
    simp only [stmt] at ho
    cases haccept : d.state.accept limits t ip with
    | error =>
      rw [haccept] at ho
      exact ho
    | ok =>
      rw [haccept] at ho
      obtain ⟨-, -, hplayers⟩ := accept_ok haccept
      unfold HubState.ids at ho ⊢
      rwa [← hplayers]
  | bind _ player =>
    obtain ⟨_, _, hspec, hchange, -⟩ := bind_stmt player hk
    rw [hchange] at ho ⊢
    refine (hspec.mem ho).imp_right ?_
    rintro ⟨rfl, -⟩ _ _ hb'
    have hsilent : (d.queues o).events = [] := hs.silent o (fun hst => hst.2 hk.2)
    unfold ConnQueue.said at hb'
    rw [hsilent] at hb'
    cases hb'
  | replace ip player first evicted =>
    rw [show ((stmt limits t (.replace ip player first evicted)).change d).state = d.state from
      state_closeEvicted evicted d] at ho
    exact .inl ho
  | announce | resolve | push | delivered | shutdown => exact .inl ho
  | release ip =>
    have hspec := release_spec ip (fun q => hs.seated q t)
    replace ho : o ∈ (d.state.release t ip).2.ids q := ho
    rw [hspec.ids] at ho
    exact .inl (List.mem_of_mem_filter ho)

/-- A front does not open again. -/
theorem open_step (hk : (stmt limits t a).before.Knows d t) (hs : d.Sound)
    (hopen : ((stmt limits t a).change d).state.closing = false) : d.state.closing = false := by
  cases a with
  | accept ip =>
    simp only [stmt] at hopen
    cases haccept : d.state.accept limits t ip with
    | error =>
      rw [haccept] at hopen
      exact hopen
    | ok =>
      rw [haccept] at hopen
      exact (accept_ok haccept).1.symm.trans hopen
  | bind _ player =>
    obtain ⟨_, _, hspec, hchange, -⟩ := bind_stmt player hk
    rw [hchange] at hopen
    exact hspec.closing.symm.trans hopen
  | replace ip player first evicted =>
    rwa [show ((stmt limits t (.replace ip player first evicted)).change d).state = d.state from
      state_closeEvicted evicted d] at hopen
  | announce | resolve | push | delivered => exact hopen
  | release ip => exact (release_spec ip (fun q => hs.seated q t)).closing.symm.trans hopen
  | shutdown => cases hopen

/-- Every bound connection of an open front was told the truth about everyone, or will
be. -/
theorem told_reachable (hpresence : limits.presence = true)
    (h : (system Player limits).Reachable Alone w) (hopen : w.data.state.closing = false)
    (ho : o ∈ w.data.state.ids q) (p : Player) : Told w.data o p ∨ ∃ t, (w.pc t).Due o p := by
  refine h.invariant ?_ ?_
    hopen q o p ho
  · exact fun _ q o p ho => absurd ho List.not_mem_nil
  rintro w ⟨t, a⟩ hr ih - en hopen q o p ho
  obtain ⟨hs, hk⟩ := sound_reachable hr
  have hkt : (stmt limits t a).before.Knows w.data t := en.1 ▸ hk t
  rcases bound_step hs hkt ho with ho | htold
  · have hagree : ∀ f, (stmt limits t a).before.owed = some f →
        f.online = w.data.state.online f.player :=
      fun f hf => agrees_reachable hr t f (en.1 ▸ hf)
    have hown : Told w.data o p ∨ (stmt limits t a).before.Due o p →
        Told ((stmt limits t a).change w.data) o p ∨ ∃ u, (((programs Player limits).effect w
          (t, a)).pc u).Due o p := by
      intro hbefore
      refine (told_own hpresence hs hkt hagree hopen ho hbefore).imp_right ?_
      intro hdue
      exact ⟨t, by rw [Pg.Programs.pc_own]; exact hdue⟩
    rcases ih (open_step hkt hs hopen) q o p ho with htold | ⟨u, hdue⟩
    · exact hown (.inl htold)
    · by_cases hu : u = t
      · subst hu
        exact hown (.inr (en.1 ▸ hdue))
      · have hpc : ((programs Player limits).effect w (t, a)).pc u = w.pc u :=
          Pg.Programs.pc_other hu
        exact .inr ⟨u, hpc ▸ hdue⟩
  · exact .inl (htold p)

end Announcements

section Result

variable {Player : Type} [DecidableEq Player]
variable {limits : PushLimits} {w : Pg.World (Hub Player) (Pc Player)}

/-- Only tasks that have an id can be busy. -/
theorem atRest_of_minted {G : Pg.World (Hub Player) (Pc Player) → ConnId × Act Player → Prop}
    (h : (system Player limits).Reachable G w) (hrest : ∀ t ∈ w.data.minted, (w.pc t).atRest = true)
    (t : ConnId) : (w.pc t).atRest = true := by
  have hk := (sound_reachable h).2 t
  cases hpc : w.pc t with
  | bound | announcing =>
    rw [hpc] at hk
    exact hpc ▸ hrest t hk.1
  | idle | accepted | serving | gone => rfl

/-- Where every player changes over only while nobody owes a frame about them, the last
frame about a player that was enqueued to a bound connection says whether the player is
online, whenever the tasks of an open front are at rest. -/
theorem presence_not_latched (hpresence : limits.presence = true)
    (h : (system Player limits).Reachable Alone w) (hrest : ∀ t, (w.pc t).atRest = true)
    (hopen : w.data.state.closing = false) {o : ConnId} {q : Player} (ho : o ∈ w.data.state.ids q)
    (p : Player) (b : Bool) (hsaid : (w.data.queues o).said p = some b) :
    b = true ↔ w.data.state.ids p ≠ [] := by
  have htold : Told w.data o p := by
    refine (told_reachable hpresence h hopen ho p).resolve_right ?_
    rintro ⟨t, hdue⟩
    have hrest := hrest t
    cases hpc : w.pc t with
    | bound | announcing =>
      rw [hpc] at hrest
      cases hrest
    | idle | accepted | serving | gone =>
      rw [hpc] at hdue
      exact hdue
  rw [htold b hsaid]
  exact decide_eq_true_iff

/-- A front with the default caps. -/
def defaultLimits : PushLimits where
  maxConnections := 10000
  maxPerIp := 64
  maxPerPlayer := 8
  presence := true
  connections_pos := by decide
  perIp_pos := by decide
  perPlayer_pos := by decide

def localhost : Net.IpAddr := .v4 0x7f000001

/-- A connection is accepted and bound, and the frame of its player is called for. -/
def comes (t : ConnId) (player : Nat) : List (ConnId × Act Nat) :=
  [(t, .accept localhost), (t, .bind localhost player), (t, .replace localhost player true none)]

/-- A frame is enqueued to the connections `todo`. -/
def tells (t : ConnId) (f : Presence Nat) (slot : Option Net.IpAddr) (todo : List ConnId) :
    List (ConnId × Act Nat) :=
  [(t, .announce f slot), (t, .resolve f slot)] ++
    (todo.tails.filterMap (fun rest => rest.head?.map (fun o => (t, Act.push f rest slot o)))) ++
    [(t, .delivered f slot)]

/-- Player `8` comes, goes and comes back, while a connection of `7` is watching. -/
def returningRun : List (ConnId × Act Nat) :=
  comes 1 7 ++ tells 1 ⟨7, true⟩ (some localhost) [1] ++
    comes 2 8 ++ tells 2 ⟨8, true⟩ (some localhost) [2, 1] ++
    [(2, .release localhost true)] ++ tells 2 ⟨8, false⟩ none [1] ++
    comes 3 8 ++ tells 3 ⟨8, true⟩ (some localhost) [3, 1]

/-- The same, but the player is back before the departure is announced. -/
def overtakenRun : List (ConnId × Act Nat) :=
  comes 1 7 ++ tells 1 ⟨7, true⟩ (some localhost) [1] ++
    comes 2 8 ++ tells 2 ⟨8, true⟩ (some localhost) [2, 1] ++
    [(2, .release localhost true)] ++
    comes 3 8 ++ tells 3 ⟨8, true⟩ (some localhost) [3, 1] ++
    tells 2 ⟨8, false⟩ none [3, 1]

/-- The player comes back after the departure was announced: the watcher sees them. -/
theorem presence_of_return :
    ∃ w, (system Nat defaultLimits).Reachable Alone w ∧ (w.data.queues 1).said 8 = some true ∧
      (true = true ↔ w.data.state.ids 8 ≠ []) := by
  obtain ⟨w, hw, hfacts⟩ := exec_exhibits
    (T := system Nat defaultLimits) Alone returningRun
    (f := fun w => decide ((∀ t ∈ w.data.minted, (w.pc t).atRest = true) ∧
      w.data.state.closing = false ∧ 1 ∈ w.data.state.ids 7 ∧
      (w.data.queues 1).said 8 = some true)) (by decide +kernel)
  obtain ⟨hrest, hopen, hbound, hsaid⟩ := of_decide_eq_true hfacts
  exact ⟨w, hw, hsaid,
    presence_not_latched rfl hw (atRest_of_minted hw hrest) hopen hbound 8 true hsaid⟩

/-- The player comes back before the departure is announced: the watcher is told that they
are offline, and they are bound. -/
theorem presence_latched :
    ∃ w, (system Nat defaultLimits).Reachable TransitionSystem.anyStep w ∧
      (∀ t, (w.pc t).atRest = true) ∧ w.data.state.closing = false ∧
      1 ∈ w.data.state.ids 7 ∧ (w.data.queues 1).said 8 = some false ∧
      w.data.state.ids 8 = [3] := by
  obtain ⟨w, hw, hfacts⟩ := exec_exhibits
    (T := system Nat defaultLimits) anyStep overtakenRun
    (f := fun w => decide ((∀ t ∈ w.data.minted, (w.pc t).atRest = true) ∧
      w.data.state.closing = false ∧ 1 ∈ w.data.state.ids 7 ∧
      (w.data.queues 1).said 8 = some false ∧ w.data.state.ids 8 = [3])) (by decide +kernel)
  obtain ⟨hrest, hfacts⟩ := of_decide_eq_true hfacts
  exact ⟨w, hw, atRest_of_minted hw hrest, hfacts⟩

end Result

end Swarog.Gateway
