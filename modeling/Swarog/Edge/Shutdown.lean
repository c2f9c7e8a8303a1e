import Swarog.FinMap
import Swarog.Pg.Transition

/-!
# The graceful shutdown of an edge server

The endpoint loop and the stream loop of every connection admit work in separate steps: the
`select!` takes an item, `enter` counts a guard and registers it, the task is spawned, and
`track` files its abort handle.  `shutdown` sets the closing flag, waits until no guard is
counted or the grace is over, and then aborts the tasks whose handle is filed.

A loop that finds an item and the closing flag at once may take the item.  If it does so after
`shutdown` has read the counter or the handles, or has not filed the handle by then, the task
is missed.  `Orderly` excludes just that.
-/

namespace Swarog.Edge

open TransitionSystem FinMap List

section Model

/-- How far a task is.  Its guard is counted and registered before it is spawned; when its
handler is over, the guard is taken out of the registry and then uncounted. -/
inductive Phase
  | counted
  | registered
  | running
  | finished
  | dropped
deriving DecidableEq

/-- A task, of a connection or of a stream; `told` says that it was aborted. -/
structure Task where
  conn : Bool
  phase : Phase
  told : Bool
deriving DecidableEq

namespace Task

def started (t : Task) : Bool := t.phase = .running || t.phase = .finished || t.phase = .dropped

/-- The handler is over. -/
def ended (t : Task) : Bool := t.phase = .finished || t.phase = .dropped

def guarded (t : Task) : Bool := t.phase ≠ .dropped

end Task

/-- The endpoint loop of `listen`, and the loop of `serve_conn` in a connection task. -/
inductive Loop
  | endpoint
  | conn (id : Nat)
deriving DecidableEq

/-- Where a loop is.  While it admits a task, the phase of the task says what comes next. -/
inductive Point
  | selecting
  | accepted
  | admitting (id : Nat)
  | ended
deriving DecidableEq

def Point.admits : Point → Bool
  | .accepted | .admitting _ => true
  | _ => false

/-- Where `shutdown` is. -/
inductive Drain
  | listening
  | waiting
  | expired
  | aborting (rest : List Nat)
  | drained
  | closed
  | returned
deriving DecidableEq

namespace Drain

/-- `shutdown` has read the counter at zero, or the handles. -/
def decided : Drain → Bool
  | .listening | .waiting | .expired => false
  | _ => true

/-- The handles that are still to be aborted. -/
def stragglers : Drain → List Nat
  | .aborting rest => rest
  | _ => []

end Drain

/-- `ShutdownState`, the tasks by their ids, the loops that have begun, and `shutdown`;
`expired` says that the grace ran out. -/
structure State where
  closing : Bool
  inFlight : Nat
  handles : FinMap Nat (Option Nat)
  tasks : List Task
  loops : FinMap Loop Point
  expired : Bool
  drain : Drain

namespace State

def start : State where
  closing := false
  inFlight := 0
  handles := FinMap.empty
  tasks := []
  loops := FinMap.empty.set .endpoint .selecting
  expired := false
  drain := .listening

def put (s : State) (id : Nat) (t : Task) : State := { s with tasks := s.tasks.set id t }

def goto (s : State) (l : Loop) (p : Point) : State := { s with loops := s.loops.set l p }

/-- `take_abort_handles`. -/
def takeAbortHandles (s : State) : List Nat := s.handles.entries.filterMap Prod.snd

/-- `track`. -/
def track (s : State) (id : Nat) : State :=
  match s.handles.get id with
  | some _ => { s with handles := s.handles.set id (some id) }
  | none => s

/-- `abort` of one handle. -/
def tell (s : State) (id : Nat) : State :=
  match s.tasks[id]? with
  | some t => s.put id { t with told := true }
  | none => s

/-- How many tasks have been spawned. -/
def spawned (s : State) : Nat := s.tasks.countP Task.started

end State

/-- The steps; a label carries the task that the step finds. -/
inductive Act
  | accept (l : Loop)
  | count (l : Loop)
  | register (l : Loop) (id : Nat) (t : Task)
  | spawn (l : Loop) (id : Nat) (t : Task)
  | track (l : Loop) (id : Nat) (t : Task)
  | leave (l : Loop)
  | serve (id : Nat) (t : Task)
  | finish (id : Nat) (t : Task)
  | drop (id : Nat) (t : Task)
  | beginClosing
  | idle
  | expire
  | snapshot
  | abort (id : Nat) (rest : List Nat)
  | close
  | return_

namespace State

def enabled (s : State) : Act → Prop
  | .accept l => s.loops.get l = some .selecting
  | .count l => s.loops.get l = some .accepted
  | .register l id t =>
    s.loops.get l = some (.admitting id) ∧ s.tasks[id]? = some t ∧ t.phase = .counted
  | .spawn l id t =>
    s.loops.get l = some (.admitting id) ∧ s.tasks[id]? = some t ∧ t.phase = .registered
  | .track l id t => s.loops.get l = some (.admitting id) ∧ s.tasks[id]? = some t ∧ t.started = true
  -- a connection may end by itself, the endpoint only when it closes
  | .leave l => s.loops.get l = some .selecting ∧ (s.closing = true ∨ l ≠ .endpoint)
  | .serve id t =>
    s.tasks[id]? = some t ∧ t.conn = true ∧ t.phase = .running ∧ s.loops.get (.conn id) = none
  -- the body of the task is over, or the task is cancelled where it waits
  | .finish id t =>
    s.tasks[id]? = some t ∧ t.phase = .running ∧
      (s.loops.get (.conn id) = none ∨ s.loops.get (.conn id) = some .ended ∨
        t.told = true ∧ s.loops.get (.conn id) = some .selecting)
  | .drop id t => s.tasks[id]? = some t ∧ t.phase = .finished
  | .beginClosing => s.drain = .listening
  | .idle => s.drain = .waiting ∧ s.inFlight = 0
  | .expire => s.drain = .waiting
  | .snapshot => s.drain = .expired
  | .abort id rest => s.drain = .aborting (id :: rest)
  | .close => s.drain = .drained ∨ s.drain = .aborting []
  | .return_ => s.drain = .closed

def effect (s : State) : Act → State
  | .accept l => s.goto l .accepted
  | .count l =>
    { s.goto l (.admitting s.tasks.length) with
      inFlight := s.inFlight + 1
      tasks := s.tasks ++ [⟨l = .endpoint, .counted, false⟩] }
  | .register _ id t =>
    { s.put id { t with phase := .registered } with handles := s.handles.set id none }
  | .spawn _ id t => s.put id { t with phase := .running }
  | .track l id _ => (s.track id).goto l .selecting
  | .leave l => s.goto l .ended
  | .serve id _ => s.goto (.conn id) .selecting
  | .finish id t =>
    { (s.put id { t with phase := .finished }).goto (.conn id) .ended with
      handles := s.handles.remove id }
  | .drop id t => { s.put id { t with phase := .dropped } with inFlight := s.inFlight - 1 }
  | .beginClosing => { s with closing := true, drain := .waiting }
  | .idle => { s with drain := .drained }
  | .expire => { s with expired := true, drain := .expired }
  | .snapshot => { s with drain := .aborting s.takeAbortHandles }
  | .abort id rest => { s.tell id with drain := .aborting rest }
  | .close => { s with drain := .closed }
  | .return_ => { s with drain := .returned }

instance (s : State) (a : Act) : Decidable (s.enabled a) := by
  cases a <;> dsimp only [enabled] <;> infer_instance

end State

def serving : TransitionSystem State Act where
  start := State.start
  enabled := State.enabled
  effect := State.effect

instance (s : State) (a : Act) : Decidable (serving.enabled s a) :=
  inferInstanceAs (Decidable (s.enabled a))

/-- A connection is taken up after `shutdown` has returned. -/
theorem shutdown_misses_task :
    ∃ s s', serving.Reachable TransitionSystem.anyStep s ∧
      (s.drain = .returned ∧ s.tasks = []) ∧
      serving.Reaches TransitionSystem.anyStep s s' ∧
      (s'.drain = .returned ∧ s'.tasks = [⟨true, .running, false⟩]) := by
  obtain ⟨s, s', hr, hs, hrun, hs'⟩ := exec_exhibits_later
    (T := serving) anyStep
    [.beginClosing, .idle, .close, .return_]
    [.accept .endpoint, .count .endpoint, .register .endpoint 0 ⟨true, .counted, false⟩,
      .spawn .endpoint 0 ⟨true, .registered, false⟩]
    (f := fun s => decide (s.drain = .returned ∧ s.tasks = []))
    (g := fun s => decide (s.drain = .returned ∧ s.tasks = [⟨true, .running, false⟩]))
    (by decide +kernel)
  exact ⟨s, s', hr, of_decide_eq_true hs, hrun, of_decide_eq_true hs'⟩

end Model

section Orderly

variable {G : State → Act → Prop} {s s' : State} {a : Act} {id j : Nat} {t t' : Task}
variable {l l' : Loop} {p : Point}

/-- When `shutdown` reads the counter at zero or the handles, no loop is admitting a task, and
afterwards none takes an item. -/
def Orderly (s : State) : Act → Prop
  | .accept _ => s.drain.decided = false
  | .idle | .snapshot => ∀ e ∈ s.loops.entries, e.2.admits = false
  | _ => True

instance (s : State) (a : Act) : Decidable (Orderly s a) := by
  cases a <;> dsimp only [Orderly] <;> infer_instance

theorem get_put (h : s.tasks[id]? = some t) :
    (s.put id t').tasks[j]? = if id = j then some t' else s.tasks[j]? := by
  obtain ⟨hlt, -⟩ := List.getElem?_eq_some_iff.1 h
  simp [State.put, List.getElem?_set, hlt]

theorem countP_put {f : Task → Bool} (u : Task) (h : s.tasks[id]? = some t) :
    (s.put id u).tasks.countP f + (if f t then 1 else 0) =
      s.tasks.countP f + (if f u then 1 else 0) := by
  obtain ⟨hlt, rfl⟩ := List.getElem?_eq_some_iff.1 h
  have hpos : f s.tasks[id] = true → 0 < s.tasks.countP f :=
    fun hf => countP_pos_iff.2 ⟨_, getElem_mem hlt, hf⟩
  simp only [State.put, countP_set hlt]
  split
  · rename_i hf
    have := hpos hf
    omega
  · omega

theorem get_goto : (s.goto l p).loops.get l' = if l' = l then some p else s.loops.get l' := by
  split
  · rename_i heq
    rw [heq]
    exact get_set_self _ _ _
  · rename_i hne
    exact get_set_of_ne _ hne

theorem get_track :
    (s.track id).handles.get j =
      if j = id then (s.handles.get id).map (fun _ => some id) else s.handles.get j := by
  unfold State.track
  split
  · rename_i v hv
    split
    · rename_i heq
      rw [heq, get_set_self, hv]
      rfl
    · rename_i hne
      exact get_set_of_ne _ hne
  · rename_i hnone
    split
    · rename_i heq
      rw [heq, hnone]
      rfl
    · rfl

/-- The handle of a task is filed, or its loop is still about to do so. -/
def State.Filed (s : State) (id : Nat) : Phase → Prop
  | .registered => s.handles.get id = some none
  | .running => s.handles.get id = some (some id) ∨
      s.handles.get id = some none ∧ ∃ l, s.loops.get l = some (.admitting id)
  | _ => True

/-- The counter counts the guards, and tasks are aborted only when the grace is over. -/
structure State.Sound (s : State) : Prop where
  counted : s.inFlight = s.tasks.countP Task.guarded
  filed : ∀ id t, s.tasks[id]? = some t → s.Filed id t.phase
  graced : s.expired = false →
    (∀ t ∈ s.tasks, t.told = false) ∧ s.drain ≠ .expired ∧ ∀ rest, s.drain ≠ .aborting rest

theorem counted_step (en : s.enabled a) (h : s.inFlight = s.tasks.countP Task.guarded) :
    (s.effect a).inFlight = (s.effect a).tasks.countP Task.guarded := by
  -- a task that keeps its guard
  have hput : ∀ {id t t'}, s.tasks[id]? = some t → t.guarded = true → t'.guarded = true →
      s.inFlight = (s.put id t').tasks.countP Task.guarded := by
    intro id t t' ht hg hg'
    have hcount := countP_put t' (f := Task.guarded) ht
    rw [hg, hg'] at hcount
    exact h.trans (Nat.add_right_cancel hcount).symm
  cases a with
  | count => simp [State.effect, h, countP_append, Task.guarded]
  | register l id t => exact hput en.2.1 (by simp [Task.guarded, en.2.2]) rfl
  | spawn l id t => exact hput en.2.1 (by simp [Task.guarded, en.2.2]) rfl
  | finish id t => exact hput en.1 (by simp [Task.guarded, en.2.1]) rfl
  | track l id => simp only [State.effect, State.track, State.goto]; split <;> exact h
  | drop id t =>
    have hcount := countP_put { t with phase := .dropped } (f := Task.guarded) en.1
    have hold : t.guarded = true := by simp [Task.guarded, en.2]
    rw [hold, show Task.guarded { t with phase := .dropped } = false from rfl] at hcount
    show s.inFlight - 1 = (s.put id _).tasks.countP Task.guarded
    simp at hcount
    omega
  | abort id =>
    show (s.tell id).inFlight = (s.tell id).tasks.countP Task.guarded
    unfold State.tell
    split
    · rename_i t ht
      have hcount := countP_put { t with told := true } (f := Task.guarded) ht
      exact h.trans (Nat.add_right_cancel hcount).symm
    · exact h
  | _ => exact h

/-- A step that leaves the handle and the admitting loop of a task alone. -/
theorem State.Filed.mono {ph : Phase} (h : s.Filed id ph)
    (hget : s'.handles.get id = s.handles.get id)
    (hloop : ∀ l, s.loops.get l = some (.admitting id) →
      ∃ l, s'.loops.get l = some (.admitting id)) : s'.Filed id ph := by
  cases ph with
  | registered => exact hget.trans h
  | running =>
    refine h.imp hget.trans ?_
    rintro ⟨hnone, l, hl⟩
    exact ⟨hget.trans hnone, hloop l hl⟩
  | _ => trivial

/-- A loop moves that admits no task. -/
theorem admitting_goto (h : ∀ p, s.loops.get l = some p → p ≠ .admitting id)
    (hl : s.loops.get l' = some (.admitting id)) :
    ∃ l', (s.goto l p).loops.get l' = some (.admitting id) := by
  refine ⟨l', ?_⟩
  rw [get_goto, if_neg, hl]
  rintro rfl
  exact h _ hl rfl

theorem filed_put (h : ∀ id t, s.tasks[id]? = some t → s.Filed id t.phase)
    (ht : s.tasks[id]? = some t) (htasks : s'.tasks = (s.put id t').tasks)
    (hnew : s'.Filed id t'.phase) (hold : ∀ j ph, j ≠ id → s.Filed j ph → s'.Filed j ph) :
    ∀ id t, s'.tasks[id]? = some t → s'.Filed id t.phase := by
  intro j u hj
  rw [htasks, get_put ht] at hj
  split at hj
  · rename_i heq
    cases hj
    exact heq ▸ hnew
  · rename_i hne
    exact hold j _ (Ne.symm hne) (h j u hj)

theorem filed_step (en : s.enabled a) (h : ∀ id t, s.tasks[id]? = some t → s.Filed id t.phase) :
    ∀ id t, (s.effect a).tasks[id]? = some t → (s.effect a).Filed id t.phase := by
  have hsame : ∀ {s' : State}, s'.tasks = s.tasks →
      (∀ j ph, s.Filed j ph → s'.Filed j ph) →
        ∀ id t, s'.tasks[id]? = some t → s'.Filed id t.phase :=
    fun htasks hfiled j u hj => hfiled j _ (h j u (htasks ▸ hj))
  cases a with
  | accept l =>
    refine hsame rfl (fun j ph hf => hf.mono rfl (fun l' => admitting_goto ?_))
    rintro p hp rfl
    cases (show s.loops.get l = some .selecting from en).symm.trans hp
  | leave l =>
    refine hsame rfl (fun j ph hf => hf.mono rfl (fun l' => admitting_goto ?_))
    rintro p hp rfl
    cases en.1.symm.trans hp
  | serve id t =>
    refine hsame rfl (fun j ph hf => hf.mono rfl (fun l' => admitting_goto ?_))
    rintro p hp rfl
    cases en.2.2.2.symm.trans hp
  | count l =>
    intro j u hj
    have hj : (s.tasks ++ [⟨l = .endpoint, .counted, false⟩])[j]? = some u := hj
    rw [List.getElem?_append] at hj
    split at hj
    · refine (h j u hj).mono rfl (fun l' => admitting_goto ?_)
      rintro p hp rfl
      cases (show s.loops.get l = some .accepted from en).symm.trans hp
    · cases mem_singleton.1 (mem_of_getElem? hj)
      trivial
  | register l id t =>
    refine filed_put h en.2.1 rfl (get_set_self _ _ _) ?_
    exact fun j ph hne hf => hf.mono (get_set_of_ne _ hne) (fun l hl => ⟨l, hl⟩)
  | spawn l id t =>
    have hreg := h id t en.2.1
    rw [en.2.2] at hreg
    exact filed_put h en.2.1 rfl (.inr ⟨hreg, l, en.1⟩) (fun _ _ _ hf => hf)
  | track l id t =>
    have hkept : (s.track id).tasks = s.tasks ∧ (s.track id).loops = s.loops := by
      unfold State.track
      split <;> exact ⟨rfl, rfl⟩
    intro j u hj
    have hu : s.tasks[j]? = some u := hkept.1 ▸ hj
    have hget : ((s.track id).goto l .selecting).handles.get j = _ := get_track
    by_cases heq : j = id
    · -- the task has been spawned, and its handle is filed now if its guard is there
      subst heq
      rw [if_pos rfl] at hget
      have hut : u = t := Option.some.inj (hu.symm.trans en.2.1)
      have hf := h j u hu
      cases hph : u.phase with
      | registered =>
        have hstarted := en.2.2
        simp [← hut, Task.started, hph] at hstarted
      | running =>
        rw [hph] at hf
        refine .inl (hget.trans ?_)
        rcases hf with hf | ⟨hf, -⟩ <;> rw [hf] <;> rfl
      | _ => trivial
    · rw [if_neg heq] at hget
      refine (h j u hu).mono hget (fun l' hl' => admitting_goto ?_ (hkept.2 ▸ hl'))
      rintro p hp rfl
      rw [hkept.2, en.1] at hp
      cases hp
      exact heq rfl
  | finish id t =>
    refine filed_put h en.1 rfl trivial ?_
    refine fun j ph hne hf => hf.mono (get_remove_of_ne hne) ?_
    refine fun l' => admitting_goto ?_
    rintro p hp rfl
    rcases en.2.2 with hl | hl | ⟨-, hl⟩ <;> cases hl.symm.trans hp
  | drop id t => exact filed_put h en.1 rfl trivial (fun _ _ _ hf => hf)
  | abort id =>
    show ∀ j u, (s.tell id).tasks[j]? = some u → (s.tell id).Filed j u.phase
    unfold State.tell
    split
    · rename_i t ht
      exact filed_put h ht rfl (h id t ht) (fun _ _ _ hf => hf)
    · exact h
  | _ => exact hsame rfl (fun _ _ hf => hf)

theorem sound_reachable (h : serving.Reachable G s) : s.Sound := by
  refine h.invariant ⟨rfl, by simp [serving, State.start], ?_⟩ ?_
  · exact fun _ => ⟨by simp [serving, State.start], Drain.noConfusion, fun _ => Drain.noConfusion⟩
  intro s a _ hs _ en
  refine ⟨counted_step en hs.counted, filed_step en hs.filed, ?_⟩
  intro hgrace
  -- a task that moves on is told what it was told before
  have hput : ∀ {id : Nat} {t t' : Task}, s.tasks[id]? = some t → t'.told = t.told →
      s.expired = false → ∀ u ∈ s.tasks.set id t', u.told = false := by
    intro id t t' ht htold hexp u hu
    rcases mem_or_eq_of_mem_set hu with hu | rfl
    · exact (hs.graced hexp).1 u hu
    · exact htold.trans ((hs.graced hexp).1 t (mem_of_getElem? ht))
  cases a with
  | count l =>
    obtain ⟨htold, hdrain⟩ := hs.graced hgrace
    refine ⟨fun u hu => ?_, hdrain⟩
    rcases mem_append.1 hu with hu | hu
    · exact htold u hu
    · cases mem_singleton.1 hu
      rfl
  | register l id t => exact ⟨hput en.2.1 rfl hgrace, (hs.graced hgrace).2⟩
  | spawn l id t => exact ⟨hput en.2.1 rfl hgrace, (hs.graced hgrace).2⟩
  | track l id =>
    have hkept : (s.track id) = { s with handles := (s.track id).handles } := by
      unfold State.track
      split <;> rfl
    simp only [serving, State.effect, State.goto] at hgrace ⊢
    rw [hkept] at hgrace ⊢
    exact hs.graced hgrace
  | finish id t => exact ⟨hput en.1 rfl hgrace, (hs.graced hgrace).2⟩
  | drop id t => exact ⟨hput en.1 rfl hgrace, (hs.graced hgrace).2⟩
  | expire => cases hgrace
  | beginClosing | idle | close | return_ =>
    exact ⟨(hs.graced hgrace).1, Drain.noConfusion, fun _ => Drain.noConfusion⟩
  | snapshot => exact absurd en (hs.graced hgrace).2.1
  | abort id rest =>
    have hexp : (s.tell id).expired = s.expired := by
      unfold State.tell
      split <;> rfl
    exact absurd en ((hs.graced (hexp.symm.trans hgrace)).2.2 _)
  | _ => exact hs.graced hgrace

/-- No loop is admitting a task, and the tasks that run have been told to stop, or will be. -/
structure State.Settled (s : State) : Prop where
  still : ∀ l p, s.loops.get l = some p → p.admits = false
  told : ∀ id t, s.tasks[id]? = some t → t.phase = .running →
    t.told = true ∨ id ∈ s.drain.stragglers

/-- Once `shutdown` has decided, a task moves on only to its end. -/
theorem State.Settled.put (h : s.Settled) (ht : s.tasks[id]? = some t)
    (hphase : t'.phase ≠ .running) (htasks : s'.tasks = (s.put id t').tasks)
    (hdrain : s'.drain = s.drain) :
    ∀ j u, s'.tasks[j]? = some u → u.phase = .running →
      u.told = true ∨ j ∈ s'.drain.stragglers := by
  intro j u hj hu
  rw [htasks, get_put ht] at hj
  split at hj
  · cases hj
    exact absurd hu hphase
  · exact hdrain ▸ h.told j u hj hu

theorem still_goto (h : ∀ l p, s.loops.get l = some p → p.admits = false) (hp : p.admits = false) :
    ∀ l' q, (s.goto l p).loops.get l' = some q → q.admits = false := by
  intro l' q hq
  rw [get_goto] at hq
  split at hq
  · cases hq
    exact hp
  · exact h l' q hq

/-- `shutdown` decides. -/
theorem settled_decides (hsound : s.Sound) (hG : Orderly s a) (en : s.enabled a)
    (ha : a = .idle ∨ a = .snapshot) : (s.effect a).Settled := by
  have hstill : ∀ l p, s.loops.get l = some p → p.admits = false := by
    intro l p hp
    rcases ha with rfl | rfl <;> exact hG (l, p) (get_eq_some.1 hp)
  rcases ha with rfl | rfl
  · refine ⟨hstill, fun id t ht hrun => ?_⟩
    have hzero := hsound.counted.symm.trans en.2
    have hnot := countP_eq_zero.1 hzero t (mem_of_getElem? ht)
    exact absurd (by simp [Task.guarded, hrun]) hnot
  · refine ⟨hstill, fun id t ht hrun => .inr ?_⟩
    have hfiled := hsound.filed id t ht
    rw [hrun] at hfiled
    rcases hfiled with hfiled | ⟨-, l, hl⟩
    · exact mem_filterMap.2 ⟨(id, some id), get_eq_some.1 hfiled, rfl⟩
    · cases hstill l _ hl

theorem settled_step (h : s.Settled) (hdec : s.drain.decided = true) (hG : Orderly s a)
    (en : s.enabled a) : (s.effect a).Settled := by
  cases a with
  | accept l => exact absurd (hdec.symm.trans hG) (by decide)
  | count l => cases h.still l _ en
  | register l id t | spawn l id t | track l id t => cases h.still l _ en.1
  | leave l | serve id t => exact ⟨still_goto h.still rfl, h.told⟩
  | finish id t => exact ⟨still_goto h.still rfl, h.put en.1 Phase.noConfusion rfl rfl⟩
  | drop id t => exact ⟨h.still, h.put en.1 Phase.noConfusion rfl rfl⟩
  | beginClosing | expire | snapshot => cases (congrArg Drain.decided en).symm.trans hdec
  | idle => cases (congrArg Drain.decided en.1).symm.trans hdec
  | abort id rest =>
    have hrest : s.drain.stragglers = id :: rest := congrArg Drain.stragglers en
    constructor
    · show ∀ l p, (s.tell id).loops.get l = some p → p.admits = false
      unfold State.tell
      split <;> exact h.still
    · intro j u hput hrun
      have hj : (s.tell id).tasks[j]? = some u := hput
      have hkept : j ≠ id → s.tasks[j]? = some u → u.told = true ∨ j ∈ rest := by
        intro hne hu
        have hor := h.told j u hu hrun
        rw [hrest] at hor
        exact hor.imp_right (fun hmem => (mem_cons.1 hmem).resolve_left hne)
      unfold State.tell at hj
      split at hj
      · rename_i t ht
        rw [get_put ht] at hj
        split at hj
        · cases hj
          exact .inl rfl
        · rename_i hne
          exact hkept (Ne.symm hne) hj
      · rename_i hnone
        refine hkept ?_ hj
        rintro rfl
        exact absurd hj (by simp [hnone])
  | close =>
    refine ⟨h.still, fun id t ht hrun => (h.told id t ht hrun).imp_right ?_⟩
    rcases en with en | en <;> rw [en] <;> exact fun hmem => (by cases hmem)
  | return_ =>
    refine ⟨h.still, fun id t ht hrun => (h.told id t ht hrun).imp_right ?_⟩
    rw [show s.drain = .closed from en]
    exact fun hmem => (by cases hmem)

theorem drain_track : (s.track id).drain = s.drain := by
  unfold State.track
  split <;> rfl

theorem decided_step (hdec : s.drain.decided = true) (en : s.enabled a) :
    (s.effect a).drain.decided = true := by
  cases a with
  | track l id => exact (congrArg Drain.decided drain_track).trans hdec
  | beginClosing | expire => cases (congrArg Drain.decided en).symm.trans hdec
  | idle | snapshot | abort | close | return_ => rfl
  | _ => exact hdec

theorem decides (hnot : s.drain.decided = false) (en : s.enabled a)
    (hdec : (s.effect a).drain.decided = true) : a = .idle ∨ a = .snapshot := by
  cases a with
  | idle => exact .inl rfl
  | snapshot => exact .inr rfl
  | beginClosing | expire => cases hdec
  | track => cases hnot.symm.trans ((congrArg Drain.decided drain_track).symm.trans hdec)
  | abort id rest | return_ => cases hnot.symm.trans (congrArg Drain.decided en)
  | close => rcases en with en | en <;> cases hnot.symm.trans (congrArg Drain.decided en)
  | _ => cases hnot.symm.trans hdec

theorem settled_reachable (h : serving.Reachable Orderly s) :
    s.drain.decided = true → s.Settled := by
  refine h.invariant (fun hdec => ?_) ?_
  · cases hdec
  intro s _ hr hs hG en hdec
  cases hnot : s.drain.decided with
  | true => exact settled_step (hs hnot) hnot hG en
  | false => exact settled_decides (sound_reachable hr) hG en (decides hnot en hdec)

/-- After the decision nothing is spawned. -/
theorem spawned_step (h : s.Settled) (en : s.enabled a) : (s.effect a).spawned = s.spawned := by
  have hput : ∀ {id t t'}, s.tasks[id]? = some t → t.started = t'.started →
      (s.put id t').spawned = s.spawned := by
    intro _ _ t' ht hst
    have hcount := countP_put t' (f := Task.started) ht
    rw [hst] at hcount
    exact Nat.add_right_cancel hcount
  cases a with
  | count l => cases h.still l _ en
  | register l id t | spawn l id t | track l id t => cases h.still l _ en.1
  | finish => exact hput en.1 (by simp [Task.started, en.2.1])
  | drop => exact hput en.1 (by simp [Task.started, en.2])
  | abort id =>
    show (s.tell id).spawned = s.spawned
    unfold State.tell
    split
    · rename_i t ht
      exact hput ht rfl
    · rfl
  | _ => rfl

/-- When `shutdown` has returned, every task that was ever spawned is over or has been told to
abort, and none is spawned later; and none was aborted unless the grace ran out.  That is so if
no loop is admitting a task when `shutdown` reads the counter at zero or the handles, and none
takes an item afterwards. -/
theorem shutdown_leaves_nothing (h : serving.Reachable Orderly s) (hdone : s.drain = .returned) :
    (∀ t ∈ s.tasks, t.started = true → t.ended = true ∨ t.told = true) ∧
      (∀ s', serving.Reaches Orderly s s' → s'.spawned = s.spawned) ∧
      (s.expired = false → ∀ t ∈ s.tasks, t.told = false) := by
  have hdec : s.drain.decided = true := congrArg Drain.decided hdone
  refine ⟨?_, ?_, fun hexp => ((sound_reachable h).graced hexp).1⟩
  · intro t ht hstarted
    obtain ⟨id, hid⟩ := mem_iff_getElem?.1 ht
    cases hph : t.phase with
    | counted | registered => simp [Task.started, hph] at hstarted
    | finished | dropped => exact .inl (by simp [Task.ended, hph])
    | running =>
      rcases (settled_reachable h hdec).told id t hid hph with htold | hmem
      · exact .inr htold
      · rw [hdone] at hmem
        cases hmem
  · intro s' hrun
    suffices hlater : s'.drain.decided = true ∧ s'.spawned = s.spawned from hlater.2
    induction hrun with
    | refl => exact ⟨hdec, rfl⟩
    | tail _ run _ en ih =>
      have hs := settled_reachable (h.trans run) ih.1
      exact ⟨decided_step ih.1 en, (spawned_step hs en).trans ih.2⟩

/-- A connection and a stream of it are aborted. -/
theorem shutdown_leaves_nothing_expired :
    ∃ s, serving.Reachable Orderly s ∧
      s.tasks = [⟨true, .running, true⟩, ⟨false, .running, true⟩] ∧
      ∀ s', serving.Reaches Orderly s s' → s'.spawned = s.spawned := by
  obtain ⟨s, hs, hf⟩ := exec_exhibits (T := serving) Orderly
    [.accept .endpoint, .count .endpoint, .register .endpoint 0 ⟨true, .counted, false⟩,
      .spawn .endpoint 0 ⟨true, .registered, false⟩, .serve 0 ⟨true, .running, false⟩,
      .accept (.conn 0), .count (.conn 0), .register (.conn 0) 1 ⟨false, .counted, false⟩,
      .spawn (.conn 0) 1 ⟨false, .registered, false⟩,
      .track (.conn 0) 1 ⟨false, .running, false⟩,
      .beginClosing, .track .endpoint 0 ⟨true, .running, false⟩, .expire, .snapshot,
      .abort 0 [1], .abort 1 [], .close, .return_]
    (f := fun s => decide (s.drain = .returned ∧
      s.tasks = [⟨true, .running, true⟩, ⟨false, .running, true⟩])) (by decide +kernel)
  obtain ⟨hdone, htasks⟩ := of_decide_eq_true hf
  exact ⟨s, hs, htasks, (shutdown_leaves_nothing hs hdone).2.1⟩

end Orderly

end Swarog.Edge
