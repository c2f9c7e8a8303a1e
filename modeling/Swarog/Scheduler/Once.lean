import Swarog.Scheduler.Tick

/-!
# A schedule fires once per interval

A fire that has found its schedule due holds the lock of the name until it has committed, so
that no other fire of the name commits in between: all earlier fires of the row that it is
going to update are an interval ago (`Spaced`).  The `UPDATE` does not say whether there was
a row.  Where the row is still there (`RowPresent`), every event comes with its bump and the
fires of a row are an interval apart (`fires_once_per_interval`); where it was deleted after
the check, an event is appended alone (`fires_without_bump`).
-/

namespace Swarog.Scheduler

open Pg (Sess Stmt Programs World Table Locks)
open Pg.Table TransitionSystem Option

section Locking

variable {t u : Sess} {a : Act} {d : Data}
variable {G : World Data Pc → Sess × Act → Prop} {w : World Data Pc}

/-- The lock that a replica holds at its program point. -/
def Pc.keys : Pc → List Int
  | .firing name _ _ => [lockKey name]
  | _ => []

theorem locks_pass (t : Sess) (a : Act) (d : Data) :
    Locks.Passes t d.locks (stmt t a).before.keys ((stmt t a).change d).locks
      ((stmt t a).after d).keys := by
  cases a with
  | tryLock =>
    simp only [stmt]
    split
    · rename_i htake
      exact .take htake
    · exact .same
  | recheck =>
    simp only [stmt]
    split <;> exact .same
  | update =>
    simp only [stmt, Data.bump]
    split <;> exact .same
  | _ => first | exact .same | exact .done | exact .release

theorem locks_held (h : system.Reachable G w) : ∀ t, w.data.locks.HeldBy t (w.pc t).keys :=
  Programs.holds_locks (X := programs) Data.locks Pc.keys rfl (fun t a d _ => locks_pass t a d) h

/-- Two replicas that fire the same name are one. -/
theorem firing_exclusive {name : Name} {st st' : Stage} {todo todo' : List Name}
    (h : system.Reachable G w) (ht : w.pc t = .firing name st todo)
    (hu : w.pc u = .firing name st' todo') : t = u := by
  have hlt := locks_held h t
  have hlu := locks_held h u
  rw [ht] at hlt
  rw [hu] at hlu
  exact hlt.exclusive hlu (List.mem_singleton_self _) (List.mem_singleton_self _)

end Locking

section Fires

variable {t u : Sess} {a : Act} {d d' : Data} {name : Name} {checked now : Int}

/-- Two fires of one row are an interval apart. -/
def Fired.Before (e e' : Fired) : Prop :=
  ∀ s s', e.bumped = some s → e'.bumped = some s' → s.row = s'.row →
    s.lastFired + s.interval ≤ s'.lastFired

/-- What the log says about the rows. -/
structure Data.Sound (d : Data) : Prop where
  known : ∀ n s, d.schedules.committed n = some s → s.row < d.nextRow
  logged : ∀ e ∈ d.log, ∀ r, e.bumped = some r → r.row < d.nextRow
  one : ∀ n n' s s', d.schedules.committed n = some s → d.schedules.committed n' = some s' →
    s.row = s'.row → n = n'
  last : ∀ e ∈ d.log, ∀ r, e.bumped = some r → ∀ n s, d.schedules.committed n = some s →
    r.row = s.row → r.lastFired ≤ s.lastFired ∧ r.intervalSeconds = s.intervalSeconds
  apart : d.log.Pairwise Fired.Before
  full : ∀ e ∈ d.log, e.appended = [e.name] ∧ e.bumped ≠ none

/-- The fires of the row of a name are an interval before `checked`. -/
def Spaced (d : Data) (name : Name) (checked : Int) : Prop :=
  ∀ s, d.schedules.committed name = some s → ∀ e ∈ d.log, ∀ r, e.bumped = some r →
    r.row = s.row → r.lastFired ≤ checked ∧ r.lastFired + r.interval ≤ checked

/-- The row of the name is going to be left with `now`. -/
def Bumped (d : Data) (t : Sess) (name : Name) (now : Int) : Prop :=
  ∃ s, d.schedules.committed name = some s ∧
    d.schedules.HoldsOnly t name (some { s with lastFired := now })

/-- When a fire has found its schedule due, or has begun its transaction. -/
def Stage.time : Stage → Option Int
  | .due checked => some checked
  | .begun now => some now
  | .bumped now => some now
  | .emitted now _ => some now
  | _ => none

/-- What a replica has written. -/
def Pc.Writes (d : Data) (t : Sess) : Pc → Prop
  | .firing name (.bumped now) _ => Bumped d t name now
  | .firing name (.emitted now events) _ => events = [name] ∧ Bumped d t name now
  | _ => d.schedules.HoldsNone t

/-- What a fire relies on. -/
def Pc.Waited (d : Data) (pc : Pc) : Prop :=
  ∀ name st todo time, pc = .firing name st todo → st.time = some time →
    time ≤ d.clock ∧ Spaced d name time

/-- The row is there when the `UPDATE` runs. -/
def RowPresent (w : World Data Pc) : Sess × Act → Prop
  | (_, .update name _ _) => w.data.schedules.committed name ≠ none
  | _ => True

instance (w : World Data Pc) (a : Sess × Act) : Decidable (RowPresent w a) := by
  unfold RowPresent
  split <;> infer_instance

/-- The statements that change neither the committed rows nor the log. -/
def Act.quiet : Act → Bool
  | .commit _ _ _ _ => false
  | .insertRow _ _ _ => false
  | .deleteRow _ => false
  | _ => true

structure Quiet (d d' : Data) : Prop where
  committed : ∀ n, d'.schedules.committed n = d.schedules.committed n
  log : d'.log = d.log
  nextRow : d'.nextRow = d.nextRow
  clock : d.clock ≤ d'.clock

theorem quiet_step (hg : (stmt t a).guard d) (hq : a.quiet = true) :
    Quiet d ((stmt t a).change d) := by
  cases a with
  | scan | recheck | begin => exact ⟨fun _ => rfl, rfl, rfl, hg⟩
  | update name =>
    simp only [stmt, Data.bump]
    split
    · exact ⟨fun _ => rfl, rfl, rfl, le_refl _⟩
    · exact ⟨fun n => committed_write t name _ d.schedules n, rfl, rfl, le_refl _⟩
  | fail | die => exact ⟨fun n => committed_rollback t d.schedules n, rfl, rfl, le_refl _⟩
  | commit | insertRow | deleteRow => cases hq
  | _ => exact ⟨fun _ => rfl, rfl, rfl, le_refl _⟩

theorem Data.Sound.of_quiet (h : d.Sound) (hq : Quiet d d') : d'.Sound := by
  refine ⟨?_, ?_, ?_, ?_, ?_, ?_⟩
  · intro n s hs
    rw [hq.committed] at hs
    rw [hq.nextRow]
    exact h.known n s hs
  · rw [hq.log, hq.nextRow]
    exact h.logged
  · intro n n' s s' hs hs'
    rw [hq.committed] at hs hs'
    exact h.one n n' s s' hs hs'
  · intro e he r hr n s hs
    rw [hq.log] at he
    rw [hq.committed] at hs
    exact h.last e he r hr n s hs
  · rw [hq.log]
    exact h.apart
  · rw [hq.log]
    exact h.full

theorem Spaced.of_quiet (h : Spaced d name checked) (hq : Quiet d d') : Spaced d' name checked := by
  intro s hs e he
  rw [hq.committed] at hs
  rw [hq.log] at he
  exact h s hs e he

theorem Spaced.mono (h : Spaced d name checked) (hle : checked ≤ now) : Spaced d name now := by
  intro s hs e he r hr hrow
  obtain ⟨hlast, hapart⟩ := h s hs e he r hr hrow
  exact ⟨hlast.trans hle, hapart.trans hle⟩

/-- A row that is due under the lock was fired an interval ago. -/
theorem spaced_of_recheck (h : d.Sound)
    (hdue : fireRecheck now (d.schedules.committed name) = some true) : Spaced d name now := by
  intro s hs e he r hr hrow
  rw [hs] at hdue
  obtain ⟨s', hs', helapsed⟩ := map_eq_some_iff.1 hdue
  obtain ⟨heq, hbounds⟩ := filter_eq_some_iff.1 hs'
  cases some.inj heq
  obtain ⟨hlast, hinterval⟩ := h.last e he r hr name s hs hrow
  have hpos : 1 ≤ s.intervalSeconds := by
    have hand := (Bool.and_eq_true _ _ ▸ hbounds : _ ∧ _)
    exact of_decide_eq_true hand.1
  have hwait : now - s.lastFired ≥ s.interval := of_decide_eq_true helapsed
  unfold Schedule.interval at hwait ⊢
  rw [hinterval]
  omega

/-- A row of its own is inserted. -/
theorem sound_insertRow (intervalSeconds lastFired : Int) (h : d.Sound) :
    ((stmt t (.insertRow name intervalSeconds lastFired)).change d).Sound := by
  have hcases : ∀ n s,
      (d.schedules.put name (some ⟨d.nextRow, intervalSeconds, lastFired⟩)).committed n = some s →
        (n = name ∧ s.row = d.nextRow) ∨ d.schedules.committed n = some s := by
    intro n s hs
    rw [committed_put] at hs
    split at hs
    · rename_i hn
      cases hs
      exact .inl ⟨hn, rfl⟩
    · exact .inr hs
  refine ⟨?_, ?_, ?_, ?_, h.apart, h.full⟩
  · intro n s hs
    rcases hcases n s hs with ⟨-, hrow⟩ | hold
    · exact hrow ▸ Nat.lt_succ_self d.nextRow
    · exact Nat.lt_succ_of_lt (h.known n s hold)
  · intro e he r hr
    exact Nat.lt_succ_of_lt (h.logged e he r hr)
  · intro n n' s s' hs hs' hrow
    rcases hcases n s hs with ⟨hn, hnew⟩ | hold <;>
      rcases hcases n' s' hs' with ⟨hn', hnew'⟩ | hold'
    · rw [hn, hn']
    · exact absurd (h.known n' s' hold') (by omega)
    · exact absurd (h.known n s hold) (by omega)
    · exact h.one n n' s s' hold hold' hrow
  · intro e he r hr n s hs hrow
    rcases hcases n s hs with ⟨-, hnew⟩ | hold
    · exact absurd (h.logged e he r hr) (by omega)
    · exact h.last e he r hr n s hold hrow

theorem committed_deleteRow {n : Name} {s : Schedule}
    (h : (d.schedules.put name none).committed n = some s) : d.schedules.committed n = some s := by
  rw [committed_put] at h
  split at h
  · cases h
  · exact h

theorem sound_deleteRow (h : d.Sound) : ((stmt t (.deleteRow name)).change d).Sound where
  known n s hs := h.known n s (committed_deleteRow hs)
  logged := h.logged
  one n n' s s' hs hs' := h.one n n' s s' (committed_deleteRow hs) (committed_deleteRow hs')
  last e he r hr n s hs := h.last e he r hr n s (committed_deleteRow hs)
  apart := h.apart
  full := h.full

theorem written_of_bumped {s : Schedule} (h : d.schedules.HoldsOnly t name (some s)) :
    d.written t name = some s := by
  unfold Data.written
  rw [h.held]
  exact if_pos rfl

/-- The rows after the commit of a fire. -/
theorem committed_fire
    {s : Schedule}
    (hw : d.schedules.HoldsOnly t name (some { s with lastFired := now }))
    {n : Name} {s' : Schedule}
    (h : (d.schedules.commit t).committed n = some s') :
    (n = name ∧ s' = { s with lastFired := now }) ∨
      (n ≠ name ∧ d.schedules.committed n = some s') := by
  rw [hw.committed_commit] at h
  split at h
  · rename_i hn
    exact .inl ⟨hn, (some.inj h).symm⟩
  · rename_i hn
    exact .inr ⟨hn, h⟩

/-- A fire commits a row whose earlier fires are an interval ago. -/
theorem sound_commit (todo : List Name) (h : d.Sound) (hb : Bumped d t name now)
    (hspaced : Spaced d name now) : ((stmt t (.commit name todo now [name])).change d).Sound := by
  obtain ⟨s, hs, hw⟩ := hb
  have hnew := written_of_bumped hw
  have hlog : ∀ e, e ∈ ((stmt t (.commit name todo now [name])).change d).log →
      e ∈ d.log ∨ e = ⟨name, [name], some { s with lastFired := now }⟩ := by
    intro _ he
    rw [← hnew]
    exact (List.mem_append.1 he).imp_right List.mem_singleton.1
  -- The row keeps its number, so the committed rows are those of before up to `last_fired`.
  have hrows : ∀ n s', (d.schedules.commit t).committed n = some s' →
      ∃ s₀, d.schedules.committed n = some s₀ ∧ s₀.row = s'.row := by
    intro _ s' hs'
    rcases committed_fire hw hs' with ⟨rfl, rfl⟩ | ⟨-, hold⟩
    · exact ⟨s, hs, rfl⟩
    · exact ⟨s', hold, rfl⟩
  refine ⟨?_, ?_, ?_, ?_, ?_, ?_⟩
  · intro n s' hs'
    obtain ⟨s₀, hs₀, hrow⟩ := hrows n s' hs'
    exact hrow ▸ h.known n s₀ hs₀
  · intro e he r hr
    rcases hlog e he with hold | rfl
    · exact h.logged e hold r hr
    · cases hr
      exact h.known name s hs
  · intro n n' s₁ s₂ hs₁ hs₂ hrow
    obtain ⟨s₁', h₁, hrow₁⟩ := hrows n s₁ hs₁
    obtain ⟨s₂', h₂, hrow₂⟩ := hrows n' s₂ hs₂
    exact h.one n n' s₁' s₂' h₁ h₂ (hrow₁.trans (hrow.trans hrow₂.symm))
  · intro e he r hr n s' hs' hrow
    rcases hlog e he with hold | rfl
    · rcases committed_fire hw hs' with ⟨rfl, rfl⟩ | ⟨-, hkept⟩
      · exact ⟨(hspaced s hs e hold r hr hrow).1, (h.last e hold r hr n s hs hrow).2⟩
      · exact h.last e hold r hr n s' hkept hrow
    · cases hr
      rcases committed_fire hw hs' with ⟨rfl, rfl⟩ | ⟨hne, hkept⟩
      · exact ⟨le_refl _, rfl⟩
      · exact absurd (h.one n name s' s hkept hs hrow.symm) hne
  · refine List.pairwise_append.2 ⟨h.apart, List.pairwise_singleton _ _, ?_⟩
    intro e he _ he' r _ hr hr' hrow
    cases List.mem_singleton.1 he'
    cases hnew.symm.trans hr'
    exact (hspaced s hs e he r hr hrow).2
  · intro e he
    rcases hlog e he with hold | rfl
    · exact h.full e hold
    · exact ⟨rfl, some_ne_none _⟩

/-- What a fire relies on is not disturbed by a step that does not fire the same name. -/
theorem Spaced.step (h : Spaced d name checked) (hs : d.Sound) (hg : (stmt u a).guard d)
    (hw : (stmt u a).before.Writes d u)
    (hother : ∀ todo now events, a ≠ .commit name todo now events) :
    Spaced ((stmt u a).change d) name checked := by
  by_cases hq : a.quiet = true
  · exact h.of_quiet (quiet_step hg hq)
  cases a with
  | insertRow n =>
    intro s hrow e he r hr heq
    replace hrow : (d.schedules.put n _).committed name = some s := hrow
    rw [committed_put] at hrow
    split at hrow
    · cases hrow
      exact absurd (hs.logged e he r hr) (heq ▸ Nat.lt_irrefl _)
    · exact h s hrow e he r hr heq
  | deleteRow =>
    intro s hrow e he
    exact h s (committed_deleteRow hrow) e he
  | commit n todo now events =>
    obtain ⟨-, s₀, hs₀, hheld⟩ := hw
    have hne : name ≠ n := fun heq => hother todo now events (heq ▸ rfl)
    intro s hrow e he r hr heq
    rcases committed_fire hheld hrow with ⟨hn, -⟩ | ⟨-, hkept⟩
    · exact absurd hn hne
    rcases List.mem_append.1 he with hold | hnew
    · exact h s hkept e hold r hr heq
    · cases List.mem_singleton.1 hnew
      cases (written_of_bumped hheld).symm.trans hr
      exact absurd (hs.one name n s s₀ hkept hs₀ heq.symm) hne
  | _ => exact absurd rfl hq

theorem schedules_step (hg : (stmt t a).guard d) :
    Table.Step d.schedules (some t) ((stmt t a).change d).schedules := by
  cases a with
  | update name =>
    simp only [stmt, Data.bump]
    split
    · exact .same _
    · exact .write t name _ (free_of_pending_none t hg)
  | commit => exact .commit t
  | fail | die => exact .rollback t
  | insertRow name => exact .put _ name _ hg.1
  | deleteRow name => exact .put _ name _ hg
  | _ => exact .same _

theorem Pc.Writes.of_undisturbed {pc : Pc} (h : pc.Writes d u)
    (hu : Table.Undisturbed u d.schedules d'.schedules) : pc.Writes d' u := by
  have hbumped : ∀ name now, Bumped d u name now → Bumped d' u name now := by
    rintro name _ ⟨s, hs, hheld⟩
    exact ⟨s, (hu.committed_eq name _ hheld.held).trans hs, hheld.of_undisturbed hu⟩
  cases pc with
  | idle | ticking => exact HoldsNone.of_undisturbed h hu
  | firing name st =>
    cases st with
    | bumped now => exact hbumped name now h
    | emitted now => exact ⟨h.1, hbumped name now h.2⟩
    | _ => exact HoldsNone.of_undisturbed h hu

theorem writes_own {w : World Data Pc} (hG : RowPresent w (t, a))
    (h : (stmt t a).before.Writes w.data t) :
    ((stmt t a).after w.data).Writes ((stmt t a).change w.data) t := by
  cases a with
  | tryLock | recheck =>
    simp only [stmt]
    split <;> exact h
  | update name =>
    obtain ⟨s, hs⟩ := ne_none_iff_exists'.1 hG
    simp only [stmt, Data.bump, hs]
    refine ⟨s, ?_, HoldsNone.write h name _⟩
    rw [committed_write]
    exact hs
  | emit => exact ⟨rfl, h⟩
  | commit => exact holdsNone_commit t w.data.schedules
  | fail | die => exact holdsNone_rollback t w.data.schedules
  | insertRow name intervalSeconds lastFired =>
    intro n v hp
    rw [show ((stmt t (.insertRow name intervalSeconds lastFired)).change w.data).schedules.pending
      n = _ from pending_put name _ w.data.schedules n] at hp
    exact h n v hp
  | deleteRow name =>
    intro n v hp
    rw [show ((stmt t (.deleteRow name)).change w.data).schedules.pending
      n = _ from pending_put name _ w.data.schedules n] at hp
    exact h n v hp
  | _ => exact h

theorem waited_of_time {st : Stage} {todo : List Name}
    (h : ∀ time, st.time = some time → time ≤ d.clock ∧ Spaced d name time) :
    (Pc.firing name st todo).Waited d := by
  intro _ _ _ time heq
  cases heq
  exact h time

theorem waited_of_idle {pc : Pc} (h : ∀ name st todo, pc = .firing name st todo → st.time = none) :
    pc.Waited d := by
  intro name st todo _ heq htime
  rw [h name st todo heq] at htime
  cases htime

theorem waited_own (hs : d.Sound) (hg : (stmt t a).guard d) (h : (stmt t a).before.Waited d) :
    ((stmt t a).after d).Waited ((stmt t a).change d) := by
  cases a with
  | tryLock =>
    refine waited_of_idle ?_
    intro name' st todo' heq
    simp only [stmt] at heq
    split at heq <;> cases heq
    rfl
  | recheck name todo now =>
    have hquiet := quiet_step (a := .recheck name todo now) hg rfl
    simp only [stmt]
    split
    · rename_i hdue
      refine waited_of_time ?_
      rintro time ⟨⟩
      exact ⟨le_refl _, (spaced_of_recheck hs hdue).of_quiet hquiet⟩
    · exact waited_of_time (fun time htime => nomatch htime)
  | begin name todo checked =>
    refine waited_of_time ?_
    rintro time ⟨⟩
    obtain ⟨hclock, hspaced⟩ := h name _ todo checked rfl rfl
    exact ⟨le_refl _, (hspaced.mono (hclock.trans hg)).of_quiet (quiet_step hg rfl)⟩
  | update name todo now =>
    refine waited_of_time ?_
    rintro time ⟨⟩
    obtain ⟨hclock, hspaced⟩ := h name _ todo now rfl rfl
    have hquiet := quiet_step (a := .update name todo now) hg rfl
    exact ⟨hclock.trans hquiet.clock, hspaced.of_quiet hquiet⟩
  | emit name todo now =>
    refine waited_of_time ?_
    rintro time ⟨⟩
    exact h name _ todo now rfl rfl
  | commit | fail => exact waited_of_time (fun time htime => nomatch htime)
  | scan | yield | unconnected | unlock | die | insertRow | deleteRow =>
    exact waited_of_idle (fun _ _ _ heq => nomatch heq)

theorem sound_step (hs : d.Sound) (hg : (stmt t a).guard d) (hw : (stmt t a).before.Writes d t)
    (hwait : (stmt t a).before.Waited d) : ((stmt t a).change d).Sound := by
  by_cases hq : a.quiet = true
  · exact hs.of_quiet (quiet_step hg hq)
  cases a with
  | insertRow => exact sound_insertRow _ _ hs
  | deleteRow => exact sound_deleteRow hs
  | commit name todo now =>
    obtain ⟨rfl, hbumped⟩ := hw
    exact sound_commit todo hs hbumped (hwait name _ todo now rfl rfl).2
  | _ => exact absurd rfl hq

theorem clock_step (hg : (stmt t a).guard d) : d.clock ≤ ((stmt t a).change d).clock := by
  by_cases hq : a.quiet = true
  · exact (quiet_step hg hq).clock
  cases a with
  | commit | insertRow | deleteRow => exact le_refl _
  | _ => exact absurd rfl hq

theorem sound_reachable {w : World Data Pc} (h : system.Reachable RowPresent w) :
    w.data.Sound ∧ ∀ t, (w.pc t).Writes w.data t ∧ (w.pc t).Waited w.data := by
  refine Programs.joint_invariant (X := programs) (I := Data.Sound)
    (L := fun d t pc => pc.Writes d t ∧ pc.Waited d) ⟨?_, ?_, ?_, ?_, List.Pairwise.nil, ?_⟩
    (fun t => ⟨?_, ?_⟩) ?_ h
  · exact fun n s hs => nomatch hs
  · exact fun e he => nomatch he
  · exact fun n n' s s' hs => nomatch hs
  · exact fun e he => nomatch he
  · exact fun e he => nomatch he
  · exact fun n v hp => nomatch hp
  · exact waited_of_idle (fun _ _ _ heq => nomatch heq)
  rintro _ _ _ hr hG en hs hk ⟨hwt, hwait⟩
  refine ⟨sound_step hs en.2 hwt hwait, ⟨writes_own hG hwt, waited_own hs en.2 hwait⟩,
    fun u hu => ⟨(hk u).1.of_undisturbed ((schedules_step en.2).undisturbed ?_), ?_⟩⟩
  · exact fun heq => hu (some.inj heq).symm
  · intro name st todo time heq htime
    obtain ⟨hclock, hspaced⟩ := (hk u).2 name st todo time heq htime
    refine ⟨hclock.trans (clock_step en.2), hspaced.step hs en.2 hwt ?_⟩
    rintro _ _ _ rfl
    exact hu (firing_exclusive hr heq en.1)

end Fires

section Result

/-- Where the row is there when the `UPDATE` runs: two fires of a row are an interval apart,
and every fire has appended one event with its name and has set `last_fired`. -/
theorem fires_once_per_interval {w : World Data Pc} (h : system.Reachable RowPresent w) :
    w.data.log.Pairwise Fired.Before ∧ ∀ e ∈ w.data.log, e.appended = [e.name] ∧ e.bumped ≠ none :=
  ⟨(sound_reachable h).1.apart, (sound_reachable h).1.full⟩

/-- A fire that runs through. -/
def fires (t : Sess) (name : Name) (now : Int) : List (Sess × Act) :=
  [(t, .scan now), (t, .tryLock name []), (t, .recheck name [] now), (t, .begin name [] now now),
   (t, .update name [] now), (t, .emit name [] now), (t, .commit name [] now [name]),
   (t, .unlock name []), (t, .yield [])]

/-- Two replicas fire a schedule of one second. -/
def firingRun : List (Sess × Act) :=
  (0, .insertRow "prune" 1 0) :: (fires 1 "prune" 1000000 ++ fires 2 "prune" 2000000)

/-- The row is deleted between the check and the `UPDATE`. -/
def deletingRun : List (Sess × Act) :=
  [(0, .insertRow "prune" 1 0), (1, .scan 1000000), (1, .tryLock "prune" []),
   (1, .recheck "prune" [] 1000000), (0, .deleteRow "prune"),
   (1, .begin "prune" [] 1000000 1000000), (1, .update "prune" [] 1000000),
   (1, .emit "prune" [] 1000000), (1, .commit "prune" [] 1000000 ["prune"])]

/-- Both fires have left the time at which they began. -/
theorem fires_twice :
    ∃ w, system.Reachable RowPresent w ∧
      w.data.log.map Fired.bumped = [some ⟨0, 1, 1000000⟩, some ⟨0, 1, 2000000⟩] ∧
      w.data.log.Pairwise Fired.Before ∧
      ∀ e ∈ w.data.log, e.appended = [e.name] ∧ e.bumped ≠ none := by
  obtain ⟨w, hw, hlog⟩ := exec_exhibits
    (T := system) RowPresent firingRun
    (f := fun w => decide (w.data.log.map Fired.bumped =
      [some ⟨0, 1, 1000000⟩, some ⟨0, 1, 2000000⟩])) (by decide +kernel)
  exact ⟨w, hw, of_decide_eq_true hlog, fires_once_per_interval hw⟩

/-- An event is appended, and nothing was set. -/
theorem fires_without_bump :
    ∃ w, system.Reachable TransitionSystem.anyStep w ∧
      w.data.log.map Fired.appended = [["prune"]] ∧ w.data.log.map Fired.bumped = [none] ∧
      w.data.schedules.committed "prune" = none := by
  obtain ⟨w, hw, hfacts⟩ := exec_exhibits
    (T := system) anyStep deletingRun
    (f := fun w => decide (w.data.log.map Fired.appended = [["prune"]] ∧
      w.data.log.map Fired.bumped = [none] ∧ w.data.schedules.committed "prune" = none))
    (by decide +kernel)
  exact ⟨w, hw, of_decide_eq_true hfacts⟩

end Result

end Swarog.Scheduler
