import Swarog.Config.Settings
import Swarog.Pg.Session

/-!
# Edits of the settings

Any number of replicas, each with a cache of the settings, and a store.  A write of a
setting by anyone goes through the trigger, which adds one to the revision; the new version of
the revision's row stays with the writer until it commits (`counted_reachable`).  An edit is
planned against the cache of the replica that handles the form; then it locks the table,
compares the revision of the store with that of the form and carries the planned writes out.

When the cache is older than the form, a field that was set back to the cached value is
taken for unchanged, and the edit is answered `Ok` without it (`edit_loses_field`).  With a
cache that is at least as new as the form, an edit that is answered `Ok` leaves what the form
says, and any other leaves the settings alone (`edit_applies_form`).
-/

namespace Swarog.Config

open Pg (Sess Stmt Programs World)
open TransitionSystem List

abbrev Replica := Nat

section Store

/-- An edit that was answered, with the committed settings before and after the answer.
`none` stands for `Ok`. -/
structure Edit where
  form : Params
  answer : Option SubmitError
  before : Settings
  after : Settings

/-- The committed settings, their revision, who holds the lock of the table for an edit, who
is writing, the version of the revision's row that is not committed, with the session that has
locked it, and the caches.  `history` are the committed snapshots and `edits` the answers so
far. -/
structure Data where
  settings : Settings
  revision : Int
  tableLock : Option Sess
  writers : List Sess
  bumped : Option (Sess × Int)
  cache : Replica → CacheState
  history : List (Int × Settings)
  edits : List Edit

namespace Data

def new : Data where
  settings := FinMap.empty
  revision := 0
  tableLock := none
  writers := []
  bumped := none
  cache := fun _ => CacheState.empty
  history := [(0, FinMap.empty)]
  edits := []

/-- No other session has locked the row of the revision. -/
def Unlocked (t : Sess) (d : Data) : Prop := ∀ v ∈ d.bumped, v.1 = t

instance (t : Sess) (d : Data) : Decidable (d.Unlocked t) :=
  inferInstanceAs (Decidable (∀ v ∈ d.bumped, v.1 = t))

/-- The version of the row that `t` holds. -/
def bumpedBy (t : Sess) (d : Data) : Option Int :=
  (d.bumped.filter (fun v => decide (v.1 = t))).map Prod.snd

/-- The revision that a statement of `t` sees. -/
def seen (t : Sess) (d : Data) : Int := (d.bumpedBy t).getD d.revision

/-- `SELECT revision FROM config.revision ... FOR UPDATE`. -/
def lockRevision (t : Sess) (d : Data) : Data := { d with bumped := some (t, d.seen t) }

/-- `UPDATE config.revision SET revision = revision + 1` of the trigger. -/
def bump (t : Sess) (d : Data) : Data := { d with bumped := some (t, d.seen t + 1) }

/-- The changes of `t` are committed, with the version of the revision's row. -/
def publish (t : Sess) (cs : List Change) (d : Data) : Data :=
  { d with
    settings := changeAll cs d.settings
    revision := d.seen t
    history := if cs = [] then d.history
      else d.history ++ [(d.seen t, changeAll cs d.settings)] }

/-- The end of a transaction. -/
def release (t : Sess) (d : Data) : Data :=
  { d with
    tableLock := if d.tableLock = some t then none else d.tableLock
    bumped := d.bumped.filter (fun v => decide (v.1 ≠ t))
    writers := d.writers.filter (fun u => decide (u ≠ t)) }

/-- An edit is answered with an error. -/
def refuse (form : Params) (e : SubmitError) (d : Data) : Data :=
  { d with edits := d.edits ++ [⟨form, some e, d.settings, d.settings⟩] }

/-- An edit is answered `Ok`. -/
def accept (t : Sess) (form : Params) (cs : List Change) (d : Data) : Data :=
  { d.publish t cs with
    edits := d.edits ++ [⟨form, none, d.settings, (d.publish t cs).settings⟩] }

end Data

end Store

section Sessions

/-- Where a session is: it refreshes a cache, it writes settings, or it handles a form. -/
inductive Pc
  | idle
  | loaded (replica : Replica) (revision : Int) (settings : Settings)
  | writing (cs : List Change)
  | planned (form : Params) (expected : Int) (cs : List Change)
  | locked (form : Params) (expected : Int) (cs : List Change)
  | applying (form : Params) (done todo : List Change)
deriving DecidableEq

/-- The form that a session handles. -/
def Pc.form : Pc → Option Params
  | .planned form _ _ => some form
  | .locked form _ _ => some form
  | .applying form _ _ => some form
  | _ => none

inductive Act
  | load (replica : Replica)
  | apply (replica : Replica) (revision : Int) (settings : Settings)
  | start
  | write (cs : List Change) (c : Change)
  | save (cs : List Change)
  | undo (cs : List Change)
  | plan (replica : Replica) (form : Params)
  | lock (form : Params) (expected : Int) (cs : List Change)
  | cas (form : Params) (expected : Int) (cs : List Change)
  | set (form : Params) (done : List Change) (c : Change) (todo : List Change)
  | commit (form : Params) (done : List Change)
  | fail (pc : Pc) (form : Params)

/-- The statements of `apply_edit`. -/
def Act.edits : Act → Bool
  | .plan _ _ => true
  | .lock _ _ _ => true
  | .cas _ _ _ => true
  | .set _ _ _ _ => true
  | .commit _ _ => true
  | .fail _ _ => true
  | _ => false

/-- The revision is parsed and the writes are planned. -/
def submit
    (c : CacheState)
    (form : Params) :
    Except SubmitError (Int × List Change) :=
  match expectedRevision form with
  | none => .error .conflict
  | some expected => (plan c form).map (fun cs => (expected, cs))

def stmt (t : Sess) : Act → Stmt Data Pc
  | .load replica =>
    { before := .idle
      after := fun d => .loaded replica d.revision d.settings }
  | .apply replica revision settings =>
    { before := .loaded replica revision settings
      after := fun _ => .idle
      change := fun d =>
        { d with
          cache := Function.update d.cache replica
            ((d.cache replica).apply revision settings) } }
  | .start =>
    { before := .idle
      guard := fun d => d.tableLock = none
      after := fun _ => .writing []
      change := fun d => { d with writers := t :: d.writers } }
  | .write cs c =>
    { before := .writing cs
      guard := fun d => d.Unlocked t
      after := fun _ => .writing (cs ++ [c])
      change := fun d => d.bump t }
  | .save cs =>
    { before := .writing cs
      after := fun _ => .idle
      change := fun d => (d.publish t cs).release t }
  | .undo cs =>
    { before := .writing cs
      after := fun _ => .idle
      change := fun d => d.release t }
  | .plan replica form =>
    { before := .idle
      after := fun d =>
        match submit (d.cache replica) form with
        | .ok (expected, cs) => .planned form expected cs
        | .error _ => .idle
      change := fun d =>
        match submit (d.cache replica) form with
        | .ok _ => d
        | .error e => d.refuse form e }
  | .lock form expected cs =>
    { before := .planned form expected cs
      guard := fun d => d.tableLock = none ∧ d.writers = []
      after := fun _ => .locked form expected cs
      change := fun d => { d with tableLock := some t } }
  | .cas form expected cs =>
    { before := .locked form expected cs
      guard := fun d => d.Unlocked t
      after := fun d => if d.revision = expected then .applying form [] cs else .idle
      change := fun d =>
        if d.revision = expected then d.lockRevision t
        else (d.refuse form .conflict).release t }
  | .set form done c todo =>
    { before := .applying form done (c :: todo)
      guard := fun d => d.Unlocked t
      after := fun _ =>
        match validateIdent c.1 with
        | .ok _ => .applying form (done ++ [c]) todo
        | .error _ => .idle
      change := fun d =>
        match validateIdent c.1 with
        | .ok _ => d.bump t
        | .error e => (d.refuse form e).release t }
  | .commit form done =>
    { before := .applying form done []
      after := fun _ => .idle
      change := fun d => (d.accept t form done).release t }
  | .fail pc form =>
    { before := pc
      guard := fun _ => pc.form = some form
      after := fun _ => .idle
      change := fun d => (d.refuse form .database).release t }

def programs : Programs Data Pc Act where
  data := Data.new
  idle := .idle
  stmt := stmt

instance (t : Sess) (a : Act) (d : Data) :
    Decidable ((programs.stmt t a).guard d) := by
  cases a <;> dsimp only [programs, stmt] <;> infer_instance

/-- All interleavings of the writers, the replicas and the edits. -/
abbrev system : TransitionSystem (World Data Pc) (Sess × Act) := programs.system

/-- The replica that handles a form has read a snapshot that is at least as new as it. -/
def Fresh (w : World Data Pc) : Sess × Act → Prop
  | (_, .plan replica form) => ∀ r ∈ expectedRevision form, r ≤ (w.data.cache replica).revision
  | _ => True

instance (w : World Data Pc) (a : Sess × Act) : Decidable (Fresh w a) := by
  obtain ⟨_, a⟩ := a
  cases a <;> dsimp only [Fresh] <;> infer_instance

end Sessions

section Revision

variable {G : World Data Pc → Sess × Act → Prop} {w : World Data Pc}
variable {t u : Sess} {a : Act} {d : Data}

/-- The number of rows that a session has written; none as long as it has not locked the row of
the revision. -/
def Pc.written : Pc → Option Nat
  | .writing [] => none
  | .writing cs => some cs.length
  | .applying _ done _ => some done.length
  | _ => none

/-- The version of the revision's row counts the rows that its session has written. -/
def Counted (d : Data) (t : Sess) (pc : Pc) : Prop :=
  d.bumpedBy t = pc.written.map (fun n => d.revision + n)

theorem bumpedBy_release (d : Data) : (d.release t).bumpedBy t = none := by
  simp [Data.bumpedBy, Data.release]

theorem bumpedBy_release_of_ne (hu : u ≠ t) : (d.release t).bumpedBy u = d.bumpedBy u := by
  cases hb : d.bumped with
  | none => simp [Data.bumpedBy, Data.release, hb]
  | some v =>
    by_cases hv : v.1 = t
    · simp [Data.bumpedBy, Data.release, hb, hv, Ne.symm hu, Option.filter_some]
    · simp [Data.bumpedBy, Data.release, hb, hv, Option.filter_some]

/-- The row of the revision has one uncommitted version at a time. -/
theorem bumpedBy_of_unlocked
    (hg : d.Unlocked t)
    (hu : u ≠ t) :
    d.bumpedBy u = none := by
  cases hb : d.bumped with
  | none => simp [Data.bumpedBy, hb]
  | some v =>
    have hv : v.1 = t := hg v hb
    simp [Data.bumpedBy, hb, hv, Ne.symm hu]

theorem seen_or_unlocked (hu : u ≠ t) : d.seen t = d.revision ∨ d.bumpedBy u = none := by
  by_cases hg : d.Unlocked t
  · exact .inr (bumpedBy_of_unlocked hg hu)
  · refine .inl ?_
    cases hb : d.bumped with
    | none => simp [Data.seen, Data.bumpedBy, hb]
    | some v =>
      have hv : v.1 ≠ t := by simpa [Data.Unlocked, hb] using hg
      simp [Data.seen, Data.bumpedBy, hb, hv, Option.filter_some]

theorem Counted.seen
    {cs : List Change}
    (h : Counted d t (.writing cs)) :
    d.seen t = d.revision + cs.length := by
  rw [Data.seen, show d.bumpedBy t = _ from h]
  cases cs <;> simp [Pc.written]

theorem Counted.seen_applying
    {form : Params}
    {done todo : List Change}
    (h : Counted d t (.applying form done todo)) :
    d.seen t = d.revision + done.length := by
  rw [Data.seen, show d.bumpedBy t = _ from h]
  rfl

theorem counted_own (h : Counted d t (stmt t a).before) :
    Counted ((stmt t a).change d) t ((stmt t a).after d) := by
  cases a with
  | load | apply | start | lock => exact h
  | write cs c =>
    have hlength : (Pc.writing (cs ++ [c])).written = some (cs.length + 1) := by
      cases cs <;> simp [Pc.written]
    have hseen := h.seen
    simp [Counted, stmt, Data.bump, Data.bumpedBy, hlength, hseen, add_assoc]
  | save | undo | commit | fail => exact bumpedBy_release _
  | plan replica form =>
    simp only [stmt]
    cases submit (d.cache replica) form <;> exact h
  | cas =>
    have hseen : d.seen t = d.revision := by rw [Data.seen, show d.bumpedBy t = _ from h]; rfl
    simp only [stmt]
    split
    · simp [Counted, Pc.written, Data.lockRevision, Data.bumpedBy, hseen]
    · exact bumpedBy_release _
  | set _ _ c =>
    have hseen := h.seen_applying
    simp only [stmt]
    cases validateIdent c.1 with
    | error => exact bumpedBy_release _
    | ok => simp [Counted, Pc.written, Data.bump, Data.bumpedBy, hseen, add_assoc]

theorem Counted.frame
    {d' : Data}
    {pc : Pc}
    (h : Counted d u pc)
    (hbumped : d'.bumpedBy u = d.bumpedBy u)
    (hrevision : d'.revision = d.revision ∨ d.bumpedBy u = none) :
    Counted d' u pc := by
  rw [Counted, hbumped, show d.bumpedBy u = _ from h]
  rcases hrevision with hsame | hnone
  · rw [hsame]
  · rw [show d.bumpedBy u = _ from h, Option.map_eq_none_iff] at hnone
    rw [hnone, Option.map_none, Option.map_none]

theorem counted_other
    {pc : Pc}
    (hg : (stmt t a).guard d)
    (hu : u ≠ t)
    (h : Counted d u pc) :
    Counted ((stmt t a).change d) u pc := by
  have hlocked (n : Int) (hg : d.Unlocked t) : Counted { d with bumped := some (t, n) } u pc := by
    have hnone := bumpedBy_of_unlocked hg hu
    exact h.frame (by rw [hnone]; simp [Data.bumpedBy, Ne.symm hu]) (.inl rfl)
  cases a with
  | load | apply | start | lock => exact h
  | write => exact hlocked _ hg
  | save => exact h.frame (bumpedBy_release_of_ne hu) (seen_or_unlocked hu)
  | commit => exact h.frame (bumpedBy_release_of_ne hu) (seen_or_unlocked hu)
  | undo | fail => exact h.frame (bumpedBy_release_of_ne hu) (.inl rfl)
  | plan =>
    simp only [stmt]
    split <;> exact h
  | cas =>
    simp only [stmt]
    split
    · exact hlocked _ hg
    · exact h.frame (bumpedBy_release_of_ne hu) (.inl rfl)
  | set _ _ c =>
    simp only [stmt]
    cases validateIdent c.1 with
    | error => exact h.frame (bumpedBy_release_of_ne hu) (.inl rfl)
    | ok => exact hlocked _ hg

theorem counted_reachable (h : system.Reachable G w) : ∀ t, Counted w.data t (w.pc t) := by
  refine (Programs.joint_invariant (X := programs) (I := fun _ => True) (L := Counted) trivial
    (fun _ => rfl) ?_ h).2
  intro w t a _ _ en _ hk hbefore
  exact ⟨trivial, counted_own hbefore, fun u hu => counted_other en.2 hu (hk u)⟩

theorem counted_before
    (h : system.Reachable G w)
    (en : programs.enabled w (t, a)) :
    Counted w.data t (stmt t a).before := by
  have hcounted := counted_reachable h t
  rwa [show w.pc t = _ from en.1] at hcounted

end Revision

section Invariant

variable {t u : Sess} {a : Act} {d d' : Data} {pc : Pc} {form : Params} {cs : List Change}

/-- What an answer says about the settings that were committed. -/
structure Edit.Fits (e : Edit) (history : List (Int × Settings)) : Prop where
  ok : e.answer = none → ∃ r, expectedRevision e.form = some r ∧ (r, e.before) ∈ history ∧
    ∀ k, e.after.get k = asSubmitted e.before e.form k
  refused : e.answer ≠ none → e.after = e.before

/-- A cache that has been filled holds a committed snapshot. -/
def CacheState.Read (c : CacheState) (history : List (Int × Settings)) : Prop :=
  c = CacheState.empty ∨ (c.revision, c.map) ∈ history

structure Data.Sound (d : Data) : Prop where
  current : (d.revision, d.settings) ∈ d.history
  newest : ∀ e ∈ d.history, 0 ≤ e.1 ∧ e.1 ≤ d.revision
  ordered : d.history.Pairwise (fun a b => a.1 < b.1)
  cached : ∀ r, (d.cache r).Read d.history
  exclusive : d.tableLock ≠ none → d.writers = []
  answered : ∀ e ∈ d.edits, e.Fits d.history

/-- The writes were computed against a snapshot that is at least as new as the form. -/
def Planned (d : Data) (form : Params) (expected : Int) (cs : List Change) : Prop :=
  expectedRevision form = some expected ∧
    ∃ c : CacheState, c.Read d.history ∧ expected ≤ c.revision ∧ plan c form = .ok cs

/-- What a session knows at its program point. -/
def Pc.Knows (d : Data) (t : Sess) : Pc → Prop
  | .idle => True
  | .loaded _ revision settings => (revision, settings) ∈ d.history
  | .writing _ => t ∈ d.writers
  | .planned form expected cs => Planned d form expected cs
  | .locked form expected cs => Planned d form expected cs ∧ d.tableLock = some t
  | .applying form done todo => d.tableLock = some t ∧
      expectedRevision form = some d.revision ∧
      plan ⟨d.revision, d.settings⟩ form = .ok (done ++ todo)

/-- What a statement leaves to the other sessions. -/
structure Frame (u : Sess) (d d' : Data) : Prop where
  history : ∀ e ∈ d.history, e ∈ d'.history
  writers : ∀ t, t ≠ u → t ∈ d.writers → t ∈ d'.writers
  table : ∀ t, t ≠ u → d.tableLock = some t → d'.tableLock = some t ∧
    d'.revision = d.revision ∧ d'.settings = d.settings

theorem Planned.of_history
    {expected : Int}
    (h : Planned d form expected cs)
    (hh : ∀ e ∈ d.history, e ∈ d'.history) :
    Planned d' form expected cs := by
  obtain ⟨hexpected, c, hread, hle, hplan⟩ := h
  exact ⟨hexpected, c, hread.imp_right (hh _), hle, hplan⟩

theorem knows_other
    (hf : Frame u d d')
    (ht : t ≠ u)
    (h : pc.Knows d t) :
    pc.Knows d' t := by
  cases pc with
  | idle => trivial
  | loaded => exact hf.history _ h
  | writing => exact hf.writers t ht h
  | planned => exact Planned.of_history h hf.history
  | locked => exact ⟨Planned.of_history h.1 hf.history, (hf.table t ht h.2).1⟩
  | applying =>
    obtain ⟨hlock, hrevision, hplan⟩ := h
    obtain ⟨hlock', hrevision', hsettings'⟩ := hf.table t ht hlock
    refine ⟨hlock', ?_, ?_⟩
    · rw [hrevision']
      exact hrevision
    · rw [hrevision', hsettings']
      exact hplan

theorem Frame.refl : Frame u d d :=
  ⟨fun _ he => he, fun _ _ ht => ht, fun _ _ hlock => ⟨hlock, rfl, rfl⟩⟩

theorem Frame.release (h : Frame u d d') : Frame u d (d'.release u) := by
  refine ⟨h.history, ?_, ?_⟩
  · intro t ht hmem
    exact mem_filter.2 ⟨h.writers t ht hmem, decide_eq_true ht⟩
  · intro t ht hlock
    obtain ⟨hlock', hrest⟩ := h.table t ht hlock
    refine ⟨?_, hrest⟩
    show (if d'.tableLock = some u then none else d'.tableLock) = some t
    rw [if_neg, hlock']
    rw [hlock']
    exact fun heq => ht (Option.some.inj heq)

theorem Data.Sound.release (h : d.Sound) : (d.release u).Sound := by
  refine ⟨h.current, h.newest, h.ordered, h.cached, ?_, h.answered⟩
  intro hlock
  have hbefore : d.tableLock ≠ none := by
    intro hnone
    refine hlock ?_
    show (if d.tableLock = some u then none else d.tableLock) = none
    rw [hnone]
    rfl
  show d.writers.filter _ = []
  rw [h.exclusive hbefore]
  rfl

theorem Data.Sound.refuse
    (form : Params)
    (e : SubmitError)
    (h : d.Sound) :
    (d.refuse form e).Sound := by
  refine ⟨h.current, h.newest, h.ordered, h.cached, h.exclusive, ?_⟩
  intro e' he'
  rcases mem_append.1 he' with hold | hnew
  · exact h.answered e' hold
  · cases mem_singleton.1 hnew
    exact ⟨fun hok => (nomatch hok), fun _ => rfl⟩

theorem publish_nil (hseen : d.seen t = d.revision) : d.publish t [] = d := by
  simp only [Data.publish, hseen, if_true]
  rfl

theorem history_publish
    (t : Sess)
    (cs : List Change)
    (d : Data) :
    ∀ e ∈ d.history, e ∈ (d.publish t cs).history := by
  intro _ he
  simp only [Data.publish]
  split
  · exact he
  · exact mem_append_left _ he

theorem Edit.Fits.of_history
    {e : Edit}
    {history history' : List (Int × Settings)}
    (h : e.Fits history)
    (hh : ∀ x ∈ history, x ∈ history') :
    e.Fits history' := by
  refine ⟨fun hok => ?_, h.refused⟩
  obtain ⟨r, hr, hmem, hafter⟩ := h.ok hok
  exact ⟨r, hr, hh _ hmem, hafter⟩

/-- The committed snapshots, from the first to the current one. -/
structure Data.Recorded (d : Data) : Prop where
  current : (d.revision, d.settings) ∈ d.history
  newest : ∀ e ∈ d.history, 0 ≤ e.1 ∧ e.1 ≤ d.revision
  ordered : d.history.Pairwise (fun a b => a.1 < b.1)

theorem Data.Sound.recorded (h : d.Sound) : d.Recorded := ⟨h.current, h.newest, h.ordered⟩

/-- A commit adds one to the revision for each row, so that its snapshot is a new one. -/
theorem Data.Recorded.publish
    (h : d.Recorded)
    (hseen : d.seen t = d.revision + cs.length) :
    (d.publish t cs).Recorded := by
  by_cases hcs : cs = []
  · subst hcs
    rw [publish_nil (by simpa using hseen)]
    exact h
  have hpos : 0 < cs.length := length_pos_of_ne_nil hcs
  have hnonneg := (h.newest _ h.current).1
  simp only [Data.publish, if_neg hcs, hseen]
  refine ⟨mem_append_right _ (mem_singleton_self _), ?_, ?_⟩
  · intro e he
    dsimp only
    rcases mem_append.1 he with hold | hnew
    · have hle := h.newest e hold
      omega
    · cases mem_singleton.1 hnew
      omega
  · refine pairwise_append.2 ⟨h.ordered, pairwise_singleton _ _, ?_⟩
    intro e he _ he'
    cases mem_singleton.1 he'
    have hle := h.newest e he
    omega

theorem Data.Sound.publish
    (h : d.Sound)
    (hseen : d.seen t = d.revision + cs.length) :
    (d.publish t cs).Sound := by
  obtain ⟨hcurrent, hnewest, hordered⟩ := h.recorded.publish hseen
  have hgrow := history_publish t cs d
  exact ⟨hcurrent, hnewest, hordered, fun r => (h.cached r).imp_right (hgrow _), h.exclusive,
    fun e he => (h.answered e he).of_history hgrow⟩

/-- Two committed snapshots with one revision are one. -/
theorem snapshot_unique
    {r : Int}
    {s s' : Settings}
    (h : d.Recorded)
    (hs : (r, s) ∈ d.history)
    (hs' : (r, s') ∈ d.history) :
    s = s' := by
  have hnodup : (d.history.map Prod.fst).Nodup := pairwise_map.2 (h.ordered.imp Int.ne_of_lt)
  exact congrArg Prod.snd (inj_on_of_nodup_map hnodup hs hs' rfl)

/-- The comparison with the store makes the planned writes those of the committed
settings. -/
theorem planned_current
    (h : d.Sound)
    (hp : Planned d form d.revision cs) :
    plan ⟨d.revision, d.settings⟩ form = .ok cs := by
  obtain ⟨-, c, hread, hle, hplan⟩ := hp
  have hnonneg := (h.newest _ h.current).1
  rcases hread with rfl | hmem
  · have hneg : d.revision ≤ -1 := hle
    omega
  · have hrevision : c.revision = d.revision := Int.le_antisymm (h.newest _ hmem).2 hle
    rw [hrevision] at hmem
    have hmap : c.map = d.settings := snapshot_unique h.recorded hmem h.current
    rw [← hmap, ← hrevision]
    exact hplan

theorem read_apply
    {revision : Int}
    {settings : Settings}
    {c : CacheState}
    {history : List (Int × Settings)}
    (h : c.Read history)
    (hmem : (revision, settings) ∈ history) :
    (c.apply revision settings).Read history := by
  unfold CacheState.apply
  split
  · exact h
  · exact .inr hmem

/-- Nobody else holds the lock of the table while a session is writing. -/
theorem unlocked_of_writing
    (h : d.Sound)
    (hu : u ∈ d.writers) :
    d.tableLock = none := by
  by_contra hne
  rw [h.exclusive hne] at hu
  exact not_mem_nil hu

theorem frame_publish
    (cs : List Change)
    (h : ∀ t, t ≠ u → d.tableLock ≠ some t) :
    Frame u d (d.publish u cs) :=
  ⟨history_publish u cs d, fun _ _ hmem => hmem, fun t ht hlock => absurd hlock (h t ht)⟩

theorem accept_sound
    (h : d.Sound)
    (hseen : d.seen t = d.revision + cs.length)
    (hexpected : expectedRevision form = some d.revision)
    (hplan : plan ⟨d.revision, d.settings⟩ form = .ok cs) :
    (d.accept t form cs).Sound := by
  have hpub := h.publish hseen
  refine ⟨hpub.current, hpub.newest, hpub.ordered, hpub.cached, hpub.exclusive, ?_⟩
  intro e he
  rcases mem_append.1 he with hold | hnew
  · exact (h.answered e hold).of_history (history_publish t cs d)
  · cases mem_singleton.1 hnew
    exact ⟨fun _ => ⟨d.revision, hexpected, history_publish t cs d _ h.current,
      plan_submitted hplan⟩, fun hne => absurd rfl hne⟩

/-- A statement keeps the store consistent, leaves the others alone and knows what it has
done. -/
structure Keeps (u : Sess) (d d' : Data) (pc : Pc) : Prop where
  frame : Frame u d d'
  sound : d'.Sound
  knows : pc.Knows d' u

theorem keeps_refuse
    (form : Params)
    (e : SubmitError)
    (h : d.Sound) :
    Keeps u d ((d.refuse form e).release u) .idle :=
  ⟨Frame.release ⟨fun _ he => he, fun _ _ ht => ht, fun _ _ hlock => ⟨hlock, rfl, rfl⟩⟩,
    (h.refuse form e).release, trivial⟩

theorem keeps_plan
    {replica : Replica}
    (h : d.Sound)
    (hfresh : ∀ r ∈ expectedRevision form, r ≤ (d.cache replica).revision) :
    Keeps u d ((stmt u (.plan replica form)).change d) ((stmt u (.plan replica form)).after d) := by
  simp only [stmt]
  cases hsubmit : submit (d.cache replica) form with
  | error e =>
    exact ⟨⟨fun _ he => he, fun _ _ ht => ht, fun _ _ hlock => ⟨hlock, rfl, rfl⟩⟩,
      h.refuse form e, trivial⟩
  | ok =>
    refine ⟨Frame.refl, h, ?_⟩
    unfold submit at hsubmit
    cases hexpected : expectedRevision form with
    | none =>
      rw [hexpected] at hsubmit
      cases hsubmit
    | some =>
      rw [hexpected] at hsubmit
      cases hplan : plan (d.cache replica) form with
      | error =>
        rw [hplan] at hsubmit
        cases hsubmit
      | ok =>
        rw [hplan] at hsubmit
        cases hsubmit
        exact ⟨hexpected, d.cache replica, h.cached replica, hfresh _ hexpected, hplan⟩

theorem keeps_step
    {w : World Data Pc}
    (hG : Fresh w (u, a))
    (h : w.data.Sound)
    (hc : Counted w.data u (stmt u a).before)
    (hk : (stmt u a).before.Knows w.data u)
    (hg : (stmt u a).guard w.data) :
    Keeps u w.data ((stmt u a).change w.data) ((stmt u a).after w.data) := by
  cases a with
  | load => exact ⟨Frame.refl, h, h.current⟩
  | apply replica =>
    refine ⟨⟨fun _ he => he, fun _ _ ht => ht, fun _ _ hlock => ⟨hlock, rfl, rfl⟩⟩,
      ⟨h.current, h.newest, h.ordered, ?_, h.exclusive, h.answered⟩, trivial⟩
    intro r
    show (Function.update w.data.cache replica _ r).Read _
    by_cases hr : r = replica
    · subst hr
      rw [Function.update_self]
      exact read_apply (h.cached r) hk
    · rw [Function.update_of_ne hr]
      exact h.cached r
  | start =>
    refine ⟨⟨fun _ he => he, fun _ _ ht => mem_cons_of_mem u ht,
        fun _ _ hlock => ⟨hlock, rfl, rfl⟩⟩,
      ⟨h.current, h.newest, h.ordered, h.cached, ?_, h.answered⟩, mem_cons_self⟩
    exact fun hne => absurd hg hne
  | write =>
    exact ⟨⟨fun _ he => he, fun _ _ ht => ht, fun _ _ hlock => ⟨hlock, rfl, rfl⟩⟩,
      ⟨h.current, h.newest, h.ordered, h.cached, h.exclusive, h.answered⟩, hk⟩
  | save cs =>
    have hfree : w.data.tableLock = none := unlocked_of_writing h hk
    refine ⟨(frame_publish cs ?_).release, (h.publish hc.seen).release, trivial⟩
    intro t _ hlock
    rw [hfree] at hlock
    cases hlock
  | undo => exact ⟨Frame.refl.release, h.release, trivial⟩
  | plan => exact keeps_plan h hG
  | lock =>
    refine ⟨⟨fun _ he => he, fun _ _ ht => ht, ?_⟩,
      ⟨h.current, h.newest, h.ordered, h.cached, fun _ => hg.2, h.answered⟩, hk, rfl⟩
    intro t _ hlock
    rw [hg.1] at hlock
    cases hlock
  | cas form expected =>
    obtain ⟨hplanned, hlock⟩ := hk
    simp only [stmt]
    by_cases hrevision : w.data.revision = expected
    · subst hrevision
      have hcurrent := planned_current h hplanned
      rw [if_pos rfl, if_pos rfl]
      exact ⟨⟨fun _ he => he, fun _ _ ht => ht, fun _ _ hlock => ⟨hlock, rfl, rfl⟩⟩,
        ⟨h.current, h.newest, h.ordered, h.cached, h.exclusive, h.answered⟩,
        hlock, hplanned.1, hcurrent⟩
    · rw [if_neg hrevision, if_neg hrevision]
      exact keeps_refuse form .conflict h
  | set form done c =>
    simp only [stmt]
    cases hvalid : validateIdent c.1 with
    | error e => exact keeps_refuse form e h
    | ok =>
      refine ⟨⟨fun _ he => he, fun _ _ ht => ht, fun _ _ hlock => ⟨hlock, rfl, rfl⟩⟩,
        ⟨h.current, h.newest, h.ordered, h.cached, h.exclusive, h.answered⟩, hk.1, hk.2.1, ?_⟩
      rw [append_assoc]
      exact hk.2.2
  | commit form done =>
    obtain ⟨hlock, hexpected, hplan⟩ := hk
    rw [append_nil] at hplan
    have hframe : Frame u w.data (w.data.publish u done) := by
      refine frame_publish done ?_
      intro t ht hlock'
      exact ht (Option.some.inj (hlock'.symm.trans hlock))
    exact ⟨Frame.release ⟨hframe.history, hframe.writers, hframe.table⟩,
      (accept_sound h hc.seen_applying hexpected hplan).release, trivial⟩
  | fail pc form => exact keeps_refuse form .database h

theorem sound_reachable
    {w : World Data Pc}
    (h : system.Reachable Fresh w) :
    w.data.Sound ∧ ∀ t, (w.pc t).Knows w.data t := by
  refine Programs.joint_invariant (X := programs) (I := Data.Sound)
    (L := fun d t pc => pc.Knows d t) ?_ (fun _ => trivial) ?_ h
  · refine ⟨mem_singleton_self _, ?_, pairwise_singleton _ _, ?_, ?_, ?_⟩
    · exact forall_mem_singleton.2 ⟨le_refl _, le_refl _⟩
    · exact fun r => .inl rfl
    · exact fun _ => rfl
    · exact fun e he => absurd he not_mem_nil
  intro w t a hr hG en hs hk hbefore
  have hkeeps := keeps_step hG hs (counted_before hr en) hbefore en.2
  exact ⟨hkeeps.sound, hkeeps.knows, fun u hu => knows_other hkeeps.frame hu (hk u)⟩

end Invariant

section Result

/-- A statement of an edit writes nothing before the commit. -/
theorem settings_of_edit
    {t : Sess}
    {a : Act}
    {d : Data}
    (hedit : a.edits = true)
    (h : ∀ form done, a ≠ .commit form done) :
    ((stmt t a).change d).settings = d.settings := by
  cases a with
  | plan | cas | set =>
    simp only [stmt]
    split <;> rfl
  | lock | fail => rfl
  | commit form done => exact absurd rfl (h form done)
  | _ => cases hedit

/-- Where a form is handled by a replica whose cache is at least as new as it: an edit that
was answered `Ok` has left the snapshot that the form names with every submitted field and
the new setting, an edit that was not has left the settings as they were, and nothing but the
commit of an edit writes. -/
theorem edit_applies_form
    {w : World Data Pc}
    (h : system.Reachable Fresh w) :
    (∀ e ∈ w.data.edits, e.answer = none →
      ∃ r, expectedRevision e.form = some r ∧ (∃ s, (r, s) ∈ w.data.history) ∧
        ∀ s, (r, s) ∈ w.data.history → ∀ k, e.after.get k = asSubmitted s e.form k) ∧
    (∀ e ∈ w.data.edits, e.answer ≠ none → e.after = e.before) ∧
    ∀ t a, a.edits = true → (∀ form done, a ≠ .commit form done) →
      (system.effect w (t, a)).data.settings = w.data.settings := by
  obtain ⟨hs, -⟩ := sound_reachable h
  refine ⟨?_, fun e he => (hs.answered e he).refused, fun t a => settings_of_edit⟩
  intro e he hok
  obtain ⟨r, hr, hmem, hafter⟩ := (hs.answered e he).ok hok
  refine ⟨r, hr, ⟨e.before, hmem⟩, ?_⟩
  intro _ hsnap k
  rw [snapshot_unique hs.recorded hsnap hmem]
  exact hafter k

/-- One setting is written. -/
def writes (t : Sess) (k : Key) (value : String) : List (Sess × Act) :=
  [(t, .start), (t, .write [] (k, some value)), (t, .save [(k, some value)])]

/-- A cache is refreshed from the snapshot. -/
def refreshes
    (t : Sess)
    (replica : Replica)
    (revision : Int)
    (settings : Settings) :
    List (Sess × Act) :=
  [(t, .load replica), (t, .apply replica revision settings)]

/-- The setting `a / b` with a value. -/
def oneSetting (value : String) : Settings := (FinMap.empty : Settings).set ("a", "b") value

/-- The form of the second snapshot, with `x` in the field of the setting. -/
def submittedForm : Params := (adminRender ⟨2, oneSetting "y"⟩).set "a:b" "x"

/-- Replica `1` has the second snapshot and handles the form. -/
def freshRun : List (Sess × Act) :=
  writes 0 ("a", "b") "x" ++ writes 0 ("a", "b") "y" ++ refreshes 1 1 2 (oneSetting "y") ++
    [(3, .plan 1 submittedForm), (3, .lock submittedForm 2 [(("a", "b"), some "x")]),
     (3, .cas submittedForm 2 [(("a", "b"), some "x")]),
     (3, .set submittedForm [] (("a", "b"), some "x") []),
     (3, .commit submittedForm [(("a", "b"), some "x")])]

/-- Replica `2` has the first snapshot only, and handles the form. -/
def staleRun : List (Sess × Act) :=
  writes 0 ("a", "b") "x" ++ refreshes 2 2 1 (oneSetting "x") ++ writes 0 ("a", "b") "y" ++
    [(3, .plan 2 submittedForm), (3, .lock submittedForm 2 []), (3, .cas submittedForm 2 []),
     (3, .commit submittedForm [])]

/-- The edit is carried out. -/
theorem edit_sets_field :
    ∃ w, system.Reachable Fresh w ∧
      w.data.edits.map (fun e => (e.answer, e.after.get ("a", "b"))) = [(none, some "x")] ∧
      ∀ e ∈ w.data.edits, e.answer = none →
        ∃ r, expectedRevision e.form = some r ∧ (∃ s, (r, s) ∈ w.data.history) ∧
          ∀ s, (r, s) ∈ w.data.history → ∀ k, e.after.get k = asSubmitted s e.form k := by
  obtain ⟨w, hw, hedits⟩ := exec_exhibits (T := system) Fresh freshRun
    (f := fun w => decide (w.data.edits.map (fun e => (e.answer, e.after.get ("a", "b"))) =
      [(none, some "x")])) (by decide +kernel)
  exact ⟨w, hw, of_decide_eq_true hedits, (edit_applies_form hw).1⟩

/-- The cache of the replica has `x`, so that nothing is written: the edit is answered `Ok`,
and the setting keeps `y`. -/
theorem edit_loses_field :
    ∃ w, system.Reachable TransitionSystem.anyStep w ∧
      (2, oneSetting "y") ∈ w.data.history ∧
      submittedForm.get "a:b" = some "x" ∧
      asSubmitted (oneSetting "y") submittedForm ("a", "b") = some "x" ∧
      w.data.edits.map (fun e => (e.answer, e.after.get ("a", "b"))) = [(none, some "y")] := by
  obtain ⟨w, hw, hfacts⟩ := exec_exhibits (T := system)
    anyStep staleRun
    (f := fun w => decide ((2, oneSetting "y") ∈ w.data.history ∧
      submittedForm.get "a:b" = some "x" ∧
      asSubmitted (oneSetting "y") submittedForm ("a", "b") = some "x" ∧
      w.data.edits.map (fun e => (e.answer, e.after.get ("a", "b"))) = [(none, some "y")]))
    (by decide +kernel)
  exact ⟨w, hw, of_decide_eq_true hfacts⟩

end Result

end Swarog.Config
