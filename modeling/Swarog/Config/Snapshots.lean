import Swarog.Config.Edit

/-!
# The caches are committed snapshots

The trigger writes a new version of the revision's row with the first write of a transaction,
and the row stays locked to the commit, so that the revisions are committed in order, each with
one state of the settings.  A refresh reads revision and settings in one statement and brings
them to the cache at some later time, where an older one is ignored.
-/

namespace Swarog.Config

open Pg (Sess Programs World)

variable {G : World Data Pc → Sess × Act → Prop} {w w' : World Data Pc}
variable {t : Sess} {a : Act} {d : Data}

/-- The store of `d'` is that of `d`. -/
def SameStore (d d' : Data) : Prop :=
  d'.settings = d.settings ∧ d'.revision = d.revision ∧ d'.history = d.history

/-- What a statement does to the store: nothing, or it commits changes with a version of the
revision's row that counts them. -/
theorem publishes (hc : Counted d t (stmt t a).before) :
    SameStore d ((stmt t a).change d) ∨
      ∃ cs, d.seen t = d.revision + cs.length ∧
        SameStore (d.publish t cs) ((stmt t a).change d) := by
  cases a with
  | save cs => exact .inr ⟨cs, hc.seen, rfl, rfl, rfl⟩
  | commit _ done => exact .inr ⟨done, hc.seen_applying, rfl, rfl, rfl⟩
  | plan | cas | set =>
    refine .inl ?_
    simp only [stmt]
    split <;> exact ⟨rfl, rfl, rfl⟩
  | _ => exact .inl ⟨rfl, rfl, rfl⟩

theorem Data.Recorded.same {d' : Data} (h : d.Recorded) (hs : SameStore d d') : d'.Recorded := by
  obtain ⟨hsettings, hrevision, hhistory⟩ := hs
  refine ⟨?_, ?_, ?_⟩
  · rw [hsettings, hrevision, hhistory]
    exact h.current
  · rw [hrevision, hhistory]
    exact h.newest
  · rw [hhistory]
    exact h.ordered

theorem recorded_step (h : d.Recorded) (hc : Counted d t (stmt t a).before) :
    ((stmt t a).change d).Recorded := by
  rcases publishes hc with hsame | ⟨cs, hseen, hsame⟩
  · exact h.same hsame
  · exact (h.publish hseen).same hsame

theorem history_step (t : Sess) (a : Act) {e : Int × Settings} (he : e ∈ d.history) :
    e ∈ ((stmt t a).change d).history := by
  cases a with
  | save cs => exact history_publish t cs d e he
  | commit _ done => exact history_publish t done d e he
  | plan | cas | set =>
    simp only [stmt]
    split <;> exact he
  | _ => exact he

theorem recorded_reachable (h : system.Reachable G w) : w.data.Recorded := by
  refine Programs.data_invariant (X := programs) (I := Data.Recorded) ?_
    (fun _ _ _ hr _ en hrec => recorded_step hrec (counted_before hr en)) h
  refine ⟨List.mem_singleton_self _, ?_, List.pairwise_singleton _ _⟩
  exact List.forall_mem_singleton.2 ⟨le_refl _, le_refl _⟩

theorem history_run (h : system.Reaches G w w') {e : Int × Settings} (he : e ∈ w.data.history) :
    e ∈ w'.data.history :=
  h.preserves (fun _ l hmem _ _ => history_step l.1 l.2 hmem) he

/-- What is recorded was the committed state at some time. -/
theorem committed_of_history (h : system.Reachable G w) :
    ∀ e ∈ w.data.history, ∃ w₀, system.Reachable G w₀ ∧ system.Reaches G w₀ w ∧
      e = (w₀.data.revision, w₀.data.settings) := by
  refine h.invariant ?_ ?_
  · intro _ he
    exact ⟨_, .refl _, .refl _, List.mem_singleton.1 he⟩
  rintro w ⟨t, a⟩ hr hI hG en e he
  by_cases hold : e ∈ w.data.history
  · obtain ⟨w₀, hr₀, hrun, heq⟩ := hI e hold
    exact ⟨w₀, hr₀, hrun.tail _ hG en, heq⟩
  · refine ⟨_, hr.tail _ hG en, .refl _, ?_⟩
    show e = (((stmt t a).change w.data).revision, ((stmt t a).change w.data).settings)
    have he : e ∈ ((stmt t a).change w.data).history := he
    rcases publishes (counted_before hr en) with ⟨-, -, hhistory⟩ | ⟨cs, -, hset, hrev, hhistory⟩
    · rw [hhistory] at he
      exact absurd he hold
    · rw [hset, hrev]
      rw [hhistory] at he
      simp only [Data.publish] at he
      split at he
      · exact absurd he hold
      · exact List.mem_singleton.1 ((List.mem_append.1 he).resolve_left hold)

/-- The snapshot that a refresh has read. -/
def Pc.read : Pc → Option (Int × Settings)
  | .loaded _ revision settings => some (revision, settings)
  | _ => none

/-- A cache changes where a refresh brings what it has read. -/
theorem cache_step (t : Sess) (a : Act) (d : Data) (replica : Replica) :
    ((stmt t a).change d).cache replica = d.cache replica ∨
      ∃ revision settings, (stmt t a).before.read = some (revision, settings) ∧
        ((stmt t a).change d).cache replica = (d.cache replica).apply revision settings := by
  cases a with
  | apply replica' revision settings =>
    by_cases hr : replica = replica'
    · subst hr
      exact .inr ⟨revision, settings, rfl, Function.update_self _ _ _⟩
    · exact .inl (Function.update_of_ne hr _ _)
  | plan | cas | set =>
    refine .inl ?_
    simp only [stmt]
    split <;> rfl
  | _ => exact .inl rfl

theorem read_reachable (h : system.Reachable G w) :
    (∀ t e, (w.pc t).read = some e → e ∈ w.data.history) ∧
      ∀ replica, (w.data.cache replica).Read w.data.history := by
  refine h.invariant ?_ ?_
  · exact ⟨fun t e he => (nomatch he), fun _ => .inl rfl⟩
  rintro w ⟨t, a⟩ hr ⟨hread, hcached⟩ - en
  constructor
  · intro u e he
    have hafter : ((stmt t a).after w.data).read = some e →
        (stmt t a).before.read = some e ∨ e ∈ w.data.history := by
      intro he
      cases a with
      | load =>
        cases he
        exact .inr (recorded_reachable hr).current
      | plan | cas | set =>
        simp only [stmt] at he
        split at he <;> cases he
      | _ => cases he
    refine history_step t a ?_
    rcases Programs.pc_read (X := programs) Pc.read en hafter he with hold | ⟨-, hmem⟩
    · exact hread u e hold
    · exact hmem
  · intro replica
    rcases cache_step t a w.data replica with hsame | ⟨revision, settings, hb, happ⟩
    · show (((stmt t a).change w.data).cache replica).Read _
      rw [hsame]
      exact (hcached replica).imp_right (history_step t a)
    · show (((stmt t a).change w.data).cache replica).Read _
      have hmem : (revision, settings) ∈ w.data.history :=
        hread t _ (by rw [show w.pc t = _ from en.1]; exact hb)
      rw [happ]
      exact (read_apply (hcached replica) hmem).imp_right (history_step t a)

theorem revision_run (h : system.Reaches G w w') (replica : Replica) :
    (w.data.cache replica).revision ≤ (w'.data.cache replica).revision := by
  refine h.preserves ?_ (le_refl _)
  rintro w' ⟨t, a⟩ hle - -
  refine hle.trans ?_
  show _ ≤ (((stmt t a).change w'.data).cache replica).revision
  rcases cache_step t a w'.data replica with hsame | ⟨_, _, -, happ⟩
  · rw [hsame]
  · rw [happ]
    unfold CacheState.apply
    split
    · exact le_refl _
    · rename_i hnew
      exact (not_le.1 hnew).le

/-- The cache of a replica is empty, or it holds the settings as they were committed with the
revision it carries; its revision never decreases; and a revision names one committed state
of the settings. -/
theorem caches_hold_snapshots (h : system.Reachable TransitionSystem.anyStep w)
    (hrun : system.Reaches TransitionSystem.anyStep w w') :
    (∀ replica, w.data.cache replica = CacheState.empty ∨
      ∃ w₀, system.Reachable TransitionSystem.anyStep w₀ ∧
        system.Reaches TransitionSystem.anyStep w₀ w ∧
        (w.data.cache replica).revision = w₀.data.revision ∧
        (w.data.cache replica).map = w₀.data.settings) ∧
    (∀ replica, (w.data.cache replica).revision ≤ (w'.data.cache replica).revision) ∧
    (w.data.revision = w'.data.revision → w.data.settings = w'.data.settings) := by
  refine ⟨?_, revision_run hrun, ?_⟩
  · intro replica
    refine ((read_reachable h).2 replica).imp_right ?_
    intro hmem
    obtain ⟨w₀, hr₀, hrun₀, heq⟩ := committed_of_history h _ hmem
    exact ⟨w₀, hr₀, hrun₀, congrArg Prod.fst heq, congrArg Prod.snd heq⟩
  · intro heq
    have hafter := recorded_reachable (h.trans hrun)
    have hold := history_run hrun (recorded_reachable h).current
    rw [heq] at hold
    exact snapshot_unique hafter hold hafter.current

/-- A refresh that has read the first snapshot comes after one that has read the second. -/
def lateRun : List (Sess × Act) :=
  writes 0 ("a", "b") "x" ++ [(1, .load 7)] ++ writes 0 ("a", "b") "y" ++
    refreshes 2 7 2 (oneSetting "y")

theorem caches_hold_snapshots_late :
    ∃ w w', system.Reachable TransitionSystem.anyStep w ∧
      system.Reaches TransitionSystem.anyStep w w' ∧ (w.data.cache 7).revision = 2 ∧
      (w.data.cache 7).revision ≤ (w'.data.cache 7).revision ∧ w'.pc 1 = .idle := by
  obtain ⟨w, w', hr, hf, hrun, hg⟩ := TransitionSystem.exec_exhibits_later (T := system)
    TransitionSystem.anyStep lateRun [(1, .apply 7 1 (oneSetting "x"))]
    (f := fun w => decide ((w.data.cache 7).revision = 2)) (g := fun w => decide (w.pc 1 = .idle))
    (by decide +kernel)
  exact ⟨w, w', hr, hrun, of_decide_eq_true hf, (caches_hold_snapshots hr hrun).2.1 7,
    of_decide_eq_true hg⟩

end Swarog.Config
