import Swarog.Groups.Fitness
import Swarog.Pg.Count

/-!
# The roster invariant

Every statement of a session extends what the session knows of the group whose lock it
holds (`knows_after`), and a `COMMIT` made with this knowledge leaves fit groups behind
(`fitAll_step`).  Together with the count that is read under the lock this gives the
invariant `Roster`, in every reachable state.
-/

namespace Swarog.Groups

open Pg Table Programs List Option

variable {G : World Data Pc → Sess × Act → Prop}
variable {w : World Data Pc} {t u : Sess} {a : Act} {d : Data}

section Own

theorem drawn_own {e : Uuid} (hg : (stmt t a).guard d) (h : ((stmt t a).after d).drawn = some e) :
    (stmt t a).before.drawn = some e ∨ (e ∉ d.uuids ∧ e ∈ ((stmt t a).change d).uuids) := by
  cases a with
  | insertGroup =>
    cases h
    exact .inr ⟨hg.1, mem_cons_self⟩
  | insertCreator => exact .inl h
  | _ => cases h

section

variable (h : system.Reachable G w)
include h

theorem drawn_ids :
    (∀ t e, (w.pc t).drawn = some e → e ∈ w.data.uuids) ∧
      ∀ t u e, (w.pc t).drawn = some e → (w.pc u).drawn = some e → t = u := by
  refine fresh_ids (X := programs) Data.uuids Pc.drawn rfl ?_
    (fun _ _ _ _ => drawn_own) h
  intro _ a _ _ _ he
  cases a with
  | insertGroup => exact mem_cons_of_mem _ he
  | _ => exact he

/-- The ids of the groups are drawn. -/
theorem group_drawn {g : Uuid} : w.data.groups.committed g ≠ none → g ∈ w.data.uuids := by
  refine data_invariant (X := programs)
    (I := fun d => d.groups.committed g ≠ none → g ∈ d.uuids) (fun hne => absurd rfl hne) ?_ h
  intro w t a hr _ _ hI hg
  rcases exists_or_ne Act.commit a with ⟨_, _, rfl⟩ | hquiet
  · by_cases hold : w.data.groups.committed g = none
    · rcases w.data.groups.commit_cases t g with ⟨_, hv, -⟩ | ⟨-, heq⟩
      swap
      · exact absurd (heq.trans hold) hg
      have ho := owns_reachable hr t
      rcases group_held ho.owes hv with hmem | hd
      · exfalso
        have hdn : (w.pc t).drawn = none := by
          cases hpc : w.pc t with
          | create =>
            rw [hpc] at hmem
            cases hmem
          | _ => rfl
        have howes := ho.owes
        rw [groupsHeld_of_drawn_none hdn] at howes
        exact howes.based (dissolvedWrite g) (mem_map_of_mem hmem) hold
      · exact (drawn_ids hr).1 t g hd
    · exact hI hold
  · have hne : w.data.groups.committed g ≠ none := by
      rw [← groups_quiet (t := t) hquiet]
      exact hg
    have hmem := hI hne
    cases a with
    | insertGroup => exact mem_cons_of_mem _ hmem
    | _ => exact hmem

theorem old_of_group {g : Uuid} (hg : w.data.snap.groups g ≠ none) : w.data.snap.old g :=
  ⟨group_drawn h hg, fun hnone => absurd hnone hg⟩

/-- What a session sees of the memberships. -/
theorem view_rows (g p : Uuid) :
    w.data.memberships.view t (g, p) = w.data.snap.rowsWith (w.pc t).changes g p :=
  (keeps_reachable h t).owes.view_eq_apply (g, p)

end

variable {s : Snap} {cs : List Change} {gs : List Uuid} {g p : Uuid} {c : Change}

/-- A change of one row leaves the group fit if there is an admin beside it. -/
theorem fitWith_single {q : Uuid} {m : MemberRow} (hg : s.groups g ≠ none) (hq : c.key ≠ (g, q))
    (hm : s.rows (g, q) = some m) (hadmin : m.IsAdmin) : s.FitWith [c] [] g := by
  refine .inl ⟨by rw [Snap.groupWith_nil]; exact hg, q, m, ?_, hadmin⟩
  refine (Pg.Change.apply_same ?_).trans hm
  intro _ hc'
  cases mem_singleton.1 hc'
  exact hq

/-- An existing group has an admin. -/
theorem Snap.FitAll.admin (h : s.FitAll) (hg : s.groups g ≠ none) :
    ∃ p m, s.rows (g, p) = some m ∧ m.IsAdmin := by
  rcases h g with ⟨-, hadmin⟩ | ⟨hnone, -⟩
  · exact hadmin
  · rw [Snap.groupWith_nil] at hnone
    exact absurd hnone hg

theorem Snap.FitAll.group {m : MemberRow} (h : s.FitAll) (hrow : s.rows (g, p) = some m) :
    s.groups g ≠ none := by
  have hg := (h g).group_of_row (p := p) hrow
  rwa [Snap.groupWith_nil] at hg

/-- All groups are fit with the changes of a session, if those are that it has
touched. -/
theorem fitWith_of_touched (hall : s.FitAll) (ht : s.FitTouched cs gs)
    (hgs : ∀ g ∈ gs, ∃ c ∈ cs, c.key.1 = g) (g : Uuid) : s.FitWith cs gs g := by
  by_cases hc : ∃ c ∈ cs, c.key.1 = g
  · obtain ⟨c, hc, rfl⟩ := hc
    exact (ht c hc).2
  · exact hall.untouched (fun c hmem hkey => hc ⟨c, hmem, hkey⟩) (fun hmem => hc (hgs g hmem))

section Calls

variable {x : Tx} {st : Stage} {seen row : MemberRow}

theorem view_group_op (h : system.Reachable G w) (hpc : w.pc t = .op x st) :
    w.data.groups.view t g = w.data.snap.groups g := by
  rw [view_group h (by rw [hpc]; rfl), hpc]
  exact Snap.groupWith_nil

theorem view_rows_op (h : system.Reachable G w) (hpc : w.pc t = .op x st)
    (hst : (Pc.op x st).changes = []) :
    w.data.memberships.view t (g, p) = w.data.snap.rows (g, p) := by
  rw [view_rows h, hpc, hst]
  rfl

theorem administers (h : system.Reachable G w) (hpc : w.pc t = .op x .locked)
    (hadmin : w.data.Administers t g p) : ∃ m, w.data.snap.rows (g, p) = some m ∧ m.IsAdmin := by
  obtain ⟨m, hm, hdec⟩ := (any_eq_true _ _).1 hadmin
  rw [view_rows_op h hpc rfl] at hm
  exact ⟨m, hm, of_decide_eq_true hdec⟩

theorem verdict_permits {c : Call} {name : String} {row : Option MemberRow}
    (hseeks : c.op.seeks = true) (h : c.verdict name row = .ok seen) :
    row = some seen ∧ c.Permits seen := by
  obtain ⟨op, _, _⟩ := c
  cases row with
  | none => cases op <;> cases h
  | some =>
    cases op with
    | respond =>
      simp only [Call.verdict] at h
      split at h
      · rename_i hst
        cases h
        exact ⟨rfl, hst⟩
      · cases h
    | decide =>
      simp only [Call.verdict] at h
      split at h
      · cases h
      · rename_i hne
        split at h <;> cases h
        exact ⟨rfl, hne⟩
    | promote =>
      simp only [Call.verdict] at h
      split at h
      · cases h
      · split at h
        · cases h
        · cases h
          exact ⟨rfl, trivial⟩
    | _ => cases hseeks

theorem change_promote {c : Call} {ch : Change} (hop : c.op = .promote)
    (h : c.change row = some ch) : ch.new = some (row.promote .admin) := by
  obtain ⟨_, _, _⟩ := c
  cases hop
  simp only [Call.change] at h
  split at h <;> cases h
  rfl

/-- A call finds the row of its subject. -/
theorem knows_found (h : system.Reachable G w) (hall : w.data.snap.FitAll)
    (en : programs.enabled w (t, .findRow x seen))
    (hk : w.data.snap.Knows (.op x x.call.op.findStage)) :
    w.data.snap.Knows (.op x (.found seen)) := by
  obtain ⟨hrow, hpermits⟩ := verdict_permits en.2.1 en.2.2
  have hchanges : (Pc.op x x.call.op.findStage).changes = [] := by cases x.call.op <;> rfl
  have hrow : w.data.snap.rows x.call.key = some seen :=
    (view_rows_op h en.1 hchanges).symm.trans hrow
  refine ⟨hall.group hrow, ?_, hpermits, ?_⟩
  · intro me dec hop
    rw [hop] at hk
    exact hk.2 me dec hop
  · intro _ hm
    rw [hrow] at hm
    cases hm
    rfl

/-- A call writes the row of its subject. -/
theorem knows_written {ch : Change} (hall : w.data.snap.FitAll)
    (en : programs.enabled w (t, .writeRow x seen row ch))
    (hk : w.data.snap.Knows (.op x (.found seen))) : w.data.snap.Knows (.op x (.written ch)) := by
  obtain ⟨hgroup, hpresides, hpermits, hseen⟩ := hk
  have hrow : w.data.snap.rows x.call.key = some row := en.2.2.1
  obtain ⟨-, hkey, -⟩ := lawful_change en.2.2.2
  have heq := hseen row hrow
  subst heq
  refine ⟨hgroup, ?_⟩
  obtain ⟨_, _, hm, hadmin⟩ := hall.admin hgroup
  -- an admin beside the subject, or the subject itself becomes one
  have hbeside : ¬ row.IsAdmin → w.data.snap.FitWith [ch] [] x.call.group.id := by
    intro hnot
    refine fitWith_single hgroup ?_ hm hadmin
    intro he
    rw [← he, hkey, hrow] at hm
    cases hm
    exact hnot hadmin
  cases hop : x.call.op with
  | respond =>
    unfold Call.Permits at hpermits
    rw [hop] at hpermits
    refine hbeside ?_
    intro hadm
    exact MemberState.noConfusion (hpermits.symm.trans hadm.1)
  | decide me dec =>
    unfold Call.Permits at hpermits
    rw [hop] at hpermits
    obtain ⟨_, hm', hadmin'⟩ := hpresides me dec hop
    refine fitWith_single hgroup ?_ hm' hadmin'
    rw [hkey]
    intro he
    exact hpermits (congrArg Prod.snd he)
  | promote =>
    have happ : Pg.Change.apply [ch] w.data.snap.rows ch.key = ch.new := Pg.Change.apply_single
    rw [hkey, change_promote hop en.2.2.2] at happ
    exact .inl ⟨by rw [Snap.groupWith_nil]; exact hgroup, x.call.subject.id,
      row.promote .admin, happ, rfl, rfl⟩
  | _ =>
    unfold Call.Permits at hpermits
    rw [hop] at hpermits
    exact hpermits.elim

end Calls

section Exits

variable {hst : Host} {st : Exit} {sw : Sweep} {k : Uuid × Uuid} {m row : MemberRow}

theorem exists_ne_of_length {l : List (Uuid × Uuid)} (hn : l.Nodup) (hk : k ∈ l)
    (hl : l.length ≠ 1) : ∃ k' ∈ l, k' ≠ k := by
  by_contra hall
  push Not at hall
  have hlen : l.length ≤ 1 := by
    have hsub : l ⊆ [k] := fun k' hk' => mem_singleton.2 (hall k' hk')
    exact (hn.subperm hsub).length_le
  have hpos := length_pos_of_mem hk
  omega

theorem counts_tell (d : Data) (t : Sess) (g p : Uuid) :
    (d.counts t g).Tell (fun q => d.memberships.view t (g, q)) p where
  members := by
    intro m hm hmem hzero
    have hin : (g, p) ∈ d.memberships.select t (fun k row => k.1 == g && decide row.IsMember) :=
      mem_select.2 ⟨m, hm, by simp [hmem]⟩
    rw [eq_nil_of_length_eq_zero hzero] at hin
    cases hin
  admins := by
    intro hne m hm hadmin
    have hin : (g, p) ∈ d.memberships.select t (fun k row => k.1 == g && decide row.IsAdmin) :=
      mem_select.2 ⟨m, hm, by simp [hadmin]⟩
    obtain ⟨⟨g', q⟩, hq, hqne⟩ := exists_ne_of_length (d.memberships.nodup.filter _) hin hne
    obtain ⟨m', hm', hcond⟩ := mem_select.1 hq
    obtain ⟨hg', hadmin'⟩ := Bool.and_eq_true_iff.1 hcond
    obtain rfl : g' = g := by simpa using hg'
    exact ⟨q, m', fun he => hqne (by rw [he]), hm', of_decide_eq_true hadmin'⟩

section

variable (h : system.Reachable G w)
include h

/-- A session that has only deleted rows sees rows that are committed. -/
theorem row_committed
    (hdel : ∀ c ∈ (w.pc t).changes, Removes c) (hview : w.data.memberships.view t k = some m) :
    w.data.snap.rows k = some m ∧ ∀ c ∈ (w.pc t).changes, c.key ≠ k := by
  have ho := (keeps_reachable h t).owes
  have hnew := ho.unchanged_of_view (fun c hc => (hdel c hc).new_eq) hview
  exact ⟨ho.committed_of_unchanged hnew hview, hnew⟩

theorem view_rows_exit (hpc : w.pc t = .exit hst st cs) :
    (fun q => w.data.memberships.view t (hst.key.1, q)) =
      w.data.snap.rowsWith (hst.kept ++ cs) hst.key.1 := by
  funext q
  rw [view_rows h, hpc]
  rfl

theorem row_committed_exit
    (hpc : w.pc t = .exit hst st cs) (hview : w.data.memberships.view t k = some m) :
    w.data.snap.rows k = some m ∧ ∀ c ∈ hst.kept ++ cs, c.key ≠ k := by
  have hs := sound_reachable h t
  have hdel : ∀ c ∈ (w.pc t).changes, Removes c := by
    rw [hpc] at hs ⊢
    exact exit_removes hs
  have hrow := row_committed h hdel hview
  rwa [hpc] at hrow

/-- A `leave` reads the row. -/
theorem knows_leave {x : Tx}
    (hall : w.data.snap.FitAll) (en : programs.enabled w (t, .leaveRow x row)) :
    w.data.snap.Knows (.exit (.leave x row) .locked []) := by
  have hrow : w.data.snap.rows x.call.key = some row := (view_rows_op h en.1 rfl).symm.trans en.2.2
  refine ⟨?_, ?_, old_of_group h (hall.group hrow), fun hne => absurd rfl hne, ?_⟩
  · intro _ hc
    cases hc
  · intro _ hg
    cases hg
  · intro _
    refine ⟨hall _, ?_⟩
    intro _ hm
    exact some.inj (hm.symm.trans hrow)

/-- A sweep takes the lock of a group. -/
theorem knows_lock {tomb : Tombstone} {rest : List (Uuid × Tombstone)} {todo : List Uuid}
    (hall : w.data.snap.FitAll) (en : programs.enabled w (t, .sweepLock sw p tomb rest g todo))
    (hk : w.data.snap.Knows (.sweep sw (.walking (g :: todo)))) :
    w.data.snap.Knows (.exit (.sweep sw g p todo) .locked []) := by
  have hs := sound_reachable h t
  rw [show w.pc t = .sweep sw (.walking (g :: todo)) from en.1] at hs
  refine ⟨hk.1, fun g' hg' => hk.2 g' (mem_cons_of_mem _ hg'), hk.2 g mem_cons_self,
    fun hne => absurd rfl hne, ?_⟩
  intro _
  have hfit := fitWith_of_touched hall hk.1 hs.2 g
  refine ⟨?_, trivial⟩
  show Fit (w.data.snap.groupWith (sw.dissolved ++ []) g)
    (w.data.snap.rowsWith (sw.removed ++ []) g)
  rwa [append_nil, append_nil]

theorem knows_weigh (en : programs.enabled w (t, .weigh hst))
    (hk : w.data.snap.Knows (.exit hst .locked [])) :
    w.data.snap.Knows (.exit hst (.weighed (w.data.counts t hst.key.1)) []) := by
  refine ⟨hk.1, hk.2.1, hk.2.2.1, hk.2.2.2.1, ?_⟩
  intro halive
  obtain ⟨hfit, hread⟩ := hk.2.2.2.2 halive
  refine ⟨hfit, hread, en.2, ?_⟩
  rw [← view_rows_exit h en.1]
  exact counts_tell w.data t hst.key.1 hst.key.2

end

/-- The last admin of a group leaves only when the group goes. -/
theorem another_admin {counts : Counts} {rows : Uuid → Option MemberRow}
    (hrow : rows hst.key.2 = some row) (hadmin : row.IsAdmin) (hread : hst.Read (rows hst.key.2))
    (hrefuse : ¬ hst.Refuses counts) (htell : counts.Tell rows hst.key.2)
    (hstays : ¬ hst.Dissolves row counts) : ∃ q m, q ≠ hst.key.2 ∧ rows q = some m ∧ m.IsAdmin := by
  refine htell.admins ?_ row hrow hadmin
  intro hone
  have hzero := htell.members row hrow hadmin.1
  cases hst with
  | leave _ seen =>
    have hmembers : counts.members ≠ 1 := fun hm => hstays ⟨hadmin.1, hm⟩
    have hseen : row = seen := hread row hrow
    exact hrefuse ⟨hseen ▸ hadmin, hone, by omega⟩
  | sweep => exact hstays ⟨hadmin.1, .inr ⟨hadmin.2, hone⟩⟩

section

variable (h : system.Reachable G w)
include h

/-- The row of the player is deleted. -/
theorem knows_delete {counts : Counts}
    (hall : w.data.snap.FitAll) (en : programs.enabled w (t, .deleteRow hst counts row))
    (hk : w.data.snap.Knows (.exit hst (.weighed counts) [])) :
    w.data.snap.Knows (.exit hst (if hst.Dissolves row counts then .emptying else .done false)
      [hst.removal row]) := by
  have hview : w.data.memberships.view t hst.key = some row := en.2.2
  have halive := hall.group (row_committed_exit h en.1 hview).1
  refine ⟨hk.1, hk.2.1, hk.2.2.1, fun _ => halive, fun _ => ?_⟩
  obtain ⟨hfit, hread, hrefuse, htell⟩ := hk.2.2.2.2 halive
  rw [← view_rows_exit h en.1] at hfit hread htell
  split
  · exact trivial
  · rename_i hstays
    have hbeside : ∀ q m, q ≠ hst.key.2 →
        w.data.memberships.view t (hst.key.1, q) = some m → m.IsAdmin →
          Fit (w.data.snap.groupWith (hst.dissolved ++ []) hst.key.1)
            (w.data.snap.rowsWith (hst.kept ++ [hst.removal row]) hst.key.1) := by
      intro q m hq hm hadmin
      refine hfit.elim (fun hg => .inl ⟨hg.1, q, m, ?_, hadmin⟩) ?_
      · have hsame := congrFun (view_rows_exit h en.1) q
        rw [append_nil] at hsame
        refine Eq.trans (Pg.Change.apply_append_same ?_) (hsame.symm.trans hm)
        intro _ hc he
        cases mem_singleton.1 hc
        exact hq (congrArg Prod.snd he).symm
      · rintro ⟨-, hnone⟩
        exact absurd (hm.symm.trans (hnone q)) (some_ne_none m)
    rcases hfit with ⟨-, q, m, hm, hadmin⟩ | ⟨-, hnone⟩
    · by_cases hq : q = hst.key.2
      · subst hq
        obtain rfl : m = row := some.inj (hm.symm.trans hview)
        obtain ⟨q', m', hq', hm', hadmin'⟩ := another_admin hm hadmin hread hrefuse htell hstays
        exact hbeside q' m' hq' hm' hadmin'
      · exact hbeside q m hq hm hadmin
    · exact absurd (hview.symm.trans (hnone hst.key.2)) (some_ne_none row)

theorem knows_scan (en : programs.enabled w (t, .scanRows hst cs))
    (hk : w.data.snap.Knows (.exit hst .emptying cs)) :
    w.data.snap.Knows (.exit hst
      (.dissolving (w.data.memberships.select t (fun k _ => k.1 == hst.key.1))) cs) := by
  refine ⟨hk.1, hk.2.1, hk.2.2.1, hk.2.2.2.1, ?_⟩
  intro _ _ m hm
  rw [← view_rows_exit h en.1] at hm
  exact mem_select.2 ⟨m, hm, by simp⟩

/-- One more row goes with its group. -/
theorem knows_dissolve {todo : List (Uuid × Uuid)}
    (en : programs.enabled w (t, .dissolveRow hst todo cs k))
    (hk : w.data.snap.Knows (.exit hst (.dissolving todo) cs)) :
    w.data.snap.Knows (.exit hst (.dissolving (todo.erase k))
      (cs ++ w.data.dissolves t hst.key.1 k)) := by
  have hs := sound_reachable h t
  rw [show w.pc t = .exit hst (.dissolving todo) cs from en.1] at hs
  refine ⟨hk.1, hk.2.1, hk.2.2.1, fun _ => hk.2.2.2.1 (hs.2.2 trivial), ?_⟩
  intro halive q m hm
  have htodo := hk.2.2.2.2 halive
  rw [← append_assoc] at hm
  by_cases hq : (hst.key.1, q) = k
  · exfalso
    subst hq
    cases hview : w.data.memberships.view t (hst.key.1, q) with
    | none =>
      rw [show w.data.dissolves t hst.key.1 (hst.key.1, q) = [] by rw [Data.dissolves, hview],
        append_nil, ← view_rows_exit h en.1] at hm
      exact absurd (hm.symm.trans hview) (some_ne_none m)
    | some row =>
      have hnew := (row_committed_exit h en.1 hview).2
      rw [show w.data.dissolves t hst.key.1 (hst.key.1, q) = [dissolution (hst.key.1, q) row] by
        rw [Data.dissolves, hview]; exact if_pos rfl] at hm
      exact absurd (hm.symm.trans (Pg.Change.apply_append_changed
        (c := dissolution (hst.key.1, q) row) hnew)) (some_ne_none m)
  · have hsame : w.data.snap.rowsWith (hst.kept ++ cs ++ w.data.dissolves t hst.key.1 k)
        hst.key.1 q = w.data.snap.rowsWith (hst.kept ++ cs) hst.key.1 q := by
      refine Pg.Change.apply_append_same ?_
      intro _ hc he
      exact hq (he.symm.trans (removes_dissolves hc).2.1)
    exact (mem_erase_of_ne hq).2 (htodo q m (hsame.symm.trans hm))

/-- The group itself goes. -/
theorem knows_gone (en : programs.enabled w (t, .deleteGroup hst cs))
    (hk : w.data.snap.Knows (.exit hst (.dissolving []) cs)) :
    w.data.snap.Knows (.exit hst (.done (w.data.groups.view t hst.key.1).isSome) cs) := by
  refine ⟨hk.1, hk.2.1, hk.2.2.1, hk.2.2.2.1, ?_⟩
  intro halive
  refine .inr ⟨?_, ?_⟩
  · have hview := view_group h (t := t) (by rw [show w.pc t = _ from en.1]; rfl) hst.key.1
    rw [show w.pc t = .exit hst (.dissolving []) cs from en.1] at hview
    cases hv : w.data.groups.view t hst.key.1 with
    | none => exact (hv.symm.trans hview).symm
    | some => exact if_pos (mem_append_right _ mem_cons_self)
  · intro q
    by_contra hne
    obtain ⟨m, hm⟩ := ne_none_iff_exists'.1 hne
    cases hk.2.2.2.2 halive q m hm

end

theorem Exit.gone_eq {g' : Uuid} (h : g' ∈ st.gone g) : g' = g := by
  unfold Exit.gone at h
  split at h
  · exact mem_singleton.1 h
  · cases h

/-- A sweep releases the savepoint of a group. -/
theorem knows_release {todo : List Uuid} {gone : Bool} {stage : SweepStage}
    (h : system.Reachable G w) (hpc : w.pc t = .exit (.sweep sw g p todo) (.done gone) cs)
    (hk : w.data.snap.Knows (.exit (.sweep sw g p todo) (.done gone) cs))
    (hstage : ∀ g' ∈ stage.todo, g' ∈ todo) :
    w.data.snap.Knows (.sweep (sw.release g gone cs) stage) := by
  have hs := sound_reachable h t
  rw [hpc] at hs
  refine ⟨?_, fun g' hg' => hk.2.1 g' (hstage g' hg')⟩
  intro c hc
  by_cases hkey : c.key.1 = g
  · have halive : w.data.snap.groups g ≠ none := by
      rcases mem_append.1 hc with hc | hc
      · exact hkey ▸ (hk.1 c hc).1
      · exact hk.2.2.2.1 (ne_nil_of_mem hc)
    rw [hkey]
    exact ⟨halive, hk.2.2.2.2 halive⟩
  · have hmem : c ∈ sw.removed := by
      rcases mem_append.1 hc with hc | hc
      · exact hc
      · exact absurd (hs.2.1 c hc).2 hkey
    obtain ⟨halive, hfit⟩ := hk.1 c hmem
    refine ⟨halive, ?_⟩
    have hgroup : w.data.snap.groupWith (sw.dissolved ++ (Exit.done gone).gone g) c.key.1 =
        w.data.snap.groupWith sw.dissolved c.key.1 := by
      unfold Snap.groupWith
      simp only [mem_append]
      by_cases hd : c.key.1 ∈ sw.dissolved
      · rw [if_pos (.inl hd), if_pos hd]
      · rw [if_neg hd, if_neg]
        rintro (hd' | hd')
        · exact hd hd'
        · exact hkey (Exit.gone_eq hd')
    show Fit (w.data.snap.groupWith (sw.dissolved ++ (Exit.done gone).gone g) c.key.1)
      (w.data.snap.rowsWith (sw.removed ++ cs) c.key.1)
    rw [hgroup, Snap.rowsWith_other (fun c' hc' he => hkey (he.symm.trans (hs.2.1 c' hc').2))]
    exact hfit

/-- The groups of a player that a sweep lists. -/
theorem knows_list {tomb : Tombstone} {rest : List (Uuid × Tombstone)} {stage : SweepStage}
    (h : system.Reachable G w) (hall : w.data.snap.FitAll)
    (en : programs.enabled w (t, .sweepList sw p tomb rest))
    (hk : w.data.snap.Knows (.sweep sw .listing))
    (hstage : ∀ g ∈ stage.todo, g ∈ w.data.playerGroups t p sw.slots) :
    w.data.snap.Knows (.sweep sw stage) := by
  refine ⟨hk.1, ?_⟩
  intro g hg
  have hmem := (mem_insertionSort _).1 (mem_of_mem_take (hstage g hg))
  obtain ⟨⟨_, _⟩, hsel, rfl⟩ := mem_map.1 hmem
  obtain ⟨_, hm, -⟩ := mem_select.1 hsel
  have hs := sound_reachable h t
  have hdel : ∀ c ∈ (w.pc t).changes, Removes c := by
    rw [en.1] at hs ⊢
    exact fun c hc => (hs.1 c hc).1
  exact old_of_group h (hall.group (row_committed h hdel hm).1)

end Exits

/-- What a session knows after a statement of its own, before anything is
committed. -/
theorem knows_after (h : system.Reachable G w) (hall : w.data.snap.FitAll)
    (en : programs.enabled w (t, a)) (hk : w.data.snap.Knows (stmt t a).before) :
    w.data.snap.Knows ((stmt t a).after w.data) := by
  have hempty : ∀ c ∈ ([] : List Change), w.data.snap.groups c.key.1 ≠ none ∧
      w.data.snap.FitWith [] [] c.key.1 := by
    intro _ hc
    cases hc
  have hnil : ∀ g ∈ ([] : List Uuid), w.data.snap.old g := by
    intro _ hg
    cases hg
  cases a with
  | readPolicy x =>
    obtain ⟨row, hrow, -⟩ := map_eq_some_iff.1 en.2.1
    rw [view_group_op h en.1] at hrow
    show w.data.snap.groups x.call.group.id ≠ none
    rw [hrow]
    exact some_ne_none row
  | authorizeInvite =>
    obtain ⟨_, hm, -⟩ := administers h en.1 en.2.2
    exact hall.group hm
  | authorizeDecide =>
    obtain ⟨m, hm, hadmin⟩ := administers h en.1 en.2.2
    refine ⟨hall.group hm, ?_⟩
    intro _ _ hop
    cases en.2.1.symm.trans hop
    exact ⟨m, hm, hadmin⟩
  | nameGroup x row =>
    have hrow : w.data.groups.view t x.call.group.id = some row := en.2.2
    rw [view_group_op h en.1] at hrow
    constructor
    · rw [hrow]
      exact some_ne_none row
    · intro _ _ hop
      cases en.2.1.symm.trans hop
  | countRows => exact hk
  | insertMember x =>
    obtain ⟨_, _, hm, hadmin⟩ := hall.admin hk
    refine ⟨hk, fitWith_single hk ?_ hm hadmin⟩
    intro he
    have hnone : w.data.snap.rows x.call.key = none := en.2.2
    rw [show x.call.key = _ from he, hm] at hnone
    cases hnone
  | findRow => exact knows_found h hall en hk
  | writeRow => exact knows_written hall en hk
  | leaveRow => exact knows_leave h hall en
  | weigh => exact knows_weigh h en hk
  | deleteRow => exact knows_delete h hall en hk
  | deleteMiss =>
    refine ⟨hk.1, hk.2.1, hk.2.2.1, hk.2.2.2.1, ?_⟩
    exact fun halive => (hk.2.2.2.2 halive).1
  | scanRows => exact knows_scan h en hk
  | dissolveRow => exact knows_dissolve h en hk
  | deleteGroup => exact knows_gone h en hk
  | sweepOpen => exact ⟨hempty, hnil⟩
  | sweepSelect | sweepPlayer | sweepCap | sweepMore | sweepEnd => exact ⟨hk.1, hnil⟩
  | sweepList =>
    refine knows_list h hall en hk ?_
    intro _ hg
    split at hg
    · cases hg
    · exact hg
  | sweepLock => exact knows_lock h hall en hk
  | sweepRelease =>
    refine knows_release h en.1 hk ?_
    intro _ hg'
    split at hg'
    · cases hg'
    · split at hg'
      · cases hg'
      · exact hg'
  | sweepSkip sw p tomb rest groups spent | sweepAbort sw g p todo tomb rest st cs spent
  | sweepStamp _ _ _ _ spent => exact ⟨hk.1, by cases spent <;> exact hnil⟩
  | _ => exact trivial

end Own

section Commits

/-- A session that has come to its `COMMIT` and has not created a group leaves every
group fit. -/
theorem fit_changes {pc : Pc} {answers : List Answer} (hall : w.data.snap.FitAll) (hs : pc.Sound)
    (hk : w.data.snap.Knows pc) (hold : ∀ c ∈ pc.changes, w.data.snap.rows c.key = c.old)
    (hn : (pc.changes.map Pg.Change.key).Nodup) (hres : pc.result = some answers)
    (hd : pc.drawn = none) (g : Uuid) : w.data.snap.FitWith pc.changes pc.dissolved g := by
  have hnone : ∀ g ∈ ([] : List Uuid), ∃ c ∈ pc.changes, c.key.1 = g := by
    intro _ hg
    cases hg
  cases pc with
  | create _ _ st =>
    cases st with
    | written => cases hd
    | _ => cases hres
  | op _ st =>
    cases st with
    | written =>
      refine fitWith_of_touched hall ?_ hnone g
      intro _ hc'
      cases mem_singleton.1 hc'
      rw [hs.1]
      exact hk
    | _ => cases hres
  | exit hst st cs =>
    cases hst with
    | sweep => cases hres
    | leave x =>
      cases st with
      | done gone =>
        have htouched : ∀ c ∈ cs, c.key.1 = x.call.group.id := fun c hc => (hs.2.1 c hc).2
        refine fitWith_of_touched hall ?_ ?_ g
        · intro c hc
          have halive := hk.2.2.2.1 (ne_nil_of_mem hc)
          rw [htouched c hc]
          exact ⟨halive, hk.2.2.2.2 halive⟩
        · intro _ hg'
          cases gone with
          | false => cases hg'
          | true =>
            obtain ⟨c, hc⟩ := exists_mem_of_ne_nil cs (hs.2.2 trivial)
            exact ⟨c, hc, (htouched c hc).trans (mem_singleton.1 hg').symm⟩
      | _ => cases hres
  | prune pr =>
    refine (hall g).fades ?_
    intro p
    by_cases hmem : ∃ c ∈ pr.removed, c.key = (g, p)
    · obtain ⟨c, hc, hkey⟩ := hmem
      refine .inr ⟨?_, ?_⟩
      · unfold Snap.rowsWith
        rw [← hkey, Pg.Change.apply_changed hn hc]
        exact (hs c hc).1.new_eq
      · rw [Snap.rowsWith_nil]
        beta_reduce
        rw [← hkey, hold c hc]
        exact (hs c hc).2
    · exact .inl (Pg.Change.apply_same (fun c hc hkey => hmem ⟨c, hc, hkey⟩))
  | sweep => exact fitWith_of_touched hall hk.1 hs.2 g
  | _ => exact hall g

/-- The `COMMIT` of a new group. -/
theorem fit_created {c : Create} {now : Int} {id : Uuid} {answers : List Answer}
    (h : system.Reachable G w) (hall : w.data.snap.FitAll)
    (en : programs.enabled w (t, .commit (.create c now (.written id)) answers)) :
    ((stmt t (.commit (.create c now (.written id)) answers)).change w.data).snap.FitAll := by
  have hrows : ∀ k, ((stmt t (.commit (.create c now (.written id)) answers)).change
      w.data).snap.rows k = Pg.Change.apply [c.admission id now] w.data.snap.rows k :=
    fun k => snap_commit_rows h en
  have ho := (owns_reachable h t).owes
  rw [en.1] at ho
  intro g
  unfold Snap.FitWith
  rw [Snap.groupWith_nil, Snap.rowsWith_nil]
  by_cases hg : g = id
  · subst hg
    refine .inl ⟨?_, c.me.id, ⟨.member, .admin, now⟩, ?_, rfl, rfl⟩
    · show (w.data.groups.commit t).committed g ≠ none
      have hheld : w.data.groups.pending g = some (t, some c.row) := ho.held _ mem_cons_self
      rw [committed_commit, view_of_pending_self hheld]
      exact some_ne_none _
    · beta_reduce
      rw [hrows]
      exact Pg.Change.apply_single (c := c.admission g now)
  · have hgroup : ((stmt t (.commit (.create c now (.written id)) answers)).change
        w.data).snap.groups g = w.data.snap.groups g := by
      show (w.data.groups.commit t).committed g = _
      rw [committed_commit]
      refine view_of_not_holder ?_
      intro _ hv
      rcases group_held ho hv with hmem | hd
      · cases hmem
      · exact hg (some.inj hd).symm
    have hsame : (fun p => ((stmt t (.commit (.create c now (.written id)) answers)).change
        w.data).snap.rows (g, p)) = w.data.snap.rowsWith [] g := by
      funext p
      rw [hrows]
      refine Pg.Change.apply_same ?_
      intro _ hc' hkey
      cases mem_singleton.1 hc'
      exact hg (congrArg Prod.fst hkey).symm
    rw [hgroup, hsame]
    have hfit := hall g
    unfold Snap.FitWith at hfit
    rwa [Snap.groupWith_nil] at hfit

theorem fitAll_step (h : system.Reachable G w) (hall : w.data.snap.FitAll)
    (hk : w.data.snap.Knows (w.pc t)) (en : programs.enabled w (t, a)) :
    ((stmt t a).change w.data).snap.FitAll := by
  rcases exists_or_ne Act.commit a with ⟨pc, answers, rfl⟩ | hquiet
  · by_cases hd : pc.drawn = none
    · have hs := sound_reachable h t
      have hkeeps := keeps_reachable h t
      rw [en.1] at hs hkeeps hk
      intro g
      have hfit := fit_changes hall hs hk (fun c hc => hkeeps.owes.old_change hc) hkeeps.nodup
        en.2 hd g
      unfold Snap.FitWith
      rw [Snap.groupWith_nil, Snap.rowsWith_nil]
      have hrows : (fun p => ((stmt t (.commit pc answers)).change w.data).snap.rows (g, p)) =
          w.data.snap.rowsWith pc.changes g :=
        funext (fun p => snap_commit_rows h en)
      rw [hrows, show ((stmt t (.commit pc answers)).change w.data).snap.groups g = _ from
        snap_commit_groups h en hd g]
      exact hfit
    · cases pc with
      | create _ _ st =>
        cases st with
        | written => exact fit_created h hall en
        | grouped => cases en.2
        | _ => exact absurd rfl hd
      | _ => exact absurd rfl hd
  · intro g
    refine Snap.FitWith.calm (hall g) ⟨groups_quiet hquiet g, ?_⟩
    exact fun p => .inl (memberships_quiet hquiet (g, p))

/-- In every reachable state the groups are fit, and the sessions know what they have
read. -/
theorem fit_reachable (h : system.Reachable G w) :
    w.data.snap.FitAll ∧ ∀ t, w.data.snap.Knows (w.pc t) := by
  refine joint_invariant (X := programs) (I := fun d => d.snap.FitAll)
    (L := fun d _ pc => d.snap.Knows pc) (fun g => .inr ⟨rfl, fun p => rfl⟩) (fun _ => trivial)
    ?_ h
  intro w t a hr _ en hall hk hown
  have hold : ∀ g, w.data.snap.old g → ((stmt t a).change w.data).snap.old g := fun g => old_step en
  have hdead : ∀ g, w.data.snap.old g → ((stmt t a).change w.data).snap.groups g ≠ none →
      w.data.snap.groups g ≠ none :=
    fun g => old_dead
  refine ⟨fitAll_step hr hall (hk t) en, ?_, fun u hu => ?_⟩
  · rcases exists_or_ne Act.commit a with ⟨_, _, rfl⟩ | hquiet
    · exact trivial
    · have hs : (stmt t a).before.Sound := en.1 ▸ sound_reachable hr t
      refine (knows_after hr hall en hown).calm (sound_own en.2 hs) ?_ hold hdead
      exact fun g _ _ => ⟨groups_quiet hquiet g, fun p => .inl (memberships_quiet hquiet (g, p))⟩
  · refine (hk u).calm (sound_reachable hr u) ?_ hold hdead
    exact fun g hlock hg => calm_other hr en (Ne.symm hu) hlock hg

end Commits

section Capacity

/-- The committed rows of a group. -/
def Data.size (d : Data) (g : Uuid) : Nat := d.memberships.count (fun k _ => k.1 == g)

/-- The sessions that have found room for a row in a group. -/
def Pc.admitted : Pc → Option Uuid
  | .create _ _ (.grouped id) | .create _ _ (.written id) => some id
  | .op x (.roomy _ _) => some x.call.group.id
  | .op x (.written c) => if c.old = none then some x.call.group.id else none
  | _ => none

/-- The new row that a session has not committed yet. -/
def Pc.inserting : Pc → Option (Uuid × Uuid)
  | .create c _ (.written id) => some (id, c.me.id)
  | .op x (.written ch) => if ch.old = none then some x.call.key else none
  | _ => none

theorem inserting_of_insert {pc : Pc} {c : Change} (hs : pc.Sound) (hc : c ∈ pc.changes)
    (hnew : c.new ≠ none) (hold : c.old = none) : pc.inserting = some c.key := by
  cases pc with
  | create _ _ st =>
    cases st with
    | written =>
      cases mem_singleton.1 hc
      rfl
    | _ => cases hc
  | op _ st =>
    cases st with
    | written =>
      cases mem_singleton.1 hc
      rw [hs.1]
      exact if_pos hold
    | _ => cases hc
  | exit => exact absurd (exit_removes hs c hc).new_eq hnew
  | prune => exact absurd (hs c hc).1.new_eq hnew
  | sweep => exact absurd (hs.1 c hc).1.new_eq hnew
  | _ => cases hc

theorem admitted_of_inserting {pc : Pc} {k : Uuid × Uuid} (h : pc.inserting = some k) :
    pc.admitted = some k.1 := by
  cases pc with
  | create _ _ st =>
    cases st with
    | written =>
      cases h
      rfl
    | _ => cases h
  | op x st =>
    cases st with
    | written c =>
      have h : (if c.old = none then some x.call.key else none) = some k := h
      split at h
      · rename_i hold
        cases h
        exact if_pos hold
      · cases h
    | _ => cases h
  | _ => cases h

theorem changes_of_admitted {pc : Pc} {g : Uuid} {answers : List Answer} (h : pc.admitted = some g)
    (hres : pc.result = some answers) : ∃ c, pc.changes = [c] := by
  cases pc with
  | create _ _ st =>
    cases st with
    | written => exact ⟨_, rfl⟩
    | _ => cases hres
  | op _ st =>
    cases st with
    | written c => exact ⟨c, rfl⟩
    | _ => cases hres
  | _ => cases h

section

variable (h : system.Reachable G w)
include h

/-- Two sessions do not find room in one group at the same time. -/
theorem admitted_exclusive {g : Uuid} (ht : (w.pc t).admitted = some g)
    (hu : (w.pc u).admitted = some g) : t = u := by
  -- who has found room has locked an existing group, or has created the group
  have hcases : ∀ v, (w.pc v).admitted = some g →
      (groupLockKey g.text ∈ (w.pc v).locksHeld ∧ w.data.snap.groups g ≠ none) ∨
        (w.pc v).drawn = some g := by
    intro v hv
    have hk := (fit_reachable h).2 v
    cases hpc : w.pc v with
    | create _ _ st =>
      rw [hpc] at hv
      cases st with
      | grouped id | written id => exact .inr hv
      | _ => cases hv
    | op x st =>
      rw [hpc] at hv hk
      cases st with
      | roomy =>
        cases hv
        exact .inl ⟨mem_singleton.2 (lockKey_eq x.call).symm, hk⟩
      | written c =>
        have hv : (if c.old = none then some x.call.group.id else none) = some g := hv
        split at hv <;> cases hv
        exact .inl ⟨mem_singleton.2 (lockKey_eq x.call).symm, hk.1⟩
      | _ => cases hv
    | _ =>
      rw [hpc] at hv
      cases hv
  rcases hcases t ht with ⟨hlt, hgt⟩ | hdt
  · rcases hcases u hu with ⟨hlu, -⟩ | hdu
    · exact (locks_held h t).exclusive (locks_held h u) hlt hlu
    · exact absurd (drawn_uncommitted h hdu).1 hgt
  · rcases hcases u hu with ⟨-, hgu⟩ | hdu
    · exact absurd (drawn_uncommitted h hdt).1 hgu
    · exact (drawn_ids h).2 t u g hdt hdu

theorem size_step (en : programs.enabled w (t, a)) (g : Uuid) :
    ((stmt t a).change w.data).size g ≤ w.data.size g ∨
      ((stmt t a).before.admitted = some g ∧ ((stmt t a).after w.data).admitted ≠ some g ∧
        ((stmt t a).change w.data).size g ≤ w.data.size g + 1) := by
  rcases exists_or_ne Act.commit a with ⟨pc, answers, rfl⟩ | hquiet
  · have hpc : w.pc t = pc := en.1
    have hs := sound_reachable h t
    have hk := keeps_reachable h t
    rw [hpc] at hs hk
    have hrows : ∀ k, ((stmt t (.commit pc answers)).change w.data).memberships.committed k =
        Pg.Change.apply pc.changes w.data.snap.rows k :=
      fun k => snap_commit_rows h en
    by_cases hadm : pc.admitted = some g
    · obtain ⟨c, hcs⟩ := changes_of_admitted hadm en.2
      refine .inr ⟨hadm, (some_ne_none g).symm, count_le_succ c.key ?_⟩
      intro _ r hne hr hf
      rw [hrows, hcs, Pg.Change.apply_same] at hr
      · exact ⟨r, hr, hf⟩
      · intro _ hc' he
        cases mem_singleton.1 hc'
        exact hne he.symm
    · refine .inl (count_le ?_)
      intro k r hr hf
      rcases hk.commit_cases k with ⟨hsame, -⟩ | ⟨c, hc, rfl, hold, hnew⟩
      · exact ⟨r, hsame.symm.trans hr, hf⟩
      · have hne : c.new ≠ none := by
          rw [← hnew, show (w.data.memberships.commit t).committed c.key = some r from hr]
          exact some_ne_none r
        cases hcold : c.old with
        | none =>
          refine absurd ?_ hadm
          rw [admitted_of_inserting (inserting_of_insert hs hc hne hcold)]
          exact congrArg some (by simpa using hf)
        | some r' => exact ⟨r', hold.trans hcold, hf⟩
  · refine .inl (count_le ?_)
    intro _ r hr hf
    rw [memberships_quiet hquiet] at hr
    exact ⟨r, hr, hf⟩

/-- A session that finds room has counted the rows, or the group is new. -/
theorem size_admits (en : programs.enabled w (t, a)) (g : Uuid)
    (hg : ((stmt t a).after w.data).admitted = some g) :
    (stmt t a).before.admitted = some g ∨ ((stmt t a).change w.data).size g < maxMembers := by
  cases a with
  | insertGroup =>
    cases hg
    have hempty : w.data.memberships.keysWhere (fun k _ => k.1 == g) = [] := by
      refine eq_nil_iff_forall_not_mem.2 ?_
      rintro ⟨g', _⟩ hk
      obtain ⟨_, hm, hf⟩ := mem_keysWhere.1 hk
      obtain rfl : g' = g := by simpa using hf
      exact (fit_reachable h).1.group hm en.2.2.2
    refine .inr ?_
    show (w.data.memberships.keysWhere _).length < maxMembers
    rw [hempty]
    decide
  | insertCreator | insertMember => exact .inl hg
  | countRows =>
    cases hg
    refine .inr (Nat.lt_of_le_of_lt (count_le_select ?_) en.2)
    rintro ⟨_, _⟩ r hr hf
    exact ⟨r, (view_rows_op h en.1 rfl).trans hr, hf⟩
  | writeRow x _ row ch =>
    have hold : ch.old = some row := (lawful_change en.2.2.2).2.2
    have hg : (if ch.old = none then some x.call.group.id else none) = some g := hg
    rw [hold] at hg
    cases hg
  | _ => cases hg

theorem size_le (g : Uuid) : w.data.size g ≤ maxMembers :=
  (Programs.capacity (X := programs) Data.size Pc.admitted maxMembers (fun _ => Nat.zero_le _)
    (fun _ he => by cases he) (fun _ _ _ g hr _ en => size_step hr en g)
    (fun _ _ _ g hr _ en => size_admits hr en g) (fun _ _ _ _ hr => admitted_exclusive hr) h).1 g

end

end Capacity

section Rows

theorem roleOk_changes {pc : Pc} {c : Change} (hs : pc.Sound) (hc : c ∈ pc.changes) :
    ∀ m ∈ c.new, m.RoleOk := by
  have hremoves : Removes c → ∀ m ∈ c.new, m.RoleOk := by
    intro hrem _ hm
    rw [hrem.new_eq] at hm
    cases hm
  cases pc with
  | create _ _ st =>
    cases st with
    | written =>
      cases mem_singleton.1 hc
      rintro _ hm
      cases hm
      exact ⟨fun _ => Role.noConfusion, fun _ => rfl⟩
    | _ => cases hc
  | op _ st =>
    cases st with
    | written =>
      cases mem_singleton.1 hc
      exact hs.2.2
    | _ => cases hc
  | exit => exact hremoves (exit_removes hs c hc)
  | prune => exact hremoves (hs c hc).1
  | sweep => exact hremoves (hs.1 c hc).1
  | _ => cases hc

theorem roleOk_reachable (h : system.Reachable G w) :
    ∀ k m, w.data.memberships.committed k = some m → m.RoleOk := by
  refine data_invariant (X := programs)
    (I := fun d => ∀ k m, d.memberships.committed k = some m → m.RoleOk) ?_ ?_ h
  · intro _ _ hm
    cases hm
  intro w t a hr _ en hI k m hm
  rcases exists_or_ne Act.commit a with ⟨pc, answers, rfl⟩ | hquiet
  · have hpc : w.pc t = pc := en.1
    have hs := sound_reachable hr t
    have hk := keeps_reachable hr t
    rw [hpc] at hs hk
    rcases hk.commit_cases k with ⟨hsame, -⟩ | ⟨_, hc, rfl, -, hnew⟩
    · exact hI k m (hsame.symm.trans hm)
    · exact roleOk_changes hs hc m (hnew.symm.trans hm)
  · rw [show ((programs.stmt t a).change w.data).memberships.committed k =
      w.data.memberships.committed k from
        memberships_quiet hquiet k] at hm
    exact hI k m hm

end Rows

section Result

/-- The roster invariant. -/
structure Roster (d : Data) : Prop where
  admin : ∀ g, d.groups.committed g ≠ none →
    ∃ p m, ((g, p), m) ∈ d.memberships.rows ∧ m.state = .member ∧ m.role = .admin
  group : ∀ g p m, ((g, p), m) ∈ d.memberships.rows → d.groups.committed g ≠ none
  bound : ∀ g, (d.memberships.rows.filter (fun r => r.1.1 == g)).length ≤ maxMembers
  role : ∀ k m, (k, m) ∈ d.memberships.rows → (m.role ≠ .empty ↔ m.state = .member)
  single : ∀ g p, (d.memberships.rows.filter (fun r => r.1 = (g, p))).length ≤ 1

/-- In every state that any interleaving of the sessions reaches, every group has an
admin, every membership belongs to a group, no group is over its bound, the roles are
those of the members, and a player has one row in a group. -/
theorem roster_invariant (h : system.Reachable TransitionSystem.anyStep w) : Roster w.data where
  admin := by
    intro _ hg
    obtain ⟨p, m, hm, hadmin⟩ := (fit_reachable h).1.admin hg
    exact ⟨p, m, mem_rows.2 hm, hadmin.1, hadmin.2⟩
  group := by
    intro _ _ _ hm
    exact (fit_reachable h).1.group (mem_rows.1 hm)
  bound := by
    intro g
    have hcount : (w.data.memberships.rows.filter (fun r => r.1.1 == g)).length =
        w.data.size g :=
      length_rows_filter (f := fun (k : Uuid × Uuid) _ => k.1 == g)
    rw [hcount]
    exact size_le h g
  role := by
    intro k m hm
    exact (roleOk_reachable h k m (mem_rows.1 hm)).symm
  single := by
    intro g p
    exact length_rows_key (g, p)

/-- Two players and a group. -/
def ann : Uuid.Spelling where
  text := "aaaaaaaa-aaaa-aaaa-aaaa-aaaaaaaaaaaa"
  id := .filled 10
  reads := by decide +kernel

def bob : Uuid.Spelling where
  text := "BBBBBBBB-BBBB-BBBB-BBBB-BBBBBBBBBBBB"
  id := .filled 11
  reads := by decide +kernel

def guild : Uuid.Spelling where
  text := "cccccccc-cccc-cccc-cccc-cccccccccccc"
  id := .filled 12
  reads := by decide +kernel

/-- A player creates a group. -/
def foundingRun : List (Sess × Act) :=
  let c : Create := ⟨ann, "guild", .joinOpen⟩
  [(1, .createOpen (.create ann "guild" "open") c 0), (1, .createClear c 0),
   (1, .insertGroup c 0 guild.id), (1, .insertCreator c 0 guild.id),
   (1, .commit (.create c 0 (.written guild.id))
     [.created c (.ok (.group guild.id "guild" .joinOpen 0 .member .admin))])]

/-- Another player joins it. -/
def joiningRun : List (Sess × Act) :=
  let x : Tx := ⟨⟨.join "bob#0001", guild, bob⟩, 1, ""⟩
  [(2, .callOpen (.join bob guild "bob#0001") x.call 1), (2, .lockGroup x),
   (2, .checkTombstone x), (2, .readPolicy x .joinOpen .member .member),
   (2, .countRows x .member .member), (2, .insertMember x .member .member),
   (2, .commit (.op x (.written (x.call.admission .member .member 1)))
     [.called x.call (.ok (.member bob.id "bob#0001" .member .member 1))])]

/-- The operator promotes the other player, and the founder leaves. -/
def successionRun : List (Sess × Act) :=
  let row : MemberRow := ⟨.member, .member, 1⟩
  let x : Tx := ⟨⟨.promote, guild, bob⟩, 2, ""⟩
  let x' : Tx := ⟨⟨.promote, guild, bob⟩, 2, "guild"⟩
  let ch : Change := ⟨(guild.id, bob.id), some row, some (row.promote .admin),
    [.roleChanged guild.id bob.id .admin]⟩
  let y : Tx := ⟨⟨.leave, guild, ann⟩, 3, ""⟩
  let own : MemberRow := ⟨.member, .admin, 0⟩
  let h : Host := .leave y own
  [(3, .callOpen (.promote guild bob) x.call 2), (3, .lockGroup x),
   (3, .nameGroup x ⟨"guild", .joinOpen, ann.id⟩), (3, .findRow x' row),
   (3, .writeRow x' row row ch),
   (3, .commit (.op x' (.written ch)) [.called x.call (.ok (.promotion guild.id "guild" bob.id false))]),
   (1, .callOpen (.leave ann guild) y.call 3), (1, .lockGroup y), (1, .leaveRow y own),
   (1, .weigh h), (1, .deleteRow h ⟨2, 2, 2⟩ own),
   (1, .commit (.exit h (.done false) [h.removal own]) [.called y.call (.ok .unit)])]

/-- The founder of a group leaves it to its other admin. -/
theorem roster_succession :
    ∃ w, system.Reachable TransitionSystem.anyStep w ∧ Roster w.data ∧
      w.data.memberships.rows = [((guild.id, bob.id), ⟨.member, .admin, 1⟩)] ∧
      w.data.groups.committed guild.id ≠ none := by
  obtain ⟨w, hw, hrows⟩ := TransitionSystem.exec_exhibits (T := system)
    TransitionSystem.anyStep (foundingRun ++ joiningRun ++ successionRun)
    (f := fun w => decide (w.data.memberships.rows =
      [((guild.id, bob.id), ⟨.member, .admin, 1⟩)]))
    (by decide +kernel)
  have hrows := of_decide_eq_true hrows
  have hroster := roster_invariant hw
  exact ⟨w, hw, hroster, hrows, hroster.group guild.id bob.id ⟨.member, .admin, 1⟩
    (by rw [hrows]; exact mem_singleton.2 rfl)⟩

end Result

end Swarog.Groups
