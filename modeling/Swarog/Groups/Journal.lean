import Swarog.Groups.Roster

/-!
# The journal of the groups service

A consumer that reads the events in commit order and keeps the players of each group,
adding them at `memberJoined` and dropping them at `memberLeft`, has the members of the
database (`journal`).  Each kind of change is followed by its own events, so that the
fold follows a whole transaction, whatever of it a return to a savepoint has undone.

A row that goes, whatever its state was, leaves one `memberLeft` behind.
-/

namespace Swarog.Groups

open Pg Function

section Journal

/-- What a consumer of the events does. -/
def Event.tell (s : Finset (Uuid × Uuid)) : Event → Finset (Uuid × Uuid)
  | .memberJoined g p _ => insert (g, p) s
  | .memberLeft g p _ _ => s.erase (g, p)
  | _ => s

/-- The roster that the events tell. -/
def journal (events : List Event) : Finset (Uuid × Uuid) := events.foldl Event.tell ∅

/-- The rows of the database whose state is `member`. -/
def Data.members (d : Data) : Finset (Uuid × Uuid) :=
  ((d.memberships.rows.filter (fun r => decide r.2.IsMember)).map Prod.fst).toFinset

/-- The event says that the pair has lost its row. -/
def Event.leaves (k : Uuid × Uuid) : Event → Bool
  | .memberLeft g p _ _ => decide ((g, p) = k)
  | _ => false

theorem mem_members {d : Data} {k : Uuid × Uuid} :
    k ∈ d.members ↔ ∃ m, d.memberships.committed k = some m ∧ m.IsMember := by
  simp only [Data.members, List.mem_toFinset, List.mem_map, List.mem_filter, decide_eq_true_eq]
  constructor
  · rintro ⟨⟨_, m⟩, ⟨hm, hmem⟩, rfl⟩
    exact ⟨m, Table.mem_rows.1 hm, hmem⟩
  · rintro ⟨m, hm, hmem⟩
    exact ⟨(k, m), ⟨Table.mem_rows.2 hm, hmem⟩, rfl⟩

end Journal

section Changes

/-- A set of pairs has the members among the rows. -/
def Follows (s : Finset (Uuid × Uuid)) (row : Uuid × Uuid → Option MemberRow) : Prop :=
  ∀ k, k ∈ s ↔ ∃ m, row k = some m ∧ m.IsMember

variable {c : Change} {s : Finset (Uuid × Uuid)} {row : Uuid × Uuid → Option MemberRow}

section

variable (h : Follows s row) (k : Uuid × Uuid)
include h

theorem Follows.join {m : MemberRow} (hm : m.IsMember) :
    Follows (insert k s) (update row k (some m)) := by
  intro k'
  rw [Finset.mem_insert]
  by_cases hk : k' = k
  · subst hk
    rw [update_self]
    exact ⟨fun _ => ⟨m, rfl, hm⟩, fun _ => .inl rfl⟩
  · rw [update_of_ne hk, ← h k']
    exact or_iff_right hk

theorem Follows.leave : Follows (s.erase k) (update row k none) := by
  intro k'
  rw [Finset.mem_erase]
  by_cases hk : k' = k
  · subst hk
    rw [update_self]
    exact ⟨fun hne => absurd rfl hne.1, fun ⟨m, hm, _⟩ => by cases hm⟩
  · rw [update_of_ne hk, ← h k']
    exact and_iff_right hk

/-- A change that tells nothing leaves the member that was there, or no member. -/
theorem Follows.keep {v : Option MemberRow}
    (hv : (∃ m, row k = some m ∧ m.IsMember) ↔ ∃ m, v = some m ∧ m.IsMember) :
    Follows s (update row k v) := by
  intro k'
  rw [h k']
  by_cases hk : k' = k
  · subst hk
    rw [update_self]
    exact hv
  · rw [update_of_ne hk]

end

/-- The events of a change follow it. -/
theorem Lawful.follows (hc : Lawful c) (h : Follows s row) (hold : row c.key = c.old) :
    Follows (c.events.foldl Event.tell s) (update row c.key c.new) := by
  cases hc with
  | created id p => exact h.join (id, p) rfl
  | joined k old row' hpending hrow => exact h.join k hrow
  | pending k row' hrow =>
    refine h.keep k ?_
    rw [show row k = none from hold]
    constructor
    · rintro ⟨m, hm, -⟩
      cases hm
    · rintro ⟨m, hm, hmem⟩
      cases hm
      exact absurd hmem hrow
  | promoted k row' row'' hrow hrow' =>
    refine h.keep k ?_
    exact ⟨fun _ => ⟨row'', rfl, hrow'⟩, fun _ => ⟨row', hold, hrow⟩⟩
  | removed k => exact h.leave k

theorem Lawful.leaves_other {k : Uuid × Uuid} (hc : Lawful c) (hk : c.key ≠ k) :
    c.events.countP (Event.leaves k) = 0 := by
  cases hc with
  | removed k' =>
    simp [Event.leaves, hk]
  | _ => rfl

/-- The deletion of a row has one such event, the other changes have none. -/
theorem Lawful.leaves_own (hc : Lawful c) :
    c.events.countP (Event.leaves c.key) = if c.old ≠ none ∧ c.new = none then 1 else 0 := by
  cases hc with
  | _ => simp [Event.leaves]

end Changes

variable {G : World Data Pc → Sess × Act → Prop}
variable {w : World Data Pc} {t : Sess} {a : Act}

section Commits

theorem lawful_changes {pc : Pc} {c : Change} (hs : pc.Sound) (hc : c ∈ pc.changes) : Lawful c := by
  cases pc with
  | create cr now st =>
    cases st with
    | written id =>
      cases List.mem_singleton.1 hc
      exact .created id cr.me.id cr.name cr.policy now
    | _ => cases hc
  | op _ st =>
    cases st with
    | written =>
      cases List.mem_singleton.1 hc
      exact hs.2.1
    | _ => cases hc
  | exit => exact (exit_removes hs c hc).lawful
  | prune => exact (hs c hc).1.lawful
  | sweep => exact (hs.1 c hc).1.lawful
  | _ => cases hc

theorem journal_append (events events' : List Event) :
    journal (events ++ events') = events'.foldl Event.tell (journal events) :=
  List.foldl_append

/-- The journal follows the committed rows. -/
theorem journal_follows (h : system.Reachable G w) :
    Follows (journal w.data.events) w.data.memberships.committed := by
  refine Programs.data_invariant (X := programs)
    (I := fun d => Follows (journal d.events) d.memberships.committed) ?_ ?_ h
  · intro _
    constructor
    · intro hk
      cases hk
    · rintro ⟨_, hm, -⟩
      cases hm
  intro w t a hr _ en hI
  rcases exists_or_ne Act.commit a with ⟨pc, answers, rfl⟩ | hquiet
  · have hs := sound_reachable hr t
    have hk := keeps_reachable hr t
    rw [en.1] at hs hk
    have hrows : ((stmt t (.commit pc answers)).change w.data).memberships.committed =
        Pg.Change.apply pc.changes w.data.memberships.committed :=
      funext (fun k => snap_commit_rows hr en)
    show Follows (journal (w.data.events ++ pc.changes.flatMap Change.events))
      ((stmt t (.commit pc answers)).change w.data).memberships.committed
    rw [journal_append, hrows]
    exact Pg.Change.fold_follows (R := Follows)
      (fun c hc _ _ hf hold => (lawful_changes hs hc).follows hf hold) hk.nodup
      (fun c hc => hk.owes.old_change hc) hI
  · show Follows (journal ((stmt t a).change w.data).events)
      ((stmt t a).change w.data).memberships.committed
    rw [events_quiet hquiet, show ((stmt t a).change w.data).memberships.committed = _ from
      funext (memberships_quiet hquiet)]
    exact hI

/-- What a step adds to the events. -/
theorem leaves_step (h : system.Reachable G w) (en : programs.enabled w (t, a)) :
    ∃ events, ((stmt t a).change w.data).events = w.data.events ++ events ∧
      ∀ k, events.countP (Event.leaves k) =
        if w.data.memberships.committed k ≠ none ∧
          ((stmt t a).change w.data).memberships.committed k = none then 1 else 0 := by
  rcases exists_or_ne Act.commit a with ⟨pc, answers, rfl⟩ | hquiet
  · have hpc : w.pc t = pc := en.1
    have hs := sound_reachable h t
    have hk := keeps_reachable h t
    rw [hpc] at hs hk
    refine ⟨pc.changes.flatMap Change.events, rfl, ?_⟩
    intro k
    rcases hk.commit_cases k with ⟨hsame, hne⟩ | ⟨c, hc, rfl, hold, hnew⟩
    · rw [show ((stmt t (.commit pc answers)).change w.data).memberships.committed k = _ from hsame,
        Pg.Change.countP_events_none
          (fun c hc => (lawful_changes hs hc).leaves_other (hne c hc)), if_neg]
      exact fun hboth => hboth.1 hboth.2
    · rw [show ((stmt t (.commit pc answers)).change w.data).memberships.committed c.key = _
        from hnew, hold, Pg.Change.countP_events_of_mem hk.nodup hc
          (fun c' hc' hne => (lawful_changes hs hc').leaves_other hne)]
      exact (lawful_changes hs hc).leaves_own
  · refine ⟨[], by rw [events_quiet hquiet, List.append_nil], ?_⟩
    intro _
    rw [memberships_quiet hquiet, if_neg (fun hboth => hboth.1 hboth.2)]
    rfl

end Commits

section Result

/-- In every reachable state the events tell the members, and every step that takes a
row away appends one `memberLeft` for it, and no other. -/
theorem journal_tells_roster (h : system.Reachable TransitionSystem.anyStep w) :
    journal w.data.events = w.data.members ∧
      ∀ l, system.enabled w l →
        ∃ events, (system.effect w l).data.events = w.data.events ++ events ∧
          ∀ k, events.countP (Event.leaves k) =
            if w.data.memberships.committed k ≠ none ∧
              (system.effect w l).data.memberships.committed k = none then 1 else 0 := by
  refine ⟨?_, fun l en => leaves_step h en⟩
  ext k
  rw [journal_follows h k, mem_members]

/-- The account of the only admin is deleted, and the sweep dissolves the group. -/
def dissolutionRun : List (Sess × Act) :=
  let tomb : Tombstone := .planted "ann#0001"
  let own : MemberRow := ⟨.member, .admin, 0⟩
  let other : MemberRow := ⟨.member, .member, 1⟩
  let s₁ : Sweep := { Sweep.first with size := 1, claimed := [(ann.id, tomb)] }
  let h : Host := .sweep s₁ guild.id ann.id []
  let cs : List Change := [h.removal own, dissolution (guild.id, bob.id) other]
  let s₂ : Sweep := s₁.release guild.id true cs
  let s₃ : Sweep := { s₂ with watermark := ann.id, claimed := [], stamped := [(ann.id, tomb)] }
  [(3, .plant ann.id "ann#0001"), (3, .commit (.planted (some (ann.id, tomb))) []),
   (4, .sweepOpen), (4, .sweepSelect .first), (4, .sweepPlayer s₁),
   (4, .sweepList s₁ ann.id tomb []), (4, .sweepLock s₁ ann.id tomb [] guild.id []),
   (4, .weigh h), (4, .deleteRow h ⟨2, 2, 1⟩ own), (4, .scanRows h [h.removal own]),
   (4, .dissolveRow h [(guild.id, bob.id)] [h.removal own] (guild.id, bob.id)),
   (4, .deleteGroup h cs), (4, .sweepRelease s₁ guild.id ann.id [] true cs false),
   (4, .sweepList s₂ ann.id tomb []), (4, .sweepStamp s₂ ann.id tomb [] false),
   (4, .sweepEnd s₃), (4, .commit (.sweep s₃ .finished) [])]

/-- The group goes with its admin; the events say so of both players. -/
theorem journal_of_dissolution :
    ∃ w, system.Reachable TransitionSystem.anyStep w ∧
      w.data.events =
        [.created guild.id "guild" ann.id .joinOpen, .memberJoined guild.id ann.id .admin,
          .memberJoined guild.id bob.id .member,
          .memberLeft guild.id ann.id (some ann.id) .accountDeleted,
          .memberLeft guild.id bob.id none .groupDissolved] ∧
      w.data.members = ∅ := by
  obtain ⟨w, hw, hevents⟩ := TransitionSystem.exec_exhibits (T := system)
    TransitionSystem.anyStep (foundingRun ++ joiningRun ++ dissolutionRun)
    (f := fun w => decide (w.data.events =
      [.created guild.id "guild" ann.id .joinOpen, .memberJoined guild.id ann.id .admin,
        .memberJoined guild.id bob.id .member,
        .memberLeft guild.id ann.id (some ann.id) .accountDeleted,
        .memberLeft guild.id bob.id none .groupDissolved]))
    (by decide +kernel)
  have hevents := of_decide_eq_true hevents
  refine ⟨w, hw, hevents, ?_⟩
  rw [← (journal_tells_roster hw).1, hevents]
  decide +kernel

end Result

end Swarog.Groups
