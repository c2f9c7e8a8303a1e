import Swarog.Party.Fitness
import Swarog.Pg.Count

/-!
# The structure of parties

A party exists exactly as long as it has members, one of them leads it, its size is
bounded and invites name existing parties.  The size is bounded because a session that
has counted the members holds the lock of the party until it has committed, and a new
party has one member.

An `accept` that is refused has changed nothing.
-/

namespace Swarog.Party

open Pg Table List Option

section Joining

/-- The stages of a join at which there is room for the new member. -/
def Stage.counted : Stage → Bool
  | .found | .locked | .consumed => false
  | _ => true

/-- The party that a session has found room in, and the player that it adds. -/
def Pc.joining : Pc → Option (Uuid × Uuid)
  | .run r st => if r.job.joins && st.counted then some (r.party, r.job.me) else none
  | _ => none

def Pc.admitted (pc : Pc) : Option Uuid := pc.joining.map Prod.fst

/-- The change adds nobody to a party. -/
def Stays (c : Patch Uuid MemberRow) : Prop :=
  ∀ party, seat party c.new ≠ none → seat party c.old ≠ none

/-- The only player that a session adds to a party is the one that it has found room
for. -/
def Pc.Grows (pc : Pc) : Prop :=
  ∀ c ∈ pc.work.members, Stays c ∨ ∃ party, pc.joining = some (party, c.key)

/-- The number of members of a party. -/
def Data.size (d : Data) (party : Uuid) : Nat := d.members.count (fun _ m => m.party == party)

end Joining

variable {G : World Data Pc → Sess × Act → Prop}
variable {w : World Data Pc} {t u : Sess} {a : Act} {d d' : Data} {p party : Uuid}

section Growth

variable {pc : Pc} {r r' : Run} {st st' : Stage}

theorem joining_run {x : Uuid × Uuid} :
    (Pc.run r st).joining = some x ↔
      r.job.joins = true ∧ st.counted = true ∧ x = (r.party, r.job.me) := by
  show (if (r.job.joins && st.counted) = true then some (r.party, r.job.me) else none) = _ ↔ _
  split
  · rename_i hboth
    obtain ⟨hj, hc⟩ := Bool.and_eq_true_iff.1 hboth
    exact ⟨fun h => ⟨hj, hc, (some.inj h).symm⟩, fun h => congrArg some h.2.2.symm⟩
  · rename_i hnot
    constructor
    · intro h
      cases h
    · rintro ⟨hj, hc, -⟩
      exact absurd (Bool.and_eq_true_iff.2 ⟨hj, hc⟩) hnot

theorem admitted_run :
    (Pc.run r st).admitted = some party ↔
      r.job.joins = true ∧ st.counted = true ∧ r.party = party := by
  unfold Pc.admitted
  rw [map_eq_some_iff]
  constructor
  · rintro ⟨_, hx, rfl⟩
    obtain ⟨hj, hc, rfl⟩ := joining_run.1 hx
    exact ⟨hj, hc, rfl⟩
  · rintro ⟨hj, hc, rfl⟩
    exact ⟨(r.party, r.job.me), joining_run.2 ⟨hj, hc, rfl⟩, rfl⟩

theorem not_joins_of_seeks {j : Job} (h : j.seeks = true) : j.joins = false := by
  cases j <;> first | rfl | cases h

theorem not_joins_of_leads {j : Job} (h : j.leadStage = some st) : j.joins = false := by
  cases j <;> first | rfl | cases h

theorem not_joins_of_sweeps {j : Job} (h : j.sweeps = true) : j.joins = false := by
  cases j <;> first | rfl | cases h

theorem not_joins_of_renews {j : Job} (h : j.Renews st) : j.joins = false := by
  unfold Job.Renews at h
  split at h
  · rfl
  · rfl
  · rfl
  · exact h.elim

theorem party_of_joining {x : Uuid × Uuid} (h : pc.joining = some x) : pc.party = some x.1 := by
  cases pc with
  | run =>
    obtain ⟨-, -, rfl⟩ := joining_run.1 h
    rfl
  | _ => cases h

theorem admitted_rests (ha : a.rests = true) : ((stmt t a).after d).admitted = none :=
  rests_after (P := fun pc => pc.admitted = none) ha rfl (fun _ _ _ => rfl) (fun _ => rfl)

theorem grows_of_nil (h : pc.work.members = []) : pc.Grows := by
  intro _ hc
  rw [h] at hc
  cases hc

theorem stays_of_delete {c : Patch Uuid MemberRow} (h : c.new = none) : Stays c := by
  intro _ hseat
  rw [h] at hseat
  exact absurd rfl hseat

theorem stays_same_party {row row' : MemberRow} (h : row'.party = row.party) :
    Stays (patch p (some row) (some row')) := by
  intro _ hseat
  obtain ⟨_, hm, hparty⟩ := seat_ne_none.1 hseat
  cases hm
  exact seat_ne_none.2 ⟨row, rfl, h.symm.trans hparty⟩

/-- Another stage, and changes that add nobody. -/
theorem Pc.Grows.step (cs : List (Patch Uuid MemberRow)) (h : (Pc.run r st).Grows)
    (hjob : r'.job = r.job) (hparty : r'.party = r.party)
    (hmembers : r'.work.members = r.work.members ++ cs) (hst : st'.counted = true)
    (hcs : ∀ c ∈ cs, Stays c) : (Pc.run r' st').Grows := by
  intro c hc
  have hc : c ∈ r'.work.members := hc
  rw [hmembers] at hc
  rcases mem_append.1 hc with hc | hc
  · refine (h c hc).imp_right ?_
    rintro ⟨party, hjoining⟩
    obtain ⟨hj, -, heq⟩ := joining_run.1 hjoining
    refine ⟨party, joining_run.2 ⟨?_, hst, ?_⟩⟩
    · rw [hjob, hj]
    · rw [hjob, hparty, heq]
  · exact .inl (hcs c hc)

/-- Another stage. -/
theorem Pc.Grows.stage (h : (Pc.run r st).Grows) (hjob : r'.job = r.job)
    (hparty : r'.party = r.party) (hmembers : r'.work.members = r.work.members)
    (hst : st'.counted = true) : (Pc.run r' st').Grows :=
  h.step [] hjob hparty (by rw [hmembers, append_nil]) hst
    (fun _ hc => absurd hc not_mem_nil)

theorem grows_own (hg : (stmt t a).guard d) (hs : (stmt t a).before.Sound)
    (h : (stmt t a).before.Grows) : ((stmt t a).after d).Grows := by
  cases a with
  | createInsert _ party => exact forall_mem_singleton.2 (.inr ⟨party, rfl⟩)
  | lock | consume => exact grows_of_nil (congrArg Work.members hs.shape.1)
  | confirm | lead | vacant | present | upsertInvite | count | scanExpired | expired | choose
  | draw | insertParty | updateParty | scanInvites | clearInvite | deleteParty | record =>
    exact h.stage rfl rfl rfl rfl
  | renewIn r _ leaseUntil =>
    refine h.step (d.renewal t r.job.me leaseUntil) rfl rfl rfl rfl ?_
    intro _ hc
    obtain ⟨_, -, rfl⟩ := mem_renewal hc
    exact stays_same_party rfl
  | join r me =>
    obtain ⟨hmembers, -, hjoins, -⟩ := hs.shape
    intro c hc
    have hc : c ∈ r.work.members ++ [patch me none _] := hc
    rw [hmembers] at hc
    cases mem_singleton.1 hc
    refine .inr ⟨r.party, joining_run.2 ⟨hjoins, rfl, ?_⟩⟩
    show (r.party, me) = (r.party, r.job.me)
    rw [hg.1]
  | remove _ p _ row =>
    refine h.step [patch p (some row) none] rfl rfl rfl rfl ?_
    exact forall_mem_singleton.2 (stays_of_delete rfl)
  | setReady _ me state row leaseUntil =>
    refine h.step [patch me (some row)
      (some { row with ready := state, leaseUntil := leaseUntil })] rfl rfl rfl rfl ?_
    exact forall_mem_singleton.2 (stays_same_party rfl)
  | expireMember r _ p =>
    refine h.step (d.members.reached t (lapsed r.party r.now) p) rfl rfl rfl rfl ?_
    exact fun c hc => stays_of_delete (deletes_reached c hc)
  | forget =>
    intro c hc
    refine .inl ((h c hc).resolve_right ?_)
    rintro ⟨_, hjoining⟩
    obtain ⟨hj, -⟩ := joining_run.1 hjoining
    rw [hg] at hj
    cases hj
  | scanInvolving | clearInvolving | forgetRevision | expireInvite => exact h
  | glanceAgain | changed | commit | refuse | fail =>
    exact rests_after rfl (grows_of_nil rfl) (fun _ _ _ => grows_of_nil rfl)
      (fun _ => grows_of_nil rfl)
  | _ => exact grows_of_nil rfl

theorem grows_reachable (h : system.Reachable G w) : ∀ t, (w.pc t).Grows :=
  Programs.pc_invariant (X := programs) Pc.Grows (grows_of_nil rfl)
    (fun _ _ _ hr _ en => grows_own en.2 (sound_before hr en)) h

end Growth

section Capacity

theorem party_iff_seat {row : Option MemberRow} :
    (∃ m, row = some m ∧ (m.party == party) = true) ↔ seat party row ≠ none := by
  rw [seat_ne_none]
  simp only [beq_iff_eq]

/-- Nobody has entered the party. -/
theorem size_le
    (h : ∀ p, seat party (d'.members.committed p) ≠ none →
      seat party (d.members.committed p) ≠ none) : d'.size party ≤ d.size party := by
  refine count_le ?_
  intro p m hm hparty
  exact party_iff_seat.2 (h p (party_iff_seat.1 ⟨m, hm, hparty⟩))

/-- One player at most has entered the party. -/
theorem size_le_succ (k : Uuid)
    (h : ∀ p, p ≠ k → seat party (d'.members.committed p) ≠ none →
      seat party (d.members.committed p) ≠ none) : d'.size party ≤ d.size party + 1 := by
  refine count_le_succ k ?_
  intro p m hp hm hparty
  exact party_iff_seat.2 (h p hp (party_iff_seat.1 ⟨m, hm, hparty⟩))

/-- Only a `COMMIT` adds members. -/
theorem size_quiet (hg : (stmt t a).guard d) (hquiet : ∀ pc answers, a ≠ .commit pc answers) :
    ((stmt t a).change d).size party ≤ d.size party :=
  size_le (fun _ hseat => (calm_quiet hg hquiet).seated.1 hseat)

section

variable (hr : system.Reachable G w)
include hr

/-- A party that does not exist has no members. -/
theorem size_of_unborn
    (hparty : w.data.parties.committed party = none) : w.data.size party = 0 := by
  unfold Data.size Table.count
  rw [length_eq_zero_iff, eq_nil_iff_forall_not_mem]
  intro p hp
  obtain ⟨m, hm, hm'⟩ := mem_keysWhere.1 hp
  refine ((fit_reachable hr).1 party).led_of_seated (p := p) ?_ |>.exists hparty
  exact party_iff_seat.1 ⟨m, hm, hm'⟩

/-- A session that has found room in a party creates it, or holds the lock of an existing
one. -/
theorem admitted_cases (h : (w.pc t).admitted = some party) :
    (w.pc t).drawn = some party ∨
      (partyLockKey party.text ∈ (w.pc t).locksHeld ∧ w.data.parties.committed party ≠ none) := by
  have hs := sound_reachable hr t
  have hk := (fit_reachable hr).2 t
  cases hpc : w.pc t with
  | run r st =>
    rw [hpc] at h hs hk
    obtain ⟨hjoins, hcounted, rfl⟩ := admitted_run.1 h
    cases hcreates : r.creates with
    | true => exact .inl (if_pos hcreates)
    | false =>
      have htold : (Pc.run r st).Told := by
        cases st with
        | found | locked => cases hcounted
        | deleting =>
          have hrem : r.job.removes = true := hs.shape.2.2.2.1
          exact false_true_elim (removes_of_joins hjoins) hrem
        | _ => exact hcreates
      exact .inr ⟨lock_of_told hs rfl htold, (hk r.party rfl htold).1⟩
  | _ =>
    rw [hpc] at h
    cases h

theorem admitted_unique (ht : (w.pc t).admitted = some party)
    (hu : (w.pc u).admitted = some party) : t = u := by
  rcases admitted_cases hr ht with hdt | ⟨hlt, het⟩ <;>
    rcases admitted_cases hr hu with hdu | ⟨hlu, heu⟩
  · exact (drawn_reachable hr).2 t u party hdt hdu
  · exact absurd (unborn_reachable hr t party hdt) heu
  · exact absurd (unborn_reachable hr u party hdu) het
  · exact (locks_held hr t).exclusive (locks_held hr u) hlt hlu

/-- What a `COMMIT` does to the size of a party. -/
theorem size_commit (t : Sess) (answers : List Answer) (party : Uuid) :
    (w.data.commit t answers).size party ≤ w.data.size party ∨
      ((w.pc t).admitted = some party ∧
        (w.data.commit t answers).size party ≤ w.data.size party + 1) := by
  have hview : ∀ p, (w.data.commit t answers).members.committed p = w.data.members.view t p :=
    fun p => committed_commit t _ p
  have hk := keeps_reachable hr t
  have hg := grows_reachable hr t
  by_cases hadmitted : (w.pc t).admitted = some party
  · obtain ⟨x, hx, rfl⟩ := map_eq_some_iff.1 hadmitted
    refine .inr ⟨hadmitted, size_le_succ x.2 ?_⟩
    intro p hp hseat
    rw [hview] at hseat
    rcases hk.members.view_cases p with ⟨hsame, -⟩ | ⟨c, hc, rfl, hold, hnew⟩
    · rwa [← hsame]
    · rw [hold]
      rw [hnew] at hseat
      rcases hg c hc with hstays | ⟨_, hjoining⟩
      · exact hstays _ hseat
      · rw [hx] at hjoining
        cases hjoining
        exact absurd rfl hp
  · refine .inl (size_le ?_)
    intro p hseat
    rw [hview] at hseat
    by_cases hparty : (w.pc t).party = some party
    · rcases hk.members.view_cases p with ⟨hsame, -⟩ | ⟨c, hc, rfl, hold, hnew⟩
      · rwa [← hsame]
      · rw [hold]
        rw [hnew] at hseat
        rcases hg c hc with hstays | ⟨_, hjoining⟩
        · exact hstays _ hseat
        · refine absurd ?_ hadmitted
          have heq := hparty.symm.trans (party_of_joining hjoining)
          cases heq
          exact map_eq_some_iff.2 ⟨_, hjoining, rfl⟩
    · rwa [hk.view_seat (sound_reachable hr t) hparty] at hseat

/-- Where a session that has found room comes from. -/
theorem admitted_own (en : system.enabled w (t, a))
    (h : ((stmt t a).after w.data).admitted = some party) :
    (stmt t a).before.admitted = some party ∨ w.data.size party < maxMembers := by
  have hg : (stmt t a).guard w.data := en.2
  cases a with
  | createInsert _ party' =>
    cases h
    refine .inr ?_
    rw [size_of_unborn hr]
    · decide
    · by_contra hne
      exact hg.1 (listed_reachable hr party' hne)
  | findParty | inviteOpen | acceptOpen | purgeFind | passNext | lock | consume =>
    cases (admitted_run.1 h).2.1
  | confirm => exact false_true_elim (not_joins_of_seeks hg.1) (admitted_run.1 h).1
  | lead => exact false_true_elim (not_joins_of_leads hg.1) (admitted_run.1 h).1
  | renewIn => exact false_true_elim (not_joins_of_renews hg.1) (admitted_run.1 h).1
  | count r =>
    -- the session has changed no member yet, so that it has counted all of them
    obtain ⟨-, -, rfl⟩ := admitted_run.1 h
    refine .inr (Nat.lt_of_le_of_lt (count_le_select ?_) hg)
    intro _ m hm hparty
    have hpc : w.pc t = .run r .consumed := en.1
    have hk : Keeps w.data t (.run r .consumed) := hpc ▸ keeps_reachable hr t
    have hs : (Pc.run r .consumed).Sound := hpc ▸ sound_reachable hr t
    refine ⟨m, (hk.members.owes.view_same ?_).trans hm, hparty⟩
    intro _ hc
    rw [show (Pc.run r .consumed).work.members = _ from hs.shape.1] at hc
    cases hc
  | remove =>
    have hnot := (admitted_run.1 h).1
    exact false_true_elim (removes_of_joins hnot) (removal_cases hg.1).2
  | scanExpired => exact false_true_elim (not_joins_of_sweeps hg) (admitted_run.1 h).1
  | draw =>
    obtain ⟨hjoins, -, hparty⟩ := admitted_run.1 h
    refine .inl (admitted_run.2 ⟨hjoins, ?_, hparty⟩)
    rcases draws_cases hg with ⟨rfl, -⟩ | ⟨rfl, -⟩ | ⟨rfl, -⟩ <;> rfl
  | glanceAgain | changed | commit | refuse | fail =>
    exact absurd ((admitted_rests rfl).symm.trans h) (by simp)
  | _ => first | exact .inl h | cases h

end

theorem size_bounded (h : system.Reachable G w) (party : Uuid) :
    w.data.size party ≤ maxMembers := by
  refine (Programs.capacity (X := programs) Data.size Pc.admitted maxMembers
    ?_ ?_ ?_ ?_ ?_ h).1 party
  · exact fun _ => Nat.zero_le _
  · intro _ hparty
    cases hparty
  · intro w t a party hr _ en
    rcases exists_or_ne Act.commit a with ⟨pc, answers, rfl⟩ | hquiet
    · refine (size_commit hr t answers party).imp_right ?_
      rintro ⟨hadmitted, hsize⟩
      refine ⟨?_, ?_, hsize⟩
      · rw [show w.pc t = _ from en.1] at hadmitted
        exact hadmitted
      · intro hafter
        cases (admitted_rests (a := .commit pc answers) rfl).symm.trans hafter
    · exact .inl (size_quiet en.2 hquiet)
  · intro _ _ a _ hr _ en hafter
    refine (admitted_own hr en hafter).imp_right ?_
    intro hlt
    refine Nat.lt_of_le_of_lt (size_quiet en.2 ?_) hlt
    rintro pc answers rfl
    cases (admitted_rests (a := .commit pc answers) rfl).symm.trans hafter
  · exact fun w t u party hr => admitted_unique hr

end Capacity

section Refusal

/-- The committed rows are the same. -/
structure SameRows (d d' : Data) : Prop where
  parties : ∀ k, d'.parties.committed k = d.parties.committed k
  members : ∀ k, d'.members.committed k = d.members.committed k
  invites : ∀ k, d'.invites.committed k = d.invites.committed k
  revisions : ∀ k, d'.revisions.committed k = d.revisions.committed k

/-- A session holds nothing. -/
structure Released (d : Data) (t : Sess) : Prop where
  parties : d.parties.HoldsNone t
  members : d.members.HoldsNone t
  invites : d.invites.HoldsNone t
  revisions : d.revisions.HoldsNone t

/-- The invite that an `accept` has consumed. -/
def Pc.Spends : Pc → Prop
  | .run r .consumed | .run r .roomy => ∃ me invite row, r.job = .accept me invite ∧
      r.work.invites = [patch (r.party, me) (some row) none] ∧ row.id = invite
  | _ => True

theorem spends_own (hg : (stmt t a).guard d) (hs : (stmt t a).before.Sound)
    (h : (stmt t a).before.Spends) : ((stmt t a).after d).Spends := by
  cases a with
  | consume r me row =>
    obtain ⟨invite, hjob⟩ := job_of_consumable hg.1 hg.2.1
    have hid : row.id = invite := by
      have hcons : d.Consumable r row := hg.2.1
      unfold Data.Consumable at hcons
      rw [hjob] at hcons
      exact hcons.2.1
    refine ⟨me, invite, row, hjob, ?_, hid⟩
    show r.work.invites ++ [patch (r.party, me) (some row) none] = _
    rw [show r.work = .none from hs.shape.1]
    rfl
  | count => exact h
  | glanceAgain | changed | commit | refuse | fail =>
    exact rests_after rfl trivial (fun _ _ _ => trivial) (fun _ => trivial)
  | _ => trivial

theorem spends_reachable (h : system.Reachable G w) : ∀ t, (w.pc t).Spends :=
  Programs.pc_invariant (X := programs) Pc.Spends trivial
    (fun _ _ _ hr _ en => spends_own en.2 (sound_before hr en)) h

/-- No statement of a transaction shows anything before the `COMMIT`. -/
theorem sameRows_run {r : Run} {st : Stage} (hpc : (stmt t a).before = .run r st)
    (hquiet : ∀ pc answers, a ≠ .commit pc answers) : SameRows d ((stmt t a).change d) := by
  have hpub : a.publishes = false := by
    cases a with
    | commit pc answers => exact absurd rfl (hquiet pc answers)
    | renew | decline => cases hpc
    | _ => rfl
  exact ⟨parties_quiet hquiet, members_quiet hpub, invites_quiet hpub, revisions_quiet hquiet⟩

/-- What a refused `accept` has consumed is still there. -/
theorem unconsumed {r : Run} {st : Stage} {me invite : Uuid} {e : Error} (hr : system.Reachable G w)
    (hpc : w.pc t = .run r st) (hjob : r.job = .accept me invite)
    (hrefused : w.data.refused t (.run r st) = some [.job r.job (.error e)])
    (he : e ≠ inviteNotFound) :
    ∃ row, w.data.invites.committed (r.party, me) = some row ∧ row.id = invite := by
  have hspends := spends_reachable hr t
  have hk := keeps_reachable hr t
  rw [hpc] at hspends hk
  have hfound : (∃ me invite row, r.job = .accept me invite ∧
      r.work.invites = [patch (r.party, me) (some row) none] ∧ row.id = invite) := by
    cases st with
    | consumed | roomy => exact hspends
    | locked =>
      simp only [Data.refused, hjob] at hrefused
      split at hrefused
      · cases hrefused
      · cases hrefused
        exact absurd rfl he
    | begun | led => simp [Data.refused, hjob] at hrefused
    | deleting todo =>
      cases todo with
      | nil =>
        simp only [Data.refused] at hrefused
        split at hrefused <;> cases hrefused
      | cons => cases hrefused
    | _ => cases hrefused
  obtain ⟨_, _, row, hjob', hinvites, hid⟩ := hfound
  rw [hjob] at hjob'
  cases hjob'
  refine ⟨row, ?_, hid⟩
  refine hk.invites.owes.old_change (c := patch (r.party, me) (some row) none) ?_
  show _ ∈ r.work.invites
  rw [hinvites]
  exact mem_cons_self

end Refusal

section Result

/-- The parties of a committed state. -/
structure Structured (d : Data) : Prop where
  single : ∀ p, (d.members.rows.filter (fun r => decide (r.1 = p))).length ≤ 1
  populated : ∀ party, d.parties.committed party ≠ none ↔
    ∃ p m, d.members.committed p = some m ∧ m.party = party
  led : ∀ party row, d.parties.committed party = some row →
    ∃ m, d.members.committed row.leader = some m ∧ m.party = party
  bounded : ∀ party, (d.members.rows.filter (fun r => r.2.party == party)).length ≤ maxMembers
  invited : ∀ party q row, d.invites.committed (party, q) = some row →
    d.parties.committed party ≠ none

/-- A refused `accept` of `me`: the committed rows and the sequence are as they were, the
session holds nothing, and an invite that was found is there. -/
structure Withdrawn (d d' : Data) (t : Sess) (r : Run) (me invite : Uuid) (e : Error) : Prop where
  rows : SameRows d d'
  seq : d'.seq = d.seq
  released : Released d' t
  invite : e ≠ inviteNotFound →
    ∃ row, d'.invites.committed (r.party, me) = some row ∧ row.id = invite

theorem structured_of_fit (hfit : ∀ party, d.snap.Fit party)
    (hsize : ∀ party, d.size party ≤ maxMembers) : Structured d where
  single := fun p => length_rows_key p
  populated := by
    intro party
    constructor
    · intro hparty
      rcases hfit party with ⟨row, -, hseat⟩ | ⟨hnone, -⟩
      · obtain ⟨m, hm⟩ := seat_ne_none.1 hseat
        exact ⟨row.leader, m, hm⟩
      · exact absurd hnone hparty
    · rintro ⟨p, m, hm, hparty⟩
      exact ((hfit party).led_of_seated (p := p) (seat_ne_none.2 ⟨m, hm, hparty⟩)).exists
  led := by
    intro party row hrow
    rcases hfit party with ⟨row', hrow', hseat⟩ | ⟨hnone, -⟩
    · have heq : row' = row := some.inj (hrow'.symm.trans hrow)
      rw [heq] at hseat
      exact seat_ne_none.1 hseat
    · exact absurd (hnone.symm.trans hrow) (some_ne_none row).symm
  bounded := by
    intro party
    have hcount : (d.members.rows.filter (fun r => r.2.party == party)).length = d.size party :=
      length_rows_filter (f := fun (_ : Uuid) (m : MemberRow) => m.party == party)
    rw [hcount]
    exact hsize party
  invited := by
    intro party q row hrow
    refine ((hfit party).led_of_invite (q := q) ?_).exists
    show d.invites.committed (party, q) ≠ none
    rw [hrow]
    exact some_ne_none row

/-- Every committed state is structured, no `accept` shows anything before its `COMMIT`, and
a refused one leaves everything as it was. -/
theorem party_structure (h : system.Reachable TransitionSystem.anyStep w) :
    Structured w.data ∧
      ∀ t r st me invite, w.pc t = .run r st → r.job = .accept me invite →
        (∀ a, system.enabled w (t, a) → (∀ pc answers, a ≠ .commit pc answers) →
          SameRows w.data (system.effect w (t, a)).data) ∧
        ∀ e, system.enabled w (t, .refuse (.run r st) [.job r.job (.error e)]) →
          Withdrawn w.data
            (system.effect w (t, .refuse (.run r st) [.job r.job (.error e)])).data
            t r me invite e := by
  refine ⟨structured_of_fit (fit_reachable h).1 (size_bounded h), ?_⟩
  intro t r st _ _ hpc hjob
  constructor
  · intro _ en hquiet
    exact sameRows_run (en.1.symm.trans hpc) hquiet
  · intro e en
    have hsame : SameRows w.data
        ((stmt t (.refuse (.run r st) [.job r.job (.error e)])).change w.data) :=
      sameRows_run rfl (fun _ _ => Act.noConfusion)
    refine ⟨hsame, rfl, ?_, ?_⟩
    · exact ⟨holdsNone_rollback t _, holdsNone_rollback t _,
        holdsNone_rollback t _, holdsNone_rollback t _⟩
    · intro he
      obtain ⟨row, hrow, hid⟩ := unconsumed h hpc hjob en.2 he
      exact ⟨row, (committed_rollback t _ _).trans hrow, hid⟩

/-- Two players, their parties and an invite. -/
def ann : Uuid := .filled 10

def bob : Uuid := .filled 11

def annsParty : Uuid := .filled 12

def bobsParty : Uuid := .filled 13

def invitation : Uuid := .filled 14

/-- A player creates a party. -/
def creatingRun (t : Sess) (me party : Uuid) (revision : Nat) : List (Sess × Act) :=
  let r : Run := ⟨.create me, party, 0, 0, 0,
    { Work.none with members := [patch me none (some ⟨party, .notReady, 1, 100⟩)] }⟩
  let placed := r.patchParties [patch party none (some ⟨me, revision⟩)]
  let recorded := placed.patchRevisions [patch me none (some revision)]
  [(t, .createInsert me party 1 100), (t, .draw r .written (some me)),
   (t, .insertParty r me revision), (t, .record placed revision me []),
   (t, .commit (.run recorded (.placed revision [])) [.job (.create me) (.ok .unit)])]

/-- The leader of a party invites another player. -/
def invitingRun : List (Sess × Act) :=
  let r : Run := ⟨.invite ann bob, annsParty, 0, 0, 10, .none⟩
  let renewed := r.patchMembers [patch ann (some ⟨annsParty, .notReady, 1, 100⟩)
    (some ⟨annsParty, .notReady, 1, 200⟩)]
  let invited := renewed.patchInvites
    [patch (annsParty, bob) none (some ⟨invitation, ann, 500⟩)]
  [(1, .inviteOpen (.invite ann "bob#0001" (some bob)) ann bob annsParty 10), (1, .lock r),
   (1, .lead r .locked), (1, .vacant r ann bob), (1, .renewIn r .checked 200),
   (1, .upsertInvite renewed ann bob invitation 500),
   (1, .commit (.run invited (.invited invitation 500))
     [.job (.invite ann bob) (.ok (.invite invitation annsParty 500))])]

def accepting : Run := ⟨.accept bob invitation, annsParty, 0, 0, 20, .none⟩

def accepted : Run :=
  accepting.patchInvites [patch (annsParty, bob) (some ⟨invitation, ann, 500⟩) none]

/-- The invited player accepts, up to the insert. -/
def acceptingRun : List (Sess × Act) :=
  [(2, .acceptOpen (.accept bob "eeeeeeee-eeee-eeee-eeee-eeeeeeeeeeee") bob invitation
     (annsParty, bob) 20 20),
   (2, .lock accepting), (2, .consume accepting bob ⟨invitation, ann, 500⟩),
   (2, .count accepted)]

/-- A player who is in another party accepts an invite, and keeps it. -/
theorem refused_accept :
    ∃ w, system.Reachable TransitionSystem.anyStep w ∧ Structured w.data ∧
      w.data.members.rows.length = 2 ∧
      ∃ w', w' = system.effect w
          (2, .refuse (.run accepted .roomy) [.job accepted.job (.error alreadyInParty)]) ∧
        w'.data.invites.committed (annsParty, bob) ≠ none := by
  obtain ⟨w, hw, hfinal⟩ := TransitionSystem.exec_exhibits (T := system)
    TransitionSystem.anyStep
    (creatingRun 1 ann annsParty 1 ++ creatingRun 2 bob bobsParty 2 ++ invitingRun ++ acceptingRun)
    (f := fun w => decide (w.pc 2 = .run accepted .roomy ∧ w.data.members.rows.length = 2 ∧
      system.enabled w
        (2, .refuse (.run accepted .roomy) [.job accepted.job (.error alreadyInParty)])))
    (by decide +kernel)
  obtain ⟨hpc, hrows, en⟩ := of_decide_eq_true hfinal
  obtain ⟨hstructured, haccept⟩ := party_structure hw
  have hwithdrawn := (haccept 2 accepted .roomy bob invitation hpc rfl).2 alreadyInParty en
  obtain ⟨row, hrow, -⟩ := hwithdrawn.invite (by decide)
  exact ⟨w, hw, hstructured, hrows, _, rfl,
    fun hnone => some_ne_none row (hrow.symm.trans hnone)⟩

end Result

end Swarog.Party
