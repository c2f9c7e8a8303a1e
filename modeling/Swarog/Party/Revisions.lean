import Swarog.Party.Structure

/-!
# Revisions order the views of a player

The revision of a view is that of the party, or the one that was recorded for a player
in no party.  Every transaction that changes the seats or the leader of a party draws a
revision after it has taken the lock of the party and the rows of the players it moves.
It stamps the party with it and records it for the players that enter or leave
(`Run.Booked`).  While it is open, nobody else stamps the party or records a revision for
these players (`Run.Fresh`), so that what it draws is above all that their views have
shown.

The purge of a deleted player, which forgets the revision of the player, is left out.
-/

namespace Swarog.Party

open Pg Table Programs List

section Rosters

variable {d d' : Data} {party p : Uuid}

/-- What the roster shows of a row. -/
def showRow (r : Uuid × MemberRow) : Uuid × Ready × Int := (r.1, r.2.ready, r.2.joinedAt)

def rosterLe (r r' : Uuid × Ready × Int) : Prop :=
  toLex (r.2.2, r.1.value) ≤ toLex (r'.2.2, r'.1.value)

instance : DecidableRel rosterLe :=
  fun r r' => inferInstanceAs (Decidable (toLex (r.2.2, r.1.value) ≤ toLex (r'.2.2, r'.1.value)))

instance : Std.Total rosterLe := ⟨fun _ _ => le_total _ _⟩

instance : IsTrans (Uuid × Ready × Int) rosterLe := ⟨fun _ _ _ => le_trans⟩

/-- The rows of a party as the roster shows them, in no particular order. -/
def Data.shown (d : Data) (party : Uuid) : List (Uuid × Ready × Int) :=
  (d.members.rows.filter (fun r => r.2.party == party)).map showRow

theorem roster_eq_sort :
    d.roster party =
      ((d.shown party).insertionSort rosterLe).map (fun r => (r.1, r.2.1)) := by
  unfold Data.roster Data.shown
  rw [← map_insertionSort (fun r r' : Uuid × MemberRow =>
    toLex (r.2.joinedAt, r.1.value) ≤ toLex (r'.2.joinedAt, r'.1.value)) rosterLe showRow _
    (fun _ _ _ _ => Iff.rfl), map_map]
  rfl

theorem mem_shown {x : Ready} {j : Int} :
    (p, x, j) ∈ d.shown party ↔ seat party (d.members.committed p) = some (x, j) := by
  unfold Data.shown
  simp only [mem_map, mem_filter, beq_iff_eq]
  constructor
  · rintro ⟨⟨_, _⟩, ⟨hm, hparty⟩, hshow⟩
    cases hshow
    rw [mem_rows.1 hm]
    exact seat_of_party hparty
  · intro hseat
    obtain ⟨m, hm, hparty⟩ := seat_ne_none.1 (by rw [hseat]; exact Option.some_ne_none _)
    rw [hm, seat_of_party hparty] at hseat
    cases hseat
    exact ⟨(p, m), ⟨mem_rows.2 hm, hparty⟩, rfl⟩

theorem nodup_shown : (d.shown party).Nodup := by
  refine (d.members.nodup_rows.filter _).map_on ?_
  intro r hr r' hr' hshow
  obtain ⟨p, _⟩ := r
  obtain ⟨p', _⟩ := r'
  have hp : p = p' := congrArg Prod.fst hshow
  subst hp
  have hm := mem_rows.1 (mem_filter.1 hr).1
  have hm' := mem_rows.1 (mem_filter.1 hr').1
  rw [hm] at hm'
  cases hm'
  rfl

/-- The roster shows the seats. -/
theorem roster_of_seats
    (h : ∀ p, seat party (d'.members.committed p) = seat party (d.members.committed p)) :
    d'.roster party = d.roster party := by
  have hperm : (d'.shown party).Perm (d.shown party) := by
    refine (perm_ext_iff_of_nodup nodup_shown nodup_shown).2 ?_
    rintro ⟨_, _, _⟩
    rw [mem_shown, mem_shown, h]
  have hsort : (d'.shown party).insertionSort rosterLe =
      (d.shown party).insertionSort rosterLe := by
    refine List.Perm.eq_of_pairwise ?_ (pairwise_insertionSort _ _)
      (pairwise_insertionSort _ _)
      (((perm_insertionSort _ _).trans hperm).trans (perm_insertionSort _ _).symm)
    rintro ⟨p, _, _⟩ ⟨p', _, _⟩ hmem hmem' hle hle'
    have hkey := toLex.injective (le_antisymm hle hle')
    have hp : p = p' := Uuid.value_injective (congrArg Prod.snd hkey)
    subst hp
    have hseat := mem_shown.1 ((perm_insertionSort _ _).mem_iff.1 hmem)
    have hseat' := mem_shown.1 ((perm_insertionSort _ _).mem_iff.1 hmem')
    rw [h, hseat'] at hseat
    cases hseat
    rfl
  rw [roster_eq_sort, roster_eq_sort, hsort]

/-- What a member sees. -/
theorem view_of_member {m : MemberRow} {row : PartyRow} (hm : d.members.committed p = some m)
    (hrow : d.parties.committed m.party = some row) :
    d.view p = ⟨some m.party, row.revision, some row.leader, d.roster m.party⟩ := by
  simp [Data.view, hm, hrow]

/-- What a player in no party sees. -/
theorem view_of_none (hm : d.members.committed p = none) :
    d.view p = ⟨none, (d.revisions.committed p).getD 0, none, []⟩ := by
  simp [Data.view, hm]

end Rosters

section Books

/-- The player enters or leaves. -/
def Turns (c : Patch Uuid MemberRow) : Prop := c.old.isSome ≠ c.new.isSome

namespace Run

/-- The keys whose revision has been recorded. -/
def recorded (r : Run) : List Uuid := r.work.revisions.map Pg.Change.key

/-- The transaction has recorded nothing yet.  It moves players, or it changes the rows of
members. -/
structure Plain (r : Run) : Prop where
  revisions : r.work.revisions = []
  turns : (r.job.joins || r.job.removes) = true → ∀ c ∈ r.work.members, Turns c
  stays : (r.job.joins || r.job.removes) = false → ∀ c ∈ r.work.members, c.new ≠ none

/-- The transaction changes leases only. -/
structure Still (r : Run) : Prop where
  parties : r.work.parties = []
  revisions : r.work.revisions = []
  seats : ∀ c ∈ r.work.members, ∀ q, seat q c.new = seat q c.old
  stays : ∀ c ∈ r.work.members, c.new ≠ none

/-- The transaction has stamped its party with `n`, has recorded `n` for players that turn
and has still to do so for `todo`. -/
structure Booked (r : Run) (n : Nat) (todo : List Uuid) : Prop where
  stamped : ∃ c ∈ r.work.parties, c.key = r.party ∧ ∀ row, c.new = some row → row.revision = n
  nodup : (r.recorded ++ todo).Nodup
  turned : ∀ k ∈ r.recorded ++ todo, ∃ c ∈ r.work.members, c.key = k ∧ Turns c
  left : ∀ c ∈ r.work.members, c.old ≠ none → c.new = none → c.key ∈ r.recorded ++ todo
  values : ∀ c ∈ r.work.revisions, c.new = some n

/-- What a transaction has written of revisions. -/
def Books (r : Run) : Stage → Prop
  | .placed n todo => r.Booked n todo
  | .renewed => (r.job.removes = true → ∃ n, r.Booked n []) ∧ (r.job.removes = false → r.Still)
  | .invited _ _ => r.Still
  | .drawn _ _ | .clearing _ _ => r.Plain ∧ ∀ me target, r.job ≠ .invite me target
  | _ => r.Plain

end Run

namespace Pc

/-- The session purges a player. -/
def purges : Pc → Bool
  | .run r _ =>
    match r.job with
    | .purge _ => true
    | _ => false
  | .forget _ _ _ _ => true
  | _ => false

def Books : Pc → Prop
  | .run r st => r.Books st
  | .expire _ _ work => work.revisions = []
  | _ => True

end Pc

variable {G : World Data Pc → Sess × Act → Prop}
variable {w : World Data Pc} {t : Sess} {a : Act} {d : Data} {p : Uuid}
variable {r : Run} {st : Stage} {n : Nat} {todo : List Uuid}

theorem plain_nothing (h : r.work = .none) : r.Plain := by
  refine ⟨?_, ?_, ?_⟩
  · rw [h]
    rfl
  · intro _ _ hc
    rw [h] at hc
    cases hc
  · intro _ _ hc
    rw [h] at hc
    cases hc

/-- More changes of members. -/
theorem Run.Plain.patchMembers {cs : List (Patch Uuid MemberRow)} (h : r.Plain)
    (hturns : (r.job.joins || r.job.removes) = true → ∀ c ∈ cs, Turns c)
    (hstays : (r.job.joins || r.job.removes) = false → ∀ c ∈ cs, c.new ≠ none) :
    (r.patchMembers cs).Plain where
  revisions := h.revisions
  turns := by
    intro hjob c hc
    rcases mem_append.1 hc with hc | hc
    · exact h.turns hjob c hc
    · exact hturns hjob c hc
  stays := by
    intro hjob c hc
    rcases mem_append.1 hc with hc | hc
    · exact h.stays hjob c hc
    · exact hstays hjob c hc

theorem mem_records {k : Uuid} (h : k ∈ r.records) : k ∈ r.moved := by
  unfold Run.records at h
  split at h
  · cases h
  · cases h
  · exact (mem_insertionSort _).1 h
  · exact h

theorem nodup_records (h : r.moved.Nodup) : r.records.Nodup := by
  unfold Run.records
  split
  · exact nodup_nil
  · exact nodup_nil
  · exact (perm_insertionSort _ _).nodup_iff.2 h
  · exact h

theorem records_of_moves {k : Uuid} (hjob : (r.job.joins || r.job.removes) = true)
    (h : k ∈ r.moved) : k ∈ r.records := by
  unfold Run.records
  split
  · rename_i hpromote
    rw [hpromote] at hjob
    cases hjob
  · rename_i hready
    rw [hready] at hjob
    cases hjob
  · exact (mem_insertionSort _).2 h
  · exact h

/-- An invite stamps nothing. -/
theorem draws_not_invite {j : Job} {leader : Option Uuid} (h : j.draws st = some leader) :
    ∀ me target, j ≠ .invite me target := by
  rintro _ _ rfl
  cases st <;> cases h

theorem turns_of_records (hp : r.Plain) (hinvite : ∀ me target, r.job ≠ .invite me target)
    {k : Uuid} (h : k ∈ r.records) : ∃ c ∈ r.work.members, c.key = k ∧ Turns c := by
  have hjob : (r.job.joins || r.job.removes) = true := by
    cases hj : r.job with
    | invite me target => exact absurd hj (hinvite me target)
    | promote | ready =>
      simp only [Run.records, hj] at h
      cases h
    | _ => rfl
  obtain ⟨c, hc, rfl⟩ := mem_map.1 (mem_records h)
  exact ⟨c, hc, rfl, hp.turns hjob c hc⟩

/-- The party is stamped. -/
theorem booked_start {c : Patch Uuid PartyRow} {cs : List (Patch Uuid PartyRow)} (hp : r.Plain)
    (hinvite : ∀ me target, r.job ≠ .invite me target) (hmoved : r.moved.Nodup) (hc : c ∈ cs)
    (hkey : c.key = r.party) (hnew : ∀ row, c.new = some row → row.revision = n) :
    (r.patchParties cs).Booked n r.records where
  stamped := ⟨c, mem_append_right _ hc, hkey, hnew⟩
  nodup := by
    have hnil : (r.patchParties cs).recorded = [] := congrArg (List.map _) hp.revisions
    rw [hnil]
    exact nodup_records hmoved
  turned := by
    intro _ hk
    have hnil : (r.patchParties cs).recorded = [] := congrArg (List.map _) hp.revisions
    rw [hnil] at hk
    exact turns_of_records hp hinvite hk
  left := by
    intro c' hc' _ hgone
    have hjob : (r.job.joins || r.job.removes) = true := by
      cases hj : (r.job.joins || r.job.removes) with
      | true => rfl
      | false => exact absurd hgone (hp.stays hj c' hc')
    exact mem_append_right _ (records_of_moves hjob (mem_map_of_mem hc'))
  values := by
    intro c' hc'
    have hc' : c' ∈ r.work.revisions := hc'
    rw [hp.revisions] at hc'
    cases hc'

/-- A revision is recorded. -/
theorem Run.Booked.record {old : Option Nat} (h : r.Booked n (p :: todo)) :
    (r.patchRevisions [patch p old (some n)]).Booked n todo := by
  have hkeys : (r.patchRevisions [patch p old (some n)]).recorded ++ todo =
      r.recorded ++ p :: todo := by
    show (r.work.revisions ++ [patch p old (some n)]).map Pg.Change.key ++ todo = _
    rw [map_append, append_assoc]
    rfl
  refine ⟨h.stamped, ?_, ?_, ?_, ?_⟩
  · rw [hkeys]
    exact h.nodup
  · rw [hkeys]
    exact h.turned
  · rw [hkeys]
    exact h.left
  · intro c hc
    rcases mem_append.1 hc with hc | hc
    · exact h.values c hc
    · cases mem_singleton.1 hc
      rfl

/-- The lease of the caller is renewed at the end. -/
theorem Run.Booked.patchMembers {cs : List (Patch Uuid MemberRow)} (h : r.Booked n todo)
    (hcs : ∀ c ∈ cs, c.new ≠ none) : (r.patchMembers cs).Booked n todo where
  stamped := h.stamped
  nodup := h.nodup
  turned := by
    intro k hk
    obtain ⟨c, hc, hkey⟩ := h.turned k hk
    exact ⟨c, mem_append_left _ hc, hkey⟩
  left := by
    intro c hc hold hgone
    rcases mem_append.1 hc with hc | hc
    · exact h.left c hc hold hgone
    · exact absurd hgone (hcs c hc)
  values := h.values

theorem Run.Books.renewIn {leaseUntil : Int} (h : r.Books st) (hs : (Pc.run r st).Sound)
    (hg : r.job.Renews st) : (r.patchMembers (d.renewal t r.job.me leaseUntil)).Books .renewed := by
  have hnew : ∀ c ∈ d.renewal t r.job.me leaseUntil, c.new ≠ none := by
    intro c hc
    obtain ⟨row, -, rfl⟩ := mem_renewal hc
    exact Option.some_ne_none _
  rcases renews_cases hg with ⟨rfl, hrem⟩ | ⟨⟨n, rfl⟩, hrem⟩
  · have hwork : r.work = .none := hs.shape.1
    refine ⟨false_true_elim hrem, fun _ => ⟨?_, ?_, ?_, ?_⟩⟩
    · exact congrArg Work.parties hwork
    · exact congrArg Work.revisions hwork
    · intro c hc q
      have hc : c ∈ r.work.members ++ d.renewal t r.job.me leaseUntil := hc
      rw [hwork] at hc
      obtain ⟨row, -, rfl⟩ := mem_renewal hc
      rfl
    · intro c hc
      have hc : c ∈ r.work.members ++ d.renewal t r.job.me leaseUntil := hc
      rw [hwork] at hc
      exact hnew c hc
  · exact ⟨fun _ => ⟨n, Run.Booked.patchMembers h hnew⟩, fun hnot => false_true_elim hnot hrem⟩

/-- The row of a party that the transaction has seen and not stamped. -/
theorem Knows.party_row {pc : Pc} {party : Uuid} (h : Knows d t pc) (hk : Keeps d t pc)
    (hparty : pc.party = some party) (htold : pc.Told) (hnil : pc.work.parties = []) :
    ∃ row, d.parties.view t party = some row := by
  rw [hk.view_party_of_nil hnil]
  exact Option.ne_none_iff_exists'.1 (h party hparty htold).1

theorem books_own (hg : (stmt t a).guard d) (hs : (stmt t a).before.Sound)
    (hk : Keeps d t (stmt t a).before) (hknows : Knows d t (stmt t a).before)
    (h : (stmt t a).before.Books) : ((stmt t a).after d).Books := by
  cases a with
  | createInsert =>
    refine ⟨rfl, ?_, ?_⟩
    · intro _ c hc
      cases mem_singleton.1 hc
      exact Bool.noConfusion
    · intro hjob
      cases hjob
  | inviteOpen | acceptOpen | findParty | purgeFind | passNext => exact plain_nothing rfl
  | lock | confirm | vacant | present | count | scanExpired | expired | choose | scanInvites
  | expireInvite => exact h
  | lead =>
    rcases leadStage_cases hg.1 with rfl | rfl
    · exact h
    · exact h
  | renewIn => exact Run.Books.renewIn h hs hg.1
  | upsertInvite r =>
    have hstill : r.Still := h.2 (by rw [hg.1]; rfl)
    exact ⟨hstill.parties, hstill.revisions, hstill.seats, hstill.stays⟩
  | consume => exact ⟨h.revisions, h.turns, h.stays⟩
  | join =>
    refine Run.Plain.patchMembers h ?_ ?_
    · intro _ c hc
      cases mem_singleton.1 hc
      exact Bool.noConfusion
    · intro _ c hc
      cases mem_singleton.1 hc
      exact Option.some_ne_none _
  | remove r =>
    obtain ⟨hst, hrem⟩ := removal_cases hg.1
    have hplain : r.Plain := by
      rcases hst with rfl | rfl | rfl
      · exact h
      · exact h
      · exact h
    refine hplain.patchMembers ?_ ?_
    · intro _ c hc
      cases mem_singleton.1 hc
      exact Bool.noConfusion
    · intro hjob
      rw [hrem, Bool.or_true] at hjob
      cases hjob
  | setReady =>
    refine Run.Plain.patchMembers h ?_ ?_
    · intro hjob
      rw [hg.1] at hjob
      cases hjob
    · intro _ c hc
      cases mem_singleton.1 hc
      exact Option.some_ne_none _
  | expireMember r =>
    refine Run.Plain.patchMembers h ?_ ?_
    · intro _ c hc
      obtain ⟨-, hnew, row, -, -, hold⟩ := mem_reached hc
      unfold Turns
      rw [hnew, hold]
      exact Bool.noConfusion
    · intro hjob
      rw [hs.shape.2.2.2.1, Bool.or_true] at hjob
      cases hjob
  | draw =>
    refine ⟨?_, draws_not_invite hg⟩
    rcases draws_cases hg with ⟨rfl, -⟩ | ⟨rfl, hrem, me, target, hjob, -⟩ | ⟨rfl, -⟩
    · exact h
    · -- a promotion has renewed a lease
      obtain ⟨-, hrevisions, -, hstays⟩ := h.2 hrem
      refine ⟨hrevisions, ?_, fun _ => hstays⟩
      intro hmoves
      rw [hjob] at hmoves
      cases hmoves
    · exact h
  | insertParty =>
    obtain ⟨hplain, hinvite⟩ := h
    exact booked_start hplain hinvite hk.members.nodup mem_cons_self rfl
      (fun row hrow => by cases hrow; rfl)
  | updateParty r leader revision =>
    obtain ⟨hplain, hinvite⟩ := h
    have hcreates : r.creates = false :=
      Bool.eq_false_iff.2 (fun hcreates => hg.1 (creates_iff.1 hcreates))
    obtain ⟨row, hrow⟩ := hknows.party_row hk rfl hcreates hs.shape.1
    refine booked_start (c := patch r.party (some row) (some ⟨leader.getD row.leader, revision⟩))
      hplain hinvite hk.members.nodup ?_ rfl (fun row hrow => by cases hrow; rfl)
    unfold Data.stamp
    rw [hrow]
    exact mem_cons_self
  | clearInvite => exact ⟨⟨h.1.revisions, h.1.turns, h.1.stays⟩, h.2⟩
  | deleteParty r =>
    obtain ⟨hplain, hinvite⟩ := h
    obtain ⟨row, hrow⟩ := hknows.party_row hk rfl hs.shape.2.2.1 hs.shape.1
    refine booked_start (c := patch r.party (some row) none) hplain hinvite hk.members.nodup
      ?_ rfl (fun row hrow => by cases hrow)
    unfold Table.reached
    rw [hrow]
    exact mem_cons_self
  | record => exact Run.Booked.record h
  | glanceAgain | changed | commit | refuse | fail =>
    exact rests_after rfl trivial (fun _ _ _ => trivial) (fun _ => trivial)
  | passExpire => rfl
  | _ => trivial

theorem books_reachable (h : system.Reachable G w) : ∀ t, (w.pc t).Books :=
  pc_invariant (X := programs) Pc.Books trivial
    (fun _ t _ hr _ en hbooks => books_own en.2 (sound_before hr en)
      (en.1 ▸ keeps_reachable hr t) (en.1 ▸ (fit_reachable hr).2 t) hbooks) h

end Books

section Recorded

variable {w : World Data Pc} {t : Sess} {a : Act} {d : Data} {p : Uuid}
variable {r : Run} {pc : Pc} {n : Nat}

/-- No player is purged. -/
def NoPurge (_ : World Data Pc) (a : Sess × Act) : Prop :=
  match a.2 with
  | .purgeFind _ _ _ | .purgeNone _ => False
  | _ => True

instance (w : World Data Pc) (a : Sess × Act) : Decidable (NoPurge w a) := by
  unfold NoPurge
  split <;> infer_instance

theorem purges_own (hG : NoPurge w (t, a)) (hg : (stmt t a).guard d)
    (h : (stmt t a).before.purges = false) : ((stmt t a).after d).purges = false := by
  cases a with
  | purgeFind | purgeNone => exact hG.elim
  | findParty j =>
    cases j <;> first | rfl | cases hg.1
  | forget r =>
    have h : (match r.job with | .purge _ => true | _ => false) = false := h
    rw [hg] at h
    cases h
  | glanceAgain | changed | commit | refuse | fail =>
    exact rests_after (P := fun pc => pc.purges = false) rfl rfl (fun _ _ _ => rfl) (fun _ => rfl)
  | _ => exact h

theorem purges_reachable (h : system.Reachable NoPurge w) : ∀ t, (w.pc t).purges = false :=
  pc_invariant (X := programs) (fun pc => pc.purges = false) rfl
    (fun _ _ _ _ hG en hpurges => purges_own hG en.2 hpurges) h

/-- A session records revisions for players that it moves. -/
theorem Pc.Books.moved {c : Patch Uuid Nat} (h : pc.Books) (hpurges : pc.purges = false)
    (hc : c ∈ pc.work.revisions) : ∃ c' ∈ pc.work.members, c'.key = c.key ∧ Turns c' := by
  cases pc with
  | run r st =>
    have hbooked : ∀ {n todo}, r.Booked n todo → ∃ c' ∈ r.work.members, c'.key = c.key ∧ Turns c' :=
      fun hb => hb.turned c.key (mem_append_left _ (mem_map_of_mem hc))
    have hnone : r.work.revisions = [] → ∃ c' ∈ r.work.members, c'.key = c.key ∧ Turns c' := by
      intro hnil
      rw [show (Pc.run r st).work.revisions = _ from hnil] at hc
      cases hc
    cases st with
    | placed => exact hbooked h
    | renewed =>
      cases hrem : r.job.removes with
      | true =>
        obtain ⟨n, hb⟩ := h.1 hrem
        exact hbooked hb
      | false => exact hnone (h.2 hrem).revisions
    | invited => exact hnone h.revisions
    | drawn | clearing => exact hnone h.1.revisions
    | _ => exact hnone (Run.Plain.revisions h)
  | expire now todo work =>
    rw [show (Pc.expire now todo work).work.revisions = _ from h] at hc
    cases hc
  | forget => cases hpurges
  | _ => cases hc

theorem revisions_edits (hg : (stmt t a).guard d) (hpurges : (stmt t a).before.purges = false)
    (hbooks : (stmt t a).before.Books) :
    d.revisions.Edits t (stmt t a).before.work.revisions ((stmt t a).change d).revisions
      ((stmt t a).after d).work.revisions := by
  cases a with
  | glanceAgain =>
    rw [change_glanceAgain, rests_work rfl]
    exact .same
  | record r revision p =>
    refine ⟨.write t _ _ hg, fun h => h.change (patch p _ (some revision)) ?_ rfl⟩
    intro c hc hkey
    have hnodup := Run.Booked.nodup hbooks
    refine (nodup_append.1 hnodup).2.2 p ?_ p mem_cons_self rfl
    rw [show p = c.key from hkey.symm]
    exact mem_map_of_mem hc
  | scanInvolving | clearInvolving | forgetRevision => cases hpurges
  | commit =>
    rw [rests_work rfl]
    exact .commit
  | changed | refuse | fail =>
    rw [rests_work rfl]
    exact .rollback
  | _ => exact .same

theorem made_reachable (h : system.Reachable NoPurge w) :
    ∀ t, w.data.revisions.Made t (w.pc t).work.revisions :=
  Programs.made_reachable (X := programs) Data.revisions (fun pc => pc.work.revisions) rfl rfl
    (fun _ t _ hr en =>
      revisions_edits en.2 (en.1 ▸ purges_reachable hr t) (en.1 ▸ books_reachable hr t)) h

/-- A `COMMIT` changes revisions of players that it moves. -/
theorem revisions_commit (hr : system.Reachable NoPurge w) (t : Sess) (p : Uuid) :
    (w.data.revisions.commit t).committed p = w.data.revisions.committed p ∨
      ∃ c ∈ (w.pc t).work.members, c.key = p ∧ Turns c := by
  rw [committed_commit]
  rcases (made_reachable hr t).view_cases p with ⟨hsame, -⟩ | ⟨_, hc, rfl, -⟩
  · exact .inl hsame
  · exact .inr ((books_reachable hr t).moved (purges_reachable hr t) hc)

end Recorded

section Freshness

/-- The revision `n` has been drawn, it is above that of the party, and above what is
recorded for the players that enter. -/
structure Run.Fresh (d : Data) (r : Run) (n : Nat) : Prop where
  drawn : n ≤ d.seq
  above : ∀ row, d.parties.committed r.party = some row → row.revision < n
  later : ∀ c ∈ r.work.members, c.old = none → (d.revisions.committed c.key).getD 0 < n

/-- The revision that a session has drawn is fresh. -/
def Pc.Fresh (d : Data) : Pc → Prop
  | .run r (.drawn _ n) | .run r (.clearing n _) | .run r (.placed n _) => r.Fresh d n
  | .run r .renewed => r.job.removes = true → ∃ n, r.Booked n [] ∧ r.Fresh d n
  | _ => True

/-- All revisions have been drawn from the sequence. -/
structure Bounded (d : Data) : Prop where
  parties : ∀ party row, d.parties.committed party = some row → row.revision ≤ d.seq
  revisions : ∀ p n, d.revisions.committed p = some n → n ≤ d.seq

variable {w : World Data Pc} {t u : Sess} {a : Act} {d d' : Data} {p party : Uuid}
variable {r r' : Run} {pc : Pc} {n : Nat}

/-- What the revision is compared with has not changed. -/
theorem Run.Fresh.mono (h : r.Fresh d n) (hparty : r'.party = r.party)
    (hmembers : ∀ c ∈ r'.work.members, c.old = none → c ∈ r.work.members) (hseq : d.seq ≤ d'.seq)
    (hparties : d'.parties.committed r.party = d.parties.committed r.party)
    (hrevisions : ∀ c ∈ r.work.members,
      d'.revisions.committed c.key = d.revisions.committed c.key) : r'.Fresh d' n where
  drawn := Nat.le_trans h.drawn hseq
  above := by
    intro row hrow
    rw [hparty, hparties] at hrow
    exact h.above row hrow
  later := by
    intro c hc hold
    rw [hrevisions c (hmembers c hc hold)]
    exact h.later c (hmembers c hc hold) hold

/-- A statement of the transaction itself. -/
theorem Run.Fresh.own (h : r.Fresh d n) (hquiet : ∀ pc answers, a ≠ .commit pc answers)
    (hseq : ((stmt t a).change d).seq = d.seq) (hparty : r'.party = r.party)
    (hmembers : ∀ c ∈ r'.work.members, c.old = none → c ∈ r.work.members) :
    r'.Fresh ((stmt t a).change d) n :=
  h.mono hparty hmembers (Nat.le_of_eq hseq.symm) (parties_quiet hquiet _)
    (fun _ _ => revisions_quiet hquiet _)

theorem fresh_draw (hb : Bounded d) : r.Fresh { d with seq := d.seq + 1 } (d.seq + 1) where
  drawn := Nat.le_refl _
  above := fun row hrow => Nat.lt_succ_of_le (hb.parties r.party row hrow)
  later := by
    intro c _ _
    cases hc : d.revisions.committed c.key with
    | none => exact Nat.succ_pos _
    | some m => exact Nat.lt_succ_of_le (hb.revisions c.key m hc)

theorem fresh_own (hg : (stmt t a).guard d) (hbooks : (stmt t a).before.Books) (hb : Bounded d)
    (h : (stmt t a).before.Fresh d) : ((stmt t a).after d).Fresh ((stmt t a).change d) := by
  cases a with
  | renewIn r _ leaseUntil =>
    intro hrem
    rcases renews_cases hg.1 with ⟨-, hnot⟩ | ⟨⟨n, rfl⟩, -⟩
    · exact false_true_elim hnot hrem
    · have hrow : ∀ c ∈ d.renewal t r.job.me leaseUntil, c.old ≠ none ∧ c.new ≠ none := by
        intro c hc
        obtain ⟨row, -, rfl⟩ := mem_renewal hc
        exact ⟨Option.some_ne_none _, Option.some_ne_none _⟩
      refine ⟨n, Run.Booked.patchMembers hbooks (fun c hc => (hrow c hc).2), ?_⟩
      refine Run.Fresh.own h (fun _ _ => Act.noConfusion) rfl rfl ?_
      intro c hc hold
      rcases mem_append.1 hc with hc | hc
      · exact hc
      · exact absurd hold (hrow c hc).1
  | draw => exact fresh_draw hb
  | insertParty | updateParty | clearInvite | deleteParty | record =>
    exact Run.Fresh.own h (fun _ _ => Act.noConfusion) rfl rfl (fun _ hc _ => hc)
  | scanInvites => exact h
  | glanceAgain | changed | commit | refuse | fail =>
    exact rests_after rfl trivial (fun _ _ _ => trivial) (fun _ => trivial)
  | _ => trivial

theorem seq_grows : d.seq ≤ ((stmt t a).change d).seq := by
  cases a with
  | draw => exact Nat.le_succ _
  | glanceAgain => rw [change_glanceAgain]
  | _ => exact Nat.le_refl _

/-- The revisions of the players that a session moves stay while it is open. -/
theorem revisions_of_mover {c : Patch Uuid MemberRow} (hr : system.Reachable NoPurge w) (hu : u ≠ t)
    (hc : c ∈ (w.pc u).work.members) :
    ((stmt t a).change w.data).revisions.committed c.key =
      w.data.revisions.committed c.key := by
  rcases exists_or_ne Act.commit a with ⟨_, _, rfl⟩ | hquiet
  · refine (revisions_commit hr t c.key).resolve_right ?_
    rintro ⟨_, hc', hkey, -⟩
    have hp := (keeps_reachable hr u).members.owes.pending_change hc
    have hp' := (keeps_reachable hr t).members.owes.pending_change hc'
    rw [hkey, hp] at hp'
    exact hu (congrArg Prod.fst (Option.some.inj hp'))
  · exact revisions_quiet hquiet c.key

section

variable (hr : system.Reachable NoPurge w) (hG : NoPurge w (t, a)) (en : system.enabled w (t, a))
    (hu : u ≠ t)
include hr hG en hu

/-- The row of the party stays while the session that stamps it is open. -/
theorem party_of_stamper {st : Stage} (hpc : w.pc u = .run r st)
    (htold : r.creates = false → (Pc.run r st).Told) :
    ((stmt t a).change w.data).parties.committed r.party =
      w.data.parties.committed r.party := by
  cases hcreates : r.creates with
  | true =>
    have hdrawn : (w.pc u).drawn = some r.party := by
      rw [hpc]
      exact if_pos hcreates
    have hr' : system.Reachable NoPurge (system.effect w (t, a)) := .tail (t, a) hr hG en
    have hdrawn' : ((system.effect w (t, a)).pc u).drawn = some r.party := by
      rw [show (system.effect w (t, a)).pc u = w.pc u from pc_other hu]
      exact hdrawn
    exact (unborn_reachable hr' u r.party hdrawn').trans
      (unborn_reachable hr u r.party hdrawn).symm
  | false =>
    have hknows := (fit_reachable hr).2 u
    have hs := sound_reachable hr u
    rw [hpc] at hknows hs
    have hlock := lock_of_told hs rfl (htold hcreates)
    rw [← hpc] at hlock
    exact (calm_of_lock hr en hu hlock (hknows r.party rfl (htold hcreates)).1).parties

theorem fresh_other (h : (w.pc u).Fresh w.data) : (w.pc u).Fresh ((stmt t a).change w.data) := by
  cases hpc : w.pc u with
  | run r st =>
    rw [hpc] at h
    have hstep : ∀ n, r.Fresh w.data n → (r.creates = false → (Pc.run r st).Told) →
        r.Fresh ((stmt t a).change w.data) n := by
      intro _ hf htold
      refine hf.mono rfl (fun _ hc _ => hc) seq_grows
        (party_of_stamper hr hG en hu hpc htold) ?_
      intro _ hc
      refine revisions_of_mover hr hu ?_
      rw [hpc]
      exact hc
    cases st with
    | drawn leader n | clearing n | placed n => exact hstep n h id
    | renewed =>
      intro hrem
      obtain ⟨n, hb, hf⟩ := h hrem
      exact ⟨n, hb, hstep n hf id⟩
    | _ => trivial
  | _ => trivial

end

/-- What a session has done when it commits: it has stamped its party with a fresh
revision, or it has changed leases and invites only. -/
def Pc.Settles (d : Data) (pc : Pc) : Prop :=
  (∃ r st n, pc = .run r st ∧ r.Booked n [] ∧ r.Fresh d n) ∨
    (pc.work.parties = [] ∧ pc.work.revisions = [] ∧
      ∀ c ∈ pc.work.members, ∀ q, seat q c.new = seat q c.old)

theorem settles_of_result (hs : pc.Sound) (hbooks : pc.Books) (hpurges : pc.purges = false)
    (hf : pc.Fresh d) (hresult : pc.result ≠ none) : pc.Settles d := by
  cases pc with
  | run r st =>
    cases st with
    | placed n todo =>
      cases todo with
      | nil => exact .inl ⟨r, _, n, rfl, hbooks, hf⟩
      | cons => exact absurd rfl hresult
    | renewed =>
      cases hrem : r.job.removes with
      | true =>
        obtain ⟨n, hb, hfresh⟩ := hf hrem
        exact .inl ⟨r, _, n, rfl, hb, hfresh⟩
      | false =>
        have hstill := hbooks.2 hrem
        exact .inr ⟨hstill.parties, hstill.revisions, hstill.seats⟩
    | invited =>
      exact .inr ⟨Run.Still.parties hbooks, Run.Still.revisions hbooks, Run.Still.seats hbooks⟩
    | _ => exact absurd rfl hresult
  | expire =>
    refine .inr ⟨?_, hbooks, ?_⟩
    · rw [eq_nil_iff_forall_not_mem]
      intro c hc
      obtain ⟨hparty, -⟩ := hs.parties c hc
      cases hparty
    · intro c hc
      obtain ⟨party, hparty, -⟩ := hs.members c hc
      cases hparty
  | forget => cases hpurges
  | _ => exact absurd rfl hresult

/-- What a stamped party shows. -/
theorem Run.Booked.party_view {st : Stage} {row : PartyRow} (h : r.Booked n [])
    (hk : Keeps d t (.run r st)) (hrow : d.parties.view t r.party = some row) :
    row.revision = n := by
  obtain ⟨_, hc, hkey, hnew⟩ := h.stamped
  refine hnew row ?_
  rw [← hk.parties.owes.view_change hc, hkey]
  exact hrow

theorem bounded_commit {answers : List Answer} (hb : Bounded w.data)
    (hr : system.Reachable NoPurge w) (h : (w.pc t).Settles w.data) :
    Bounded (w.data.commit t answers) := by
  have hk := keeps_reachable hr t
  have hm := made_reachable hr t
  constructor
  · intro party row hrow
    have hrow : (w.data.parties.commit t).committed party = some row := hrow
    rw [committed_commit] at hrow
    rcases hk.parties.view_cases party with ⟨hsame, -⟩ | ⟨c, hc, rfl, -⟩
    · exact hb.parties party row (hsame.symm.trans hrow)
    · rcases h with ⟨r, _, _, hpc, hbooked, hfresh⟩ | ⟨hnil, -⟩
      · have hs := sound_reachable hr t
        rw [hpc] at hk hc hs
        have hparty : r.party = c.key := Option.some.inj (hs.parties c hc).1
        rw [← hparty] at hrow
        rw [hbooked.party_view hk hrow]
        exact hfresh.drawn
      · rw [hnil] at hc
        cases hc
  · intro p m hrow
    have hrow : (w.data.revisions.commit t).committed p = some m := hrow
    rw [committed_commit] at hrow
    rcases hm.view_cases p with ⟨hsame, -⟩ | ⟨c, hc, rfl, -, hnew⟩
    · exact hb.revisions p m (hsame.symm.trans hrow)
    · rcases h with ⟨_, _, _, hpc, hbooked, hfresh⟩ | ⟨-, hnil, -⟩
      · rw [hpc] at hc
        rw [hnew, hbooked.values c hc] at hrow
        cases hrow
        exact hfresh.drawn
      · rw [hnil] at hc
        cases hc

/-- The revisions that sessions have drawn are fresh, and all revisions have been drawn. -/
theorem fresh_reachable (h : system.Reachable NoPurge w) :
    Bounded w.data ∧ ∀ t, (w.pc t).Fresh w.data := by
  refine joint_invariant (X := programs) (I := Bounded) (L := fun d _ pc => pc.Fresh d)
    ⟨?_, ?_⟩ (fun _ => trivial) ?_ h
  · intro _ _ hrow
    cases hrow
  · intro _ _ hrow
    cases hrow
  intro w t a hr hG en hb hfresh hown
  refine ⟨?_, fresh_own en.2 (en.1 ▸ books_reachable hr t) hb hown,
    fun u hu => fresh_other hr hG en hu (hfresh u)⟩
  rcases exists_or_ne Act.commit a with ⟨pc, answers, rfl⟩ | hquiet
  · have hpc : w.pc t = pc := en.1
    refine bounded_commit hb hr (settles_of_result (sound_reachable hr t)
      (books_reachable hr t) (purges_reachable hr t) (hfresh t) ?_)
    rw [hpc, en.2]
    exact Option.some_ne_none answers
  · constructor
    · intro party row hrow
      exact Nat.le_trans
        (hb.parties party row ((parties_quiet hquiet party).symm.trans hrow)) seq_grows
    · intro p n hrow
      exact Nat.le_trans
        (hb.revisions p n ((revisions_quiet hquiet p).symm.trans hrow)) seq_grows

end Freshness

section Order

variable {w w' : World Data Pc} {t : Sess} {a : Act} {d d' : Data} {p party : Uuid}
variable {answers : List Answer}

/-- A later view of the same player: the same one, or one with a larger revision. -/
def View.Precedes (v v' : View) : Prop := v' = v ∨ v.revision < v'.revision

theorem View.Precedes.trans {v v' v'' : View} (h : v.Precedes v') (h' : v'.Precedes v'') :
    v.Precedes v'' := by
  rcases h with rfl | hlt
  · exact h'
  · rcases h' with rfl | hlt'
    · exact .inr hlt
    · exact .inr (Nat.lt_trans hlt hlt')

/-- A step that leaves the parties and the seats alone. -/
theorem view_of_calm (hcalm : ∀ party, d.snap.Calm d'.snap party)
    (hrevisions : d'.revisions.committed p = d.revisions.committed p) : d'.view p = d.view p := by
  have hseat : ∀ party, seat party (d'.members.committed p) =
      seat party (d.members.committed p) := fun party => (hcalm party).seats p
  cases hm : d.members.committed p with
  | none =>
    have hm' : d'.members.committed p = none := by
      by_contra hne
      obtain ⟨m', hm'⟩ := Option.ne_none_iff_exists'.1 hne
      have h := hseat m'.party
      rw [hm, hm', seat_of_party rfl] at h
      cases h
    rw [view_of_none hm, view_of_none hm', hrevisions]
  | some m =>
    obtain ⟨m', hm', hparty⟩ : ∃ m', d'.members.committed p = some m' ∧ m'.party = m.party := by
      refine seat_ne_none.1 ?_
      rw [hseat, hm, seat_of_party rfl]
      exact Option.some_ne_none _
    have hrow : d'.parties.committed m.party = d.parties.committed m.party :=
      (hcalm m.party).parties
    have hroster := roster_of_seats (hcalm m.party).seats
    simp only [Data.view, hm, hm', Option.bind_some, hparty, hrow, hrevisions]
    cases d.parties.committed m.party with
    | none => rfl
    | some =>
      simp only [Option.map_some]
      rw [hroster]

section

variable (hr : system.Reachable NoPurge w)
include hr

/-- The row of a party that exists before and after a `COMMIT`. -/
theorem party_step {row row' : PartyRow}
    (h : (w.pc t).Settles w.data) (hrow : w.data.parties.committed party = some row)
    (hrow' : (w.data.commit t answers).parties.committed party = some row') :
    (row' = row ∧ (w.data.commit t answers).roster party = w.data.roster party) ∨
      row.revision < row'.revision := by
  have hk := keeps_reachable hr t
  have hview : w.data.parties.view t party = some row' :=
    (committed_commit t _ party).symm.trans hrow'
  have hmembers : ∀ p, (w.data.commit t answers).members.committed p =
      w.data.members.view t p := committed_commit t _
  by_cases hparty : (w.pc t).party = some party
  · rcases h with ⟨_, _, _, hpc, hbooked, hfresh⟩ | ⟨hnil, -, hseats⟩
    · rw [hpc] at hk hparty
      cases hparty
      rw [hbooked.party_view hk hview]
      exact .inr (hfresh.above row hrow)
    · rw [hk.view_party_of_nil hnil, hrow] at hview
      cases hview
      refine .inl ⟨rfl, roster_of_seats ?_⟩
      intro p
      rw [hmembers]
      rcases hk.members.view_cases p with ⟨hsame, -⟩ | ⟨c, hc, rfl, hold, hnew⟩
      · rw [hsame]
      · rw [hold, hnew]
        exact hseats c hc party
  · have hcalm := calm_commit hr hparty
    have hsame : w.data.parties.view t party = w.data.parties.committed party := hcalm.parties
    rw [hsame, hrow] at hview
    cases hview
    refine .inl ⟨rfl, roster_of_seats ?_⟩
    intro p
    rw [hmembers]
    exact hcalm.seats p

/-- A member of a party stays in it. -/
theorem view_stays {m m' : MemberRow} (hfit : ∀ party, w.data.snap.Fit party)
    (hfit' : ∀ party, (w.data.commit t answers).snap.Fit party) (h : (w.pc t).Settles w.data)
    (hm : w.data.members.committed p = some m)
    (hm' : (w.data.commit t answers).members.committed p = some m') (hparty : m'.party = m.party) :
    (w.data.view p).Precedes ((w.data.commit t answers).view p) := by
  obtain ⟨_, hrow, -⟩ := (hfit m.party).led_of_seated (p := p) (seat_ne_none.2 ⟨m, hm, rfl⟩)
  obtain ⟨_, hrow', -⟩ := (hfit' m'.party).led_of_seated (p := p) (seat_ne_none.2 ⟨m', hm', rfl⟩)
  rw [view_of_member hm hrow, view_of_member hm' hrow', hparty]
  rw [hparty] at hrow'
  rcases party_step hr h hrow hrow' with ⟨rfl, hroster⟩ | hlt
  · rw [hroster]
    exact .inl rfl
  · exact .inr hlt

/-- A player leaves a party. -/
theorem view_leaves {c : Patch Uuid MemberRow} {m : MemberRow}
    (hfit : ∀ party, w.data.snap.Fit party) (h : (w.pc t).Settles w.data)
    (hc : c ∈ (w.pc t).work.members) (hold : c.old = some m) (hnew : c.new = none) :
    (w.data.view c.key).Precedes ((w.data.commit t answers).view c.key) := by
  have hk := keeps_reachable hr t
  have hm : w.data.members.committed c.key = some m := (hk.members.owes.old_change hc).trans hold
  have hm' : (w.data.commit t answers).members.committed c.key = none :=
    (committed_commit t _ _).trans ((hk.members.owes.view_change hc).trans hnew)
  obtain ⟨row, hrow, -⟩ := (hfit m.party).led_of_seated (p := c.key) (seat_ne_none.2 ⟨m, hm, rfl⟩)
  rw [view_of_member hm hrow, view_of_none hm']
  refine .inr ?_
  have hturn : seat m.party c.new ≠ seat m.party c.old := by
    rw [hold, hnew, seat_of_party rfl]
    exact (Option.some_ne_none _).symm
  rcases h with ⟨r, _, n, hpc, hbooked, hfresh⟩ | ⟨-, -, hseats⟩
  · have hmoves := (sound_reachable hr t).members c hc
    have hmade := made_reachable hr t
    rw [hpc] at hc hmoves hmade
    -- the player was in the party of the transaction
    have hparty : m.party = r.party := by
      obtain ⟨_, hparty, hmoves⟩ := hmoves
      cases hparty
      by_contra hne
      exact hturn (hmoves m.party hne)
    rw [hparty] at hrow
    have hkey := hbooked.left c hc (by rw [hold]; exact Option.some_ne_none m) hnew
    rw [append_nil] at hkey
    obtain ⟨c', hc', hkey'⟩ := mem_map.1 hkey
    have hrev : (w.data.commit t answers).revisions.committed c.key = some n := by
      refine (committed_commit t _ _).trans ?_
      rw [← hkey', hmade.owes.view_change hc', hbooked.values c' hc']
    rw [hrev]
    exact hfresh.above row hrow
  · exact absurd (hseats c hc m.party) hturn

/-- A player enters a party. -/
theorem view_enters {c : Patch Uuid MemberRow} {m : MemberRow}
    (hfit' : ∀ party, (w.data.commit t answers).snap.Fit party) (h : (w.pc t).Settles w.data)
    (hc : c ∈ (w.pc t).work.members) (hold : c.old = none) (hnew : c.new = some m) :
    (w.data.view c.key).Precedes ((w.data.commit t answers).view c.key) := by
  have hk := keeps_reachable hr t
  have hm : w.data.members.committed c.key = none := (hk.members.owes.old_change hc).trans hold
  have hm' : (w.data.commit t answers).members.committed c.key = some m :=
    (committed_commit t _ _).trans ((hk.members.owes.view_change hc).trans hnew)
  obtain ⟨row, hrow, -⟩ := (hfit' m.party).led_of_seated (p := c.key) (seat_ne_none.2 ⟨m, hm', rfl⟩)
  rw [view_of_none hm, view_of_member hm' hrow]
  refine .inr ?_
  have hturn : seat m.party c.new ≠ seat m.party c.old := by
    rw [hold, hnew, seat_of_party rfl]
    exact Option.some_ne_none _
  rcases h with ⟨r, _, _, hpc, hbooked, hfresh⟩ | ⟨-, -, hseats⟩
  · have hmoves := (sound_reachable hr t).members c hc
    rw [hpc] at hk hc hmoves
    have hparty : m.party = r.party := by
      obtain ⟨_, hparty, hmoves⟩ := hmoves
      cases hparty
      by_contra hne
      exact hturn (hmoves m.party hne)
    have hview : w.data.parties.view t r.party = some row := by
      rw [← hparty]
      exact (committed_commit t _ _).symm.trans hrow
    rw [hbooked.party_view hk hview]
    exact hfresh.later c hc hold
  · exact absurd (hseats c hc m.party) hturn

/-- Every `COMMIT` leaves the views as they are, or raises their revision. -/
theorem view_commit (hfit : ∀ party, w.data.snap.Fit party)
    (hfit' : ∀ party, (w.data.commit t answers).snap.Fit party) (h : (w.pc t).Settles w.data)
    (p : Uuid) : (w.data.view p).Precedes ((w.data.commit t answers).view p) := by
  have hk := keeps_reachable hr t
  have hmembers : (w.data.commit t answers).members.committed p = w.data.members.view t p :=
    committed_commit t _ p
  have hrest : ∀ hm : w.data.members.committed p = none, w.data.members.view t p = none →
      (∀ c ∈ (w.pc t).work.members, c.key = p → ¬ Turns c) →
      (w.data.view p).Precedes ((w.data.commit t answers).view p) := by
    intro hm hv hstay
    have hrev : (w.data.commit t answers).revisions.committed p = w.data.revisions.committed p := by
      refine (revisions_commit hr t p).resolve_right ?_
      rintro ⟨c, hc, hkey, hturns⟩
      exact hstay c hc hkey hturns
    rw [view_of_none hm, view_of_none (hmembers.trans hv), hrev]
    exact .inl rfl
  rcases hk.members.view_cases p with ⟨hsame, hnot⟩ | ⟨c, hc, rfl, hold, hnew⟩
  · cases hm : w.data.members.committed p with
    | none => exact hrest hm (hsame.trans hm) (fun c hc hkey => absurd hkey (hnot c hc))
    | some => exact view_stays hr hfit hfit' h hm (hmembers.trans (hsame.trans hm)) rfl
  · cases hcold : c.old with
    | none =>
      cases hcnew : c.new with
      | none =>
        refine hrest (hold.trans hcold) (hnew.trans hcnew) ?_
        intro _ hc' hkey hturns
        have hold' := hk.members.owes.old_change hc'
        have hnew' := hk.members.owes.view_change hc'
        rw [hkey] at hold' hnew'
        unfold Turns at hturns
        rw [← hold', ← hnew', hold, hnew, hcold, hcnew] at hturns
        exact hturns rfl
      | some => exact view_enters hr hfit' h hc hcold hcnew
    | some m =>
      cases hcnew : c.new with
      | none => exact view_leaves hr hfit h hc hcold hcnew
      | some m' =>
        refine view_stays hr hfit hfit' h (hold.trans hcold)
          (hmembers.trans (hnew.trans hcnew)) ?_
        obtain ⟨party, -, hmoves⟩ := (sound_reachable hr t).members c hc
        by_cases hne : m.party = party
        · by_contra hne'
          have hseat := hmoves m'.party (fun heq => hne' (heq.trans hne.symm))
          rw [hcold, hcnew, seat_of_party rfl, seat_of_ne (Ne.symm hne')] at hseat
          cases hseat
        · have hseat := hmoves m.party hne
          rw [hcold, hcnew, seat_of_party rfl] at hseat
          by_contra hne'
          rw [seat_of_ne hne'] at hseat
          cases hseat

/-- Every step leaves the view of a player as it is, or raises its revision. -/
theorem view_step (hG : NoPurge w (t, a)) (en : system.enabled w (t, a)) (p : Uuid) :
    (w.data.view p).Precedes ((system.effect w (t, a)).data.view p) := by
  have hr' : system.Reachable NoPurge (system.effect w (t, a)) := .tail (t, a) hr hG en
  rcases exists_or_ne Act.commit a with ⟨pc, answers, rfl⟩ | hquiet
  · have hpc : w.pc t = pc := en.1
    refine view_commit hr (fit_reachable hr).1 (fit_reachable hr').1
      (settles_of_result (sound_reachable hr t) (books_reachable hr t) (purges_reachable hr t)
        ((fresh_reachable hr).2 t) ?_) p
    rw [hpc, en.2]
    exact Option.some_ne_none answers
  · exact .inl (view_of_calm (fun party => calm_quiet en.2 hquiet) (revisions_quiet hquiet p))

end

theorem view_run (h : system.Reachable NoPurge w) (hrun : system.Reaches NoPurge w w') (p : Uuid) :
    (w.data.view p).Precedes (w'.data.view p) := by
  induction hrun with
  | refl => exact .inl rfl
  | tail _ run cond en ih => exact ih.trans (view_step (h.trans run) cond en p)

end Order

section Result

variable {w w' : World Data Pc}

/-- What a view shows apart from its revision. -/
def View.content (v : View) : Option Uuid × Option Uuid × List (Uuid × Ready) :=
  (v.party, v.leader, v.members)

/-- In every run without purges the revision of the view of a player never decreases, it
increases whenever the view changes, and it determines the view. -/
theorem revisions_order_views (h : system.Reachable NoPurge w) (hrun : system.Reaches NoPurge w w')
    (p : Uuid) :
    (w.data.view p).revision ≤ (w'.data.view p).revision ∧
      ((w'.data.view p).content ≠ (w.data.view p).content →
        (w.data.view p).revision < (w'.data.view p).revision) ∧
      ((w'.data.view p).revision = (w.data.view p).revision →
        (w'.data.view p).content = (w.data.view p).content) := by
  rcases view_run h hrun p with hsame | hlt
  · rw [hsame]
    exact ⟨Nat.le_refl _, fun hne => absurd rfl hne, fun _ => rfl⟩
  · refine ⟨Nat.le_of_lt hlt, fun _ => hlt, ?_⟩
    intro heq
    exact absurd heq.symm (Nat.ne_of_lt hlt)

/-- The founder of a party leaves it. -/
def leavingRun : List (Sess × Act) :=
  let row : MemberRow := ⟨annsParty, .notReady, 1, 100⟩
  let r : Run := ⟨.leave ann, annsParty, 3, 3, 30, .none⟩
  let left := r.patchMembers [patch ann (some row) none]
  let dissolved := left.patchParties [patch annsParty (some ⟨ann, 1⟩) none]
  let recorded := dissolved.patchRevisions [patch ann (some 1) (some 2)]
  [(1, .seek (.leave ann) (.leave ann)), (1, .findParty (.leave ann) 3 3 annsParty 30),
   (1, .lock r), (1, .confirm r), (1, .remove r ann .begun row), (1, .choose left),
   (1, .draw left (.chosen none) none), (1, .scanInvites left 2), (1, .deleteParty left 2),
   (1, .record dissolved 2 ann []),
   (1, .commit (.run recorded (.placed 2 [])) [.job (.leave ann) (.ok (.noParty 2))])]

/-- The views of a player who creates a party and dissolves it. -/
theorem revisions_order_founder :
    ∃ w w', system.Reachable NoPurge w ∧ system.Reaches NoPurge w w' ∧
      w.data.view ann = ⟨some annsParty, 1, some ann, [(ann, .notReady)]⟩ ∧
      w'.data.view ann = ⟨none, 2, none, []⟩ ∧
      (w.data.view ann).revision < (w'.data.view ann).revision := by
  have hfirst : (system.exec NoPurge system.start (creatingRun 1 ann annsParty 1)).any
      (fun w => (system.exec NoPurge w leavingRun).any (fun w' =>
        decide (w.data.view ann = ⟨some annsParty, 1, some ann, [(ann, .notReady)]⟩ ∧
          w'.data.view ann = ⟨none, 2, none, []⟩))) = true := by decide +kernel
  obtain ⟨w, hw, hrest⟩ := (Option.any_eq_true _ _).1 hfirst
  obtain ⟨w', hw', hviews⟩ := (Option.any_eq_true _ _).1 hrest
  obtain ⟨hview, hview'⟩ := of_decide_eq_true hviews
  have hreach : system.Reachable NoPurge w := TransitionSystem.exec_reaches NoPurge hw
  have hrun := TransitionSystem.exec_reaches NoPurge hw'
  refine ⟨w, w', hreach, hrun, hview, hview', ?_⟩
  refine (revisions_order_views hreach hrun ann).2.1 ?_
  rw [hview, hview']
  decide

end Result

end Swarog.Party
