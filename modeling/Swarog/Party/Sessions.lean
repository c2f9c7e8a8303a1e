import Swarog.Party.Service

/-!
# What the sessions of the party service hold

A session holds exactly the changes that its program point lists (`Keeps`), and the
lock of its party.  The changes of members move them in and out of that party only, a
new party is one that the session has drawn itself, and the invites of other parties
are only deleted (`Pc.Sound`).
-/

namespace Swarog.Party

open Pg Table Programs List Option

section Shapes

/-- The seat of a player in a party: the columns that the views of the party show. -/
def seat (party : Uuid) (row : Option MemberRow) : Option (Ready × Int) :=
  row.bind (fun m => if m.party = party then some (m.ready, m.joinedAt) else none)

theorem seat_of_party
    {m : MemberRow}
    {party : Uuid}
    (h : m.party = party) :
    seat party (some m) = some (m.ready, m.joinedAt) :=
  if_pos h

theorem seat_of_ne
    {m : MemberRow}
    {party : Uuid}
    (h : m.party ≠ party) :
    seat party (some m) = none :=
  if_neg h

theorem seat_ne_none
    {row : Option MemberRow}
    {party : Uuid} :
    seat party row ≠ none ↔ ∃ m, row = some m ∧ m.party = party := by
  cases row with
  | none => simp [seat]
  | some m =>
    by_cases hm : m.party = party
    · simp [seat_of_party hm, hm]
    · simp [seat_of_ne hm, hm]

/-- The change is about seats in one party. -/
def Moves (party : Uuid) (c : Patch Uuid MemberRow) : Prop :=
  ∀ q, q ≠ party → seat q c.new = seat q c.old

/-- All changes are deletions. -/
def Deletes {κ ρ : Type} (cs : List (Patch κ ρ)) : Prop := ∀ c ∈ cs, c.new = none

theorem deletes_nil {κ ρ : Type} : Deletes ([] : List (Patch κ ρ)) := by
  intro _ hc
  cases hc

theorem Deletes.append
    {κ ρ : Type}
    {cs cs' : List (Patch κ ρ)}
    (h : Deletes cs)
    (h' : Deletes cs') :
    Deletes (cs ++ cs') := by
  intro c hc
  rcases mem_append.1 hc with hc | hc
  · exact h c hc
  · exact h' c hc

/-- The jobs that add a member. -/
def Job.joins : Job → Bool
  | .create _ | .accept _ _ => true
  | _ => false

/-- What a founder has done. -/
def Run.Founds (r : Run) : Prop :=
  ∃ m, r.work.members = [patch r.job.me none (some m)] ∧ m.party = r.party

namespace Run

def creates (r : Run) : Bool :=
  match r.job with
  | .create _ => true
  | _ => false

/-- What a transaction has done at a stage. -/
def Shape (r : Run) : Stage → Prop
  | .found | .locked | .begun | .led | .checked => r.work = .none ∧ r.creates = false
  | .renewed => r.creates = false ∧
      (r.job.removes = false → r.work.parties = [] ∧ r.work.invites = [])
  | .consumed | .roomy => r.work.members = [] ∧ r.work.parties = [] ∧ r.job.joins = true ∧
      r.creates = false
  | .deleting _ => Deletes r.work.members ∧ r.work.parties = [] ∧ r.work.invites = [] ∧
      r.job.removes = true ∧ r.creates = false
  | .written | .chosen _ | .drawn _ _ => r.work.parties = [] ∧
      (r.job.removes = true → Deletes r.work.members ∧ r.work.invites = []) ∧
      (r.creates = true → r.Founds)
  | .clearing _ _ => r.work.parties = [] ∧ r.job.removes = true ∧ r.creates = false ∧
      Deletes r.work.members ∧ Deletes r.work.invites
  | .placed revision _ =>
    (r.job.removes = true → Deletes r.work.members ∧ Deletes r.work.invites) ∧
      (r.creates = true → r.Founds ∧
        r.work.parties = [patch r.party none (some ⟨r.job.me, revision⟩)])
  | .invited _ _ => r.creates = false

/-- The lock of the party; a new party needs none. -/
def locks (r : Run) : List Int := if r.creates then [] else [r.lockKey]

end Run

namespace Pc

/-- The party that the transaction is about. -/
def party : Pc → Option Uuid
  | .run r _ => some r.party
  | .forget _ party _ _ => party
  | _ => none

/-- The party that the transaction has created. -/
def drawn : Pc → Option Uuid
  | .run r _ => if r.creates then some r.party else none
  | _ => none

/-- The locks that a program point needs. -/
def locksHeld : Pc → List Int
  | .run _ .found => []
  | .run r _ => r.locks
  | .forget _ party _ _ => party.toList.map (fun p => partyLockKey p.text)
  | _ => []

def Shape : Pc → Prop
  | .run r st => r.Shape st
  | .forget _ _ work _ => Deletes work.invites
  | .expire _ _ work => Deletes work.invites
  | _ => True

/-- What the changes are about. -/
structure Sound (pc : Pc) : Prop where
  members : ∀ c ∈ pc.work.members, ∃ party, pc.party = some party ∧ Moves party c
  parties : ∀ c ∈ pc.work.parties, pc.party = some c.key ∧ (pc.drawn = some c.key ∨ c.old ≠ none)
  invites : ∀ c ∈ pc.work.invites, pc.party = some c.key.1 ∨ c.new = none
  shape : pc.Shape

end Pc

end Shapes

variable {G : World Data Pc → Sess × Act → Prop}
variable {w : World Data Pc} {t u : Sess} {a : Act} {d : Data} {p : Uuid}

section Steps

/-- The statements that end a transaction, or look for another party. -/
def Act.rests : Act → Bool
  | .glanceAgain _ _ | .changed _ | .commit _ _ | .refuse _ _ | .fail _ _ => true
  | _ => false

/-- After such a statement the session is between transactions. -/
theorem rests_after
    {P : Pc → Prop}
    (ha : a.rests = true)
    (hidle : P .idle)
    (hseek : ∀ j outer inner, P (.seek j outer inner))
    (hpass : ∀ rest, P (.pass rest)) :
    P ((stmt t a).after d) := by
  cases a with
  | glanceAgain | changed =>
    simp only [stmt]
    split
    · exact hidle
    · exact hseek _ _ _
  | commit | refuse | fail =>
    simp only [stmt, Pc.resume]
    split
    · exact hpass _
    · exact hidle
  | _ => cases ha

theorem rests_work (ha : a.rests = true) : ((stmt t a).after d).work = .none :=
  rests_after (P := fun pc => pc.work = .none) ha rfl (fun _ _ _ => rfl) (fun _ => rfl)

theorem rests_locks (ha : a.rests = true) : ((stmt t a).after d).locksHeld = [] :=
  rests_after (P := fun pc => pc.locksHeld = []) ha rfl (fun _ _ _ => rfl) (fun _ => rfl)

/-- A call that looks for its party again answers at most. -/
theorem change_glanceAgain
    {me : Uuid}
    {outer : Nat} :
    (stmt t (.glanceAgain me outer)).change d =
      { d with answers := ((stmt t (.glanceAgain me outer)).change d).answers } := by
  simp only [stmt]
  split <;> rfl

/-- A session between transactions has done nothing. -/
theorem sound_nothing
    {pc : Pc}
    (hwork : pc.work = .none)
    (hshape : pc.Shape) :
    pc.Sound := by
  refine ⟨?_, ?_, ?_, hshape⟩ <;> rw [hwork] <;> intro c hc <;> cases hc

theorem mem_renewal
    {leaseUntil : Int}
    {c : Patch Uuid MemberRow}
    (hc : c ∈ d.renewal t p leaseUntil) :
    ∃ row, d.members.view t p = some row ∧
      c = patch p (some row) (some { row with leaseUntil := leaseUntil }) := by
  unfold Data.renewal at hc
  split at hc
  · rename_i row hrow
    exact ⟨row, hrow, mem_singleton.1 hc⟩
  · cases hc

theorem moves_renewal
    (party p : Uuid)
    (row : MemberRow)
    (leaseUntil : Int) :
    Moves party (patch p (some row) (some { row with leaseUntil := leaseUntil })) :=
  fun _ _ => rfl

variable {party p : Uuid}

theorem moves_same_party
    {row row' : MemberRow}
    (h : row.party = party)
    (h' : row'.party = party) :
    Moves party (patch p (some row) (some row')) := by
  intro q hq
  show seat q (some row') = seat q (some row)
  rw [seat_of_ne (h.trans_ne hq.symm), seat_of_ne (h'.trans_ne hq.symm)]

theorem moves_insert
    {row : MemberRow}
    (h : row.party = party) :
    Moves party (patch p none (some row)) := by
  intro _ hq
  exact seat_of_ne (h.trans_ne hq.symm)

theorem moves_delete
    {c : Patch Uuid MemberRow}
    {row : MemberRow}
    (hold : c.old = some row)
    (hnew : c.new = none)
    (h : row.party = party) :
    Moves party c := by
  intro _ hq
  rw [hold, hnew, seat_of_ne (h.trans_ne hq.symm)]
  rfl

theorem mem_stamp
    {leader : Option Uuid}
    {revision : Nat}
    {c : Patch Uuid PartyRow}
    (hc : c ∈ d.stamp t party leader revision) :
    ∃ row, d.parties.view t party = some row ∧
      c = patch party (some row) (some ⟨leader.getD row.leader, revision⟩) := by
  unfold Data.stamp at hc
  split at hc
  · rename_i row hrow
    exact ⟨row, hrow, mem_singleton.1 hc⟩
  · cases hc

/-- The statement changes committed rows: it is a `COMMIT`, a lease renewal or a
decline. -/
def Act.publishes : Act → Bool
  | .commit _ _ | .renew _ _ _ | .decline _ _ _ _ => true
  | _ => false

theorem members_quiet
    (hquiet : a.publishes = false)
    (k : Uuid) :
    ((stmt t a).change d).members.committed k = d.members.committed k := by
  cases a with
  | renew | commit => cases hquiet
  | createInsert | join | remove | setReady => exact committed_write _ _ _ _ _
  | glanceAgain => rw [change_glanceAgain]
  | renewIn =>
    simp only [stmt]
    unfold Data.renewal
    split
    · exact committed_write _ _ _ _ _
    · rfl
  | expireMember => exact committed_deleteWhere _ _ _ _ _
  | changed | refuse | fail => exact committed_rollback _ _ _
  | _ => rfl

theorem parties_quiet
    (hquiet : ∀ pc answers, a ≠ .commit pc answers)
    (k : Uuid) :
    ((stmt t a).change d).parties.committed k = d.parties.committed k := by
  cases a with
  | commit pc answers => exact absurd rfl (hquiet pc answers)
  | glanceAgain => rw [change_glanceAgain]
  | insertParty => exact committed_write _ _ _ _ _
  | updateParty =>
    simp only [stmt]
    unfold Data.stamp
    split
    · exact committed_write _ _ _ _ _
    · rfl
  | deleteParty => exact committed_deleteWhere _ _ _ _ _
  | changed | refuse | fail => exact committed_rollback _ _ _
  | _ => rfl

theorem invites_quiet
    (hquiet : a.publishes = false)
    (k : Uuid × Uuid) :
    ((stmt t a).change d).invites.committed k = d.invites.committed k := by
  cases a with
  | commit | decline => cases hquiet
  | glanceAgain => rw [change_glanceAgain]
  | upsertInvite | consume => exact committed_write _ _ _ _ _
  | clearInvite | clearInvolving | expireInvite => exact committed_deleteWhere _ _ _ _ _
  | changed | refuse | fail => exact committed_rollback _ _ _
  | _ => rfl

theorem revisions_quiet
    (hquiet : ∀ pc answers, a ≠ .commit pc answers)
    (k : Uuid) :
    ((stmt t a).change d).revisions.committed k = d.revisions.committed k := by
  cases a with
  | commit pc answers => exact absurd rfl (hquiet pc answers)
  | glanceAgain => rw [change_glanceAgain]
  | record => exact committed_write _ _ _ _ _
  | forgetRevision => exact committed_deleteWhere _ _ _ _ _
  | changed | refuse | fail => exact committed_rollback _ _ _
  | _ => rfl

end Steps

section Stages

variable {j : Job} {st : Stage} {r : Run}

theorem renews_cases (h : j.Renews st) :
    (st = .checked ∧ j.removes = false) ∨
      ((∃ revision, st = .placed revision []) ∧ j.removes = true) := by
  unfold Job.Renews at h
  split at h
  · exact .inl ⟨rfl, rfl⟩
  · exact .inl ⟨rfl, rfl⟩
  · exact .inr ⟨⟨_, rfl⟩, rfl⟩
  · exact h.elim

theorem draws_cases
    {leader : Option Uuid}
    (h : j.draws st = some leader) :
    (st = .written ∧ j.removes = false ∧ (leader = none ∨ j = .create j.me)) ∨
      (st = .renewed ∧ j.removes = false ∧
        ∃ me target, j = .promote me target ∧ leader = some target) ∨
      (st = .chosen leader ∧ j.removes = true) := by
  unfold Job.draws at h
  split at h <;> cases h
  · exact .inl ⟨rfl, rfl, .inr rfl⟩
  · exact .inl ⟨rfl, rfl, .inl rfl⟩
  · exact .inl ⟨rfl, rfl, .inl rfl⟩
  · exact .inr (.inl ⟨rfl, rfl, _, _, rfl, rfl⟩)
  · exact .inr (.inr ⟨rfl, rfl⟩)
  · exact .inr (.inr ⟨rfl, rfl⟩)
  · exact .inr (.inr ⟨rfl, rfl⟩)
  · exact .inr (.inr ⟨rfl, rfl⟩)

theorem removal_cases (h : j.removal = some (p, st)) :
    (st = .begun ∨ st = .led ∨ st = .locked) ∧ j.removes = true := by
  cases j <;> cases h
  · exact ⟨.inl rfl, rfl⟩
  · exact ⟨.inr (.inl rfl), rfl⟩
  · exact ⟨.inr (.inr rfl), rfl⟩

theorem leadStage_cases (h : j.leadStage = some st) : st = .locked ∨ st = .begun := by
  cases j <;> cases h
  · exact .inl rfl
  · exact .inr rfl
  · exact .inr rfl

theorem creates_of_removes (h : r.job.removes = true) : r.creates = false := by
  unfold Run.creates
  cases hj : r.job with
  | create =>
    rw [hj] at h
    cases h
  | _ => rfl

theorem removes_of_joins (h : j.joins = true) : j.removes = false := by
  cases j <;> first | rfl | cases h

theorem creates_of_seeks (h : r.job.seeks = true) : r.creates = false := by
  unfold Run.creates
  split
  · rename_i me hjob
    rw [hjob] at h
    cases h
  · rfl

theorem creates_iff : r.creates = true ↔ r.job = .create r.job.me := by
  unfold Run.creates
  cases hj : r.job with
  | create => exact ⟨fun _ => rfl, fun _ => rfl⟩
  | _ =>
    constructor
    · intro h
      cases h
    · intro h
      cases h

theorem locksHeld_run (h : st ≠ .found) : (Pc.run r st).locksHeld = r.locks := by
  cases st with
  | found => exact absurd rfl h
  | _ => rfl

theorem locks_of_creates (h : r.creates = false) : r.locks = [r.lockKey] := by
  unfold Run.locks
  rw [h]
  rfl

theorem job_of_consumable
    {me : Uuid}
    {row : InviteRow}
    (hme : r.job.me = me)
    (h : d.Consumable r row) :
    ∃ invite, r.job = .accept me invite := by
  unfold Data.Consumable at h
  split at h
  · rename_i me' invite hjob
    rw [hjob] at hme
    cases hme
    exact ⟨invite, hjob⟩
  · exact h.elim

theorem committed_of_consumable
    {me : Uuid}
    {row : InviteRow}
    (hme : r.job.me = me)
    (h : d.Consumable r row) :
    d.invites.committed (r.party, me) = some row := by
  obtain ⟨_, hjob⟩ := job_of_consumable hme h
  unfold Data.Consumable at h
  rw [hjob] at h
  exact h.1

/-- A transaction that has not written yet. -/
theorem Run.Shape.untouched
    (h : r.Shape st)
    (hst : st = .checked ∨ st = .begun ∨ st = .led ∨ st = .locked) :
    r.work = .none ∧ r.creates = false := by
  rcases hst with rfl | rfl | rfl | rfl <;> exact h

theorem Run.idle (h : r.work = .none) :
    r.work.members = [] ∧ r.work.parties = [] ∧ r.work.invites = [] := by
  rw [h]
  exact ⟨rfl, rfl, rfl⟩

end Stages

section Own

theorem locks_pass (hg : (stmt t a).guard d) :
    Locks.Passes t d.locks (stmt t a).before.locksHeld ((stmt t a).change d).locks
      ((stmt t a).after d).locksHeld := by
  -- the statements whose stage depends on the job
  have hstage : ∀ (r : Run) (st : Stage), st ≠ .found →
      Locks.Passes t d.locks (Pc.run r st).locksHeld d.locks r.locks := by
    intro r st hst
    rw [locksHeld_run hst]
    exact .same
  cases a with
  | glanceAgain =>
    rw [change_glanceAgain, rests_locks rfl]
    exact .done
  | changed | commit | refuse | fail =>
    rw [rests_locks rfl]
    exact .release
  | lock r =>
    show Locks.Passes t d.locks [] (d.locks.take t r.lockKey)
      (if r.creates then [] else [r.lockKey])
    split
    · exact ⟨Locks.apart_take hg, fun _ => Locks.heldBy_nil⟩
    · exact .take hg
  | lead r st =>
    refine hstage r st ?_
    rcases leadStage_cases hg.1 with rfl | rfl <;> exact Stage.noConfusion
  | renewIn r st =>
    refine hstage r st ?_
    rcases renews_cases hg.1 with ⟨rfl, -⟩ | ⟨⟨revision, rfl⟩, -⟩ <;> exact Stage.noConfusion
  | remove r p st =>
    refine hstage r st ?_
    rcases (removal_cases hg.1).1 with rfl | rfl | rfl <;> exact Stage.noConfusion
  | draw r st =>
    refine hstage r st ?_
    rcases draws_cases hg with ⟨rfl, -⟩ | ⟨rfl, -⟩ | ⟨rfl, -⟩ <;> exact Stage.noConfusion
  | forget r p =>
    have hlocks : r.locks = [r.lockKey] := locks_of_creates (creates_of_removes (by rw [hg]; rfl))
    show Locks.Passes t d.locks r.locks d.locks [r.lockKey]
    rw [hlocks]
    exact .same
  | _ => exact .same

variable {r : Run} {st st' : Stage} {revision : Nat} {todo : List Uuid}

/-- A run with another stage. -/
theorem Pc.Sound.stage
    (h : (Pc.run r st).Sound)
    (hshape : r.Shape st') :
    (Pc.run r st').Sound :=
  ⟨h.members, h.parties, h.invites, hshape⟩

theorem Pc.Sound.patchMembers
    {cs : List (Patch Uuid MemberRow)}
    (h : (Pc.run r st).Sound)
    (hcs : ∀ c ∈ cs, Moves r.party c)
    (hshape : (r.patchMembers cs).Shape st') :
    (Pc.run (r.patchMembers cs) st').Sound := by
  refine ⟨?_, h.parties, h.invites, hshape⟩
  intro c hc
  rcases mem_append.1 hc with hc | hc
  · exact h.members c hc
  · exact ⟨r.party, rfl, hcs c hc⟩

theorem Pc.Sound.patchParties
    {cs : List (Patch Uuid PartyRow)}
    (h : (Pc.run r st).Sound)
    (hcs : ∀ c ∈ cs, c.key = r.party ∧ (r.creates = true ∨ c.old ≠ none))
    (hshape : (r.patchParties cs).Shape st') :
    (Pc.run (r.patchParties cs) st').Sound := by
  refine ⟨h.members, ?_, h.invites, hshape⟩
  intro c hc
  rcases mem_append.1 hc with hc | hc
  · exact h.parties c hc
  · obtain ⟨hkey, hc⟩ := hcs c hc
    refine ⟨congrArg some hkey.symm, hc.imp_left ?_⟩
    intro hcreates
    show (if r.creates then some r.party else none) = some c.key
    rw [if_pos hcreates, hkey]

theorem Pc.Sound.patchInvites
    {cs : List (Patch (Uuid × Uuid) InviteRow)}
    (h : (Pc.run r st).Sound)
    (hcs : ∀ c ∈ cs, c.key.1 = r.party ∨ c.new = none)
    (hshape : (r.patchInvites cs).Shape st') :
    (Pc.run (r.patchInvites cs) st').Sound := by
  refine ⟨h.members, h.parties, ?_, hshape⟩
  intro c hc
  rcases mem_append.1 hc with hc | hc
  · exact h.invites c hc
  · exact (hcs c hc).imp_left (fun hkey => congrArg some hkey.symm)

theorem deletes_reached
    {κ ρ : Type}
    [DecidableEq κ]
    {T : Table κ Sess ρ}
    {f : κ → ρ → Bool}
    {k : κ} :
    Deletes (T.reached t f k) :=
  fun _ hc => (mem_reached hc).2.1

/-- A member is removed. -/
theorem Pc.Sound.remove
    {row : MemberRow}
    (h : (Pc.run r st).Sound)
    (hg : r.job.removal = some (p, st))
    (hrow : row.party = r.party) :
    (Pc.run (r.patchMembers [patch p (some row) none]) .written).Sound := by
  obtain ⟨hst, hrem⟩ := removal_cases hg
  obtain ⟨hwork, hcreates⟩ := Run.Shape.untouched h.shape (.inr hst)
  obtain ⟨hmembers, hparties, hinvites⟩ := Run.idle hwork
  refine h.patchMembers ?_ ⟨hparties, fun _ => ⟨?_, hinvites⟩, false_true_elim hcreates⟩
  · exact forall_mem_singleton.2 (moves_delete rfl rfl hrow)
  · show Deletes (r.work.members ++ [patch p (some row) none])
    rw [hmembers]
    exact forall_mem_singleton.2 rfl

/-- The party is founded. -/
theorem Pc.Sound.insertParty
    {me : Uuid}
    (h : (Pc.run r (.drawn (some me) revision)).Sound)
    (hjob : r.job = .create me) :
    (Pc.run (r.patchParties [patch r.party none (some ⟨me, revision⟩)])
      (.placed revision todo)).Sound := by
  have hcreates : r.creates = true := by
    unfold Run.creates
    rw [hjob]
  obtain ⟨hpar, -, hfounds⟩ := h.shape
  refine h.patchParties ?_ ⟨false_true_elim ?_, fun _ => ⟨hfounds hcreates, ?_⟩⟩
  · exact forall_mem_singleton.2 ⟨rfl, .inl hcreates⟩
  · show r.job.removes = false
    rw [hjob]
    rfl
  · show r.work.parties ++ [patch r.party none (some ⟨me, revision⟩)] =
      [patch r.party none (some ⟨r.job.me, revision⟩)]
    rw [hpar, hjob]
    rfl

/-- The party is stamped. -/
theorem Pc.Sound.updateParty {leader : Option Uuid} (h : (Pc.run r (.drawn leader revision)).Sound)
    (hjob : r.job ≠ .create r.job.me) :
    (Pc.run (r.patchParties (d.stamp t r.party leader revision))
      (.placed revision todo)).Sound := by
  obtain ⟨hpar, hdel, -⟩ := h.shape
  refine h.patchParties ?_ ⟨?_, ?_⟩
  · intro c hc
    obtain ⟨row, -, rfl⟩ := mem_stamp hc
    exact ⟨rfl, .inr (some_ne_none row)⟩
  · intro hrem
    obtain ⟨hmem, hinv⟩ := hdel hrem
    refine ⟨hmem, ?_⟩
    show Deletes r.work.invites
    rw [hinv]
    exact deletes_nil
  · intro hcreates
    exact absurd (creates_iff.1 hcreates) hjob

/-- A purge goes on to the invites of its player. -/
theorem Pc.Sound.forget
    (h : (Pc.run r (.placed revision [])).Sound)
    (hrem : r.job.removes = true) :
    (Pc.forget p (some r.party) r.work .listing).Sound := by
  refine ⟨h.members, ?_, h.invites, (h.shape.1 hrem).2⟩
  intro c hc
  obtain ⟨hparty, hdrawn⟩ := h.parties c hc
  refine ⟨hparty, .inr (hdrawn.resolve_left ?_)⟩
  show (if r.creates then some r.party else none) ≠ some c.key
  rw [creates_of_removes hrem]
  exact (some_ne_none c.key).symm

theorem sound_own
    (hg : (stmt t a).guard d)
    (h : (stmt t a).before.Sound) :
    ((stmt t a).after d).Sound := by
  cases a with
  | createInsert me party =>
    refine ⟨?_, ?_, ?_, rfl, ?_, fun _ => ⟨_, rfl, rfl⟩⟩
    · exact forall_mem_singleton.2 ⟨party, rfl, moves_insert rfl⟩
    · intro c hc
      cases hc
    · intro c hc
      cases hc
    · intro hrem
      cases hrem
  | inviteOpen | acceptOpen | purgeFind | passNext => exact sound_nothing rfl ⟨rfl, rfl⟩
  | findParty => exact sound_nothing rfl ⟨rfl, creates_of_seeks hg.1⟩
  | purgeNone | passExpire => exact sound_nothing rfl deletes_nil
  | lock | confirm | vacant | present | count | choose => exact h.stage h.shape
  | lead =>
    refine h.stage (Run.Shape.untouched h.shape ?_)
    rcases leadStage_cases hg.1 with rfl | rfl
    · exact .inr (.inr (.inr rfl))
    · exact .inr (.inl rfl)
  | renewIn r =>
    refine h.patchMembers ?_ ?_
    · intro c hc
      obtain ⟨row, -, rfl⟩ := mem_renewal hc
      exact moves_renewal _ _ _ _
    · rcases renews_cases hg.1 with ⟨rfl, -⟩ | ⟨⟨revision, rfl⟩, hrem⟩
      · obtain ⟨hwork, hcreates⟩ := h.shape
        exact ⟨hcreates, fun _ => (Run.idle hwork).2⟩
      · exact ⟨creates_of_removes hrem, fun hnot => false_true_elim hnot hrem⟩
  | upsertInvite =>
    refine h.patchInvites ?_ h.shape.1
    exact forall_mem_singleton.2 (.inl rfl)
  | consume r =>
    obtain ⟨hwork, hcreates⟩ := h.shape
    obtain ⟨hmembers, hparties, -⟩ := Run.idle hwork
    refine h.patchInvites ?_ ⟨hmembers, hparties, ?_, hcreates⟩
    · exact forall_mem_singleton.2 (.inr rfl)
    · obtain ⟨invite, hjob⟩ := job_of_consumable hg.1 hg.2.1
      show r.job.joins = true
      rw [hjob]
      rfl
  | join =>
    obtain ⟨hmem, hpar, hjoins, hcreates⟩ := h.shape
    have hrem := removes_of_joins hjoins
    refine h.patchMembers ?_ ⟨hpar, false_true_elim hrem, false_true_elim hcreates⟩
    exact forall_mem_singleton.2 (moves_insert rfl)
  | remove => exact h.remove hg.1 hg.2.2.2
  | setReady r =>
    obtain ⟨hwork, hcreates⟩ := h.shape
    refine h.patchMembers ?_ ⟨(Run.idle hwork).2.1, false_true_elim ?_, false_true_elim hcreates⟩
    · exact forall_mem_singleton.2 (moves_same_party hg.2.2.2 hg.2.2.2)
    · show r.job.removes = false
      rw [hg.1]
      rfl
  | scanExpired r =>
    obtain ⟨hwork, hcreates⟩ := h.shape
    obtain ⟨hmembers, hparties, hinvites⟩ := Run.idle hwork
    refine h.stage ⟨?_, hparties, hinvites, ?_, hcreates⟩
    · rw [hmembers]
      exact deletes_nil
    · have hsweeps : r.job.sweeps = true := hg
      cases hj : r.job with
      | sweep => rfl
      | _ =>
        rw [hj] at hsweeps
        cases hsweeps
  | expireMember =>
    refine h.patchMembers ?_ ⟨h.shape.1.append deletes_reached, h.shape.2⟩
    intro c hc
    obtain ⟨-, hnew, row, -, hf, hold⟩ := mem_reached hc
    refine moves_delete hold hnew ?_
    have hf := (Bool.and_eq_true_iff.1 hf).1
    simpa using hf
  | expired =>
    obtain ⟨hdel, hpar, hinv, hrem, hcreates⟩ := h.shape
    exact h.stage ⟨hpar, fun _ => ⟨hdel, hinv⟩, false_true_elim hcreates⟩
  | draw =>
    refine h.stage ?_
    rcases draws_cases hg with ⟨rfl, -⟩ | ⟨rfl, hrem, -⟩ | ⟨rfl, -⟩
    · exact h.shape
    · obtain ⟨hcreates, hempty⟩ := h.shape
      exact ⟨(hempty hrem).1, false_true_elim hrem, false_true_elim hcreates⟩
    · exact h.shape
  | insertParty => exact h.insertParty hg.1
  | updateParty => exact h.updateParty hg.1
  | scanInvites =>
    obtain ⟨hpar, hdel, -⟩ := h.shape
    refine h.stage ⟨hpar, hg, creates_of_removes hg, (hdel hg).1, ?_⟩
    rw [(hdel hg).2]
    exact deletes_nil
  | clearInvite =>
    obtain ⟨hpar, hrem, hcreates, hmem, hinv⟩ := h.shape
    refine h.patchInvites ?_ ⟨hpar, hrem, hcreates, hmem, hinv.append deletes_reached⟩
    exact fun c hc => .inr (deletes_reached c hc)
  | deleteParty =>
    obtain ⟨hpar, hrem, hcreates, hmem, hinv⟩ := h.shape
    refine h.patchParties ?_ ⟨fun _ => ⟨hmem, hinv⟩, false_true_elim hcreates⟩
    intro c hc
    obtain ⟨hkey, -, row, -, -, hold⟩ := mem_reached hc
    exact ⟨hkey, .inr (by rw [hold]; exact some_ne_none row)⟩
  | record | scanInvolving | forgetRevision => exact ⟨h.members, h.parties, h.invites, h.shape⟩
  | forget =>
    refine h.forget ?_
    rw [hg]
    rfl
  | clearInvolving | expireInvite =>
    refine ⟨h.members, h.parties, ?_, Deletes.append h.shape deletes_reached⟩
    intro c hc
    rcases mem_append.1 hc with hc | hc
    · exact h.invites c hc
    · exact .inr (deletes_reached c hc)
  | glanceAgain | changed | commit | refuse | fail =>
    exact rests_after rfl (sound_nothing rfl trivial) (fun _ _ _ => sound_nothing rfl trivial)
      (fun _ => sound_nothing rfl trivial)
  | _ => exact sound_nothing rfl trivial

theorem sound_reachable (h : system.Reachable G w) : ∀ t, (w.pc t).Sound :=
  pc_invariant (X := programs) Pc.Sound (sound_nothing rfl trivial)
    (fun _ _ _ _ _ en => sound_own en.2) h

theorem locks_held (h : system.Reachable G w) : ∀ t, w.data.locks.HeldBy t (w.pc t).locksHeld :=
  holds_locks (X := programs) Data.locks Pc.locksHeld rfl
    (fun _ _ _ => locks_pass) h

end Own

section Keeps

/-- A session holds exactly what its program point lists. -/
structure Keeps (d : Data) (t : Sess) (pc : Pc) : Prop where
  members : d.members.Made t pc.work.members
  parties : d.parties.Made t pc.work.parties
  invites : d.invites.Made t pc.work.invites

theorem deletes_of_renews
    {r : Run}
    {st : Stage}
    (hren : r.job.Renews st)
    (hshape : r.Shape st) :
    Deletes r.work.members := by
  rcases renews_cases hren with ⟨rfl, -⟩ | ⟨⟨_, rfl⟩, hrem⟩
  · rw [hshape.1]
    exact deletes_nil
  · exact (hshape.1 hrem).1

section

variable (hg : (stmt t a).guard d) (hs : (stmt t a).before.Sound)
include hg hs

theorem members_edits :
    d.members.Edits t (stmt t a).before.work.members ((stmt t a).change d).members
      ((stmt t a).after d).work.members := by
  cases a with
  | renew => exact .put hg.1
  | createInsert me party joinedAt leaseUntil =>
    exact .first (patch me none (some ⟨party, .notReady, joinedAt, leaseUntil⟩)) rfl hg.2.1 hg.2.2
  | renewIn r st leaseUntil =>
    show Table.Edits _ t _ (writeAll d.members t (d.renewal t r.job.me leaseUntil))
      (r.work.members ++ d.renewal t r.job.me leaseUntil)
    unfold Data.renewal
    split
    · rename_i row hrow
      exact .seen (patch r.job.me (some row) (some _)) (deletes_of_renews hg.1 hs.shape)
        (hg.2 (by rw [hrow]; exact some_ne_none row)) hrow rfl
    · rw [append_nil]
      exact .same
  | join r me joinedAt leaseUntil =>
    exact .first (patch me none (some ⟨r.party, .notReady, joinedAt, leaseUntil⟩)) hs.shape.1
      hg.2.1 hg.2.2
  | remove r p st row =>
    have hwork := (Run.Shape.untouched hs.shape (.inr (removal_cases hg.1).1)).1
    exact .first (patch p (some row) none) (congrArg Work.members hwork) hg.2.1 hg.2.2.1
  | setReady r me state row leaseUntil =>
    exact .first (patch me (some row) (some { row with ready := state, leaseUntil := leaseUntil }))
      (congrArg Work.members hs.shape.1) hg.2.1 hg.2.2.1
  | expireMember r => exact .deleteWhere (lapsed r.party r.now) hs.shape.1 hg.2
  | glanceAgain =>
    rw [change_glanceAgain, rests_work rfl]
    exact .same
  | commit =>
    rw [rests_work rfl]
    exact .commit
  | changed | refuse | fail =>
    rw [rests_work rfl]
    exact .rollback
  | _ => exact .same

theorem parties_edits :
    d.parties.Edits t (stmt t a).before.work.parties ((stmt t a).change d).parties
      ((stmt t a).after d).work.parties := by
  cases a with
  | insertParty r me revision =>
    exact .first (patch r.party none (some ⟨me, revision⟩)) hs.shape.1 hg.2.1 hg.2.2
  | updateParty r leader revision =>
    show Table.Edits _ t _ (writeAll d.parties t (d.stamp t r.party leader revision))
      (r.work.parties ++ d.stamp t r.party leader revision)
    unfold Data.stamp
    split
    · rename_i row hrow
      exact .seen (patch r.party (some row) (some _)) (hs.shape.1 ▸ deletes_nil)
        (hg.2.2 (by rw [hrow]; exact some_ne_none row)) hrow rfl
    · rw [append_nil]
      exact .same
  | deleteParty =>
    exact .deleteWhere (fun _ _ => true) (hs.shape.1 ▸ deletes_nil) hg
  | glanceAgain =>
    rw [change_glanceAgain, rests_work rfl]
    exact .same
  | commit =>
    rw [rests_work rfl]
    exact .commit
  | changed | refuse | fail =>
    rw [rests_work rfl]
    exact .rollback
  | _ => exact .same

theorem invites_edits :
    d.invites.Edits t (stmt t a).before.work.invites ((stmt t a).change d).invites
      ((stmt t a).after d).work.invites := by
  cases a with
  | decline => exact .put hg.2.2.2
  | upsertInvite r me target =>
    have hrem : r.job.removes = false := by rw [hg.1]; rfl
    exact .first (patch (r.party, target) _ (some _)) (hs.shape.2 hrem).2 hg.2.2 rfl
  | consume r me row =>
    exact .first (patch (r.party, me) (some row) none) (congrArg Work.invites hs.shape.1) hg.2.2
      (committed_of_consumable hg.1 hg.2.1)
  | clearInvite r => exact .deleteWhere (invitesTo r.party) hs.shape.2.2.2.2 hg.2
  | clearInvolving p => exact .deleteWhere (involves p) hs.shape hg.2
  | expireInvite now => exact .deleteWhere (outdated now) hs.shape hg.2
  | glanceAgain =>
    rw [change_glanceAgain, rests_work rfl]
    exact .same
  | commit =>
    rw [rests_work rfl]
    exact .commit
  | changed | refuse | fail =>
    rw [rests_work rfl]
    exact .rollback
  | _ => exact .same

end

theorem sound_before
    (h : system.Reachable G w)
    (en : system.enabled w (t, a)) :
    (stmt t a).before.Sound :=
  en.1 ▸ sound_reachable h t

theorem keeps_reachable (h : system.Reachable G w) : ∀ t, Keeps w.data t (w.pc t) := fun t =>
  ⟨made_reachable (X := programs) Data.members (fun pc => pc.work.members) rfl rfl
      (fun _ _ _ hr en => members_edits en.2 (sound_before hr en)) h t,
    made_reachable (X := programs) Data.parties (fun pc => pc.work.parties) rfl rfl
      (fun _ _ _ hr en => parties_edits en.2 (sound_before hr en)) h t,
    made_reachable (X := programs) Data.invites (fun pc => pc.work.invites) rfl rfl
      (fun _ _ _ hr en => invites_edits en.2 (sound_before hr en)) h t⟩

end Keeps

section Views

variable {pc : Pc} {party : Uuid}

/-- The party rows that a session sees. -/
theorem Keeps.view_parties
    (h : Keeps d t pc)
    (hs : pc.Sound)
    (party : Uuid) :
    d.parties.view t party = d.parties.committed party ∨
      (pc.party = some party ∧ (pc.drawn = some party ∨ d.parties.committed party ≠ none)) := by
  rcases h.parties.view_cases party with ⟨hsame, -⟩ | ⟨c, hc, rfl, hold, -⟩
  · exact .inl hsame
  · refine .inr ?_
    rw [hold]
    exact hs.parties c hc

/-- The seats that a session sees. -/
theorem Keeps.view_seat
    (h : Keeps d t pc)
    (hs : pc.Sound)
    (hne : pc.party ≠ some party)
    (p : Uuid) :
    seat party (d.members.view t p) = seat party (d.members.committed p) := by
  rcases h.members.view_cases p with ⟨hsame, -⟩ | ⟨c, hc, rfl, hold, hnew⟩
  · rw [hsame]
  · obtain ⟨_, hparty', hmoves⟩ := hs.members c hc
    rw [hold, hnew]
    refine hmoves party ?_
    rintro rfl
    exact hne hparty'

/-- The invites that a session sees. -/
theorem Keeps.view_invite
    (h : Keeps d t pc)
    (hs : pc.Sound)
    {k : Uuid × Uuid}
    (hne : pc.party ≠ some k.1) :
    d.invites.view t k = d.invites.committed k ∨ d.invites.view t k = none := by
  rcases h.invites.view_cases k with ⟨hsame, -⟩ | ⟨c, hc, rfl, -, hnew⟩
  · exact .inl hsame
  · rcases hs.invites c hc with hparty | hdel
    · exact absurd hparty hne
    · exact .inr (hnew.trans hdel)

end Views

section Drawn

variable {party : Uuid}

theorem uuids_grow (h : party ∈ d.uuids) : party ∈ ((stmt t a).change d).uuids := by
  cases a with
  | createInsert | upsertInvite => exact mem_cons_of_mem _ h
  | glanceAgain =>
    rw [change_glanceAgain]
    exact h
  | _ => exact h

theorem drawn_rests (ha : a.rests = true) : ((stmt t a).after d).drawn = none :=
  rests_after (P := fun pc => pc.drawn = none) ha rfl (fun _ _ _ => rfl) (fun _ => rfl)

theorem drawn_own
    (hg : (stmt t a).guard d)
    (h : ((stmt t a).after d).drawn = some party) :
    (stmt t a).before.drawn = some party ∨
      (party ∉ d.uuids ∧ party ∈ ((stmt t a).change d).uuids) := by
  cases a with
  | createInsert =>
    cases h
    exact .inr ⟨hg.1, mem_cons_self⟩
  | findParty j outer inner party now =>
    have hcreates := creates_of_seeks (r := ⟨j, party, outer, inner, now, .none⟩) hg.1
    exact absurd ((if_neg (by rw [hcreates]; decide)).symm.trans h) (by simp)
  | glanceAgain | changed | commit | refuse | fail =>
    exact absurd ((drawn_rests rfl).symm.trans h) (by simp)
  | _ => first | exact .inl h | cases h

/-- The party ids that sessions have drawn are known, and no two sessions have drawn
the same. -/
theorem drawn_reachable (h : system.Reachable G w) :
    (∀ t party, (w.pc t).drawn = some party → party ∈ w.data.uuids) ∧
      ∀ t u party, (w.pc t).drawn = some party → (w.pc u).drawn = some party → t = u :=
  fresh_ids (X := programs) Data.uuids Pc.drawn rfl
    (fun _ _ _ _ _ => uuids_grow) (fun _ _ _ _ => drawn_own) h

/-- The `COMMIT` of a session shows what the session sees. -/
theorem parties_commit
    (hr : system.Reachable G w)
    (t : Sess)
    (party : Uuid) :
    (w.data.parties.commit t).committed party = w.data.parties.committed party ∨
      ((w.pc t).party = some party ∧
        ((w.pc t).drawn = some party ∨ w.data.parties.committed party ≠ none)) := by
  rw [committed_commit]
  exact (keeps_reachable hr t).view_parties (sound_reachable hr t) party

/-- The parties have ids that were drawn. -/
theorem listed_reachable (h : system.Reachable G w) :
    ∀ party, w.data.parties.committed party ≠ none → party ∈ w.data.uuids := by
  refine data_invariant (X := programs)
    (I := fun d => ∀ party, d.parties.committed party ≠ none → party ∈ d.uuids) ?_ ?_ h
  · exact fun party hparty => absurd rfl hparty
  intro _ t a hr _ _ hlisted party hparty
  refine uuids_grow ?_
  rcases exists_or_ne Act.commit a with ⟨_, _, rfl⟩ | hquiet
  · rcases parties_commit hr t party with hsame | ⟨-, hdrawn | hold⟩
    · exact hlisted party (hsame ▸ hparty)
    · exact (drawn_reachable hr).1 t party hdrawn
    · exact hlisted party hold
  · refine hlisted party ?_
    rwa [← parties_quiet (t := t) hquiet]

/-- A session that is about to create a party does not find it. -/
theorem unborn_reachable (h : system.Reachable G w) :
    ∀ t party, (w.pc t).drawn = some party → w.data.parties.committed party = none := by
  refine local_invariant (X := programs)
    (L := fun d _ pc => ∀ party, pc.drawn = some party → d.parties.committed party = none)
    ?_ ?_ ?_ h
  · intro _ _ hdrawn
    cases hdrawn
  · intro _ _ a hr _ en hunborn party hdrawn
    have hquiet : ∀ pc answers, a ≠ .commit pc answers := by
      rintro pc answers rfl
      cases (drawn_rests (a := .commit pc answers) rfl).symm.trans hdrawn
    refine (parties_quiet hquiet party).trans ?_
    rcases drawn_own en.2 hdrawn with hold | ⟨hfresh, -⟩
    · exact hunborn party hold
    · by_contra hparty
      exact hfresh (listed_reachable hr party hparty)
  · intro _ t a u hr _ _ hu hunborn party hdrawn
    rcases exists_or_ne Act.commit a with ⟨_, _, rfl⟩ | hquiet
    · rcases parties_commit hr t party with hsame | ⟨-, hdrawn' | hold⟩
      · exact hsame.trans (hunborn party hdrawn)
      · exact absurd ((drawn_reachable hr).2 u t party hdrawn hdrawn') hu
      · exact absurd (hunborn party hdrawn) hold
    · exact (parties_quiet hquiet party).trans
        (hunborn party hdrawn)

end Drawn

end Swarog.Party
