import Swarog.Party.Sessions

/-!
# Parties, their leaders and their invites

A party is led by one of its members, or it is gone with all that belongs to it
(`Snap.Fit`).  A session that holds the lock of a party knows who sits in it: while it
holds the lock, the other sessions can only take invites away (`Snap.Calm`).

`Pc.Facts` lists what a session knows at each program point about the rows it sees, once
it has seen that the party exists (`Pc.Told`).  Every `COMMIT` leaves fit parties behind
because of it.
-/

namespace Swarog.Party

open Pg Table List Option

section Fitness

/-- Parties, members and invites, as committed or as a session sees them. -/
structure Snap where
  parties : Uuid → Option PartyRow
  members : Uuid → Option MemberRow
  invites : Uuid × Uuid → Option InviteRow

/-- What is committed. -/
def Data.snap (d : Data) : Snap where
  parties := d.parties.committed
  members := d.members.committed
  invites := d.invites.committed

/-- What the statements of `t` see. -/
def Data.sees (d : Data) (t : Sess) : Snap where
  parties := d.parties.view t
  members := d.members.view t
  invites := d.invites.view t

namespace Snap

/-- The player is a member of the party. -/
def Seated (s : Snap) (party p : Uuid) : Prop := seat party (s.members p) ≠ none

/-- The party exists and its leader is one of its members. -/
def Led (s : Snap) (party : Uuid) : Prop :=
  ∃ row, s.parties party = some row ∧ s.Seated party row.leader

/-- The party does not exist, and nothing belongs to it. -/
def Gone (s : Snap) (party : Uuid) : Prop :=
  s.parties party = none ∧ (∀ p, ¬ s.Seated party p) ∧ ∀ q, s.invites (party, q) = none

def Fit (s : Snap) (party : Uuid) : Prop := s.Led party ∨ s.Gone party

/-- What has happened to a party while somebody held its lock. -/
structure Calm (s s' : Snap) (party : Uuid) : Prop where
  parties : s'.parties party = s.parties party
  seats : ∀ p, seat party (s'.members p) = seat party (s.members p)
  invites : ∀ q, s'.invites (party, q) = s.invites (party, q) ∨ s'.invites (party, q) = none

variable {s s' : Snap} {party p q : Uuid}

theorem Calm.seated (hc : Calm s s' party) : s'.Seated party p ↔ s.Seated party p := by
  unfold Seated
  rw [hc.seats]

theorem Calm.invite
    (hc : Calm s s' party)
    (h : s'.invites (party, q) ≠ none) :
    s.invites (party, q) ≠ none := by
  rcases hc.invites q with hsame | hnone
  · rwa [← hsame]
  · exact absurd hnone h

theorem Led.calm (h : s.Led party) (hc : Calm s s' party) : s'.Led party := by
  obtain ⟨row, hrow, hseat⟩ := h
  exact ⟨row, hc.parties.trans hrow, hc.seated.2 hseat⟩

theorem Gone.calm (h : s.Gone party) (hc : Calm s s' party) : s'.Gone party := by
  obtain ⟨hparty, hseats, hinvites⟩ := h
  refine ⟨hc.parties.trans hparty, fun p hp => hseats p (hc.seated.1 hp), ?_⟩
  intro q
  by_contra hq
  exact hc.invite hq (hinvites q)

theorem Fit.calm (h : s.Fit party) (hc : Calm s s' party) : s'.Fit party :=
  h.imp (fun hled => hled.calm hc) (fun hgone => hgone.calm hc)

theorem Led.exists (h : s.Led party) : s.parties party ≠ none := by
  obtain ⟨row, hrow, -⟩ := h
  rw [hrow]
  exact some_ne_none row

/-- A party with a member is led. -/
theorem Fit.led_of_seated
    (h : s.Fit party)
    (hp : s.Seated party p) :
    s.Led party := by
  rcases h with hled | ⟨-, hseats, -⟩
  · exact hled
  · exact absurd hp (hseats p)

/-- A party with an invite is led. -/
theorem Fit.led_of_invite
    (h : s.Fit party)
    (hq : s.invites (party, q) ≠ none) :
    s.Led party := by
  rcases h with hled | ⟨-, -, hinvites⟩
  · exact hled
  · exact absurd (hinvites q) hq

end Snap

end Fitness

section Facts

namespace Run

/-- The player that `promote` promotes is a member. -/
def Target (V : Snap) (r : Run) : Prop :=
  ∀ me target, r.job = .promote me target → V.Seated r.party target

/-- The leader that is about to be written is a member.  Without one nobody is left
after a removal, and the leader stays otherwise. -/
def Elected (V : Snap) (r : Run) : Option Uuid → Prop
  | some q => V.Seated r.party q
  | none => (r.job.removes = true → ∀ p, ¬ V.Seated r.party p) ∧
      (r.job.removes = false → V.Led r.party)

/-- The transaction has seen that its party exists. -/
def Told (r : Run) : Stage → Prop
  | .found | .locked => False
  | .deleting _ => r.work.members ≠ []
  | _ => r.creates = false

/-- What a transaction knows about the rows it sees. -/
def Facts (V : Snap) (r : Run) : Stage → Prop
  | .found | .locked | .deleting _ => True
  | .begun | .led | .consumed | .roomy | .invited _ _ => V.Led r.party
  | .checked => V.Led r.party ∧ r.Target V
  | .renewed => V.Fit r.party ∧ (r.job.removes = false → V.Led r.party ∧ r.Target V)
  | .written => r.job.removes = false → V.Led r.party
  | .chosen leader | .drawn leader _ => r.Elected V leader
  | .clearing _ todo => (∀ p, ¬ V.Seated r.party p) ∧
      ∀ q, V.invites (r.party, q) ≠ none → (r.party, q) ∈ todo
  | .placed _ _ => V.Fit r.party

end Run

namespace Pc

def Told : Pc → Prop
  | .run r st => r.Told st
  | .forget _ _ _ _ => True
  | _ => False

def Facts (V : Snap) : Pc → Prop
  | .run r st => r.Facts V st
  | .forget _ (some party) _ _ => V.Fit party
  | _ => True

end Pc

variable {V V' : Snap} {r : Run} {st : Stage} {pc : Pc} {party : Uuid}

theorem Run.Elected.calm
    {leader : Option Uuid}
    (h : r.Elected V leader)
    (hc : V.Calm V' r.party) :
    r.Elected V' leader := by
  cases leader with
  | some => exact hc.seated.2 h
  | none => refine ⟨fun hrem p hp => h.1 hrem p (hc.seated.1 hp), fun hrem => (h.2 hrem).calm hc⟩

theorem Run.Target.calm (h : r.Target V) (hc : V.Calm V' r.party) : r.Target V' :=
  fun me target hjob => hc.seated.2 (h me target hjob)

theorem Run.Facts.calm
    (h : r.Facts V st)
    (hc : V.Calm V' r.party) :
    r.Facts V' st := by
  cases st with
  | found | locked | deleting => trivial
  | begun | led | consumed | roomy | invited => exact Snap.Led.calm h hc
  | checked => exact ⟨h.1.calm hc, h.2.calm hc⟩
  | renewed => exact ⟨h.1.calm hc, fun hrem => ⟨(h.2 hrem).1.calm hc, (h.2 hrem).2.calm hc⟩⟩
  | written => exact fun hrem => (h hrem).calm hc
  | chosen | drawn => exact Run.Elected.calm h hc
  | clearing => exact ⟨fun p hp => h.1 p (hc.seated.1 hp), fun q hq => h.2 q (hc.invite hq)⟩
  | placed => exact Snap.Fit.calm h hc

theorem Pc.Facts.calm
    (h : pc.Facts V)
    (hparty : pc.party = some party)
    (hc : V.Calm V' party) :
    pc.Facts V' := by
  cases pc with
  | run =>
    cases hparty
    exact Run.Facts.calm h hc
  | forget =>
    cases hparty
    exact Snap.Fit.calm h hc
  | _ => exact h

end Facts

variable {G : World Data Pc → Sess × Act → Prop}
variable {w : World Data Pc} {t u : Sess} {a : Act} {d d' : Data} {p party : Uuid}

section Calm

/-- What happens to the committed rows of a party that a session sees happens to what the
session sees, unless it has written the row itself. -/
theorem calm_sees
    (hm : Table.Undisturbed t d.members d'.members)
    (hp : Table.Undisturbed t d.parties d'.parties)
    (hi : Table.Undisturbed t d.invites d'.invites)
    (hc : d.snap.Calm d'.snap party) :
    (d.sees t).Calm (d'.sees t) party where
  parties := by
    rcases hp.view_cases party with hsame | ⟨hold, hnew⟩
    · exact hsame
    · exact hnew.trans (hc.parties.trans hold.symm)
  seats := by
    intro p
    rcases hm.view_cases p with hsame | ⟨hold, hnew⟩
    · exact congrArg (seat party) hsame
    · show seat party (d'.members.view t p) = seat party (d.members.view t p)
      rw [hnew, hold]
      exact hc.seats p
  invites := by
    intro q
    rcases hi.view_cases (party, q) with hsame | ⟨hold, hnew⟩
    · exact .inl hsame
    · show d'.invites.view t (party, q) = d.invites.view t (party, q) ∨
        d'.invites.view t (party, q) = none
      rw [hold, hnew]
      exact hc.invites q

/-- The lock of the party is held, or the party is about to be created. -/
theorem holds_or_draws
    {pc : Pc}
    (hparty : pc.party = some party)
    (hresult : pc.result ≠ none) :
    partyLockKey party.text ∈ pc.locksHeld ∨ pc.drawn = some party := by
  cases pc with
  | run r st =>
    cases hparty
    have hst : st ≠ .found := by
      rintro rfl
      exact hresult rfl
    rw [locksHeld_run hst]
    cases hcreates : r.creates with
    | true => exact .inr (if_pos hcreates)
    | false =>
      rw [locks_of_creates hcreates]
      exact .inl mem_cons_self
  | forget =>
    cases hparty
    exact .inl mem_cons_self
  | _ => cases hparty

/-- A session that commits works on another party than the existing one whose lock `u`
holds. -/
theorem commits_elsewhere
    {answers : List Answer}
    (hr : system.Reachable G w)
    (hu : u ≠ t)
    (hresult : (w.pc t).result = some answers)
    (hlock : partyLockKey party.text ∈ (w.pc u).locksHeld)
    (hexists : w.data.parties.committed party ≠ none) :
    (w.pc t).party ≠ some party := by
  intro hparty
  rcases holds_or_draws hparty (by rw [hresult]; exact some_ne_none answers) with hk | hd
  · exact hu ((locks_held hr u).exclusive (locks_held hr t) hlock hk)
  · exact hexists (unborn_reachable hr t party hd)

/-- The `COMMIT` of a session that works on another party. -/
theorem calm_commit
    (hr : system.Reachable G w)
    (hne : (w.pc t).party ≠ some party) :
    w.data.snap.Calm (w.data.sees t) party where
  parties := by
    rcases (keeps_reachable hr t).view_parties (sound_reachable hr t) party with hsame | ⟨hp, -⟩
    · exact hsame
    · exact absurd hp hne
  seats := (keeps_reachable hr t).view_seat (sound_reachable hr t) hne
  invites := fun _ => (keeps_reachable hr t).view_invite (sound_reachable hr t) hne

theorem snap_commit
    (d : Data)
    (t : Sess)
    (answers : List Answer) :
    (d.commit t answers).snap = d.sees t := by
  unfold Data.snap Data.sees Data.commit
  congr 1 <;> exact funext (committed_commit t _)

/-- A statement that is no `COMMIT` takes invites away at most. -/
theorem calm_quiet
    (hg : (stmt t a).guard d)
    (hquiet : ∀ pc answers, a ≠ .commit pc answers) :
    d.snap.Calm ((stmt t a).change d).snap party where
  parties := parties_quiet hquiet party
  seats := by
    intro p
    cases a with
    | renew p' =>
      show seat party ((d.members.put p' _).committed p) = seat party (d.members.committed p)
      rw [committed_put]
      split
      · rename_i hp
        subst hp
        rw [hg.2]
        rfl
      · rfl
    | commit pc answers => exact absurd rfl (hquiet pc answers)
    | decline => rfl
    | _ => exact congrArg (seat party) (members_quiet rfl p)
  invites := by
    intro q
    cases a with
    | decline _ _ _ k =>
      show (d.invites.put k none).committed (party, q) = _ ∨ (d.invites.put k none).committed _ = _
      rw [committed_put]
      split
      · exact .inr rfl
      · exact .inl rfl
    | commit pc answers => exact absurd rfl (hquiet pc answers)
    | renew => exact .inl rfl
    | _ => exact .inl (invites_quiet rfl (party, q))

/-- While `u` holds the lock of an existing party, the others leave it alone. -/
theorem calm_of_lock
    (hr : system.Reachable G w)
    (en : system.enabled w (t, a))
    (hu : u ≠ t)
    (hlock : partyLockKey party.text ∈ (w.pc u).locksHeld)
    (hexists : w.data.parties.committed party ≠ none) :
    w.data.snap.Calm ((stmt t a).change w.data).snap party := by
  rcases exists_or_ne Act.commit a with ⟨_, answers, rfl⟩ | hquiet
  · have hresult : (w.pc t).result = some answers := en.1 ▸ en.2
    have hne := commits_elsewhere hr hu hresult hlock hexists
    simp only [stmt]
    rw [snap_commit]
    exact calm_commit hr hne
  · exact calm_quiet en.2 hquiet

end Calm

section Reads

variable {pc : Pc}

/-- A session that has written nothing sees what is committed. -/
theorem Keeps.sees_committed
    (h : Keeps d t pc)
    (hwork : pc.work = .none) :
    d.sees t = d.snap := by
  have hm := h.members
  have hp := h.parties
  have hi := h.invites
  rw [hwork] at hm hp hi
  have hno : ∀ {κ ρ : Type} (k : κ), ∀ c ∈ ([] : List (Patch κ ρ)), c.key ≠ k := by
    intro _ _ _ _ hc
    cases hc
  unfold Data.sees Data.snap
  congr 1
  · exact funext (fun k => hp.owes.view_same (hno k))
  · exact funext (fun k => hm.owes.view_same (hno k))
  · exact funext (fun k => hi.owes.view_same (hno k))

theorem Keeps.view_party_of_nil
    (h : Keeps d t pc)
    (hnil : pc.work.parties = []) :
    d.parties.view t party = d.parties.committed party := by
  refine h.parties.owes.view_same ?_
  rw [hnil]
  intro _ hc
  cases hc

/-- `party_of_tx` has found the party. -/
theorem seated_of_partyOf (h : d.partyOf t p = some party) : (d.sees t).Seated party p := by
  obtain ⟨m, hm, hparty⟩ := map_eq_some_iff.1 h
  exact seat_ne_none.2 ⟨m, hm, hparty⟩

/-- `led_party_tx` has found the party. -/
theorem led_of_led (h : d.led t p = some party) : (d.sees t).Led party := by
  obtain ⟨m, hm, h⟩ := bind_eq_some_iff.1 h
  obtain ⟨row, hrow, h⟩ := bind_eq_some_iff.1 h
  split at h
  · rename_i hleader
    cases h
    refine ⟨row, hrow, ?_⟩
    rw [hleader]
    exact seat_ne_none.2 ⟨m, hm, rfl⟩
  · cases h

theorem mem_seats : p ∈ d.seats t party ↔ (d.sees t).Seated party p := by
  unfold Data.seats Snap.Seated
  rw [mem_insertionSort, mem_select, seat_ne_none]
  simp only [beq_iff_eq]
  rfl

/-- What `settle_removal_tx` reads. -/
theorem elected_successor
    {r : Run}
    (hrem : r.job.removes = true)
    (hexists : d.parties.view t r.party ≠ none) :
    r.Elected (d.sees t) (d.successor t r.party) := by
  obtain ⟨_, hrow⟩ := ne_none_iff_exists'.1 hexists
  unfold Data.successor
  rw [hrow]
  dsimp only
  split
  · rename_i hleader
    exact mem_seats.1 hleader
  · cases hhead : (d.seats t r.party).head? with
    | some => exact mem_seats.1 (mem_of_head? hhead)
    | none =>
      refine ⟨fun _ p hp => ?_, fun hnot => false_true_elim hnot hrem⟩
      have hmem := mem_seats.2 hp
      rw [List.head?_eq_none_iff.1 hhead] at hmem
      cases hmem

end Reads

section Writes

variable {r : Run}

/-- A row in the party is written for a player. -/
theorem led_write
    {m : MemberRow}
    (h : (d.sees t).Led party)
    (hm : m.party = party) :
    Snap.Led (Data.sees { d with members := d.members.write t p (some m) } t) party := by
  obtain ⟨row, hrow, hseat⟩ := h
  refine ⟨row, hrow, ?_⟩
  show seat party ((d.members.write t p (some m)).view t row.leader) ≠ none
  by_cases hleader : row.leader = p
  · rw [hleader, view_write_self]
    exact seat_ne_none.2 ⟨m, rfl, hm⟩
  · rw [view_write_of_ne _ _ hleader]
    exact hseat

/-- A lease is renewed. -/
theorem calm_renewal
    (leaseUntil : Int) :
    (d.sees t).Calm
      (Data.sees { d with members := writeAll d.members t (d.renewal t p leaseUntil) } t)
      party where
  parties := rfl
  seats := by
    intro q
    unfold Data.renewal
    split
    · rename_i row hrow
      show seat party ((d.members.write t p _).view t q) = seat party (d.members.view t q)
      by_cases hq : q = p
      · rw [hq, view_write_self, hrow]
        rfl
      · rw [view_write_of_ne _ _ hq]
    · rfl
  invites := fun _ => .inl rfl

/-- A `DELETE` takes an invite away. -/
theorem calm_deleteWhere
    (f : Uuid × Uuid → InviteRow → Bool)
    (k : Uuid × Uuid) :
    (d.sees t).Calm
      (Data.sees { d with invites := d.invites.deleteWhere t f k } t) party where
  parties := rfl
  seats := fun _ => rfl
  invites := by
    intro q
    cases hview : (d.invites.deleteWhere t f k).view t (party, q) with
    | none => exact .inr hview
    | some => exact .inl (hview.trans (view_deleteWhere hview).1.symm)

/-- The party is stamped. -/
theorem led_stamp
    {leader : Option Uuid}
    {revision : Nat}
    (hexists : d.parties.view t r.party ≠ none)
    (hrem : r.job.removes = true → leader ≠ none)
    (h : r.Elected (d.sees t) leader) :
    Snap.Led (Data.sees
      { d with parties := writeAll d.parties t (d.stamp t r.party leader revision) } t)
      r.party := by
  obtain ⟨row, hrow⟩ := ne_none_iff_exists'.1 hexists
  refine ⟨⟨leader.getD row.leader, revision⟩, ?_, ?_⟩
  · unfold Data.stamp
    rw [hrow]
    exact view_write_self _ _ _ _
  · cases leader with
    | some => exact h
    | none =>
      have hnot : r.job.removes = false := by
        cases hr : r.job.removes with
        | false => rfl
        | true => exact absurd rfl (hrem hr)
      obtain ⟨row', hrow', hseat⟩ := h.2 hnot
      have heq : row' = row := some.inj (hrow'.symm.trans hrow)
      rw [heq] at hseat
      exact hseat

/-- The party is deleted. -/
theorem gone_delete
    (hseats : ∀ p, ¬ (d.sees t).Seated party p)
    (hinvites : ∀ q, d.invites.view t (party, q) = none) :
    Snap.Gone (Data.sees
      { d with parties := d.parties.deleteWhere t (fun _ _ => true) party } t) party := by
  refine ⟨?_, hseats, hinvites⟩
  cases hview : (d.parties.deleteWhere t (fun _ _ => true) party).view t party with
  | none => exact hview
  | some => exact absurd ⟨rfl, rfl⟩ (view_deleteWhere hview).2

end Writes

section Knows

/-- What a session that has seen its party knows. -/
def Knows (d : Data) (t : Sess) (pc : Pc) : Prop :=
  ∀ party, pc.party = some party → pc.Told → d.parties.committed party ≠ none ∧ pc.Facts (d.sees t)

variable {pc : Pc}

theorem knows_nothing (h : pc.party = none) : Knows d t pc := by
  intro _ hparty
  rw [h] at hparty
  cases hparty

/-- A session that has seen its party holds its lock. -/
theorem lock_of_told
    (hs : pc.Sound)
    (hparty : pc.party = some party)
    (h : pc.Told) :
    partyLockKey party.text ∈ pc.locksHeld := by
  cases pc with
  | run r st =>
    cases hparty
    have hst : st ≠ .found := by
      rintro rfl
      exact h
    have hcreates : r.creates = false := by
      cases st with
      | found | locked => exact h.elim
      | deleting => exact hs.shape.2.2.2.2
      | _ => exact h
    rw [locksHeld_run hst, locks_of_creates hcreates]
    exact mem_cons_self
  | forget =>
    cases hparty
    exact mem_cons_self
  | _ => cases hparty

theorem knows_other
    (hr : system.Reachable G w)
    (en : system.enabled w (t, a))
    (hu : u ≠ t)
    (h : Knows w.data u (w.pc u)) :
    Knows ((stmt t a).change w.data) u (w.pc u) := by
  intro party hparty htold
  obtain ⟨hexists, hfacts⟩ := h party hparty htold
  have hlock := lock_of_told (sound_reachable hr u) hparty htold
  have hcalm := calm_of_lock hr en hu hlock hexists
  have hne : some t ≠ some u := by simpa using Ne.symm hu
  refine ⟨?_, hfacts.calm hparty (calm_sees ?_ ?_ ?_ hcalm)⟩
  · have hsame : ((stmt t a).change w.data).parties.committed party =
        w.data.parties.committed party := hcalm.parties
    rwa [hsame]
  · exact (members_edits en.2 (sound_before hr en)).step.undisturbed hne
  · exact (parties_edits en.2 (sound_before hr en)).step.undisturbed hne
  · exact (invites_edits en.2 (sound_before hr en)).step.undisturbed hne

/-- A transaction without writes that finds its party led. -/
theorem Keeps.knows_led
    (hk : Keeps d t pc)
    (hwork : pc.work = .none)
    (h : d.snap.Led party) :
    d.parties.committed party ≠ none ∧ (d.sees t).Led party := by
  rw [hk.sees_committed hwork]
  exact ⟨h.exists, h⟩

section Statements

variable {r : Run} {st : Stage}

theorem knows_renewIn
    {leaseUntil : Int}
    (hg : r.job.Renews st)
    (h : Knows d t (.run r st)) :
    Knows { d with members := writeAll d.members t (d.renewal t r.job.me leaseUntil) } t
      (.run (r.patchMembers (d.renewal t r.job.me leaseUntil)) .renewed) := by
  intro _ hparty htold
  cases hparty
  rcases renews_cases hg with ⟨rfl, hrem⟩ | ⟨⟨revision, rfl⟩, hrem⟩
  · obtain ⟨hexists, hled, htarget⟩ := h r.party rfl htold
    have hled' := hled.calm (calm_renewal (p := r.job.me) leaseUntil)
    refine ⟨hexists, .inl hled', fun _ => ⟨hled', ?_⟩⟩
    exact htarget.calm (calm_renewal (p := r.job.me) leaseUntil)
  · obtain ⟨hexists, hfit⟩ := h r.party rfl htold
    refine ⟨hexists, Snap.Fit.calm hfit (calm_renewal leaseUntil), ?_⟩
    exact fun hnot => false_true_elim hnot hrem

/-- The party of a member whose lease has lapsed. -/
theorem Keeps.exists_of_reached
    (hk : Keeps d t pc)
    (now : Int)
    (hfit : d.snap.Fit party)
    (hdel : Deletes pc.work.members)
    (h : d.members.reached t (lapsed party now) p ≠ ([] : List (Patch Uuid MemberRow))) :
    d.parties.committed party ≠ none := by
  obtain ⟨c, hc⟩ := exists_mem_of_ne_nil _ h
  obtain ⟨-, -, row, hview, hlapsed, -⟩ := mem_reached hc
  have hcommitted := hk.members.owes.committed_of_unchanged
    (hk.members.owes.unchanged_of_view hdel hview) hview
  have hparty : row.party = party := by simpa using (Bool.and_eq_true_iff.1 hlapsed).1
  exact (hfit.led_of_seated (p := p) (seat_ne_none.2 ⟨row, hcommitted, hparty⟩)).exists

theorem knows_draw
    {leader : Option Uuid}
    {revision : Nat}
    (hg : r.job.draws st = some leader)
    (h : Knows d t (.run r st)) :
    Knows d t (.run r (.drawn leader revision)) := by
  intro _ hparty htold
  cases hparty
  rcases draws_cases hg with ⟨rfl, hrem, hjob⟩ | ⟨rfl, hrem, me, target, hjob, rfl⟩ | ⟨rfl, -⟩
  · have hleader : leader = none := by
      refine hjob.resolve_right ?_
      exact fun hcreate => false_true_elim htold (creates_iff.2 hcreate)
    subst hleader
    obtain ⟨hexists, hled⟩ := h r.party rfl htold
    exact ⟨hexists, false_true_elim hrem, hled⟩
  · obtain ⟨hexists, -, hfacts⟩ := h r.party rfl htold
    exact ⟨hexists, (hfacts hrem).2 me target hjob⟩
  · exact h r.party rfl htold

/-- An invite that a `DELETE` has left. -/
theorem mem_erase_of_left
    {q : Uuid}
    {k : Uuid × Uuid}
    {todo : List (Uuid × Uuid)}
    (h : d.invites.view t (party, q) ≠ none → (party, q) ∈ todo)
    (hq : (d.invites.deleteWhere t (invitesTo party) k).view t (party, q) ≠ none) :
    (party, q) ∈ todo.erase k := by
  obtain ⟨row, hrow⟩ := ne_none_iff_exists'.1 hq
  obtain ⟨hold, hkept⟩ := view_deleteWhere hrow
  have hne : (party, q) ≠ k := by
    rintro rfl
    exact hkept ⟨rfl, beq_self_eq_true _⟩
  refine (mem_erase_of_ne hne).2 (h ?_)
  rw [hold]
  exact some_ne_none row

end Statements

theorem knows_own
    (hg : (stmt t a).guard d)
    (hfit : ∀ party, d.snap.Fit party)
    (hs : (stmt t a).before.Sound)
    (hk : Keeps d t (stmt t a).before)
    (h : Knows d t (stmt t a).before) :
    Knows ((stmt t a).change d) t ((stmt t a).after d) := by
  intro party hparty htold
  cases a with
  | createInsert => cases htold
  | inviteOpen | acceptOpen | findParty | purgeFind | passNext | lock => exact htold.elim
  | confirm r =>
    cases hparty
    have hseat := seated_of_partyOf hg.2
    rw [hk.sees_committed hs.shape.1] at hseat
    exact hk.knows_led hs.shape.1 ((hfit r.party).led_of_seated hseat)
  | lead r =>
    cases hparty
    have hshape : r.work = .none ∧ r.creates = false := by
      rcases leadStage_cases hg.1 with rfl | rfl
      · exact hs.shape
      · exact hs.shape
    have hled := led_of_led hg.2
    rw [hk.sees_committed hshape.1] at hled
    exact hk.knows_led hshape.1 hled
  | vacant =>
    obtain ⟨hexists, hfacts⟩ := h party hparty htold
    refine ⟨hexists, hfacts, ?_⟩
    intro me' target' hjob
    rw [hg.1] at hjob
    cases hjob
  | present =>
    obtain ⟨hexists, hfacts⟩ := h party hparty htold
    refine ⟨hexists, hfacts, ?_⟩
    intro me' target' hjob
    rw [hg.1] at hjob
    cases hjob
    exact seated_of_partyOf hg.2
  | renewIn => exact knows_renewIn hg.1 h party hparty htold
  | upsertInvite =>
    obtain ⟨hexists, -, hfacts⟩ := h party hparty htold
    exact ⟨hexists, (hfacts (by rw [hg.1]; rfl)).1⟩
  | consume r me row =>
    cases hparty
    have hrow := committed_of_consumable hg.1 hg.2.1
    refine hk.knows_led hs.shape.1 ((hfit r.party).led_of_invite (q := me) ?_)
    show d.invites.committed (r.party, me) ≠ none
    rw [hrow]
    exact some_ne_none row
  | count | record => exact h party hparty htold
  | join r =>
    cases hparty
    obtain ⟨hexists, hled⟩ := h r.party rfl htold
    exact ⟨hexists, fun _ => led_write hled rfl⟩
  | remove r p st row =>
    cases hparty
    obtain ⟨-, hp, hrow⟩ := hg.2
    have hled : d.snap.Led r.party :=
      (hfit r.party).led_of_seated (p := p) (seat_ne_none.2 ⟨row, hp, hrow⟩)
    exact ⟨hled.exists, fun hnot => false_true_elim hnot (removal_cases hg.1).2⟩
  | setReady r =>
    cases hparty
    obtain ⟨hexists, hled⟩ := h r.party rfl htold
    exact ⟨hexists, fun _ => led_write hled hg.2.2.2⟩
  | scanExpired => exact absurd (congrArg Work.members hs.shape.1) htold
  | expireMember r todo p =>
    cases hparty
    refine ⟨?_, trivial⟩
    by_cases hold : r.work.members = []
    · show d.parties.committed r.party ≠ none
      refine hk.exists_of_reached (p := p) r.now (hfit r.party) hs.shape.1 ?_
      intro hnil
      refine htold ?_
      show r.work.members ++ _ = []
      rw [hold, hnil]
      rfl
    · exact (h r.party rfl hold).1
  | expired r =>
    cases hparty
    exact ⟨(h r.party rfl hg).1, fun hnot => false_true_elim hnot hs.shape.2.2.2.1⟩
  | choose r =>
    cases hparty
    obtain ⟨hexists, -⟩ := h r.party rfl htold
    refine ⟨hexists, elected_successor hg ?_⟩
    rwa [hk.view_party_of_nil hs.shape.1]
  | draw => exact knows_draw hg h party hparty htold
  | insertParty r =>
    have hcreates : r.creates = true := creates_iff.2 (by rw [hg.1]; rfl)
    exact false_true_elim htold hcreates
  | updateParty r =>
    cases hparty
    obtain ⟨hexists, helected⟩ := h r.party rfl htold
    refine ⟨?_, .inl (led_stamp ?_ hg.2.1 helected)⟩
    · rwa [parties_quiet (fun _ _ => Act.noConfusion)]
    · rwa [hk.view_party_of_nil hs.shape.1]
  | scanInvites r =>
    cases hparty
    obtain ⟨hexists, helected⟩ := h r.party rfl htold
    refine ⟨hexists, helected.1 hg, ?_⟩
    intro q hq
    obtain ⟨row, hrow⟩ := ne_none_iff_exists'.1 hq
    exact mem_select.2 ⟨row, hrow, beq_self_eq_true _⟩
  | clearInvite r revision todo k =>
    cases hparty
    obtain ⟨hexists, hseats, hinvites⟩ := h r.party rfl htold
    exact ⟨hexists, hseats, fun q hq => mem_erase_of_left (hinvites q) hq⟩
  | deleteParty r =>
    cases hparty
    obtain ⟨hexists, hseats, hinvites⟩ := h r.party rfl htold
    refine ⟨?_, .inr (gone_delete hseats ?_)⟩
    · rwa [parties_quiet (fun _ _ => Act.noConfusion)]
    · intro q
      by_contra hq
      cases hinvites q hq
  | forget r =>
    cases hparty
    refine h r.party rfl (creates_of_removes ?_)
    rw [hg]
    rfl
  | scanInvolving p party | forgetRevision p party =>
    cases hparty
    exact h party rfl htold
  | clearInvolving p party work todo k =>
    cases hparty
    obtain ⟨hexists, hfit⟩ := h party rfl htold
    exact ⟨hexists, Snap.Fit.calm hfit (calm_deleteWhere (involves p) k)⟩
  | glanceAgain | changed | commit | refuse | fail =>
    exact rests_after (P := fun pc => Knows _ t pc) rfl (knows_nothing rfl)
      (fun _ _ _ => knows_nothing rfl) (fun _ => knows_nothing rfl) party hparty htold
  | _ => exact knows_nothing rfl party hparty htold

/-- What a founder leaves. -/
theorem Keeps.founded
    {r : Run}
    {revision : Nat}
    {todo : List Uuid}
    (hk : Keeps d t (.run r (.placed revision todo)))
    (hs : (Pc.run r (.placed revision todo)).Sound)
    (hcreates : r.creates = true) :
    (d.sees t).Led r.party := by
  obtain ⟨⟨m, hmembers, hm⟩, hparties⟩ := hs.shape.2 hcreates
  refine ⟨⟨r.job.me, revision⟩, ?_, seat_ne_none.2 ⟨m, ?_, hm⟩⟩
  · refine hk.parties.owes.view_change (c := patch r.party none (some ⟨r.job.me, revision⟩)) ?_
    show _ ∈ r.work.parties
    rw [hparties]
    exact mem_cons_self
  · refine hk.members.owes.view_change (c := patch r.job.me none (some m)) ?_
    show _ ∈ r.work.members
    rw [hmembers]
    exact mem_cons_self

/-- A transaction that comes to its `COMMIT` sees its party fit. -/
theorem fit_of_result
    (hs : pc.Sound)
    (hk : Keeps d t pc)
    (h : Knows d t pc)
    (hparty : pc.party = some party)
    (hresult : pc.result ≠ none) :
    (d.sees t).Fit party := by
  cases pc with
  | run r st =>
    cases hparty
    cases st with
    | placed =>
      cases hcreates : r.creates with
      | true => exact .inl (hk.founded hs hcreates)
      | false => exact (h r.party rfl hcreates).2
    | renewed => exact (h r.party rfl hs.shape.1).2.1
    | invited => exact .inl (h r.party rfl hs.shape).2
    | _ => exact absurd rfl hresult
  | forget =>
    cases hparty
    exact (h party rfl trivial).2
  | _ => cases hparty

/-- Every party is fit, and the sessions know what they know. -/
theorem fit_reachable (h : system.Reachable G w) :
    (∀ party, w.data.snap.Fit party) ∧ ∀ t, Knows w.data t (w.pc t) := by
  refine Programs.joint_invariant (X := programs) (I := fun d => ∀ party, d.snap.Fit party)
    (L := Knows) ?_ (fun t => knows_nothing rfl) ?_ h
  · exact fun party => .inr ⟨rfl, fun p hp => hp rfl, fun _ => rfl⟩
  intro w t a hr _ en hfit hknows hknown
  have hown : Keeps w.data t (stmt t a).before := en.1 ▸ keeps_reachable hr t
  have hsound := sound_before hr en
  refine ⟨?_, knows_own en.2 hfit hsound hown hknown, fun u hu => knows_other hr en hu (hknows u)⟩
  intro party
  rcases exists_or_ne Act.commit a with ⟨pc, answers, rfl⟩ | hquiet
  · show (w.data.commit t answers).snap.Fit party
    rw [snap_commit]
    by_cases hparty : (w.pc t).party = some party
    · refine fit_of_result hsound hown hknown ?_ ?_
      · rw [← hparty, show w.pc t = pc from en.1]
        rfl
      · rw [show (stmt t (.commit pc answers)).before.result = _ from en.2]
        exact some_ne_none answers
    · exact (hfit party).calm (calm_commit hr hparty)
  · exact (hfit party).calm (calm_quiet en.2 hquiet)

end Knows

end Swarog.Party
