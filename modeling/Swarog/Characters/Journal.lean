import Swarog.Characters.Store
import Swarog.Pg.Count

/-!
# The cap and the journal of characters

A transaction makes the changes that its program point lists, and its `COMMIT` appends their
events (`Moved`).  The events about a character are its journal: nothing, `character.created`,
or `character.created` and `character.deleted` of one row (`Told`).

A create counts and inserts under the lock of the player, which bounds the number of
characters; deletes and sweeps take no lock, and only make room.
-/

namespace Swarog.Characters

open Pg Table Programs List Option

variable {G : World Data Pc → Sess × Act → Prop}
variable {w : World Data Pc} {t u : Sess} {a : Act} {d d' : Data} {pc : Pc} {id p : Uuid}

section Held

namespace Pc

def locksHeld : Pc → List Int
  | .create _ _ .opened => []
  | .create _ c _ => [playerLockKey c.playerId]
  | _ => []

/-- The caller of a create, once its id has been read as a uuid. -/
def caller : CreateStage → Option Uuid
  | .opened | .locked => none
  | .checked me | .capped me _ | .counted me _ | .inserted me _ _ | .emitted me _ _ => some me

/-- The caller is who the identity names, and the cap is a configured one. -/
def Tidy : Pc → Prop
  | .create _ c st =>
    (∀ me, caller st = some me → Uuid.ofText c.playerId = some me) ∧
      match st with
      | .capped _ cap | .counted _ cap | .inserted _ cap _ | .emitted _ cap _ =>
        ∃ configured, cap = clampedCap configured
      | _ => True
  | _ => True

/-- The id of the row that a create has inserted and not committed. -/
def inserting : Pc → Option Uuid
  | .create _ _ (.inserted _ _ id) => some id
  | .create _ _ (.emitted _ _ id) => some id
  | _ => none

/-- The player for whose character a create has found room, and the cap that it has read. -/
def admitted : Pc → Option (Uuid × Nat)
  | .create _ _ (.counted me cap) => some (me, cap)
  | .create _ _ (.inserted me cap _) => some (me, cap)
  | .create _ _ (.emitted me cap _) => some (me, cap)
  | _ => none

end Pc

theorem ofPoint_changes (q : Option (Sweeper.Point Uuid CharacterRow)) :
    (Pc.ofPoint q).changes = Sweeper.changesOf (fun m => [deletedEvent m.key m.row]) q := by
  cases q <;> rfl

theorem committed_of_found {c : Delete} {row : CharacterRow} (h : d.found c = some (id, row)) :
    d.characters.committed id = some row := by
  obtain ⟨_, -, hrow⟩ := bind_eq_some_iff.1 h
  obtain ⟨_, hrow', heq⟩ := map_eq_some_iff.1 hrow
  cases heq
  exact (filter_eq_some_iff.1 hrow').1

theorem characters_edits (hg : (stmt t a).guard d) :
    d.characters.Edits t (stmt t a).before.changes ((stmt t a).change d).characters
      ((stmt t a).after d).changes := by
  cases a with
  | insertCharacter _ c me _ id =>
    exact .first ⟨id, none, some (c.row me), []⟩ rfl hg.2.1 hg.2.2
  | deleteOwned _ _ id row =>
    exact .first ⟨id, some row, none, []⟩ rfl hg.2 (committed_of_found hg.1)
  -- an event is added to the change, and the table stays as it is
  | emitCreated | emitDeleted => exact ⟨.same _, fun h => ⟨h.owes, h.nodup⟩⟩
  | purge m =>
    simp only [stmt, Stmt.along, ofPoint_changes]
    exact m.edits hg
  | commit => exact .commit
  | refuse | fail => exact .rollback
  | _ => exact .same

theorem locks_pass (hg : (stmt t a).guard d) :
    Locks.Passes t d.locks (stmt t a).before.locksHeld ((stmt t a).change d).locks
      ((stmt t a).after d).locksHeld := by
  cases a with
  | lockPlayer => exact .take hg
  | purge m =>
    simp only [stmt, Stmt.along]
    cases (m.stmt policy t).after d.tables <;> exact .done
  | _ => first | exact .same | exact .done | exact .release

theorem tidy_own (hg : (stmt t a).guard d) (h : (stmt t a).before.Tidy) :
    ((stmt t a).after d).Tidy := by
  cases a with
  | createOpen i c | lockPlayer i c => exact ⟨fun _ heq => (nomatch heq), trivial⟩
  | checkTombstone =>
    refine ⟨fun me' heq => ?_, trivial⟩
    cases heq
    exact hg.1
  | readCap _ _ _ configured => exact ⟨h.1, configured, rfl⟩
  | countOwned | insertCharacter | emitCreated => exact h
  | purge m =>
    show (Pc.ofPoint ((m.stmt policy t).after d.tables)).Tidy
    cases (m.stmt policy t).after d.tables <;> trivial
  | _ => trivial

end Held

section Reachable

section

variable (h : system.Reachable G w)
include h

theorem made_reachable : ∀ t, w.data.characters.Made t (w.pc t).changes :=
  Programs.made_reachable (X := programs) Data.characters Pc.changes rfl rfl
    (fun _ _ _ _ en => characters_edits en.2) h

theorem locks_held : ∀ t, w.data.locks.HeldBy t (w.pc t).locksHeld :=
  holds_locks (X := programs) Data.locks Pc.locksHeld rfl
    (fun _ _ _ => locks_pass) h

theorem tidy_reachable : ∀ t, (w.pc t).Tidy :=
  pc_invariant (X := programs) Pc.Tidy trivial (fun _ _ _ _ _ en => tidy_own en.2) h

theorem made_before (en : programs.enabled w (t, a)) :
    w.data.characters.Made t (stmt t a).before.changes := by
  have hm := made_reachable h t
  rwa [show w.pc t = _ from en.1] at hm

end

theorem lockKey_of_admitted {n : Nat} (htidy : pc.Tidy) (h : pc.admitted = some (p, n)) :
    playerLockKey p.text ∈ pc.locksHeld := by
  cases pc with
  | create i c st =>
    cases st with
    | counted me cap | inserted me cap id | emitted me cap id =>
      cases h
      exact mem_singleton.2 (uuidLockKey_eq _ (htidy.1 _ rfl)).symm
    | _ => cases h
  | _ => cases h

/-- One create at a time has found room for a character of a player, whatever spelling of
the id its identity has. -/
theorem admitted_exclusive {n m : Nat} (h : system.Reachable G w)
    (ht : (w.pc t).admitted = some (p, n)) (hu : (w.pc u).admitted = some (p, m)) : t = u :=
  (locks_held h t).exclusive (locks_held h u)
    (lockKey_of_admitted (tidy_reachable h t) ht) (lockKey_of_admitted (tidy_reachable h u) hu)

end Reachable

section Changes

/-- The events about a character. -/
def Data.journal (d : Data) (id : Uuid) : List Event :=
  d.log.filter (fun e => decide (e.characterId = id.text))

/-- What a transaction at `pc` commits about a character. -/
inductive Changed (pc : Pc) (id : Uuid) : Option CharacterRow → Event → Option CharacterRow → Prop
  | created (me : Uuid) (cap : Nat) (row : CharacterRow)
      (hrow : row.playerId = me)
      (hadmitted : pc.admitted = some (me, cap))
      (hinserting : pc.inserting = some id) :
      Changed pc id none (createdEvent id row) (some row)
  | deleted (row : CharacterRow) :
      Changed pc id (some row) (deletedEvent id row) none

/-- A step commits nothing about a character, or one change with its event. -/
def Moved (pc : Pc) (d d' : Data) (id : Uuid) : Prop :=
  (d'.characters.committed id = d.characters.committed id ∧ d'.journal id = d.journal id) ∨
    ∃ e, Changed pc id (d.characters.committed id) e (d'.characters.committed id) ∧
      d'.journal id = d.journal id ++ [e]

/-- A transaction that has come to its `COMMIT` has appended an event for each change. -/
theorem changed_of_mem
    {c : Change Uuid CharacterRow Event}
    {answers : List Answer}
    (hready : pc.result = some answers)
    (hc : c ∈ pc.changes) :
    ∃ e, c.events = [e] ∧ e.characterId = c.key.text ∧ Changed pc c.key c.old e c.new := by
  cases pc with
  | create _ _ st =>
    cases st with
    | emitted me cap id =>
      cases mem_singleton.1 hc
      exact ⟨_, rfl, rfl, .created me cap _ rfl rfl rfl⟩
    | _ => cases hready
  | delete _ _ st =>
    cases st with
    | emitted id row =>
      cases mem_singleton.1 hc
      exact ⟨_, rfl, rfl, .deleted row⟩
    | _ => cases hready
  | purge q =>
    cases q with
    | planted => cases hc
    | sweep =>
      obtain ⟨e, -, rfl⟩ := mem_map.1 hc
      exact ⟨_, rfl, rfl, .deleted e.2⟩
  | idle => cases hc

/-- The events of the other changes are about other characters. -/
theorem events_apart
    {c : Change Uuid CharacterRow Event}
    {answers : List Answer}
    (hready : pc.result = some answers)
    (hc : c ∈ pc.changes)
    (hk : c.key ≠ id) :
    c.events.filter (fun e => decide (e.characterId = id.text)) = [] := by
  obtain ⟨_, hevents, htext, -⟩ := changed_of_mem hready hc
  rw [hevents]
  simp only [filter_cons, filter_nil, htext, decide_eq_true_eq]
  rw [if_neg (fun heq => hk (Uuid.text_injective heq))]

theorem moved_commit
    {answers : List Answer}
    (hready : pc.result = some answers)
    (hm : d.characters.Made t pc.changes) :
    Moved pc d (d.commit t pc answers) id := by
  have hjournal : (d.commit t pc answers).journal id = d.journal id ++
      (pc.changes.flatMap Change.events).filter (fun e => decide (e.characterId = id.text)) :=
    filter_append _ _
  rcases hm.commit_cases id with ⟨hsame, hne⟩ | ⟨c, hc, rfl, hold, hnew⟩
  · refine .inl ⟨hsame, ?_⟩
    rw [hjournal, Change.filter_events_none (fun c hc => events_apart hready hc (hne c hc)),
      append_nil]
  · obtain ⟨e, hevents, htext, hchanged⟩ := changed_of_mem hready hc
    refine .inr ⟨e, ?_, ?_⟩
    · rw [hold, show (d.commit t pc answers).characters.committed c.key = c.new from hnew]
      exact hchanged
    · rw [hjournal, Change.filter_events_of_mem hm.nodup hc
        (fun c' hc' hne => events_apart hready hc' hne), hevents]
      simp [htext]

/-- Only a `COMMIT` changes committed rows or the log. -/
theorem quiet_step (id : Uuid) (hquiet : ∀ pc answers, a ≠ .commit pc answers) :
    ((stmt t a).change d).characters.committed id = d.characters.committed id ∧
      ((stmt t a).change d).log = d.log := by
  cases a with
  | insertCharacter | deleteOwned => exact ⟨committed_write _ _ _ _ _, rfl⟩
  | purge m => exact ⟨m.committed _, rfl⟩
  | commit pc answers => exact absurd rfl (hquiet pc answers)
  | refuse | fail => exact ⟨committed_rollback _ _ _, rfl⟩
  | _ => exact ⟨rfl, rfl⟩

/-- What a step commits about a character. -/
theorem moved_step (h : system.Reachable G w) (en : programs.enabled w (t, a)) :
    Moved (stmt t a).before w.data ((stmt t a).change w.data) id := by
  rcases exists_or_ne Act.commit a with ⟨_, answers, rfl⟩ | hquiet
  · exact moved_commit en.2 (made_before h en)
  · obtain ⟨hrow, hlog⟩ := quiet_step (t := t) (d := w.data) id hquiet
    exact .inl ⟨hrow, congrArg (List.filter _) hlog⟩

end Changes

section Journal

/-- What the journal of a character says, and the row that it goes with. -/
inductive Told (id : Uuid) : List Event → Option CharacterRow → Prop
  | never : Told id [] none
  | present (row : CharacterRow) : Told id [createdEvent id row] (some row)
  | gone (row : CharacterRow) : Told id [createdEvent id row, deletedEvent id row] none

/-- What holds of the journals: they tell the truth about the rows; they are about ids that
were drawn; and there is none yet about a row that a create has inserted. -/
structure Kept (w : World Data Pc) : Prop where
  told : ∀ id, Told id (w.data.journal id) (w.data.characters.committed id)
  drawn : ∀ id, w.data.journal id ≠ [] → id ∈ w.data.ids
  inserting : ∀ t id, (w.pc t).inserting = some id → id ∈ w.data.ids ∧ w.data.journal id = []

theorem ids_grow (hid : id ∈ d.ids) : id ∈ ((stmt t a).change d).ids := by
  cases a with
  | insertCharacter => exact mem_cons_of_mem _ hid
  | _ => exact hid

/-- An inserted row is held, and not committed. -/
theorem pending_of_inserting (h : system.Reachable G w) (hins : (w.pc t).inserting = some id) :
    w.data.characters.committed id = none ∧ ∃ v, w.data.characters.pending id = some (t, v) := by
  have hm := made_reachable h t
  cases hpc : w.pc t with
  | create _ _ st =>
    rw [hpc] at hins hm
    cases st with
    | inserted me cap id' | emitted me cap id' =>
      cases hins
      exact ⟨hm.owes.old_change mem_cons_self, _, hm.owes.pending_change mem_cons_self⟩
    | _ => cases hins
  | _ =>
    rw [hpc] at hins
    cases hins

theorem told_step (hk : Kept w) (hins : ∀ id, pc.inserting = some id → w.data.journal id = [])
    (hm : Moved pc w.data d' id) : Told id (d'.journal id) (d'.characters.committed id) := by
  have htold := hk.told id
  rcases hm with ⟨hrow, hjournal⟩ | ⟨_, hchanged, hjournal⟩
  · rw [hrow, hjournal]
    exact htold
  · rw [hjournal]
    generalize w.data.characters.committed id = old at htold hchanged
    generalize d'.characters.committed id = new at hchanged
    cases hchanged with
    | created _ _ row _ _ hinserting =>
      rw [hins id hinserting]
      exact .present row
    | deleted row =>
      generalize w.data.journal id = journal at htold
      cases htold
      exact .gone row

theorem drawn_step (hk : Kept w) (hins : ∀ id, pc.inserting = some id → id ∈ w.data.ids)
    (hm : Moved pc w.data d' id) (hne : d'.journal id ≠ []) : id ∈ w.data.ids := by
  have htold := hk.told id
  rcases hm with ⟨-, hjournal⟩ | ⟨_, hchanged, -⟩
  · rw [hjournal] at hne
    exact hk.drawn id hne
  · generalize hold : w.data.characters.committed id = old at htold hchanged
    generalize d'.characters.committed id = new at hchanged
    cases hchanged with
    | created _ _ _ _ _ hinserting => exact hins id hinserting
    | deleted =>
      refine hk.drawn id ?_
      generalize w.data.journal id = journal at htold
      cases htold
      exact cons_ne_nil _ _

/-- The steps of the other sessions are not about an inserted row. -/
theorem inserting_other (h : system.Reachable G w) (hu : u ≠ t)
    (hins : (w.pc u).inserting = some id) (hm : Moved (w.pc t) w.data d' id) :
    d'.journal id = w.data.journal id := by
  obtain ⟨hnone, _, hv⟩ := pending_of_inserting h hins
  rcases hm with ⟨-, hjournal⟩ | ⟨_, hchanged, -⟩
  · exact hjournal
  · rw [hnone] at hchanged
    generalize d'.characters.committed id = new at hchanged
    cases hchanged with
    | created _ _ _ _ _ hinserting =>
      obtain ⟨-, _, hv'⟩ := pending_of_inserting h hinserting
      rw [hv] at hv'
      cases hv'
      exact absurd rfl hu

theorem kept_reachable (h : system.Reachable G w) : Kept w := by
  refine h.invariant ?_ ?_
  · exact ⟨fun _ => .never, fun _ hne => absurd rfl hne, fun _ _ hins => nomatch hins⟩
  rintro w ⟨t, a⟩ hr hk _ en
  have hm : ∀ id, Moved (w.pc t) w.data ((stmt t a).change w.data) id := by
    intro _
    rw [en.1]
    exact moved_step hr en
  refine ⟨fun id => told_step hk (fun id hins => (hk.inserting t id hins).2) (hm id), ?_, ?_⟩
  · intro id hne
    exact ids_grow (drawn_step hk (fun id hins => (hk.inserting t id hins).1) (hm id) hne)
  · refine pc_effect (X := programs) (fun _ pc => ∀ id, pc.inserting = some id →
      id ∈ ((stmt t a).change w.data).ids ∧ ((stmt t a).change w.data).journal id = []) ?_ ?_
    · intro id hins
      have hold := hk.inserting t id
      rw [en.1] at hold
      cases a with
      | insertCharacter =>
        cases hins
        refine ⟨mem_cons_self, ?_⟩
        by_contra hne
        exact en.2.1 (hk.drawn id hne)
      | emitCreated => exact hold hins
      | purge m =>
        have hins : (Pc.ofPoint ((m.stmt policy t).after w.data.tables)).inserting = some id := hins
        cases hafter : (m.stmt policy t).after w.data.tables <;> rw [hafter] at hins <;> cases hins
      | _ => cases hins
    · intro u hu id hins
      obtain ⟨hid, hjournal⟩ := hk.inserting u id hins
      refine ⟨ids_grow hid, ?_⟩
      rw [inserting_other hr hu hins (hm id)]
      exact hjournal

end Journal

section Cap

/-- The number of characters of a player. -/
def Data.owned (d : Data) (p : Uuid) : Nat :=
  d.characters.count (fun _ row => decide (row.playerId = p))

/-- A row that has appeared was inserted by a create of its player. -/
theorem appears_step {row : CharacterRow} (hm : Moved pc d d' id)
    (hrow : d'.characters.committed id = some row) :
    d.characters.committed id = some row ∨
      (pc.inserting = some id ∧ ∃ cap, pc.admitted = some (row.playerId, cap)) := by
  rcases hm with ⟨hsame, -⟩ | ⟨_, hchanged, -⟩
  · exact .inl (hsame.symm.trans hrow)
  · rw [hrow] at hchanged
    generalize d.characters.committed id = old at hchanged
    cases hchanged with
    | created _ cap _ hme hadmitted hinserting => exact .inr ⟨hinserting, cap, hme ▸ hadmitted⟩

theorem owned_grows (hm : ∀ id, Moved pc d d' id) :
    d'.owned p ≤ d.owned p ∨
      ((∃ cap, pc.admitted = some (p, cap)) ∧ d'.owned p ≤ d.owned p + 1) := by
  by_cases hadm : ∃ cap, pc.admitted = some (p, cap)
  · have hback : ∀ id row, d'.characters.committed id = some row → pc.inserting ≠ some id →
        d.characters.committed id = some row := by
      intro id _ hrow hne
      exact (appears_step (hm id) hrow).resolve_right (fun hins => hne hins.1)
    refine .inr ⟨hadm, ?_⟩
    cases hins : pc.inserting with
    | none =>
      refine Nat.le_succ_of_le (count_le (fun id row hrow hp => ⟨row, ?_, hp⟩))
      exact hback id row hrow (by rw [hins]; exact (some_ne_none _).symm)
    | some id₀ =>
      refine count_le_succ id₀ (fun id row hne hrow hp => ⟨row, ?_, hp⟩)
      refine hback id row hrow (fun heq => hne ?_)
      rw [hins] at heq
      exact (some.inj heq).symm
  · refine .inl (count_le (fun id row hrow hp => ⟨row, ?_, hp⟩))
    refine (appears_step (hm id) hrow).resolve_right ?_
    rintro ⟨-, cap, hcap⟩
    exact hadm ⟨cap, of_decide_eq_true hp ▸ hcap⟩

theorem clampedCap_le (configured : Option Int) : clampedCap configured ≤ listHardLimit :=
  Nat.min_le_right _ _

/-- The characters of a player, and those of a player for whom a create has found room. -/
theorem owned_capped (h : system.Reachable G w) :
    (∀ p, w.data.owned p ≤ listHardLimit) ∧
      ∀ t p cap, (w.pc t).admitted = some (p, cap) →
        w.data.owned p < cap ∧ cap ≤ listHardLimit := by
  refine capacity_within (X := programs) Data.owned (fun pc p n => pc.admitted = some (p, n))
    listHardLimit (fun _ => Nat.zero_le _) (fun _ _ hn => nomatch hn) ?_ ?_ ?_ h
  · intro _ _ a _ hr _ en
    rcases exists_or_ne Act.commit a with ⟨_, _, rfl⟩ | hquiet
    · refine (owned_grows (fun id => moved_step hr en)).imp_right ?_
      rintro ⟨hadm, hle⟩
      exact ⟨hadm, fun n hn => (nomatch hn), hle⟩
    · refine .inl (count_le (fun id row hrow hp => ⟨row, ?_, hp⟩))
      exact (quiet_step _ hquiet).1.symm.trans hrow
  · intro w t a p n hr _ en hadm
    cases a with
    | countOwned =>
      cases hadm
      have htidy := tidy_reachable hr t
      rw [show w.pc t = _ from en.1] at htidy
      obtain ⟨configured, rfl⟩ := htidy.2
      refine .inr ⟨Nat.lt_of_le_of_lt ?_ en.2, clampedCap_le configured⟩
      refine count_le_select (fun id row hrow hp => ⟨row, ?_, hp⟩)
      exact ((made_before hr en).owes.view_same (fun _ hc => nomatch hc)).trans hrow
    | insertCharacter | emitCreated => exact .inl hadm
    | purge m =>
      have hadm : (Pc.ofPoint ((m.stmt policy t).after w.data.tables)).admitted = some (p, n) :=
        hadm
      cases hafter : (m.stmt policy t).after w.data.tables <;> rw [hafter] at hadm <;> cases hadm
    | _ => cases hadm
  · intro _ _ _ _ _ _ hr ht hu
    exact admitted_exclusive hr ht hu

/-- Right after its `COMMIT` the player of a create has at most as many characters as the cap
that the create has read. -/
theorem owned_after_create
    {i : CreateInput} {c : Create} {me : Uuid} {cap : Nat} {answers : List Answer}
    (h : system.Reachable G w)
    (en : programs.enabled w (t, .commit (.create i c (.emitted me cap id)) answers)) :
    (w.data.commit t (.create i c (.emitted me cap id)) answers).owned me ≤ cap := by
  have hroom := ((owned_capped h).2 t me cap (by rw [show w.pc t = _ from en.1]; rfl)).1
  rcases owned_grows (p := me) (fun _ => moved_step h en) with hle | ⟨-, hle⟩
  · exact Nat.le_trans hle (Nat.le_of_lt hroom)
  · exact Nat.le_trans hle hroom

end Cap

section Summary

/-- From `d` to `d'` the row of a character and its journal have moved together. -/
def Together (d d' : Data) (id : Uuid) : Prop :=
  (d'.characters.committed id = d.characters.committed id ∧ d'.journal id = d.journal id) ∨
  (∃ row, d.characters.committed id = none ∧ d'.characters.committed id = some row ∧
    d'.journal id = d.journal id ++ [createdEvent id row]) ∨
  (∃ row, d.characters.committed id = some row ∧ d'.characters.committed id = none ∧
    d'.journal id = d.journal id ++ [deletedEvent id row])

theorem Moved.together (h : Moved pc d d' id) : Together d d' id := by
  rcases h with hsame | ⟨_, hchanged, hjournal⟩
  · exact .inl hsame
  · unfold Together
    generalize d.characters.committed id = old at hchanged ⊢
    generalize d'.characters.committed id = new at hchanged ⊢
    cases hchanged with
    | created _ _ row => exact .inr (.inl ⟨row, rfl, rfl, hjournal⟩)
    | deleted row => exact .inr (.inr ⟨row, rfl, rfl, hjournal⟩)

theorem result_ok {answers : List Answer} (h : pc.result = some answers) :
    ∀ x ∈ answers, x.isOk = true := by
  intro _ hx
  cases pc with
  | create i c st | delete i c st =>
    cases st with
    | emitted =>
      cases h
      cases mem_singleton.1 hx
      rfl
    | _ => cases h
  | purge q =>
    have h : (if q.ready then some [] else none) = some answers := h
    split at h
    · cases h
      cases hx
    · cases h
  | idle => cases h

/-- Character cap and journal.  Right after a create commits, its player has at most as many
characters as the clamped cap that it has read, and nobody ever has more than the hard limit.
The journal of a character is empty, or `character.created` of its row, or this followed by
`character.deleted` of the same row once the row is gone; the row and its journal are committed
together.  A step that changes a row or the log ends its call, and answers nothing but
success. -/
theorem characters_capped_and_journalled (h : system.Reachable TransitionSystem.anyStep w) :
    (∀ t i c me cap id answers,
      system.enabled w (t, .commit (.create i c (.emitted me cap id)) answers) →
        (∃ configured, cap = clampedCap configured) ∧ Uuid.ofText c.playerId = some me ∧
          (system.effect w (t, .commit (.create i c (.emitted me cap id)) answers)).data.owned me
            ≤ cap) ∧
    (∀ p, w.data.owned p ≤ listHardLimit) ∧
    (∀ id, Told id (w.data.journal id) (w.data.characters.committed id)) ∧
    (∀ t a id, system.enabled w (t, a) → Together w.data (system.effect w (t, a)).data id) ∧
    (∀ t a, system.enabled w (t, a) →
      (∃ id, (system.effect w (t, a)).data.characters.committed id ≠
        w.data.characters.committed id) ∨ (system.effect w (t, a)).data.log ≠ w.data.log →
      (system.effect w (t, a)).pc t = .idle ∧
        ∃ answers, (system.effect w (t, a)).data.answers = w.data.answers ++ answers ∧
          ∀ x ∈ answers, x.isOk = true) := by
  refine ⟨?_, (owned_capped h).1, (kept_reachable h).told, ?_, ?_⟩
  · intro t _ _ me _ _ _ en
    have htidy := tidy_reachable h t
    rw [show w.pc t = _ from en.1] at htidy
    exact ⟨htidy.2, htidy.1 me rfl, owned_after_create h en⟩
  · exact fun t a id en => (moved_step h en).together
  · intro t a en hchanges
    rcases exists_or_ne Act.commit a with ⟨_, answers, rfl⟩ | hquiet
    · exact ⟨pc_own, answers, rfl, result_ok en.2⟩
    · have hquiet := fun id => quiet_step (t := t) (d := w.data) id hquiet
      rcases hchanges with ⟨id, hne⟩ | hne
      · exact absurd (hquiet id).1 hne
      · exact absurd (hquiet Uuid.nil).2 hne

def annId : Uuid := .filled 10

def knightId : Uuid := .filled 12

def squireId : Uuid := .filled 13

def annCreates : CreateInput := ⟨some annId.text, "Knight", ""⟩

def annKnight : Create := ⟨annId.text, "Knight", "novice"⟩

/-- With a cap of one, a character is created and deleted, and another one is inserted. -/
def secondCharacterRun : List (Sess × Act) :=
  let row : CharacterRow := ⟨annId, "Knight", "novice"⟩
  let i : DeleteInput := ⟨some annId.text, knightId.text⟩
  let c : Delete := ⟨annId.text, knightId.text⟩
  let create (t : Sess) (id : Uuid) : List (Sess × Act) :=
    [(t, .createOpen annCreates annKnight), (t, .lockPlayer annCreates annKnight),
     (t, .checkTombstone annCreates annKnight annId),
     (t, .readCap annCreates annKnight annId (some 1)),
     (t, .countOwned annCreates annKnight annId 1),
     (t, .insertCharacter annCreates annKnight annId 1 id),
     (t, .emitCreated annCreates annKnight annId 1 id)]
  create 0 knightId ++
    [(0, .commit (.create annCreates annKnight (.emitted annId 1 knightId))
      [.created annCreates (.ok knightId)]),
     (1, .deleteOpen i c), (1, .deleteOwned i c knightId row), (1, .emitDeleted i c knightId row),
     (1, .commit (.delete i c (.emitted knightId row)) [.deleted i (.ok ())])] ++
    create 2 squireId

theorem characters_capped_second :
    ∃ w, system.Reachable TransitionSystem.anyStep w ∧
      (system.effect w (2, .commit (.create annCreates annKnight (.emitted annId 1 squireId))
        [.created annCreates (.ok squireId)])).data.owned annId ≤ 1 ∧
      w.data.journal knightId = [.created knightId.text annId.text "Knight" "novice",
        .deleted knightId.text annId.text] ∧
      Told knightId (w.data.journal knightId) none := by
  obtain ⟨w, hr, hf⟩ := TransitionSystem.exec_exhibits (T := system) TransitionSystem.anyStep
    secondCharacterRun
    (f := fun w => decide (system.enabled w
      (2, .commit (.create annCreates annKnight (.emitted annId 1 squireId))
        [.created annCreates (.ok squireId)]) ∧
      w.data.characters.committed knightId = none ∧
      w.data.journal knightId = [.created knightId.text annId.text "Knight" "novice",
        .deleted knightId.text annId.text]))
    (by decide +kernel)
  obtain ⟨hen, hnone, hjournal⟩ := of_decide_eq_true hf
  obtain ⟨hcap, -, htold, -⟩ := characters_capped_and_journalled hr
  exact ⟨w, hr, (hcap _ _ _ _ _ _ _ hen).2.2, hjournal, hnone ▸ htold knightId⟩

end Summary

end Swarog.Characters
