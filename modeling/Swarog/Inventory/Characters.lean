import Swarog.Inventory.Store

/-!
# The holdings of characters

A grant and a wipe of one character hold the lock of the character, whatever spelling of its
id their events have, so that there is one of them at a time (`character_exclusive`).
`Moved` says what a step can commit about characters.  `Kept` is what holds of the committed
rows, and `Knows` is what a session knows about the character that it has locked.
-/

namespace Swarog.Inventory

open Pg Table Programs List Option

variable {G : World Data Pc → Sess × Act → Prop}
variable {w w' : World Data Pc} {t u : Sess} {a : Act} {d d' : Data} {pc : Pc}
variable {c : Uuid} {k : HoldingKey}

section Held

namespace Pc

/-- The changes of `inventory.holdings` that the transaction has made. -/
def changes : Pc → List (Change HoldingKey Int Empty)
  | .grant c (.written item qty old) =>
    [⟨⟨.character c.id, item⟩, old, some (old.getD 0 + qty), []⟩]
  | .wipe _ (.deleting _ _ removed) => removed.map (fun e => ⟨e.1, some e.2, none, []⟩)
  | .purge q => q.changes (fun _ => [])
  | _ => []

def wipedHeld : Pc → Holding Uuid Unit
  | .wipe c (.planted true) => .writing [Write.insert c.id ()]
  | .wipe c (.deleting true _ _) => .writing [Write.insert c.id ()]
  | _ => .nothing

def locksHeld : Pc → List Int
  | .grant _ .opened => []
  | .grant c _ => [lockKey c.text]
  | .wipe _ .opened => []
  | .wipe c _ => [lockKey c.text]
  | _ => []

/-- The character whose lock a session holds. -/
def character : Pc → Option Uuid
  | .grant _ .opened => none
  | .grant c _ => some c.id
  | .wipe _ .opened => none
  | .wipe c _ => some c.id
  | _ => none

end Pc

theorem grantExec_ok {qty total : Int} (h : d.grantExec t k qty = .ok total) :
    total = (d.holdings.view t k).getD 0 + qty := by
  unfold Data.grantExec validateQuantity at h
  split at h
  · cases h
  · rename_i qty' hq
    split at hq
    · cases hq
      simp only at h
      split at h
      · cases h
      · split at h
        · cases h
          rfl
        · cases h
    · cases hq

theorem changesOf_point (q : Option (Sweeper.Point HoldingKey Int)) :
    (Pc.ofPoint q).changes = Sweeper.changesOf (fun _ => []) q := by
  cases q <;> rfl

theorem edits_reachRow {removed : List (HoldingKey × Int)} {owner : Owner} {k : HoldingKey}
    (hfree : d.holdings.Free t k) :
    d.holdings.Edits t (removed.map (fun e =>
        (⟨e.1, some e.2, none, []⟩ : Change HoldingKey Int Empty)))
      (d.deleteRow t owner k).holdings ((reachRow d t owner k removed).map (fun e =>
        (⟨e.1, some e.2, none, []⟩ : Change HoldingKey Int Empty))) := by
  unfold Data.deleteRow Table.deleteWhere reachRow
  cases hview : d.holdings.view t k with
  | none => exact .same
  | some qty =>
    by_cases hown : k.owner = owner
    · simp only [any_some, hown, decide_true, if_true, map_append]
      refine .seen ⟨k, some qty, none, []⟩ ?_ hfree hview rfl
      intro _ hc
      obtain ⟨_, -, rfl⟩ := mem_map.1 hc
      rfl
    · simp only [any_some, hown, decide_false, Bool.false_eq_true, if_false]
      exact .same

section

variable (hg : (stmt t a).guard d)
include hg

theorem holdings_edits :
    d.holdings.Edits t (stmt t a).before.changes ((stmt t a).change d).holdings
      ((stmt t a).after d).changes := by
  cases a with
  | grantStarter c item =>
    refine ⟨.write t _ _ hg.1, fun h => ?_⟩
    have hview := h.owes.view_same (k := ⟨.character c.id, item⟩) (fun _ hc => nomatch hc)
    have htotal := grantExec_ok hg.2
    rw [hview] at htotal
    cases htotal
    exact Made.first h ⟨⟨.character c.id, item⟩, _, some _, []⟩ rfl
  | wipeRow => exact edits_reachRow hg.2
  | buyGrant => exact .put hg.1
  | purge m =>
    simp only [stmt, Stmt.along, changesOf_point]
    exact m.edits hg
  | commit => exact .commit
  | grantError | refuse | fail => exact .rollback
  | _ => exact .same

theorem wiped_step : Table.Step d.wiped (some t) ((stmt t a).change d).wiped := by
  cases a with
  | wipePlant => exact .write t _ _ hg.1
  | _ => first | exact .same _ | exact .commit _ | exact .rollback _

theorem wiped_own (h : d.wiped.Owes t (stmt t a).before.wipedHeld) :
    ((stmt t a).change d).wiped.Owes t ((stmt t a).after d).wipedHeld := by
  cases a with
  | wipePlant c => exact Owes.write h (Write.insert c.id ()) (fun _ hw => nomatch hw) hg.2
  | wipeDelete c fresh | wipeRow c fresh => cases fresh <;> exact h
  | purge =>
    simp only [stmt, Stmt.along] at h ⊢
    have hnone : ∀ q, (Pc.ofPoint q).wipedHeld = .nothing := by
      intro q
      cases q <;> rfl
    rw [hnone] at h ⊢
    exact h
  | commit => exact owes_commit _ _
  | grantError | refuse | fail => exact owes_rollback _ _
  | _ => exact h

theorem locks_pass :
    Locks.Passes t d.locks (stmt t a).before.locksHeld ((stmt t a).change d).locks
      ((stmt t a).after d).locksHeld := by
  cases a with
  | grantLock | wipeLock => exact .take hg
  | purge m =>
    simp only [stmt, Stmt.along]
    cases (m.stmt policy t).after d.tables <;> exact .done
  | _ => first | exact .same | exact .done | exact .release

end

end Held

section Reachable

theorem made_reachable (h : system.Reachable G w) : ∀ t, w.data.holdings.Made t (w.pc t).changes :=
  Programs.made_reachable (X := programs) Data.holdings Pc.changes rfl rfl
    (fun _ _ _ _ en => holdings_edits en.2) h

theorem wiped_held (h : system.Reachable G w) : ∀ t, w.data.wiped.Owes t (w.pc t).wipedHeld :=
  owes_reachable (X := programs) Data.wiped Pc.wipedHeld owes_empty
    (fun _ _ _ => wiped_step) (fun _ _ _ _ en => wiped_own en.2) h

theorem locks_held (h : system.Reachable G w) : ∀ t, w.data.locks.HeldBy t (w.pc t).locksHeld :=
  holds_locks (X := programs) Data.locks Pc.locksHeld rfl
    (fun _ _ _ => locks_pass) h

theorem lockKey_of_character (h : pc.character = some c) : lockKey c.text ∈ pc.locksHeld := by
  cases pc with
  | grant e st | wipe e st =>
    cases st with
    | opened => cases h
    | _ =>
      cases h
      exact mem_singleton.2 (uuidLockKey_eq _ e.reads).symm
  | _ => cases h

/-- One session at a time works on the holdings of a character. -/
theorem character_exclusive (h : system.Reachable G w) (ht : (w.pc t).character = some c)
    (hu : (w.pc u).character = some c) : t = u :=
  (locks_held h t).exclusive (locks_held h u) (lockKey_of_character ht) (lockKey_of_character hu)

theorem made_before (h : system.Reachable G w) (en : programs.enabled w (t, a)) :
    w.data.holdings.Made t (stmt t a).before.changes := by
  have hm := made_reachable h t
  rwa [show w.pc t = _ from en.1] at hm

theorem wiped_before (h : system.Reachable G w) (en : programs.enabled w (t, a)) :
    w.data.wiped.Owes t (stmt t a).before.wipedHeld := by
  have ho := wiped_held h t
  rwa [show w.pc t = _ from en.1] at ho

end Reachable

section Changes

/-- The stack of an item that a character holds. -/
def Data.held (d : Data) (c : Uuid) (item : String) : Option Int :=
  d.holdings.committed ⟨.character c, item⟩

/-- Nothing about the character `c` was committed. -/
structure Same (d d' : Data) (c : Uuid) : Prop where
  held : ∀ i, d'.held c i = d.held c i
  wiped : d'.wiped.committed c = d.wiped.committed c

/-- What a step of a session at `pc` commits about characters. -/
inductive Moved (pc : Pc) (d d' : Data) : Prop
  | aside
      (hsame : ∀ c, Same d d' c)
      (hcreated : d'.created = d.created)
      (hdeleted : d'.deleted = d.deleted)
  | granted (e : Uuid.Spelling) (item : String) (qty : Int) (old : Option Int)
      (hpc : pc = .grant e (.written item qty old))
      (hfresh : e.id ∉ d.created.map Prod.fst)
      (hold : d.held e.id item = old)
      (hset : d'.held e.id item = some (old.getD 0 + qty))
      (hother : ∀ i, i ≠ item → d'.held e.id i = d.held e.id i)
      (hwiped : d'.wiped.committed e.id = d.wiped.committed e.id)
      (hsame : ∀ c, c ≠ e.id → Same d d' c)
      (hcreated : d'.created = d.created ++ [(e.id, some (item, qty))])
      (hdeleted : d'.deleted = d.deleted)
  | skipped (e : Uuid.Spelling)
      (hpc : pc = .grant e .skipped)
      (hfresh : e.id ∉ d.created.map Prod.fst)
      (hsame : ∀ c, Same d d' c)
      (hcreated : d'.created = d.created ++ [(e.id, none)])
      (hdeleted : d'.deleted = d.deleted)
  | wiped (e : Uuid.Spelling) (fresh : Bool) (removed : List (HoldingKey × Int))
      (hpc : pc = .wipe e (.deleting fresh [] removed))
      (hgone : ∀ i, ⟨.character e.id, i⟩ ∈ removed.map Prod.fst → d'.held e.id i = none)
      (hkept : ∀ i, ⟨.character e.id, i⟩ ∉ removed.map Prod.fst → d'.held e.id i = d.held e.id i)
      (hplant : fresh = true → d'.wiped.committed e.id ≠ none)
      (hwiped : fresh = false → d'.wiped.committed e.id = d.wiped.committed e.id)
      (hsame : ∀ c, c ≠ e.id → Same d d' c)
      (hcreated : d'.created = d.created)
      (hdeleted : d'.deleted = d.deleted ++ [e.id])

namespace Pc

/-- What is known at a program point without looking at the data. -/
def Tidy : Pc → Prop
  | .grant _ (.resolved item qty) => itemExists item = true ∧ 0 < qty ∧ qty ≤ maxHoldingQty
  | .grant _ (.written _ qty _) => 0 < qty ∧ qty ≤ maxHoldingQty
  | .wipe c (.deleting _ _ removed) => ∀ e ∈ removed, e.1.owner = .character c.id
  | .purge q => q.Owned policy
  | _ => True

end Pc

/-- Every configuration gives a stack that can be granted. -/
theorem starter_grantable (cfg : Config) :
    itemExists cfg.starter.1 = true ∧ 0 < cfg.starter.2 ∧ cfg.starter.2 ≤ maxHoldingQty := by
  unfold Config.starter validateQuantity
  constructor
  · simp only
    split
    · assumption
    · decide
  · by_cases hqty : 0 < cfg.starterSpec.2 ∧ cfg.starterSpec.2 ≤ maxHoldingQty
    · simp only [if_pos hqty]
      exact hqty
    · simp only [if_neg hqty]
      decide

theorem tidy_own (h : (stmt t a).before.Tidy) : ((stmt t a).after d).Tidy := by
  cases a with
  | resolveStarter _ cfg => exact starter_grantable cfg
  | grantStarter => exact h.2
  | wipeDelete => exact fun _ he => nomatch he
  | wipeRow c _ _ removed =>
    have hold : ∀ e ∈ removed, e.1.owner = .character c.id := h
    simp only [stmt]
    unfold reachRow
    split
    · split
      · rename_i hown
        intro e he
        rcases mem_append.1 he with he | he
        · exact hold e he
        · cases mem_singleton.1 he
          exact hown
      · exact hold
    · exact hold
  | purge m =>
    have hbefore : ∀ q, (m.stmt policy t).before = some q → q.Owned policy := by
      intro _ hq
      simp only [stmt, Stmt.along, hq] at h
      exact h
    show (Pc.ofPoint ((m.stmt policy t).after d.tables)).Tidy
    cases hafter : (m.stmt policy t).after d.tables with
    | none => trivial
    | some q => exact m.owned hbefore q hafter
  | grantOpen | grantLock | checkWiped | skipWiped | wipeOpen | wipeLock | wipePlant
  | wipePlantConflict | buyOpen | buyItem | buyCheck | buyGrant => trivial
  | _ => trivial

theorem tidy_reachable (h : system.Reachable G w) : ∀ t, (w.pc t).Tidy :=
  pc_invariant (X := programs) Pc.Tidy trivial (fun _ _ _ _ _ _ => tidy_own) h

/-- The keys that a `COMMIT` leaves alone. -/
theorem committed_unchanged (hm : d.holdings.Made t pc.changes) (hk : ∀ c ∈ pc.changes, c.key ≠ k) :
    (d.holdings.commit t).committed k = d.holdings.committed k := by
  refine hm.owes.applies.same k ?_
  intro _ hw
  obtain ⟨c, hc, rfl⟩ := mem_map.1 hw
  exact hk c hc

theorem moved_commit {e : Delivery} (hm : d.holdings.Made t pc.changes)
    (ho : d.wiped.Owes t pc.wipedHeld) (htidy : pc.Tidy) (hdel : pc.delivers = some e)
    (hfresh : d.fresh e) : Moved pc d (d.commit t e) := by
  have hquiet : pc.wipedHeld = .nothing → ∀ c, (d.wiped.commit t).committed c =
      d.wiped.committed c := by
    intro hnothing c
    rw [hnothing] at ho
    exact HoldsNone.committed_commit ho.holdsNone c
  cases pc with
  | grant c st =>
    cases st with
    | written item qty old =>
      cases hdel
      have happ := hm.owes.applies
      have hkey : ∀ c' i, (c', i) ≠ (c.id, item) →
          (d.holdings.commit t).committed ⟨.character c', i⟩ =
            d.holdings.committed ⟨.character c', i⟩ := by
        intro _ _ hne
        refine committed_unchanged hm ?_
        intro _ hch heq
        cases mem_singleton.1 hch
        cases heq
        exact hne rfl
      refine .granted c item qty old rfl hfresh (happ.based _ mem_cons_self)
        (happ.written _ mem_cons_self) ?_ (hquiet rfl _) ?_ rfl rfl
      · intro i hi
        exact hkey c.id i (fun heq => hi (congrArg Prod.snd heq))
      · intro c' hc'
        refine ⟨fun i => hkey c' i (fun heq => hc' (congrArg Prod.fst heq)), hquiet rfl c'⟩
    | skipped =>
      cases hdel
      refine .skipped c rfl hfresh ?_ rfl rfl
      exact fun c' => ⟨fun i => committed_unchanged hm (fun _ hc => nomatch hc), hquiet rfl c'⟩
    | _ => cases hdel
  | wipe c st =>
    cases st with
    | deleting fresh todo removed =>
      cases todo with
      | cons => cases hdel
      | nil =>
        cases hdel
        have happ := hm.owes.applies
        refine .wiped c fresh removed rfl ?_ ?_ ?_ ?_ ?_ rfl rfl
        · intro _ hi
          obtain ⟨e, he, heq⟩ := mem_map.1 hi
          have hgone := happ.written (Change.write (⟨e.1, some e.2, none, []⟩ :
            Change HoldingKey Int Empty)) (mem_map_of_mem (mem_map_of_mem he))
          show (d.holdings.commit t).committed _ = none
          rw [← heq]
          exact hgone
        · intro _ hi
          refine committed_unchanged hm ?_
          intro _ hch heq
          obtain ⟨e, he, rfl⟩ := mem_map.1 hch
          exact hi (mem_map.2 ⟨e, he, heq⟩)
        · rintro rfl
          have hplant : (d.wiped.commit t).committed c.id = some () :=
            (Owes.applies ho).written _ mem_cons_self
          show (d.wiped.commit t).committed c.id ≠ none
          rw [hplant]
          exact some_ne_none _
        · rintro rfl
          exact hquiet rfl _
        · intro c' hc'
          refine ⟨fun i => committed_unchanged hm ?_, ?_⟩
          · intro _ hch heq
            obtain ⟨e, he, rfl⟩ := mem_map.1 hch
            have hown := htidy e he
            rw [show e.1 = _ from heq] at hown
            cases hown
            exact hc' rfl
          · cases fresh with
            | false => exact hquiet rfl c'
            | true =>
              refine (Owes.applies ho).same c' ?_
              exact forall_mem_singleton.2 (Ne.symm hc')
    | _ => cases hdel
  | purge q =>
    have hdel : (if q.ready then some Delivery.other else none) = some e := hdel
    split at hdel
    · cases hdel
      refine .aside (fun c => ⟨fun i => committed_unchanged hm ?_, hquiet rfl c⟩) rfl rfl
      intro _ hch heq
      cases q with
      | planted => cases hch
      | sweep =>
        obtain ⟨m, hm, rfl⟩ := mem_map.1 hch
        have hown : m.key.owner = .player m.player := of_decide_eq_true (htidy m hm)
        rw [show m.key = _ from heq] at hown
        cases hown
    · cases hdel
  | _ => cases hdel

/-- What a step commits about characters. -/
theorem moved_step (h : system.Reachable G w) (en : programs.enabled w (t, a)) :
    Moved (stmt t a).before w.data ((stmt t a).change w.data) := by
  have htidy := tidy_reachable h t
  rw [show w.pc t = _ from en.1] at htidy
  have hquiet : (∀ c i, ((stmt t a).change w.data).held c i = w.data.held c i) →
      (∀ c, ((stmt t a).change w.data).wiped.committed c = w.data.wiped.committed c) →
      ((stmt t a).change w.data).created = w.data.created →
      ((stmt t a).change w.data).deleted = w.data.deleted →
      Moved (stmt t a).before w.data ((stmt t a).change w.data) :=
    fun hh hw hc hd => .aside (fun c => ⟨hh c, hw c⟩) hc hd
  cases a with
  | commit => exact moved_commit (made_before h en) (wiped_before h en) htidy en.2.1 en.2.2
  | grantStarter => exact hquiet (fun _ _ => committed_write _ _ _ _ _) (fun _ => rfl) rfl rfl
  | wipeRow => exact hquiet (fun _ _ => committed_deleteWhere _ _ _ _ _) (fun _ => rfl) rfl rfl
  | wipePlant => exact hquiet (fun _ _ => rfl) (fun _ => committed_write _ _ _ _ _) rfl rfl
  | buyGrant =>
    refine hquiet (fun c item => ?_) (fun _ => rfl) rfl rfl
    refine (committed_put _ _ _ _).trans (if_neg ?_)
    intro heq
    cases heq
  | purge m => exact hquiet (fun _ _ => m.committed _) (fun _ => rfl) rfl rfl
  | grantError | refuse | fail =>
    exact hquiet (fun _ _ => committed_rollback _ _ _)
      (fun _ => committed_rollback _ _ _) rfl rfl
  | _ => exact hquiet (fun _ _ => rfl) (fun _ => rfl) rfl rfl

/-- A step leaves alone the characters that its session has not locked. -/
theorem Moved.same (h : Moved pc d d') (hc : pc.character ≠ some c) : Same d d' c := by
  cases h with
  | aside hsame | skipped e hpc _ hsame => exact hsame c
  | granted e item qty old hpc _ _ _ _ _ hsame | wiped e fresh removed hpc _ _ _ _ hsame =>
    refine hsame c ?_
    rintro rfl
    exact hc (by rw [hpc]; rfl)

end Changes

section Kept

/-- What holds of the committed rows of characters and of the deliveries. -/
structure Kept (d : Data) : Prop where
  wiped : ∀ c, d.wiped.committed c ≠ none ↔ c ∈ d.deleted
  fresh : ∀ c, c ∉ d.created.map Prod.fst → ∀ i, d.held c i = none
  gone : ∀ c ∈ d.deleted, ∀ i, d.held c i = none
  stack : ∀ e ∈ d.created, e.1 ∉ d.deleted → ∃ item qty, e.2 = some (item, qty) ∧
    ∀ i q, d.held e.1 i = some q ↔ i = item ∧ q = qty
  bounded : ∀ c i q, d.held c i = some q → 1 ≤ q ∧ q ≤ maxHoldingQty

/-- What a session knows about the character that it has locked. -/
def Knows (d : Data) : Pc → Prop
  | .grant c .cleared => d.wiped.committed c.id = none
  | .grant c (.resolved _ _) => d.wiped.committed c.id = none
  | .grant c (.written _ _ _) => d.wiped.committed c.id = none
  | .grant c .skipped => d.wiped.committed c.id ≠ none
  | .wipe c (.planted fresh) => fresh = false → d.wiped.committed c.id ≠ none
  | .wipe c (.deleting fresh todo removed) =>
    (fresh = false → d.wiped.committed c.id ≠ none) ∧
      ∀ i, d.held c.id i ≠ none →
        ⟨.character c.id, i⟩ ∈ todo ∨ ⟨.character c.id, i⟩ ∈ removed.map Prod.fst
  | _ => True

theorem Knows.of_same (h : Knows d pc) (hsame : ∀ c, pc.character = some c → Same d d' c) :
    Knows d' pc := by
  cases pc with
  | grant e st =>
    cases st with
    | opened | locked => trivial
    | cleared | resolved | written | skipped =>
      have hw := (hsame e.id rfl).wiped
      simp only [Knows] at h ⊢
      rw [hw]
      exact h
  | wipe e st =>
    cases st with
    | opened | locked => trivial
    | planted =>
      have hw := (hsame e.id rfl).wiped
      simp only [Knows] at h ⊢
      rw [hw]
      exact h
    | deleting =>
      have hs := hsame e.id rfl
      simp only [Knows] at h ⊢
      rw [hs.wiped]
      refine ⟨h.1, fun i hi => h.2 i ?_⟩
      rwa [hs.held i] at hi
  | _ => trivial

theorem kept_aside (h : Kept d) (hsame : ∀ c, Same d d' c) (hcreated : d'.created = d.created)
    (hdeleted : d'.deleted = d.deleted) : Kept d' where
  wiped := by
    intro c
    rw [(hsame c).wiped, hdeleted]
    exact h.wiped c
  fresh := by
    intro c hc i
    rw [(hsame c).held i]
    rw [hcreated] at hc
    exact h.fresh c hc i
  gone := by
    intro c hc i
    rw [(hsame c).held i]
    rw [hdeleted] at hc
    exact h.gone c hc i
  stack := by
    intro e he hne
    rw [hcreated] at he
    rw [hdeleted] at hne
    obtain ⟨item, qty, heq, hheld⟩ := h.stack e he hne
    refine ⟨item, qty, heq, fun i q => ?_⟩
    rw [(hsame e.1).held i]
    exact hheld i q
  bounded := by
    intro c i q hq
    rw [(hsame c).held i] at hq
    exact h.bounded c i q hq

variable {e : Uuid.Spelling}

/-- A grant that commits has found no holdings. -/
theorem kept_granted {item : String} {qty : Int} {old : Option Int} (h : Kept d)
    (hunwiped : d.wiped.committed e.id = none) (hqty : 0 < qty ∧ qty ≤ maxHoldingQty)
    (hfresh : e.id ∉ d.created.map Prod.fst) (hold : d.held e.id item = old)
    (hset : d'.held e.id item = some (old.getD 0 + qty))
    (hother : ∀ i, i ≠ item → d'.held e.id i = d.held e.id i)
    (hwiped : d'.wiped.committed e.id = d.wiped.committed e.id)
    (hsame : ∀ c, c ≠ e.id → Same d d' c)
    (hcreated : d'.created = d.created ++ [(e.id, some (item, qty))])
    (hdeleted : d'.deleted = d.deleted) : Kept d' := by
  have hnone := h.fresh e.id hfresh
  have hlive : e.id ∉ d.deleted := fun hmem => (h.wiped e.id).2 hmem hunwiped
  -- the character holds the granted stack and nothing else
  have hheld : ∀ i q, d'.held e.id i = some q ↔ i = item ∧ q = qty := by
    intro i _
    by_cases hi : i = item
    · subst hi
      rw [hset, ← hold, hnone i]
      simp [eq_comm]
    · rw [hother i hi, hnone i]
      simp [hi]
  refine ⟨?_, ?_, ?_, ?_, ?_⟩
  · intro c
    rw [hdeleted]
    by_cases hc : c = e.id
    · subst hc
      rw [hwiped]
      exact h.wiped e.id
    · rw [(hsame c hc).wiped]
      exact h.wiped c
  · intro c hc i
    rw [hcreated, map_append, mem_append] at hc
    have hne : c ≠ e.id := fun heq => hc (.inr (by rw [heq]; exact mem_singleton_self _))
    rw [(hsame c hne).held i]
    exact h.fresh c (fun hmem => hc (.inl hmem)) i
  · intro c hc i
    rw [hdeleted] at hc
    rw [(hsame c (fun heq => hlive (heq ▸ hc))).held i]
    exact h.gone c hc i
  · intro e' he' hne
    rw [hcreated] at he'
    rw [hdeleted] at hne
    rcases mem_append.1 he' with he' | he'
    · have hother : e'.1 ≠ e.id := fun heq => hfresh (heq ▸ mem_map_of_mem he')
      obtain ⟨item', qty', heq, hstack⟩ := h.stack e' he' hne
      refine ⟨item', qty', heq, fun i q => ?_⟩
      rw [(hsame e'.1 hother).held i]
      exact hstack i q
    · cases mem_singleton.1 he'
      exact ⟨item, qty, rfl, hheld⟩
  · intro c i q hq
    by_cases hc : c = e.id
    · subst hc
      obtain ⟨-, rfl⟩ := (hheld i q).1 hq
      exact hqty
    · rw [(hsame c hc).held i] at hq
      exact h.bounded c i q hq

variable {removed : List (HoldingKey × Int)}

/-- A wipe that commits has deleted all holdings. -/
theorem kept_wiped {fresh : Bool}
    (h : Kept d) (hknows : Knows d (.wipe e (.deleting fresh [] removed)))
    (hgone : ∀ i, ⟨.character e.id, i⟩ ∈ removed.map Prod.fst → d'.held e.id i = none)
    (hkept : ∀ i, ⟨.character e.id, i⟩ ∉ removed.map Prod.fst → d'.held e.id i = d.held e.id i)
    (hplant : fresh = true → d'.wiped.committed e.id ≠ none)
    (hwiped : fresh = false → d'.wiped.committed e.id = d.wiped.committed e.id)
    (hsame : ∀ c, c ≠ e.id → Same d d' c) (hcreated : d'.created = d.created)
    (hdeleted : d'.deleted = d.deleted ++ [e.id]) : Kept d' := by
  have hempty : ∀ i, d'.held e.id i = none := by
    intro i
    by_cases hi : ⟨.character e.id, i⟩ ∈ removed.map Prod.fst
    · exact hgone i hi
    · rw [hkept i hi]
      by_contra hne
      exact (hknows.2 i hne).elim (fun hmem => nomatch hmem) hi
  have hplanted : d'.wiped.committed e.id ≠ none := by
    cases fresh with
    | true => exact hplant rfl
    | false =>
      rw [hwiped rfl]
      exact hknows.1 rfl
  refine ⟨?_, ?_, ?_, ?_, ?_⟩
  · intro c
    rw [hdeleted, mem_append, mem_singleton]
    by_cases hc : c = e.id
    · subst hc
      simp [hplanted]
    · rw [(hsame c hc).wiped]
      simp [hc, h.wiped c]
  · intro c hc i
    rw [hcreated] at hc
    by_cases he : c = e.id
    · rw [he]
      exact hempty i
    · rw [(hsame c he).held i]
      exact h.fresh c hc i
  · intro c hc i
    rw [hdeleted, mem_append, mem_singleton] at hc
    by_cases he : c = e.id
    · rw [he]
      exact hempty i
    · rw [(hsame c he).held i]
      exact h.gone c (hc.resolve_right he) i
  · intro e' he' hne
    rw [hcreated] at he'
    rw [hdeleted, mem_append, mem_singleton, not_or] at hne
    obtain ⟨item', qty', heq, hstack⟩ := h.stack e' he' hne.1
    refine ⟨item', qty', heq, fun i q => ?_⟩
    rw [(hsame e'.1 hne.2).held i]
    exact hstack i q
  · intro c i q hq
    by_cases hc : c = e.id
    · rw [hc, hempty i] at hq
      cases hq
    · rw [(hsame c hc).held i] at hq
      exact h.bounded c i q hq

theorem kept_step (h : Kept d) (hknows : Knows d pc) (htidy : pc.Tidy) (hm : Moved pc d d') :
    Kept d' := by
  cases hm with
  | aside hsame hcreated hdeleted => exact kept_aside h hsame hcreated hdeleted
  | granted _ _ _ _ hpc hfresh hold hset hother hwiped hsame hcreated hdeleted =>
    subst hpc
    exact kept_granted h hknows htidy hfresh hold hset hother hwiped hsame hcreated hdeleted
  | skipped e hpc _ hsame hcreated hdeleted =>
    subst hpc
    have hnew : Kept { d' with created := d.created } := kept_aside h
      (fun c => ⟨(hsame c).held, (hsame c).wiped⟩) rfl hdeleted
    have hmem : e.id ∈ d'.deleted := by
      rw [hdeleted]
      exact (h.wiped e.id).1 hknows
    refine ⟨hnew.wiped, fun c hc => hnew.fresh c ?_, hnew.gone, ?_, hnew.bounded⟩
    · rw [hcreated, map_append, mem_append] at hc
      exact fun hmem => hc (.inl hmem)
    · intro e' he' hne
      rw [hcreated] at he'
      rcases mem_append.1 he' with he' | he'
      · exact hnew.stack e' he' hne
      · cases mem_singleton.1 he'
        exact absurd hmem hne
  | wiped _ _ _ hpc hgone hkept hplant hwiped hsame hcreated hdeleted =>
    subst hpc
    exact kept_wiped h hknows hgone hkept hplant hwiped hsame hcreated hdeleted

theorem holdsNone_of_nothing (ho : d.wiped.Owes t pc.wipedHeld)
    (hnothing : pc.wipedHeld = .nothing) : d.wiped.view t c = d.wiped.committed c := by
  rw [hnothing] at ho
  exact view_of_not_holder (ho.holdsNone c)

/-- The rows of the character that the `DELETE` has still to reach, or has deleted. -/
theorem knows_reach {todo : List HoldingKey} {fresh : Bool} {i : String}
    (hm : d.holdings.Made t (Pc.wipe e (.deleting fresh todo removed)).changes)
    (hi : d.held e.id i ≠ none)
    (hold : ⟨.character e.id, i⟩ ∈ todo ∨ ⟨.character e.id, i⟩ ∈ removed.map Prod.fst) :
    ⟨.character e.id, i⟩ ∈ todo.erase k ∨
      ⟨.character e.id, i⟩ ∈ (reachRow d t (.character e.id) k removed).map Prod.fst := by
  have hkeep : ⟨.character e.id, i⟩ ∈ removed.map Prod.fst →
      ⟨.character e.id, i⟩ ∈ (reachRow d t (.character e.id) k removed).map Prod.fst := by
    intro hmem
    unfold reachRow
    split
    · split
      · rw [map_append]
        exact mem_append_left _ hmem
      · exact hmem
    · exact hmem
  rcases hold with hmem | hmem
  · by_cases hk : ⟨.character e.id, i⟩ = k
    · subst hk
      refine .inr ?_
      cases hview : d.holdings.view t ⟨.character e.id, i⟩ with
      | none =>
        obtain ⟨_, hc, hkey⟩ := hm.owes.changed_of_unseen hview hi
        obtain ⟨e', he', rfl⟩ := mem_map.1 hc
        exact hkeep (mem_map.2 ⟨e', he', hkey⟩)
      | some => simp [reachRow, hview]
    · exact .inl ((mem_erase_of_ne hk).2 hmem)
  · exact .inr (hkeep hmem)

section

variable (h : system.Reachable G w)
include h

theorem knows_own (en : programs.enabled w (t, a)) (hknows : Knows w.data (stmt t a).before) :
    Knows ((stmt t a).change w.data) ((stmt t a).after w.data) := by
  have ho := wiped_before h en
  cases a with
  | checkWiped c =>
    have hg : w.data.wiped.view t c.id = none := en.2
    rwa [holdsNone_of_nothing ho rfl] at hg
  | skipWiped c =>
    have hg : w.data.wiped.view t c.id ≠ none := en.2
    rwa [holdsNone_of_nothing ho rfl] at hg
  | resolveStarter | grantStarter => exact hknows
  | wipePlant => exact fun hf => nomatch hf
  | wipePlantConflict => exact fun _ => en.2.2
  | wipeDelete c =>
    refine ⟨hknows, fun i hi => .inl ?_⟩
    have hview := (made_before h en).owes.view_same
      (k := ⟨.character c.id, i⟩) (fun _ hc => nomatch hc)
    obtain ⟨q, hq⟩ := ne_none_iff_exists'.1 hi
    exact mem_select.2 ⟨q, hview.trans hq, decide_eq_true rfl⟩
  | wipeRow c fresh todo removed k =>
    refine ⟨hknows.1, fun i hi => ?_⟩
    have hi : w.data.held c.id i ≠ none := by
      rwa [show ((stmt t (.wipeRow c fresh todo removed k)).change w.data).held c.id i =
        w.data.held c.id i from committed_deleteWhere _ _ _ _ _] at hi
    exact knows_reach (made_before h en) hi (hknows.2 i hi)
  | purge m =>
    show Knows _ (Pc.ofPoint ((m.stmt policy t).after w.data.tables))
    cases (m.stmt policy t).after w.data.tables <;> trivial
  | _ => trivial

theorem kept_reachable : Kept w.data ∧ ∀ t, Knows w.data (w.pc t) := by
  refine joint_invariant (X := programs) (I := Kept) (L := fun d _ pc => Knows d pc)
    ⟨?_, fun _ _ _ => rfl, ?_, ?_, ?_⟩ (fun _ => trivial) ?_ h
  · intro _
    exact ⟨fun hne => absurd rfl hne, fun hmem => nomatch hmem⟩
  · intro _ hc
    cases hc
  · intro _ he
    cases he
  · intro _ _ _ hq
    cases hq
  intro w t a hr _ en hkept hknows hown
  have hm := moved_step hr en
  have hpc : w.pc t = (stmt t a).before := en.1
  refine ⟨kept_step hkept hown (hpc ▸ tidy_reachable hr t) hm, knows_own hr en hown, ?_⟩
  intro u hu
  refine (hknows u).of_same (fun c hc => hm.same (fun hc' => hu ?_))
  rw [← hpc] at hc'
  exact character_exclusive hr hc hc'

/-- The grant of a starter stack is not refused. -/
theorem grantExec_starter {item : String} {qty : Int}
    (hpc : w.pc t = .grant e (.resolved item qty)) :
    ∃ total, w.data.grantExec t ⟨.character e.id, item⟩ qty = .ok total := by
  have htidy := tidy_reachable h t
  have hm := made_reachable h t
  rw [hpc] at htidy hm
  obtain ⟨hitem, hpos, hmax⟩ := htidy
  have hview := hm.owes.view_same (k := ⟨.character e.id, item⟩) (fun _ hc => nomatch hc)
  have hbound : 0 ≤ (w.data.holdings.committed ⟨.character e.id, item⟩).getD 0 ∧
      (w.data.holdings.committed ⟨.character e.id, item⟩).getD 0 ≤ maxHoldingQty := by
    cases hrow : w.data.holdings.committed ⟨.character e.id, item⟩ with
    | none => decide
    | some q =>
      have hq := (kept_reachable h).1.bounded e.id item q hrow
      exact ⟨by show 0 ≤ q; omega, hq.2⟩
  refine ⟨(w.data.holdings.committed ⟨.character e.id, item⟩).getD 0 + qty, ?_⟩
  have hsum : 0 ≤ (w.data.holdings.committed ⟨.character e.id, item⟩).getD 0 + qty ∧
      (w.data.holdings.committed ⟨.character e.id, item⟩).getD 0 + qty ≤ maxStoredQty := by
    simp only [maxHoldingQty] at hbound hmax
    simp only [maxStoredQty]
    omega
  simp [Data.grantExec, validateQuantity, hpos, hmax, hitem, hview, hsum]

theorem errors_nil : w.data.errors = [] := by
  refine data_invariant (X := programs) (I := fun d => d.errors = []) rfl ?_ h
  intro w t a hr _ en hold
  cases a with
  | grantError c item qty e =>
    obtain ⟨_, htotal⟩ := grantExec_starter hr en.1
    have herr : w.data.grantExec t ⟨.character c.id, item⟩ qty = .error e := en.2.2
    rw [htotal] at herr
    cases herr
  | commit _ e => cases e <;> exact hold
  | _ => exact hold

/-- A delivery stays recorded. -/
theorem deleted_reaches (hrun : system.Reaches G w w')
    (hc : c ∈ w.data.deleted) : c ∈ w'.data.deleted := by
  induction hrun with
  | refl => exact hc
  | tail b run _ en ih =>
    cases moved_step (h.trans run) (t := b.1) (a := b.2) en with
    | aside _ _ hdeleted | granted _ _ _ _ _ _ _ _ _ _ _ _ hdeleted
    | skipped _ _ _ _ _ hdeleted => exact hdeleted ▸ ih
    | wiped _ _ _ _ _ _ _ _ _ _ hdeleted => exact hdeleted ▸ mem_append_left _ ih

end

end Kept

section Life

/-- Items follow the character's life.  A character with a row in `wiped_characters` has no
holdings, then and at any later time; a character that was created and not deleted holds the
stack that was granted and nothing else; the quantities are in range; and the grant never
answers with an error of its own, whatever the settings are. -/
theorem items_follow_character (h : system.Reachable TransitionSystem.anyStep w)
    (hrun : system.Reaches TransitionSystem.anyStep w w') :
    (∀ c, w.data.wiped.committed c ≠ none → ∀ item, w'.data.held c item = none) ∧
    (∀ c stack, (c, stack) ∈ w.data.created → c ∉ w.data.deleted →
      ∃ item qty, stack = some (item, qty) ∧ ∀ i q, w.data.held c i = some q ↔ i = item ∧ q = qty) ∧
    (∀ c item q, w.data.held c item = some q → 1 ≤ q ∧ q ≤ maxHoldingQty) ∧
    w.data.errors = [] := by
  have hkept := (kept_reachable h).1
  refine ⟨?_, ?_, hkept.bounded, errors_nil h⟩
  · intro c hc item
    have hdel := deleted_reaches h hrun ((hkept.wiped c).1 hc)
    exact (kept_reachable (h.trans hrun)).1.gone c hdel item
  · intro c stack hmem hlive
    exact hkept.stack (c, stack) hmem hlive

def knightId : Uuid := .filled 12

/-- A character. -/
def knight : Uuid.Spelling where
  text := knightId.text
  id := knightId
  reads := by decide +kernel

def squireId : Uuid := .filled 13

def squire : Uuid.Spelling where
  text := squireId.text
  id := squireId
  reads := by decide +kernel

/-- A character is deleted before its creation is delivered; another one is granted the
default, because nothing configured can be granted. -/
def wipedFirstRun : List (Sess × Act) :=
  [(0, .wipeOpen knight), (1, .grantOpen knight), (0, .wipeLock knight),
   (0, .wipePlant knight), (0, .wipeDelete knight true),
   (0, .commit (.wipe knight (.deleting true [] [])) (.deleted knight.id)),
   (1, .grantLock knight), (1, .skipWiped knight),
   (1, .commit (.grant knight .skipped) (.created knight.id none)),
   (2, .grantOpen squire), (2, .grantLock squire), (2, .checkWiped squire),
   (2, .resolveStarter squire ⟨some "excalibur", some (-5)⟩),
   (2, .grantStarter squire "starter_sword" 1 1),
   (2, .commit (.grant squire (.written "starter_sword" 1 none))
     (.created squire.id (some ("starter_sword", 1))))]

theorem items_follow_wiped_first :
    ∃ w, system.Reachable TransitionSystem.anyStep w ∧
      w.data.wiped.committed knight.id ≠ none ∧ w.data.held knight.id "starter_sword" = none ∧
      w.data.held squire.id "starter_sword" = some 1 ∧ w.data.errors = [] := by
  obtain ⟨w, hr, hf⟩ := TransitionSystem.exec_exhibits (T := system) TransitionSystem.anyStep
    wipedFirstRun
    (f := fun w => decide (w.data.wiped.committed knight.id ≠ none ∧
      (squire.id, some ("starter_sword", 1)) ∈ w.data.created ∧ squire.id ∉ w.data.deleted))
    (by decide +kernel)
  obtain ⟨hwiped, hcreated, hlive⟩ := of_decide_eq_true hf
  obtain ⟨hgone, hstack, -, herrors⟩ := items_follow_character hr (.refl w)
  obtain ⟨_, _, heq, hheld⟩ := hstack _ _ hcreated hlive
  cases heq
  exact ⟨w, hr, hwiped, hgone _ hwiped _, (hheld _ _).2 ⟨rfl, rfl⟩, herrors⟩

end Life

end Swarog.Inventory
