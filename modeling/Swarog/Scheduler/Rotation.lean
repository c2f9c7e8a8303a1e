import Swarog.Scheduler.Tick

/-!
# The rotation of the ticks

A tick attempts the due names in a rotation that resumes after the name which was attempted
last, and it may stop before any of them.  Going up from the cursor, and from the least name
on when the greatest is passed, every attempt takes the first due name.  So a name that stays
due is reached before the walk comes back to where it was.
-/

namespace Swarog.Scheduler

open List Option

section Circle

variable {α : Type*} [LinearOrder α] {c b e m : α}

/-- Going up from `c`, and on from the bottom, the walk meets `e` before `m`.  It meets `c`
itself last. -/
def Before (c e m : α) : Prop := (c < e ∧ e < m) ∨ (e < m ∧ m ≤ c) ∨ (m ≤ c ∧ c < e)

theorem Before.irrefl : ¬ Before c c m := by
  rintro (⟨h, -⟩ | ⟨h, h'⟩ | ⟨-, h⟩)
  · exact lt_irrefl c h
  · exact lt_irrefl c (h.trans_le h')
  · exact lt_irrefl c h

theorem Before.trans (h : Before c b m) (h' : Before b e m) : Before c e m := by
  rcases h with ⟨h₁, h₂⟩ | ⟨h₁, h₂⟩ | ⟨h₁, h₂⟩ <;>
    rcases h' with ⟨h₃, h₄⟩ | ⟨h₃, h₄⟩ | ⟨h₃, h₄⟩ <;>
      unfold Before <;> grind

/-- Three names that are met in turn are met so from the first of them. -/
theorem Before.advance (hbe : Before c b e) (hem : Before c e m) : Before b e m := by
  rcases hbe with ⟨h₁, h₂⟩ | ⟨h₁, h₂⟩ | ⟨h₁, h₂⟩ <;>
    rcases hem with ⟨h₃, h₄⟩ | ⟨h₃, h₄⟩ | ⟨h₃, h₄⟩ <;>
      unfold Before <;> grind

theorem Before.last (h : Before c b e) : Before b e b := by
  have hne : b ≠ e := by
    rintro rfl
    rcases h with ⟨-, h⟩ | ⟨h, -⟩ | ⟨h, h'⟩
    · exact lt_irrefl b h
    · exact lt_irrefl b h
    · exact lt_irrefl c (h'.trans_le h)
  rcases lt_or_gt_of_ne hne with h | h
  · exact .inr (.inr ⟨le_rfl, h⟩)
  · exact .inr (.inl ⟨h, le_rfl⟩)

/-- A list in the order `R`, read on from its head. -/
theorem pairwise_turn {R : α → α → Prop} {l : List α} (h : (b :: l).Pairwise R)
    (hadvance : ∀ e f, R b e → R e f → Before b e f) (hlast : ∀ e, R b e → Before b e b) :
    (l ++ [b]).Pairwise (Before b) := by
  obtain ⟨hb, hl⟩ := pairwise_cons.1 h
  refine pairwise_append.2 ⟨?_, pairwise_singleton _ _, ?_⟩
  · refine hl.imp_of_mem ?_
    intro e f he _
    exact hadvance e f (hb e he)
  · intro e he _ hm
    rw [mem_singleton.1 hm]
    exact hlast e (hb e he)

theorem pairwise_advance {l : List α} (h : (b :: l).Pairwise (Before c)) :
    (l ++ [b]).Pairwise (Before b) :=
  pairwise_turn h (fun _ _ hb => hb.advance) (fun _ hb => hb.last)

theorem pairwise_advance_sorted {l : List α} (h : (b :: l).Pairwise (· < ·)) :
    (l ++ [b]).Pairwise (Before b) :=
  pairwise_turn h (fun _ _ hb hef => .inl ⟨hb, hef⟩) (fun _ hb => .inr (.inr ⟨le_rfl, hb⟩))

variable {p : α → Bool} {l : List α}

theorem lt_of_mem_dropWhile (hp : ∀ x, p x = true ↔ x ≤ c) (h : l.Pairwise (· < ·))
    (he : e ∈ l.dropWhile p) : c < e := by
  induction l with
  | nil => cases he
  | cons b _ ih =>
    obtain ⟨hb, hl⟩ := pairwise_cons.1 h
    by_cases hbc : p b = true
    · rw [dropWhile_cons_of_pos hbc] at he
      exact ih hl he
    · rw [dropWhile_cons_of_neg hbc] at he
      have hcb : c < b := not_le.1 (fun hle => hbc ((hp b).2 hle))
      rcases mem_cons.1 he with rfl | he
      · exact hcb
      · exact hcb.trans (hb e he)

/-- A sorted list, rotated to the first element above `c`. -/
theorem pairwise_rotated (hp : ∀ x, p x = true ↔ x ≤ c) (h : l.Pairwise (· < ·)) :
    (l.dropWhile p ++ l.takeWhile p).Pairwise (Before c) := by
  have hle : ∀ e ∈ l.takeWhile p, e ≤ c := fun e he => (hp e).1 (mem_takeWhile_imp he)
  refine pairwise_append.2 ⟨?_, ?_, ?_⟩
  · refine (h.sublist (dropWhile_sublist _)).imp_of_mem ?_
    intro _ _ he _ hem
    exact .inl ⟨lt_of_mem_dropWhile hp h he, hem⟩
  · refine (h.sublist (takeWhile_sublist _)).imp_of_mem ?_
    intro _ m _ hm hem
    exact .inr (.inl ⟨hem, hle m hm⟩)
  · intro _ he m hm
    exact .inr (.inr ⟨hle m hm, lt_of_mem_dropWhile hp h he⟩)

omit [LinearOrder α] in
/-- A prefix that is the whole list need not be brought behind it. -/
theorem rotate_takeWhile (p : α → Bool) (l : List α) :
    l.rotate (if (l.takeWhile p).length = l.length then 0 else (l.takeWhile p).length) =
      l.dropWhile p ++ l.takeWhile p := by
  have hsplit : l.takeWhile p ++ l.dropWhile p = l := takeWhile_append_dropWhile
  split
  · rename_i hlen
    have hall : l.takeWhile p = l := (takeWhile_sublist p).eq_of_length hlen
    have hnone : l.dropWhile p = [] := by
      rw [hall] at hsplit
      simpa using hsplit
    rw [rotate_zero, hall, hnone, nil_append]
  · calc l.rotate (l.takeWhile p).length
        = (l.takeWhile p ++ l.dropWhile p).rotate (l.takeWhile p).length := by rw [hsplit]
      _ = l.dropWhile p ++ l.takeWhile p := rotate_append_length_eq _ _

end Circle

section Ticks

/-- What a tick meets at the boundary before a schedule: the stop signal, an exhausted
budget, or a fire that succeeds or fails. -/
inductive Boundary
  | stop
  | exhausted
  | fire (ok : Bool)
deriving DecidableEq

/-- What a scan answers: names in order, each once. -/
structure Due where
  names : List Name
  sorted : names.Pairwise (· < ·)

/-- The scan of `dueSchedules` answers such a list. -/
theorem sorted_dueSchedules (now : Int) (schedules : Pg.Table Name Pg.Sess Schedule) :
    (dueSchedules now schedules).Pairwise (· < ·) := by
  have hkeys : (schedules.rows.map Prod.fst).Nodup := by
    refine List.Nodup.map_on ?_ schedules.nodup_rows
    intro _ ha _ hb hab
    have hrow := Pg.Table.mem_rows.1 ha
    rw [hab, Pg.Table.mem_rows.1 hb] at hrow
    exact Prod.ext hab (some.inj hrow).symm
  have hle : (dueSchedules now schedules).Pairwise (· ≤ ·) := by
    unfold dueSchedules
    convert pairwise_insertionSort (α := Name) (· ≤ ·) _ using 3 with a
    exact funext fun b => propext String.le_iff_toList_le.symm
  have hnodup : (dueSchedules now schedules).Nodup :=
    (perm_insertionSort _ _).nodup_iff.2 (hkeys.sublist (filter_sublist.map _))
  refine (hle.and hnodup).imp ?_
  intro _ _ hab
  exact lt_of_le_of_ne hab.1 hab.2

/-- What the outside decides about a tick: the scan, which may fail, and each boundary. -/
structure Tick where
  due : Option Due
  boundary : Nat → Boundary

structure Ticked where
  cursor : Option Name
  attempts : List Name
  failed : Nat
deriving DecidableEq

/-- The loop of a tick from an offset on, over the names that are left. -/
def tickFrom (boundary : Nat → Boundary) : Nat → List Name → Option Name → Ticked
  | _, [], cursor => ⟨cursor, [], 0⟩
  | offset, name :: todo, cursor =>
    match boundary offset with
    | .stop => ⟨cursor, [], 0⟩
    | .exhausted => ⟨cursor, [], 1⟩
    | .fire ok =>
      let rest := tickFrom boundary (offset + 1) todo (some name)
      { rest with
        attempts := name :: rest.attempts
        failed := rest.failed + if ok then 0 else 1 }

def tick (t : Tick) (cursor : Option Name) : Ticked :=
  match t.due with
  | none => ⟨cursor, [], 1⟩
  | some due => tickFrom t.boundary 0 (due.names.rotate (rotationStart due.names cursor)) cursor

/-- An attempt, with the number of its tick. -/
abbrev Attempt := Nat × Name

/-- The cursor and the attempts after a number of ticks. -/
def runLoop (ticks : Nat → Tick) : Nat → Option Name × List Attempt
  | 0 => (none, [])
  | n + 1 =>
    let ticked := tick (ticks n) (runLoop ticks n).1
    (ticked.cursor, (runLoop ticks n).2 ++ ticked.attempts.map (Prod.mk n))

end Ticks

section Attempts

variable {boundary : Nat → Boundary} {cursor : Option Name} {todo : List Name} {last name : Name}

theorem pairwise_rotate (due : Due) (last : Name) :
    (due.names.rotate (rotationStart due.names (some last))).Pairwise (Before last) := by
  unfold rotationStart
  split
  · rename_i h
    simp [h]
  · rw [rotate_takeWhile]
    refine pairwise_rotated (fun name => ?_) due.sorted
    exact decide_eq_true_iff.trans String.le_iff_toList_le.symm

/-- From `last` the walk goes to `name`, among the names that are due. -/
def Next (due : Name → Prop) (last name : Name) : Prop :=
  ∀ other, due other → other ≠ name → Before last name other

theorem Next.mono {due due' : Name → Prop} (h : Next due last name) (hle : ∀ m, due' m → due m) :
    Next due' last name :=
  fun other hother => h other (hle other hother)

/-- With the attempted names put behind those that are left, the list stays in the order of
the walk. -/
theorem chain_tickFrom {offset : Nat} {done : List Name}
    (h : (todo ++ done).Pairwise (Before last)) :
    (last :: (tickFrom boundary offset todo (some last)).attempts).IsChain
      (Next (· ∈ todo ++ done)) := by
  induction todo generalizing offset done last with
  | nil => simp [tickFrom]
  | cons name todo ih =>
    have hnext : (todo ++ (done ++ [name])).Pairwise (Before name) := by
      rw [← append_assoc]
      exact pairwise_advance h
    unfold tickFrom
    split
    · exact .singleton _
    · exact .singleton _
    · refine isChain_cons_cons.2 ⟨?_, (ih hnext).imp ?_⟩
      · intro other hother hne
        exact (pairwise_cons.1 h).1 other ((mem_cons.1 hother).resolve_left hne)
      · intro _ _ hab
        exact hab.mono (by simp; tauto)

theorem cursor_tickFrom (offset : Nat) (todo : List Name) (cursor : Option Name) :
    (tickFrom boundary offset todo cursor).cursor =
      (tickFrom boundary offset todo cursor).attempts.getLast?.or cursor := by
  induction todo generalizing offset cursor with
  | nil => simp [tickFrom]
  | cons name todo ih =>
    unfold tickFrom
    split
    · simp
    · simp
    · simp only [ih, List.getLast?_cons]
      cases (tickFrom boundary (offset + 1) todo (some name)).attempts.getLast? <;> simp

theorem cursor_tick (t : Tick) (cursor : Option Name) :
    (tick t cursor).cursor = (tick t cursor).attempts.getLast?.or cursor := by
  unfold tick
  split
  · simp
  · exact cursor_tickFrom _ _ _

/-- A name that is due in every tick of a range whose scan does not fail. -/
def DueIn (ticks : Nat → Tick) (i k : Nat) (name : Name) : Prop :=
  ∀ l, i ≤ l → l ≤ k → ∀ due, (ticks l).due = some due → name ∈ due.names

theorem chain_tick (t : Tick) (cursor : Option Name) :
    (cursor.toList ++ (tick t cursor).attempts).IsChain
      (Next (fun name => ∀ due, t.due = some due → name ∈ due.names)) := by
  cases hdue : t.due with
  | none => cases cursor <;> simp [tick, hdue]
  | some due =>
    simp only [tick, hdue, some.injEq, forall_eq']
    cases cursor with
    | some last =>
      have horder := pairwise_rotate due last
      rw [← append_nil (due.names.rotate _)] at horder
      simpa using chain_tickFrom horder
    | none =>
      have hstart : rotationStart due.names none = 0 := by
        unfold rotationStart
        split <;> simp
      rw [hstart, rotate_zero]
      obtain ⟨names, hsorted⟩ := due
      cases names with
      | nil => simp [tickFrom]
      | cons =>
        simp only [tickFrom, toList_none, nil_append]
        split
        · exact .nil
        · exact .nil
        · refine (chain_tickFrom (pairwise_advance_sorted hsorted)).imp ?_
          intro _ _ hab
          exact hab.mono (by simp; tauto)

end Attempts

section Runs

variable {ticks : Nat → Tick} {x m : Name}

/-- From one attempt the loop goes to the other. -/
def Follows (ticks : Nat → Tick) (a b : Attempt) : Prop :=
  a.1 ≤ b.1 ∧ Next (DueIn ticks a.1 b.1) a.2 b.2

theorem cursor_runLoop (n : Nat) :
    (runLoop ticks n).1 = (runLoop ticks n).2.getLast?.map Prod.snd := by
  induction n with
  | zero => rfl
  | succ _ ih =>
    simp only [runLoop, cursor_tick, List.getLast?_append, List.getLast?_map, Option.map_or, ih,
      Option.map_map]
    simp [Function.comp_def]

theorem chain_runLoop (n : Nat) :
    (runLoop ticks n).2.IsChain (Follows ticks) ∧ ∀ a ∈ (runLoop ticks n).2, a.1 < n := by
  induction n with
  | zero => exact ⟨.nil, by simp [runLoop]⟩
  | succ n ih =>
    obtain ⟨hchain, hlt⟩ := ih
    obtain ⟨-, hin, hlink⟩ := isChain_append.1 (chain_tick (ticks n) (runLoop ticks n).1)
    rw [cursor_runLoop] at hin hlink
    simp only [runLoop, cursor_runLoop]
    refine ⟨isChain_append.2 ⟨hchain, ?_, ?_⟩, ?_⟩
    · refine (isChain_map _).2 (hin.imp ?_)
      intro _ _ hab
      exact ⟨le_rfl, hab.mono (fun m hm => hm n le_rfl le_rfl)⟩
    · intro a ha _ hb
      rw [List.head?_map] at hb
      obtain ⟨name, hname, rfl⟩ := map_eq_some_iff.1 hb
      have hle : a.1 ≤ n := (hlt a (mem_of_getLast? ha)).le
      have hnext := hlink a.2 (by simp [mem_def.1 ha]) name hname
      exact ⟨hle, hnext.mono (fun m hm => hm n hle le_rfl)⟩
    · intro a ha
      rcases mem_append.1 ha with ha | ha
      · exact (hlt a ha).trans (Nat.lt_succ_self n)
      · obtain ⟨_, -, rfl⟩ := mem_map.1 ha
        exact Nat.lt_succ_self n

/-- A walk that has left `x`, has not met `m` and comes back to `x`. -/
theorem mem_of_chain {last : Attempt} {between : List Attempt} {j : Nat}
    (hchain : (last :: (between ++ [(j, x)])).IsChain (Follows ticks))
    (hdue : DueIn ticks last.1 j m) (hm : m ≠ x) (hlast : last.2 = x ∨ Before x last.2 m) :
    ∃ k, (k, m) ∈ between := by
  induction between generalizing last with
  | nil =>
    obtain ⟨-, hnext⟩ := (isChain_cons_cons.1 hchain).1
    have hback : Before last.2 x m := hnext m hdue hm
    rcases hlast with rfl | hlast
    · exact absurd hback Before.irrefl
    · exact absurd (hlast.trans hback) Before.irrefl
  | cons b _ ih =>
    obtain ⟨⟨hle, hnext⟩, hrest⟩ := isChain_cons_cons.1 hchain
    by_cases hb : m = b.2
    · exact ⟨b.1, by simp [hb]⟩
    · have hbj : b.1 ≤ j := by
        have hmono := (hrest.imp (fun a b h => h.1)).pairwise
        exact (pairwise_cons.1 hmono).1 (j, x) (by simp)
      have hstep : Before last.2 b.2 m := hnext m (fun l h h' => hdue l h (h'.trans hbj)) hb
      obtain ⟨k, hk⟩ := ih hrest (fun l h h' => hdue l (hle.trans h) h') (by
        rcases hlast with rfl | hlast
        · exact .inr hstep
        · exact .inr (hlast.trans hstep))
      exact ⟨k, mem_cons_of_mem b hk⟩

/-- Between two attempts of one name, every other name that stays due is attempted. -/
theorem due_not_bypassed {n i j : Nat} {before between after : List Attempt}
    (hrun : (runLoop ticks n).2 = before ++ (i, x) :: between ++ (j, x) :: after)
    (hm : m ≠ x) (hdue : DueIn ticks i j m) : ∃ k, (k, m) ∈ between := by
  have hchain : (runLoop ticks n).2.IsChain (Follows ticks) := (chain_runLoop n).1
  rw [hrun] at hchain
  have hpart : ((i, x) :: (between ++ [(j, x)])).IsChain (Follows ticks) :=
    hchain.infix ⟨before, after, by simp⟩
  exact mem_of_chain hpart hdue hm (.inl rfl)

/-- Two schedules are due in three ticks, each of which can afford one attempt, and fails. -/
def slowTicks (_ : Nat) : Tick where
  due := some ⟨["a", "b"], by decide⟩
  boundary := fun offset => if offset = 0 then .fire false else .exhausted

theorem due_not_bypassed_slow :
    (runLoop slowTicks 3).2 = [(0, "a"), (1, "b"), (2, "a")] ∧ ∃ k, (k, "b") ∈ [(1, "b")] :=
  have hrun : (runLoop slowTicks 3).2 = [(0, "a"), (1, "b"), (2, "a")] := by decide
  ⟨hrun, @due_not_bypassed slowTicks "a" "b" 3 0 2 [] [(1, "b")] [] hrun (by decide)
    (fun l _ _ due hdue => by cases hdue; simp)⟩

end Runs

end Swarog.Scheduler
