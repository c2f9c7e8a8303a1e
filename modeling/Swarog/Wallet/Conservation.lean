import Swarog.Pg.Running
import Swarog.Wallet.Commit

/-!
# Conservation of money

The history of recorded movements is the abstract account book: for each player
and currency a list of entries with running balances.  `Book` ties the committed
ledger and the event log to it, `Balanced` the committed balances.  Both are
invariants; their steps are the two cases of `Sound.commit_cases`.

Sequence numbers are drawn under the balance row lock, so the commit order of the
movements of one balance row is their order by `seq`.
-/

namespace Swarog.Wallet

open Pg List

namespace State

/-- The recorded movements of a balance row, in commit order. -/
def movementsOf (s : State) (k : Uuid × String) : List Applied :=
  s.applied.filter (fun e => e.pair = k)

theorem mem_movementsOf {s : State} {k : Uuid × String} {e : Applied} :
    e ∈ s.movementsOf k ↔ e ∈ s.applied ∧ e.pair = k := by
  simp [movementsOf]

/-- The committed ledger and the event log follow the history. -/
structure Book (s : State) : Prop where
  keys : (s.applied.map Applied.key).Nodup
  entry : ∀ e ∈ s.applied, s.ledger.committed e.key = some e.row ∨
    (s.Swept e.row.player ∧ s.ledger.committed e.key = some { e.row with player := Uuid.nil })
  row : ∀ k row, s.ledger.committed k = some row → ∃ e ∈ s.applied, e.key = k
  changed : s.changed = s.applied.map Applied.changed

/-- The committed balances of players that were not swept follow the history. -/
structure Balanced (s : State) : Prop where
  sorted : ∀ k, (s.movementsOf k).Pairwise (fun e e' => e.row.seq < e'.row.seq)
  running : ∀ k, ¬ s.Swept k.1 →
    Running (fun e : Applied => e.row.delta) (fun e => e.row.balanceAfter) 0 (s.movementsOf k)
  balance : ∀ k, ¬ s.Swept k.1 →
    s.balances.committed k = (s.movementsOf k).getLast?.map (fun e => e.row.balanceAfter)
  range : ∀ k b, s.balances.committed k = some b → InRange b

section Book

variable {s s' : State}

theorem Book.committed_ne_none (h : s.Book) {e : Applied} (he : e ∈ s.applied) :
    s.ledger.committed e.key ≠ none := by
  rcases h.entry e he with hrow | ⟨-, hrow⟩ <;> simp [hrow]

theorem Book.of_records {e : Applied} (h : s.Book) (hrec : Records s s' e) : s'.Book := by
  have hfresh : ∀ e' ∈ s.applied, e'.key ≠ e.key := by
    intro _ he' hkey
    exact h.committed_ne_none he' (hkey ▸ hrec.unused)
  constructor
  · rw [hrec.applied, map_append, nodup_append]
    refine ⟨h.keys, nodup_singleton _, ?_⟩
    intro _ hk _ hk'
    obtain ⟨e', he', rfl⟩ := mem_map.1 hk
    rw [map_singleton, mem_singleton] at hk'
    exact hk' ▸ hfresh e' he'
  · intro e' he'
    rw [hrec.applied, mem_append, mem_singleton] at he'
    rw [hrec.ledger]
    rcases he' with he' | rfl
    · rw [if_neg (hfresh e' he'), Swept, hrec.purged]
      exact h.entry e' he'
    · exact .inl (if_pos rfl)
  · intro k row hk
    rw [hrec.applied]
    rw [hrec.ledger] at hk
    split at hk
    · rename_i hkey
      exact ⟨e, mem_append_right _ mem_cons_self, hkey.symm⟩
    · obtain ⟨e', he', hkey⟩ := h.row k row hk
      exact ⟨e', mem_append_left _ he', hkey⟩
  · rw [hrec.changed, hrec.applied, h.changed, map_append, map_singleton]

theorem Book.of_erases (h : s.Book) (hera : Erases s s') : s'.Book := by
  constructor
  · rw [hera.applied]
    exact h.keys
  · intro e he
    rw [hera.applied] at he
    rcases hera.ledger e.key with hsame | ⟨_, hrow, hrow', hsw, hnil⟩
    · rw [hsame]
      exact (h.entry e he).imp_right (fun hr => ⟨hera.swept _ hr.1, hr.2⟩)
    · rcases h.entry e he with hent | ⟨-, hent⟩ <;>
        rw [hent, Option.some.injEq] at hrow <;> subst hrow
      · exact .inr ⟨hsw, hrow'⟩
      · exact absurd rfl hnil
  · intro k row hk
    rw [hera.applied]
    rcases hera.ledger k with hsame | ⟨row', hrow', -⟩
    · exact h.row k row (hsame ▸ hk)
    · exact h.row k row' hrow'
  · rw [hera.changed, hera.applied, h.changed]

end Book

section Balanced

variable {s s' : State}

theorem movementsOf_records {e : Applied} (hrec : Records s s' e) (k : Uuid × String) :
    s'.movementsOf k =
      if k = e.pair then s.movementsOf k ++ [e] else s.movementsOf k := by
  rw [movementsOf, hrec.applied, filter_append]
  by_cases hk : k = e.pair
  · simp [movementsOf, hk]
  · simp [movementsOf, hk, Ne.symm hk]

theorem Balanced.of_records {e : Applied} (h : s.Balanced) (hrec : Records s s' e) :
    s'.Balanced := by
  have hswept : ∀ p, s'.Swept p ↔ s.Swept p := by
    intro _
    rw [Swept, Swept, hrec.purged]
  constructor
  · intro k
    rw [movementsOf_records hrec]
    split
    · rename_i hk
      subst hk
      rw [pairwise_append]
      refine ⟨h.sorted _, pairwise_singleton _ _, ?_⟩
      intro e₁ he₁ _ he₂
      rw [mem_singleton] at he₂
      obtain ⟨hmem, hpair⟩ := mem_movementsOf.1 he₁
      exact he₂ ▸ hrec.latest.last e₁ hmem hpair
    · exact h.sorted k
  · intro k hk
    rw [hswept] at hk
    rw [movementsOf_records hrec]
    split
    · rename_i hpair
      subst hpair
      rw [running_append_singleton]
      refine ⟨h.running _ hk, ?_⟩
      rw [total, ← h.balance _ hk]
      exact hrec.running
    · exact h.running k hk
  · intro k hk
    rw [hswept] at hk
    rw [hrec.balances, movementsOf_records hrec]
    split
    · simp
    · exact h.balance k hk
  · intro k b hb
    rw [hrec.balances] at hb
    split at hb
    · cases hb
      exact hrec.range
    · exact h.range k b hb

theorem Balanced.of_erases (h : s.Balanced) (hera : Erases s s') : s'.Balanced := by
  have hmov : ∀ k, s'.movementsOf k = s.movementsOf k := by
    intro _
    rw [movementsOf, hera.applied, movementsOf]
  constructor
  · intro k
    rw [hmov]
    exact h.sorted k
  · intro k hk
    rw [hmov]
    exact h.running k (fun hs => hk (hera.swept _ hs))
  · intro k hk
    rw [hmov]
    rcases hera.balances k with hsame | ⟨-, hsw⟩
    · rw [hsame]
      exact h.balance k (fun hs => hk (hera.swept _ hs))
    · exact absurd hsw hk
  · intro k b hb
    rcases hera.balances k with hsame | ⟨hnone, -⟩
    · exact h.range k b (hsame ▸ hb)
    · rw [hnone] at hb
      cases hb

end Balanced

section Reachable

variable {s : State}

theorem book_start : State.start.Book where
  keys := nodup_nil
  entry := fun _ h => by cases h
  row := fun _ _ h => by cases h
  changed := rfl

theorem balanced_start : State.start.Balanced where
  sorted := fun _ => List.Pairwise.nil
  running := fun _ _ => trivial
  balance := fun _ _ => rfl
  range := fun _ _ h => by cases h

theorem book_reachable {G : State → Act → Prop} (h : system.Reachable G s) : s.Book := by
  refine h.invariant book_start ?_
  intro _ _ hr hbook _ en
  rcases (sound_reachable hr).commit_cases en with ⟨_, _, _, _, _, _, _, _, hrec⟩ | hera
  · exact hbook.of_records hrec
  · exact hbook.of_erases hera

theorem balanced_reachable {G : State → Act → Prop} (h : system.Reachable G s) : s.Balanced := by
  refine h.invariant balanced_start ?_
  intro _ _ hr hbal _ en
  rcases (sound_reachable hr).commit_cases en with ⟨_, _, _, _, _, _, _, _, hrec⟩ | hera
  · exact hbal.of_records hrec
  · exact hbal.of_erases hera

end Reachable

section Statement

variable {s : State}

/-- The committed ledger rows of a player and currency, by `seq`. -/
def ledgerRows (s : State) (p : Uuid) (c : String) : List LedgerRow :=
  sortBy LedgerRow.seq
    ((s.ledger.rows.map Prod.snd).filter (fun row => row.player = p ∧ row.currency = c))

/-- No ledger row under the id of `p` was erased or comes from elsewhere. -/
structure Unpurged (s : State) (p : Uuid) : Prop where
  unswept : ¬ s.Swept p
  sentinel : p = Uuid.nil → ∀ q, ¬ s.Swept q

/-- The committed ledger rows of an unpurged player are the rows of its recorded
movements. -/
theorem Book.committed_iff (h : s.Book) {p : Uuid} (hp : s.Unpurged p)
    {k : String} {row : LedgerRow} (hrow : row.player = p) :
    s.ledger.committed k = some row ↔ ∃ e ∈ s.applied, e.key = k ∧ e.row = row := by
  constructor
  · intro hk
    obtain ⟨e, he, rfl⟩ := h.row k row hk
    refine ⟨e, he, rfl, ?_⟩
    rcases h.entry e he with hent | ⟨hsw, hent⟩ <;>
      rw [hent, Option.some.injEq] at hk <;> subst hk
    · rfl
    · exact absurd hsw (hp.sentinel hrow.symm _)
  · rintro ⟨e, he, rfl, rfl⟩
    rcases h.entry e he with hent | ⟨hsw, -⟩
    · exact hent
    · exact absurd (hrow ▸ hsw) hp.unswept

/-- Listing the ledger rows of an unpurged player by `seq` gives its recorded
movements in commit order. -/
theorem ledgerRows_eq (hbook : s.Book) (hbal : s.Balanced) {p : Uuid} (hp : s.Unpurged p)
    (c : String) : s.ledgerRows p c = (s.movementsOf (p, c)).map Applied.row := by
  -- pairs of key and row, so that both sides are free of duplicates
  let mine : String × LedgerRow → Bool := fun kr => kr.2.player = p ∧ kr.2.currency = c
  let entries : List (String × LedgerRow) := s.applied.map (fun e => (e.key, e.row))
  have hentries : entries.Nodup := by
    have hkeys : (entries.map Prod.fst).Nodup := by
      simpa [entries, Function.comp_def] using hbook.keys
    exact hkeys.of_map
  have hperm : (s.ledger.rows.filter mine).Perm (entries.filter mine) := by
    rw [perm_ext_iff_of_nodup (s.ledger.nodup_rows.filter _) (hentries.filter _)]
    rintro ⟨_, _⟩
    simp only [mem_filter, Table.mem_rows, mine, entries, decide_eq_true_eq, mem_map,
      Prod.mk.injEq, and_congr_left_iff]
    rintro ⟨hrow, -⟩
    exact hbook.committed_iff hp hrow
  have hleft : (s.ledger.rows.map Prod.snd).filter (fun row => row.player = p ∧ row.currency = c) =
      (s.ledger.rows.filter mine).map Prod.snd := by
    rw [filter_map]
    rfl
  have hright : (s.movementsOf (p, c)).map Applied.row = (entries.filter mine).map Prod.snd := by
    simp [movementsOf, entries, mine, filter_map, Function.comp_def, Applied.pair]
  rw [ledgerRows, hleft]
  refine sortBy_eq_of_perm _ ?_ ?_
  · rw [hright]
    exact hperm.map _
  · rw [pairwise_map]
    exact hbal.sorted (p, c)

/-- In every state in which no tombstone is swept, whatever transactions are in
progress: the ledger rows of a player and currency, listed by `seq`, carry the
running balance from 0 on, the balance row exists exactly if there are such
rows, and it holds the sum of their deltas, within the bounds of the column. -/
theorem money_conserved (h : system.Reachable TransitionSystem.anyStep s) (hun : ∀ q, ¬ s.Swept q)
    (p : Uuid) (c : String) :
    (s.ledgerRows p c).Pairwise (fun row row' => row.seq < row'.seq) ∧
      Running LedgerRow.delta LedgerRow.balanceAfter 0 (s.ledgerRows p c) ∧
      s.balances.committed (p, c) =
        (if s.ledgerRows p c = [] then none
         else some ((s.ledgerRows p c).map LedgerRow.delta).sum) ∧
      ∀ amount, s.balances.committed (p, c) = some amount →
        0 ≤ amount ∧ amount ≤ 1000000000000000 := by
  have hbal := balanced_reachable h
  have hrows := ledgerRows_eq (book_reachable h) hbal ⟨hun p, fun _ => hun⟩ c
  have hrun : Running LedgerRow.delta LedgerRow.balanceAfter 0 (s.ledgerRows p c) := by
    rw [hrows, running_map]
    exact hbal.running (p, c) (hun p)
  refine ⟨?_, hrun, ?_, ?_⟩
  · rw [hrows, pairwise_map]
    exact hbal.sorted (p, c)
  · -- the last running balance is the sum of the deltas
    have htotal := hrun.total_eq
    rw [zero_add, total] at htotal
    rw [← htotal, hbal.balance (p, c) (hun p), hrows, List.getLast?_map]
    cases hlast : (s.movementsOf (p, c)).getLast? with
    | none => simp [List.getLast?_eq_none_iff.1 hlast]
    | some =>
      have hne : s.movementsOf (p, c) ≠ [] := by
        intro hnil
        rw [hnil] at hlast
        cases hlast
      simp [hne]
  · exact fun amount hamount => hbal.range (p, c) amount hamount

end Statement

section Example

def playerText : String := "11111111-1111-4111-8111-111111111111"

def player : Uuid where
  digits := "11111111111141118111111111111111".toList
  length_eq := by decide
  all_lower := by decide

def creditOf (key : String) (amount : Int) : Call :=
  ⟨.credit, ⟨key, playerText, "gold", amount, "quest"⟩⟩

def debitOf (key : String) (amount : Int) : Call :=
  ⟨.debit, ⟨key, playerText, "gold", amount, "shop"⟩⟩

/-- Two first credits race, then part of the money is spent. -/
def raceRun : List Act :=
  let j₁ : Job := ⟨0, 0, creditOf "a" 100⟩
  let j₂ : Job := ⟨1, 0, creditOf "b" 50⟩
  let j₃ : Job := ⟨2, 2, debitOf "c" 30⟩
  [.addCurrency "gold", .open 1 j₁.call, .open 2 j₂.call, .check 1 j₁ player,
   .check 2 j₂ player, .claim 1 j₁ player, .claim 2 j₂ player, .updateMiss 1 j₁ player 1,
   .updateMiss 2 j₂ player 2, .insert 2 j₂ player 2,
   .stamp 2 j₂ player 2 50 (j₂.row player 2 2 0), .emit 2 j₂ player 2 50,
   .commit 2 j₂ player 2 50, .merge 1 j₁ player 1 50,
   .stamp 1 j₁ player 1 150 (j₁.row player 1 1 0), .emit 1 j₁ player 1 150,
   .commit 1 j₁ player 1 150, .open 1 j₃.call, .check 1 j₃ player, .claim 1 j₃ player,
   .update 1 j₃ player 3 150, .stamp 1 j₃ player 3 120 (j₃.row player 3 5 0),
   .emit 1 j₃ player 3 120, .commit 1 j₃ player 3 120]

theorem raceRun_runs : (system.exec TransitionSystem.anyStep system.start raceRun).isSome := by
  decide +kernel

/-- The state after `raceRun`. -/
def raceState : State := TransitionSystem.final TransitionSystem.anyStep raceRun raceRun_runs

theorem raceState_unswept (q : Uuid) : ¬ raceState.Swept q := by
  have hnone : raceState.purged.committed q = none :=
    Table.committed_of_rows_nil (by decide +kernel) q
  simp [Swept, hnone]

/-- The race at the level of the rows: the second credit is listed first. -/
theorem money_conserved_race :
    (raceState.ledgerRows player "gold").map (fun row => (row.delta, row.balanceAfter)) =
      [(50, 50), (100, 150), (-30, 120)] ∧
    Running LedgerRow.delta LedgerRow.balanceAfter 0 (raceState.ledgerRows player "gold") ∧
    raceState.balances.committed (player, "gold") = some 120 :=
  ⟨by decide +kernel,
    (money_conserved (TransitionSystem.reachable_final _ _ raceRun_runs) raceState_unswept
      player "gold").2.1,
    by decide +kernel⟩

end Example

end State
end Swarog.Wallet
