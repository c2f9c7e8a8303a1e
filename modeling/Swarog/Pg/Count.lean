import Swarog.Pg.Session

/-!
# Counting rows

`Table.count` is the number of committed rows that satisfy a condition, and a
`SELECT count(*)` is the length of a `select`.  The lemmas compare counts through
the keys of the rows.

A bound on a count is enforced by sessions that count, find room for one more row
and add it.  `Programs.capacity` is the rule: if only one session at a time has
found room in a group, and nobody else adds to it, the bound holds.
-/

namespace Swarog.Pg

open List

namespace Table

variable {κ τ ρ : Type}

/-- The keys of the committed rows that satisfy `f`. -/
def keysWhere (T : Table κ τ ρ) (f : κ → ρ → Bool) : List κ :=
  T.keys.filter (fun k => (T.committed k).any (f k))

/-- The number of committed rows that satisfy `f`. -/
def count (T : Table κ τ ρ) (f : κ → ρ → Bool) : Nat := (T.keysWhere f).length

variable {T T' : Table κ τ ρ} {f : κ → ρ → Bool} {k : κ}

theorem mem_keysWhere : k ∈ T.keysWhere f ↔ ∃ r, T.committed k = some r ∧ f k r = true := by
  simp only [keysWhere, mem_filter, Option.any_eq_true]
  constructor
  · rintro ⟨_, r, hr, hf⟩
    exact ⟨r, hr, hf⟩
  · rintro ⟨r, hr, hf⟩
    exact ⟨mem_keys_of_committed hr, r, hr, hf⟩

theorem nodup_keysWhere : (T.keysWhere f).Nodup := T.nodup.filter _

/-- Rows that satisfy `f` have not appeared. -/
theorem count_le
    (h : ∀ k r, T'.committed k = some r → f k r = true →
      ∃ r', T.committed k = some r' ∧ f k r' = true) : T'.count f ≤ T.count f := by
  refine (subperm_of_subset nodup_keysWhere ?_).length_le
  intro k hk
  obtain ⟨r, hr, hf⟩ := mem_keysWhere.1 hk
  exact mem_keysWhere.2 (h k r hr hf)

/-- A row that satisfies `f` has appeared at one key at most. -/
theorem count_le_succ (k₀ : κ)
    (h : ∀ k r, k ≠ k₀ → T'.committed k = some r → f k r = true →
      ∃ r', T.committed k = some r' ∧ f k r' = true) : T'.count f ≤ T.count f + 1 := by
  have hsub : T'.keysWhere f ⊆ k₀ :: T.keysWhere f := by
    intro k hk
    by_cases hk₀ : k = k₀
    · exact hk₀ ▸ mem_cons_self
    · obtain ⟨r, hr, hf⟩ := mem_keysWhere.1 hk
      exact mem_cons_of_mem _ (mem_keysWhere.2 (h k r hk₀ hr hf))
  exact (subperm_of_subset nodup_keysWhere hsub).length_le

/-- `count` counts rows. -/
theorem length_rows_filter : (T.rows.filter (fun r => f r.1 r.2)).length = T.count f := by
  have hkeys : ∀ ks : List κ,
      ((ks.filterMap (fun k => (T.committed k).map (fun r => (k, r)))).filter
        (fun r => f r.1 r.2)).length =
          (ks.filter (fun k => (T.committed k).any (f k))).length := by
    intro ks
    induction ks with
    | nil => rfl
    | cons k _ ih =>
      cases hk : T.committed k with
      | none => simp [hk, ih]
      | some r =>
        cases hf : f k r with
        | true | false => simp [hk, hf, ih]
  exact hkeys T.keys

variable [DecidableEq κ] [DecidableEq τ]

omit [DecidableEq τ] in
/-- A key has one row. -/
theorem length_rows_key (k : κ) : (T.rows.filter (fun r => decide (r.1 = k))).length ≤ 1 := by
  rw [length_rows_filter (f := fun k' _ => decide (k' = k))]
  have hsub : T.keysWhere (fun k' _ => decide (k' = k)) ⊆ [k] := by
    intro _ hk'
    obtain ⟨_, -, hf⟩ := mem_keysWhere.1 hk'
    exact mem_singleton.2 (of_decide_eq_true hf)
  exact (subperm_of_subset nodup_keysWhere hsub).length_le

/-- A transaction sees every committed row that satisfies `f`. -/
theorem count_le_select {t : τ}
    (h : ∀ k r, T.committed k = some r → f k r = true →
      ∃ r', T.view t k = some r' ∧ f k r' = true) : T.count f ≤ (T.select t f).length := by
  refine (subperm_of_subset nodup_keysWhere ?_).length_le
  intro k hk
  obtain ⟨r, hr, hf⟩ := mem_keysWhere.1 hk
  exact mem_select.2 (h k r hr hf)

/-- A transaction sees one row more than there are committed. -/
theorem count_lt_select {t : τ} {k₀ : κ} {r₀ : ρ} (hnone : T.committed k₀ = none)
    (hview : T.view t k₀ = some r₀) (hf₀ : f k₀ r₀ = true)
    (h : ∀ k r, T.committed k = some r → f k r = true →
      ∃ r', T.view t k = some r' ∧ f k r' = true) : T.count f < (T.select t f).length := by
  have hnodup : (k₀ :: T.keysWhere f).Nodup := by
    refine nodup_cons.2 ⟨?_, nodup_keysWhere⟩
    intro hk
    obtain ⟨_, hr, -⟩ := mem_keysWhere.1 hk
    rw [hnone] at hr
    cases hr
  refine (subperm_of_subset hnodup ?_).length_le
  intro k hk
  rcases mem_cons.1 hk with rfl | hk
  · exact mem_select.2 ⟨r₀, hview, hf₀⟩
  · obtain ⟨r, hr, hf⟩ := mem_keysWhere.1 hk
    exact mem_select.2 (h k r hr hf)

end Table

/-- The rule for bounds that are enforced by counting: `admitted` are the program
points of the sessions that have found room for one more row in a group, below a limit of
their own. -/
theorem Programs.capacity_within
    {D P A γ : Type} {X : Programs D P A} {G : World D P → Sess × A → Prop} {w : World D P}
    (size : D → γ → Nat) (admitted : P → γ → Nat → Prop) (bound : Nat)
    (hstart : ∀ g, size X.data g ≤ bound)
    (hidle : ∀ g n, ¬ admitted X.idle g n)
    (hgrow : ∀ w t a g, X.system.Reachable G w → G w (t, a) → X.enabled w (t, a) →
      size ((X.stmt t a).change w.data) g ≤ size w.data g ∨
        ((∃ n, admitted (X.stmt t a).before g n) ∧
          (∀ n, ¬ admitted ((X.stmt t a).after w.data) g n) ∧
          size ((X.stmt t a).change w.data) g ≤ size w.data g + 1))
    (hroomy : ∀ w t a g n, X.system.Reachable G w → G w (t, a) → X.enabled w (t, a) →
      admitted ((X.stmt t a).after w.data) g n →
        admitted (X.stmt t a).before g n ∨ (size ((X.stmt t a).change w.data) g < n ∧ n ≤ bound))
    (hexcl : ∀ w t u g n m, X.system.Reachable G w → admitted (w.pc t) g n →
      admitted (w.pc u) g m → t = u)
    (h : X.system.Reachable G w) :
    (∀ g, size w.data g ≤ bound) ∧
      ∀ t g n, admitted (w.pc t) g n → size w.data g < n ∧ n ≤ bound := by
  refine joint_invariant (I := fun d => ∀ g, size d g ≤ bound)
    (L := fun d _ pc => ∀ g n, admitted pc g n → size d g < n ∧ n ≤ bound) hstart
    (fun _ g n hg => absurd hg (hidle g n)) ?_ h
  intro w t a hr hG en hbound hroom hbefore
  refine ⟨?_, ?_, ?_⟩
  · intro g
    rcases hgrow w t a g hr hG en with hle | ⟨⟨n, hg⟩, -, hle⟩
    · exact Nat.le_trans hle (hbound g)
    · obtain ⟨hlt, hn⟩ := hbefore g n hg
      exact Nat.le_trans hle (Nat.le_trans hlt hn)
  · intro g n hg
    rcases hroomy w t a g n hr hG en hg with hold | hlt
    · rcases hgrow w t a g hr hG en with hle | ⟨-, hend, -⟩
      · exact ⟨Nat.lt_of_le_of_lt hle (hbefore g n hold).1, (hbefore g n hold).2⟩
      · exact absurd hg (hend n)
    · exact hlt
  · intro u hu g n hg
    rcases hgrow w t a g hr hG en with hle | ⟨⟨m, hgt⟩, -, -⟩
    · exact ⟨Nat.lt_of_le_of_lt hle (hroom u g n hg).1, (hroom u g n hg).2⟩
    · exact absurd (hexcl w u t g n m hr hg (by rw [show w.pc t = _ from en.1]; exact hgt)) hu

/-- The same with one limit for all sessions. -/
theorem Programs.capacity
    {D P A γ : Type} {X : Programs D P A} {G : World D P → Sess × A → Prop} {w : World D P}
    (size : D → γ → Nat) (admitted : P → Option γ) (bound : Nat)
    (hstart : ∀ g, size X.data g ≤ bound)
    (hidle : ∀ g, admitted X.idle ≠ some g)
    (hgrow : ∀ w t a g, X.system.Reachable G w → G w (t, a) → X.enabled w (t, a) →
      size ((X.stmt t a).change w.data) g ≤ size w.data g ∨
        (admitted (X.stmt t a).before = some g ∧
          admitted ((X.stmt t a).after w.data) ≠ some g ∧
          size ((X.stmt t a).change w.data) g ≤ size w.data g + 1))
    (hroomy : ∀ w t a g, X.system.Reachable G w → G w (t, a) → X.enabled w (t, a) →
      admitted ((X.stmt t a).after w.data) = some g →
        admitted (X.stmt t a).before = some g ∨ size ((X.stmt t a).change w.data) g < bound)
    (hexcl : ∀ w t u g, X.system.Reachable G w → admitted (w.pc t) = some g →
      admitted (w.pc u) = some g → t = u)
    (h : X.system.Reachable G w) :
    (∀ g, size w.data g ≤ bound) ∧ ∀ t g, admitted (w.pc t) = some g → size w.data g < bound := by
  refine And.imp_right (fun hlt t g hg => (hlt t g bound ⟨hg, rfl⟩).1)
    (capacity_within (X := X) (G := G) size (fun pc g n => admitted pc = some g ∧ n = bound)
      bound hstart (fun g n hg => hidle g hg.1) ?_ ?_ ?_ h)
  · intro w t a g hr hG en
    refine (hgrow w t a g hr hG en).imp_right ?_
    rintro ⟨hg, hend, hle⟩
    exact ⟨⟨bound, hg, rfl⟩, fun n hn => hend hn.1, hle⟩
  · rintro w t a g _ hr hG en ⟨hg, rfl⟩
    exact (hroomy w t a g hr hG en hg).imp (fun hold => ⟨hold, rfl⟩)
      (fun hlt => ⟨hlt, Nat.le_refl _⟩)
  · intro w t u g _ _ hr ht hu
    exact hexcl w t u g hr ht.1 hu.1

end Swarog.Pg
