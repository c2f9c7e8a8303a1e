import Swarog.Pg.Holding

/-!
# The changes of a transaction

A transaction that reads what it overwrites can be described by the list of its
changes: the key, the row that was there, the row that is there now, and the events
that are appended for the change.  `Table.Owes` for such a list says what the
transaction sees (`Owes.view_change`, `Owes.view_same`) and what its `COMMIT` does.

A savepoint splits the list: a return to it forgets the changes made since
(`Owes.restore_changes`).
-/

namespace Swarog.Pg

open Function List

/-- A change of a row, with its events. -/
structure Change (κ ρ ε : Type) where
  key : κ
  old : Option ρ
  new : Option ρ
  events : List ε
deriving DecidableEq

namespace Change

variable {κ ρ ε : Type}

/-- The version that a change writes. -/
def write (c : Change κ ρ ε) : Write κ ρ := ⟨c.key, fun old => old = c.old, c.new⟩

/-- A transaction that has made the changes `cs`. -/
def held (cs : List (Change κ ρ ε)) : Holding κ ρ := .writing (cs.map Change.write)

theorem mem_held
    {cs : List (Change κ ρ ε)}
    {w : Write κ ρ} :
    w ∈ (held cs).writes ↔ ∃ c ∈ cs, c.write = w :=
  mem_map

section Apply

variable [DecidableEq κ]

/-- The rows with the changes `cs` made. -/
def apply (cs : List (Change κ ρ ε)) (row : κ → Option ρ) (k : κ) : Option ρ :=
  match cs.find? (fun c => c.key = k) with
  | some c => c.new
  | none => row k

variable {cs cs' : List (Change κ ρ ε)} {row : κ → Option ρ} {k : κ} {c : Change κ ρ ε}

theorem apply_same (h : ∀ c ∈ cs, c.key ≠ k) : apply cs row k = row k := by
  have hnone : cs.find? (fun c => c.key = k) = none := by
    refine List.find?_eq_none.2 ?_
    intro c hc
    simpa using h c hc
  rw [apply, hnone]

/-- The row under a key that is changed once. -/
theorem apply_changed
    (hn : (cs.map Change.key).Nodup)
    (hc : c ∈ cs) :
    apply cs row c.key = c.new := by
  unfold apply
  cases hfind : cs.find? (fun c' => c'.key = c.key) with
  | none => exact absurd (by simp) (List.find?_eq_none.1 hfind c hc)
  | some c' =>
    have hkey : c'.key = c.key := by simpa using List.find?_some hfind
    rw [inj_on_of_nodup_map hn (mem_of_find?_eq_some hfind) hc hkey]

/-- Changes of other rows do not matter. -/
theorem apply_append_same (h : ∀ c ∈ cs', c.key ≠ k) :
    apply (cs ++ cs') row k = apply cs row k := by
  have hnone : cs'.find? (fun c => c.key = k) = none := by
    refine List.find?_eq_none.2 ?_
    intro c hc
    simpa using h c hc
  rw [apply, apply, List.find?_append, hnone, Option.or_none]

/-- The row under the key of the last change. -/
theorem apply_append_changed (h : ∀ c' ∈ cs, c'.key ≠ c.key) :
    apply (cs ++ [c]) row c.key = c.new := by
  have hnone : cs.find? (fun c' => c'.key = c.key) = none := by
    refine List.find?_eq_none.2 ?_
    intro c' hc'
    simpa using h c' hc'
  rw [apply, List.find?_append, hnone, Option.none_or]
  simp

theorem apply_single : apply [c] row c.key = c.new :=
  apply_changed (nodup_singleton c.key) mem_cons_self

/-- The rows are changed, or they are as they were. -/
theorem apply_cases
    (cs : List (Change κ ρ ε))
    (k : κ) :
    (∃ v, ∀ row, apply cs row k = v) ∨ ∀ row, apply cs row k = row k := by
  unfold apply
  cases cs.find? (fun c => c.key = k) with
  | some c => exact .inl ⟨c.new, fun _ => rfl⟩
  | none => exact .inr (fun _ => rfl)

/-- The changes are made one after the other. -/
theorem apply_cons (hn : ((c :: cs).map Change.key).Nodup) :
    apply (c :: cs) row = apply cs (update row c.key c.new) := by
  funext k
  by_cases hk : c.key = k
  · subst hk
    have hother : ∀ c' ∈ cs, c'.key ≠ c.key := by
      intro _ hc' he
      exact (nodup_cons.1 hn).1 (he ▸ mem_map_of_mem hc')
    rw [apply_changed hn mem_cons_self, apply_same hother, update_self]
  · unfold apply
    rw [List.find?_cons_of_neg (by simpa using hk), update_of_ne (Ne.symm hk)]

end Apply

section Journal

variable [DecidableEq κ]
variable {cs : List (Change κ ρ ε)} {c : Change κ ρ ε} {q : ε → Bool}

/-- The rule for folds over the events: a fold that follows every single change follows
the changes of a transaction. -/
theorem fold_follows {σ : Type} {step : σ → ε → σ} {R : σ → (κ → Option ρ) → Prop}
    (hone : ∀ c ∈ cs, ∀ s row, R s row → row c.key = c.old →
      R (c.events.foldl step s) (update row c.key c.new))
    (hn : (cs.map Change.key).Nodup) {s : σ} {row : κ → Option ρ}
    (hold : ∀ c ∈ cs, row c.key = c.old) (h : R s row) :
    R ((cs.flatMap Change.events).foldl step s) (apply cs row) := by
  induction cs generalizing s row with
  | nil => exact h
  | cons c _ ih =>
    rw [flatMap_cons, foldl_append, apply_cons hn]
    refine ih (fun c' hc' => hone c' (mem_cons_of_mem _ hc')) (nodup_cons.1 hn).2 ?_
      (hone c mem_cons_self s row h (hold c mem_cons_self))
    intro c' hc'
    have hne : c'.key ≠ c.key := by
      intro he
      exact (nodup_cons.1 hn).1 (he ▸ mem_map_of_mem hc')
    rw [update_of_ne hne]
    exact hold c' (mem_cons_of_mem _ hc')

section

omit [DecidableEq κ]

/-- Events that no change has. -/
theorem filter_events_none (h : ∀ c ∈ cs, c.events.filter q = []) :
    (cs.flatMap Change.events).filter q = [] := by
  refine filter_eq_nil_iff.2 ?_
  intro e he
  obtain ⟨c, hc, hmem⟩ := mem_flatMap.1 he
  exact filter_eq_nil_iff.1 (h c hc) e hmem

/-- Events that only the change of one row has. -/
theorem filter_events_of_mem
    (hn : (cs.map Change.key).Nodup)
    (hc : c ∈ cs)
    (h : ∀ c' ∈ cs, c'.key ≠ c.key → c'.events.filter q = []) :
    (cs.flatMap Change.events).filter q = c.events.filter q := by
  obtain ⟨l, r, rfl⟩ := append_of_mem hc
  rw [map_append, map_cons] at hn
  obtain ⟨-, hr, hlr⟩ := nodup_append.1 hn
  have hleft : (l.flatMap Change.events).filter q = [] := by
    refine filter_events_none ?_
    intro c' hc'
    exact h c' (mem_append_left _ hc')
      (hlr c'.key (mem_map_of_mem hc') c.key mem_cons_self)
  have hright : (r.flatMap Change.events).filter q = [] := by
    refine filter_events_none ?_
    intro c' hc'
    refine h c' (mem_append_right _ (mem_cons_of_mem _ hc')) ?_
    intro he
    exact (nodup_cons.1 hr).1 (he ▸ mem_map_of_mem hc')
  rw [flatMap_append, flatMap_cons, filter_append, filter_append, hleft,
    hright, nil_append, append_nil]

theorem countP_events_none (h : ∀ c ∈ cs, c.events.countP q = 0) :
    (cs.flatMap Change.events).countP q = 0 := by
  simp only [countP_eq_length_filter, length_eq_zero_iff] at h ⊢
  exact filter_events_none h

theorem countP_events_of_mem
    (hn : (cs.map Change.key).Nodup)
    (hc : c ∈ cs)
    (h : ∀ c' ∈ cs, c'.key ≠ c.key → c'.events.countP q = 0) :
    (cs.flatMap Change.events).countP q = c.events.countP q := by
  simp only [countP_eq_length_filter, length_eq_zero_iff] at h ⊢
  rw [filter_events_of_mem hn hc h]

end

end Journal

end Change

namespace Table

variable {κ τ ρ ε : Type}
variable [DecidableEq κ] [DecidableEq τ]
variable {T : Table κ τ ρ} {t : τ} {cs : List (Change κ ρ ε)} {k : κ} {c : Change κ ρ ε}

section

variable (h : T.Owes t (Change.held cs))
include h

omit [DecidableEq κ] [DecidableEq τ] in
theorem Owes.old_change (hc : c ∈ cs) : T.committed c.key = c.old :=
  h.based c.write (mem_map_of_mem hc)

omit [DecidableEq κ] [DecidableEq τ] in
theorem Owes.pending_change (hc : c ∈ cs) : T.pending c.key = some (t, c.new) :=
  h.held c.write (mem_map_of_mem hc)

omit [DecidableEq κ] in
theorem Owes.view_change (hc : c ∈ cs) : T.view t c.key = c.new :=
  view_of_pending_self (h.pending_change hc)

omit [DecidableEq κ] [DecidableEq τ] in
theorem Owes.changed_of_pending
    {v : Option ρ}
    (hp : T.pending k = some (t, v)) :
    ∃ c ∈ cs, c.key = k ∧ c.new = v := by
  rcases h.only k v hp with ⟨_, hw, hkey, hrow⟩ | ⟨-, _, -, hdoom⟩
  · obtain ⟨c, hc, rfl⟩ := Change.mem_held.1 hw
    exact ⟨c, hc, hkey, hrow⟩
  · exact hdoom.elim

omit [DecidableEq κ] in
theorem Owes.view_same (hk : ∀ c ∈ cs, c.key ≠ k) : T.view t k = T.committed k := by
  refine view_of_not_holder ?_
  intro _ hv
  obtain ⟨c, hc, hkey, -⟩ := h.changed_of_pending hv
  exact hk c hc hkey

/-- A transaction sees the committed rows with its changes. -/
theorem Owes.view_eq_apply (k : κ) : T.view t k = Change.apply cs T.committed k := by
  unfold Change.apply
  cases hfind : cs.find? (fun c => c.key = k) with
  | none =>
    refine h.view_same ?_
    intro c hc hkey
    exact List.find?_eq_none.1 hfind c hc (by simpa using hkey)
  | some c =>
    have hkey : c.key = k := by simpa using List.find?_some hfind
    rw [← hkey]
    exact h.view_change (mem_of_find?_eq_some hfind)

omit [DecidableEq τ] in
/-- A transaction changes a row that it has not changed yet. -/
theorem Owes.change
    (c : Change κ ρ ε)
    (hnew : ∀ c' ∈ cs, c'.key ≠ c.key)
    (hold : T.committed c.key = c.old) :
    (T.write t c.key c.new).Owes t (Change.held (cs ++ [c])) := by
  unfold Change.held
  rw [map_append]
  refine h.write c.write ?_ hold
  intro _ hw
  obtain ⟨c', hc', rfl⟩ := Change.mem_held.1 hw
  exact hnew c' hc'

omit [DecidableEq κ] in
/-- A row that a transaction sees and has not changed is committed. -/
theorem Owes.committed_of_unchanged
    {r : ρ}
    (hk : ∀ c ∈ cs, c.key ≠ k)
    (hview : T.view t k = some r) :
    T.committed k = some r :=
  (h.view_same hk).symm.trans hview

omit [DecidableEq κ] in
/-- A transaction that has only deleted has not changed the rows that it sees. -/
theorem Owes.unchanged_of_view
    {r : ρ}
    (hdel : ∀ c ∈ cs, c.new = none)
    (hview : T.view t k = some r) :
    ∀ c ∈ cs, c.key ≠ k := by
  rintro c hc rfl
  rw [h.view_change hc, hdel c hc] at hview
  cases hview

/-- A transaction that has only deleted has deleted the committed rows that it does not
see. -/
theorem Owes.changed_of_unseen
    (hview : T.view t k = none)
    (hk : T.committed k ≠ none) :
    ∃ c ∈ cs, c.key = k := by
  by_contra hne
  refine hk ?_
  rw [← h.view_same (fun c hc hkey => hne ⟨c, hc, hkey⟩)]
  exact hview

end

/-- A return to the savepoint before the changes `cs'`. -/
theorem Owes.restore_changes
    {cs' : List (Change κ ρ ε)}
    (h : T.Owes t (Change.held (cs ++ cs')))
    (hn : ((cs ++ cs').map Change.key).Nodup) :
    (T.restore t (cs'.map Change.key)).Owes t (Change.held cs) := by
  unfold Change.held at h
  rw [map_append] at h
  rw [show cs'.map Change.key = (cs'.map Change.write).map Write.key by rw [map_map]; rfl]
  refine h.restore ?_
  intro _ hw hmem
  obtain ⟨c, hc, rfl⟩ := mem_map.1 hw
  obtain ⟨_, hw', hkey⟩ := mem_map.1 hmem
  obtain ⟨c', hc', rfl⟩ := mem_map.1 hw'
  rw [map_append] at hn
  exact (nodup_append.1 hn).2.2 c.key (mem_map_of_mem hc) c'.key
    (mem_map_of_mem hc') hkey.symm

section Made

/-- The uncommitted versions of `t` are exactly the changes `cs`, each of another
row. -/
structure Made (T : Table κ τ ρ) (t : τ) (cs : List (Change κ ρ ε)) : Prop where
  owes : T.Owes t (Change.held cs)
  nodup : (cs.map Change.key).Nodup

omit [DecidableEq κ] [DecidableEq τ] in
theorem made_of_nothing (h : T.Owes t Holding.nothing) : T.Made t ([] : List (Change κ ρ ε)) :=
  ⟨h, nodup_nil⟩

omit [DecidableEq κ] [DecidableEq τ] in
theorem made_empty : (empty : Table κ τ ρ).Made t ([] : List (Change κ ρ ε)) :=
  made_of_nothing (owes_empty t)

omit [DecidableEq κ] in
theorem made_commit : (T.commit t).Made t ([] : List (Change κ ρ ε)) :=
  made_of_nothing (owes_commit T t)

omit [DecidableEq κ] in
theorem made_rollback : (T.rollback t).Made t ([] : List (Change κ ρ ε)) :=
  made_of_nothing (owes_rollback T t)

omit [DecidableEq κ] [DecidableEq τ] in
theorem Made.of_undisturbed
    {T' : Table κ τ ρ}
    (h : T.Made t cs)
    (hu : Undisturbed t T T') :
    T'.Made t cs :=
  ⟨h.owes.of_undisturbed hu, h.nodup⟩

omit [DecidableEq τ] in
/-- One more change. -/
theorem Made.change
    (h : T.Made t cs)
    (c : Change κ ρ ε)
    (hnew : ∀ c' ∈ cs, c'.key ≠ c.key)
    (hold : T.committed c.key = c.old) :
    (T.write t c.key c.new).Made t (cs ++ [c]) := by
  refine ⟨h.owes.change c hnew hold, ?_⟩
  rw [map_append]
  refine nodup_append.2 ⟨h.nodup, nodup_singleton _, ?_⟩
  intro _ hk _ hk' he
  cases mem_singleton.1 hk'
  obtain ⟨c', hc', rfl⟩ := mem_map.1 hk
  exact hnew c' hc' he

omit [DecidableEq τ] in
/-- The first change. -/
theorem Made.first
    (h : T.Made t ([] : List (Change κ ρ ε)))
    (c : Change κ ρ ε)
    (hold : T.committed c.key = c.old) :
    (T.write t c.key c.new).Made t [c] :=
  h.change c (fun _ hc' => absurd hc' not_mem_nil) hold

/-- A transaction that has only deleted changes a row that it sees. -/
theorem Made.seen
    {r : ρ}
    (h : T.Made t cs)
    (hdel : ∀ c ∈ cs, c.new = none)
    (c : Change κ ρ ε)
    (hview : T.view t c.key = some r)
    (hold : c.old = some r) :
    (T.write t c.key c.new).Made t (cs ++ [c]) := by
  have hnew := h.owes.unchanged_of_view hdel hview
  exact h.change c hnew ((h.owes.committed_of_unchanged hnew hview).trans hold.symm)

/-- A row is changed, or `t` sees what is committed. -/
theorem Made.view_cases
    (h : T.Made t cs)
    (k : κ) :
    (T.view t k = T.committed k ∧ ∀ c ∈ cs, c.key ≠ k) ∨
      ∃ c ∈ cs, c.key = k ∧ T.committed k = c.old ∧ T.view t k = c.new := by
  by_cases hk : ∃ c ∈ cs, c.key = k
  · obtain ⟨c, hc, rfl⟩ := hk
    exact .inr ⟨c, hc, rfl, h.owes.old_change hc, h.owes.view_change hc⟩
  · have hne : ∀ c ∈ cs, c.key ≠ k := fun c hc he => hk ⟨c, hc, he⟩
    exact .inl ⟨h.owes.view_same hne, hne⟩

/-- A `COMMIT` leaves the row of a change, or what was there. -/
theorem Made.commit_cases
    (h : T.Made t cs)
    (k : κ) :
    ((T.commit t).committed k = T.committed k ∧ ∀ c ∈ cs, c.key ≠ k) ∨
      ∃ c ∈ cs, c.key = k ∧ T.committed k = c.old ∧ (T.commit t).committed k = c.new := by
  rw [committed_commit]
  exact h.view_cases k

/-- The rows that a `DELETE` takes away when it reaches `k`. -/
def reached
    (T : Table κ τ ρ)
    (t : τ)
    (f : κ → ρ → Bool)
    (k : κ) :
    List (Change κ ρ ε) :=
  match T.view t k with
  | some r => if f k r then [⟨k, some r, none, []⟩] else []
  | none => []

omit [DecidableEq κ] in
theorem mem_reached
    {f : κ → ρ → Bool}
    (h : c ∈ T.reached t f k) :
    c.key = k ∧ c.new = none ∧ ∃ r, T.view t k = some r ∧ f k r = true ∧ c.old = some r := by
  unfold reached at h
  split at h
  · rename_i r hview
    split at h
    · rename_i hf
      cases mem_singleton.1 h
      exact ⟨rfl, rfl, r, hview, hf, rfl⟩
    · cases h
  · cases h

/-- A `DELETE` reaches a row. -/
theorem Made.deleteWhere
    (h : T.Made t cs)
    (hdel : ∀ c ∈ cs, c.new = none)
    (f : κ → ρ → Bool)
    (k : κ) :
    (T.deleteWhere t f k).Made t (cs ++ T.reached t f k) := by
  unfold Table.deleteWhere reached
  cases hview : T.view t k with
  | none => simpa using h
  | some r =>
    cases hf : f k r with
    | false => simpa [hf] using h
    | true => simpa [hf] using h.seen hdel ⟨k, some r, none, []⟩ hview rfl

/-- What `t` sees after a `DELETE` has reached a row. -/
theorem view_deleteWhere
    {f : κ → ρ → Bool}
    {k' : κ}
    {r : ρ}
    (h : (T.deleteWhere t f k).view t k' = some r) :
    T.view t k' = some r ∧ ¬ (k' = k ∧ f k r = true) := by
  unfold Table.deleteWhere at h
  by_cases hany : (T.view t k).any (f k) = true
  · rw [if_pos hany] at h
    by_cases hk : k' = k
    · subst hk
      rw [view_write_self] at h
      cases h
    · rw [view_write_of_ne _ _ hk] at h
      exact ⟨h, fun hboth => hk hboth.1⟩
  · rw [if_neg hany] at h
    refine ⟨h, ?_⟩
    rintro ⟨rfl, hf⟩
    exact hany ((Option.any_eq_true _ _).2 ⟨r, h, hf⟩)

end Made

section Edits

/-- What a statement of `t` does to the table `T` and to the list of the changes of `t`. -/
structure Edits
    (T : Table κ τ ρ)
    (t : τ)
    (cs : List (Change κ ρ ε))
    (T' : Table κ τ ρ)
    (cs' : List (Change κ ρ ε)) :
    Prop where
  step : Step T (some t) T'
  made : T.Made t cs → T'.Made t cs'

theorem Edits.same : Edits T t cs T cs := ⟨.same _, id⟩

theorem Edits.put
    {v : Option ρ}
    (hfree : T.pending k = none) :
    Edits T t cs (T.put k v) cs :=
  ⟨.put _ k v hfree, fun h => h.of_undisturbed (undisturbed_put v hfree)⟩

/-- The first change. -/
theorem Edits.first
    (c : Change κ ρ ε)
    (hcs : cs = [])
    (hfree : T.Free t c.key)
    (hold : T.committed c.key = c.old) :
    Edits T t cs (T.write t c.key c.new) (cs ++ [c]) := by
  subst hcs
  exact ⟨.write t _ _ hfree, fun h => h.first c hold⟩

theorem Edits.seen
    {r : ρ}
    (c : Change κ ρ ε)
    (hdel : ∀ c ∈ cs, c.new = none)
    (hfree : T.Free t c.key)
    (hview : T.view t c.key = some r)
    (hold : c.old = some r) :
    Edits T t cs (T.write t c.key c.new) (cs ++ [c]) :=
  ⟨.write t _ _ hfree, fun h => h.seen hdel c hview hold⟩

theorem Edits.deleteWhere
    (f : κ → ρ → Bool)
    (hdel : ∀ c ∈ cs, c.new = none)
    (hfree : T.Free t k) :
    Edits T t cs (T.deleteWhere t f k) (cs ++ T.reached t f k) :=
  ⟨.deleteWhere f hfree, fun h => h.deleteWhere hdel f k⟩

theorem Edits.commit : Edits T t cs (T.commit t) [] := ⟨.commit t, fun _ => made_commit⟩

theorem Edits.rollback : Edits T t cs (T.rollback t) [] := ⟨.rollback t, fun _ => made_rollback⟩

end Edits

end Table
end Swarog.Pg
