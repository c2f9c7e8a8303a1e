import Swarog.Friends.Sessions
import Swarog.Pg.Count

/-!
# Friendship needs both sides

The events about an edge tell its life: it is requested, may be accepted, and may
be removed, in this order and with the names of its parties.  `Told` relates the
events committed so far to the edge as it is now.  A `COMMIT` appends to the story
of an edge exactly when it changes the edge (`Lawful`), so the relation holds in
every committed state.

An accepted edge rests on two committed calls, one of each party, and the pending
requests of a player are bounded because they are counted under the player's lock.
-/

namespace Swarog.Friends

open Pg Table Programs List Option

section Stories

/-- The edge with an id. -/
def Data.edgeOf (d : Data) (e : Uuid) : Option ((Uuid × Uuid) × EdgeRow) :=
  d.edges.rows.find? (fun p => p.2.id == e)

/-- The committed events about an edge. -/
def Data.story (d : Data) (e : Uuid) : List Event := d.events.filter (fun v => v.edge == e)

/-- The changes of an edge, with the event of each. -/
inductive Lawful : Change → Prop
  | requested (k : Uuid × Uuid) (e : Uuid) (a b : Named)
      (hkey : pairOf a.id b.id = k) :
      Lawful ⟨k, none, some (.request e a.id), .requested e a b⟩
  | accepted (k : Uuid × Uuid) (row : EdgeRow) (a b : Named)
      (hkey : pairOf a.id b.id = k)
      (hpending : row.state = .pending)
      (hrequester : row.requester = a.id) :
      Lawful ⟨k, some row, some row.accept, .accepted row.id a b⟩
  | removed (k : Uuid × Uuid) (row : EdgeRow) (a b : Named) (reason : Reason)
      (hkey : pairOf a.id b.id = k) :
      Lawful ⟨k, some row, none, .removed row.id a b reason⟩

/-- What the events about an edge say of it. -/
inductive Told (e : Uuid) : Option ((Uuid × Uuid) × EdgeRow) → List Event → Prop
  | unborn : Told e none []
  | pending (a b : Named) :
      Told e (some (pairOf a.id b.id, ⟨e, a.id, .pending⟩)) [.requested e a b]
  | accepted (a b a' b' : Named)
      (ha : a'.id = a.id)
      (hb : b'.id = b.id) :
      Told e (some (pairOf a.id b.id, ⟨e, a.id, .accepted⟩))
        [.requested e a b, .accepted e a' b']
  | withdrawn (a b x y : Named) (reason : Reason)
      (hxy : pairOf x.id y.id = pairOf a.id b.id) :
      Told e none [.requested e a b, .removed e x y reason]
  | ended (a b a' b' x y : Named) (reason : Reason)
      (ha : a'.id = a.id)
      (hb : b'.id = b.id)
      (hxy : pairOf x.id y.id = pairOf a.id b.id) :
      Told e none [.requested e a b, .accepted e a' b', .removed e x y reason]

/-- The edge as a change finds it, or leaves it. -/
def Change.at
    (c : Change)
    (row : Option EdgeRow) :
    Option ((Uuid × Uuid) × EdgeRow) :=
  row.map (fun r => (c.key, r))

theorem pairOf_right_inj {a b c : Uuid} (h : pairOf a b = pairOf a c) : b = c := by
  unfold pairOf at h
  split at h <;> split at h <;> simp only [Prod.mk.injEq] at h
  · exact h.2
  · rw [h.2, ← h.1]
  · rw [h.1, ← h.2]
  · exact h.1

variable {st : Option ((Uuid × Uuid) × EdgeRow)} {c : Change}

/-- A lawful change continues the story. -/
theorem Told.step
    {e : Uuid}
    {l : List Event}
    (h : Told e st l)
    (hc : Lawful c)
    (he : c.event.edge = e)
    (hold : c.at c.old = st)
    (hnew : c.old = none → l = []) :
    Told e (c.at c.new) (l ++ [c.event]) := by
  cases hc with
  | requested _ _ a b hkey =>
    cases he
    cases hkey
    cases hnew rfl
    exact .pending a b
  | accepted _ row a' b' hkey hpending hrequester =>
    cases he
    cases h with
    | unborn | withdrawn | ended => cases hold
    | accepted =>
      simp only [Change.at, map_some, some.injEq, Prod.mk.injEq] at hold
      rw [hold.2] at hpending
      cases hpending
    | pending a b =>
      simp only [Change.at, map_some, some.injEq, Prod.mk.injEq] at hold
      obtain ⟨rfl, hrow⟩ := hold
      have ha : a'.id = a.id := by rw [← hrequester, hrow]
      have hb : b'.id = b.id := pairOf_right_inj (a := a.id) (by rw [← ha, hkey, ha])
      have hto : row.accept = ⟨row.id, a.id, .accepted⟩ := by rw [EdgeRow.accept, hrequester, ha]
      simp only [Change.at, map_some, hto]
      exact .accepted a b a' b' ha hb
  | removed _ _ x y reason hkey =>
    cases he
    cases h with
    | unborn | withdrawn | ended => cases hold
    | pending a b =>
      simp only [Change.at, map_some, some.injEq, Prod.mk.injEq] at hold
      exact .withdrawn a b x y reason (hkey.trans hold.1)
    | accepted a b a' b' ha hb =>
      simp only [Change.at, map_some, some.injEq, Prod.mk.injEq] at hold
      exact .ended a b a' b' x y reason ha hb (hkey.trans hold.1)

/-- An edge without a story is not there. -/
theorem Told.of_nil {e : Uuid} (h : Told e st []) : st = none := by
  cases h
  rfl

theorem Lawful.old_id
    {row : EdgeRow}
    (h : Lawful c)
    (hold : c.old = some row) :
    row.id = c.event.edge := by
  cases h <;> cases hold <;> rfl

theorem Lawful.new_id
    {row : EdgeRow}
    (h : Lawful c)
    (hnew : c.new = some row) :
    row.id = c.event.edge := by
  cases h <;> cases hnew <;> rfl

/-- A change that leaves no row has found one. -/
theorem Lawful.old_of_new_none
    (h : Lawful c)
    (hnew : c.new = none) :
    ∃ row, c.old = some row := by
  cases h with
  | removed _ row => exact ⟨row, rfl⟩
  | _ => cases hnew

end Stories

section Chronicle

/-- The committed edges and the committed events fit. -/
structure Chronicle (d : Data) : Prop where
  ok : ∀ k row, d.edges.committed k = some row → Ordered k ∧ Party k row.requester
  apart : ∀ k k' row row', d.edges.committed k = some row → d.edges.committed k' = some row' →
    row.id = row'.id → k = k'
  told : ∀ e, Told e (d.edgeOf e) (d.story e)
  drawn : ∀ v ∈ d.events, v.edge ∈ d.uuids

variable {d d' : Data} {e : Uuid} {k : Uuid × Uuid} {row : EdgeRow} {cs : List Change} {c : Change}

theorem mem_edgeOf (h : d.edgeOf e = some (k, row)) :
    d.edges.committed k = some row ∧ row.id = e := by
  have hpred := List.find?_some h
  exact ⟨mem_rows.1 (mem_of_find?_eq_some h), by simpa using hpred⟩

theorem edgeOf_eq_none :
    d.edgeOf e = none ↔ ∀ k row, d.edges.committed k = some row → row.id ≠ e := by
  unfold Data.edgeOf
  rw [List.find?_eq_none]
  constructor
  · intro h k row hrow he
    exact h (k, row) (mem_rows.2 hrow) (by simp [he])
  · rintro h ⟨k, row⟩ hmem he
    exact h k row (mem_rows.1 hmem) (by simpa using he)

theorem edgeOf_eq_some
    (hapart : ∀ k k' row row', d.edges.committed k = some row →
      d.edges.committed k' = some row' → row.id = row'.id → k = k')
    (hrow : d.edges.committed k = some row) (he : row.id = e) : d.edgeOf e = some (k, row) := by
  cases hfind : d.edgeOf e with
  | none => exact absurd he (edgeOf_eq_none.1 hfind k row hrow)
  | some p =>
    obtain ⟨k', row'⟩ := p
    obtain ⟨hrow', he'⟩ := mem_edgeOf hfind
    have hk := hapart k k' row row' hrow hrow' (he.trans he'.symm)
    subst hk
    rw [hrow] at hrow'
    cases hrow'
    rfl

/-- What a `COMMIT` of the changes `cs` does. -/
structure Commits (d d' : Data) (cs : List Change) : Prop where
  applies : Table.Applies d.edges d'.edges (cs.map Change.write)
  events : d'.events = d.events ++ cs.map Change.event
  uuids : ∀ e ∈ d.uuids, e ∈ d'.uuids
  lawful : ∀ c ∈ cs, Lawful c
  once : (cs.map (fun c => c.event.edge)).Nodup
  fresh : ∀ c ∈ cs, c.old = none → d.story c.event.edge = [] ∧ c.event.edge ∈ d.uuids
  ordered : ∀ c ∈ cs, c.old = none → Ordered c.key

namespace Commits

variable (h : Commits d d' cs)
include h

theorem old_eq (hc : c ∈ cs) : d.edges.committed c.key = c.old :=
  h.applies.based c.write (mem_map_of_mem hc)

theorem new_eq (hc : c ∈ cs) : d'.edges.committed c.key = c.new :=
  h.applies.written c.write (mem_map_of_mem hc)

theorem same_eq (hk : ∀ c ∈ cs, c.key ≠ k) : d'.edges.committed k = d.edges.committed k := by
  refine h.applies.same k ?_
  intro _ hw
  obtain ⟨c, hc, rfl⟩ := mem_map.1 hw
  exact hk c hc

/-- A change is determined by its edge. -/
theorem eq_of_edge
    {c' : Change}
    (hc : c ∈ cs)
    (hc' : c' ∈ cs)
    (he : c.event.edge = c'.event.edge) :
    c = c' :=
  inj_on_of_nodup_map h.once hc hc' he

theorem story_of_notMem (he : ∀ c ∈ cs, c.event.edge ≠ e) : d'.story e = d.story e := by
  have hnil : (cs.map Change.event).filter (fun v => v.edge == e) = [] := by
    refine filter_eq_nil_iff.2 ?_
    intro _ hv
    obtain ⟨c, hc, rfl⟩ := mem_map.1 hv
    simpa using he c hc
  unfold Data.story
  rw [h.events, filter_append, hnil, append_nil]

theorem story_of_mem (hc : c ∈ cs) : d'.story c.event.edge = d.story c.event.edge ++ [c.event] := by
  unfold Data.story
  rw [h.events, filter_append]
  congr 1
  obtain ⟨as, bs, rfl⟩ := append_of_mem hc
  have hne : ∀ c' ∈ as ++ bs, (c'.event.edge == c.event.edge) = false := by
    intro _ hc'
    rw [beq_eq_false_iff_ne]
    intro he
    have hnodup := h.once
    rw [map_append, map_cons, nodup_middle, nodup_cons] at hnodup
    apply hnodup.1
    rw [← he, ← map_append]
    exact mem_map_of_mem hc'
  rw [map_append, map_cons, filter_append, filter_cons_of_pos (by simp)]
  rw [filter_eq_nil_iff.2, filter_eq_nil_iff.2]
  · rfl
  · intro _ hv
    obtain ⟨c', hc', rfl⟩ := mem_map.1 hv
    simp [hne c' (mem_append_right _ hc')]
  · intro _ hv
    obtain ⟨c', hc', rfl⟩ := mem_map.1 hv
    simp [hne c' (mem_append_left _ hc')]

section

variable (hd : Chronicle d)
include hd

/-- The edge as a change of it finds it. -/
theorem edgeOf_old (hc : c ∈ cs) : c.at c.old = d.edgeOf c.event.edge := by
  cases hold : c.old with
  | none =>
    have htold := hd.told c.event.edge
    rw [(h.fresh c hc hold).1] at htold
    exact htold.of_nil.symm
  | some =>
    have hrow := h.old_eq hc
    rw [hold] at hrow
    exact (edgeOf_eq_some hd.apart hrow ((h.lawful c hc).old_id hold)).symm

theorem apart :
    ∀ k k' row row', d'.edges.committed k = some row → d'.edges.committed k' = some row' →
      row.id = row'.id → k = k' := by
  -- a row that a change has left, and a row that no change has touched
  have hmixed : ∀ c ∈ cs, ∀ k' row row', c.new = some row → (∀ c ∈ cs, c.key ≠ k') →
      d'.edges.committed k' = some row' → row.id = row'.id → False := by
    intro c hc _ _ row' hnew hk' hrow' hid
    rw [h.same_eq hk'] at hrow'
    have hedge : row'.id = c.event.edge := hid.symm.trans ((h.lawful c hc).new_id hnew)
    have hat := (h.edgeOf_old hd hc).trans (edgeOf_eq_some hd.apart hrow' hedge)
    cases hold : c.old with
    | none =>
      rw [hold] at hat
      cases hat
    | some =>
      rw [hold] at hat
      simp only [Change.at, map_some, some.injEq, Prod.mk.injEq] at hat
      exact hk' c hc hat.1
  intro k k' row row' hrow hrow' hid
  by_cases hk : ∃ c ∈ cs, c.key = k
  · obtain ⟨c, hc, rfl⟩ := hk
    have hnew := (h.new_eq hc).symm.trans hrow
    by_cases hk' : ∃ c' ∈ cs, c'.key = k'
    · obtain ⟨c', hc', rfl⟩ := hk'
      have hnew' := (h.new_eq hc').symm.trans hrow'
      have hedge : c.event.edge = c'.event.edge :=
        ((h.lawful c hc).new_id hnew).symm.trans (hid.trans ((h.lawful c' hc').new_id hnew'))
      rw [h.eq_of_edge hc hc' hedge]
    · exact (hmixed c hc k' row row' hnew (fun c' hc' he => hk' ⟨c', hc', he⟩) hrow' hid).elim
  · have hsame : ∀ c ∈ cs, c.key ≠ k := fun c hc he => hk ⟨c, hc, he⟩
    by_cases hk' : ∃ c' ∈ cs, c'.key = k'
    · obtain ⟨c', hc', rfl⟩ := hk'
      have hnew' := (h.new_eq hc').symm.trans hrow'
      exact (hmixed c' hc' k row' row hnew' hsame hrow hid.symm).elim
    · rw [h.same_eq hsame] at hrow
      rw [h.same_eq (fun c' hc' he => hk' ⟨c', hc', he⟩)] at hrow'
      exact hd.apart k k' row row' hrow hrow' hid

/-- The edge as a change of it leaves it. -/
theorem edgeOf_new (hc : c ∈ cs) : d'.edgeOf c.event.edge = c.at c.new := by
  cases hnew : c.new with
  | some =>
    exact edgeOf_eq_some (h.apart hd) ((h.new_eq hc).trans hnew) ((h.lawful c hc).new_id hnew)
  | none =>
    refine edgeOf_eq_none.2 ?_
    intro k row hrow he
    by_cases hk : ∃ c' ∈ cs, c'.key = k
    · obtain ⟨c', hc', rfl⟩ := hk
      have hnew' := (h.new_eq hc').symm.trans hrow
      have heq := h.eq_of_edge hc' hc (((h.lawful c' hc').new_id hnew').symm.trans he)
      rw [heq, hnew] at hnew'
      cases hnew'
    · rw [h.same_eq (fun c' hc' hk' => hk ⟨c', hc', hk'⟩)] at hrow
      obtain ⟨r, hold⟩ := (h.lawful c hc).old_of_new_none hnew
      have hkey := hd.apart k c.key row r hrow ((h.old_eq hc).trans hold)
        (he.trans ((h.lawful c hc).old_id hold).symm)
      exact hk ⟨c, hc, hkey.symm⟩

/-- The edges that no change is about are as they were. -/
theorem edgeOf_of_notMem (he : ∀ c ∈ cs, c.event.edge ≠ e) : d'.edgeOf e = d.edgeOf e := by
  have hrows : ∀ k row, row.id = e →
      (d'.edges.committed k = some row ↔ d.edges.committed k = some row) := by
    rintro k _ rfl
    by_cases hk : ∃ c ∈ cs, c.key = k
    · obtain ⟨c, hc, rfl⟩ := hk
      rw [h.new_eq hc, h.old_eq hc]
      exact ⟨fun hnew => absurd ((h.lawful c hc).new_id hnew).symm (he c hc),
        fun hold => absurd ((h.lawful c hc).old_id hold).symm (he c hc)⟩
    · rw [h.same_eq (fun c hc hkey => hk ⟨c, hc, hkey⟩)]
  cases hedge : d.edgeOf e with
  | none =>
    refine edgeOf_eq_none.2 ?_
    intro k row hrow hid
    exact edgeOf_eq_none.1 hedge k row ((hrows k row hid).1 hrow) hid
  | some p =>
    obtain ⟨hrow, hid⟩ := mem_edgeOf hedge
    exact edgeOf_eq_some (h.apart hd) ((hrows p.1 p.2 hid).2 hrow) hid

theorem chronicle : Chronicle d' where
  ok := by
    intro k row hrow
    by_cases hk : ∃ c ∈ cs, c.key = k
    · obtain ⟨c, hc, rfl⟩ := hk
      have hold := h.old_eq hc
      have hnew := (h.new_eq hc).symm.trans hrow
      have hordered := h.ordered c hc
      cases h.lawful c hc with
      | requested _ _ _ _ hkey =>
        cases hnew
        subst hkey
        exact ⟨hordered rfl, party_pairOf_left _ _⟩
      | accepted _ r =>
        cases hnew
        exact hd.ok _ r hold
      | removed => cases hnew
    · rw [h.same_eq (fun c hc he => hk ⟨c, hc, he⟩)] at hrow
      exact hd.ok k row hrow
  apart := h.apart hd
  told := by
    intro e
    by_cases he : ∃ c ∈ cs, c.event.edge = e
    · obtain ⟨c, hc, rfl⟩ := he
      rw [h.edgeOf_new hd hc, h.story_of_mem hc]
      exact (hd.told _).step (h.lawful c hc) rfl (h.edgeOf_old hd hc)
        (fun hold => (h.fresh c hc hold).1)
    · have hne : ∀ c ∈ cs, c.event.edge ≠ e := fun c hc hce => he ⟨c, hc, hce⟩
      rw [h.edgeOf_of_notMem hd hne, h.story_of_notMem hne]
      exact hd.told e
  drawn := by
    intro v hv
    rw [h.events] at hv
    refine h.uuids _ ?_
    rcases mem_append.1 hv with hv | hv
    · exact hd.drawn v hv
    · obtain ⟨c, hc, rfl⟩ := mem_map.1 hv
      cases hold : c.old with
      | none => exact (h.fresh c hc hold).2
      | some row =>
        -- the story of a row that was there begins with an event
        have hstory : d.story c.event.edge ≠ [] := by
          intro hnil
          have hnone := (hnil ▸ hd.told c.event.edge).of_nil
          rw [← h.edgeOf_old hd hc, hold] at hnone
          cases hnone
        obtain ⟨v, hv⟩ := exists_mem_of_ne_nil _ hstory
        obtain ⟨hv, hedge⟩ := mem_filter.1 hv
        have hdrawn := hd.drawn v hv
        rwa [eq_of_beq hedge] at hdrawn

end

end Commits

end Chronicle

section Reachable

variable {G : World Data Pc → Sess × Act → Prop}
variable {w : World Data Pc} {t u : Sess} {a : Act} {d : Data} {e : Uuid}

/-- The id that a request has drawn for its edge. -/
def Pc.drawn : Pc → Option Uuid
  | .request _ (.inserted id) | .request _ (.counted id) => some id
  | _ => none

theorem uuids_grow (he : e ∈ d.uuids) : e ∈ ((stmt t a).change d).uuids := by
  cases a with
  | insertPending | insertAgain => exact mem_cons_of_mem _ he
  | _ => exact he

/-- An id is drawn by an insert, and is new then. -/
theorem drawn_fresh
    (hg : (stmt t a).guard d)
    (h : ((stmt t a).after d).drawn = some e) :
    (stmt t a).before.drawn = some e ∨ (e ∉ d.uuids ∧ e ∈ ((stmt t a).change d).uuids) := by
  cases a with
  | insertPending | insertAgain =>
    cases h
    exact .inr ⟨hg.2.2.2, mem_cons_self⟩
  | countAuthored => exact .inl h
  | purge m =>
    rcases after_purge (t := t) (d := d) m with hpc | ⟨_, hpc⟩
    all_goals
      rw [hpc] at h
      cases h
  | _ => cases h

theorem drawn_once (h : system.Reachable G w) :
    (∀ t e, (w.pc t).drawn = some e → e ∈ w.data.uuids) ∧
      ∀ t u e, (w.pc t).drawn = some e → (w.pc u).drawn = some e → t = u :=
  fresh_ids (X := programs) Data.uuids Pc.drawn rfl
    (fun _ _ _ _ _ => uuids_grow) (fun _ _ _ _ => drawn_fresh) h

/-- The roles of an edge that is not the caller's own request. -/
theorem Request.roles
    {r : Request}
    {row : EdgeRow}
    (hordered : Ordered r.pair)
    (hparty : Party r.pair row.requester)
    (hne : row.requester ≠ r.me.id) :
    row.requester = r.target.playerId ∧ otherOf r.pair row.requester = r.me.id := by
  have hme : Party r.pair r.me.id := party_pairOf_left _ _
  refine ⟨?_, hordered.otherOf_eq hparty hme hne⟩
  rw [← hordered.otherOf_eq hme hparty (Ne.symm hne)]
  exact hordered.otherOf_eq hme (party_pairOf_right _ _) hordered.ne

/-- The changes of a transaction are lawful. -/
theorem Pc.Sound.lawful
    {pc : Pc}
    (h : pc.Sound)
    (hok : ∀ k row, d.edges.committed k = some row → Ordered k ∧ Party k row.requester)
    (hold : ∀ c ∈ pc.changes, d.edges.committed c.key = c.old) :
    ∀ c ∈ pc.changes, Lawful c := by
  intro c hc
  have hrow := hold c hc
  cases pc with
  | idle => cases hc
  | request r st =>
    cases st with
    | inserted e | counted e =>
      cases mem_singleton.1 hc
      exact .requested _ e r.caller r.addressee rfl
    | crossed row =>
      cases mem_singleton.1 hc
      obtain ⟨hpending, hne⟩ := h
      obtain ⟨hordered, hparty⟩ := hok r.pair row hrow
      exact .accepted _ row r.addressee r.caller (pairOf_comm _ _) hpending
        (Request.roles hordered hparty hne).1
    | _ => cases hc
  | edge c' st =>
    cases st with
    | viewed => cases hc
    | written k row =>
      cases mem_singleton.1 hc
      obtain ⟨hordered, hparty⟩ := hok k row hrow
      obtain ⟨-, hme, hop⟩ := h
      have hkey : pairOf c'.me (otherOf k c'.me) = k :=
        hordered.pairOf_eq hme (party_otherOf k c'.me) (Ne.symm hordered.otherOf_ne)
      cases hc' : c'.op with
      | accept =>
        simp only [EdgeCall.change, hc']
        rcases hop with hop | ⟨hpending, hne⟩
        · rw [hc'] at hop
          cases hop
        · exact .accepted k row ⟨otherOf k c'.me, c'.otherHandle⟩ ⟨c'.me, c'.handle⟩
            ((pairOf_comm _ _).trans hkey) hpending
            (hordered.otherOf_eq hme hparty (Ne.symm hne)).symm
      | decline | remove =>
        simp only [EdgeCall.change, hc']
        exact .removed k row ⟨c'.me, c'.handle⟩ ⟨otherOf k c'.me, c'.otherHandle⟩ _ hkey
  | purge =>
    obtain ⟨m, hm, rfl⟩ := mem_map.1 hc
    obtain ⟨hordered, -⟩ := hok m.key m.row hrow
    have hparty : Party m.key m.player := of_decide_eq_true (h m hm)
    exact .removed m.key m.row ⟨m.player, m.tomb.handle⟩ ⟨otherOf m.key m.player, ""⟩ _
      (hordered.pairOf_eq hparty (party_otherOf _ _) (Ne.symm hordered.otherOf_ne))

/-- A transaction that creates an edge does nothing else. -/
theorem Pc.creates
    {pc : Pc}
    {c : Change}
    (hc : c ∈ pc.changes)
    (hold : c.old = none) :
    pc.changes = [c] ∧ pc.drawn = some c.event.edge ∧ (pc.Sound → Ordered c.key) := by
  cases pc with
  | idle => cases hc
  | request _ st =>
    cases st with
    | inserted e | counted e =>
      cases mem_singleton.1 hc
      exact ⟨rfl, rfl, id⟩
    | crossed =>
      cases mem_singleton.1 hc
      cases hold
    | _ => cases hc
  | edge _ st =>
    cases st with
    | viewed => cases hc
    | written =>
      cases mem_singleton.1 hc
      cases hold
  | purge =>
    obtain ⟨_, -, rfl⟩ := mem_map.1 hc
    cases hold

/-- The changes of a transaction are about different edges. -/
theorem changes_once {pc : Pc}
    (hapart : ∀ k k' row row', d.edges.committed k = some row →
      d.edges.committed k' = some row' → row.id = row'.id → k = k')
    (hkeys : (pc.changes.map Change.key).Nodup)
    (hold : ∀ c ∈ pc.changes, d.edges.committed c.key = c.old)
    (hlawful : ∀ c ∈ pc.changes, Lawful c) : (pc.changes.map (fun c => c.event.edge)).Nodup := by
  by_cases hcreate : ∃ c ∈ pc.changes, c.old = none
  · obtain ⟨_, hc, hnone⟩ := hcreate
    rw [(Pc.creates hc hnone).1]
    exact nodup_singleton _
  · refine List.Nodup.map_on ?_ (List.Nodup.of_map _ hkeys)
    intro c hc c' hc' hedge
    have hrow : ∀ c ∈ pc.changes, ∃ row, c.old = some row :=
      fun c hc => ne_none_iff_exists'.1 (fun hnone => hcreate ⟨c, hc, hnone⟩)
    obtain ⟨row, hr⟩ := hrow c hc
    obtain ⟨row', hr'⟩ := hrow c' hc'
    have hkey := hapart c.key c'.key row row' ((hold c hc).trans hr) ((hold c' hc').trans hr')
      (((hlawful c hc).old_id hr).trans (hedge.trans ((hlawful c' hc').old_id hr').symm))
    exact inj_on_of_nodup_map hkeys hc hc' hkey

/-- The edges and the events fit, and nothing has been told of the edges that are
being inserted. -/
structure Untold (w : World Data Pc) : Prop where
  chronicle : Chronicle w.data
  untold : ∀ t e, (w.pc t).drawn = some e → w.data.story e = []

/-- Every step commits changes, or none. -/
theorem Untold.commits
    (h : Untold w)
    (hr : system.Reachable G w)
    (en : programs.enabled w (t, a)) :
    ∃ cs, Commits w.data ((stmt t a).change w.data) cs ∧
      ∀ c ∈ cs, (programs.effect w (t, a)).pc t = .idle ∧
        (c.old = none → (w.pc t).drawn = some c.event.edge) := by
  have hquiet : (∀ pc answers, a ≠ .commit pc answers) →
      ∃ cs, Commits w.data ((stmt t a).change w.data) cs ∧
        ∀ c ∈ cs, (programs.effect w (t, a)).pc t = .idle ∧
          (c.old = none → (w.pc t).drawn = some c.event.edge) := by
    intro hq
    refine ⟨[], ⟨⟨?_, ?_, ?_⟩, ?_, fun e he => uuids_grow he, ?_, nodup_nil, ?_, ?_⟩, ?_⟩
    · simp
    · simp
    · exact fun k _ => edges_quiet hq k
    · simpa using events_quiet hq
    all_goals
      intro _ hc
      cases hc
  cases a with
  | commit pc =>
    have hpc : w.pc t = pc := en.1
    have happ := commit_applies hr en
    have hsound : pc.Sound := hpc ▸ sound_reachable hr t
    have hold : ∀ c ∈ pc.changes, w.data.edges.committed c.key = c.old :=
      fun c hc => happ.based c.write (mem_map_of_mem hc)
    have hlawful := hsound.lawful h.chronicle.ok hold
    have hdrawn : ∀ c ∈ pc.changes, c.old = none → (w.pc t).drawn = some c.event.edge :=
      fun c hc hnone => hpc ▸ (Pc.creates hc hnone).2.1
    refine ⟨pc.changes, ⟨happ, rfl, fun e he => he, hlawful, ?_, ?_, ?_⟩,
      fun c hc => ⟨pc_own (X := programs), hdrawn c hc⟩⟩
    · exact changes_once h.chronicle.apart (hpc ▸ keys_nodup hr t) hold hlawful
    · intro c hc hnone
      exact ⟨h.untold t _ (hdrawn c hc hnone), (drawn_once hr).1 t _ (hdrawn c hc hnone)⟩
    · intro _ hc hnone
      exact (Pc.creates hc hnone).2.2 hsound
  | _ =>
    refine hquiet ?_
    intro _ _ he
    cases he

theorem untold_reachable (h : system.Reachable G w) : Untold w := by
  refine h.invariant ?_ ?_
  · refine ⟨⟨?_, ?_, fun e => .unborn, ?_⟩, ?_⟩
    · intro _ _ hrow
      cases hrow
    · intro _ _ _ _ hrow
      cases hrow
    · intro _ hv
      cases hv
    · intro _ _ _
      rfl
  rintro w ⟨t, a⟩ hr hI _ en
  obtain ⟨cs, hcs, hends⟩ := hI.commits hr en
  refine ⟨hcs.chronicle hI.chronicle, ?_⟩
  intro u e he
  show ((stmt t a).change w.data).story e = []
  have hother : ∀ c ∈ cs, u ≠ t := by
    rintro c hc rfl
    rw [show (system.effect w (u, a)).pc u = _ from (hends c hc).1] at he
    cases he
  rcases pc_read Pc.drawn en (drawn_fresh en.2) he with hold | ⟨rfl, hfresh, -⟩
  · rw [hcs.story_of_notMem, hI.untold u e hold]
    rintro c hc rfl
    cases hnone : c.old with
    | none => exact hother c hc ((drawn_once hr).2 u t _ hold ((hends c hc).2 hnone))
    | some =>
      have hat := hcs.edgeOf_old hI.chronicle hc
      have hgone := (hI.untold u _ hold ▸ hI.chronicle.told c.event.edge).of_nil
      rw [hgone, hnone] at hat
      cases hat
  · rw [hcs.story_of_notMem (fun c hc => absurd rfl (hother c hc))]
    refine filter_eq_nil_iff.2 ?_
    intro v hv hve
    exact hfresh (eq_of_beq hve ▸ hI.chronicle.drawn v hv)

end Reachable

section Consent

variable {G : World Data Pc → Sess × Act → Prop}
variable {w : World Data Pc} {t : Sess} {a : Act} {d : Data} {row : EdgeRow}

/-- The call by which the other party `p` has agreed to an edge. -/
def Answer.Agrees (p : Uuid) (row : EdgeRow) : Answer → Prop
  | .edge c (.ok _) => c.op = .accept ∧ c.me = p ∧ c.edge = row.id
  | .request r (.crossed e) => e = row.id ∧ r.me.id = p ∧ r.target.playerId = row.requester
  | _ => False

/-- The request that an edge comes from. -/
def Request.Asks (r : Request) (k : Uuid × Uuid) (row : EdgeRow) : Prop :=
  r.me.id = row.requester ∧ r.target.playerId = otherOf k row.requester

/-- The committed calls behind the edges. -/
structure Consented (d : Data) : Prop where
  asked : ∀ k row, d.edges.committed k = some row →
    ∃ r : Request, r.Asks k row ∧ .request r (.created row.id) ∈ d.answers
  agreed : ∀ k row, d.edges.committed k = some row → row.state = .accepted →
    ∃ (r : Request) (y : Answer), r.Asks k row ∧ y.Agrees (otherOf k row.requester) row ∧
      [.request r (.created row.id), y].Sublist d.answers

theorem answers_grow : ∃ more, ((stmt t a).change d).answers = d.answers ++ more := by
  cases a with
  | reject | viewMiss | commit | refuse | fail => exact ⟨_, rfl⟩
  | _ => exact ⟨[], (append_nil _).symm⟩

/-- A row that was there before the step is still backed. -/
theorem Consented.kept
    (h : Consented d)
    {k : Uuid × Uuid}
    (hrow : d.edges.committed k = some row) :
    (∃ r : Request, r.Asks k row ∧ .request r (.created row.id) ∈ ((stmt t a).change d).answers) ∧
      (row.state = .accepted → ∃ (r : Request) (y : Answer), r.Asks k row ∧
        y.Agrees (otherOf k row.requester) row ∧
          [.request r (.created row.id), y].Sublist ((stmt t a).change d).answers) := by
  obtain ⟨_, hmore⟩ := answers_grow (t := t) (a := a) (d := d)
  rw [hmore]
  constructor
  · obtain ⟨r, hr, hmem⟩ := h.asked k row hrow
    exact ⟨r, hr, mem_append_left _ hmem⟩
  · intro hacc
    obtain ⟨r, y, hr, hy, hsub⟩ := h.agreed k row hrow hacc
    exact ⟨r, y, hr, hy, hsub.trans (sublist_append_left _ _)⟩

/-- The other party agrees with a call that appends the answer `y`. -/
theorem Consented.agree
    (h : Consented d)
    {k : Uuid × Uuid}
    {y : Answer}
    (hrow : d.edges.committed k = some row)
    (hy : y.Agrees (otherOf k row.requester) row) :
    (∃ r : Request, r.Asks k row.accept ∧ .request r (.created row.accept.id) ∈ d.answers ++ [y]) ∧
      (row.accept.state = .accepted → ∃ (r : Request) (y' : Answer), r.Asks k row.accept ∧
        y'.Agrees (otherOf k row.accept.requester) row.accept ∧
          [.request r (.created row.accept.id), y'].Sublist (d.answers ++ [y])) := by
  obtain ⟨r, hr, hmem⟩ := h.asked k row hrow
  refine ⟨⟨r, hr, mem_append_left _ hmem⟩, fun _ => ⟨r, y, hr, ?_, ?_⟩⟩
  · cases y with
    | edge _ result => cases result <;> exact hy
    | request _ outcome => cases outcome <;> exact hy
    | rejected => exact hy
  · exact List.Sublist.append (singleton_sublist.2 hmem) (List.Sublist.refl [y])

/-- The rows that a `COMMIT` leaves are backed by its answer. -/
theorem Consented.commit
    {pc : Pc}
    {answers : List Answer}
    {c : Change}
    (h : Consented d)
    (hok : ∀ k row, d.edges.committed k = some row → Ordered k ∧ Party k row.requester)
    (hsound : pc.Sound)
    (hresult : pc.result = some answers)
    (hc : c ∈ pc.changes)
    (hold : d.edges.committed c.key = c.old)
    (hnew : c.new = some row) :
    (∃ r : Request, r.Asks c.key row ∧ .request r (.created row.id) ∈ d.answers ++ answers) ∧
      (row.state = .accepted → ∃ (r : Request) (y : Answer), r.Asks c.key row ∧
        y.Agrees (otherOf c.key row.requester) row ∧
          [.request r (.created row.id), y].Sublist (d.answers ++ answers)) := by
  cases pc with
  | idle => cases hc
  | request r st =>
    cases st with
    | counted =>
      cases mem_singleton.1 hc
      cases hresult
      cases hnew
      have hother : otherOf r.pair r.me.id = r.target.playerId :=
        Ordered.otherOf_eq hsound (party_pairOf_left _ _) (party_pairOf_right _ _)
          (Ordered.ne hsound)
      refine ⟨⟨r, ⟨rfl, hother.symm⟩, mem_append_right _ mem_cons_self⟩, ?_⟩
      intro hacc
      cases hacc
    | crossed old =>
      cases mem_singleton.1 hc
      cases hresult
      cases hnew
      obtain ⟨hordered, hparty⟩ := hok r.pair old hold
      obtain ⟨htarget, hme⟩ := Request.roles hordered hparty hsound.2
      exact h.agree hold ⟨rfl, hme.symm, htarget.symm⟩
    | inserted => cases hresult
    | _ => cases hc
  | edge c' st =>
    cases st with
    | viewed => cases hc
    | written k old =>
      cases mem_singleton.1 hc
      cases hresult
      obtain ⟨hordered, hparty⟩ := hok k old hold
      obtain ⟨hid, hme, hop⟩ := hsound
      cases hc' : c'.op with
      | accept =>
        simp only [EdgeCall.change, hc', some.injEq] at hnew
        subst hnew
        rcases hop with hop | ⟨-, hne⟩
        · rw [hc'] at hop
          cases hop
        · exact h.agree hold ⟨hc', (hordered.otherOf_eq hparty hme hne).symm, hid.symm⟩
      | decline | remove =>
        simp only [EdgeCall.change, hc'] at hnew
        cases hnew
  | purge =>
    obtain ⟨_, -, rfl⟩ := mem_map.1 hc
    cases hnew

theorem consented_reachable (h : system.Reachable G w) : Consented w.data := by
  refine data_invariant (X := programs) (I := Consented) ?_ ?_ h
  · constructor
    · intro _ _ hrow
      cases hrow
    · intro _ _ hrow
      cases hrow
  intro w t a hr _ en hI
  have hstep : ∀ k row, ((stmt t a).change w.data).edges.committed k = some row →
      (∃ r : Request, r.Asks k row ∧
          .request r (.created row.id) ∈ ((stmt t a).change w.data).answers) ∧
        (row.state = .accepted → ∃ (r : Request) (y : Answer), r.Asks k row ∧
          y.Agrees (otherOf k row.requester) row ∧
            [.request r (.created row.id), y].Sublist ((stmt t a).change w.data).answers) := by
    intro k _ hrow
    cases a with
    | commit pc answers =>
      have hpc : w.pc t = pc := en.1
      rcases commit_cases hr en k with hsame | ⟨c, hc, rfl, hold, hnew⟩
      · exact hI.kept (a := .commit pc answers) (hsame.symm.trans hrow)
      · exact hI.commit (untold_reachable hr).chronicle.ok (hpc ▸ sound_reachable hr t) en.2 hc
          hold (hnew.symm.trans hrow)
    | _ =>
      refine hI.kept ?_
      rw [← hrow]
      refine (edges_quiet ?_ k).symm
      intro _ _ he
      cases he
  exact ⟨fun k row hrow => (hstep k row hrow).1, fun k row hrow => (hstep k row hrow).2⟩

end Consent

section Cap

variable {G : World Data Pc → Sess × Act → Prop}
variable {w : World Data Pc} {t u : Sess} {a : Act} {d : Data} {p : Uuid}

/-- A pending request of the player. -/
def authoredBy (p : Uuid) (_ : Uuid × Uuid) (row : EdgeRow) : Bool :=
  row.requester == p && row.state == .pending

/-- The number of committed pending requests of a player. -/
def Data.outstanding (d : Data) (p : Uuid) : Nat := d.edges.count (authoredBy p)

/-- The requests that have been counted and fit. -/
def Pc.admitted : Pc → Option Uuid
  | .request r (.counted _) => some r.me.id
  | _ => none

theorem outstanding_quiet (hquiet : ∀ pc answers, a ≠ .commit pc answers) :
    ((stmt t a).change d).outstanding p ≤ d.outstanding p := by
  refine count_le ?_
  intro _ row hrow hf
  rw [edges_quiet hquiet] at hrow
  exact ⟨row, hrow, hf⟩

/-- A `COMMIT` that adds a pending request of `p` is that of a counted request. -/
theorem Pc.admitted_of_new
    {pc : Pc}
    {answers : List Answer}
    {c : Change}
    {row : EdgeRow}
    (hlawful : Lawful c)
    (hresult : pc.result = some answers)
    (hc : c ∈ pc.changes)
    (hnew : c.new = some row)
    (hf : authoredBy p c.key row = true) :
    pc.admitted = some p ∧ pc.changes = [c] := by
  have hold : c.old = none := by
    cases hlawful with
    | requested => rfl
    | removed => cases hnew
    | accepted =>
      cases hnew
      simp [authoredBy, EdgeRow.accept] at hf
  refine ⟨?_, (Pc.creates hc hold).1⟩
  cases pc with
  | request _ st =>
    cases st with
    | counted =>
      cases mem_singleton.1 hc
      cases hnew
      simp only [authoredBy, EdgeRow.request, Bool.and_eq_true, beq_iff_eq] at hf
      rw [Pc.admitted, hf.1]
    | inserted => cases hresult
    | crossed =>
      cases mem_singleton.1 hc
      cases hold
    | _ => cases hc
  | edge _ st =>
    cases st with
    | viewed => cases hc
    | written =>
      cases mem_singleton.1 hc
      cases hold
  | purge =>
    obtain ⟨_, -, rfl⟩ := mem_map.1 hc
    cases hold
  | _ => cases hc

theorem outstanding_grow
    (hr : system.Reachable G w)
    (en : programs.enabled w (t, a)) :
    ((stmt t a).change w.data).outstanding p ≤ w.data.outstanding p ∨
      ((stmt t a).before.admitted = some p ∧ ((stmt t a).after w.data).admitted ≠ some p ∧
        ((stmt t a).change w.data).outstanding p ≤ w.data.outstanding p + 1) := by
  cases a with
  | commit pc answers =>
    have hpc : w.pc t = pc := en.1
    have happ := commit_applies hr en
    have hlawful : ∀ c ∈ pc.changes, Lawful c :=
      Pc.Sound.lawful (hpc ▸ sound_reachable hr t) (untold_reachable hr).chronicle.ok
        (fun c hc => happ.based c.write (mem_map_of_mem hc))
    -- a pending request after the step was there before, or the step has added it
    have hrows : ∀ k row, (w.data.commit t pc.changes answers).edges.committed k = some row →
        authoredBy p k row = true →
          w.data.edges.committed k = some row ∨
            ∃ c ∈ pc.changes, c.key = k ∧ pc.admitted = some p ∧ pc.changes = [c] := by
      intro k _ hrow hf
      rcases commit_cases hr en k with hsame | ⟨c, hc, rfl, -, hnew⟩
      · exact .inl (hsame.symm.trans hrow)
      · have hnew := hnew.symm.trans hrow
        exact .inr ⟨c, hc, rfl, Pc.admitted_of_new (hlawful c hc) en.2 hc hnew hf⟩
    by_cases hadm : pc.admitted = some p
    · have hidle : ((stmt t (.commit pc answers)).after w.data).admitted ≠ some p := by
        intro he
        cases he
      refine .inr ⟨hadm, hidle, ?_⟩
      by_cases hone : ∃ c, pc.changes = [c]
      · obtain ⟨c, hone⟩ := hone
        refine count_le_succ c.key ?_
        intro k row hk hrow hf
        rcases hrows k row hrow hf with hold | ⟨_, -, hkey, -, hone'⟩
        · exact ⟨row, hold, hf⟩
        · rw [hone] at hone'
          cases hone'
          exact absurd hkey.symm hk
      · refine Nat.le_succ_of_le (count_le ?_)
        intro k row hrow hf
        rcases hrows k row hrow hf with hold | ⟨c, -, -, -, hone'⟩
        · exact ⟨row, hold, hf⟩
        · exact absurd ⟨c, hone'⟩ hone
    · refine .inl (count_le ?_)
      intro k row hrow hf
      rcases hrows k row hrow hf with hold | ⟨-, -, -, hadm', -⟩
      · exact ⟨row, hold, hf⟩
      · exact absurd hadm' hadm
  | _ =>
    refine .inl (outstanding_quiet ?_)
    intro _ _ he
    cases he

/-- A request is admitted when it has counted the pending ones, its own included. -/
theorem admitted_room
    (hr : system.Reachable G w)
    (en : programs.enabled w (t, a))
    (h : ((stmt t a).after w.data).admitted = some p) :
    ((stmt t a).change w.data).outstanding p < maxPendingOutstanding := by
  cases a with
  | countAuthored r e =>
    cases h
    have hheld : w.data.edges.Owes t (.writing [(r.create e).write]) := by
      have howes := edges_held hr t
      rwa [en.1] at howes
    have hmem : (r.create e).write ∈ [(r.create e).write] := mem_singleton.2 rfl
    have hnone : w.data.edges.committed r.pair = none := hheld.based _ hmem
    refine Nat.lt_of_lt_of_le ?_ (show w.data.authoredPending t r.me.id ≤ _ from en.2)
    refine count_lt_select hnone
      (view_of_pending_self (hheld.held _ hmem)) ?_ ?_
    · simp [authoredBy, EdgeRow.request]
    · intro k row hrow hf
      refine ⟨row, ?_, hf⟩
      rw [view_of_not_holder, hrow]
      intro v hv
      rcases hheld.only k v hv with ⟨_, hc, hkey, -⟩ | ⟨-, _, -, hdoom⟩
      · cases mem_singleton.1 hc
        rw [← hkey] at hrow
        cases hnone.symm.trans hrow
      · exact hdoom
  | purge m =>
    rcases after_purge (t := t) (d := w.data) m with hpc | ⟨_, hpc⟩
    all_goals
      rw [hpc] at h
      cases h
  | _ => cases h

/-- The pending requests of a player are bounded. -/
theorem outstanding_le
    (h : system.Reachable G w)
    (p : Uuid) :
    w.data.outstanding p ≤ maxPendingOutstanding := by
  refine (Programs.capacity (X := programs) Data.outstanding Pc.admitted maxPendingOutstanding
    (fun p => Nat.zero_le _) (fun p hp => by cases hp)
    (fun w t a p hr _ en => outstanding_grow hr en)
    (fun w t a p hr _ en hp => .inr (admitted_room hr en hp)) ?_ h).1 p
  intro _ _ _ p hr ht hu
  have hpoint : ∀ pc : Pc, pc.admitted = some p →
      ∃ r e, pc = .request r (.counted e) ∧ r.me.id = p := by
    intro pc hpc
    cases pc with
    | request r st =>
      cases st with
      | counted e =>
        cases hpc
        exact ⟨r, e, rfl, rfl⟩
      | _ => cases hpc
    | _ => cases hpc
  obtain ⟨_, _, hpc, hme⟩ := hpoint _ ht
  obtain ⟨_, _, hpc', hme'⟩ := hpoint _ hu
  exact request_exclusive hr hpc hpc' (fun he => by cases he) (fun he => by cases he)
    (hme.trans hme'.symm)

end Cap

section Friendship

variable {w : World Data Pc}

/-- The edge has been removed. -/
def Removed (e : Uuid) (l : List Event) : Prop := ∃ x y reason, .removed e x y reason ∈ l

/-- An edge is told to be removed exactly when it was there and is gone. -/
theorem Told.removed_iff
    {e : Uuid}
    {st : Option ((Uuid × Uuid) × EdgeRow)}
    {l : List Event}
    (h : Told e st l) :
    Removed e l ↔ l ≠ [] ∧ st = none := by
  cases h <;> simp [Removed]

/-- Friendship needs both sides, and the events tell it: at most one edge for two
players; an accepted edge comes from a committed request of its requester, followed
by a committed agreement of the other party; the events about an edge are its
request, its acceptance and its removal, with the names of the parties, appended by
the step that makes the change; and the pending requests of a player are bounded. -/
theorem friendship_needs_both_sides (h : system.Reachable TransitionSystem.anyStep w) :
    (∀ p q k k', (k = (p, q) ∨ k = (q, p)) → (k' = (p, q) ∨ k' = (q, p)) →
      w.data.edges.committed k ≠ none → w.data.edges.committed k' ≠ none → k = k') ∧
    (∀ k row, w.data.edges.committed k = some row → row.state = .accepted →
      ∃ (r : Request) (y : Answer), r.Asks k row ∧ y.Agrees (otherOf k row.requester) row ∧
        [.request r (.created row.id), y].Sublist w.data.answers) ∧
    (∀ e k row, w.data.edgeOf e = some (k, row) ↔
      w.data.edges.committed k = some row ∧ row.id = e) ∧
    (∀ e, Told e (w.data.edgeOf e) (w.data.story e) ∧
      (Removed e (w.data.story e) ↔ w.data.story e ≠ [] ∧ w.data.edgeOf e = none)) ∧
    (∀ a, system.enabled w a → ∀ e,
      ((system.effect w a).data.edgeOf e = w.data.edgeOf e ∧
        (system.effect w a).data.story e = w.data.story e) ∨
      ∃ c, Lawful c ∧ c.event.edge = e ∧ w.data.edgeOf e = c.at c.old ∧
        (system.effect w a).data.edgeOf e = c.at c.new ∧
        (system.effect w a).data.story e = w.data.story e ++ [c.event]) ∧
    (∀ p, w.data.outstanding p ≤ maxPendingOutstanding) := by
  have huntold := untold_reachable h
  have hchron := huntold.chronicle
  refine ⟨?_, (consented_reachable h).agreed, ?_, ?_, ?_, outstanding_le h⟩
  · intro _ _ k k' hk hk' hrow hrow'
    obtain ⟨row, hrow⟩ := ne_none_iff_exists'.1 hrow
    obtain ⟨row', hrow'⟩ := ne_none_iff_exists'.1 hrow'
    have hlt : k.1.value < k.2.value := (hchron.ok k row hrow).1
    have hlt' : k'.1.value < k'.2.value := (hchron.ok k' row' hrow').1
    rcases hk with rfl | rfl <;> rcases hk' with rfl | rfl
    · rfl
    · exact absurd hlt (Nat.lt_asymm hlt')
    · exact absurd hlt (Nat.lt_asymm hlt')
    · rfl
  · intro _ _ _
    exact ⟨mem_edgeOf, fun hrow => edgeOf_eq_some hchron.apart hrow.1 hrow.2⟩
  · intro e
    exact ⟨hchron.told e, (hchron.told e).removed_iff⟩
  · rintro ⟨_, _⟩ en e
    obtain ⟨cs, hcs, -⟩ := huntold.commits h en
    by_cases he : ∃ c ∈ cs, c.event.edge = e
    · obtain ⟨c, hc, rfl⟩ := he
      exact .inr ⟨c, hcs.lawful c hc, rfl, (hcs.edgeOf_old hchron hc).symm,
        hcs.edgeOf_new hchron hc, hcs.story_of_mem hc⟩
    · have hne : ∀ c ∈ cs, c.event.edge ≠ e := fun c hc hce => he ⟨c, hc, hce⟩
      exact .inl ⟨hcs.edgeOf_of_notMem hchron hne, hcs.story_of_notMem hne⟩

/-- Two players and an edge. -/
def ann : Uuid := .filled 10

def bob : Uuid := .filled 11

def firstEdge : Uuid := .filled 14

/-- The two players request each other. -/
def annAsks : RequestInput where
  me := ⟨ann.text, ann, by decide +kernel⟩
  targetHandle := "bob#0001"
  found := some ⟨bob, "bob", "bob#0001", ""⟩
  handle := "ann#0001"

def bobAsks : RequestInput where
  me := ⟨bob.text, bob, by decide +kernel⟩
  targetHandle := "ann#0001"
  found := some ⟨ann, "ann", "ann#0001", ""⟩
  handle := "bob#0001"

/-- The requests cross, and the friendship is ended. -/
def crossingRun : List (Sess × Act) :=
  let r : Request := ⟨annAsks.me, "ann#0001", ⟨bob, "bob", "bob#0001", ""⟩⟩
  let r' : Request := ⟨bobAsks.me, "bob#0001", ⟨ann, "ann", "ann#0001", ""⟩⟩
  let row := EdgeRow.request firstEdge ann
  let c : EdgeCall := ⟨.remove, bob, firstEdge, "bob#0001", "ann#0001"⟩
  [(1, .requestOpen annAsks r), (2, .requestOpen bobAsks r'),
   (1, .lockRequester r), (2, .lockRequester r'),
   (1, .checkTombstone r), (2, .checkTombstone r'),
   (1, .insertPending r firstEdge), (1, .countAuthored r firstEdge),
   (1, .commit (.request r (.counted firstEdge)) [.request r (.created firstEdge)]),
   (2, .insertConflict r'), (2, .acceptCrossing r' row),
   (2, .commit (.request r' (.crossed row)) [.request r' (.crossed firstEdge)]),
   (2, .viewEdge c (ann, bob) row.accept), (2, .writeEdge c (ann, bob) row.accept),
   (2, .commit (.edge c (.written (ann, bob) row.accept)) [.edge c (.ok ())])]

/-- The whole life of an edge: requested by one player, accepted by the crossing
request of the other, and removed. -/
theorem friendship_crossing :
    ∃ w, system.Reachable TransitionSystem.anyStep w ∧
      w.data.story firstEdge =
        [.requested firstEdge ⟨ann, "ann#0001"⟩ ⟨bob, "bob#0001"⟩,
          .accepted firstEdge ⟨ann, "ann#0001"⟩ ⟨bob, "bob#0001"⟩,
          .removed firstEdge ⟨bob, "bob#0001"⟩ ⟨ann, "ann#0001"⟩ .unfriended] ∧
      w.data.edgeOf firstEdge = none ∧ w.data.outstanding ann ≤ maxPendingOutstanding := by
  obtain ⟨w, hw, hstory⟩ := TransitionSystem.exec_exhibits (T := system)
    TransitionSystem.anyStep crossingRun
    (f := fun w => decide (w.data.story firstEdge =
      [.requested firstEdge ⟨ann, "ann#0001"⟩ ⟨bob, "bob#0001"⟩,
        .accepted firstEdge ⟨ann, "ann#0001"⟩ ⟨bob, "bob#0001"⟩,
        .removed firstEdge ⟨bob, "bob#0001"⟩ ⟨ann, "ann#0001"⟩ .unfriended]))
    (by decide +kernel)
  have hstory := of_decide_eq_true hstory
  obtain ⟨-, -, -, htold, -, hcap⟩ := friendship_needs_both_sides hw
  have hremoved : Removed firstEdge (w.data.story firstEdge) :=
    ⟨_, _, _, by rw [hstory]; exact mem_cons_of_mem _ (mem_cons_of_mem _ (.head _))⟩
  exact ⟨w, hw, hstory, ((htold firstEdge).2.1 hremoved).2, hcap ann⟩

end Friendship

end Swarog.Friends
