import Swarog.Mail.Outbox

/-!
# What the outbox says about the newest attempt

The generation of a row is the number of its claims and requeues (`Recorded`), so that a row
which is pending with the generation of a claim has not been claimed, requeued or cancelled
since.  `Fate` says what one step can do to one row; the invariants follow from it.
-/

namespace Swarog.Mail

open Pg (Sess Stmt Programs World)
open TransitionSystem Function FinMap List

section Stories

/-- The events that add one to the generation. -/
def Event.bumps : Event → Bool
  | .claimed _ => true
  | .requeued => true
  | _ => false

/-- A status was written. -/
def Event.writesStatus : Event → Bool
  | .finished _ _ => true
  | _ => false

def bumps (l : List Event) : Int := (l.countP Event.bumps : Nat)

/-- Every claim has got the next generation. -/
def Numbered (l : List Event) : Prop := ∀ a g b, l = a ++ .claimed g :: b → g = bumps a + 1

variable {l a b : List Event} {e e' : Event} {g g' : Int}

theorem bumps_append : bumps (a ++ b) = bumps a + bumps b := by
  unfold bumps
  rw [countP_append]
  exact Int.natCast_add _ _

theorem bumps_claimed : bumps (a ++ .claimed g :: b) = bumps a + (1 + bumps b) := by
  rw [bumps_append, ← singleton_append, bumps_append]
  rfl

theorem bumps_nonneg : 0 ≤ bumps l := Int.natCast_nonneg _

/-- Where an event stands in a story that has become longer by one. -/
theorem append_singleton_cases (h : l ++ [e] = a ++ e' :: b) :
    (l = a ∧ e = e') ∨ ∃ b', l = a ++ e' :: b' := by
  rcases eq_nil_or_concat b with rfl | ⟨b', _, rfl⟩
  · obtain ⟨hl, he⟩ := append_inj' h rfl
    exact .inl ⟨hl, (List.cons.inj he).1⟩
  · rw [concat_eq_append, ← cons_append, ← append_assoc] at h
    exact .inr ⟨b', (append_inj' h rfl).1⟩

theorem Numbered.append (h : Numbered l) (he : ∀ g, e = .claimed g → g = bumps l + 1) :
    Numbered (l ++ [e]) := by
  intro a g _ heq
  rcases append_singleton_cases heq with ⟨rfl, hclaim⟩ | ⟨b', hl⟩
  · exact he g hclaim
  · exact h a g b' hl

/-- A claim whose generation is still the newest has not been followed by a claim, a requeue
or a cancel. -/
theorem newest_claim (hnumbered : Numbered l) (hclaim : .claimed g ∈ l) (hbumps : g = bumps l)
    (hcancel : .cancelled ∉ l) :
    ∃ a₁ a₂, l = a₁ ++ .claimed g :: a₂ ∧ ∀ e ∈ a₂, e.writesStatus = true := by
  obtain ⟨a₁, a₂, rfl⟩ := append_of_mem hclaim
  refine ⟨a₁, a₂, rfl, ?_⟩
  have hg := hnumbered a₁ g a₂ rfl
  have hcount : bumps (a₁ ++ .claimed g :: a₂) = bumps a₁ + (1 + bumps a₂) := bumps_claimed
  have hnone : bumps a₂ = 0 := by omega
  intro e he
  have hnot : ¬ e.bumps = true := countP_eq_zero.1 (Int.ofNat_eq_zero.1 hnone) e he
  cases e with
  | claimed | requeued => exact absurd rfl hnot
  | finished => rfl
  | cancelled => exact absurd (mem_append_right a₁ (mem_cons_of_mem _ he)) hcancel

/-- No two claims have the same generation. -/
theorem Numbered.distinct (h : Numbered (a ++ .claimed g :: (b ++ .claimed g' :: l))) : g < g' := by
  have hg := h a g _ rfl
  have hg' := h (a ++ .claimed g :: b) g' l (by simp)
  have hcount : bumps (a ++ .claimed g :: b) = bumps a + (1 + bumps b) := bumps_claimed
  have hb : 0 ≤ bumps b := bumps_nonneg
  omega

end Stories

section Rows

variable {m : NewMail} {row : MailRow}

/-- The row holds the message, but for the body if it was sent. -/
structure MailRow.Carries (row : MailRow) (m : NewMail) : Prop where
  key : row.idempotencyKey = m.idempotencyKey
  recipient : row.recipient = m.recipient
  subject : row.subject = m.subject
  kind : row.kind = m.kind
  body : row.state ≠ .sent → row.body = m.body

theorem carries_inserted (m : NewMail) (now : Int) : (MailRow.inserted m now).Carries m :=
  ⟨rfl, rfl, rfl, rfl, fun _ => rfl⟩

/-- The same message is a duplicate, in whatever state the row is. -/
theorem classifyExisting_of_carries (h : row.Carries m) : classifyExisting m row = .duplicate := by
  unfold classifyExisting bodyIsComparable
  rw [h.recipient, h.subject, h.kind]
  by_cases hs : row.state = .sent
  · simp [hs]
  · simp [hs, h.body hs]

theorem carries_finished (disposition : Disposition) (provider : String) (now : Int)
    (hpending : row.state = .pending) (h : row.Carries m) :
    (row.finished disposition provider now).Carries m := by
  cases disposition with
  | sent => exact ⟨h.key, h.recipient, h.subject, h.kind, fun hne => absurd rfl hne⟩
  | parked =>
    exact ⟨h.key, h.recipient, h.subject, h.kind, fun _ => h.body (by rw [hpending]; decide)⟩
  | retry => exact ⟨h.key, h.recipient, h.subject, h.kind, h.body⟩

end Rows

section Fates

/-- What a step does to a row, and what it adds to the story of the row. -/
inductive Fate (d : Data) (id : MailId) : Option MailRow → Option MailRow → List Event → Prop
  | same (r : Option MailRow) : Fate d id r r []
  | created (m : NewMail) (now : Int)
      (horigin : d.origin.get id = some m)
      (hopened : d.opened.get id ≠ none) :
      Fate d id none (some (MailRow.inserted m now)) []
  | claimed (row : MailRow) (now lease : Int)
      (hpending : row.state = .pending) :
      Fate d id (some row) (some (row.claimed now lease)) [.claimed (row.generation + 1)]
  | finished (row : MailRow) (disposition : Disposition) (provider : String) (now : Int)
      (hpending : row.state = .pending)
      (hclaim : .claimed row.generation ∈ d.story id)
      (hsent : disposition = .sent → id ∈ d.delivered) :
      Fate d id (some row) (some (row.finished disposition provider now))
        [.finished row.generation disposition]
  | requeued (row : MailRow) (now : Int)
      (hparked : row.state = .parked) :
      Fate d id (some row) (some (row.requeued now)) [.requeued]
  | cancelled (row : MailRow)
      (hpending : row.state = .pending) :
      Fate d id (some row) (some row.cancelled) [.cancelled]
  | pruned (row : MailRow)
      (hprunable : row.prunable = true) :
      Fate d id (some row) none []

variable {d d' : Data} {id : MailId} {es : List Event}

/-- What the story says about a row. -/
structure Recorded (d : Data) (id : MailId) (row : MailRow) : Prop where
  generation : row.generation = bumps (d.story id)
  carries : ∃ m, d.origin.get id = some m ∧ row.Carries m
  delivered : row.state = .sent → id ∈ d.delivered
  cancelled : .cancelled ∈ d.story id → row.state = .cancelled

/-- What holds of every id. -/
structure Sound (d : Data) (id : MailId) : Prop where
  row : ∀ r, d.outbox.get id = some r → Recorded d id r
  unborn : d.origin.get id = none → d.outbox.get id = none ∧ d.opened.get id = none ∧
    d.story id = []
  opened : ∀ t r, d.opened.get id = some (t, r) → d.outbox.get id = none ∧ d.story id = [] ∧
    ∃ m now, d.origin.get id = some m ∧ r = MailRow.inserted m now
  numbered : Numbered (d.story id)

/-- What a step leaves of the data around a row. -/
structure Around (d d' : Data) (id : MailId) : Prop where
  origin : ∀ m, d.origin.get id = some m → d'.origin.get id = some m
  delivered : ∀ id, id ∈ d.delivered → id ∈ d'.delivered

/-- A change of a row that is not cancelled. -/
theorem Recorded.change {row row' : MailRow} (h : Recorded d id row)
    (hne : row.state ≠ .cancelled) (ha : Around d d' id) (hstory : d'.story id = d.story id ++ es)
    (hgeneration : row'.generation = row.generation + bumps es)
    (hcarries : ∀ m, row.Carries m → row'.Carries m)
    (hdelivered : row'.state = .sent → id ∈ d.delivered)
    (hcancelled : .cancelled ∈ es → row'.state = .cancelled) : Recorded d' id row' := by
  obtain ⟨m, hm, hcarry⟩ := h.carries
  refine ⟨?_, ⟨m, ha.origin m hm, hcarries m hcarry⟩, ?_, ?_⟩
  · rw [hstory, bumps_append, ← h.generation, hgeneration]
  · exact fun hsent => ha.delivered id (hdelivered hsent)
  · intro hmem
    rw [hstory, mem_append] at hmem
    rcases hmem with hmem | hmem
    · exact absurd (h.cancelled hmem) hne
    · exact hcancelled hmem

/-- The story of a row after a step. -/
theorem Recorded.of_fate {r : Option MailRow} {row' : MailRow} (hs : Sound d id)
    (hr : d.outbox.get id = r) (hf : Fate d id r (some row') es) (ha : Around d d' id)
    (hstory : d'.story id = d.story id ++ es) : Recorded d' id row' := by
  cases hf with
  | same =>
    obtain ⟨hgeneration, ⟨m, hm, hcarries⟩, hdelivered, hcancelled⟩ := hs.row row' hr
    rw [append_nil] at hstory
    refine ⟨?_, ⟨m, ha.origin m hm, hcarries⟩, ?_, ?_⟩
    · rw [hstory]
      exact hgeneration
    · exact fun hsent => ha.delivered id (hdelivered hsent)
    · rw [hstory]
      exact hcancelled
  | created m now horigin hopened =>
    obtain ⟨⟨t, r⟩, hr'⟩ := Option.ne_none_iff_exists'.1 hopened
    obtain ⟨-, hempty, -⟩ := hs.opened t r hr'
    rw [hempty] at hstory
    refine ⟨?_, ⟨m, ha.origin m horigin, carries_inserted m now⟩, ?_, ?_⟩
    · rw [hstory]
      rfl
    · exact fun hsent => nomatch hsent
    · rw [hstory]
      exact fun hmem => nomatch hmem
  | claimed row now lease hpending =>
    refine (hs.row row hr).change (by rw [hpending]; decide) ha hstory rfl ?_ ?_ ?_
    · exact fun m hc => ⟨hc.key, hc.recipient, hc.subject, hc.kind, hc.body⟩
    · exact fun hsent => (hs.row row hr).delivered hsent
    · exact fun hmem => nomatch mem_singleton.1 hmem
  | finished row disposition provider now hpending hclaim hsent =>
    refine (hs.row row hr).change (by rw [hpending]; decide) ha hstory ?_ ?_ ?_ ?_
    · cases disposition <;> exact (Int.add_zero _).symm
    · exact fun m hc => carries_finished disposition provider now hpending hc
    · intro hstate
      cases disposition with
      | sent => exact hsent rfl
      | parked => cases hstate
      | retry lastError backoff =>
        rw [show (row.finished (.retry lastError backoff) provider now).state = .pending from
          hpending] at hstate
        cases hstate
    · exact fun hmem => nomatch mem_singleton.1 hmem
  | requeued row now hparked =>
    refine (hs.row row hr).change (by rw [hparked]; decide) ha hstory rfl ?_ ?_ ?_
    · exact fun m hc => ⟨hc.key, hc.recipient, hc.subject, hc.kind,
        fun _ => hc.body (by rw [hparked]; decide)⟩
    · exact fun hsent => nomatch hsent
    · exact fun hmem => nomatch mem_singleton.1 hmem
  | cancelled row hpending =>
    refine (hs.row row hr).change (by rw [hpending]; decide) ha hstory ?_ ?_ ?_ (fun _ => rfl)
    · exact (Int.add_zero _).symm
    · exact fun m hc => ⟨hc.key, hc.recipient, hc.subject, hc.kind,
        fun _ => hc.body (by rw [hpending]; decide)⟩
    · exact fun hsent => nomatch hsent

theorem Fate.numbered {r r' : Option MailRow} (hs : Sound d id)
    (hr : d.outbox.get id = r) (hf : Fate d id r r' es) : Numbered (d.story id ++ es) := by
  cases hf with
  | same | created | pruned => exact (append_nil _).symm ▸ hs.numbered
  | claimed row =>
    refine hs.numbered.append ?_
    rintro _ ⟨⟩
    rw [(hs.row row hr).generation]
  | finished => exact hs.numbered.append (fun g heq => nomatch heq)
  | requeued | cancelled => exact hs.numbered.append (fun g heq => nomatch heq)

end Fates

section Steps

variable {d d' : Data} {t : Sess} {a : Act} {id : MailId} {row : MailRow}

/-- What a session knows at its program point. -/
def Pc.Knows (d : Data) : Pc → Prop
  | .sending _ c => .claimed c.generation ∈ d.story c.id
  | .answered _ c result => .claimed c.generation ∈ d.story c.id ∧
      (result = .ok → c.id ∈ d.delivered)
  | _ => True

/-- The fate of each row in a step from `d` to `d'`. -/
def Fated (d d' : Data) : Prop :=
  ∀ id, ∃ es, Fate d id (d.outbox.get id) (d'.outbox.get id) es ∧ d'.story id = d.story id ++ es

theorem fated_same (houtbox : d'.outbox = d.outbox) (hstory : d'.story = d.story) : Fated d d' := by
  intro _
  refine ⟨[], ?_, ?_⟩
  · rw [houtbox]
    exact .same _
  · rw [hstory, append_nil]

theorem fated_updateWhere
    {id : MailId} {f : MailRow → Bool} {change : MailRow → MailRow} {event : MailRow → Event}
    (h : ∀ row, f row = true → Fate d id (some row) (some (change row)) [event row]) :
    Fated d (d.updateWhere id f change event) := by
  unfold Data.updateWhere
  cases hget : d.outbox.get id with
  | none => exact fated_same rfl rfl
  | some row =>
    dsimp only
    split
    · rename_i hf
      intro id'
      by_cases hid : id' = id
      · subst hid
        refine ⟨[event row], ?_, update_self id' _ _⟩
        rw [hget, get_set_self]
        exact h row hf
      · refine ⟨[], ?_, ?_⟩
        · rw [get_set_of_ne _ hid]
          exact .same _
        · rw [append_nil]
          exact update_of_ne hid _ _
    · exact fated_same rfl rfl

/-- The statement leaves all but the outbox and the stories alone, and makes no rows. -/
structure Aside (d d' : Data) : Prop where
  opened : d'.opened = d.opened
  origin : d'.origin = d.origin
  delivered : d'.delivered = d.delivered
  answers : d'.answers = d.answers
  none : ∀ id, d.outbox.get id = none → d'.outbox.get id = none

theorem Aside.refl (d : Data) : Aside d d := ⟨rfl, rfl, rfl, rfl, fun _ h => h⟩

theorem Aside.trans {d₀ : Data} (h₁ : Aside d₀ d) (h₂ : Aside d d') : Aside d₀ d' :=
  ⟨h₂.opened.trans h₁.opened, h₂.origin.trans h₁.origin, h₂.delivered.trans h₁.delivered,
    h₂.answers.trans h₁.answers, fun id hnone => h₂.none id (h₁.none id hnone)⟩

theorem Aside.around (h : Aside d d') : Around d d' id :=
  ⟨fun _ hm => h.origin ▸ hm, fun _ hmem => h.delivered ▸ hmem⟩

theorem aside_updateWhere
    (id : MailId) (f : MailRow → Bool) (change : MailRow → MailRow) (event : MailRow → Event) :
    Aside d (d.updateWhere id f change event) := by
  unfold Data.updateWhere
  cases hget : d.outbox.get id with
  | none => exact .refl d
  | some =>
    dsimp only
    split
    · refine ⟨rfl, rfl, rfl, rfl, fun id' hnone => ?_⟩
      have hid : id' ≠ id := by
        rintro rfl
        rw [hget] at hnone
        cases hnone
      rw [get_set_of_ne _ hid]
      exact hnone
    · exact .refl d

theorem aside_requeueAll (ids : List MailId) (now : Int) :
    Aside d (d.requeueAllParked ids now) := by
  induction ids generalizing d with
  | nil => exact .refl d
  | cons id' _ ih => exact (aside_updateWhere id' _ _ _).trans ih

theorem aside_prune (ids : List MailId) : Aside d (d.prune ids) := by
  refine ⟨rfl, rfl, rfl, rfl, fun id hnone => ?_⟩
  unfold Data.prune
  rw [get_retain, hnone]
  rfl

/-- A requeue leaves a row alone that it does not name or that is not parked. -/
theorem requeueParked_same (id' : MailId) (now : Int)
    (h : ∀ row, d.outbox.get id = some row → id = id' → row.state ≠ .parked) :
    (d.requeueParked id' now).outbox.get id = d.outbox.get id ∧
      (d.requeueParked id' now).story id = d.story id := by
  unfold Data.requeueParked Data.updateWhere
  cases hget : d.outbox.get id' with
  | none => exact ⟨rfl, rfl⟩
  | some row =>
    dsimp only
    split
    · rename_i hparked
      have hid : id ≠ id' := by
        rintro rfl
        exact h row hget rfl (of_decide_eq_true hparked)
      exact ⟨get_set_of_ne _ hid, update_of_ne hid _ _⟩
    · exact ⟨rfl, rfl⟩

theorem requeueParked_self (now : Int) (hget : d.outbox.get id = some row)
    (hparked : row.state = .parked) :
    (d.requeueParked id now).outbox.get id = some (row.requeued now) ∧
      (d.requeueParked id now).story id = d.story id ++ [.requeued] := by
  unfold Data.requeueParked Data.updateWhere
  rw [hget]
  simp only [hparked, decide_true, if_true]
  exact ⟨get_set_self _ _ _, update_self _ _ _⟩

theorem requeueAll_same (ids : List MailId) (now : Int)
    (h : ∀ row, d.outbox.get id = some row → row.state ≠ .parked) :
    (d.requeueAllParked ids now).outbox.get id = d.outbox.get id ∧
      (d.requeueAllParked ids now).story id = d.story id := by
  induction ids generalizing d with
  | nil => exact ⟨rfl, rfl⟩
  | cons id' _ ih =>
    have hfirst := requeueParked_same id' now (fun row hget _ => h row hget)
    obtain ⟨hout, hstory⟩ := ih (d := d.requeueParked id' now) (by rw [hfirst.1]; exact h)
    exact ⟨hout.trans hfirst.1, hstory.trans hfirst.2⟩

/-- A batch requeues a parked row once at most. -/
theorem requeueAll_once (ids : List MailId) (now : Int)
    (hget : d.outbox.get id = some row) (hparked : row.state = .parked) :
    ((d.requeueAllParked ids now).outbox.get id = some row ∧
        (d.requeueAllParked ids now).story id = d.story id) ∨
      ((d.requeueAllParked ids now).outbox.get id = some (row.requeued now) ∧
        (d.requeueAllParked ids now).story id = d.story id ++ [.requeued]) := by
  induction ids generalizing d with
  | nil => exact .inl ⟨hget, rfl⟩
  | cons id' rest ih =>
    by_cases hid : id = id'
    · -- The first requeue reaches the row, and the others leave it alone.
      subst hid
      have hfirst := requeueParked_self now hget hparked
      have hquiet : ∀ row', (d.requeueParked id now).outbox.get id = some row' →
          row'.state ≠ .parked := by
        rw [hfirst.1]
        rintro _ ⟨⟩ heq
        cases heq
      obtain ⟨hout, hstory⟩ := requeueAll_same rest now hquiet
      exact .inr ⟨hout.trans hfirst.1, hstory.trans hfirst.2⟩
    · have hfirst := requeueParked_same (d := d) id' now (fun _ _ heq => absurd heq hid)
      have hrest := ih (d := d.requeueParked id' now) (hfirst.1.trans hget)
      rw [hfirst.2] at hrest
      exact hrest

theorem fated_requeueAll (ids : List MailId) (now : Int) :
    Fated d (d.requeueAllParked ids now) := by
  intro id
  by_cases hparked : ∃ row, d.outbox.get id = some row ∧ row.state = .parked
  · obtain ⟨row, hget, hstate⟩ := hparked
    rcases requeueAll_once ids now hget hstate with ⟨hout, hstory⟩ | ⟨hout, hstory⟩
    · refine ⟨[], ?_, by rw [hstory, append_nil]⟩
      rw [hout, hget]
      exact .same _
    · refine ⟨[.requeued], ?_, hstory⟩
      rw [hout, hget]
      exact .requeued row now hstate
  · obtain ⟨hout, hstory⟩ := requeueAll_same ids now
      (fun row hget hstate => hparked ⟨row, hget, hstate⟩)
    refine ⟨[], ?_, by rw [hstory, append_nil]⟩
    rw [hout]
    exact .same _

theorem fated_prune (ids : List MailId) : Fated d (d.prune ids) := by
  intro id
  refine ⟨[], ?_, (append_nil _).symm⟩
  unfold Data.prune
  rw [get_retain]
  cases hget : d.outbox.get id with
  | none => exact .same _
  | some row =>
    cases hpruned : decide (id ∈ ids) && row.prunable with
    | false =>
      rw [Option.filter_some_pos (by simp [hpruned])]
      exact .same _
    | true =>
      rw [Option.filter_some_neg (by simp [hpruned])]
      exact .pruned row (Bool.and_eq_true_iff.1 hpruned).2

variable {l : List (MailId × Sess × MailRow)}

theorem committed_other {o : FinMap MailId MailRow} (h : ∀ row, (id, t, row) ∉ l) :
    (l.foldl (fun o e => if e.2.1 = t then o.set e.1 e.2.2 else o) o).get id = o.get id := by
  induction l generalizing o with
  | nil => rfl
  | cons e _ ih =>
    obtain ⟨id', _, row'⟩ := e
    rw [foldl_cons, ih (fun row hmem => h row (mem_cons_of_mem _ hmem))]
    split
    · rename_i ht
      have hid : id ≠ id' := by
        rintro rfl
        exact h row' (mem_cons.2 (.inl (by rw [← ht])))
      exact get_set_of_ne _ hid
    · rfl

theorem committed_own {o : FinMap MailId MailRow}
    (hnodup : (l.map Prod.fst).Nodup) (h : (id, t, row) ∈ l) :
    (l.foldl (fun o e => if e.2.1 = t then o.set e.1 e.2.2 else o) o).get id = some row := by
  induction l generalizing o with
  | nil => cases h
  | cons _ rest ih =>
    rw [map_cons, nodup_cons] at hnodup
    rw [foldl_cons]
    rcases mem_cons.1 h with rfl | hmem
    · have hother : ∀ row, (id, t, row) ∉ rest := by
        intro _ hmem
        exact hnodup.1 (mem_map.2 ⟨_, hmem, rfl⟩)
      rw [committed_other hother, if_pos rfl]
      exact get_set_self _ _ _
    · exact ih hnodup.2 hmem

/-- The rows after a commit. -/
theorem commit_get (t : Sess) (d : Data) (id : MailId) :
    (∃ row, d.opened.get id = some (t, row) ∧ (d.commit t).outbox.get id = some row) ∨
      ((∀ row, d.opened.get id ≠ some (t, row)) ∧
        (d.commit t).outbox.get id = d.outbox.get id) := by
  by_cases h : ∃ row, d.opened.get id = some (t, row)
  · obtain ⟨row, hrow⟩ := h
    exact .inl ⟨row, hrow, committed_own d.opened.nodup (get_eq_some.1 hrow)⟩
  · refine .inr ⟨fun row hrow => h ⟨row, hrow⟩, committed_other (fun row hmem => ?_)⟩
    exact h ⟨row, get_eq_some.2 hmem⟩

theorem fated_commit (hs : ∀ id, Sound d id) : Fated d (d.commit t) := by
  intro id
  refine ⟨[], ?_, (append_nil _).symm⟩
  rcases commit_get t d id with ⟨row, hrow, hout⟩ | ⟨-, hout⟩
  · obtain ⟨hnone, -, m, now, horigin, rfl⟩ := (hs id).opened t row hrow
    rw [hnone, hout]
    exact .created m now horigin (by rw [hrow]; exact Option.some_ne_none _)
  · rw [hout]
    exact .same _

theorem fated_finish {c : Claimed} {result : SendResult} {drain : Drain} {now : Int}
    (hk : (Pc.answered drain c result).Knows d) :
    Fated d (d.finish c (disposition result c.attempts drain.maxAttempts) drain.provider now) := by
  refine fated_updateWhere (fun row hrow => ?_)
  obtain ⟨hpending, hgeneration⟩ := Bool.and_eq_true_iff.1 hrow
  refine .finished row _ _ now (of_decide_eq_true hpending) ?_ ?_
  · rw [of_decide_eq_true hgeneration]
    exact hk.1
  · intro hsent
    refine hk.2 ?_
    cases result with
    | ok => rfl
    | rejected => cases hsent
    | infra =>
      unfold disposition at hsent
      dsimp only at hsent
      split at hsent <;> cases hsent

/-- Each step decides the fate of each row. -/
theorem fated_step (hs : ∀ id, Sound d id) (hk : (stmt t a).before.Knows d) :
    Fated d ((stmt t a).change d) := by
  cases a with
  | claim _ _ now row =>
    exact fated_updateWhere (fun row hdue =>
      .claimed row now _ (of_decide_eq_true (Bool.and_eq_true_iff.1 hdue).1))
  | send =>
    simp only [stmt]
    split <;> exact fated_same rfl rfl
  | finish => exact fated_finish hk
  | requeue _ now =>
    exact fated_updateWhere (fun row hparked => .requeued row now (of_decide_eq_true hparked))
  | requeueAll ids now => exact fated_requeueAll ids now
  | cancel =>
    exact fated_updateWhere (fun row hpending => .cancelled row (of_decide_eq_true hpending))
  | prune ids => exact fated_prune ids
  | reread =>
    simp only [stmt, Data.reread]
    split <;> exact fated_same rfl rfl
  | commit => exact fated_commit hs
  | _ => exact fated_same rfl rfl

end Steps

section Transactions

variable {d : Data} {t : Sess} {a : Act} {id : MailId}

/-- The steps on committed rows only. -/
def Act.aside : Act → Bool
  | .send _ _ _ => false
  | .die _ => false
  | .insert _ _ _ => false
  | .reread _ => false
  | .commit => false
  | _ => true

theorem aside_step (ha : a.aside = true) : Aside d ((stmt t a).change d) := by
  cases a with
  | claim drain id | requeue id | cancel id => exact aside_updateWhere id _ _ _
  | finish _ c => exact aside_updateWhere c.id _ _ _
  | requeueAll ids now => exact aside_requeueAll ids now
  | prune ids => exact aside_prune ids
  | begin | conflict => exact .refl d
  | _ => cases ha

theorem around_step (id : MailId) (hg : (stmt t a).guard d) :
    Around d ((stmt t a).change d) id := by
  cases a with
  | insert id' =>
    refine ⟨fun m hm => ?_, fun _ h => h⟩
    have hid : id ≠ id' := by
      rintro rfl
      rw [hg.2] at hm
      cases hm
    exact (get_set_of_ne _ hid).trans hm
  | send =>
    simp only [stmt]
    split
    · exact ⟨fun _ h => h, fun _ h => mem_cons_of_mem _ h⟩
    · exact ⟨fun _ h => h, fun _ h => h⟩
  | die | commit => exact ⟨fun _ h => h, fun _ h => h⟩
  | reread =>
    simp only [stmt, Data.reread]
    split <;> exact ⟨fun _ h => h, fun _ h => h⟩
  | _ => exact (aside_step rfl).around

/-- A row that is not committed was there before the step, or the step has inserted it. -/
theorem opened_step {v : Sess × MailRow} (hv : ((stmt t a).change d).opened.get id = some v) :
    (d.opened.get id = some v ∧ (a = .commit → v.1 ≠ t)) ∨
      ∃ m now, a = .insert id m now ∧ v = (t, MailRow.inserted m now) := by
  have hretain : (d.opened.retain (fun _ v => decide (v.1 ≠ t))).get id = some v →
      d.opened.get id = some v ∧ v.1 ≠ t := by
    intro hget
    rw [get_retain] at hget
    obtain ⟨hold, hne⟩ := Option.filter_eq_some_iff.1 hget
    exact ⟨hold, of_decide_eq_true hne⟩
  cases a with
  | insert id' m now =>
    by_cases hid : id = id'
    · subst hid
      replace hv : (d.opened.set id (t, MailRow.inserted m now)).get id = some v := hv
      rw [get_set_self] at hv
      exact .inr ⟨m, now, rfl, (Option.some.inj hv).symm⟩
    · refine .inl ⟨?_, fun heq => by cases heq⟩
      exact (get_set_of_ne _ hid).symm.trans hv
  | die => exact .inl ⟨(hretain hv).1, fun heq => by cases heq⟩
  | commit => exact .inl ⟨(hretain hv).1, fun _ => (hretain hv).2⟩
  | send =>
    simp only [stmt] at hv
    refine .inl ⟨?_, fun heq => by cases heq⟩
    split at hv <;> exact hv
  | reread =>
    simp only [stmt, Data.reread] at hv
    refine .inl ⟨?_, fun heq => by cases heq⟩
    split at hv <;> exact hv
  | _ =>
    rw [(aside_step rfl).opened] at hv
    exact .inl ⟨hv, fun heq => by cases heq⟩

/-- Rows come into being with a commit. -/
theorem outbox_none (hnone : d.outbox.get id = none)
    (hcommit : a = .commit → ∀ row, d.opened.get id ≠ some (t, row)) :
    ((stmt t a).change d).outbox.get id = none := by
  cases a with
  | send =>
    simp only [stmt]
    split <;> exact hnone
  | die | insert => exact hnone
  | reread =>
    simp only [stmt, Data.reread]
    split <;> exact hnone
  | commit =>
    rcases commit_get t d id with ⟨row, hrow, -⟩ | ⟨-, hout⟩
    · exact absurd hrow (hcommit rfl row)
    · exact hout.trans hnone
  | _ => exact (aside_step rfl).none id hnone

theorem story_of_none (hs : ∀ id, Sound d id) (hk : (stmt t a).before.Knows d)
    (hnone : d.outbox.get id = none) : ((stmt t a).change d).story id = d.story id := by
  obtain ⟨_, hf, hstory⟩ := fated_step (t := t) (a := a) hs hk id
  rw [hnone] at hf
  generalize ((stmt t a).change d).outbox.get id = r' at hf
  cases hf <;> exact hstory.trans (append_nil _)

theorem sound_step (hs : ∀ id, Sound d id) (hg : (stmt t a).guard d)
    (hk : (stmt t a).before.Knows d) : ∀ id, Sound ((stmt t a).change d) id := by
  intro id
  obtain ⟨_, hf, hstory⟩ := fated_step (t := t) (a := a) hs hk id
  refine ⟨?_, ?_, ?_, ?_⟩
  · intro _ hr
    exact Recorded.of_fate (hs id) rfl (hr ▸ hf) (around_step id hg) hstory
  · intro hunborn
    have hborn : d.origin.get id = none := by
      by_contra hne
      obtain ⟨m, hm⟩ := Option.ne_none_iff_exists'.1 hne
      rw [(around_step id hg).origin m hm] at hunborn
      cases hunborn
    obtain ⟨hnone, hclosed, hempty⟩ := (hs id).unborn hborn
    refine ⟨outbox_none hnone (fun _ row hrow => ?_), ?_, ?_⟩
    · rw [hclosed] at hrow
      cases hrow
    · by_contra hne
      obtain ⟨_, hv⟩ := Option.ne_none_iff_exists'.1 hne
      rcases opened_step hv with ⟨hold, -⟩ | ⟨m, now, rfl, -⟩
      · rw [hclosed] at hold
        cases hold
      · rw [show ((stmt t (.insert id m now)).change d).origin.get id = some m from
          get_set_self _ _ _] at hunborn
        cases hunborn
    · rw [story_of_none hs hk hnone]
      exact hempty
  · intro t' r hr
    rcases opened_step hr with ⟨hold, hother⟩ | ⟨m, now, rfl, heq⟩
    · obtain ⟨hnone, hempty, m, now, horigin, hrow⟩ := (hs id).opened t' r hold
      refine ⟨outbox_none hnone (fun hc row hrow => ?_), ?_, m, now, ?_, hrow⟩
      · rw [hold] at hrow
        cases hrow
        exact hother hc rfl
      · rw [story_of_none hs hk hnone]
        exact hempty
      · exact (around_step id hg).origin m horigin
    · cases heq
      obtain ⟨hnone, -, hempty⟩ := (hs id).unborn hg.2
      exact ⟨hnone, hempty, m, now, get_set_self _ _ _, rfl⟩
  · rw [hstory]
    exact hf.numbered (hs id) rfl

/-- What is known stays known. -/
theorem Pc.Knows.step {pc : Pc} (h : pc.Knows d) (hs : ∀ id, Sound d id) (hg : (stmt t a).guard d)
    (hk : (stmt t a).before.Knows d) : pc.Knows ((stmt t a).change d) := by
  have hstory : ∀ id e, e ∈ d.story id → e ∈ ((stmt t a).change d).story id := by
    intro id _ he
    obtain ⟨_, -, heq⟩ := fated_step (t := t) (a := a) hs hk id
    rw [heq]
    exact mem_append_left _ he
  cases pc with
  | sending => exact hstory _ _ h
  | answered _ c =>
    exact ⟨hstory _ _ h.1, fun hok => (around_step c.id hg).delivered _ (h.2 hok)⟩
  | _ => trivial

theorem knows_own (hs : ∀ id, Sound d id) (hg : (stmt t a).guard d)
    (hk : (stmt t a).before.Knows d) : ((stmt t a).after d).Knows ((stmt t a).change d) := by
  cases a with
  | claim drain id now row =>
    have hstory : (d.claimDue id now drain.claimLease).story id =
        d.story id ++ [.claimed (row.generation + 1)] := by
      unfold Data.claimDue Data.updateWhere
      rw [hg.1]
      simp only [hg.2, if_true]
      exact update_self _ _ _
    show _ ∈ (d.claimDue id now drain.claimLease).story id
    rw [hstory]
    exact mem_append_right _ (mem_singleton_self _)
  | send drain c result =>
    constructor
    · exact (hk.step (t := t) (a := .send drain c result) hs hg hk : (Pc.sending drain c).Knows _)
    · rintro rfl
      exact mem_cons_self
  | _ => trivial

end Transactions

section Runs

variable {G : World Data Pc → Sess × Act → Prop} {w : World Data Pc}

theorem sound_start (id : MailId) : Sound Data.new id where
  row r hr := nomatch hr
  unborn _ := ⟨rfl, rfl, rfl⟩
  opened t r hr := nomatch hr
  numbered a g b heq := by cases a <;> cases heq

theorem sound_reachable (h : system.Reachable G w) :
    (∀ id, Sound w.data id) ∧ ∀ t, (w.pc t).Knows w.data := by
  refine Programs.joint_invariant (X := programs) (I := fun d => ∀ id, Sound d id)
    (L := fun d _ pc => pc.Knows d) sound_start (fun _ => trivial) ?_ h
  intro _ _ _ _ _ en hs hk hbefore
  exact ⟨sound_step hs en.2 hbefore, knows_own hs en.2 hbefore,
    fun u _ => (hk u).step hs en.2 hbefore⟩

theorem knows_before {t : Sess} {a : Act} (h : system.Reachable G w)
    (en : system.enabled w (t, a)) : (stmt t a).before.Knows w.data := by
  have hkt := (sound_reachable h).2 t
  rw [show w.pc t = (stmt t a).before from en.1] at hkt
  exact hkt

/-- What a step from a reachable state does to each row. -/
theorem fated_reachable {t : Sess} {a : Act} (h : system.Reachable G w)
    (en : system.enabled w (t, a)) : Fated w.data ((stmt t a).change w.data) :=
  fated_step (sound_reachable h).1 (knows_before h en)

end Runs

section Keys

variable {d : Data} {t : Sess} {a : Act} {id : MailId} {key : String}
variable {G : World Data Pc → Sess × Act → Prop} {w : World Data Pc}

/-- The row holds the key, committed or not. -/
def Holds (d : Data) (id : MailId) (key : String) : Prop :=
  ∃ row, (d.outbox.get id = some row ∨ ∃ t, d.opened.get id = some (t, row)) ∧
    row.idempotencyKey = key

def OnePerKey (d : Data) : Prop := ∀ id id' key, Holds d id key → Holds d id' key → id = id'

theorem Fate.holds {r : Option MailRow} {row' : MailRow} {es : List Event} (hs : Sound d id)
    (hr : d.outbox.get id = r) (hf : Fate d id r (some row') es) :
    Holds d id row'.idempotencyKey := by
  cases hf with
  | same => exact ⟨row', .inl hr, rfl⟩
  | created _ _ horigin hopened =>
    obtain ⟨⟨t, r⟩, hr'⟩ := Option.ne_none_iff_exists'.1 hopened
    obtain ⟨-, -, _, _, horigin', rfl⟩ := hs.opened t r hr'
    rw [horigin] at horigin'
    cases horigin'
    exact ⟨_, .inr ⟨t, hr'⟩, rfl⟩
  | claimed row | requeued row | cancelled row => exact ⟨row, .inl hr, rfl⟩
  | finished row disposition => exact ⟨row, .inl hr, by cases disposition <;> rfl⟩

theorem not_holds_of_keyFree (h : d.keyFree key = true) : ¬ Holds d id key := by
  obtain ⟨hcommitted, hopened⟩ := Bool.and_eq_true_iff.1 h
  rintro ⟨_, hrow | ⟨_, hrow⟩, hkey⟩
  · exact of_decide_eq_true (all_eq_true.1 hcommitted _ (get_eq_some.1 hrow)) hkey
  · exact of_decide_eq_true (all_eq_true.1 hopened _ (get_eq_some.1 hrow)) hkey

/-- A row holds the key that it held before the step, or was inserted under a free one. -/
theorem holds_step (hs : ∀ id, Sound d id) (hg : (stmt t a).guard d)
    (hk : (stmt t a).before.Knows d) (h : Holds ((stmt t a).change d) id key) :
    Holds d id key ∨ (∃ m now, a = .insert id m now) ∧ ∀ id', ¬ Holds d id' key := by
  obtain ⟨row, hrow | ⟨t', hrow⟩, rfl⟩ := h
  · obtain ⟨_, hf, -⟩ := fated_step (t := t) (a := a) hs hk id
    rw [hrow] at hf
    exact .inl (hf.holds (hs id) rfl)
  · rcases opened_step hrow with ⟨hold, -⟩ | ⟨m, now, rfl, heq⟩
    · exact .inl ⟨row, .inr ⟨t', hold⟩, rfl⟩
    · cases heq
      exact .inr ⟨⟨m, now, rfl⟩, fun id' => not_holds_of_keyFree hg.1⟩

theorem onePerKey_reachable (h : system.Reachable G w) : OnePerKey w.data := by
  refine Programs.data_invariant (X := programs) (I := OnePerKey) ?_ ?_ h
  · rintro id id' key ⟨row, hrow | ⟨t, hrow⟩, -⟩ <;> cases hrow
  · intro w t a hr _ en hone id id' key hid hid'
    have hs := (sound_reachable hr).1
    have hk := knows_before hr en
    rcases holds_step hs en.2 hk hid with hold | ⟨⟨m, now, ha⟩, hfree⟩ <;>
      rcases holds_step hs en.2 hk hid' with hold' | ⟨⟨m', now', ha'⟩, hfree'⟩
    · exact hone id id' key hold hold'
    · exact absurd hold (hfree' id)
    · exact absurd hold' (hfree id')
    · rw [ha] at ha'
      cases ha'
      rfl

/-- A row that a transaction finds under a key holds the message it was enqueued with. -/
theorem carries_of_holders {row : MailRow} (hs : Sound d id) (h : (id, row) ∈ d.holders t key) :
    ∃ m, d.origin.get id = some m ∧ row.Carries m := by
  rcases mem_append.1 (mem_filter.1 h).1 with hmem | hmem
  · exact (hs.row row (get_eq_some.2 hmem)).carries
  · obtain ⟨⟨_, t', row'⟩, hopen, heq⟩ := mem_map.1 hmem
    cases heq
    obtain ⟨-, -, m, now, horigin, rfl⟩ := hs.opened t' row' (get_eq_some.2 (mem_filter.1 hopen).1)
    exact ⟨m, horigin, carries_inserted m now⟩

/-- The same message is not answered with a conflict. -/
def Answer.Honest (x : Answer) : Prop := x.original = some x.message → x.verdict ≠ .conflict

theorem answers_step (hs : ∀ id, Sound d id) {x : Answer} (hx : x ∈ ((stmt t a).change d).answers) :
    x ∈ d.answers ∨ x.Honest := by
  have hlast : ∀ y : Answer, y.Honest → x ∈ d.answers ++ [y] → x ∈ d.answers ∨ x.Honest := by
    intro y hy hmem
    rcases mem_append.1 hmem with hold | hnew
    · exact .inl hold
    · exact .inr (mem_singleton.1 hnew ▸ hy)
  cases a with
  | insert id m => exact hlast ⟨m, .inserted id, none⟩ (fun _ heq => by cases heq) hx
  | reread m =>
    simp only [stmt, Data.reread] at hx
    split at hx
    · exact hlast ⟨m, .duplicate, none⟩ (fun _ heq => by cases heq) hx
    · rename_i id row hhead
      obtain ⟨m', horigin, hcarries⟩ := carries_of_holders (hs id) (mem_of_mem_head? hhead)
      refine hlast _ (fun heq => ?_) hx
      dsimp only at heq ⊢
      rw [horigin] at heq
      cases heq
      rw [classifyExisting_of_carries hcarries]
      exact fun heq => by cases heq
  | send =>
    simp only [stmt] at hx
    split at hx <;> exact .inl hx
  | die | commit => exact .inl hx
  | _ =>
    rw [(aside_step rfl).answers] at hx
    exact .inl hx

theorem honest_reachable (h : system.Reachable G w) : ∀ x ∈ w.data.answers, x.Honest := by
  refine Programs.data_invariant (X := programs) (I := fun d => ∀ x ∈ d.answers, x.Honest) ?_ ?_ h
  · exact fun x hx => nomatch hx
  · intro _ _ _ hr _ _ hold x hx
    rcases answers_step (sound_reachable hr).1 hx with hmem | hhonest
    · exact hold x hmem
    · exact hhonest

end Keys

section Truth

variable {d : Data} {t : Sess} {a : Act} {id : MailId}
variable {w w' : World Data Pc} {es : List Event}

theorem Fate.body {row row' : MailRow} (hf : Fate d id (some row) (some row') es)
    (hbody : row'.body ≠ row.body) : row.state = .pending ∧ row'.state = .sent := by
  cases hf with
  | finished _ disposition _ _ hpending =>
    cases disposition with
    | sent => exact ⟨hpending, rfl⟩
    | parked | retry => exact absurd rfl hbody
  | _ => exact absurd rfl hbody

/-- A row that is sent or cancelled is changed by nobody. -/
theorem Fate.settled {row : MailRow} {r' : Option MailRow}
    (hf : Fate d id (some row) r' es) (hstate : row.state = .sent ∨ row.state = .cancelled) :
    (r' = some row ∨ r' = none) ∧ es = [] := by
  have hopen : ∀ state, row.state = state → state ≠ .sent → state ≠ .cancelled → False := by
    rintro _ rfl hsent hcancelled
    exact hstate.elim hsent hcancelled
  cases hf with
  | same => exact ⟨.inl rfl, rfl⟩
  | pruned => exact ⟨.inr rfl, rfl⟩
  | claimed _ now lease hpending | cancelled _ hpending =>
    exact (hopen _ hpending (by decide) (by decide)).elim
  | finished _ _ _ _ hpending =>
    exact (hopen _ hpending (by decide) (by decide)).elim
  | requeued _ _ hparked => exact (hopen _ hparked (by decide) (by decide)).elim

theorem Fate.gone {r' : Option MailRow} (hf : Fate d id none r' es)
    (hclosed : d.opened.get id = none) : r' = none ∧ es = [] := by
  cases hf with
  | same => exact ⟨rfl, rfl⟩
  | created _ _ _ hopened => exact absurd hclosed hopened

theorem updateWhere_some {f : MailRow → Bool} {change : MailRow → MailRow} {event : MailRow → Event}
    (id' : MailId) (h : d.outbox.get id ≠ none) :
    (d.updateWhere id' f change event).outbox.get id ≠ none := by
  unfold Data.updateWhere
  cases d.outbox.get id' with
  | none => exact h
  | some =>
    dsimp only
    split
    · by_cases hid : id = id'
      · rw [hid, get_set_self]
        exact Option.some_ne_none _
      · rw [get_set_of_ne _ hid]
        exact h
    · exact h

/-- Only the prune deletes rows. -/
theorem outbox_some (h : d.outbox.get id ≠ none) (ha : ∀ ids, a ≠ .prune ids) :
    ((stmt t a).change d).outbox.get id ≠ none := by
  cases a with
  | claim drain id' | requeue id' | cancel id' => exact updateWhere_some id' h
  | send =>
    simp only [stmt]
    split <;> exact h
  | finish _ c => exact updateWhere_some c.id h
  | requeueAll ids now =>
    clear ha
    induction ids generalizing d with
    | nil => exact h
    | cons id' _ ih => exact ih (d := d.requeueParked id' now) (updateWhere_some id' h)
  | prune ids => exact absurd rfl (ha ids)
  | reread =>
    simp only [stmt, Data.reread]
    split <;> exact h
  | commit =>
    rcases commit_get t d id with ⟨row, -, hout⟩ | ⟨-, hout⟩
    · rw [show ((stmt t .commit).change d).outbox.get id = some row from hout]
      exact Option.some_ne_none _
    · rw [show ((stmt t .commit).change d).outbox.get id = d.outbox.get id from hout]
      exact h
  | _ => exact h

theorem reachable_step {G : World Data Pc → Sess × Act → Prop} {l : Sess × Act}
    (h : system.Reachable G w) (hG : G w l) (en : system.enabled w l) :
    system.Reachable G (system.effect w l) :=
  .tail l h hG en

/-- Stories only grow. -/
theorem story_run (h : system.Reachable anyStep w)
    (hrun : system.Reaches anyStep w w') (id : MailId) :
    system.Reachable anyStep w' ∧ ∃ es, w'.data.story id = w.data.story id ++ es := by
  refine hrun.preserves ?_ ⟨h, [], (append_nil _).symm⟩
  rintro _ ⟨_, _⟩ ⟨hr, es, hes⟩ hG en
  obtain ⟨es', -, hstory⟩ := fated_reachable hr en id
  refine ⟨reachable_step hr hG en, es ++ es', ?_⟩
  rw [← append_assoc, ← hes]
  exact hstory

/-- A row that is sent or cancelled, or was and is pruned. -/
structure Settled (d₀ : Data) (id : MailId) (row : MailRow) (d : Data) : Prop where
  born : d.origin.get id ≠ none
  closed : d.opened.get id = none
  row : d.outbox.get id = some row ∨ d.outbox.get id = none
  story : d.story id = d₀.story id

theorem settled_run {row : MailRow} (h : system.Reachable anyStep w)
    (hrun : system.Reaches anyStep w w') (hrow : w.data.outbox.get id = some row)
    (hstate : row.state = .sent ∨ row.state = .cancelled) : Settled w.data id row w'.data := by
  have hs := (sound_reachable h).1 id
  have hstart : Settled w.data id row w.data := by
    refine ⟨?_, ?_, .inl hrow, rfl⟩
    · obtain ⟨_, hm, -⟩ := (hs.row row hrow).carries
      rw [hm]
      exact Option.some_ne_none _
    · by_contra hne
      obtain ⟨⟨t, r⟩, hr⟩ := Option.ne_none_iff_exists'.1 hne
      rw [(hs.opened t r hr).1] at hrow
      cases hrow
  refine (hrun.preserves (I := fun w' => system.Reachable anyStep w' ∧
    Settled w.data id row w'.data) ?_ ⟨h, hstart⟩).2
  rintro w₁ ⟨t, a⟩ ⟨hr, hsettled⟩ hG en
  refine ⟨reachable_step hr hG en, ?_⟩
  obtain ⟨es, hf, hstory⟩ := fated_reachable hr en id
  have hnext : (((stmt t a).change w₁.data).outbox.get id = some row ∨
      ((stmt t a).change w₁.data).outbox.get id = none) ∧ es = [] := by
    rcases hsettled.row with hkept | hgone
    · rw [hkept] at hf
      exact hf.settled hstate
    · rw [hgone] at hf
      exact ⟨.inr (hf.gone hsettled.closed).1, (hf.gone hsettled.closed).2⟩
  refine ⟨?_, ?_, hnext.1, ?_⟩
  · obtain ⟨m, hm⟩ := Option.ne_none_iff_exists'.1 hsettled.born
    show ((stmt t a).change w₁.data).origin.get id ≠ none
    rw [(around_step id en.2).origin m hm]
    exact Option.some_ne_none _
  · by_contra hne
    obtain ⟨_, hv⟩ := Option.ne_none_iff_exists'.1 hne
    rcases opened_step hv with ⟨hold, -⟩ | ⟨_, _, rfl, -⟩
    · rw [hsettled.closed] at hold
      cases hold
    · exact hsettled.born en.2.2
  · refine Eq.trans hstory ?_
    rw [hnext.2, append_nil]
    exact hsettled.story

/-- The write of a status finds the row as its own claim has left it. -/
theorem finish_newest {drain : Drain} {c : Claimed} {result : SendResult} {now : Int}
    (h : system.Reachable anyStep w) (en : system.enabled w (t, .finish drain c result now))
    (hchange : ((stmt t (.finish drain c result now)).change w.data).outbox.get id ≠
      w.data.outbox.get id) :
    id = c.id ∧ ∃ a₁ a₂, w.data.story id = a₁ ++ .claimed c.generation :: a₂ ∧
      ∀ e ∈ a₂, e.writesStatus = true := by
  have hs := (sound_reachable h).1
  have hk : (Pc.answered drain c result).Knows w.data := knows_before h en
  simp only [stmt, Data.finish, Data.updateWhere] at hchange
  cases hget : w.data.outbox.get c.id with
  | none =>
    rw [hget] at hchange
    exact absurd rfl hchange
  | some row =>
    rw [hget] at hchange
    dsimp only at hchange
    split at hchange
    · rename_i hrow
      obtain ⟨hpending, hgeneration⟩ := Bool.and_eq_true_iff.1 hrow
      have hid : id = c.id := by
        by_contra hne
        exact hchange (get_set_of_ne _ hne)
      subst hid
      have hrecord := (hs c.id).row row hget
      refine ⟨rfl, newest_claim (hs c.id).numbered hk.1 ?_ ?_⟩
      · rw [← hrecord.generation]
        exact (of_decide_eq_true hgeneration).symm
      · intro hcancel
        exact absurd (hrecord.cancelled hcancel) (by
          rw [of_decide_eq_true hpending]
          decide)
    · exact absurd rfl hchange

/-- The outbox tells the truth about its newest attempt.  Generations do not decrease, and the
claims of a row have different ones.  A status is written only if the row was not claimed,
requeued or cancelled since the claim.  What is sent was accepted by a provider; what is sent
or cancelled stays as it is until it is pruned.  The body changes only with the write of
`sent`, keys are unique, and the same message is not answered with a conflict. -/
theorem outbox_truthful (h : system.Reachable TransitionSystem.anyStep w)
    (hrun : system.Reaches TransitionSystem.anyStep w w') :
    (∀ id row row', w.data.outbox.get id = some row → w'.data.outbox.get id = some row' →
      row.generation ≤ row'.generation) ∧
    (∀ id a b l g g', w.data.story id = a ++ .claimed g :: (b ++ .claimed g' :: l) → g < g') ∧
    (∀ t drain c result now id, system.enabled w (t, .finish drain c result now) →
      (system.effect w (t, .finish drain c result now)).data.outbox.get id ≠
        w.data.outbox.get id →
      id = c.id ∧ ∃ a₁ a₂, w.data.story id = a₁ ++ .claimed c.generation :: a₂ ∧
        ∀ e ∈ a₂, e.writesStatus = true) ∧
    (∀ id row, w.data.outbox.get id = some row → row.state = .sent → id ∈ w.data.delivered) ∧
    (∀ id row, w.data.outbox.get id = some row → row.state = .sent ∨ row.state = .cancelled →
      (w'.data.outbox.get id = some row ∨ w'.data.outbox.get id = none) ∧
        w'.data.story id = w.data.story id) ∧
    (∀ t a id row, system.enabled w (t, a) → w.data.outbox.get id = some row →
      (system.effect w (t, a)).data.outbox.get id = none → ∃ ids, a = .prune ids) ∧
    (∀ t a id row row', system.enabled w (t, a) → w.data.outbox.get id = some row →
      (system.effect w (t, a)).data.outbox.get id = some row' → row'.body ≠ row.body →
        row.state = .pending ∧ row'.state = .sent) ∧
    (∀ id id' row row', w.data.outbox.get id = some row → w.data.outbox.get id' = some row' →
      row.idempotencyKey = row'.idempotencyKey → id = id') ∧
    (∀ x ∈ w.data.answers, x.original = some x.message → x.verdict ≠ .conflict) := by
  have hs := (sound_reachable h).1
  refine ⟨?_, ?_, ?_, ?_, ?_, ?_, ?_, ?_, honest_reachable h⟩
  · intro id row row' hrow hrow'
    obtain ⟨hr', _, hes⟩ := story_run h hrun id
    rw [((hs id).row row hrow).generation, (((sound_reachable hr').1 id).row row' hrow').generation,
      hes, bumps_append]
    exact Int.le_add_of_nonneg_right bumps_nonneg
  · intro id _ _ _ _ _ hstory
    exact Numbered.distinct (hstory ▸ (hs id).numbered)
  · exact fun t drain c result now id en => finish_newest h en
  · exact fun id row hrow => ((hs id).row row hrow).delivered
  · intro _ _ hrow hstate
    have hsettled := settled_run h hrun hrow hstate
    exact ⟨hsettled.row, hsettled.story⟩
  · intro _ _ id _ _ hrow hgone
    by_contra hnot
    have hsome : w.data.outbox.get id ≠ none := by
      rw [hrow]
      exact Option.some_ne_none _
    exact outbox_some hsome (fun ids ha => hnot ⟨ids, ha⟩) hgone
  · intro t a id _ row' en hrow hrow' hbody
    obtain ⟨_, hf, -⟩ := fated_reachable h en id
    rw [hrow, show ((stmt t a).change w.data).outbox.get id = some row' from hrow'] at hf
    exact hf.body hbody
  · intro id id' row row' hrow hrow' hkey
    exact onePerKey_reachable h id id' _ ⟨row, .inl hrow, hkey⟩ ⟨row', .inl hrow', rfl⟩

def welcome : NewMail where
  idempotencyKey := "welcome:7"
  recipient := "player7@mail"
  subject := "Welcome"
  body := "Hello"
  kind := "welcome"

def smtp : Drain where
  provider := "smtp"
  sendTimeoutMs := 10000
  maxAttempts := 8

/-- Two drain loops send the same mail, one of them after its lease, and it is enqueued
again. -/
def resent : List (Sess × Act) :=
  let row := MailRow.inserted welcome 0
  let row₁ := row.claimed 5 smtp.claimLease
  let c₁ := row₁.claim 1
  let c₂ := (row₁.claimed 40000 smtp.claimLease).claim 1
  [(0, .begin), (0, .insert 1 welcome 0), (0, .commit), (1, .claim smtp 1 5 row),
    (2, .claim smtp 1 40000 row₁), (2, .send smtp c₂ .ok), (1, .send smtp c₁ (.infra "timed out")),
    (1, .finish smtp c₁ (.infra "timed out") 40100), (2, .finish smtp c₂ .ok 40200),
    (0, .begin), (0, .conflict welcome), (0, .reread welcome), (0, .commit)]

theorem outbox_truthful_resent :
    ∃ w, system.Reachable TransitionSystem.anyStep w ∧
      (∃ row, w.data.outbox.get 1 = some row ∧ row.state = .sent ∧ 1 ∈ w.data.delivered) ∧
      (∃ g g', w.data.story 1 = [.claimed g, .claimed g', .finished g' .sent] ∧ g < g') ∧
      ∃ x ∈ w.data.answers, x.original = some x.message ∧ x.verdict ≠ .conflict := by
  obtain ⟨w, hr, hf⟩ := exec_exhibits (T := system) anyStep resent
    (f := fun w => (w.data.outbox.get 1).any (fun row : MailRow => decide (row.state = .sent)) &&
      decide (w.data.story 1 = [.claimed 1, .claimed 2, .finished 2 .sent]) &&
      w.data.answers.any (fun x => decide (x.original = some x.message))) (by decide +kernel)
  simp only [Bool.and_eq_true, Option.any_eq_true, any_eq_true, decide_eq_true_eq] at hf
  obtain ⟨⟨⟨row, hrow, hsent⟩, hstory⟩, x, hx, horiginal⟩ := hf
  obtain ⟨-, hclaims, -, hdelivered, -, -, -, -, hanswers⟩ := outbox_truthful hr (.refl w)
  exact ⟨w, hr, ⟨row, hrow, hsent, hdelivered 1 row hrow hsent⟩,
    ⟨1, 2, hstory, hclaims 1 [] [] _ 1 2 hstory⟩, x, hx, horiginal, hanswers x hx horiginal⟩

end Truth

end Swarog.Mail
