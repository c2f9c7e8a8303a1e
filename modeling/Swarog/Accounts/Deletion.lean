import Swarog.Accounts.Promotion

/-!
# Handles for ever, deletion once

A pair that a player was born with is in the registry for ever, so it is never held
by another player, also after the deletion.

A deletion writes the receipt of its player under the player's key; the key is never
free again, so a second deletion of the player cannot commit.  The receipt keeps the
ticket that did it.  A call that is opened after the deletion finds no ticket, since
tickets go with their player, and is answered from the receipt if its own ticket is
the one in it.
-/

namespace Swarog.Accounts

open Pg TransitionSystem List Option

/-- The call of a step of a deletion. -/
def Act.deletion : Act → Option Delete
  | .refuseTicket d | .deleteOpen _ d | .deleteLock _ d | .consume _ d _ | .consumeMiss _ d
  | .readReceipt _ d _ | .readHandle _ d _ | .reserveHandle _ d _ | .insertReceipt _ d _
  | .deletePlayer _ d _ | .emitDeleted _ d _ | .commitDelete _ d _ | .replayReceipt _ d _
  | .refuse _ (.delete d _) _ | .fail _ (.delete d _) _ => some d
  | _ => none

/-- The call of a session that deletes. -/
def Pc.deletes : Pc → Option (Delete × DeleteStage)
  | .delete d st => some (d, st)
  | _ => none

/-- The receipt that a deletion has read. -/
def Pc.replays : Pc → Option (Delete × ReceiptRow)
  | .delete d (.replaying row) => some (d, row)
  | _ => none

namespace State

variable {s : State} {a : Act} {t : Sess} {p : Uuid} {d : Delete}

/-- How often `p` was deleted. -/
def deletions (s : State) (p : Uuid) : Nat := s.events.countP (Event.deletes p)

/-- Nothing of `p` is left. -/
structure Erased (s : State) (p : Uuid) : Prop where
  player : s.players.committed p = none
  identities : ∀ k row, s.identities.committed k = some row → row.player ≠ p
  sessions : ∀ k row, s.sessions.committed k = some row → row.player ≠ p
  tokens : ∀ k row, s.refreshTokens.committed k = some row → row.player ≠ p
  ticket : s.tickets.committed p = none

/-- What the receipts, the calls and their answers say about deletions. -/
structure Receipts (s : State) : Prop where
  gone : ∀ p row, s.receipts.committed p = some row →
    s.WasBorn p ∧ ¬ s.Alive p ∧ deleteTicketWithinCap row.ticket
  counted : ∀ p, s.deletions p = if s.receipts.committed p = none then 0 else 1
  calls : ∀ t d st, (s.pc t).deletes = some (d, st) → deleteTicketWithinCap d.ticket ∧
    (d.late = true → s.receipts.committed d.player ≠ none ∧ st.ticket = false)
  replays : ∀ t d row, (s.pc t).replays = some (d, row) →
    s.receipts.committed d.player = some row ∧ row.ticket = d.ticket
  granted : ∀ d receipt, Answer.delete d (.ok receipt) ∈ s.answers →
    ∃ row, s.receipts.committed d.player = some row ∧ row.ticket = d.ticket ∧
      receipt = row.answer d.player
  late : ∀ d result, Answer.delete d result ∈ s.answers → d.late = true →
    ¬ deleteTicketWithinCap d.ticket ∨
      ∃ row, s.receipts.committed d.player = some row ∧
        (row.ticket = d.ticket →
          result = .ok (row.answer d.player) ∨ ∃ msg, result = .error (.internal msg))

section Steps

theorem receipt_kept {row : ReceiptRow} (hh : s.Holds) (en : s.enabled a)
    (h : s.receipts.committed p = some row) : (s.effect a).receipts.committed p = some row := by
  have hch := hh.receipt_change en p
  generalize (s.effect a).receipts.committed p = o at hch
  cases hch with
  | same => exact h
  | written _ _ _ _ hnone =>
    rw [h] at hnone
    cases hnone

/-- What must be committed for a deletion to commit. -/
theorem Holds.before_delete {row : PlayerRow} (hh : s.Holds)
    (en : s.enabled (.commitDelete t d row)) :
    s.Alive d.player ∧ s.receipts.committed d.player = none ∧
      ∃ ticket, s.tickets.committed d.player = some ticket ∧ ticket.ticket = d.ticket ∧
        d.now < ticket.expiresAt := by
  have hpc : s.pc t = .delete d (.emitted row) := en.1 t rfl
  have hplayers := hh.players t
  have hreceipts := hh.receipts t
  have htickets := hh.tickets t
  rw [hpc] at hplayers hreceipts htickets
  obtain ⟨prow, hprow, -⟩ := hplayers.based _ mem_cons_self
  obtain ⟨ticket, hticket, hlive⟩ := htickets.based _ mem_cons_self
  simp only [consumable, Bool.and_eq_true, beq_iff_eq, decide_eq_true_eq] at hlive
  have halive : s.players.committed d.player = some prow := hprow
  exact ⟨by rw [Alive, halive]; exact some_ne_none prow,
    hreceipts.based _ mem_cons_self, ticket, hticket, hlive⟩

theorem Holds.receipt_of_delete {row : PlayerRow} (hh : s.Holds)
    (en : s.enabled (.commitDelete t d row)) :
    (s.effect (.commitDelete t d row)).receipts.committed d.player = some (d.receipt row) := by
  have hown := hh.receipts t
  rw [en.1 t rfl] at hown
  exact hown.committed_write mem_cons_self

/-- What is gone with its player. -/
theorem References.erased (h : s.References) (hdead : ¬ s.Alive p) : s.Erased p where
  player := not_not.1 hdead
  identities := by
    rintro k row hrow rfl
    exact hdead (h.identities.committed k row hrow)
  sessions := by
    rintro k row hrow rfl
    exact hdead (h.sessions.committed k row hrow)
  tokens := by
    rintro k row hrow rfl
    exact hdead (h.tokens.committed k row hrow)
  ticket := by
    cases hk : s.tickets.committed p with
    | none => rfl
    | some row => exact absurd (h.tickets.committed p row hk) hdead

theorem deletions_step (s : State) (a : Act) (p : Uuid) :
    (s.effect a).deletions p = s.deletions p ∧
      (∀ t d row, a = .commitDelete t d row → d.player ≠ p) ∨
      (s.effect a).deletions p = s.deletions p + 1 ∧
        ∃ t d row, a = .commitDelete t d row ∧ d.player = p := by
  have hsum : (s.effect a).deletions p =
      s.deletions p + (appended a).countP (Event.deletes p) := by
    rw [deletions, events_eq, countP_append, deletions]
  cases a with
  | commitDelete t d row =>
    by_cases hp : d.player = p
    · exact .inr ⟨by simp [hsum, appended, Event.deletes, hp], t, d, row, rfl, hp⟩
    · refine .inl ⟨by simp [hsum, appended, Event.deletes, hp], ?_⟩
      rintro _ _ _ he
      cases he
      exact hp
  | commitLogin _ _ _ created =>
    refine .inl ⟨?_, fun _ _ _ he => by cases he⟩
    rw [hsum]
    cases created with
    | none | some => rfl
  | commitLink _ _ _ promoted =>
    refine .inl ⟨?_, fun _ _ _ he => by cases he⟩
    rw [hsum]
    cases promoted with
    | true | false => rfl
  | _ => exact .inl ⟨rfl, fun _ _ _ he => by cases he⟩

theorem deletes_after {st : DeleteStage} (en : s.enabled a)
    (h : (s.after a).deletes = some (d, st)) :
    (∃ st', a.before.deletes = some (d, st') ∧
        (st'.ticket = st.ticket ∨ s.tickets.committed d.player ≠ none)) ∨
      (a.before.deletes = none ∧ st.ticket = false ∧ deleteTicketWithinCap d.ticket ∧
        d.late = (s.receipts.committed d.player).isSome) := by
  cases a with
  | deleteOpen =>
    cases h
    exact .inr ⟨rfl, rfl, en.2.1, en.2.2.2⟩
  | consume _ _ row =>
    cases h
    refine .inl ⟨_, rfl, .inr ?_⟩
    rw [en.2.2.1]
    exact some_ne_none row
  | deleteLock | consumeMiss | readReceipt | readHandle | reserveHandle | insertReceipt
  | deletePlayer | emitDeleted => cases h; exact .inl ⟨_, rfl, .inl rfl⟩
  | _ => cases h

theorem replays_after {row : ReceiptRow} (en : s.enabled a)
    (h : (s.after a).replays = some (d, row)) :
    a.before.replays = some (d, row) ∨
      (s.receipts.committed d.player = some row ∧ row.ticket = d.ticket) := by
  cases a with
  | readReceipt =>
    cases h
    exact .inr en.2
  | _ => cases h

/-- Where the answers of deletions come from. -/
theorem delete_answer_step {result : Except Error DeleteReceipt}
    (h : Answer.delete d result ∈ (s.effect a).answers) :
    Answer.delete d result ∈ s.answers ∨
      (a = .refuseTicket d ∧ result = .error ticketTooLong) ∨
      (∃ t row, a = .commitDelete t d row ∧ result = .ok ((d.receipt row).answer d.player)) ∨
      (∃ t row, a = .replayReceipt t d row ∧ result = .ok (row.answer d.player)) ∨
      (∃ t st e, a = .refuse t (.delete d st) e ∧ result = .error e) ∨
      ∃ t st msg, a = .fail t (.delete d st) msg ∧ result = .error (.internal msg) := by
  have hcons : ∀ x, Answer.delete d result ∈ s.answers ++ [x] →
      Answer.delete d result ∈ s.answers ∨ Answer.delete d result = x := by
    intro _ hx
    exact (mem_append.1 hx).imp_right mem_singleton.1
  have hold : ∀ x, Answer.delete d result ∈ s.answers ++ [x] → Answer.delete d result ≠ x →
      Answer.delete d result ∈ s.answers :=
    fun x hx hne => (hcons x hx).resolve_right hne
  have hrefusal : ∀ pc : Pc, ∀ e,
      Answer.delete d result ∈ s.answers ++ (pc.refusal e).toList →
      Answer.delete d result ∈ s.answers ∨ ∃ st, pc = .delete d st ∧ result = .error e := by
    intro pc _ hx
    rcases mem_append.1 hx with hx | hx
    · exact .inl hx
    · cases pc with
      | delete _ st =>
        cases mem_singleton.1 hx
        exact .inr ⟨st, rfl, rfl⟩
      | _ => simp [Pc.refusal] at hx
  cases a with
  | refuseTicket =>
    rcases hcons _ h with hx | hx
    · exact .inl hx
    · cases hx
      exact .inr (.inl ⟨rfl, rfl⟩)
  | commitDelete t _ row =>
    rcases hcons _ h with hx | hx
    · exact .inl hx
    · cases hx
      exact .inr (.inr (.inl ⟨t, row, rfl, rfl⟩))
  | replayReceipt t _ row =>
    rcases hcons _ h with hx | hx
    · exact .inl hx
    · cases hx
      exact .inr (.inr (.inr (.inl ⟨t, row, rfl, rfl⟩)))
  | refuse t pc e =>
    rcases hrefusal pc e h with hx | ⟨st, rfl, hres⟩
    · exact .inl hx
    · exact .inr (.inr (.inr (.inr (.inl ⟨t, st, e, rfl, hres⟩))))
  | fail t pc msg =>
    rcases hrefusal pc _ h with hx | ⟨st, rfl, hres⟩
    · exact .inl hx
    · exact .inr (.inr (.inr (.inr (.inr ⟨t, st, msg, rfl, hres⟩))))
  | commitLogin | commitLink | refuseToken | commitRefresh | commitRevoke | commitDeny
  | beginDelete | beginMiss => exact .inl (hold _ h (by intro he; cases he))
  | _ => exact .inl h

end Steps

section Invariant

theorem Receipts.gone_step (h : s.Receipts) (hb : s.Births) (hh : s.Holds) (en : s.enabled a)
    {row : ReceiptRow} (hrow : (s.effect a).receipts.committed p = some row) :
    (s.effect a).WasBorn p ∧ ¬ (s.effect a).Alive p ∧ deleteTicketWithinCap row.ticket := by
  have hch := hh.receipt_change en p
  rw [hrow] at hch
  generalize ho : some row = o at hch
  cases hch with
  | same =>
    obtain ⟨hborn, hdead, hcap⟩ := h.gone p row ho.symm
    exact ⟨hborn.step, fun halive => hdead (hb.alive_before hh en hborn halive), hcap⟩
  | written t d prow hk =>
    cases ho
    subst hk
    refine ⟨(hb.wasBorn_of_alive (hh.before_delete en).1).step, hh.not_alive_of_delete en, ?_⟩
    exact (h.calls t d (.emitted prow) (by rw [en.1 t rfl]; rfl)).1

theorem Receipts.counted_step (h : s.Receipts) (hh : s.Holds) (en : s.enabled a) (p : Uuid) :
    (s.effect a).deletions p = if (s.effect a).receipts.committed p = none then 0 else 1 := by
  have hch := hh.receipt_change en p
  rcases deletions_step s a p with ⟨hcount, hother⟩ | ⟨hcount, t, d, row, rfl, rfl⟩
  · rw [hcount, h.counted p]
    generalize (s.effect a).receipts.committed p = o at hch
    cases hch with
    | same => rfl
    | written t d row hk => exact absurd hk (hother t d row rfl)
  · rw [hcount, h.counted, if_pos (hh.before_delete en).2.1, hh.receipt_of_delete en]
    rfl

/-- A receipt that a call relies on is still there after the step. -/
theorem receipts_ne_none_step (hh : s.Holds) (en : s.enabled a)
    (h : s.receipts.committed p ≠ none) : (s.effect a).receipts.committed p ≠ none := by
  obtain ⟨row, hrow⟩ := ne_none_iff_exists'.1 h
  rw [receipt_kept hh en hrow]
  exact some_ne_none row

theorem Receipts.calls_step (h : s.Receipts) (hr : s.References) (hh : s.Holds) (en : s.enabled a)
    {st : DeleteStage} (hpc : ((s.effect a).pc t).deletes = some (d, st)) :
    deleteTicketWithinCap d.ticket ∧
      (d.late = true → (s.effect a).receipts.committed d.player ≠ none ∧ st.ticket = false) := by
  have hkeep : ∀ st', (s.pc t).deletes = some (d, st') →
      deleteTicketWithinCap d.ticket ∧
        (d.late = true → (s.effect a).receipts.committed d.player ≠ none ∧ st'.ticket = false) := by
    intro st' hst'
    obtain ⟨hcap, hlate⟩ := h.calls t d st' hst'
    exact ⟨hcap, fun hl => ⟨receipts_ne_none_step hh en (hlate hl).1, (hlate hl).2⟩⟩
  by_cases ha : a.actor = some t
  · rw [pc_own ha] at hpc
    rcases deletes_after en hpc with ⟨st', hst', hticket⟩ | ⟨-, hst, hcap, hlate⟩
    · rw [← en.1 t ha] at hst'
      obtain ⟨hcap, hold⟩ := hkeep st' hst'
      refine ⟨hcap, fun hl => ⟨(hold hl).1, ?_⟩⟩
      rcases hticket with heq | hsome
      · rw [← heq]
        exact (hold hl).2
      · -- a call opened after the deletion finds no ticket
        obtain ⟨row, hrow⟩ := ne_none_iff_exists'.1 ((h.calls t d st' hst').2 hl).1
        exact absurd (hr.erased (h.gone _ row hrow).2.1).ticket hsome
    · refine ⟨hcap, fun hl => ⟨receipts_ne_none_step hh en ?_, hst⟩⟩
      rw [hl] at hlate
      exact isSome_iff_ne_none.1 hlate.symm
  · rw [pc_other ha] at hpc
    exact hkeep st hpc

theorem Receipts.granted_step (h : s.Receipts) (hh : s.Holds) (en : s.enabled a)
    {receipt : DeleteReceipt} (hans : Answer.delete d (.ok receipt) ∈ (s.effect a).answers) :
    ∃ row, (s.effect a).receipts.committed d.player = some row ∧ row.ticket = d.ticket ∧
      receipt = row.answer d.player := by
  rcases delete_answer_step hans with hold | ⟨-, he⟩ | ⟨t, row, rfl, he⟩ | ⟨t, row, rfl, he⟩ |
    ⟨t, st, e, -, he⟩ | ⟨t, st, msg, -, he⟩
  · obtain ⟨row, hrow, hticket, hans'⟩ := h.granted d receipt hold
    exact ⟨row, receipt_kept hh en hrow, hticket, hans'⟩
  · cases he
  · cases he
    exact ⟨_, hh.receipt_of_delete en, rfl, rfl⟩
  · cases he
    obtain ⟨hrow, hticket⟩ := h.replays t d row (by rw [en.1 t rfl]; rfl)
    exact ⟨row, receipt_kept hh en hrow, hticket, rfl⟩
  · cases he
  · cases he

/-- A call opened after the deletion is refused only if its ticket is another
one. -/
theorem Receipts.not_refused {st : DeleteStage} {e : Error} {row : ReceiptRow} (h : s.Receipts)
    (en : s.enabled (.refuse t (.delete d st) e)) (hlate : d.late = true)
    (hrow : s.receipts.committed d.player = some row) : row.ticket ≠ d.ticket := by
  intro hticket
  have hst := ((h.calls t d st (by rw [en.1 t rfl]; rfl)).2 hlate).2
  have hrej : s.rejection t (.delete d st) = some e := en.2
  cases st with
  | missed =>
    rw [rejection, hrow, if_pos (by simp [hticket])] at hrej
    cases hrej
  | consumed | receipted => cases hst
  | _ => cases hrej

theorem Receipts.late_step (h : s.Receipts) (hh : s.Holds) (en : s.enabled a)
    {result : Except Error DeleteReceipt} (hans : Answer.delete d result ∈ (s.effect a).answers)
    (hlate : d.late = true) :
    ¬ deleteTicketWithinCap d.ticket ∨
      ∃ row, (s.effect a).receipts.committed d.player = some row ∧
        (row.ticket = d.ticket →
          result = .ok (row.answer d.player) ∨ ∃ msg, result = .error (.internal msg)) := by
  have hstored : ∀ t st, s.pc t = .delete d st →
      ∃ row, s.receipts.committed d.player = some row := by
    intro t st hpc
    exact ne_none_iff_exists'.1
      ((h.calls t d st (by rw [hpc]; rfl)).2 hlate).1
  rcases delete_answer_step hans with hold | ⟨rfl, he⟩ | ⟨t, row, rfl, he⟩ | ⟨t, row, rfl, he⟩ |
    ⟨t, st, e, rfl, he⟩ | ⟨t, st, msg, rfl, he⟩
  · refine (h.late d result hold hlate).imp_right ?_
    rintro ⟨row, hrow, hres⟩
    exact ⟨row, receipt_kept hh en hrow, hres⟩
  · exact .inl en.2
  · have hst := ((h.calls t d (.emitted row) (by rw [en.1 t rfl]; rfl)).2 hlate).2
    cases hst
  · obtain ⟨hrow, -⟩ := h.replays t d row (by rw [en.1 t rfl]; rfl)
    exact .inr ⟨row, receipt_kept hh en hrow, fun _ => .inl he⟩
  · obtain ⟨row, hrow⟩ := hstored t st (en.1 t rfl)
    exact .inr ⟨row, receipt_kept hh en hrow,
      fun hticket => absurd hticket (h.not_refused en hlate hrow)⟩
  · obtain ⟨row, hrow⟩ := hstored t st (en.1 t rfl)
    exact .inr ⟨row, receipt_kept hh en hrow, fun _ => .inr ⟨msg, he⟩⟩

theorem Receipts.step (h : s.Receipts) (hb : s.Births) (hr : s.References) (hh : s.Holds)
    (en : s.enabled a) : (s.effect a).Receipts where
  gone := fun _ _ hrow => h.gone_step hb hh en hrow
  counted := h.counted_step hh en
  calls := fun _ _ _ hpc => h.calls_step hr hh en hpc
  replays := by
    intro t d row hpc
    rcases pc_read Pc.replays en (replays_after en) hpc with hold | ⟨-, hrow, hticket⟩
    · obtain ⟨hrow, hticket⟩ := h.replays t d row hold
      exact ⟨receipt_kept hh en hrow, hticket⟩
    · exact ⟨receipt_kept hh en hrow, hticket⟩
  granted := fun _ _ hans => h.granted_step hh en hans
  late := fun _ _ hans hlate => h.late_step hh en hans hlate

end Invariant

section Statement

end Statement

end State
end Swarog.Accounts
