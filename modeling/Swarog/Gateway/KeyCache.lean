import Swarog.Gateway.Keys

/-!
# A revoked key stops working

The lookups of a key that own a flight lock own the one in the table, since a lock that
somebody owns is not dropped from it; so one of them calls the store at a time, and those
that call have a permit (`Flying`).

An answer is stamped when the call returns.  If no call that has read a record is under way
when the key is revoked, the entries that still know the key are not younger than the
revocation, and lookups that start `keyCacheTtl` later do not see them (`revoked_key_stops`).
An answer that arrives after the revocation keeps the key working for a further
`keyCacheTtl` (`revoked_key_works`).
-/

namespace Swarog.Gateway.Keys

open Pg (Sess Stmt Programs World)
open Pg.Programs TransitionSystem Function FinMap List

variable {t u : Sess} {a : Act} {d d' : Data} {key : String} {l : LockId}
variable {G : World Data Pc → Sess × Act → Prop} {w w' : World Data Pc}

section Flights

namespace Pc

/-- The flight lock that a lookup owns, and its key. -/
def owns : Pc → Option (String × LockId)
  | .waiting key _ l => some (key, l)
  | .locked key _ l => some (key, l)
  | .rechecked key _ l => some (key, l)
  | .calling key _ l => some (key, l)
  | .read key _ l _ => some (key, l)
  | .stamped key _ l _ _ => some (key, l)
  | _ => none

/-- The lookup has locked its flight lock. -/
def hasLock : Pc → Bool
  | .locked _ _ _ => true
  | .rechecked _ _ _ => true
  | .calling _ _ _ => true
  | .read _ _ _ _ => true
  | .stamped _ _ _ _ _ => true
  | _ => false

def hasPermit : Pc → Bool
  | .calling _ _ _ => true
  | .read _ _ _ _ => true
  | .stamped _ _ _ _ _ => true
  | _ => false

/-- The key of a store call that is in flight. -/
def inFlight : Pc → Option String
  | .calling key _ _ => some key
  | .read key _ _ _ => some key
  | _ => none

end Pc

/-- The lookup owns the lock that the table has for its key. -/
def Registered (d : Data) (t : Sess) (key : String) (l : LockId) : Prop :=
  (t, l) ∈ d.arcs ∧ ∃ s, d.locks.get key = some (l, s)

/-- What holds of a lookup at its program point. -/
structure Pc.Flying (d : Data) (t : Sess) (pc : Pc) : Prop where
  registered : ∀ key l, pc.owns = some (key, l) → Registered d t key l
  locked : ∀ key l, pc.owns = some (key, l) → pc.hasLock = true → d.held l = some t
  permit : pc.hasPermit = true → t ∈ d.permits

/-- What a step of `t` leaves to the other lookups. -/
structure Frame (t : Sess) (d d' : Data) : Prop where
  registered : ∀ u key l, u ≠ t → Registered d u key l → Registered d' u key l
  held : ∀ u l, u ≠ t → d.held l = some u → d'.held l = some u
  permits : ∀ u, u ≠ t → u ∈ d.permits → u ∈ d'.permits

theorem Frame.of_eq (harcs : d'.arcs = d.arcs) (hlocks : d'.locks = d.locks)
    (hheld : d'.held = d.held) (hpermits : d'.permits = d.permits) : Frame t d d' := by
  refine ⟨fun u key l _ h => ?_, fun u l _ h => ?_, fun u _ h => ?_⟩
  · unfold Registered
    rw [harcs, hlocks]
    exact h
  · rw [hheld]
    exact h
  · rw [hpermits]
    exact h

theorem Frame.trans {d'' : Data} (h₁ : Frame t d d') (h₂ : Frame t d' d'') : Frame t d d'' :=
  ⟨fun u key l hu h => h₂.registered u key l hu (h₁.registered u key l hu h),
    fun u l hu h => h₂.held u l hu (h₁.held u l hu h),
    fun u hu h => h₂.permits u hu (h₁.permits u hu h)⟩

theorem Frame.flying {pc : Pc} (hf : Frame t d d') (hu : u ≠ t) (h : pc.Flying d u) :
    pc.Flying d' u :=
  ⟨fun key l ho => hf.registered u key l hu (h.registered key l ho),
    fun key l ho hl => hf.held u l hu (h.locked key l ho hl),
    fun hp => hf.permits u hu (h.permit hp)⟩

theorem frame_release (t : Sess) (d : Data) : Frame t d (d.release t) := by
  refine ⟨fun u key l hu h => ⟨?_, h.2⟩, fun u l hu h => ?_, fun u hu h => ?_⟩
  · exact mem_filter.2 ⟨h.1, decide_eq_true hu⟩
  · show (if d.held l = some t then none else d.held l) = some u
    rw [if_neg, h]
    rw [h]
    exact fun heq => hu (Option.some.inj heq)
  · exact mem_filter.2 ⟨h, decide_eq_true hu⟩

theorem alive_of_mem (h : (u, l) ∈ d.arcs) : d.alive l = true :=
  any_eq_true.2 ⟨(u, l), h, decide_eq_true rfl⟩

/-- Dropping dead locks leaves those that somebody owns. -/
theorem get_retainAlive {s : Nat} (h : d.locks.get key = some (l, s)) (hl : d.alive l = true) :
    d.retainAlive.get key = some (l, s) := by
  unfold Data.retainAlive
  rw [get_retain, h]
  exact Option.filter_some_pos hl

theorem frame_countMiss (t : Sess) (d : Data) : Frame t d d.countMiss := by
  refine ⟨fun u key l _ h => ⟨h.1, ?_⟩, fun _ _ _ h => h, fun _ _ h => h⟩
  obtain ⟨s, hs⟩ := h.2
  refine ⟨s, ?_⟩
  unfold Data.countMiss
  dsimp only
  split
  · exact get_retainAlive hs (alive_of_mem h.1)
  · exact hs

/-- A key without a live lock has no lookup that owns one. -/
theorem key_of_dead (hdead : d.upgrade key = none) {key' : String} (h : Registered d u key' l) :
    key' ≠ key := by
  rintro rfl
  obtain ⟨harc, _, hs⟩ := h
  unfold Data.upgrade at hdead
  rw [hs] at hdead
  simp [alive_of_mem harc] at hdead

theorem frame_makeRoom (t : Sess) (hdead : d.upgrade key = none) : Frame t d (d.makeRoom key) := by
  have hremove : ∀ u key' l, Registered d u key' l →
      Registered { d with locks := d.locks.remove key } u key' l := by
    intro _ _ _ h
    obtain ⟨s, hs⟩ := h.2
    exact ⟨h.1, s, (get_remove_of_ne (key_of_dead hdead h)).trans hs⟩
  unfold Data.makeRoom
  dsimp only
  split
  · refine ⟨fun u key' l _ h => ?_, fun _ _ _ h => h, fun _ _ h => h⟩
    obtain ⟨harc, s, hs⟩ := hremove u key' l h
    exact ⟨harc, s, get_retainAlive hs (alive_of_mem harc)⟩
  · exact ⟨fun u key' l _ h => hremove u key' l h, fun _ _ _ h => h, fun _ _ h => h⟩

/-- A flight lock is handed out as the table has it. -/
theorem flight_spec (t : Sess) (key : String) (d : Data) :
    Frame t d (d.flight t key).2 ∧
      ∀ l, (d.flight t key).1 = some l → Registered (d.flight t key).2 t key l := by
  have hmiss := frame_countMiss t d
  unfold Data.flight
  dsimp only
  cases hup : d.countMiss.upgrade key with
  | some =>
    refine ⟨hmiss.trans ⟨fun u key' l' _ h => ?_, fun _ _ _ h => h, fun _ _ h => h⟩, ?_⟩
    · exact ⟨mem_cons_of_mem _ h.1, h.2⟩
    · rintro _ ⟨⟩
      refine ⟨mem_cons_self, ?_⟩
      obtain ⟨⟨_, s⟩, hget, hlive⟩ := Option.bind_eq_some_iff.1 hup
      split at hlive
      · cases hlive
        exact ⟨s, hget⟩
      · cases hlive
  | none =>
    have hroom := hmiss.trans (frame_makeRoom t hup)
    dsimp only
    split
    · exact ⟨hroom, fun l heq => nomatch heq⟩
    · constructor
      · -- Only the entry of the key is replaced, and nobody owns its lock.
        refine ⟨fun u key' l hu h => ?_, hroom.held, hroom.permits⟩
        obtain ⟨harc, s, hs⟩ := hroom.registered u key' l hu h
        have hne : key' ≠ key := key_of_dead hup (hmiss.registered u key' l hu h)
        exact ⟨mem_cons_of_mem _ harc, s, (get_set_of_ne _ hne).trans hs⟩
      · rintro _ ⟨⟩
        exact ⟨mem_cons_self, _, get_set_self _ _ _⟩

theorem frame_step (hg : (stmt t a).guard d) : Frame t d ((stmt t a).change d) := by
  have hsame : ∀ d' : Data, d'.arcs = d.arcs → d'.locks = d.locks → d'.held = d.held →
      d'.permits = d.permits → Frame t d (d'.release t) :=
    fun d' h₁ h₂ h₃ h₄ => (Frame.of_eq h₁ h₂ h₃ h₄).trans (frame_release t d')
  cases a with
  | refuse | start | readStore | failStore | stamp | edit => exact .of_eq rfl rfl rfl rfl
  | lookCache =>
    simp only [stmt]
    split <;> exact .of_eq rfl rfl rfl rfl
  | flight key =>
    simp only [stmt]
    split
    · exact (flight_spec t key d).1
    · exact (flight_spec t key d).1.trans (.of_eq rfl rfl rfl rfl)
  | lock _ _ l =>
    refine ⟨fun _ _ _ _ h => h, fun u l' _ h => ?_, fun _ _ h => h⟩
    have hne : l' ≠ l := by
      rintro rfl
      rw [show d.held l' = none from hg] at h
      cases h
    exact (update_of_ne hne _ _).trans h
  | recheck =>
    simp only [stmt]
    split
    · exact hsame _ rfl rfl rfl rfl
    · exact .of_eq rfl rfl rfl rfl
  | acquire =>
    simp only [stmt]
    split
    · exact ⟨fun _ _ _ _ h => h, fun _ _ _ h => h, fun _ _ h => mem_cons_of_mem _ h⟩
    · exact hsame _ rfl rfl rfl rfl
  | insert | unavailable => exact hsame _ rfl rfl rfl rfl
  | cancel => exact frame_release t d

theorem flying_idle (t : Sess) (d : Data) : Pc.Flying d t .idle :=
  ⟨fun _ _ h => (nomatch h), fun _ _ h => (nomatch h), fun h => (nomatch h)⟩

theorem flying_own (h : (stmt t a).before.Flying d t) :
    ((stmt t a).after d).Flying ((stmt t a).change d) t := by
  cases a with
  | refuse | insert | unavailable | cancel | edit => exact flying_idle _ _
  | start => exact ⟨fun _ _ h => (nomatch h), fun _ _ h => (nomatch h), fun h => (nomatch h)⟩
  | lookCache key start now =>
    simp only [stmt]
    cases d.cached key now with
    | some => exact flying_idle _ _
    | none => exact ⟨fun _ _ h => (nomatch h), fun _ _ h => (nomatch h), fun h => (nomatch h)⟩
  | flight key =>
    have hspec := (flight_spec t key d).2
    simp only [stmt]
    cases hl : (d.flight t key).1 with
    | none => exact flying_idle _ _
    | some l =>
      refine ⟨?_, fun _ _ _ h => (nomatch h), fun h => (nomatch h)⟩
      rintro key' l' ⟨⟩
      exact hspec l hl
  | lock =>
    refine ⟨h.registered, ?_, h.permit⟩
    rintro key' l' ⟨⟩ _
    exact update_self _ _ _
  | recheck key start l now =>
    simp only [stmt]
    cases d.cached key now with
    | some => exact flying_idle _ _
    | none => exact ⟨h.registered, h.locked, h.permit⟩
  | acquire =>
    simp only [stmt]
    split
    · exact ⟨h.registered, h.locked, fun _ => mem_cons_self⟩
    · exact flying_idle _ _
  | readStore | failStore | stamp => exact ⟨h.registered, h.locked, h.permit⟩

theorem flying_reachable (h : system.Reachable G w) : ∀ t, (w.pc t).Flying w.data t :=
  local_invariant (X := programs) (L := fun d t pc => pc.Flying d t)
    (fun t => flying_idle t _) (fun _ _ _ _ _ _ => flying_own)
    (fun _ _ _ _ _ _ en hu => (frame_step en.2).flying hu) h

theorem owns_of_inFlight {pc : Pc} (h : pc.inFlight = some key) :
    ∃ l, pc.owns = some (key, l) ∧ pc.hasLock = true ∧ pc.hasPermit = true := by
  cases pc with
  | calling key start l | read key start l =>
    cases h
    exact ⟨l, rfl, rfl, rfl⟩
  | _ => cases h

/-- One store call per key. -/
theorem inFlight_exclusive (h : system.Reachable G w) (ht : (w.pc t).inFlight = some key)
    (hu : (w.pc u).inFlight = some key) : t = u := by
  obtain ⟨l, hown, hlock, -⟩ := owns_of_inFlight ht
  obtain ⟨l', hown', hlock', -⟩ := owns_of_inFlight hu
  obtain ⟨-, _, hs⟩ := (flying_reachable h t).registered key l hown
  obtain ⟨-, _, hs'⟩ := (flying_reachable h u).registered key l' hown'
  rw [hs] at hs'
  cases hs'
  have hheld := (flying_reachable h t).locked key l hown hlock
  rw [(flying_reachable h u).locked key l hown' hlock'] at hheld
  exact (Option.some.inj hheld).symm

theorem permits_flight (t : Sess) (key : String) (d : Data) :
    (d.flight t key).2.permits = d.permits := by
  unfold Data.flight
  dsimp only
  split
  · rfl
  · split
    · unfold Data.makeRoom
      dsimp only
      split <;> rfl
    · unfold Data.makeRoom
      dsimp only
      split <;> rfl

theorem permits_bounded (h : system.Reachable G w) :
    w.data.permits.length ≤ keyLookupMaxInFlight := by
  refine data_invariant (X := programs)
    (I := fun d => d.permits.length ≤ keyLookupMaxInFlight) (Nat.zero_le _) ?_ h
  intro w t a _ _ _ hle
  have hrelease : ∀ d : Data, d.permits = w.data.permits →
      (d.release t).permits.length ≤ keyLookupMaxInFlight := by
    intro _ heq
    refine Nat.le_trans (length_filter_le _ _) ?_
    rw [heq]
    exact hle
  cases a with
  | lookCache =>
    simp only [programs, stmt]
    split <;> exact hle
  | flight key =>
    simp only [programs, stmt]
    split
    · rw [permits_flight]
      exact hle
    · show (w.data.flight t key).2.permits.length ≤ _
      rw [permits_flight]
      exact hle
  | recheck =>
    simp only [programs, stmt]
    split
    · exact hrelease _ rfl
    · exact hle
  | acquire =>
    simp only [programs, stmt]
    split
    · rename_i hlt
      exact hlt
    · exact hrelease _ rfl
  | insert | unavailable | cancel => exact hrelease _ rfl
  | _ => exact hle

/-- At most as many store calls as there are permits. -/
theorem inFlight_bounded (h : system.Reachable G w) {calls : List Sess} (hnodup : calls.Nodup)
    (hcalls : ∀ t ∈ calls, (w.pc t).inFlight ≠ none) : calls.length ≤ keyLookupMaxInFlight := by
  refine Nat.le_trans (subperm_of_subset hnodup ?_).length_le (permits_bounded h)
  intro t ht
  obtain ⟨_, hkey⟩ := Option.ne_none_iff_exists'.1 (hcalls t ht)
  obtain ⟨_, -, -, hpermit⟩ := owns_of_inFlight hkey
  exact (flying_reachable h t).permit hpermit

end Flights

section Effects

variable {x : Answer} {entry : CacheEntry} {now : Int}

/-- The entries after an insertion. -/
theorem get_insert {key' : String} {record : Option KeyRecord}
    (h : (d.insert key record now).entries.get key' = some entry) :
    (key' = key ∧ entry.record = record ∧ entry.insertedAt = now) ∨
      d.entries.get key' = some entry := by
  by_cases hk : key' = key
  · subst hk
    unfold Data.insert at h
    rw [get_set_self] at h
    cases h
    exact .inl ⟨rfl, rfl, rfl⟩
  · right
    unfold Data.insert at h
    rw [get_set_of_ne _ hk] at h
    have hfresh : ∀ fresh : FinMap String CacheEntry, fresh = d.entries.retain (fun _ entry =>
        decide (entry.elapsed now < keyCacheTtl)) → fresh.get key' = some entry →
          d.entries.get key' = some entry := by
      rintro _ rfl hget
      rw [get_retain] at hget
      exact (Option.filter_eq_some_iff.1 hget).1
    split at h
    · cases hold : Data.oldest (d.entries.retain (fun _ entry =>
          decide (entry.elapsed now < keyCacheTtl))).entries with
      | none =>
        rw [hold] at h
        exact hfresh _ rfl h
      | some old =>
        rw [hold] at h
        replace h : FinMap.get (FinMap.remove old _) key' = some entry := h
        by_cases hko : key' = old
        · rw [hko, get_remove_self] at h
          cases h
        · rw [get_remove_of_ne hko] at h
          exact hfresh _ rfl h
    · exact hfresh _ rfl h

theorem flight_others (t : Sess) (key : String) (d : Data) :
    (d.flight t key).2.entries = d.entries ∧ (d.flight t key).2.store = d.store ∧
      (d.flight t key).2.clock = d.clock ∧ (d.flight t key).2.answers = d.answers := by
  have hroom : (d.countMiss.makeRoom key).entries = d.entries ∧
      (d.countMiss.makeRoom key).store = d.store ∧ (d.countMiss.makeRoom key).clock = d.clock ∧
      (d.countMiss.makeRoom key).answers = d.answers := by
    unfold Data.makeRoom
    dsimp only
    split <;> exact ⟨rfl, rfl, rfl, rfl⟩
  unfold Data.flight
  dsimp only
  split
  · exact ⟨rfl, rfl, rfl, rfl⟩
  · split <;> exact hroom

/-- Entries come from insertions. -/
theorem entries_step (h : ((stmt t a).change d).entries.get key = some entry) :
    d.entries.get key = some entry ∨
      ∃ start l, a = .insert key start l entry.record entry.insertedAt := by
  cases a with
  | lookCache | recheck | acquire =>
    simp only [stmt] at h
    split at h <;> exact .inl h
  | flight key' =>
    simp only [stmt] at h
    split at h
    · exact .inl ((flight_others t key' d).1 ▸ h)
    · exact .inl ((flight_others t key' d).1 ▸ h)
  | insert key' start l record now =>
    rcases get_insert (h : (d.insert key' record now).entries.get key = some entry) with
      ⟨rfl, rfl, rfl⟩ | hold
    · exact .inr ⟨start, l, rfl⟩
    · exact .inl hold
  | _ => exact .inl h

theorem clock_step (hg : (stmt t a).guard d) : d.clock ≤ ((stmt t a).change d).clock := by
  cases a with
  | refuse | start => exact hg.1
  | lookCache | recheck =>
    simp only [stmt]
    split <;> exact hg
  | flight key =>
    simp only [stmt]
    split
    · exact Int.le_of_eq (flight_others t key d).2.2.1.symm
    · exact Int.le_of_eq (flight_others t key d).2.2.1.symm
  | acquire =>
    simp only [stmt]
    split <;> exact Int.le_refl _
  | stamp => exact hg
  | _ => exact Int.le_refl _

/-- When a lookup has started. -/
def Pc.start : Pc → Option Int
  | .idle => none
  | .started _ start => some start
  | .missed _ start => some start
  | .waiting _ start _ => some start
  | .locked _ start _ => some start
  | .rechecked _ start _ => some start
  | .calling _ start _ => some start
  | .read _ start _ _ => some start
  | .stamped _ start _ _ _ => some start

/-- Where the answer of a step comes from. -/
inductive Source (d d' : Data) (pc : Pc) (x : Answer) : Prop
  | refused
      (hverdict : x.verdict = .ok none)
      (hstart : x.start = d'.clock)
  | cache (now : Int) (record : Option KeyRecord)
      (hnow : d.clock ≤ now)
      (hit : d.cached x.key now = some record)
      (hverdict : x.verdict = .ok record)
      (hstart : pc.start = some x.start)
  | store (l : LockId) (record : Option KeyRecord) (now : Int)
      (hpc : pc = .stamped x.key x.start l record now)
      (hverdict : x.verdict = .ok record)
  | unavailable
      (hverdict : x.verdict = .error ⟨⟩)
      (hstart : pc.start = some x.start)

theorem answers_step (hg : (stmt t a).guard d) (hx : x ∈ ((stmt t a).change d).answers) :
    x ∈ d.answers ∨ Source d ((stmt t a).change d) (stmt t a).before x := by
  have hlast : ∀ y, x ∈ d.answers ++ [y] → x ∈ d.answers ∨ x = y := by
    intro y hmem
    exact (mem_append.1 hmem).imp_right mem_singleton.1
  cases a with
  | refuse =>
    refine (hlast _ hx).imp_right ?_
    rintro rfl
    exact .refused rfl rfl
  | lookCache key start now =>
    simp only [stmt] at hx
    split at hx
    · rename_i record hit
      refine (hlast _ hx).imp_right ?_
      rintro rfl
      exact .cache now record hg hit rfl rfl
    · exact .inl hx
  | flight key =>
    simp only [stmt] at hx
    split at hx
    · exact .inl ((flight_others t key d).2.2.2 ▸ hx)
    · replace hx : x ∈ (d.flight t key).2.answers ++ [_] := hx
      rw [(flight_others t key d).2.2.2] at hx
      refine (hlast _ hx).imp_right ?_
      rintro rfl
      exact .unavailable rfl rfl
  | recheck key start l now =>
    simp only [stmt] at hx
    split at hx
    · rename_i record hit
      refine (hlast _ hx).imp_right ?_
      rintro rfl
      exact .cache now record hg hit rfl rfl
    · exact .inl hx
  | acquire =>
    simp only [stmt] at hx
    split at hx
    · exact .inl hx
    · refine (hlast _ hx).imp_right ?_
      rintro rfl
      exact .unavailable rfl rfl
  | insert key start l record now =>
    refine (hlast _ hx).imp_right ?_
    rintro rfl
    exact .store l record now rfl rfl
  | unavailable =>
    refine (hlast _ hx).imp_right ?_
    rintro rfl
    exact .unavailable rfl rfl
  | _ => exact .inl hx

end Effects

section Revocation

/-- The times that a lookup carries are readings of the clock. -/
def Pc.Timely (clock : Int) (pc : Pc) : Prop :=
  (∀ s, pc.start = some s → s ≤ clock) ∧
    ∀ key start l record now, pc = .stamped key start l record now → start ≤ now ∧ now ≤ clock

structure Timely (w : World Data Pc) : Prop where
  pcs : ∀ t, (w.pc t).Timely w.data.clock
  entries : ∀ key entry, w.data.entries.get key = some entry → entry.insertedAt ≤ w.data.clock
  answers : ∀ x ∈ w.data.answers, x.start ≤ w.data.clock

theorem Pc.Timely.mono {clock clock' : Int} {pc : Pc} (h : pc.Timely clock) (hle : clock ≤ clock') :
    pc.Timely clock' := by
  refine ⟨fun s hs => Int.le_trans (h.1 s hs) hle, fun key start l record now hpc => ?_⟩
  obtain ⟨hstart, hnow⟩ := h.2 key start l record now hpc
  exact ⟨hstart, Int.le_trans hnow hle⟩

theorem timely_own (hg : (stmt t a).guard d) (h : (stmt t a).before.Timely d.clock) :
    ((stmt t a).after d).Timely ((stmt t a).change d).clock := by
  have hle := clock_step hg
  -- Unless the lookup is stamped, it carries its start only.
  have hsame : ∀ pc : Pc, (pc.start = (stmt t a).before.start ∨ pc = .idle) →
      (∀ key start l record now, pc ≠ .stamped key start l record now) →
        pc.Timely ((stmt t a).change d).clock := by
    intro pc hstart hnot
    refine ⟨fun s hs => ?_, fun key start l record now heq => absurd heq (hnot _ _ _ _ _)⟩
    rcases hstart with hstart | rfl
    · exact Int.le_trans (h.1 s (hstart ▸ hs)) hle
    · cases hs
  cases a with
  | start =>
    refine ⟨fun s hs => ?_, fun _ _ _ _ _ heq => nomatch heq⟩
    cases hs
    exact Int.le_refl _
  | lookCache | recheck =>
    refine hsame _ ?_ ?_
    · simp only [stmt]
      split
      · exact .inr rfl
      · exact .inl rfl
    · simp only [stmt]
      split <;> exact fun _ _ _ _ _ heq => nomatch heq
  | flight key =>
    refine hsame _ ?_ ?_
    · simp only [stmt]
      cases (d.flight t key).1 with
      | none => exact .inr rfl
      | some => exact .inl rfl
    · simp only [stmt]
      cases (d.flight t key).1 <;> exact fun _ _ _ _ _ heq => nomatch heq
  | acquire =>
    refine hsame _ ?_ ?_
    · simp only [stmt]
      split
      · exact .inl rfl
      · exact .inr rfl
    · simp only [stmt]
      split <;> exact fun _ _ _ _ _ heq => nomatch heq
  | stamp key start l record now =>
    have hstart : start ≤ now := Int.le_trans (h.1 start rfl) hg
    refine ⟨fun s hs => ?_, fun _ _ _ _ _ heq => ?_⟩
    · cases hs
      exact hstart
    · cases heq
      exact ⟨hstart, Int.le_refl _⟩
  | lock | readStore | failStore => exact hsame _ (.inl rfl) (fun _ _ _ _ _ heq => nomatch heq)
  | _ => exact hsame _ (.inr rfl) (fun _ _ _ _ _ heq => nomatch heq)

theorem Source.start_le {pc : Pc} {x : Answer} (h : Source d d' pc x) (ht : pc.Timely d.clock)
    (hle : d.clock ≤ d'.clock) : x.start ≤ d'.clock := by
  cases h with
  | refused hverdict hstart => exact Int.le_of_eq hstart
  | cache now record hnow hit hverdict hstart | unavailable hverdict hstart =>
    exact Int.le_trans (ht.1 _ hstart) hle
  | store l record now hpc => exact Int.le_trans (ht.1 _ (by rw [hpc]; rfl)) hle

theorem timely_reachable (h : system.Reachable G w) : Timely w := by
  refine (fun hall => ⟨hall.2, hall.1.1, hall.1.2⟩ : _ → Timely w)
    (joint_invariant (X := programs) (I := fun d =>
      (∀ key entry, d.entries.get key = some entry → entry.insertedAt ≤ d.clock) ∧
        ∀ x ∈ d.answers, x.start ≤ d.clock)
    (L := fun d _ pc => pc.Timely d.clock) ⟨fun _ _ h => (nomatch h), fun _ h => (nomatch h)⟩
    (fun _ => ⟨fun _ h => (nomatch h), fun _ _ _ _ _ h => (nomatch h)⟩) ?_ h)
  rintro w t a - - en ⟨hentries, hanswers⟩ hpcs hbefore
  have hle := clock_step en.2
  refine ⟨⟨fun key entry hentry => ?_, fun x hx => ?_⟩, timely_own en.2 hbefore,
    fun u _ => (hpcs u).mono hle⟩
  · rcases entries_step hentry with hold | ⟨start, l, rfl⟩
    · exact Int.le_trans (hentries key entry hold) hle
    · exact Int.le_trans (hbefore.2 key start l _ _ rfl).2 hle
  · rcases answers_step en.2 hx with hold | hsource
    · exact Int.le_trans (hanswers x hold) hle
    · exact hsource.start_le hbefore hle

/-- The step does not make the key known. -/
def StaysUnknown (key : String) (_ : World Data Pc) : Sess × Act → Prop
  | (_, .edit key' record) => key' = key → record = none
  | _ => True

instance (key : String) (w : World Data Pc) (a : Sess × Act) :
    Decidable (StaysUnknown key w a) := by
  unfold StaysUnknown
  split <;> infer_instance

/-- The lookup is in a store call that has read a record of the key. -/
def Pc.Carrying (key : String) (pc : Pc) : Prop :=
  ∃ start l record, pc = .read key start l (.ok (some record))

/-- What holds from the revocation on, which was at the time `since`. -/
structure Revoked (key : String) (since : Int) (w : World Data Pc) : Prop where
  store : w.data.store key = none
  clock : since ≤ w.data.clock
  entries : ∀ entry record, w.data.entries.get key = some entry → entry.record = some record →
    entry.insertedAt ≤ since
  calls : ∀ t, ¬ (w.pc t).Carrying key
  stamps : ∀ t start l record now, w.pc t = .stamped key start l (some record) now → now ≤ since
  answers : ∀ x ∈ w.data.answers, x.key = key → since + keyCacheTtl ≤ x.start →
    ∀ record, x.verdict ≠ .ok (some record)

theorem store_step (hG : StaysUnknown key w (t, a)) (h : w.data.store key = none) :
    ((stmt t a).change w.data).store key = none := by
  cases a with
  | edit key' =>
    by_cases hk : key' = key
    · cases hG hk
      subst hk
      exact update_self _ _ _
    · exact (update_of_ne (Ne.symm hk) _ _).trans h
  | lookCache | recheck | acquire =>
    simp only [stmt]
    split <;> exact h
  | flight key' =>
    have hsame := congrFun (flight_others t key' w.data).2.1 key
    simp only [stmt]
    split <;> exact hsame.trans h
  | _ => exact h

/-- A store that does not know the key is not read with a record. -/
theorem carrying_own (h : d.store key = none) : ¬ ((stmt t a).after d).Carrying key := by
  rintro ⟨_, _, _, heq⟩
  cases a with
  | lookCache | recheck | acquire =>
    simp only [stmt] at heq
    split at heq <;> cases heq
  | flight key' =>
    simp only [stmt] at heq
    cases hl : (d.flight t key').1 <;> rw [hl] at heq <;> cases heq
  | readStore =>
    injection heq with hk _ _ hv
    subst hk
    rw [h] at hv
    cases hv
  | _ => cases heq

/-- A lookup that is stamped was in a store call. -/
theorem stamped_own {start now : Int} {record : Option KeyRecord}
    (h : (stmt t a).after d = .stamped key start l record now) :
    (stmt t a).before = .read key start l (.ok record) := by
  cases a with
  | lookCache | recheck | acquire =>
    simp only [stmt] at h
    split at h <;> cases h
  | flight key' =>
    simp only [stmt] at h
    cases hl : (d.flight t key').1 <;> rw [hl] at h <;> cases h
  | stamp =>
    cases h
    rfl
  | _ => cases h

/-- What the cache still knows is older than the revocation. -/
theorem not_served {since now : Int} {record : KeyRecord}
    (hentries : ∀ entry record, d.entries.get key = some entry → entry.record = some record →
      entry.insertedAt ≤ since)
    (h : d.cached key now = some (some record)) : now < since + keyCacheTtl := by
  obtain ⟨entry, hentry, hrecord⟩ := Option.bind_eq_some_iff.1 h
  split at hrecord
  · have hold := hentries entry record hentry (Option.some.inj hrecord)
    have hage : now - entry.insertedAt ≤ entry.elapsed now := Int.le_max_right _ _
    omega
  · cases hrecord

theorem revoked_step {since : Int} (htimely : Timely w) (h : Revoked key since w)
    (hG : StaysUnknown key w (t, a)) (en : system.enabled w (t, a)) :
    Revoked key since (system.effect w (t, a)) := by
  have hpc : w.pc t = (stmt t a).before := en.1
  refine ⟨store_step hG h.store, Int.le_trans h.clock (clock_step en.2), ?_, ?_, ?_, ?_⟩
  · intro entry record hentry hrecord
    rcases entries_step hentry with hold | ⟨start, l, rfl⟩
    · exact h.entries entry record hold hrecord
    · rw [hrecord] at hpc
      exact h.stamps t start l record _ hpc
  · exact pc_effect (X := programs) (fun _ pc => ¬ pc.Carrying key)
      (carrying_own h.store) (fun u _ => h.calls u)
  · refine pc_effect (X := programs) (fun _ pc => ∀ start l record now,
      pc = .stamped key start l (some record) now → now ≤ since) ?_ (fun u _ => h.stamps u)
    intro start l record _ hstamp
    exact absurd ⟨start, l, record, hpc.trans (stamped_own hstamp)⟩ (h.calls t)
  · rintro x hx rfl hstart record hknown
    rcases answers_step en.2 hx with hold | hsource
    · exact h.answers x hold rfl hstart record hknown
    · have hbefore := htimely.pcs t
      rw [hpc] at hbefore
      cases hsource with
      | refused hverdict | unavailable hverdict =>
        rw [hverdict] at hknown
        cases hknown
      | cache _ _ _ hit hverdict hs =>
        rw [hverdict] at hknown
        cases hknown
        have hbegan := hbefore.1 x.start hs
        have hserved := not_served h.entries hit
        omega
      | store l _ now hs hverdict =>
        rw [hverdict] at hknown
        cases hknown
        have hstamp := h.stamps t x.start l record now (hpc.trans hs)
        have hbegan := (hbefore.2 _ _ _ _ _ hs).1
        unfold keyCacheTtl at hstart
        omega

/-- A revoked key stops working after the time to live, if no store call that has read its
record is under way when it is revoked: lookups that start then are answered that the key is
unknown or that the verifier is unavailable.  There is one store call per key at a time, and
a bounded number of them. -/
theorem revoked_key_stops (h : system.Reachable TransitionSystem.anyStep w)
    (hrevoked : w.data.store key = none) (hquiet : ∀ t, ¬ (w.pc t).Carrying key)
    (hrun : system.Reaches (StaysUnknown key) w w') :
    (∀ x ∈ w'.data.answers, x.key = key → w.data.clock + keyCacheTtl ≤ x.start →
      x.verdict = .ok none ∨ x.verdict = .error ⟨⟩) ∧
    (∀ t u k, (w'.pc t).inFlight = some k → (w'.pc u).inFlight = some k → t = u) ∧
    (∀ calls : List Sess, calls.Nodup → (∀ t ∈ calls, (w'.pc t).inFlight ≠ none) →
      calls.length ≤ keyLookupMaxInFlight) := by
  have htimely := timely_reachable h
  have hstart : Revoked key w.data.clock w := by
    refine ⟨hrevoked, Int.le_refl _, fun entry _ hentry _ => htimely.entries key entry hentry,
      hquiet, ?_, ?_⟩
    · intro t _ _ _ _ hpc
      exact ((htimely.pcs t).2 _ _ _ _ _ hpc).2
    · intro x hx _ hlate
      have hearly := htimely.answers x hx
      unfold keyCacheTtl at hlate
      omega
  obtain ⟨hr', hend⟩ := hrun.preserves
    (I := fun w' => system.Reachable anyStep w' ∧ Revoked key w.data.clock w')
    (fun w₁ ⟨t, a⟩ hI hG en => ⟨.tail (t, a) hI.1 trivial en,
      revoked_step (timely_reachable hI.1) hI.2 hG en⟩) ⟨h, hstart⟩
  refine ⟨?_, fun t u k => inFlight_exclusive hr', fun calls => inFlight_bounded hr'⟩
  intro x hx hk hlate
  have hunknown := hend.answers x hx hk hlate
  cases hverdict : x.verdict with
  | error => exact .inr rfl
  | ok record =>
    cases record with
    | none => exact .inl rfl
    | some record => exact absurd hverdict (hunknown record)

/-- A lookup of the key that asks the store. -/
def asks (t : Sess) (key : String) (start : Int) (l : LockId) : List (Sess × Act) :=
  [(t, .start key start), (t, .lookCache key start start), (t, .flight key start),
    (t, .lock key start l), (t, .recheck key start l start), (t, .acquire key start l),
    (t, .readStore key start l)]

/-- The store call of a lookup returns. -/
def returns (t : Sess) (key : String) (start : Int) (l : LockId) (record : Option KeyRecord)
    (now : Int) : List (Sess × Act) :=
  [(t, .stamp key start l record now), (t, .insert key start l record now)]

def gameClient : KeyRecord := ⟨"game-client", "full"⟩

/-- A key is looked up at the time 0 and revoked at the time 1 s. -/
def revokedRun : List (Sess × Act) :=
  (9, .edit "ak_1" (some gameClient)) :: asks 0 "ak_1" 0 0 ++
    returns 0 "ak_1" 0 0 (some gameClient) 1000000000 ++ [(9, .edit "ak_1" none)]

theorem revoked_key_stops_after_ttl :
    ∃ w w', system.Reachable TransitionSystem.anyStep w ∧ w.data.store "ak_1" = none ∧
      system.Reaches (StaysUnknown "ak_1") w w' ∧
      ∃ x ∈ w'.data.answers, x.key = "ak_1" ∧ w.data.clock + keyCacheTtl ≤ x.start ∧
        (x.verdict = .ok none ∨ x.verdict = .error ⟨⟩) := by
  have hexec : (system.exec anyStep system.start revokedRun).any (fun w =>
      decide (w.data.store "ak_1" = none) && decide (w.data.permits = []) &&
        (system.exec (StaysUnknown "ak_1") w (asks 1 "ak_1" 7000000000 1 ++
          returns 1 "ak_1" 7000000000 1 none 8000000000)).any (fun w' => w'.data.answers.any (fun x =>
            decide (x.key = "ak_1") && decide (w.data.clock + keyCacheTtl ≤ x.start)))) = true := by
    decide +kernel
  obtain ⟨w, hw, hcheck⟩ := (Option.any_eq_true _ _).1 hexec
  simp only [Bool.and_eq_true, decide_eq_true_eq] at hcheck
  obtain ⟨⟨hstore, hpermits⟩, hrest⟩ := hcheck
  obtain ⟨w', hw', hanswer⟩ := (Option.any_eq_true _ _).1 hrest
  simp only [any_eq_true, Bool.and_eq_true, decide_eq_true_eq] at hanswer
  obtain ⟨x, hx, hkey, hlate⟩ := hanswer
  have hr := exec_reaches _ hw
  have hrun := exec_reaches _ hw'
  have hquiet : ∀ t, ¬ (w.pc t).Carrying "ak_1" := by
    rintro t ⟨start, l, record, hpc⟩
    have hpermit := (flying_reachable hr t).permit (by rw [hpc]; rfl)
    rw [hpermits] at hpermit
    cases hpermit
  exact ⟨w, w', hr, hstore, hrun, x, hx, hkey, hlate,
    (revoked_key_stops hr hstore hquiet hrun).1 x hx hkey hlate⟩

/-- The store is read at the time 0 and the key is revoked; the answer arrives ten seconds
later, and a lookup that starts after eleven seconds is served from the cache. -/
theorem revoked_key_works :
    ∃ w w', system.Reachable TransitionSystem.anyStep w ∧ w.data.store "ak_1" = none ∧
      system.Reaches (StaysUnknown "ak_1") w w' ∧
      ∃ x ∈ w'.data.answers, x.key = "ak_1" ∧ w.data.clock + keyCacheTtl ≤ x.start ∧
        x.verdict = .ok (some gameClient) := by
  have hexec : (system.exec anyStep system.start
      ((9, .edit "ak_1" (some gameClient)) :: asks 0 "ak_1" 0 0 ++ [(9, .edit "ak_1" none)])).any
      (fun w => decide (w.data.store "ak_1" = none) &&
        (system.exec (StaysUnknown "ak_1") w (returns 0 "ak_1" 0 0 (some gameClient) 10000000000 ++
          [(1, .start "ak_1" 11000000000), (1, .lookCache "ak_1" 11000000000 11000000000)])).any
          (fun w' => w'.data.answers.any (fun x =>
            decide (x.key = "ak_1") && decide (w.data.clock + keyCacheTtl ≤ x.start) &&
              decide (x.verdict = .ok (some gameClient))))) = true := by
    decide +kernel
  obtain ⟨w, hw, hcheck⟩ := (Option.any_eq_true _ _).1 hexec
  simp only [Bool.and_eq_true, decide_eq_true_eq] at hcheck
  obtain ⟨w', hw', hanswer⟩ := (Option.any_eq_true _ _).1 hcheck.2
  simp only [any_eq_true, Bool.and_eq_true, decide_eq_true_eq] at hanswer
  obtain ⟨x, hx, ⟨hkey, hlate⟩, hknown⟩ := hanswer
  exact ⟨w, w', exec_reaches _ hw, hcheck.1, exec_reaches _ hw', x, hx, hkey, hlate, hknown⟩

end Revocation

end Swarog.Gateway.Keys
