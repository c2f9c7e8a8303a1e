import Swarog.Friends.Schema
import Swarog.Groups.Schema
import Swarog.Party.Schema
import Swarog.Storage.Store
import Swarog.Wallet.Movement

/-!
# The spellings of a uuid

Modules take locks by a hash of the id they were sent, and the wallet compares ids by their
digits.  Both agree on all spellings that the database reads as one uuid.  The scanner of the
wallet accepts eight groups of four digits with at most one hyphen between two of them, and the
database reads all of these.
-/

namespace Swarog.Spellings

open Pg Pg.Uuid
open Wallet (hex32 hex32_of_ofText isUuidText isUuidTextFrom)

variable {n d : Nat} {b : Bool} {x y z w : Char} {cs : List Char} {s s' : String} {u : Uuid}

def Four (x y z w : Char) : Prop := x ∈ hexDigits ∧ y ∈ hexDigits ∧ z ∈ hexDigits ∧ w ∈ hexDigits

/-- Four digits `n + 1` times, with at most one hyphen after each four but the last. -/
inductive Grouped : Nat → List Char → Prop
  | last {x y z w : Char} (h : Four x y z w) : Grouped 0 [x, y, z, w]
  | more {x y z w : Char} {n : Nat} {cs cs' : List Char} (h : Four x y z w)
    (hyphen : cs = cs' ∨ cs = '-' :: cs') (rest : Grouped n cs') :
    Grouped (n + 1) (x :: y :: z :: w :: cs)

theorem hyphen_notMem : '-' ∉ hexDigits := by decide

section Scanner

theorem scan_digit {c : Char} (h : c ∈ hexDigits) :
    isUuidTextFrom d b (c :: cs) = isUuidTextFrom (d + 1) false cs := by
  rw [isUuidTextFrom, if_pos h]

/-- The hyphen is taken after a group that is not the last. -/
theorem scan_hyphen (hmod : d % 4 = 0) (hpos : 0 < d) (hlt : d < 32) :
    isUuidTextFrom d false ('-' :: cs) = isUuidTextFrom d true cs := by
  rw [isUuidTextFrom, if_neg hyphen_notMem, if_pos ⟨rfl, rfl, hmod, hpos, hlt⟩]

theorem scan_four (h : Four x y z w) :
    isUuidTextFrom d b (x :: y :: z :: w :: cs) = isUuidTextFrom (d + 4) false cs := by
  obtain ⟨hx, hy, hz, hw⟩ := h
  rw [scan_digit hx, scan_digit hy, scan_digit hz, scan_digit hw]

theorem hexOf_four (h : Four x y z w) :
    (hexOf (x :: y :: z :: w :: cs)).length = (hexOf cs).length + 4 := by
  obtain ⟨hx, hy, hz, hw⟩ := h
  simp [hexOf, hx, hy, hz, hw]

theorem Grouped.scan (h : Grouped n cs) (hd : d + 4 * n = 28) :
    isUuidTextFrom d b cs = true ∧ (hexOf cs).length = 4 * (n + 1) := by
  induction h generalizing d b with
  | last h =>
    rw [scan_four h, hexOf_four h]
    exact ⟨rfl, rfl⟩
  | more h hyphen _ ih =>
    rw [scan_four h, hexOf_four h]
    obtain ⟨hscan, hlength⟩ := ih (d := d + 4) (b := true) (by omega)
    rcases hyphen with rfl | rfl
    · exact ⟨(ih (by omega)).1, by omega⟩
    · rw [scan_hyphen (by omega) (by omega) (by omega), hexOf_cons_of_notMem _ hyphen_notMem]
      exact ⟨hscan, by omega⟩

/-- Inside a group and right after a hyphen, the scan takes a digit only. -/
theorem digit_of_scan (h : isUuidTextFrom d b cs = true) (hb : b = true ∨ d = 0 ∨ d % 4 ≠ 0)
    (hhex : 0 < (hexOf cs).length) :
    ∃ c rest, cs = c :: rest ∧ c ∈ hexDigits ∧ isUuidTextFrom (d + 1) false rest = true ∧
      (hexOf cs).length = (hexOf rest).length + 1 := by
  cases cs with
  | nil => cases hhex
  | cons c rest =>
    by_cases hc : c ∈ hexDigits
    · rw [scan_digit hc] at h
      exact ⟨c, rest, rfl, hc, h, congrArg _ (hexOf_cons_of_mem _ hc)⟩
    · rw [isUuidTextFrom, if_neg hc, if_neg (by grind)] at h
      cases h

/-- At the start of a group the scan takes four digits. -/
theorem four_of_scan (h : isUuidTextFrom d b cs = true) (hb : b = true ∨ d = 0) (hmod : d % 4 = 0)
    (hhex : 4 ≤ (hexOf cs).length) :
    ∃ x y z w rest, cs = x :: y :: z :: w :: rest ∧ Four x y z w := by
  obtain ⟨x, cs, rfl, hx, h, hl⟩ := digit_of_scan h (hb.imp_right .inl) (by omega)
  obtain ⟨y, cs, rfl, hy, h, hl'⟩ := digit_of_scan h (.inr (.inr (by omega))) (by omega)
  obtain ⟨z, cs, rfl, hz, h, hl''⟩ := digit_of_scan h (.inr (.inr (by omega))) (by omega)
  obtain ⟨w, cs, rfl, hw, -⟩ := digit_of_scan h (.inr (.inr (by omega))) (by omega)
  exact ⟨x, y, z, w, cs, rfl, hx, hy, hz, hw⟩

/-- A text that passes the scan is made of groups. -/
theorem grouped_of_scan (h : isUuidTextFrom d b cs = true) (hb : b = true ∨ d = 0)
    (hd : d + 4 * n = 28) (hhex : (hexOf cs).length = 4 * (n + 1)) : Grouped n cs := by
  induction n generalizing d b cs with
  | zero =>
    obtain ⟨_, _, _, _, rest, rfl, hfour⟩ := four_of_scan h hb (by omega) (by omega)
    rw [scan_four hfour] at h
    rw [hexOf_four hfour] at hhex
    cases rest with
    | nil => exact .last hfour
    | cons c =>
      -- a digit more would be the 33rd, and no hyphen is taken after the 32nd
      by_cases hc : c ∈ hexDigits
      · simp [hexOf_cons_of_mem _ hc] at hhex
      · rw [isUuidTextFrom, if_neg hc, if_neg (by omega)] at h
        cases h
  | succ _ ih =>
    obtain ⟨_, _, _, _, rest, rfl, hfour⟩ := four_of_scan h hb (by omega) (by omega)
    rw [scan_four hfour] at h
    rw [hexOf_four hfour] at hhex
    cases rest with
    | nil => exact absurd hhex (by rw [hexOf_nil, List.length_nil]; omega)
    | cons c =>
      by_cases hc : c ∈ hexDigits
      · rw [scan_digit hc, ← scan_digit (b := true) hc] at h
        exact .more hfour (.inl rfl) (ih h (.inl rfl) (by omega) (by omega))
      · rw [isUuidTextFrom, if_neg hc] at h
        split at h
        · rename_i hyphen
          rw [hexOf_cons_of_notMem _ hc] at hhex
          exact .more hfour (.inr (by rw [hyphen.1])) (ih h (.inl rfl) (by omega) (by omega))
        · cases h

theorem isUuidText_iff (s : String) : isUuidText s = true ↔ Grouped 7 s.toList := by
  simp only [isUuidText, Bool.and_eq_true, hex32]
  constructor
  · rintro ⟨hhex, hscan⟩
    refine grouped_of_scan hscan (.inr rfl) rfl ?_
    by_contra hlength
    simp [hlength] at hhex
  · intro h
    obtain ⟨hscan, hlength⟩ := h.scan (d := 0) (b := false) rfl
    simp [hlength, hscan]

end Scanner

section Reading

theorem readPairs_four {k i : Nat} (h : Four x y z w) (hi : i % 2 = 0) :
    readPairs (k + 2) i (x :: y :: z :: w :: cs) =
      (readPairs k (i + 2) (if cs.head? = some '-' ∧ i < 14 then cs.tail else cs)).map
        (fun p => (lowerDigit x :: lowerDigit y :: lowerDigit z :: lowerDigit w :: p.1, p.2)) := by
  obtain ⟨hx, hy, hz, hw⟩ := h
  have hodd : (i + 1) % 2 = 1 := by omega
  simp [readPairs, hx, hy, hz, hw, hi, hodd, Nat.succ_lt_succ_iff, Function.comp_def]

theorem Grouped.head (h : Grouped n cs) : ∃ c ∈ hexDigits, cs.head? = some c := by
  cases h with
  | last h => exact ⟨_, h.1, rfl⟩
  | more h => exact ⟨_, h.1, rfl⟩

/-- The database reads the groups. -/
theorem Grouped.reads {i : Nat} (h : Grouped n cs) (hi : i + 2 * n = 14) :
    ∃ ds, readPairs (2 * n + 2) i cs = some (ds, []) := by
  induction h generalizing i with
  | last h =>
    rw [readPairs_four h (by omega)]
    exact ⟨_, rfl⟩
  | more h hyphen rest ih =>
    obtain ⟨_, hread⟩ := ih (i := i + 2) (by omega)
    rw [readPairs_four h (by omega), Nat.mul_succ]
    rcases hyphen with rfl | rfl
    · obtain ⟨_, hc, hhead⟩ := rest.head
      rw [if_neg, hread]
      · exact ⟨_, rfl⟩
      · rintro ⟨hdash, -⟩
        exact hyphen_notMem (Option.some.inj (hhead.symm.trans hdash) ▸ hc)
    · rw [if_pos ⟨rfl, by omega⟩, List.tail_cons, hread]
      exact ⟨_, rfl⟩

theorem ofText_of_isUuidText (h : isUuidText s = true) : ∃ u, ofText s = some u := by
  have hgroups := (isUuidText_iff s).1 h
  obtain ⟨_, hread⟩ := hgroups.reads (i := 0) rfl
  obtain ⟨hlength, hlower, -⟩ := readPairs_spec hread
  unfold ofText
  split
  · rename_i cs hs
    rw [hs] at hgroups
    obtain ⟨_, hc, hhead⟩ := hgroups.head
    cases hhead
    exact absurd hc (by decide)
  · rw [hread]
    exact ⟨_, dif_pos ⟨hlength, by simpa using hlower⟩⟩

end Reading

/-- The spellings of one uuid have one lock in each module, and one normalisation in the wallet.
What the wallet accepts are 32 digits with at most one hyphen after each four of them but the
last; it denotes a uuid and is normalised to its digits. -/
theorem equal_uuids_share_lock (h : ofText s = some u) (h' : ofText s' = some u) :
    Storage.ownerLockKey s = Storage.ownerLockKey s' ∧
    Friends.requesterLockKey s = Friends.requesterLockKey s' ∧
    Groups.groupLockKey s = Groups.groupLockKey s' ∧
    Party.partyLockKey s = Party.partyLockKey s' ∧
    hex32 s = hex32 s' ∧
    ∀ id, (isUuidText id = true ↔ Grouped 7 id.toList) ∧
      (isUuidText id = true → ∃ v, ofText id = some v ∧ hex32 id = some v.digits) := by
  have hkey : ∀ space, uuidLockKey space s = uuidLockKey space s' :=
    fun space => (uuidLockKey_eq space h).trans (uuidLockKey_eq space h').symm
  refine ⟨hkey _, hkey _, hkey _, hkey _, ?_, fun id => ⟨isUuidText_iff id, fun hid => ?_⟩⟩
  · rw [hex32_of_ofText h, hex32_of_ofText h']
  · obtain ⟨v, hv⟩ := ofText_of_isUuidText hid
    exact ⟨v, hv, hex32_of_ofText hv⟩

theorem equal_uuids_share_lock_cases :
    Party.partyLockKey "aaAAaaAA-AAaa-aaAA-AAaa-aaaaaaAAAAAA" =
      Party.partyLockKey "AAAAAAAAAAAAAAAAAAAA-aaaaaaaaaaaa" :=
  (equal_uuids_share_lock (u := Uuid.filled 10) (by decide) (by decide)).2.2.2.1

end Swarog.Spellings
