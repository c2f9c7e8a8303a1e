import Mathlib

/-!
# The `uuid` type

A uuid is 32 hexadecimal digits.  `ofText` is the input function of the type: it
takes 16 pairs of digits in either case, an optional pair of braces around them
and, after every second pair but the last, an optional hyphen.  `text` is the
output function: lower case, in groups of 8, 4, 4, 4 and 12 digits.

Two spellings denote the same uuid exactly when their hexadecimal digits,
lower-cased, are the same (`hexOf_of_ofText`).
-/

namespace Swarog.Pg

open List Option

/-- The digits in canonical case. -/
def lowerDigits : List Char := "0123456789abcdef".toList

/-- The digits in either case. -/
def hexDigits : List Char := "0123456789abcdefABCDEF".toList

/-- The canonical case of a digit. -/
def lowerDigit : Char → Char
  | 'A' => 'a'
  | 'B' => 'b'
  | 'C' => 'c'
  | 'D' => 'd'
  | 'E' => 'e'
  | 'F' => 'f'
  | c => c

theorem lowerDigit_mem
    {c : Char}
    (h : c ∈ hexDigits) :
    lowerDigit c ∈ lowerDigits := by
  have hall : hexDigits.all (fun d => lowerDigit d ∈ lowerDigits) = true := by decide
  simpa using all_eq_true.1 hall c h

theorem lowerDigit_of_lower
    {c : Char}
    (h : c ∈ lowerDigits) :
    lowerDigit c = c ∧ c ∈ hexDigits := by
  have hall : lowerDigits.all (fun d => lowerDigit d = d ∧ d ∈ hexDigits) = true := by decide
  simpa using all_eq_true.1 hall c h

/-- The hexadecimal digits of a text in canonical case; everything else is
dropped. -/
def hexOf (cs : List Char) : List Char := (cs.filter (fun c => c ∈ hexDigits)).map lowerDigit

@[simp] theorem hexOf_nil :
    hexOf [] = [] := rfl

theorem hexOf_cons_of_mem
    {c : Char}
    (cs : List Char)
    (h : c ∈ hexDigits) :
    hexOf (c :: cs) = lowerDigit c :: hexOf cs := by
  simp [hexOf, h]

theorem hexOf_cons_of_notMem
    {c : Char}
    (cs : List Char)
    (h : c ∉ hexDigits) :
    hexOf (c :: cs) = hexOf cs := by
  simp [hexOf, h]

theorem hexOf_append (as bs : List Char) : hexOf (as ++ bs) = hexOf as ++ hexOf bs := by
  simp [hexOf]

theorem hexOf_of_lower
    {cs : List Char}
    (h : ∀ c ∈ cs, c ∈ lowerDigits) :
    hexOf cs = cs := by
  induction cs with
  | nil => rfl
  | cons c cs ih =>
    obtain ⟨hlow, hhex⟩ := lowerDigit_of_lower (h c mem_cons_self)
    rw [hexOf_cons_of_mem cs hhex, hlow, ih (fun d hd => h d (mem_cons_of_mem c hd))]

/-- A uuid. -/
structure Uuid where
  digits : List Char
  length_eq : digits.length = 32
  all_lower : digits.all (fun c => c ∈ lowerDigits) = true

namespace Uuid

/-- All 32 digits are the same. -/
def filled (n : Nat) : Uuid where
  digits := replicate 32 (lowerDigits.get (Fin.ofNat 16 n))
  length_eq := length_replicate
  all_lower := by generalize Fin.ofNat 16 n = i; revert i; decide

theorem lower (u : Uuid) : ∀ c ∈ u.digits, c ∈ lowerDigits := by
  intro c hc
  simpa using all_eq_true.1 u.all_lower c hc

theorem ext_digits {u v : Uuid} (h : u.digits = v.digits) : u = v := by
  cases u
  cases v
  simp only at h
  subst h
  rfl

instance : DecidableEq Uuid :=
  fun u v => decidable_of_iff (u.digits = v.digits)
    ⟨ext_digits, fun h => by rw [h]⟩

instance : LawfulBEq (Uuid × Uuid) := inferInstance

/-- The number a uuid stands for, which is how uuids are ordered. -/
def value (u : Uuid) : Nat := u.digits.foldl (fun n c => 16 * n + lowerDigits.idxOf c) 0

/-- Different uuids are different numbers. -/
theorem value_injective {u v : Uuid} (h : u.value = v.value) : u = v := by
  have hlists : ∀ ds es : List Char, ds.length = es.length →
      (∀ c ∈ ds, c ∈ lowerDigits) → (∀ c ∈ es, c ∈ lowerDigits) →
      ds.foldl (fun n c => 16 * n + lowerDigits.idxOf c) 0 =
        es.foldl (fun n c => 16 * n + lowerDigits.idxOf c) 0 →
      ds = es := by
    intro ds
    induction ds using List.reverseRecOn with
    | nil =>
      intro _ hlen _ _ _
      exact (length_eq_zero_iff.1 hlen.symm).symm
    | append_singleton ds c ih =>
      intro es
      induction es using List.reverseRecOn with
      | nil =>
        intro hlen
        simp at hlen
      | append_singleton es d =>
        intro hlen hds hes hval
        simp only [foldl_append, foldl_cons, foldl_nil] at hval
        have hc : c ∈ lowerDigits := hds c (by simp)
        have hd : d ∈ lowerDigits := hes d (by simp)
        have hclt : lowerDigits.idxOf c < 16 := idxOf_lt_length_of_mem hc
        have hdlt : lowerDigits.idxOf d < 16 := idxOf_lt_length_of_mem hd
        have hlast : c = d := (idxOf_inj hc).1 (by omega)
        have hinit : ds = es := by
          refine ih es (by simpa using hlen) (fun c hc => hds c (by simp [hc]))
            (fun c hc => hes c (by simp [hc])) ?_
          omega
        rw [hlast, hinit]
  exact ext_digits (hlists _ _ (by rw [u.length_eq, v.length_eq]) u.lower v.lower h)

/-- The uuid without a set bit. -/
def nil : Uuid where
  digits := List.replicate 32 '0'
  length_eq := by decide
  all_lower := by decide

/-- Read `n` pairs of digits, the first of them being pair number `i`. -/
def readPairs : Nat → Nat → List Char → Option (List Char × List Char)
  | 0, _, cs => some ([], cs)
  | n + 1, i, a :: b :: cs =>
    if a ∈ hexDigits ∧ b ∈ hexDigits then
      let rest := if cs.head? = some '-' ∧ i % 2 = 1 ∧ i < 15 then cs.tail else cs
      (readPairs n (i + 1) rest).map
        (fun p => (lowerDigit a :: lowerDigit b :: p.1, p.2))
    else
      none
  | _, _, _ => none

/-- What `readPairs` has read. -/
theorem readPairs_spec
    {n i : Nat}
    {cs ds rest : List Char}
    (h : readPairs n i cs = some (ds, rest)) :
    ds.length = 2 * n ∧ (∀ c ∈ ds, c ∈ lowerDigits) ∧ hexOf cs = ds ++ hexOf rest := by
  induction n generalizing i cs ds with
  | zero =>
    obtain ⟨rfl, rfl⟩ := h
    simp
  | succ _ ih =>
    cases cs with
    | nil => simp [readPairs] at h
    | cons a cs =>
      cases cs with
      | nil => simp [readPairs] at h
      | cons b cs =>
        by_cases hhex : a ∈ hexDigits ∧ b ∈ hexDigits
        · rw [readPairs, if_pos hhex, map_eq_some_iff] at h
          obtain ⟨⟨ds', rest'⟩, hread, heq⟩ := h
          obtain ⟨rfl, rfl⟩ := heq
          obtain ⟨hlen, hlow, hhexof⟩ := ih hread
          refine ⟨?_, ?_, ?_⟩
          · simp only [length_cons]
            omega
          · intro c hc
            simp only [mem_cons] at hc
            rcases hc with rfl | rfl | hc
            · exact lowerDigit_mem hhex.1
            · exact lowerDigit_mem hhex.2
            · exact hlow c hc
          · rw [hexOf_cons_of_mem _ hhex.1, hexOf_cons_of_mem _ hhex.2]
            have hskip : hexOf (if cs.head? = some '-' ∧ i % 2 = 1 ∧ i < 15 then cs.tail
                else cs) = hexOf cs := by
              split
              · rename_i hh
                cases cs with
                | nil => rfl
                | cons =>
                  simp only [List.head?_cons, some.injEq] at hh
                  rw [hh.1, hexOf_cons_of_notMem _ (by decide)]
                  rfl
              · rfl
            rw [← hskip, hhexof]
            rfl
        · rw [readPairs, if_neg hhex] at h
          cases h

/-- The uuid made of digits that were read. -/
def ofDigits (ds : List Char) : Option Uuid :=
  if h : ds.length = 32 ∧ ds.all (fun c => c ∈ lowerDigits) = true then
    some ⟨ds, h.1, h.2⟩
  else
    none

/-- The input function of the type. -/
def ofText (s : String) : Option Uuid :=
  match s.toList with
  | '{' :: cs =>
    match readPairs 16 0 cs with
    | some (ds, ['}']) => ofDigits ds
    | _ => none
  | cs =>
    match readPairs 16 0 cs with
    | some (ds, []) => ofDigits ds
    | _ => none

/-- The output function of the type. -/
def text (u : Uuid) : String :=
  String.ofList (u.digits.take 8 ++ '-' :: ((u.digits.drop 8).take 4 ++ '-' ::
    ((u.digits.drop 12).take 4 ++ '-' :: ((u.digits.drop 16).take 4 ++ '-' ::
      u.digits.drop 20))))

theorem digits_of_ofDigits
    {ds : List Char}
    {u : Uuid}
    (h : ofDigits ds = some u) :
    u.digits = ds := by
  unfold ofDigits at h
  split at h
  · simp only [some.injEq] at h
    subst h
    rfl
  · cases h

/-- A spelling that is read as `u` has the digits of `u`. -/
theorem hexOf_of_ofText
    {s : String}
    {u : Uuid}
    (h : ofText s = some u) :
    hexOf s.toList = u.digits := by
  unfold ofText at h
  split at h
  · rename_i cs hs
    split at h
    · rename_i ds hread
      obtain ⟨-, -, hhex⟩ := readPairs_spec hread
      rw [hs, hexOf_cons_of_notMem _ (by decide), hhex, digits_of_ofDigits h]
      simp [hexOf_cons_of_notMem [] (show '}' ∉ hexDigits by decide)]
    · cases h
  · split at h
    · rename_i ds hread
      obtain ⟨-, -, hhex⟩ := readPairs_spec hread
      rw [hhex, digits_of_ofDigits h]
      simp
    · cases h

/-- The canonical spelling has the digits of the uuid. -/
theorem hexOf_text (u : Uuid) : hexOf u.text.toList = u.digits := by
  have hpart : ∀ ds : List Char, (∀ c ∈ ds, c ∈ u.digits) → hexOf ds = ds :=
    fun ds hds => hexOf_of_lower (fun c hc => u.lower c (hds c hc))
  have htake : ∀ m n, hexOf ((u.digits.drop m).take n) = (u.digits.drop m).take n :=
    fun m n => hpart _ (fun c hc => mem_of_mem_drop (mem_of_mem_take hc))
  have hdash : ∀ cs, hexOf ('-' :: cs) = hexOf cs := fun cs => hexOf_cons_of_notMem cs (by decide)
  have hfirst : hexOf (u.digits.take 8) = u.digits.take 8 :=
    hpart _ (fun c hc => mem_of_mem_take hc)
  have hlast : hexOf (u.digits.drop 20) = u.digits.drop 20 :=
    hpart _ (fun c hc => mem_of_mem_drop hc)
  have hjoin : ∀ m n, (u.digits.drop m).take n ++ u.digits.drop (m + n) = u.digits.drop m := by
    intro _ _
    rw [← drop_drop, take_append_drop]
  rw [text, String.toList_ofList]
  simp only [hexOf_append, hdash, hfirst, htake, hlast]
  rw [hjoin 16 4, hjoin 12 4, hjoin 8 4, take_append_drop]

theorem text_injective {u v : Uuid} (h : u.text = v.text) : u = v := by
  have hd := hexOf_text u
  rw [h, hexOf_text] at hd
  exact ext_digits hd.symm

/-- A text that denotes a uuid. -/
structure Spelling where
  text : String
  id : Uuid
  reads : ofText text = some id
deriving DecidableEq

end Uuid
end Swarog.Pg
