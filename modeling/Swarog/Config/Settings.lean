import Swarog.FinMap

/-!
# Settings and forms

The settings of a process, the admin form that is rendered from them and the writes that a
submitted form stands for.  The writes are computed against the cached settings of the
process that handles the form: a field is written if its value differs from the cached one.

`plan_submitted`: carried out on the settings they were computed against, the writes give
what the form says.
-/

namespace Swarog.Config

open FinMap List Option

/-- A namespace and a key. -/
abbrev Key := String × String

abbrev Settings := FinMap Key String

/-- The values of a form. -/
abbrev Params := FinMap String String

section Settings

/-- A change of a row: its new value, or none if it is deleted. -/
abbrev Change := Key × Option String

def change (c : Change) (s : Settings) : Settings :=
  match c.2 with
  | some value => s.set c.1 value
  | none => s.remove c.1

def changeAll (cs : List Change) (s : Settings) : Settings := cs.foldl (fun s c => change c s) s

/-- The settings of a process, and the revision that they were read at. -/
structure CacheState where
  revision : Int
  map : Settings

namespace CacheState

def empty : CacheState := ⟨-1, FinMap.empty⟩

/-- A snapshot that is not newer is ignored. -/
def apply (revision : Int) (settings : Settings) (c : CacheState) : CacheState :=
  if revision ≤ c.revision then c else ⟨revision, settings⟩

def keyLe (a b : Key × String) : Prop :=
  a.1.1.toList < b.1.1.toList ∨ (a.1.1 = b.1.1 ∧ a.1.2.toList ≤ b.1.2.toList)

instance : DecidableRel keyLe := fun _ _ => inferInstanceAs (Decidable (_ ∨ _ ∧ _))

/-- The cached settings, sorted by namespace and key. -/
def all (c : CacheState) : List (Key × String) := c.map.entries.insertionSort keyLe

end CacheState

end Settings

section Forms

def fieldName (k : Key) : String := k.1 ++ ":" ++ k.2

/-- The form of a snapshot: a field for each setting, the fields of a new one, and the
revision. -/
def adminRender (c : CacheState) : Params :=
  let fields := c.all.foldl (fun form e => form.set (fieldName e.1) e.2) FinMap.empty
  (((fields.set "_new_namespace" "").set "_new_key" "").set "_new_value" "").set
    "_expected_revision" (toString c.revision)

inductive SubmitError
  | conflict
  | invalidNamespace (ns : String)
  | invalidKey (key : String)
  | database
deriving DecidableEq

def identChar (c : Char) : Bool := c.isLower || c.isDigit || c == '_'

def validIdent (s : String) : Bool := !s.toList.isEmpty && s.toList.all identChar

def validateIdent (k : Key) : Except SubmitError Unit :=
  if !validIdent k.1 then .error (.invalidNamespace k.1)
  else if !validIdent k.2 then .error (.invalidKey k.2)
  else .ok ()

def param (values : Params) (name : String) : String := (values.get name).getD ""

def readDigits : List Char → Nat → Option Nat
  | [], n => some n
  | c :: rest, n => if c.isDigit then readDigits rest (10 * n + (c.toNat - 48)) else none

/-- The number that is written in a text: an optional sign and digits, within 64 bits. -/
def parseI64 (s : String) : Option Int :=
  let signed (negative : Bool) (digits : List Char) : Option Int :=
    if digits = [] then none
    else
      ((readDigits digits 0).map (fun n => if negative then -(n : Int) else (n : Int))).filter
        (fun n => decide (-2 ^ 63 ≤ n) && decide (n < 2 ^ 63))
  match s.toList with
  | '-' :: digits => signed true digits
  | '+' :: digits => signed false digits
  | digits => signed false digits

/-- The revision that a form was rendered at. -/
def expectedRevision (values : Params) : Option Int :=
  (values.get "_expected_revision").bind parseI64

/-- The fields that differ from the cached settings. -/
def planFields (values : Params) : List (Key × String) → Except SubmitError (List Change)
  | [] => .ok []
  | (k, value) :: rest =>
    match values.get (fieldName k) with
    | none => planFields values rest
    | some v =>
      if v ≠ value then do
        validateIdent k
        let planned ← planFields values rest
        return (k, some v) :: planned
      else
        planFields values rest

/-- The setting that the form adds, if all three fields are filled in. -/
def newTriple (values : Params) : Option (Key × String) :=
  let ns := param values "_new_namespace"
  let key := param values "_new_key"
  let val := param values "_new_value"
  if ns ≠ "" ∧ key ≠ "" ∧ val ≠ "" then some ((ns, key), val) else none

/-- The writes of a form. -/
def plan (c : CacheState) (values : Params) : Except SubmitError (List Change) := do
  let fields ← planFields values c.all
  match newTriple values with
  | none => return fields
  | some (k, v) => do
    validateIdent k
    return fields ++ [(k, some v)]

/-- What the form says: every submitted field of a setting has its submitted value, and the
new setting is added. -/
def asSubmitted (s : Settings) (values : Params) (k : Key) : Option String :=
  match newTriple values with
  | some (new, v) =>
    if k = new then some v
    else (s.get k).map (fun value => (values.get (fieldName k)).getD value)
  | none => (s.get k).map (fun value => (values.get (fieldName k)).getD value)

end Forms

section Plans

variable {values : Params} {planned : List Change} {s : Settings} {c : CacheState}

theorem mem_all {e : Key × String} : e ∈ c.all ↔ c.map.get e.1 = some e.2 := by
  unfold CacheState.all
  rw [mem_insertionSort, get_eq_some]

theorem nodup_all : (c.all.map Prod.fst).Nodup :=
  ((perm_insertionSort CacheState.keyLe c.map.entries).map Prod.fst).nodup_iff.2 c.map.nodup

/-- The value of a setting after the fields of some settings were submitted. -/
def submitted (values : Params) (fields : List (Key × String)) (k : Key) (value : String) :
    String :=
  if k ∈ fields.map Prod.fst then (values.get (fieldName k)).getD value else value

/-- The planned writes, carried out where the fields have the values they were compared
with. -/
theorem planFields_get {fields : List (Key × String)}
    (hplan : planFields values fields = .ok planned) (hnodup : (fields.map Prod.fst).Nodup)
    (hs : ∀ e ∈ fields, s.get e.1 = some e.2) (k : Key) :
    (changeAll planned s).get k = (s.get k).map (submitted values fields k) := by
  induction fields generalizing planned s with
  | nil =>
    cases hplan
    show s.get k = (s.get k).map (submitted values [] k)
    cases s.get k <;> rfl
  | cons e rest ih =>
    obtain ⟨k₀, v₀⟩ := e
    obtain ⟨hnot, hrest⟩ := nodup_cons.1 hnodup
    have hk₀ : s.get k₀ = some v₀ := hs (k₀, v₀) mem_cons_self
    have hs' : ∀ e ∈ rest, s.get e.1 = some e.2 := fun e he => hs e (mem_cons_of_mem _ he)
    -- The settings other than the first one are submitted with the rest.
    have hother : k ≠ k₀ → submitted values ((k₀, v₀) :: rest) k = submitted values rest k := by
      intro hk
      funext value
      simp only [submitted, map_cons, mem_cons, hk, false_or]
    have hfirst : ∀ value, submitted values rest k₀ value = value := fun value => if_neg hnot
    have hself : ∀ value, submitted values ((k₀, v₀) :: rest) k₀ value =
        (values.get (fieldName k₀)).getD value := fun value => if_pos mem_cons_self
    -- Nothing is written for the first one, because its value is the submitted one.
    have hsame : (values.get (fieldName k₀)).getD v₀ = v₀ →
        planFields values rest = .ok planned →
        (changeAll planned s).get k = (s.get k).map (submitted values ((k₀, v₀) :: rest) k) := by
      intro hvalue hplan
      rw [ih hplan hrest hs']
      by_cases hk : k = k₀
      · subst hk
        rw [hk₀, map_some, map_some, hfirst, hself, hvalue]
      · rw [hother hk]
    unfold planFields at hplan
    cases hget : values.get (fieldName k₀) with
    | none =>
      rw [hget] at hplan hsame
      exact hsame rfl hplan
    | some v =>
      rw [hget] at hplan hsame
      by_cases hv : v = v₀
      · exact hsame hv (by simpa [hv] using hplan)
      · simp only [ne_eq, hv, not_false_eq_true, if_true] at hplan
        cases hvalid : validateIdent k₀ with
        | error =>
          rw [hvalid] at hplan
          cases hplan
        | ok =>
          rw [hvalid] at hplan
          cases hplanned : planFields values rest with
          | error =>
            rw [hplanned] at hplan
            cases hplan
          | ok planned' =>
            rw [hplanned] at hplan
            cases hplan
            show (changeAll planned' (s.set k₀ v)).get k = _
            rw [ih hplanned hrest]
            · by_cases hk : k = k₀
              · subst hk
                rw [get_set_self, hk₀, map_some, map_some, hfirst,
                  hself, hget, getD_some]
              · rw [get_set_of_ne _ hk, hother hk]
            · intro e he
              have hne : e.1 ≠ k₀ := by
                rintro rfl
                exact hnot (mem_map.2 ⟨e, he, rfl⟩)
              rw [get_set_of_ne _ hne]
              exact hs' e he

theorem changeAll_append (cs cs' : List Change) (s : Settings) :
    changeAll (cs ++ cs') s = changeAll cs' (changeAll cs s) :=
  foldl_append

/-- The writes of a form, carried out on the settings they were computed against, give what
the form says. -/
theorem plan_submitted (h : plan c values = .ok planned) (k : Key) :
    (changeAll planned c.map).get k = asSubmitted c.map values k := by
  unfold plan at h
  cases hfields : planFields values c.all with
  | error =>
    rw [hfields] at h
    cases h
  | ok fields =>
    rw [hfields] at h
    have hget : ∀ k, (changeAll fields c.map).get k =
        (c.map.get k).map (fun value => (values.get (fieldName k)).getD value) := by
      intro k
      rw [planFields_get hfields nodup_all (fun e he => mem_all.1 he)]
      cases hk : c.map.get k with
      | none => rfl
      | some value =>
        have hmem : k ∈ c.all.map Prod.fst :=
          mem_map_of_mem (mem_all.2 (show c.map.get (k, value).1 = _ from hk))
        simp only [map_some, submitted, if_pos hmem]
    unfold asSubmitted
    cases htriple : newTriple values with
    | none =>
      simp only [htriple] at h
      cases h
      exact hget k
    | some new =>
      obtain ⟨k₀, v⟩ := new
      simp only [htriple] at h
      cases hvalid : validateIdent k₀ with
      | error =>
        simp only [hvalid] at h
        cases h
      | ok =>
        simp only [hvalid] at h
        cases h
        rw [changeAll_append]
        show ((changeAll fields c.map).set k₀ v).get k = _
        by_cases hk : k = k₀
        · subst hk
          rw [get_set_self]
          exact (if_pos rfl).symm
        · rw [get_set_of_ne _ hk, hget]
          exact (if_neg hk).symm

end Plans

end Swarog.Config
