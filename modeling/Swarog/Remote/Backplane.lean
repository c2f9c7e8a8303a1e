import Swarog.Remote.Pool

/-!
# Batches of the push backplane

The drain encodes the messages it holds into as few calls as the byte budget allows.  The size of
the open chunk is tracked while it grows: a batch with the widest producer and sequence number
costs `batchHeaderMax`, each element its own encoding, and each element but the first a
separator.  A message that does not fit alone is counted as dropped and skipped.
-/

namespace Swarog.Remote

open List Option

section Encoding

variable {Envelope : Type} (encode : Envelope → Option Bytes)

def ascii (text : String) : Bytes := text.toList.map fun c => c.toNat.toUInt8

/-- The elements of a JSON array, each but the first after a comma. -/
def encodeElements (first : Bool) : List Envelope → Option Bytes
  | [] => some []
  | env :: rest => do
    let bytes ← encode env
    let others ← encodeElements false rest
    return (if first then [] else ascii ",") ++ bytes ++ others

/-- The text before the elements; `]}` follows them. -/
def batchHeader (producer seq : UInt64) : Bytes :=
  ascii ("\x7b\"producer\":" ++ producer.toNat.repr ++ ",\"seq\":" ++ seq.toNat.repr ++
    ",\"envelopes\":[")

def encodeBatch (producer seq : UInt64) (envelopes : List Envelope) : Option Bytes := do
  let elements ← encodeElements encode true envelopes
  return batchHeader producer seq ++ elements ++ ascii "]\x7d"

def batchHeaderMax : Nat := 75

def maxFrame : Nat := 16 * 2 ^ 20

def batchByteBudget : Nat := maxFrame - 1024

def u64Max : UInt64 := 18446744073709551615

/-- The encoded batch is within the budget. -/
def fitsFrame (producer seq : UInt64) (envelopes : List Envelope) : Bool :=
  (encodeBatch encode producer seq envelopes).any fun bytes => bytes.length ≤ batchByteBudget

end Encoding

section Splitting

variable {Envelope : Type} (encode : Envelope → Option Bytes)

def separatorLen (chunk : List Envelope) : Nat := if chunk.isEmpty then 0 else 1

/-- What the loop of `split_batch` carries, and the total of the dropped messages. -/
structure Splitting (Envelope : Type) where
  chunks : List (List Envelope)
  chunk : List Envelope
  chunkBytes : Nat
  drops : Nat

def splitBudget : Nat := batchByteBudget - batchHeaderMax

/-- The open chunk is closed if the next element does not fit. -/
def Splitting.close (s : Splitting Envelope) (size : Nat) : Splitting Envelope :=
  if s.chunkBytes + separatorLen s.chunk + size > splitBudget then
    { s with chunks := s.chunks ++ [s.chunk], chunk := [], chunkBytes := 0 }
  else s

def Splitting.push (s : Splitting Envelope) (size : Nat) (env : Envelope) : Splitting Envelope :=
  { s with chunkBytes := s.chunkBytes + separatorLen s.chunk + size, chunk := s.chunk ++ [env] }

def Splitting.take (s : Splitting Envelope) (env : Envelope) : Splitting Envelope :=
  match encodeBatch encode u64Max u64Max [env] with
  | none => { s with drops := s.drops + 1 }
  | some bytes =>
    let size := bytes.length - batchHeaderMax
    if size > splitBudget then { s with drops := s.drops + 1 }
    else (s.close size).push size env

/-- The chunks and the total of the dropped messages. -/
def splitBatch (batch : List Envelope) (drops : Nat) : List (List Envelope) × Nat :=
  let s := batch.foldl (Splitting.take encode) ⟨[], [], 0, drops⟩
  (if s.chunk.isEmpty then s.chunks else s.chunks ++ [s.chunk], s.drops)

end Splitting

section Sizes

variable {Envelope : Type} {encode : Envelope → Option Bytes} {chunk : List Envelope}
variable {env : Envelope} {size : Nat} {bytes : Bytes}

@[simp] theorem length_ascii (text : String) : (ascii text).length = text.length := by
  simp [ascii, String.length_toList]

theorem length_batchHeader_le (producer seq : UInt64) :
    (batchHeader producer seq).length + 2 ≤ batchHeaderMax := by
  have digits : ∀ n : UInt64, n.toNat.repr.length ≤ 20 := fun n =>
    Nat.repr_length n.toNat 20 (by decide) (lt_trans n.toNat_lt (by decide))
  have hproducer := digits producer
  have hseq := digits seq
  have : "\x7b\"producer\":".length + ",\"seq\":".length + ",\"envelopes\":[".length = 33 := by
    decide
  simp only [batchHeader, length_ascii, String.length_append, batchHeaderMax]
  omega

theorem length_batchHeader_max : (batchHeader u64Max u64Max).length + 2 = batchHeaderMax := by
  simp only [batchHeader, length_ascii]
  decide

theorem encodeElements_append (first : Bool) (chunk : List Envelope) (env : Envelope) :
    encodeElements encode first (chunk ++ [env]) = do
      let elements ← encodeElements encode first chunk
      let bytes ← encode env
      return elements ++ (if first && chunk.isEmpty then [] else ascii ",") ++ bytes := by
  induction chunk generalizing first with
  | nil => cases h : encode env <;> simp [encodeElements, h]
  | cons head rest ih =>
    simp only [cons_append, encodeElements, ih]
    cases encode head <;> cases encodeElements encode false rest <;> cases encode env <;> simp

/-- The elements of the chunk take that many bytes. -/
def Measures (encode : Envelope → Option Bytes) (chunk : List Envelope) (size : Nat) : Prop :=
  (encodeElements encode true chunk).map List.length = some size

theorem measures_nil : Measures encode [] 0 := by simp [Measures, encodeElements]

theorem Measures.append (h : Measures encode chunk size) (henv : encode env = some bytes) :
    Measures encode (chunk ++ [env]) (size + separatorLen chunk + bytes.length) := by
  obtain ⟨_, he, rfl⟩ := map_eq_some_iff.1 h
  have : ",".length = 1 := by decide
  simp only [Measures, encodeElements_append, he, henv, separatorLen, Bool.true_and]
  cases chunk.isEmpty <;> simp [this]
  omega

/-- A batch is its header, its elements and the two closing brackets. -/
theorem Measures.encodeBatch (h : Measures encode chunk size) (producer seq : UInt64) :
    ∃ batch, encodeBatch encode producer seq chunk = some batch ∧
      batch.length = (batchHeader producer seq).length + 2 + size := by
  obtain ⟨_, he, rfl⟩ := map_eq_some_iff.1 h
  have : "]\x7d".length = 2 := by decide
  refine ⟨_, by rw [Remote.encodeBatch, he]; rfl, ?_⟩
  simp only [length_append, length_ascii]
  omega

theorem splitBudget_add : splitBudget + batchHeaderMax = batchByteBudget := by decide

theorem Measures.fitsFrame (h : Measures encode chunk size) (hle : size ≤ splitBudget)
    (producer seq : UInt64) : fitsFrame encode producer seq chunk = true := by
  obtain ⟨batch, hb, hlen⟩ := h.encodeBatch producer seq
  have := length_batchHeader_le producer seq
  have := splitBudget_add
  simp only [Remote.fitsFrame, hb, any_some, decide_eq_true_eq]
  omega

end Sizes

section Loop

variable {Envelope : Type} {encode : Envelope → Option Bytes} {chunk seen : List Envelope}
variable {env : Envelope} {size drops : Nat} {bytes : Bytes} {s : Splitting Envelope}

/-- The envelope is within the budget without company. -/
def fitsAlone (encode : Envelope → Option Bytes) (env : Envelope) : Bool :=
  fitsFrame encode u64Max u64Max [env]

theorem take_cases (encode : Envelope → Option Bytes) (s : Splitting Envelope) (env : Envelope) :
    (fitsAlone encode env = false ∧ s.take encode env = { s with drops := s.drops + 1 }) ∨
    ∃ bytes, encode env = some bytes ∧ bytes.length ≤ splitBudget ∧ fitsAlone encode env = true ∧
      s.take encode env = (s.close bytes.length).push bytes.length env := by
  have hmax := length_batchHeader_max
  have hbudget := splitBudget_add
  cases h : encode env with
  | none => simp [fitsAlone, fitsFrame, Splitting.take, encodeElements, encodeBatch, h]
  | some bytes =>
    obtain ⟨batch, hb, hlen⟩ := (measures_nil.append h).encodeBatch u64Max u64Max
    replace hb : encodeBatch encode u64Max u64Max [env] = some batch := hb
    replace hlen : batch.length - batchHeaderMax = bytes.length := by
      simp only [separatorLen, isEmpty_nil, if_true] at hlen
      omega
    by_cases hsize : bytes.length ≤ splitBudget
    · refine .inr ⟨bytes, rfl, hsize, (measures_nil.append h).fitsFrame ?_ _ _, ?_⟩
      · simpa [separatorLen] using hsize
      · simp [Splitting.take, hb, hlen, hsize]
    · refine .inl ⟨?_, ?_⟩
      · simp only [fitsAlone, fitsFrame, hb, any_some, decide_eq_false_iff_not]
        omega
      · simp [Splitting.take, hb, hlen, Nat.lt_of_not_le hsize]

/-- The next chunk starts with an envelope that the chunk before it could not take. -/
def Overfull (encode : Envelope → Option Bytes) (chunk next : List Envelope) : Prop :=
  ∃ env bytes, next.head? = some env ∧
    encodeBatch encode u64Max u64Max (chunk ++ [env]) = some bytes ∧ batchByteBudget < bytes.length

/-- What the loop keeps of the envelopes it has seen. -/
structure Splitting.Sound (encode : Envelope → Option Bytes) (drops : Nat) (seen : List Envelope)
    (s : Splitting Envelope) : Prop where
  kept : s.chunks.flatten ++ s.chunk = seen.filter (fitsAlone encode)
  counted : s.drops = drops + seen.countP fun env => !fitsAlone encode env
  closed : ∀ chunk ∈ s.chunks, chunk ≠ [] ∧ ∃ size ≤ splitBudget, Measures encode chunk size
  opened : Measures encode s.chunk s.chunkBytes
  within : s.chunkBytes ≤ splitBudget
  first : s.chunk = [] → s.chunks = []
  tight : (s.chunks ++ [s.chunk]).IsChain (Overfull encode)

theorem Measures.overfull (h : Measures encode chunk size) (henv : encode env = some bytes)
    (hover : splitBudget < size + separatorLen chunk + bytes.length) :
    Overfull encode chunk [env] := by
  have hmax := length_batchHeader_max
  have hbudget := splitBudget_add
  obtain ⟨batch, hb, hlen⟩ := (h.append henv).encodeBatch u64Max u64Max
  exact ⟨env, batch, rfl, hb, by omega⟩

theorem Splitting.Sound.push_close (h : s.Sound encode drops seen)
    (henv : encode env = some bytes) (hsize : bytes.length ≤ splitBudget)
    (hfits : fitsAlone encode env = true) :
    ((s.close bytes.length).push bytes.length env).Sound encode drops (seen ++ [env]) := by
  have hkept : s.chunks.flatten ++ s.chunk ++ [env] =
      (seen ++ [env]).filter (fitsAlone encode) := by
    simp [h.kept, hfits]
  have hcounted : s.drops = drops + (seen ++ [env]).countP fun env => !fitsAlone encode env := by
    simp [h.counted, hfits]
  by_cases hover : s.chunkBytes + separatorLen s.chunk + bytes.length > splitBudget
  · -- the open chunk holds something, since the envelope alone is within the budget
    have hne : s.chunk ≠ [] := by
      intro hnil
      have hb := h.opened
      rw [hnil] at hb
      have : s.chunkBytes = 0 := by simpa [Measures, encodeElements] using hb.symm
      simp only [hnil, separatorLen, isEmpty_nil, if_true] at hover
      omega
    have hclose : s.close bytes.length =
        { s with chunks := s.chunks ++ [s.chunk], chunk := [], chunkBytes := 0 } := if_pos hover
    rw [hclose]
    refine ⟨by simpa [Splitting.push] using hkept, hcounted, ?_, measures_nil.append henv,
      by simpa [Splitting.push, separatorLen] using hsize, by simp [Splitting.push], ?_⟩
    · intro chunk hmem
      rcases mem_append.1 hmem with hmem | hmem
      · exact h.closed chunk hmem
      · rw [mem_singleton.1 hmem]
        exact ⟨hne, s.chunkBytes, h.within, h.opened⟩
    · refine isChain_append.2 ⟨h.tight, isChain_singleton _, ?_⟩
      simpa [Splitting.push] using h.opened.overfull henv hover
  · have hclose : s.close bytes.length = s := if_neg hover
    rw [hclose]
    refine ⟨by simpa [Splitting.push] using hkept, hcounted, h.closed, h.opened.append henv,
      Nat.le_of_not_lt hover, by simp [Splitting.push], ?_⟩
    by_cases hnil : s.chunk = []
    · simp [Splitting.push, h.first hnil]
    · obtain ⟨hchain, -, hlast⟩ := isChain_append.1 h.tight
      refine isChain_append.2 ⟨hchain, isChain_singleton _, ?_⟩
      intro chunk hchunk _ hnext
      cases hnext
      obtain ⟨env', bytes', hhead, hover'⟩ := hlast chunk hchunk _ rfl
      exact ⟨env', bytes', by simp [Splitting.push, List.head?_append, hhead], hover'⟩

theorem Splitting.Sound.take (h : s.Sound encode drops seen) (env : Envelope) :
    (s.take encode env).Sound encode drops (seen ++ [env]) := by
  rcases take_cases encode s env with ⟨hfits, heq⟩ | ⟨_, henv, hsize, hfits, heq⟩
  · rw [heq]
    refine ⟨by simp [h.kept, hfits], ?_, h.closed, h.opened, h.within, h.first, h.tight⟩
    simp only [h.counted, countP_append, countP_singleton, hfits]
    rfl
  · rw [heq]
    exact h.push_close henv hsize hfits

theorem sound_foldl (rest : List Envelope) (h : s.Sound encode drops seen) :
    (rest.foldl (Splitting.take encode) s).Sound encode drops (seen ++ rest) := by
  induction rest generalizing s seen with
  | nil => simpa using h
  | cons env _ ih => simpa using ih (h.take env)

/-- The chunks are the batch without the envelopes that do not fit alone, each within the budget
under every stamp, and none could have taken the first envelope of the next. -/
theorem splitBatch_fits_and_keeps (encode : Envelope → Option Bytes) (batch : List Envelope)
    (drops : Nat) :
    (splitBatch encode batch drops).1.flatten = batch.filter (fitsAlone encode) ∧
    (splitBatch encode batch drops).2 = drops + batch.countP (fun env => !fitsAlone encode env) ∧
    (∀ chunk ∈ (splitBatch encode batch drops).1, chunk ≠ [] ∧
      ∀ producer seq, fitsFrame encode producer seq chunk = true) ∧
    (splitBatch encode batch drops).1.IsChain (Overfull encode) := by
  have hstart : Splitting.Sound encode drops [] ⟨[], [], 0, drops⟩ := by
    constructor <;> simp [Measures, encodeElements]
  have h := sound_foldl batch hstart
  simp only [splitBatch]
  generalize batch.foldl _ _ = s at h
  rw [nil_append] at h
  have hclosed : ∀ chunk ∈ s.chunks, chunk ≠ [] ∧
      ∀ producer seq, fitsFrame encode producer seq chunk = true := by
    intro chunk hmem
    obtain ⟨hne, _, hle, hsize⟩ := h.closed chunk hmem
    exact ⟨hne, hsize.fitsFrame hle⟩
  by_cases hnil : s.chunk = []
  · have hkept := h.kept
    rw [hnil, append_nil] at hkept
    simp only [hnil, isEmpty_nil, if_true]
    exact ⟨hkept, h.counted, hclosed, (isChain_append.1 h.tight).1⟩
  · simp only [List.isEmpty_iff, hnil, if_false]
    refine ⟨by simpa using h.kept, h.counted, ?_, h.tight⟩
    intro chunk hmem
    rcases mem_append.1 hmem with hmem | hmem
    · exact hclosed chunk hmem
    · rw [mem_singleton.1 hmem]
      exact ⟨hnil, h.opened.fitsFrame h.within⟩

end Loop

end Swarog.Remote
