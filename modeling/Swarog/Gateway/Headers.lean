import Swarog.Net.Ip
import Swarog.Net.Url

/-!
# The headers of a proxied request

`forward` sends the headers of a request on to the origin without those that belong to the
connection: the names on `HOP_BY_HOP` and the names that a `Connection` line lists.  It
writes the trace of addresses, `X-Forwarded-For`, anew: the chain of the request with the
direct peer at its end.

A header may have several lines, and their lists read as one.  `build_xff` reads only the
first line of the chain, and `insert` then puts its value in the place of all of them.  The
addresses of further lines are lost (`xff_lines_lost`).
-/

namespace Swarog.Gateway

open Net

section Model

/-- `to_ascii_lowercase` -/
def toAsciiLowercase (text : Text) : Text := text.map Char.toLower

/-- The name of a header, in lower case as `http` keeps it. -/
@[ext] structure HeaderName where
  text : Text
  nonempty : text ≠ []
  lower : toAsciiLowercase text = text
deriving DecidableEq

/-- The lines of a message.  The order counts among lines of one name only. -/
abbrev HeaderMap := List (HeaderName × Text)

namespace HeaderMap

def getAll (headers : HeaderMap) (name : HeaderName) : List Text :=
  (headers.filter (fun line => line.1 = name)).map Prod.snd

def get (headers : HeaderMap) (name : HeaderName) : Option Text := (headers.getAll name).head?

/-- A text in lower case; one that is no name of a header removes nothing. -/
def remove (headers : HeaderMap) (name : Text) : HeaderMap :=
  headers.filter (fun line => line.1.text ≠ name)

/-- The value takes the place of all lines of the name. -/
def insert (headers : HeaderMap) (name : HeaderName) (value : Text) : HeaderMap :=
  headers.remove name.text ++ [(name, value)]

end HeaderMap

/-- The characters of a value that `to_str` reads. -/
def isVisible (c : Char) : Bool := (32 ≤ c.toNat && c.toNat < 127) || c == '\t'

/-- `HeaderValue::to_str` -/
def toStr (value : Text) : Option Text := if value.all isVisible then some value else none

/-- The characters that a value may hold. -/
def isValid (c : Char) : Bool := (32 ≤ c.toNat && c.toNat != 127) || c == '\t'

/-- `HeaderValue::from_str` -/
def fromStr (text : Text) : Option Text := if text.all isValid then some text else none

def connection : HeaderName := ⟨"connection".toList, by decide, by decide⟩

def xForwardedFor : HeaderName := ⟨"x-forwarded-for".toList, by decide, by decide⟩

def hopByHop : List Text :=
  ["connection", "keep-alive", "proxy-authenticate", "proxy-authorization", "te", "trailer",
    "transfer-encoding", "upgrade", "host"].map String.toList

/-- The tokens of the `Connection` lines. -/
def named (headers : HeaderMap) : List Text :=
  ((((headers.getAll connection).filterMap toStr).flatMap (splitText ',')).map
    (fun tok => toAsciiLowercase (trim tok))).filter (fun tok => !tok.isEmpty)

def stripHopByHop (headers : HeaderMap) : HeaderMap :=
  hopByHop.foldl HeaderMap.remove ((named headers).foldl HeaderMap.remove headers)

/-- The characters of a printed address: digits, also to the base 16, colons and dots. -/
def inAddress (c : Char) : Bool :=
  (48 ≤ c.toNat && c.toNat ≤ 58) || (97 ≤ c.toNat && c.toNat ≤ 102) || c.toNat == 46

/-- The address of the direct peer, as `IpAddr` prints it. -/
structure PeerIp where
  text : Text
  plain : text.all inAddress = true

def buildXff (headers : HeaderMap) (peer : Option PeerIp) : Option Text :=
  match (headers.get xForwardedFor).bind toStr, peer with
  | some chain, some ip => fromStr (chain ++ ", ".toList ++ ip.text)
  | some chain, none => fromStr chain
  | none, some ip => fromStr ip.text
  | none, none => none

/-- The headers that `forward` sends to the origin. -/
def forwardHeaders (headers : HeaderMap) (peer : Option PeerIp) : HeaderMap :=
  match buildXff headers peer with
  | some xff => (stripHopByHop headers).insert xForwardedFor xff
  | none => stripHopByHop headers

end Model

section Reading

/-- The entries of a list in a header line. -/
def listEntries (value : Text) : List Text := (splitText ',' value).map trim

/-- The trace of addresses, read across all lines in order. -/
def trace (headers : HeaderMap) : List Text := (headers.getAll xForwardedFor).flatMap listEntries

/-- A `Connection` line names the header. -/
def Scoped (headers : HeaderMap) (name : HeaderName) : Prop :=
  ∃ value ∈ headers.getAll connection, ∃ tok ∈ listEntries value, toAsciiLowercase tok = name.text

/-- All values are of visible characters. -/
def Visible (headers : HeaderMap) : Prop := ∀ line ∈ headers, line.2.all isVisible = true

instance (headers : HeaderMap) : Decidable (Visible headers) :=
  inferInstanceAs (Decidable (∀ line ∈ headers, _))

end Reading

section Lines

variable {headers : HeaderMap} {name : HeaderName}

theorem getAll_remove (headers : HeaderMap) (name : HeaderName) (text : Text) :
    (headers.remove text).getAll name = if name.text = text then [] else headers.getAll name := by
  unfold HeaderMap.remove HeaderMap.getAll
  rw [List.filter_filter]
  split
  · rename_i htext
    rw [List.map_eq_nil_iff, List.filter_eq_nil_iff]
    rintro _ - hline
    simp only [ne_eq, decide_not, Bool.and_eq_true, decide_eq_true_eq, Bool.not_eq_true',
      decide_eq_false_iff_not] at hline
    exact hline.2 (hline.1 ▸ htext)
  · rename_i htext
    congr 1
    refine List.filter_congr (fun line _ => ?_)
    by_cases hname : line.1 = name
    · simp [hname, htext]
    · simp [hname]

/-- Removing names one after the other leaves the lines of the other names. -/
theorem getAll_foldl_remove (texts : List Text) (headers : HeaderMap) (name : HeaderName) :
    (texts.foldl HeaderMap.remove headers).getAll name =
      if name.text ∈ texts then [] else headers.getAll name := by
  induction texts generalizing headers with
  | nil => simp
  | cons text _ ih =>
    rw [List.foldl_cons, ih, getAll_remove]
    by_cases htext : name.text = text
    · simp [htext]
    · simp [htext]

@[simp] theorem getAll_insert_self (headers : HeaderMap) (name : HeaderName) (value : Text) :
    (headers.insert name value).getAll name = [value] := by
  have hnone := getAll_remove headers name name.text
  rw [if_pos rfl] at hnone
  unfold HeaderMap.getAll at hnone
  simp [HeaderMap.insert, HeaderMap.getAll, hnone]

theorem getAll_insert_of_ne {name' : HeaderName} (hname : name' ≠ name) (value : Text) :
    (headers.insert name value).getAll name' = headers.getAll name' := by
  have hother := getAll_remove headers name' name.text
  rw [if_neg (fun htext => hname (HeaderName.ext htext))] at hother
  rw [← hother]
  simp [HeaderMap.insert, HeaderMap.getAll, Ne.symm hname]

theorem Visible.getAll (h : Visible headers) {value : Text}
    (hvalue : value ∈ headers.getAll name) : value.all isVisible = true := by
  obtain ⟨line, hline, rfl⟩ := List.mem_map.1 hvalue
  exact h line (List.mem_of_mem_filter hline)

/-- The code's list of names holds the names that the `Connection` lines list. -/
theorem mem_named (h : Visible headers) : name.text ∈ named headers ↔ Scoped headers name := by
  have hread : (headers.getAll connection).filterMap toStr = headers.getAll connection := by
    rw [List.filterMap_congr (g := some), List.filterMap_some]
    intro _ hvalue
    rw [toStr, if_pos (h.getAll hvalue)]
  have hname : name.text.isEmpty = false := by simp [name.nonempty]
  simp only [named, hread, List.mem_filter, List.mem_map, List.mem_flatMap, hname, Scoped,
    listEntries, Bool.not_false, and_true]
  constructor
  · rintro ⟨tok, ⟨value, hvalue, htok⟩, heq⟩
    exact ⟨value, hvalue, trim tok, ⟨tok, htok, rfl⟩, heq⟩
  · rintro ⟨value, hvalue, -, ⟨tok, htok, rfl⟩, heq⟩
    exact ⟨tok, ⟨value, hvalue, htok⟩, heq⟩

theorem getAll_stripHopByHop (h : Visible headers) :
    (name.text ∈ hopByHop ∨ Scoped headers name → (stripHopByHop headers).getAll name = []) ∧
      (¬ (name.text ∈ hopByHop ∨ Scoped headers name) →
        (stripHopByHop headers).getAll name = headers.getAll name) := by
  rw [← mem_named h, stripHopByHop, getAll_foldl_remove, getAll_foldl_remove]
  constructor
  · rintro (hhop | hnamed)
    · rw [if_pos hhop]
    · rw [if_pos hnamed, ite_self]
  · intro hnot
    rw [if_neg (fun hhop => hnot (.inl hhop)), if_neg (fun hnamed => hnot (.inr hnamed))]

end Lines

section Trace

variable {headers : HeaderMap}

theorem isValid_of_isVisible {c : Char} (h : isVisible c = true) : isValid c = true := by
  simp only [isVisible, isValid, Bool.or_eq_true, Bool.and_eq_true, decide_eq_true_eq,
    bne_iff_ne] at h ⊢
  rcases h with ⟨hmin, hmax⟩ | htab
  · exact .inl ⟨hmin, by omega⟩
  · exact .inr htab

theorem fromStr_of_visible {text : Text} (h : ∀ c ∈ text, isVisible c = true) :
    fromStr text = some text := by
  rw [fromStr, if_pos]
  exact List.all_eq_true.2 (fun c hc => isValid_of_isVisible (h c hc))

theorem PeerIp.reads (ip : PeerIp) {c : Char} (hc : c ∈ ip.text) :
    isVisible c = true ∧ isWhiteSpace c = false ∧ c ≠ ',' := by
  have h := List.all_eq_true.1 ip.plain c hc
  simp only [inAddress, Bool.or_eq_true, Bool.and_eq_true, decide_eq_true_eq, beq_iff_eq] at h
  refine ⟨?_, ?_, ?_⟩
  · simp only [isVisible, Bool.or_eq_true, Bool.and_eq_true, decide_eq_true_eq]
    omega
  · simp only [isWhiteSpace, Bool.or_eq_false_iff, Bool.and_eq_false_iff, decide_eq_false_iff_not,
      beq_eq_false_iff_ne]
    omega
  · rintro rfl
    simp at h

theorem dropWhile_whiteSpace {text : Text} (h : ∀ c ∈ text, isWhiteSpace c = false) :
    text.dropWhile isWhiteSpace = text := by
  cases text with
  | nil => rfl
  | cons c => simp [h c List.mem_cons_self]

theorem trim_ip (ip : PeerIp) : trim ip.text = ip.text := by
  have hplain : ∀ c ∈ ip.text, isWhiteSpace c = false := fun c hc => (ip.reads hc).2.1
  rw [trim, dropWhile_whiteSpace hplain, dropWhile_whiteSpace, List.reverse_reverse]
  exact fun c hc => hplain c (List.mem_reverse.1 hc)

theorem splitText_ip (text : Text) (ip : PeerIp) (h : ∀ c ∈ text, c ≠ ',') :
    splitText ',' (text ++ ip.text) = [text ++ ip.text] := by
  refine List.splitOnP_eq_singleton (fun c hc => ?_)
  rcases List.mem_append.1 hc with hc | hc
  · simp [h c hc]
  · simp [(ip.reads hc).2.2]

theorem listEntries_ip (ip : PeerIp) : listEntries ip.text = [ip.text] := by
  have hsplit := splitText_ip [] ip (by simp)
  rw [List.nil_append] at hsplit
  rw [listEntries, hsplit, List.map_singleton, trim_ip]

/-- A list ends with the address that is put behind it. -/
theorem listEntries_append (chain : Text) (ip : PeerIp) :
    listEntries (chain ++ ", ".toList ++ ip.text) = listEntries chain ++ [ip.text] := by
  have hsplit : splitText ',' (' ' :: ip.text) = [' ' :: ip.text] := splitText_ip [' '] ip (by simp)
  have htrim : trim (' ' :: ip.text) = trim ip.text := by simp [trim, isWhiteSpace]
  have happ : chain ++ ", ".toList ++ ip.text = chain ++ ',' :: ' ' :: ip.text := by simp
  rw [listEntries, happ, splitText_append, hsplit, List.map_append, List.map_singleton, htrim,
    trim_ip]
  rfl

theorem listEntries_ne_nil (value : Text) : listEntries value ≠ [] := by
  simp [listEntries, splitText, List.splitOnP_ne_nil]

/-- The new line is the first line of the chain, if there is one, and the peer. -/
theorem buildXff_eq (ip : PeerIp) (h : Visible headers) :
    ∃ xff, buildXff headers (some ip) = some xff ∧
      listEntries xff =
        ((headers.getAll xForwardedFor).take 1).flatMap listEntries ++ [ip.text] := by
  have hip : ∀ c ∈ ip.text, isVisible c = true := fun c hc => (ip.reads hc).1
  have hcomma : ∀ c ∈ ", ".toList, isVisible c = true := List.all_eq_true.1 (by decide)
  unfold buildXff HeaderMap.get
  cases hlines : headers.getAll xForwardedFor with
  | nil => exact ⟨ip.text, fromStr_of_visible hip, listEntries_ip ip⟩
  | cons chain =>
    have hchain : chain.all isVisible = true := h.getAll (hlines ▸ List.mem_cons_self)
    refine ⟨chain ++ ", ".toList ++ ip.text, ?_, ?_⟩
    · simp only [List.head?_cons, Option.bind_some, toStr, hchain, if_true]
      refine fromStr_of_visible (fun c hc => ?_)
      rcases List.mem_append.1 hc with hc | hc
      · rcases List.mem_append.1 hc with hc | hc
        · exact List.all_eq_true.1 hchain c hc
        · exact hcomma c hc
      · exact hip c hc
    · rw [listEntries_append, List.take_one, List.head?_cons, Option.toList_some,
        List.flatMap_singleton]

/-- A line has at least one entry, so no further line can be left out of a trace. -/
theorem flatMap_take_one
    (lines : List Text) :
    (lines.take 1).flatMap listEntries = lines.flatMap listEntries
      ↔
    lines.length ≤ 1 := by
  rcases lines with _ | ⟨chain, _ | ⟨line, lines⟩⟩
  · simp
  · simp
  · simp [listEntries_ne_nil]

end Trace

section Result

/-- The origin reads the chain of the request with the peer behind it exactly if the chain is
on at most one line.  The headers of the connection are taken out, and all others are kept. -/
theorem forwardHeaders_keeps_trace
    (headers : HeaderMap)
    (peer : PeerIp)
    (hvisible : Visible headers) :
    (trace (forwardHeaders headers (some peer)) = trace headers ++ [peer.text]
        ↔
      (headers.getAll xForwardedFor).length ≤ 1) ∧
      ∀ name, name ≠ xForwardedFor →
        (name.text ∈ hopByHop ∨ Scoped headers name →
          (forwardHeaders headers (some peer)).getAll name = []) ∧
        (¬ (name.text ∈ hopByHop ∨ Scoped headers name) →
          (forwardHeaders headers (some peer)).getAll name = headers.getAll name) := by
  obtain ⟨_, hxff, hentries⟩ := buildXff_eq peer hvisible
  simp only [forwardHeaders, hxff]
  constructor
  · rw [trace, getAll_insert_self, List.flatMap_singleton, hentries, List.append_cancel_right_eq]
    exact flatMap_take_one _
  · intro _ hname
    rw [getAll_insert_of_ne hname]
    exact getAll_stripHopByHop hvisible

def accept : HeaderName := ⟨"accept".toList, by decide, by decide⟩

/-- The proxy at `10.0.0.1`. -/
def directPeer : PeerIp := ⟨"10.0.0.1".toList, by decide⟩

/-- A request with one line of the chain. -/
def oneLine : HeaderMap :=
  [(connection, "Close, Accept".toList), (accept, "*/*".toList),
    (xForwardedFor, "203.0.113.7".toList)]

theorem forwardHeaders_one_line :
    trace (forwardHeaders oneLine (some directPeer)) = ["203.0.113.7".toList, directPeer.text] ∧
      (forwardHeaders oneLine (some directPeer)).getAll accept = [] := by
  obtain ⟨htrace, hothers⟩ :=
    forwardHeaders_keeps_trace oneLine directPeer (by decide +kernel)
  refine ⟨(htrace.2 (by decide +kernel)).trans (by decide +kernel),
    (hothers accept (by decide +kernel)).1 (.inr ?_)⟩
  exact ⟨"Close, Accept".toList, by decide +kernel, "Accept".toList, by decide +kernel,
    by decide +kernel⟩

/-- A request with two lines of the chain. -/
def twoLines : HeaderMap :=
  [(xForwardedFor, "203.0.113.7".toList), (xForwardedFor, "198.51.100.9".toList)]

/-- The address on the second line does not reach the origin. -/
theorem xff_lines_lost :
    Visible twoLines ∧
      trace twoLines = ["203.0.113.7".toList, "198.51.100.9".toList] ∧
      trace (forwardHeaders twoLines (some directPeer)) =
        ["203.0.113.7".toList, directPeer.text] := by
  decide +kernel

end Result

end Swarog.Gateway
