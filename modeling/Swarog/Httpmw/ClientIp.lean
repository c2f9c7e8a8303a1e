import Swarog.Net.Ip

/-!
# The address of a client

`client_ip` believes the header `X-Forwarded-For` of a trusted proxy only, and walks it
from the right to the first address that is not one of a trusted proxy.  An entry that
is no address is skipped, so that the walk goes on into what the client has sent.
-/

namespace Swarog.Httpmw

open Net

section Resolution

def isTrusted (ip : IpAddr) (trusted : List IpNet) : Bool :=
  trusted.any (fun net => net.contains ip)

/-- The entries of a header. -/
def entries (header : String) : List (List Char) := splitText ',' header.toList

/-- The walk over entries, from the one that was appended last. -/
def firstUntrusted (trusted : List IpNet) : List (List Char) → Option IpAddr
  | [] => none
  | hop :: rest =>
    let hop := trim hop
    if hop = [] then
      firstUntrusted trusted rest
    else
      match parseIp hop with
      | some ip => if isTrusted ip trusted then firstUntrusted trusted rest else some ip
      | none => firstUntrusted trusted rest

def clientIp (remote : IpAddr) (xff xRealIp : Option String) (trusted : List IpNet) : IpAddr :=
  if isTrusted remote trusted then
    match xff.bind (fun header => firstUntrusted trusted (entries header).reverse) with
    | some ip => ip
    | none =>
      match xRealIp.bind (fun header => parseIp (trim header.toList)) with
      | some ip => ip
      | none => remote
  else
    remote

end Resolution

section Walk

variable {trusted : List IpNet} {hops hops' : List (List Char)} {hop : List Char} {ip : IpAddr}

/-- The entry is an address that is not one of a trusted proxy. -/
def IsClient (trusted : List IpNet) (hop : List Char) : Prop :=
  ∃ ip, parseIp (trim hop) = some ip ∧ isTrusted ip trusted = false

/-- The blank text is no address. -/
theorem parseIp_nil : parseIp [] = none := by decide +kernel

/-- The walk does not go beyond an address of a client. -/
theorem firstUntrusted_append (h : ∃ hop ∈ hops, IsClient trusted hop) :
    ∃ ip, ∀ hops', firstUntrusted trusted (hops ++ hops') = some ip := by
  induction hops with
  | nil =>
    obtain ⟨hop, hmem, -⟩ := h
    cases hmem
  | cons hop rest ih =>
    by_cases hclient : IsClient trusted hop
    · obtain ⟨ip, hparse, huntrusted⟩ := hclient
      have hne : trim hop ≠ [] := by
        intro hnil
        rw [hnil, parseIp_nil] at hparse
        cases hparse
      refine ⟨ip, fun hops' => ?_⟩
      simp [firstUntrusted, hne, hparse, huntrusted]
    · have hrest : ∃ hop ∈ rest, IsClient trusted hop := by
        obtain ⟨hop', hmem, hclient'⟩ := h
        rcases List.mem_cons.1 hmem with rfl | hmem
        · exact absurd hclient' hclient
        · exact ⟨hop', hmem, hclient'⟩
      obtain ⟨ip, hip⟩ := ih hrest
      refine ⟨ip, fun hops' => ?_⟩
      rw [List.cons_append, firstUntrusted]
      by_cases hnil : trim hop = []
      · rw [if_pos hnil, hip]
      · rw [if_neg hnil]
        cases hparse : parseIp (trim hop) with
        | none => exact hip hops'
        | some ip' =>
          cases htrusted : isTrusted ip' trusted with
          | true =>
            simp only [htrusted]
            exact hip hops'
          | false => exact absurd ⟨ip', hparse, htrusted⟩ hclient

/-- Entries that the client has sent do not touch those that were appended. -/
theorem entries_append (left right : String) :
    entries (left ++ "," ++ right) = entries left ++ entries right := by
  unfold entries
  rw [String.toList_append, String.toList_append, List.append_assoc]
  exact splitText_append ',' left.toList right.toList

end Walk

section Result

/-- Whatever the client has sent in front of what the trusted proxies have appended, the
address is the same, if an address of a client was appended.  Without a trusted peer the
headers are not read. -/
theorem client_ip_not_chosen (remote : IpAddr) (trusted : List IpNet) :
    (∀ right, (∃ hop ∈ entries right, IsClient trusted hop) → ∀ left left' xRealIp xRealIp',
      clientIp remote (some (left ++ "," ++ right)) xRealIp trusted =
        clientIp remote (some (left' ++ "," ++ right)) xRealIp' trusted) ∧
      (isTrusted remote trusted = false → ∀ xff xff' xRealIp xRealIp',
        clientIp remote xff xRealIp trusted = clientIp remote xff' xRealIp' trusted) := by
  constructor
  · rintro right ⟨hop, hmem, hclient⟩ left _ _ _
    have hclients : ∃ hop ∈ (entries right).reverse, IsClient trusted hop :=
      ⟨hop, List.mem_reverse.2 hmem, hclient⟩
    obtain ⟨ip, hip⟩ := firstUntrusted_append hclients
    have hwalk : ∀ left, firstUntrusted trusted (entries (left ++ "," ++ right)).reverse =
        some ip := by
      intro _
      rw [entries_append, List.reverse_append]
      exact hip _
    unfold clientIp
    simp only [Option.bind_some, hwalk]
  · intro hremote _ _ _ _
    unfold clientIp
    rw [hremote]
    rfl

/-- A proxy in `10.0.0.0/8`. -/
def proxies : List IpNet := [.v4 0x0a000000#32 8]

def proxy : IpAddr := .v4 0x0a000001#32

/-- A proxy appends the address of the client. -/
theorem client_ip_appended :
    clientIp proxy (some ("1.1.1.1" ++ "," ++ " 203.0.113.9")) none proxies =
      clientIp proxy (some ("2.2.2.2" ++ "," ++ " 203.0.113.9")) (some "3.3.3.3") proxies :=
  (client_ip_not_chosen proxy proxies).1 " 203.0.113.9"
    ⟨" 203.0.113.9".toList, by decide +kernel, .v4 0xcb007109#32, by decide +kernel,
      by decide +kernel⟩ _ _ _ _

/-- A proxy appends the address with the port.  The entry is not blank and no address of a
trusted proxy, and the client chooses the address. -/
theorem client_ip_chosen :
    isTrusted proxy proxies = true ∧
      (∃ hop ∈ entries "203.0.113.9:4711", trim hop ≠ [] ∧
        ¬ ∃ ip, parseIp (trim hop) = some ip ∧ isTrusted ip proxies = true) ∧
      clientIp proxy (some ("1.1.1.1" ++ "," ++ "203.0.113.9:4711")) none proxies ≠
        clientIp proxy (some ("2.2.2.2" ++ "," ++ "203.0.113.9:4711")) none proxies := by
  have hparse : parseIp (trim "203.0.113.9:4711".toList) = none := by decide +kernel
  refine ⟨by decide +kernel, ⟨"203.0.113.9:4711".toList, by decide +kernel, by decide +kernel, ?_⟩,
    by decide +kernel⟩
  rintro ⟨_, hip, -⟩
  rw [hparse] at hip
  cases hip

end Result

end Swarog.Httpmw
