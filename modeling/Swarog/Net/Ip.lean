import Mathlib

/-!
# IP addresses and their texts

Addresses of both families, networks given by a number of leading bits, and the parser
of the standard library for the text of an address.  The parser reads from the left and
gives back what it has not consumed; an address is the whole text.
-/

namespace Swarog.Net

section Addresses

inductive IpAddr
  | v4 (bits : BitVec 32)
  | v6 (bits : BitVec 128)
deriving DecidableEq

/-- A network: an address and the number of bits that its members share with it. -/
inductive IpNet
  | v4 (bits : BitVec 32) (len : Nat)
  | v6 (bits : BitVec 128) (len : Nat)
deriving DecidableEq

/-- An address is in a network of its own family whose leading bits it has. -/
def IpNet.contains : IpNet → IpAddr → Bool
  | .v4 net len, .v4 ip => net >>> (32 - len) == ip >>> (32 - len)
  | .v6 net len, .v6 ip => net >>> (128 - len) == ip >>> (128 - len)
  | _, _ => false

end Addresses

section Texts

/-- The characters that `trim` takes off (the Unicode property `White_Space`). -/
def isWhiteSpace (c : Char) : Bool :=
  (9 ≤ c.toNat && c.toNat ≤ 13) || c.toNat == 0x20 || c.toNat == 0x85 || c.toNat == 0xa0 ||
    c.toNat == 0x1680 || (0x2000 ≤ c.toNat && c.toNat ≤ 0x200a) || c.toNat == 0x2028 ||
    c.toNat == 0x2029 || c.toNat == 0x202f || c.toNat == 0x205f || c.toNat == 0x3000

def trim (s : List Char) : List Char :=
  ((s.dropWhile isWhiteSpace).reverse.dropWhile isWhiteSpace).reverse

/-- The parts of a text between separators; a text without one is its only part. -/
def splitText (sep : Char) (s : List Char) : List (List Char) := s.splitOnP (fun c => c == sep)

/-- What stands in front of a separator does not touch the parts after it. -/
theorem splitText_append (sep : Char) (s s' : List Char) :
    splitText sep (s ++ sep :: s') = splitText sep s ++ splitText sep s' :=
  List.splitOnP_append_cons s s' (beq_self_eq_true sep)

end Texts

section Parsing

/-- The value of a digit. -/
def digitOf (radix : Nat) (c : Char) : Option Nat :=
  let n :=
    if '0' ≤ c ∧ c ≤ '9' then c.toNat - '0'.toNat
    else if 'a' ≤ c ∧ c ≤ 'z' then c.toNat - 'a'.toNat + 10
    else if 'A' ≤ c ∧ c ≤ 'Z' then c.toNat - 'A'.toNat + 10
    else radix
  if n < radix then some n else none

/-- `read_number`: all digits that follow, `maxDigits` at most, without a leading zero
unless `zeros`, below `bound`. -/
def readNumber (radix maxDigits bound : Nat) (zeros : Bool) (s : List Char) :
    Option (Nat × List Char) :=
  let digits := (s.takeWhile (fun c => (digitOf radix c).isSome)).filterMap (digitOf radix)
  let value := digits.foldl (fun n d => n * radix + d) 0
  if digits.length = 0 ∨ maxDigits < digits.length ∨ bound ≤ value ∨
      (zeros = false ∧ s.head? = some '0' ∧ 1 < digits.length) then
    none
  else
    some (value, s.drop digits.length)

/-- A separator in front of all but the first of a sequence. -/
def readSeparator (sep : Char) (first : Bool) (s : List Char) : Option (List Char) :=
  if first then
    some s
  else
    match s with
    | c :: rest => if c = sep then some rest else none
    | [] => none

/-- `read_ipv4_addr`, the groups that are left to read. -/
def readOctets : Nat → Bool → List Char → Option (List Nat × List Char)
  | 0, _, s => some ([], s)
  | n + 1, first, s => do
    let s ← readSeparator '.' first s
    let (octet, s) ← readNumber 10 3 256 false s
    let (octets, s) ← readOctets n false s
    pure (octet :: octets, s)

/-- `read_groups`: up to the given number of groups, of which the last two may be written
as an address of version 4; the flag says whether they are. -/
def readGroups : Nat → Bool → List Char → List Nat × Bool × List Char
  | 0, _, s => ([], false, s)
  | n + 1, first, s =>
    match (if n = 0 then none else (readSeparator ':' first s).bind (readOctets 4 true)) with
    | some ([a, b, c, d], rest) => ([a * 256 + b, c * 256 + d], true, rest)
    | _ =>
      match (readSeparator ':' first s).bind (readNumber 16 4 65536 true) with
      | some (group, rest) =>
        let (groups, v4, rest) := readGroups n false rest
        (group :: groups, v4, rest)
      | none => ([], false, s)

/-- `read_ipv6_addr`. -/
def readV6 (s : List Char) : Option (List Nat × List Char) :=
  let (head, headV4, s) := readGroups 8 true s
  if head.length = 8 then
    some (head, s)
  else if headV4 then
    none
  else
    match s with
    | ':' :: ':' :: s =>
      let (tail, _, s) := readGroups (7 - head.length) true s
      some (head ++ List.replicate (8 - head.length - tail.length) 0 ++ tail, s)
    | _ => none

def joinGroups (base : Nat) (groups : List Nat) : Nat := groups.foldl (fun n g => n * base + g) 0

/-- The text is an address of one of the two versions. -/
def parseIp (s : List Char) : Option IpAddr :=
  match readOctets 4 true s with
  | some (octets, rest) =>
    if rest = [] then some (.v4 (BitVec.ofNat 32 (joinGroups 256 octets))) else none
  | none =>
    match readV6 s with
    | some (groups, rest) =>
      if rest = [] then some (.v6 (BitVec.ofNat 128 (joinGroups 65536 groups))) else none
    | none => none

end Parsing

end Swarog.Net
