import Swarog.Pg.Uuid

/-!
# Lock keys derived from ids

Advisory locks are named by 64-bit numbers.  A key is the FNV-1a hash of a
namespace followed by an id, read as a signed number.  The id is hashed in the
form in which uuids are equal: its hexadecimal digits in lower case, if there are
32 of them.  Two spellings of one uuid therefore have the same key
(`uuidLockKey_eq`); keys of different ids may collide.
-/

namespace Swarog
namespace Pg

/-- One round of FNV-1a, wrapping at 64 bits. -/
def fnvRound (hash : Nat) (byte : UInt8) : Nat :=
  (hash ^^^ byte.toNat) * 0x00000100000001b3 % 2 ^ 64

def fnv1a (bytes : List UInt8) : Nat := bytes.foldl fnvRound 0xcbf29ce484222325

/-- The reading of a 64-bit word as a signed number. -/
def asI64 (n : Nat) : Int := if n < 2 ^ 63 then n else n - 2 ^ 64

/-- The bytes of an id that are hashed. -/
def normalized (id : String) : List UInt8 :=
  if (hexOf id.toList).length = 32 then
    (hexOf id.toList).map (fun c => c.toNat.toUInt8)
  else
    id.toUTF8.toList

/-- The key of an id in a namespace. -/
def uuidLockKey (space id : String) : Int := asI64 (fnv1a (space.toUTF8.toList ++ normalized id))

/-- The key does not depend on the spelling of the uuid. -/
theorem uuidLockKey_eq
    (space : String)
    {id : String}
    {u : Uuid}
    (h : Uuid.ofText id = some u) :
    uuidLockKey space id = uuidLockKey space u.text := by
  rw [uuidLockKey, uuidLockKey, normalized, normalized, Uuid.hexOf_of_ofText h, Uuid.hexOf_text,
    if_pos u.length_eq, if_pos u.length_eq]

end Pg
end Swarog
