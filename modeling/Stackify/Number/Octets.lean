/-!
Numbers as octets, lowest first.
-/

namespace Stackify.Number

/-- The low `n` octets of a number. -/
def octets : Nat → Nat → List UInt8
  | 0, _ => []
  | n + 1, v => UInt8.ofNat (v % 256) :: octets n (v / 256)

/-- The number that octets stand for. -/
def ofOctets : List UInt8 → Nat
  | [] => 0
  | b :: bs => b.toNat + 256 * ofOctets bs

end Stackify.Number
