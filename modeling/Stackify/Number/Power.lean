/-!
Powers of two and of ten, and the integers that fit a number of bits.
-/

namespace Stackify.Number

/-- Two to the power of `k`. -/
def pow2 (k : Nat) : Nat := Nat.pow 2 k

/-- Ten to the power of `k`. -/
def pow10 (k : Nat) : Nat := Nat.pow 10 k

/-- Whether a number has `bits` bits in two's complement. -/
def fitsSigned (bits : Nat) (n : Int) : Bool := -(pow2 (bits - 1) : Int) ≤ n && n < pow2 (bits - 1)

/-- Whether a number has `bits` bits without a sign. -/
def fitsUnsigned (bits : Nat) (n : Int) : Bool := 0 ≤ n && n < pow2 bits

end Stackify.Number
