import Stackify.Json.Basic
import Stackify.Number.Binary

/-!
The value of a written number: an exact integer, or a double.

A double is read in two steps, each rounded: the significand, which is the longest run of the digits
that fits in 64 bits, and then its product with, or quotient by, a power of ten.
-/

namespace Stackify.Numeral

def digitValue (c : Char) : Nat := c.toNat - '0'.toNat

def digitsValue (digits : List Char) : Nat :=
  digits.foldl (fun n c => n * 10 + digitValue c) 0

/-! ## Integers -/

/-- The integer, if the number was written without point and power of ten. -/
def wideInt? (n : Numeral) : Option Int :=
  if n.fraction.isSome || n.exponent.isSome then none
  else
    let v : Int := digitsValue n.whole
    some (if n.negative then -v else v)

/-- As `wideInt?`, but a zero with a sign is not taken for an integer. -/
def toInt? (n : Numeral) : Option Int :=
  match n.wideInt? with
  | some v => if n.negative && v = 0 then none else some v
  | none => none

/-! ## Doubles -/

/-- Appends digits to a significand while it fits in 64 bits; also how many digits were left
over. -/
def appendDigits : Nat → List Char → Nat × Nat
  | n, [] => (n, 0)
  | n, c :: cs =>
    let next := n * 10 + digitValue c
    if next < Number.pow2 64 then appendDigits next cs else (n, cs.length + 1)

def powerOfTen (n : Nat) : Float := Number.ofFraction false (Number.pow10 n) 1

/-- Divides by finite powers of ten until all are used up or the number has vanished. -/
def scaleDown (x : Float) (n : Nat) : Float :=
  if n ≤ 308 then x / powerOfTen n
  else if x == 0 then x
  else scaleDown (x / powerOfTen 308) (n - 308)
termination_by n
decreasing_by omega

/-- The significand times a power of ten; `none` beyond the finite numbers. -/
def scale? (significand : Nat) (exponent : Int) : Option Float :=
  let x := Number.ofFraction false significand 1
  match exponent with
  | .ofNat n =>
    if n ≤ 308 then
      let y := x * powerOfTen n
      if y.isInf then none else some y
    else if significand = 0 then some x
    else none
  | .negSucc n => some (scaleDown x (n + 1))

def toFloat? (n : Numeral) : Option Float :=
  let (significand, skipped) := appendDigits 0 n.whole
  let fraction := n.fraction.getD []
  let (significand, dropped) := appendDigits significand fraction
  let start : Int := (skipped : Int) - (fraction.length - dropped : Nat)
  let sign := fun x : Float => if n.negative then -x else x
  match n.exponent with
  | none => (scale? significand start).map sign
  | some (negative, digits) =>
    let e := digitsValue digits
    if Number.pow2 31 ≤ e then
      if significand = 0 || negative then some (sign 0.0) else none
    else (scale? significand (if negative then start - e else start + e)).map sign

end Stackify.Numeral
