import Stackify.Number.Power

/-!
Binary floating-point numbers as exact fractions.

A finite double is an integer times a power of two, so every operation that the machine needs beyond
the four arithmetic ones is integer arithmetic on that form: rounding a fraction to the nearest
double or single (a half goes to the even neighbour), the remainder of a division, and conversion
from and to integers.
-/

namespace Stackify.Number

/-! ## Rounding to a format -/

/-- A binary format: significant bits, and the exponent of the unit of its smallest numbers. -/
structure Format where
  precision : Nat
  leastExponent : Int
  /-- The bit pattern of positive infinity. -/
  infinity : Nat

def Format.double : Format := ⟨53, -1074, 0x7ff0000000000000⟩

def Format.single : Format := ⟨24, -149, 0x7f800000⟩

/-- The integer nearest to `num / den`; a half goes to the even one. -/
def roundHalfEven (num den : Nat) : Nat :=
  let q := num / den
  let r := 2 * (num % den)
  if r < den then q else if den < r then q + 1 else q + q % 2

/-- `num / den` in units of `2 ^ e`, as a fraction. -/
def scaled (num den : Nat) (e : Int) : Nat × Nat :=
  match e with
  | .ofNat k => (num, den * pow2 k)
  | .negSucc k => (num * pow2 (k + 1), den)

/-- The exponent of the unit in which `num / den` is rounded. -/
def Format.unitExponent (f : Format) (num den : Nat) : Int :=
  let e := (num.log2 : Int) - den.log2 - f.precision
  let (n, d) := scaled num den e
  max f.leastExponent (if n < d * pow2 f.precision then e else e + 1)

/-- The bit pattern of the nonnegative number of the format nearest to `num / den`. -/
def Format.round (f : Format) (num den : Nat) : Nat :=
  if num = 0 then 0
  else
    let e := f.unitExponent num den
    let (n, d) := scaled num den e
    let bits := (e - f.leastExponent).toNat * pow2 (f.precision - 1) + roundHalfEven n d
    min bits f.infinity

/-! ## Doubles -/

/-- The parts of a double's bit pattern: sign, exponent field and fraction field. -/
structure Parts where
  negative : Bool
  exponent : Nat
  fraction : Nat

def Parts.ofFloat (x : Float) : Parts :=
  let bits := x.toBits.toNat
  ⟨pow2 63 ≤ bits, bits / pow2 52 % pow2 11, bits % pow2 52⟩

/-- Integer `m` and exponent `e` such that the magnitude of a finite double is `m * 2 ^ e`. -/
def Parts.magnitude (p : Parts) : Nat × Int :=
  if p.exponent = 0 then (p.fraction, -1074) else (pow2 52 + p.fraction, (p.exponent : Int) - 1075)

/-- `m * 2 ^ e` as a fraction. -/
def fraction (m : Nat) (e : Int) : Nat × Nat :=
  match e with
  | .ofNat k => (m * pow2 k, 1)
  | .negSucc k => (m, pow2 (k + 1))

def ofSignBits (negative : Bool) (bits : Nat) : Float :=
  Float.ofBits (UInt64.ofNat (if negative then pow2 63 + bits else bits))

/-- The double nearest to `num / den`, with the given sign. -/
def ofFraction (negative : Bool) (num den : Nat) : Float :=
  ofSignBits negative (Format.double.round num den)

/-- The double nearest to an integer. -/
def ofInt (n : Int) : Float :=
  ofFraction (n < 0) n.natAbs 1

/-- The integer part, toward zero, held within `lo` and `hi`; zero for a number that is none. -/
def toIntWithin (lo hi : Int) (x : Float) : Int :=
  if x.isNaN then 0
  else
    let p := Parts.ofFloat x
    if p.exponent = 2047 then if p.negative then lo else hi
    else
      let (m, e) := p.magnitude
      let (num, den) := fraction m e
      let n : Int := num / den
      max lo (min hi (if p.negative then -n else n))

/-- The nearest number toward zero with `bits` bits in two's complement. -/
def toSigned (bits : Nat) (x : Float) : Int :=
  toIntWithin (-pow2 (bits - 1)) (pow2 (bits - 1) - 1) x

/-- The nearest number toward zero with `bits` bits without a sign. -/
def toUnsigned (bits : Nat) (x : Float) : Int := toIntWithin 0 (pow2 bits - 1) x

/-- The remainder of dividing `x` by `y`: exact, and with the sign of `x`. -/
def remainder (x y : Float) : Float :=
  let p := Parts.ofFloat x
  let q := Parts.ofFloat y
  if x.isNaN || y.isNaN || p.exponent = 2047 || y == 0 then 0.0 / 0.0
  else if q.exponent = 2047 then x
  else
    let (mx, ex) := p.magnitude
    let (my, ey) := q.magnitude
    let e := min ex ey
    let r := mx * pow2 (ex - e).toNat % (my * pow2 (ey - e).toNat)
    let (num, den) := fraction r e
    ofFraction p.negative num den

/-! ## Singles -/

/-- The bit pattern of the single nearest to a double. -/
def toSingleBits (x : Float) : Nat :=
  let p := Parts.ofFloat x
  let sign := if p.negative then pow2 31 else 0
  if x.isNaN then 0x7fc00000
  else if p.exponent = 2047 then sign + Format.single.infinity
  else
    let (m, e) := p.magnitude
    let (num, den) := fraction m e
    sign + Format.single.round num den

/-- The double equal to the single with the given bit pattern. -/
def ofSingleBits (bits : Nat) : Float :=
  let negative := pow2 31 ≤ bits
  let exponent : Nat := bits / pow2 23 % pow2 8
  let frac : Nat := bits % pow2 23
  if exponent = 255 then
    if frac = 0 then ofSignBits negative Format.double.infinity else 0.0 / 0.0
  else
    let (num, den) :=
      if exponent = 0 then fraction frac (-149)
      else fraction (pow2 23 + frac) ((exponent : Int) - 150)
    ofFraction negative num den

/-- A double rounded to the precision of a single. -/
def roundSingle (x : Float) : Float :=
  ofSingleBits (toSingleBits x)

end Stackify.Number
