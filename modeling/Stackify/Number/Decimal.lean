import Stackify.Number.Binary

/-!
The decimal text of a double: the fewest digits that read back as the same number, and of those the
nearest. Numbers of moderate size are written positionally, with at least one digit after the point;
very large and very small ones with an exponent.
-/

namespace Stackify.Number

/-! ## Shortest digits -/

/-- The reals that round to `m * 2 ^ e`, as fractions over one denominator. -/
structure Interval where
  low : Nat
  value : Nat
  high : Nat
  denominator : Nat
  /-- Whether the two ends round to the number too. -/
  closed : Bool

/-- The gap below a power of two is half as wide as the gap above it, except at the smallest
exponent. -/
def Interval.ofParts (p : Parts) : Interval :=
  let (m, e) := p.magnitude
  let narrow := p.fraction = 0 && 1 < p.exponent
  let (value, den) := fraction (4 * m) (e - 2)
  let (unit, _) := fraction 1 (e - 2)
  ⟨value - (if narrow then unit else 2 * unit), value, value + 2 * unit, den, m % 2 = 0⟩

/-- Does `n * 10 ^ k` lie in the interval? -/
def Interval.contains (i : Interval) (n : Nat) (k : Int) : Bool :=
  let (num, den) := match k with
    | .ofNat j => (n * pow10 j, 1)
    | .negSucc j => (n, pow10 (j + 1))
  let x := num * i.denominator
  if i.closed then i.low * den ≤ x && x ≤ i.high * den else i.low * den < x && x < i.high * den

/-- The value in units of `10 ^ k`, as a fraction. -/
def Interval.over (i : Interval) (k : Int) : Nat × Nat :=
  match k with
  | .ofNat j => (i.value, i.denominator * pow10 j)
  | .negSucc j => (i.value * pow10 (j + 1), i.denominator)

/-- The multiple of `10 ^ k` in the interval that is nearest to its value, a tie going up. -/
def Interval.nearest? (i : Interval) (k : Int) : Option Nat :=
  let (num, den) := i.over k
  let below := num / den
  let upward := den ≤ 2 * (num % den)
  let lowHit := i.contains below k
  let highHit := i.contains (below + 1) k
  if lowHit && highHit then some (if upward then below + 1 else below)
  else if lowHit then some below
  else if highHit then some (below + 1)
  else none

/-- The number of decimal digits before the point; not positive for small fractions. -/
def pointPosition (num den : Nat) : Int :=
  if den ≤ num then (Nat.toDigits 10 (num / den)).length
  else
    let n := (Nat.toDigits 10 (den / num)).length
    -- `10 ^ (n - 1) ≤ den / num`, so the value is at most `10 ^ (1 - n)`
    if num * pow10 n ≤ den then -(n : Int) else if num * pow10 (n - 1) ≤ den then
      1 - (n : Int) else 2 - (n : Int)

/-- Tries grids of ever more digits; `k` is the exponent of the grid. -/
def Interval.search (i : Interval) : Nat → Int → Nat × Int
  | 0, k => ((i.over k).1 / (i.over k).2, k)
  | tries + 1, k =>
    match i.nearest? k with
    | some n => if n = 0 then i.search tries (k - 1) else (n, k)
    | none => i.search tries (k - 1)

/-- Removes trailing zeros of a digit count, raising the exponent. -/
def trimZeros : Nat → Nat → Int → Nat × Int
  | 0, n, k => (n, k)
  | fuel + 1, n, k => if n % 10 = 0 && n ≠ 0 then trimZeros fuel (n / 10) (k + 1) else (n, k)

/-- The shortest decimal `n * 10 ^ k` that rounds to a finite nonzero double. -/
def shortest (p : Parts) : Nat × Int :=
  let i := Interval.ofParts p
  let (n, k) := i.search 20 (pointPosition i.value i.denominator)
  trimZeros 20 n k

/-! ## Notation -/

/-- Digits with the point after the first `position` of them, at least one on each side. -/
def positional (digits : List Char) (position : Int) : String :=
  match position with
  | .ofNat 0 => "0." ++ String.ofList digits
  | .ofNat k =>
    let whole := digits.take k ++ List.replicate (k - digits.length) '0'
    let rest := digits.drop k
    String.ofList whole ++ "." ++ (if rest.isEmpty then "0" else String.ofList rest)
  | .negSucc k => "0." ++ String.ofList (List.replicate (k + 1) '0' ++ digits)

/-- One digit, the rest after a point, and the power of ten. -/
def scientific (digits : List Char) (position : Int) : String :=
  let mantissa := match digits with
    | [] => "0"
    | [d] => String.singleton d
    | d :: rest => String.singleton d ++ "." ++ String.ofList rest
  mantissa ++ "e" ++ toString (position - 1)

/-- Positional from `0.0001` up to, but not including, `10 ^ 16`. -/
def text (x : Float) : String :=
  if x.isNaN then "NaN"
  else
    let p := Parts.ofFloat x
    let sign := if p.negative then "-" else ""
    if p.exponent = 2047 then sign ++ "inf"
    else if p.exponent = 0 && p.fraction = 0 then sign ++ "0.0"
    else
      let (n, k) := shortest p
      let digits := Nat.toDigits 10 n
      let position := (digits.length : Int) + k
      sign ++ (if -3 ≤ position && position ≤ 16 then positional digits position else scientific
        digits position)

end Stackify.Number
