import Stackify.Text.Hex

/-!
Digits of numbers in TOML documents: single underscores may stand between them.
-/

namespace Stackify.Toml

/-- Digits of a kind, with single underscores between them, without the underscores. -/
def groupedDigits? (isDigit : Char → Bool) : List Char → Option (List Char)
  | [] => none
  | [c] => if isDigit c then some [c] else none
  | c :: '_' :: cs => if isDigit c then (groupedDigits? isDigit cs).map (c :: ·) else none
  | c :: cs => if isDigit c then (groupedDigits? isDigit cs).map (c :: ·) else none

def valueInBase (base : Nat) (digits : List Char) : Nat :=
  digits.foldl (fun n c => n * base + (Text.hexValue? c).getD 0) 0

/-- Decimal digits without a leading zero. -/
def plainDigits? (cs : List Char) : Option (List Char) :=
  match groupedDigits? Char.isDigit cs with
  | some ds => if ds.length > 1 && ds.head? = some '0' then none else some ds
  | none => none

def splitSign : List Char → Option Char × List Char
  | '+' :: cs => (some '+', cs)
  | '-' :: cs => (some '-', cs)
  | cs => (none, cs)

/-- The number that some digits spell, if all are digits and it lies between `lo` and `hi`. -/
def numberWithin? (lo hi : Nat) (digits : List Char) : Option Nat :=
  if digits.all Char.isDigit then
    let n := valueInBase 10 digits
    if lo ≤ n && n ≤ hi then some n else none
  else none

/-- A number in decimal with at least `width` digits. -/
def paddedDigits (width n : Nat) : List Char :=
  let digits := Nat.toDigits 10 n
  List.replicate (width - digits.length) '0' ++ digits

end Stackify.Toml
