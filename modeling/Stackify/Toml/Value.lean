import Stackify.Number.Binary
import Stackify.Toml.Moment

/-!
Values of TOML documents, and reading the ones that fit in one word: truth values, numbers, dates
and times.
-/

namespace Stackify.Toml

inductive Value where
  | string (s : String)
  | integer (n : Int)
  | float (x : Float)
  | boolean (b : Bool)
  | moment (m : Moment)
  | array (items : List Value)
  | table (members : List (String × Value))
  deriving Inhabited

/-- What a value holds by name. A date or time counts as a table whose one member is its text. -/
def Value.members? : Value → Option (List (String × Value))
  | .table members => some members
  | .moment m => some [("$__toml_private_datetime", .string m.text)]
  | _ => none

/-! ## Integers -/

/-- A signed integer of 64 bits, decimal or in a base that is named in front. -/
def integer? (word : List Char) : Option Int :=
  let inRange := fun n : Int => (some n).filter (Number.fitsSigned 64)
  let based := fun (base : Nat) (isDigit : Char → Bool) (cs : List Char) =>
    (groupedDigits? isDigit cs).bind fun ds => inRange (valueInBase base ds)
  match word with
  | '0' :: 'x' :: cs => based 16 (fun c => (Text.hexValue? c).isSome) cs
  | '0' :: 'o' :: cs => based 8 (fun c => '0' ≤ c && c ≤ '7') cs
  | '0' :: 'b' :: cs => based 2 (fun c => c = '0' || c = '1') cs
  | _ =>
    let (sign, cs) := splitSign word
    (plainDigits? cs).bind fun ds =>
      let n : Int := valueInBase 10 ds
      inRange (if sign = some '-' then -n else n)

/-! ## Doubles -/

/-- The value of an exponent's digits. Once it has reached 65536, further digits do not count. -/
def exponentValue (digits : List Char) : Nat :=
  digits.foldl (fun n c => if n < 65536 then n * 10 + (Text.hexValue? c).getD 0 else n) 0

def exponent? (cs : List Char) : Option Int :=
  let (sign, cs) := splitSign cs
  (groupedDigits? Char.isDigit cs).map fun ds =>
    if sign = some '-' then -(exponentValue ds : Int) else exponentValue ds

/-- The double nearest to `n * 10 ^ e` with a sign. A positive number beyond all doubles is refused,
a negative one is infinite. -/
def nearestDouble? (negative : Bool) (n : Nat) (e : Int) : Option Float :=
  let bits := Number.Format.double.round (n * Number.pow10 e.toNat) (Number.pow10 (-e).toNat)
  if bits = Number.Format.double.infinity && !negative then
    none else some (Number.ofSignBits negative bits)

/-- A number with a fraction or a power of ten. -/
def decimal? (negative : Bool) (cs : List Char) : Option Float := do
  let isE := fun c : Char => c = 'e' || c = 'E'
  let mantissa := cs.takeWhile fun c => !isE c
  let power := cs.dropWhile fun c => !isE c
  let point := mantissa.dropWhile (· ≠ '.')
  if point.isEmpty && power.isEmpty then none
  else
    let whole ← plainDigits? (mantissa.takeWhile (· ≠ '.'))
    let places ← if point.isEmpty then some [] else groupedDigits? Char.isDigit (point.drop 1)
    let e ← if power.isEmpty then some 0 else exponent? (power.drop 1)
    nearestDouble? negative (valueInBase 10 (whole ++ places)) (e - places.length)

/-- A decimal number, or one of the special ones. -/
def float? (word : List Char) : Option Float :=
  let (sign, cs) := splitSign word
  let negative := sign = some '-'
  if cs = "inf".toList then some (Number.ofSignBits negative Number.Format.double.infinity)
  else if cs = "nan".toList then some (0.0 / 0.0)
  else decimal? negative cs

/-! ## Words -/

def wordValue? (word : List Char) : Option Value :=
  if word = "true".toList then some (.boolean true)
  else if word = "false".toList then some (.boolean false)
  else ((integer? word).map .integer).or
    (((float? word).map .float).or ((Moment.read? word).map .moment))

end Stackify.Toml
