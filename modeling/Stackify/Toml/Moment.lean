import Stackify.Number.Power
import Stackify.Toml.Digits

/-!
Dates and times in TOML documents: a date, a time, or both with an optional distance from universal
time.

Each of them has one text: `T` stands between date and time, a fraction of a second is cut off after
nine digits and has no zeros at its end, and a distance of zero is positive.
-/

namespace Stackify.Toml

structure Date where
  year : Nat
  month : Nat
  day : Nat
  deriving DecidableEq, Repr

structure Time where
  hour : Nat
  minute : Nat
  second : Nat
  nanosecond : Nat
  deriving DecidableEq, Repr

/-- Where a clock stands against universal time. -/
inductive Offset where
  | universal
  | minutes (n : Int)
  deriving DecidableEq, Repr

inductive Moment where
  | date (d : Date)
  | time (t : Time)
  | both (d : Date) (t : Time) (o : Option Offset)
  deriving DecidableEq, Repr

/-! ## Reading -/

def daysInMonth (year month : Nat) : Nat :=
  if month = 2 then if (year % 4 = 0 && year % 100 ≠ 0) || year % 400 = 0 then 29 else 28
  else if month = 4 || month = 6 || month = 9 || month = 11 then 30
  else 31

/-- A year of four digits, a month and a day of it. -/
def Date.read? (cs : List Char) : Option Date :=
  if cs.length = 10 && cs[4]? = some '-' && cs[7]? = some '-' then do
    let year ← numberWithin? 0 9999 (cs.take 4)
    let month ← numberWithin? 1 12 ((cs.drop 5).take 2)
    let day ← numberWithin? 1 (daysInMonth year month) (cs.drop 8)
    return ⟨year, month, day⟩
  else none

/-- Hours and minutes. -/
def clock? : List Char → Option (Nat × Nat)
  | [a, b, ':', c, d] => do return (← numberWithin? 0 23 [a, b], ← numberWithin? 0 59 [c, d])
  | _ => none

/-- The nanoseconds of a fraction of a second; what is finer is cut off. -/
def nanoseconds? : List Char → Option Nat
  | [] => some 0
  | '.' :: ds =>
    if ds.isEmpty || !ds.all Char.isDigit then none
    else
      let kept := ds.take 9
      some (valueInBase 10 kept * Number.pow10 (9 - kept.length))
  | _ => none

/-- Hours, minutes and seconds, of which a minute may have 61. -/
def Time.read? (cs : List Char) : Option Time :=
  match cs.drop 5 with
  | ':' :: a :: b :: fraction => do
    let (hour, minute) ← clock? (cs.take 5)
    let second ← numberWithin? 0 60 [a, b]
    return ⟨hour, minute, second, ← nanoseconds? fraction⟩
  | _ => none

def Offset.read? : List Char → Option Offset
  | ['Z'] => some .universal
  | ['z'] => some .universal
  | '+' :: cs => (clock? cs).map fun (h, m) => .minutes (h * 60 + m)
  | '-' :: cs => (clock? cs).map fun (h, m) => .minutes (-(h * 60 + m))
  | _ => none

def startsOffset (c : Char) : Bool := c = 'Z' || c = 'z' || c = '+' || c = '-'

/-- A time, and perhaps an offset behind it. -/
def timeAndOffset? (cs : List Char) : Option (Time × Option Offset) := do
  let t ← Time.read? (cs.takeWhile fun c => !startsOffset c)
  match cs.dropWhile fun c => !startsOffset c with
  | [] => return (t, none)
  | offset => return (t, some (← Offset.read? offset))

def Moment.read? (cs : List Char) : Option Moment :=
  match Date.read? (cs.take 10), cs.drop 10 with
  | some d, [] => some (.date d)
  | some d, sep :: rest =>
    if sep = 'T' || sep = 't' || sep = ' ' then (timeAndOffset? rest).map fun (t, o) => .both d t o
    else none
  | none, _ => (Time.read? cs).map .time

/-! ## Text -/

def Date.text (d : Date) : String :=
  String.ofList (paddedDigits 4 d.year ++ '-' :: paddedDigits 2 d.month ++ '-' ::
    paddedDigits 2 d.day)

def dropTrailingZeros (digits : List Char) : List Char :=
  (digits.reverse.dropWhile (· = '0')).reverse

def Time.text (t : Time) : String :=
  let fraction := dropTrailingZeros (paddedDigits 9 t.nanosecond)
  String.ofList (paddedDigits 2 t.hour ++ ':' :: paddedDigits 2 t.minute ++ ':' ::
    paddedDigits 2 t.second ++ if fraction.isEmpty then [] else '.' :: fraction)

def Offset.text : Offset → String
  | .universal => "Z"
  | .minutes n =>
    let sign := if n < 0 then '-' else '+'
    String.ofList (sign :: paddedDigits 2 (n.natAbs / 60) ++ ':' :: paddedDigits 2 (n.natAbs % 60))

def Moment.text : Moment → String
  | .date d => d.text
  | .time t => t.text
  | .both d t o => d.text ++ "T" ++ t.text ++ o.elim "" Offset.text

end Stackify.Toml
