import Stackify.Json.Numeral

/-!
Reading values out of JSON documents.

A record is an object with its fields by name, or an array with all of them in order; a choice is
the bare name of an alternative without contents, or an object with one member. Every object and
array that is entered uses up one level of the nesting limit; members that no reader asks for are
not entered.
-/

namespace Stackify.Json

/-- How many containers may be nested inside each other. -/
def nestingLimit : Nat := 127

/-! ## Plain values -/

def text? : Json → Option String
  | .string s => s
  | _ => none

def bool? : Json → Option Bool
  | .bool b => some b
  | _ => none

def array? : Json → Option (List Json)
  | .array items => some items
  | _ => none

def int? : Json → Option Int
  | .number n => n.toInt?
  | _ => none

/-- An integer of `bits` bits in two's complement. -/
def signed? (bits : Nat) (j : Json) : Option Int := j.int?.filter (Number.fitsSigned bits)

/-- An integer of `bits` bits without a sign. -/
def nat? (bits : Nat) (j : Json) : Option Nat :=
  (j.int?.filter (Number.fitsUnsigned bits)).map Int.toNat

/-- A signed integer of 128 bits. -/
def wideInt? : Json → Option Int
  | .number n => n.wideInt?.filter (Number.fitsSigned 128)
  | _ => none

def float? : Json → Option Float
  | .number n => n.toFloat?
  | _ => none

/-! ## Containers -/

/-- Reads a value with `depth` levels of nesting left. -/
abbrev Reader (α : Type) := Nat → Json → Option α

def leaf {α : Type} (f : Json → Option α) : Reader α := fun _ j => f j

def optional {α : Type} (r : Reader α) : Reader (Option α)
  | _, .null => some none
  | depth, j => (r depth j).map some

def items? {α : Type} (r : Reader α) : Reader (List α)
  | depth + 1, .array items => items.mapM (r depth)
  | _, _ => none

def pair? {α β : Type} (r : Reader α) (q : Reader β) : Reader (α × β)
  | depth + 1, .array [a, b] =>
    match r depth a, q depth b with
    | some a, some b => some (a, b)
    | _, _ => none
  | _, _ => none

/-- The members of an object with the given names. A name that occurs twice is refused, and so is a
member name that is no text; other members are passed over. -/
def members? (names : List String) (members : List (Option String × Json)) :
    Option (List (Option Json)) :=
  if members.any fun m => m.1.isNone then none
  else names.mapM fun name =>
    match members.filter fun m => m.1 == some name with
    | [] => some none
    | [m] => some (some m.2)
    | _ => none

/-- The fields of a record, in the order of `names`, with the nesting left inside it. -/
def fields? (names : List String) : Nat → Json → Option (Nat × List (Option Json))
  | depth + 1, .object members => (members? names members).map fun fs => (depth, fs)
  | depth + 1, .array items =>
    if items.length = names.length then some (depth, items.map some) else none
  | _, _ => none

/-- A field that may be missing or null. -/
def optionalField {α : Type} (r : Reader α) (depth : Nat) : Option Json → Option (Option α)
  | none => some none
  | some j => optional r depth j

/-- The name of an alternative and its contents, if it has any. -/
def variant? : Nat → Json → Option (String × Nat × Option Json)
  | depth, .string (some name) => some (name, depth, none)
  | depth + 1, .object [(some name, contents)] => some (name, depth, some contents)
  | _, _ => none

/-- The contents of an alternative that has none. -/
def isUnit : Option Json → Bool
  | none => true
  | some .null => true
  | _ => false

/-- An alternative without contents out of a list of named ones. -/
def named? {α : Type} (alternatives : List (String × α)) : Reader α := fun depth j =>
  match variant? depth j with
  | some (name, _, contents) => if isUnit contents then alternatives.lookup name else none
  | none => none

/-- An object whose member names are arbitrary; a repeated name takes the last of its values. -/
def map? {α : Type} (r : Reader α) : Reader (List (String × α))
  | depth + 1, .object members => members.mapM fun (k, v) =>
    match k, r depth v with
    | some k, some v => some (k, v)
    | _, _ => none
  | _, _ => none

end Stackify.Json
