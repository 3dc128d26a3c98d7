import Stackify.Text.Hex

/-!
JSON documents. Members of an object keep their order and repeated names stay apart, and a number
stays as it was written, so that whoever reads the document decides what it means.
-/

namespace Stackify

/-- A number as it was written: sign, digits before the point, digits after it, and the power of ten
with its sign. -/
structure Numeral where
  negative : Bool
  whole : List Char
  fraction : Option (List Char) := none
  exponent : Option (Bool × List Char) := none
  deriving DecidableEq, Inhabited

/-- A document. A text is absent if it holds an unpaired surrogate escape: then it spells no
characters, and whoever needs its characters has to refuse it. -/
inductive Json where
  | null
  | bool (value : Bool)
  | number (value : Numeral)
  | string (value : Option String)
  | array (items : List Json)
  | object (members : List (Option String × Json))
  deriving Inhabited

namespace Numeral

def ofNat (n : Nat) : Numeral := { negative := false, whole := Nat.toDigits 10 n }

def ofInt (n : Int) : Numeral := { negative := n < 0, whole := Nat.toDigits 10 n.natAbs }

def render (n : Numeral) : List Char :=
  (if n.negative then ['-'] else []) ++ n.whole
    ++ (match n.fraction with | some f => '.' :: f | none => [])
    ++ (match n.exponent with | some (neg, e) => 'e' :: (if neg then '-' :: e else e) | none => [])

end Numeral

namespace Json

def nat (n : Nat) : Json := .number (.ofNat n)

def int (n : Int) : Json := .number (.ofInt n)

def text (s : String) : Json := .string (some s)

def record (members : List (String × Json)) : Json :=
  .object (members.map fun (k, v) => (some k, v))

def option {α : Type} (f : α → Json) : Option α → Json
  | some a => f a
  | none => .null

def list {α : Type} (f : α → Json) (l : List α) : Json := .array (l.map f)

/-- The value of a member; the first of that name. -/
def get? (name : String) : Json → Option Json
  | .object members => (members.find? fun m => m.1 == some name).map (·.2)
  | _ => none

/-! ## Writing -/

def escapedChar (c : Char) : List Char :=
  match c with
  | '"' => ['\\', '"']
  | '\\' => ['\\', '\\']
  | '\n' => ['\\', 'n']
  | c => if c.toNat < 0x20 then ['\\', 'u'] ++ (Text.paddedHex 4 c.toNat).toList else [c]

def renderText (s : String) : List Char :=
  '"' :: s.toList.flatMap escapedChar ++ ['"']

mutual

def render : Json → List Char
  | .null => "null".toList
  | .bool b => (if b then "true" else "false").toList
  | .number n => n.render
  | .string s => renderText (s.getD "�")
  | .array items => '[' :: renderItems items ++ [']']
  | .object members => '\x7b' :: renderMembers members ++ ['\x7d']

def renderItems : List Json → List Char
  | [] => []
  | [j] => render j
  | j :: rest => render j ++ ',' :: renderItems rest

def renderMembers : List (Option String × Json) → List Char
  | [] => []
  | [(k, j)] => renderText (k.getD "�") ++ ':' :: render j
  | (k, j) :: rest => renderText (k.getD "�") ++ ':' :: render j ++ ',' :: renderMembers rest

end

/-- The document as text, on one line. -/
def compact (j : Json) : String := String.ofList j.render

end Json

end Stackify
