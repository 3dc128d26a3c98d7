import Stackify.Json.Basic
import Stackify.Text.Lossy

/-!
Reading JSON text. Characters are grouped into tokens one at a time, and tokens are folded into a
document with a stack of the containers still open; both passes walk their input once, so neither
depends on how deeply the text is nested.
-/

namespace Stackify.Json

/-! ## Tokens -/

inductive Token where
  | openBrace | closeBrace | openBracket | closeBracket | comma | colon
  | null
  | bool (value : Bool)
  | number (value : Numeral)
  | text (value : Option String)
  deriving DecidableEq

/-- The run of decimal digits at the front, and what follows it. -/
def splitDigits (cs : List Char) : List Char × List Char :=
  (cs.takeWhile Char.isDigit, cs.dropWhile Char.isDigit)

/-- The digits after a point: at least one. -/
def readFraction? : List Char → Option (Option (List Char) × List Char)
  | '.' :: cs =>
    let (digits, rest) := splitDigits cs
    if digits.isEmpty then none else some (some digits, rest)
  | cs => some (none, cs)

/-- The power of ten at the end of a number. -/
def readExponent? : List Char → Option (Option (Bool × List Char))
  | [] => some none
  | e :: cs =>
    if e ≠ 'e' && e ≠ 'E' then none
    else
      let (negative, cs) := match cs with
        | '-' :: cs => (true, cs)
        | '+' :: cs => (false, cs)
        | cs => (false, cs)
      if cs.isEmpty || !cs.all Char.isDigit then none else some (some (negative, cs))

/-- A number: no leading zeros, no bare point, nothing after it. -/
def numeral? (cs : List Char) : Option Numeral := do
  let (negative, cs) := match cs with
    | '-' :: cs => (true, cs)
    | cs => (false, cs)
  let (whole, rest) := splitDigits cs
  if whole.isEmpty || (whole.length > 1 && whole.head? = some '0') then none
  else
    let (fraction, rest) ← readFraction? rest
    let exponent ← readExponent? rest
    some ⟨negative, whole, fraction, exponent⟩

/-- The token spelled by a run of letters, digits and signs. -/
def wordToken? (word : List Char) : Option Token :=
  if word = "null".toList then some .null
  else if word = "true".toList then some (.bool true)
  else if word = "false".toList then some (.bool false)
  else (numeral? word).map .number

def isWordChar (c : Char) : Bool :=
  c.isAlphanum || c = '-' || c = '+' || c = '.'

/-- A string being read: its characters so far, last first; a high surrogate waiting for its
partner; and whether some surrogate stayed alone. -/
structure OpenText where
  chars : List Char := []
  high : Option Nat := none
  unpaired : Bool := false

/-- A character that stands for itself leaves a waiting surrogate alone. -/
def OpenText.push (t : OpenText) (c : Char) : OpenText :=
  { chars := c :: t.chars, high := none, unpaired := t.unpaired || t.high.isSome }

/-- A sixteen-bit unit given by its number. -/
def OpenText.pushUnit (t : OpenText) (u : Nat) : OpenText :=
  match t.high with
  | some h =>
    if Text.isLowSurrogate u then
      { t with chars := Text.surrogatePair h u :: t.chars, high := none }
    else { t with high := none, unpaired := true }
  | none =>
    if Text.isHighSurrogate u then { t with high := some u }
    else if Text.isLowSurrogate u then { t with unpaired := true }
    else { t with chars := Char.ofNat u :: t.chars }

def OpenText.close (t : OpenText) : Option String :=
  if t.unpaired || t.high.isSome then none else some (String.ofList t.chars.reverse)

/-- Where the scan stands between two characters. -/
inductive Scan where
  | between
  | word (chars : List Char)
  | text (t : OpenText)
  | escape (t : OpenText)
  | unit (t : OpenText) (digits : List Nat)

def punctuation? (c : Char) : Option Token :=
  match c with
  | '\x7b' => some .openBrace
  | '\x7d' => some .closeBrace
  | '[' => some .openBracket
  | ']' => some .closeBracket
  | ',' => some .comma
  | ':' => some .colon
  | _ => none

def isBlank (c : Char) : Bool :=
  c = ' ' || c = '\n' || c = '\t' || c = '\r'

def simpleEscape? (c : Char) : Option Char :=
  match c with
  | '"' => some '"'
  | '\\' => some '\\'
  | '/' => some '/'
  | 'b' => some '\x08'
  | 'f' => some '\x0c'
  | 'n' => some '\n'
  | 'r' => some '\r'
  | 't' => some '\t'
  | _ => none

/-- A character outside strings and words. -/
def scanBetween (c : Char) : Option (List Token × Scan) :=
  if isBlank c then some ([], .between)
  else if c = '"' then some ([], .text {})
  else if isWordChar c then some ([], .word [c])
  else (punctuation? c).map fun t => ([t], .between)

/-- One character: the tokens it completes and the new position of the scan. -/
def scanChar (s : Scan) (c : Char) : Option (List Token × Scan) :=
  match s with
  | .between => scanBetween c
  | .word w =>
    if isWordChar c then some ([], .word (c :: w))
    else do
      let token ← wordToken? w.reverse
      let (tokens, s) ← scanBetween c
      some (token :: tokens, s)
  | .text t =>
    if c = '"' then some ([.text t.close], .between)
    else if c = '\\' then some ([], .escape t)
    else if c.toNat < 0x20 then none
    else some ([], .text (t.push c))
  | .escape t =>
    if c = 'u' then some ([], .unit t [])
    else (simpleEscape? c).map fun e => ([], .text (t.push e))
  | .unit t digits => do
    let d ← Text.hexValue? c
    match digits with
    | [x, y, z] => some ([], .text (t.pushUnit (x * 4096 + y * 256 + z * 16 + d)))
    | _ => some ([], .unit t (digits ++ [d]))

/-- All tokens of a text, from the given position of the scan. -/
def tokens? : Scan → List Char → Option (List Token)
  | .between, [] => some []
  | .word w, [] => (wordToken? w.reverse).map fun t => [t]
  | _, [] => none
  | s, c :: cs =>
    match scanChar s c with
    | none => none
    | some (found, s) => (tokens? s cs).map (found ++ ·)

/-! ## Documents -/

/-- A container still open, with what it holds so far, last first. -/
inductive Frame where
  | array (items : List Json)
  | object (members : List (Option String × Json)) (key : Option String)

/-- What may come next. -/
inductive Expect where
  | value (outer : List Frame)
  | firstItem (outer : List Frame)
  | firstKey (outer : List Frame)
  | key (members : List (Option String × Json)) (outer : List Frame)
  | colon (members : List (Option String × Json)) (key : Option String) (outer : List Frame)
  | separator (frame : Frame) (outer : List Frame)
  | done (document : Json)

/-- A finished value goes to the innermost open container. -/
def Expect.close (j : Json) : List Frame → Expect
  | [] => .done j
  | .array items :: outer => .separator (.array (j :: items)) outer
  | .object members name :: outer => .separator (.object ((name, j) :: members) name) outer

def Expect.startValue (outer : List Frame) : Token → Option Expect
  | .openBrace => some (.firstKey outer)
  | .openBracket => some (.firstItem outer)
  | .null => some (.close .null outer)
  | .bool b => some (.close (.bool b) outer)
  | .number n => some (.close (.number n) outer)
  | .text s => some (.close (.string s) outer)
  | _ => none

def Expect.next : Expect → Token → Option Expect
  | .value outer, t => startValue outer t
  | .firstItem outer, .closeBracket => some (.close (.array []) outer)
  | .firstItem outer, t => startValue (.array [] :: outer) t
  | .firstKey outer, .closeBrace => some (.close (.object []) outer)
  | .firstKey outer, .text k => some (.colon [] k outer)
  | .key members outer, .text k => some (.colon members k outer)
  | .colon members k outer, .colon => some (.value (.object members k :: outer))
  | .separator (.array items) outer, .comma => some (.value (.array items :: outer))
  | .separator (.array items) outer, .closeBracket => some (.close (.array items.reverse) outer)
  | .separator (.object members _) outer, .comma => some (.key members outer)
  | .separator (.object members _) outer, .closeBrace =>
    some (.close (.object members.reverse) outer)
  | _, _ => none

def ofTokens? (e : Expect) (tokens : List Token) : Option Json :=
  match tokens.foldlM Expect.next e with
  | some (.done j) => some j
  | _ => none

/-- The document that a text spells. -/
def parse? (s : String) : Option Json := do
  ofTokens? (.value []) (← tokens? .between s.toList)

end Stackify.Json
