import Stackify.Text.Blank

/-!
Reading a function's signature in its readable form, such as `public: int __cdecl
Shape::area(void)`.

The argument list starts at the first parenthesis outside angle brackets and quotes that does not
belong to a call operator. The last word before it, again outside angle brackets, is the qualified
name; its last scope separator divides the owner from the function. What stands before the name,
without access and calling-convention words, is the return type.
-/

namespace Stackify.Name

structure Signature where
  returnType : Option String
  /-- The scopes that the function is in. -/
  typeName : Option String
  functionName : String
  /-- The qualified name. -/
  identifier : String
  deriving DecidableEq, Repr

def decorations : List String :=
  ["public:", "private:", "protected:", "static", "virtual", "__cdecl", "__stdcall", "__thiscall",
    "__fastcall", "__vectorcall", "__clrcall", "__ptr64"]

def openQuote : Char := '\x60'

def closeQuote : Char := '\x27'

/-! ## Cut points -/

/-- The text before the argument list; `before` is what was passed already, last character first. -/
def headFrom (before : List Char) (depth : Int) (isQuoted : Bool) : List Char → Option (List Char)
  | [] => none
  | c :: cs =>
    if c = openQuote then headFrom (c :: before) depth true cs
    else if c = closeQuote then headFrom (c :: before) depth false cs
    else if isQuoted then headFrom (c :: before) depth isQuoted cs
    else if c = '<' then headFrom (c :: before) (depth + 1) isQuoted cs
    else if c = '>' then headFrom (c :: before) (depth - 1) isQuoted cs
    else if c = '(' && depth = 0 && !("operator".toList.reverse.isPrefixOf before) then
      some before.reverse
    else headFrom (c :: before) depth isQuoted cs

/-- The text before the argument list, if there is one. -/
def head? (cs : List Char) : Option (List Char) := headFrom [] 0 false cs

/-- The last position outside angle brackets where `hit` holds of a character and what follows it,
before the first character on which to `stop`. -/
def lastOutside (stop : Char → Bool) (hit : Char → List Char → Bool) (depth : Int) (at' : Nat)
    (found : Option Nat) : List Char → Option Nat
  | [] => found
  | c :: cs =>
    if c = '<' then lastOutside stop hit (depth + 1) (at' + 1) found cs
    else if c = '>' then lastOutside stop hit (depth - 1) (at' + 1) found cs
    else if stop c then found
    else lastOutside stop hit depth (at' + 1) (if depth = 0 && hit c cs then some at' else found) cs

/-- The last space outside angle brackets. -/
def lastSpace? (cs : List Char) : Option Nat :=
  lastOutside (fun _ => false) (fun c _ => c = ' ') 0 0 none cs

/-- The last scope separator outside angle brackets and before any quote. -/
def lastSeparator? (cs : List Char) : Option Nat :=
  lastOutside (· = openQuote) (fun c rest => c = ':' && rest.head? = some ':') 0 0 none cs

/-- The owner and the last segment of a qualified name. -/
def splitScope? (cs : List Char) : Option (List Char × List Char) :=
  (lastSeparator? cs).map fun i => (cs.take i, cs.drop (i + 2))

/-- The last position of a character. -/
def lastIndexOf? (c : Char) (cs : List Char) : Option Nat :=
  (cs.reverse.findIdx? (· = c)).map fun i => cs.length - 1 - i

/-- Where the qualified name starts: behind the last space outside angle brackets, or, if the name
ends with a quoted part, behind the last space before the quote opens. -/
def nameStart? (head : List Char) : Option Nat :=
  let behind := fun i : Option Nat => (i.map (· + 1)).getD 0
  if head.getLast? = some closeQuote then
    (lastIndexOf? openQuote head).map fun q => behind (lastIndexOf? ' ' (head.take q))
  else some (behind (lastSpace? head))

/-- The words of a return type that are not decorations, joined by single spaces. -/
def returnType? (cs : List Char) : Option String :=
  let tokens := ((Text.words cs).map String.ofList).filter fun w => !decorations.contains w
  if tokens.isEmpty then none else some (" ".intercalate tokens)

/-- Reads a signature; `none` if it has no argument list or no name. -/
def Signature.parse? (text : String) : Option Signature := do
  let head := Text.trimRight (← head? text.toList)
  let start ← nameStart? head
  let identifier := Text.trim (head.drop start)
  if identifier.isEmpty then none
  else
    let (typeName, functionName) := match splitScope? identifier with
      | some (scope, name) => (some (String.ofList scope), String.ofList name)
      | none => (none, String.ofList identifier)
    some ⟨returnType? (head.take start), typeName, functionName, String.ofList identifier⟩

end Stackify.Name
