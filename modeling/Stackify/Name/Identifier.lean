/-!
Identifiers of the stack code: letters, digits and underscores, not starting with a digit, and none
of the reserved words. Any text can be cleaned into one.
-/

namespace Stackify.Name

def reserved : List String :=
  ["class", "struct", "union", "namespace", "public", "static", "void"]

def isLetter (c : Char) : Bool := ('a' ≤ c && c ≤ 'z') || ('A' ≤ c && c ≤ 'Z')

def isDigit (c : Char) : Bool := '0' ≤ c && c ≤ '9'

def isWordChar (c : Char) : Bool := isLetter c || isDigit c

def isIdentifier (name : String) : Bool :=
  match name.toList with
  | [] => false
  | c :: cs =>
    (isLetter c || c = '_') && cs.all (fun c => isWordChar c || c = '_') && !reserved.contains name

/-- Puts an underscore in front of a leading digit. -/
def guardDigit (cs : List Char) : List Char :=
  match cs with
  | c :: _ => if isDigit c then '_' :: cs else cs
  | [] => []

/-- Replaces every other character by an underscore; `fallback` if only underscores are left. -/
def clean (name fallback : String) : String :=
  let cs := name.toList.map fun c => if isWordChar c then c else '_'
  if cs.all (· = '_') then fallback
  else
    let cleaned := String.ofList (guardDigit cs)
    if reserved.contains cleaned then "_" ++ cleaned else cleaned

def aggregateTags : List String := ["class.", "struct.", "union."]

/-- The name of an aggregate without the word that says what kind of aggregate it is. -/
def stripTag (name : String) : String :=
  match aggregateTags.find? fun tag => tag.toList.isPrefixOf name.toList with
  | some tag => String.ofList (name.toList.drop tag.length)
  | none => name

end Stackify.Name
