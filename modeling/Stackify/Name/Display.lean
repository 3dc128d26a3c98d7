import Stackify.Name.Signature
import Stackify.Options

/-!
Names under which functions are shown: an override if there is one, else the name in the readable
signature, else the name inside the symbol.
-/

namespace Stackify.Name

/-- The simple name inside a decorated symbol: what stands between its marks and the first at
sign. -/
def symbolName (symbol : String) : String :=
  match symbol.toList with
  | '?' :: '?' :: '$' :: cs => String.ofList (cs.takeWhile (· ≠ '@'))
  | '?' :: cs => String.ofList (cs.takeWhile (· ≠ '@'))
  | _ => symbol

/-- Constructors, destructors and deleting destructors are named after their type. -/
def signatureName (s : Signature) : String :=
  let typeName := s.typeName.getD ""
  let lastSegment := match splitScope? typeName.toList with
    | some (_, last) => String.ofList last
    | none => typeName
  if s.returnType.isNone && typeName ≠ "" && s.functionName = lastSegment then
    clean typeName "Type" ++ "_Constructor"
  else if s.returnType.isNone && s.functionName = "~" ++ lastSegment then
    clean typeName "Type" ++ "_Destructor"
  else if s.returnType = some "void *" && s.functionName = "\x60scalar deleting dtor\x27" then
    clean typeName "Type" ++ "_Delete"
  else clean s.identifier "Function"

/-- The display name of a function, given its symbol and its readable signature. -/
def displayName (symbol : String) (readable : Option String) (renamed : List (String × String)) :
    Except Options.Problem String :=
  match renamed.lookup symbol with
  | some name => if isIdentifier name then .ok name else .error (.renamed symbol name)
  | none =>
    let parsed := match readable with
      | some text => if text = "" || text = symbol then none else Signature.parse? text
      | none => none
    match parsed with
    | some s => .ok (signatureName s)
    | none => .ok (clean (symbolName symbol) "Function")

end Stackify.Name
