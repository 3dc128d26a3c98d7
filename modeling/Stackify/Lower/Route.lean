import Stackify.Code.Service

/-!
Declared functions without a body that the machine itself provides.
-/

namespace Stackify.Lower

open Code (Service)

/-- How a call to a declared function is carried out. -/
inductive Route where
  | service (s : Service)
  /-- Stores the packed arguments into a variadic list. -/
  | vaStart
  /-- Does nothing. -/
  | vaEnd
  deriving DecidableEq, Repr

namespace Route

/-- Whether the call can raise an exception. -/
def mayThrow : Route → Bool
  | service .assertFailure => true
  | _ => false

def ofIntrinsic? (name : List Char) : Option Route :=
  match String.ofList (name.takeWhile (· ≠ '.')) with
  | "memcpy" => some (.service .memCopy)
  | "memmove" => some (.service .memMove)
  | "memset" => some (.service .memSet)
  | "va_start" => some .vaStart
  | "va_end" => some .vaEnd
  | "va_copy" => some (.service .vaCopy)
  | "va" => if "va.copy".toList.isPrefixOf name then some (.service .vaCopy) else none
  | _ => none

/-- The route of a symbol. Intrinsics are known by the part of their name before the types. -/
def ofSymbol? (symbol : String) : Option Route :=
  match symbol with
  | "malloc" | "??2@YAPEAX_K@Z" => some (.service .alloc)
  | "realloc" => some (.service .reAlloc)
  | "free" | "??3@YAXPEAX_K@Z" => some (.service .free)
  | "_expand" | "expand" => some (.service .expand)
  | "memcpy" => some (.service .memCopy)
  | "memmove" => some (.service .memMove)
  | "memset" => some (.service .memSet)
  | "puts" => some (.service .putString)
  | "_wassert" => some (.service .assertFailure)
  | "_invoke_watson" | "__std_terminate" | "abort" => some (.service .terminate)
  | _ =>
    match symbol.toList with
    | 'l' :: 'l' :: 'v' :: 'm' :: '.' :: rest => ofIntrinsic? rest
    | _ => none

end Route

end Stackify.Lower
