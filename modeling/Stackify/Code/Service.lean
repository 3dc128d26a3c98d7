import Stackify.Code.Type

/-!
Services that the machine itself performs for running code: allocation, raw memory, variadic lists,
output, and the two ways to fail.
-/

namespace Stackify.Code

inductive Service where
  | alloc
  | reAlloc
  | free
  /-- Resizing in place, which always declines. -/
  | expand
  | memCopy
  | memMove
  | memSet
  | vaCopy
  | putString
  /-- A failure that handlers can catch. -/
  | assertFailure
  /-- A failure that ends the run. -/
  | terminate
  deriving DecidableEq, Repr

namespace Service

def all : List Service :=
  [alloc, reAlloc, free, expand, memCopy, memMove, memSet, vaCopy, putString,
    assertFailure, terminate]

def name : Service → String
  | alloc => "Alloc"
  | reAlloc => "ReAlloc"
  | free => "Free"
  | expand => "Expand"
  | memCopy => "MemCopy"
  | memMove => "MemMove"
  | memSet => "MemSet"
  | vaCopy => "VaCopy"
  | putString => "PutString"
  | assertFailure => "AssertFailure"
  | terminate => "Terminate"

def symbol (s : Service) : String := "Runtime." ++ s.name

def arity : Service → Nat
  | terminate => 0
  | alloc | free | putString => 1
  | reAlloc | expand | vaCopy => 2
  | memCopy | memMove | memSet | assertFailure => 3

def returns : Service → Ty
  | alloc | reAlloc | expand => .opaquePointer
  | putString => .int .w32
  | _ => .void

end Service

end Stackify.Code
