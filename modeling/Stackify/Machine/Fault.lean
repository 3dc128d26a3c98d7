import Stackify.Machine.Value

/-!
Faults: the ways in which a run ends without a result. A fault cannot be caught; some faults say
that the program asked for something the machine does not model.
-/

namespace Stackify.Machine

open Code (Ty BinaryOp UnaryOp NumKind Service Label)

inductive Fault where
  -- calls and control
  | missingMethodNamed (name : String)
  | missingMethod (index : Nat)
  | argumentCount (method : String) (expected passed : Nat)
  | callDepth (method : String)
  | ranPastEnd (method : String)
  | reachedUnreachable (method : String)
  | unmarkedLabel (l : Label)
  | indirectCall (callee : Value)
  | noResult (method : Nat)
  | branchOn (v : Value)
  | switchOn (v : Value)
  -- operands
  | stackUnderflow
  | missingConst (index : Nat)
  | missingArgument (index : Nat)
  | missingLocal (index frame : Nat)
  | expectsInteger (operation : String) (v : Value)
  | expectsFloat (operation : String) (v : Value)
  | expectsBool (operation : String) (v : Value)
  | divisionByZero
  | logicalNotOf (v : Value)
  -- addresses
  | nullDereference
  | notAddress (v : Value)
  | staleLocal (index frame : Nat)
  | cannotApply (step : PathStep) (ty : Ty)
  | outsideObject (step : PathStep)
  | indexNotInteger (v : Value)
  | indexOutOfRange (index : Int)
  | belowStart (region : Region)
  | unknownRecord (id : Nat)
  -- memory
  | outsideBlock (size offset length : Nat)
  | doubleFree (block : Nat)
  | freeOfStatic (static : Nat)
  | dangling (region : Region)
  | storedAsInteger (v : Value)
  -- variadic lists
  | varArgOver (v : Value)
  | pastLastVarArg
  -- services
  | serviceArguments (s : Service)
  | invalidSize (s : Service) (v : Value)
  | reallocOf (v : Value)
  | freeOf (v : Value)
  | copyBetween (source target : Value)
  | memsetOf (v : Value)
  | notStringAddress (v : Value)
  -- not modelled
  | loadOf (ty : Ty)
  | storeOf (v : Value) (ty : Ty)
  | binaryOn (op : BinaryOp) (operands : String)
  | unaryOn (op : UnaryOp) (kind : NumKind)
  | unrelatedPointers (a b : Value)
  | noConversion (source target : NumKind)
  | pointerAsInteger (v : Value)
  | integerAsPointer (n : Int)
  | pointerArithmetic (step : Int) (index : Nat)
  | partialCopy (size expected : Nat)
  | memsetLocal (byte : Nat)
  -- ends of a run
  | terminated
  | uncaught (v : Value)

/-- The classes of faults that reports tell apart. -/
inductive FaultKind where
  | runtime | unsupported | terminated | unhandledException
  deriving DecidableEq, Repr

namespace Fault

def kind : Fault → FaultKind
  | loadOf _ | storeOf _ _ | binaryOn _ _ | unaryOn _ _ | unrelatedPointers _ _ | noConversion _ _
  | pointerAsInteger _ | integerAsPointer _ | pointerArithmetic _ _ | partialCopy _ _
  | memsetLocal _ => .unsupported
  | terminated => .terminated
  | uncaught _ => .unhandledException
  | _ => .runtime

/-- The wording without the class in front. -/
def detail : Fault → String
  | missingMethodNamed n => "missing method " ++ n
  | missingMethod i => "missing method " ++ toString i
  | argumentCount m e p =>
    "method " ++ m ++ " expects " ++ toString e ++ " args but got " ++ toString p
  | callDepth m => "call depth exceeded entering " ++ m
  | ranPastEnd m => "method " ++ m ++ " ran past its last op"
  | reachedUnreachable m => "reached unreachable code in " ++ m
  | unmarkedLabel l => "jump to unmarked label L" ++ toString l
  | indirectCall v => "indirect call through " ++ v.text
  | noResult i => "method " ++ toString i ++ " returned no value"
  | branchOn v => "branch on " ++ v.text
  | switchOn v => "switch on " ++ v.text
  | stackUnderflow => "stack underflow"
  | missingConst i => "missing const " ++ toString i
  | missingArgument i => "missing argument " ++ toString i
  | missingLocal i f => "missing local " ++ toString i ++ " in frame " ++ toString f
  | expectsInteger op v => op ++ " expects an integer operand, got " ++ v.text
  | expectsFloat op v => op ++ " expects a float operand, got " ++ v.text
  | expectsBool op v => op ++ " expects a bool operand, got " ++ v.text
  | divisionByZero => "integer division by zero"
  | logicalNotOf v => "logical not of " ++ v.text
  | nullDereference => "null dereference"
  | notAddress v => v.text ++ " is not an address"
  | staleLocal i f => "address of local " ++ toString i ++ " in frame " ++ toString f ++ " is stale"
  | cannotApply s t => "cannot apply " ++ s.text ++ " to " ++ t.text
  | outsideObject s => s.text ++ " is outside the addressed object"
  | indexNotInteger v => "element index " ++ v.text ++ " is not an integer"
  | indexOutOfRange n => "element index " ++ toString n ++ " out of range"
  | belowStart r => "address arithmetic below the start of " ++ r.text
  | unknownRecord id => "unknown record " ++ toString id
  | outsideBlock s o l => "access of " ++ toString s ++ " bytes at offset " ++ toString o
      ++ " outside a block of " ++ toString l ++ " bytes"
  | doubleFree b => "double free of heap block " ++ toString b
  | freeOfStatic s => "free of static " ++ toString s
  | dangling r => "dangling address into " ++ r.text
  | storedAsInteger v => "storing " ++ v.text ++ " as an integer"
  | varArgOver v => "va_arg over " ++ v.text
  | pastLastVarArg => "read past the last variadic argument"
  | serviceArguments s => s.symbol ++ " expects " ++ toString s.arity ++ " arguments"
  | invalidSize s v => s.symbol ++ " got an invalid size " ++ v.text
  | reallocOf v => "realloc of " ++ v.text
  | freeOf v => "free of " ++ v.text
  | copyBetween s t => "memory copy from " ++ s.text ++ " to " ++ t.text
  | memsetOf v => "memset of " ++ v.text
  | notStringAddress v => v.text ++ " is not a string address"
  | loadOf t => "memory load of " ++ t.text
  | storeOf v t => "memory store of " ++ v.text ++ " as " ++ t.text
  | binaryOn op operands => "binary op " ++ op.name ++ " on " ++ operands
  | unaryOn op k => "unary op " ++ op.name ++ " on " ++ k.text
  | unrelatedPointers a b => "ordering of unrelated pointers " ++ a.text ++ " and " ++ b.text
  | noConversion s t => "conversion from " ++ s.text ++ " to " ++ t.text
  | pointerAsInteger v => "pointer " ++ v.text ++ " has no integer representation"
  | integerAsPointer n => "integer " ++ toString n ++ " cannot be used as an address"
  | pointerArithmetic s i =>
    "pointer arithmetic by " ++ toString s ++ " outside local " ++ toString i
  | partialCopy s e =>
    "partial copy of " ++ toString s ++ " bytes over a " ++ toString e ++ "-byte local object"
  | memsetLocal b => "memset of a local with byte " ++ toString b
  | terminated => "program terminated"
  | uncaught v => v.exceptionText

def message (f : Fault) : String :=
  match f.kind with
  | .runtime => "vm error: " ++ f.detail
  | .unsupported => "unsupported bytecode: " ++ f.detail
  | .terminated => f.detail
  | .unhandledException => "unhandled exception: " ++ f.detail

end Fault

end Stackify.Machine
