import Stackify.Code.Op

/-!
Programs of the stack machine: records, static data and methods. The body of a method is a flat list
of operations with symbolic labels, typed locals and protected ranges.
-/

namespace Stackify.Code

structure Field where
  name : String
  ty : Ty
  deriving DecidableEq, Repr

structure Record where
  name : String
  /-- The name of the aggregate that the record stands for. -/
  symbol : String
  fields : List Field
  packed : Bool
  deriving DecidableEq, Repr

structure Static where
  name : String
  ty : Ty
  init : Option (List UInt8)
  deriving DecidableEq

structure MethodType where
  params : List Ty
  ret : Ty
  variadic : Bool
  deriving DecidableEq, Repr

/-- The number of arguments, with one more for the packed arguments of a variadic method. -/
def MethodType.argSlots (t : MethodType) : Nat := t.params.length + t.variadic.toNat

inductive Visibility where
  | exported | internal
  deriving DecidableEq, Repr

/-- Code from `tryStart` to `tryEnd` is protected: an exception raised there continues at
`handlerStart`, with the exception on the stack. -/
structure Region where
  tryStart : Label
  tryEnd : Label
  handlerStart : Label
  handlerEnd : Label
  deriving DecidableEq, Repr

def Region.labels (r : Region) : List Label := [r.tryStart, r.tryEnd, r.handlerStart, r.handlerEnd]

structure Body where
  locals : List Ty := []
  ops : List Op := []
  regions : List Region := []
  labelCount : Nat := 0
  deriving DecidableEq, Repr

structure Method where
  name : String
  symbol : String
  visibility : Visibility
  type : MethodType
  paramNames : List String
  body : Body
  deriving DecidableEq, Repr

structure Program where
  name : String := ""
  consts : List Const := []
  records : List Record := []
  statics : List Static := []
  methods : List Method := []
  deriving DecidableEq

/-- The index of the first method with a name. -/
def Program.methodIndex? (p : Program) (name : String) : Option Nat :=
  p.methods.findIdx? fun m => m.name = name

/-! ## Labels -/

/-- The last position of a label in code that starts at position `i`. -/
def positionFrom (l : Label) (i : Nat) : List Op → Option Nat
  | [] => none
  | op :: ops =>
    match positionFrom l (i + 1) ops with
    | some j => some j
    | none => if op = .label l then some i else none

/-- Where a label stands in code; of several marks the last one counts. -/
def position? (ops : List Op) (l : Label) : Option Nat := positionFrom l 0 ops

/-- The labels that are marked in code, in order. -/
def markedLabels (ops : List Op) : List Label :=
  ops.filterMap fun op => match op with
    | .label l => some l
    | _ => none

end Stackify.Code
