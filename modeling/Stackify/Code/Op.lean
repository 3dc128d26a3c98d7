import Stackify.Code.Service

/-!
Constants and operations of the stack machine.
-/

namespace Stackify.Code

/-! ## Constants -/

inductive Const where
  | bool (value : Bool)
  | int (width : Width) (value : Int)
  | float (kind : FloatKind) (value : Float)
  | null
  /-- The default value of a type. -/
  | default (ty : Ty)
  deriving DecidableEq

/-- Equality of constants as numbers: the two zeros are one, and what is no number equals
nothing. -/
def Const.same : Const → Const → Bool
  | .bool a, .bool b => a == b
  | .int w a, .int v b => w == v && a == b
  | .float k a, .float l b => k == l && a == b
  | .null, .null => true
  | .default s, .default t => s == t
  | _, _ => false

/-- The position of a constant in a pool, and the pool with the constant in it: an equal one is used
again. -/
def intern (pool : List Const) (c : Const) : Nat × List Const :=
  match pool.findIdx? (·.same c) with
  | some i => (i, pool)
  | none => (pool.length, pool ++ [c])

/-! ## Operators -/

inductive BinaryOp where
  | add | sub | mul | div | divUn | rem | remUn | and | or | xor | shl | shr | shrUn
  deriving DecidableEq, Repr

def BinaryOp.all : List BinaryOp :=
  [add, sub, mul, div, divUn, rem, remUn, and, or, xor, shl, shr, shrUn]

def BinaryOp.name : BinaryOp → String
  | add => "Add"
  | sub => "Sub"
  | mul => "Mul"
  | div => "Div"
  | divUn => "DivUn"
  | rem => "Rem"
  | remUn => "RemUn"
  | and => "And"
  | or => "Or"
  | xor => "Xor"
  | shl => "Shl"
  | shr => "Shr"
  | shrUn => "ShrUn"

inductive UnaryOp where
  | neg | not | logicalNot
  deriving DecidableEq, Repr

def UnaryOp.all : List UnaryOp := [neg, not, logicalNot]

def UnaryOp.name : UnaryOp → String
  | neg => "Neg"
  | not => "Not"
  | logicalNot => "LogicalNot"

/-- `gtUn` and `ltUn` compare integers without sign, and hold of floating-point numbers also when
these are unordered. -/
inductive CompareOp where
  | eq | gt | gtUn | lt | ltUn
  deriving DecidableEq, Repr

def CompareOp.all : List CompareOp := [eq, gt, gtUn, lt, ltUn]

def CompareOp.name : CompareOp → String
  | eq => "Eq"
  | gt => "Gt"
  | gtUn => "GtUn"
  | lt => "Lt"
  | ltUn => "LtUn"

/-! ## Operations -/

/-- An operation; the comments show the top of the stack before and after it, top last. -/
inductive Op where
  | label (l : Label)
  | nop
  | loadConst (index : Nat)
  | loadArg (index : Nat)
  | loadLocal (index : Nat)
  | storeLocal (index : Nat)
  | loadLocalAddress (index : Nat)
  /-- Resets a local to the default value of its type. -/
  | initLocal (index : Nat)
  | loadStaticAddress (index : Nat)
  | loadMethodPointer (index : Nat)
  /-- `address` to `value`. -/
  | loadIndirect (ty : Ty)
  /-- `address, value` to nothing. -/
  | storeIndirect (ty : Ty)
  /-- `address` to the address of a field. -/
  | fieldAddress (record : RecordId) (field : Nat)
  /-- `address, index` to the address of an element; the type gives the stride. -/
  | elementAddress (ty : Ty)
  | binary (op : BinaryOp) (kind : NumKind)
  | unary (op : UnaryOp) (kind : NumKind)
  | compare (op : CompareOp) (kind : NumKind)
  | convert (source target : NumKind) (signed : Bool)
  | call (method argCount : Nat)
  /-- `arguments, method pointer` to the result, if there is one. -/
  | callIndirect (argCount : Nat) (returns : Bool)
  | callService (service : Service) (argCount : Nat)
  | packVarArgs (count : Nat)
  /-- `list address` to the next variadic argument, moving the list on. -/
  | nextVarArg (ty : Ty)
  | dup
  | pop
  | branch (target : Label)
  | branchTrue (target : Label)
  | branchFalse (target : Label)
  | switchValue (cases : List (Int × Label)) (default : Label)
  /-- A jump that empties the stack and so may leave protected code and handlers. -/
  | leave (target : Label)
  | ret
  | throw
  | unreachable
  deriving DecidableEq, Repr

namespace Op

/-- The labels that an operation may jump to. -/
def targets : Op → List Label
  | branch l | branchTrue l | branchFalse l | leave l => [l]
  | switchValue cases default => cases.map (·.2) ++ [default]
  | _ => []

end Op

end Stackify.Code
