import Stackify.Number.Binary
import Stackify.Ssa.Opcode
import Stackify.Ssa.Type

/-!
Operands of instructions: results of other instructions, parameters, constants, blocks, globals and
functions. A constant expression is an operation inside an operand; its operands may hold further
ones.
-/

namespace Stackify.Ssa

/-- An instruction result or a parameter. -/
abbrev ValueId := Nat

abbrev BlockId := Nat

/-! ## Constants -/

inductive Constant where
  | int (ty : Ty) (value : Int)
  | float (ty : Ty) (value : Float)
  | null
  | undef (ty : Ty)
  | poison (ty : Ty)
  | zero (ty : Ty)
  | noneToken
  deriving DecidableEq

def Constant.ty : Constant → Ty
  | int ty _ => ty
  | float ty _ => ty
  | null => .pointer
  | undef ty => ty
  | poison ty => ty
  | zero ty => ty
  | noneToken => .token

/-! ## Facts beside operands -/

/-- What an instruction states apart from its operands. -/
inductive Info where
  | plain
  /-- The code of a comparison's predicate. -/
  | predicate (code : Nat)
  | gep (sourceElement : Ty) (inbounds : Bool)
  | alloca (allocated : Ty)
  /-- The blocks that a phi's operands come from, in their order. -/
  | phi (incoming : List BlockId)
  | call (type : FunctionType)
  deriving DecidableEq, Inhabited

/-! ## Operands -/

inductive Operand where
  | value (id : ValueId)
  | const (c : Constant)
  | expr (opcode : Opcode) (ty : Ty) (operands : List Operand) (info : Info)
  | block (id : BlockId)
  | global (name : String)
  | function (name : String)
  deriving Inhabited

namespace Operand

mutual

def same : Operand → Operand → Bool
  | .value a, .value b => a == b
  | .const a, .const b => a == b
  | .expr o t as i, .expr p u bs j => o == p && t == u && sameAll as bs && i == j
  | .block a, .block b => a == b
  | .global a, .global b => a == b
  | .function a, .function b => a == b
  | _, _ => false

def sameAll : List Operand → List Operand → Bool
  | [], [] => true
  | a :: as, b :: bs => same a b && sameAll as bs
  | _, _ => false

end

mutual

theorem same_iff (a b : Operand) : same a b = true ↔ a = b := by
  cases a <;> cases b <;> simp [same]
  case expr.expr o t as i p u bs j => simp [sameAll_iff as bs, and_assoc]

theorem sameAll_iff (a b : List Operand) : sameAll a b = true ↔ a = b := by
  cases a with
  | nil => cases b <;> simp [sameAll]
  | cons x xs =>
    cases b with
    | nil => simp [sameAll]
    | cons y ys => simp [sameAll, same_iff x y, sameAll_iff xs ys]

end

instance : DecidableEq Operand := fun a b => decidable_of_iff _ (same_iff a b)

def value? : Operand → Option ValueId
  | value id => some id
  | _ => none

def block? : Operand → Option BlockId
  | block id => some id
  | _ => none

def constInt? : Operand → Option Int
  | const (.int _ n) => some n
  | _ => none

def isBlock : Operand → Bool
  | block _ => true
  | _ => false

def ofInt (bits : Nat) (n : Int) : Operand := .const (.int (.int bits) n)

def ofBool (b : Bool) : Operand := ofInt 1 (if b then 1 else 0)

def ofDouble (x : Float) : Operand := .const (.float .double x)

/-- The nearest number in single precision. -/
def ofSingle (x : Float) : Operand := .const (.float .float (Number.roundSingle x))

def null : Operand := .const .null

end Operand

end Stackify.Ssa
