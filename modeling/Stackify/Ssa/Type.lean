/-!
Types of the source: a low-level, typed program representation in static single assignment form. A
pointer does not say what it points to; whoever needs the pointee finds it at the use.
-/

namespace Stackify.Ssa

inductive Ty where
  | void
  | int (bits : Nat)
  | half
  | float
  | double
  | pointer
  | array (element : Ty) (length : Nat)
  | vector (element : Ty) (length : Nat)
  /-- An aggregate by its name; its fields stand in the module. -/
  | struct (name : String)
  /-- An aggregate without a name. -/
  | literal (fields : List Ty) (packed : Bool)
  | function (ret : Ty) (params : List Ty) (variadic : Bool)
  | label
  | token
  | metadata
  deriving Inhabited, Repr

namespace Ty

/-! ## Equality -/

mutual

def same : Ty → Ty → Bool
  | .void, .void => true
  | .int a, .int b => a == b
  | .half, .half => true
  | .float, .float => true
  | .double, .double => true
  | .pointer, .pointer => true
  | .array a m, .array b n => same a b && m == n
  | .vector a m, .vector b n => same a b && m == n
  | .struct a, .struct b => a == b
  | .literal a p, .literal b q => sameAll a b && p == q
  | .function r a v, .function s b w => same r s && sameAll a b && v == w
  | .label, .label => true
  | .token, .token => true
  | .metadata, .metadata => true
  | _, _ => false

def sameAll : List Ty → List Ty → Bool
  | [], [] => true
  | a :: as, b :: bs => same a b && sameAll as bs
  | _, _ => false

end

mutual

theorem same_iff (a b : Ty) : same a b = true ↔ a = b := by
  cases a <;> cases b <;> simp [same]
  case array.array a m b n => simp [same_iff a b]
  case vector.vector a m b n => simp [same_iff a b]
  case literal.literal a p b q => simp [sameAll_iff a b]
  case function.function r a v s b w => simp [same_iff r s, sameAll_iff a b, and_assoc]

theorem sameAll_iff (a b : List Ty) : sameAll a b = true ↔ a = b := by
  cases a with
  | nil => cases b <;> simp [sameAll]
  | cons x xs =>
    cases b with
    | nil => simp [sameAll]
    | cons y ys => simp [sameAll, same_iff x y, sameAll_iff xs ys]

end

instance : DecidableEq Ty := fun a b => decidable_of_iff _ (same_iff a b)

/-! ## Classes -/

def isVoid : Ty → Bool
  | void => true
  | _ => false

def isInteger : Ty → Bool
  | int _ => true
  | _ => false

def isFloat : Ty → Bool
  | half | float | double => true
  | _ => false

def isPointer : Ty → Bool
  | pointer => true
  | _ => false

def isAggregate : Ty → Bool
  | struct _ | literal _ _ | array _ _ => true
  | _ => false

def bits? : Ty → Option Nat
  | int bits => some bits
  | _ => none

end Ty

/-- The type of a function. -/
structure FunctionType where
  ret : Ty
  params : List Ty
  variadic : Bool := false
  deriving DecidableEq, Repr, Inhabited

def FunctionType.toTy (t : FunctionType) : Ty := .function t.ret t.params t.variadic

end Stackify.Ssa
