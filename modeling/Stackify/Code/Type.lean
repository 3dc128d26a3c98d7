import Stackify.Number.Power

/-!
Types of the stack machine: integers of five widths, three kinds of floating-point numbers,
pointers, arrays, records by number, and packed variadic arguments.
-/

namespace Stackify.Code

abbrev RecordId := Nat

abbrev Label := Nat

/-! ## Integer widths -/

inductive Width where
  | w8 | w16 | w32 | w64 | w128
  deriving DecidableEq, Repr

namespace Width

def all : List Width := [w8, w16, w32, w64, w128]

def bits : Width → Nat
  | w8 => 8
  | w16 => 16
  | w32 => 32
  | w64 => 64
  | w128 => 128

def bytes (w : Width) : Nat := w.bits / 8

def name : Width → String
  | w8 => "I8"
  | w16 => "I16"
  | w32 => "I32"
  | w64 => "I64"
  | w128 => "I128"

/-- The smallest width that holds the given number of bits. -/
def ofBits? (bits : Nat) : Option Width := all.find? fun w => bits ≤ w.bits

/-- The integer of this width, in two's complement, that agrees with `n` in its low bits. -/
def wrap (w : Width) (n : Int) : Int := n.bmod (Number.pow2 w.bits)

/-- The low bits of `n` as an unsigned number. -/
def unsigned (w : Width) (n : Int) : Int := n % Number.pow2 w.bits

end Width

/-! ## Floating-point kinds -/

inductive FloatKind where
  | half | single | double
  deriving DecidableEq, Repr

namespace FloatKind

def all : List FloatKind := [half, single, double]

def name : FloatKind → String
  | half => "Half"
  | single => "Single"
  | double => "Double"

end FloatKind

/-! ## Operand kinds -/

/-- The class of operands that arithmetic, comparison and conversion work on. -/
inductive NumKind where
  | bool
  | int (width : Width)
  | float (kind : FloatKind)
  | pointer
  deriving DecidableEq, Repr

def NumKind.text : NumKind → String
  | bool => "Bool"
  | int w => "Int(" ++ w.name ++ ")"
  | float k => "Float(" ++ k.name ++ ")"
  | pointer => "Pointer"

/-! ## Types -/

inductive Ty where
  | void
  | bool
  | int (width : Width)
  | float (kind : FloatKind)
  | pointer (target : Ty)
  | array (element : Ty) (length : Nat)
  | record (id : RecordId)
  | varArgs
  deriving DecidableEq, Repr, Inhabited

namespace Ty

/-- The pointer to an object of unknown type. -/
def opaquePointer : Ty := .pointer .void

def isVoid : Ty → Bool
  | void => true
  | _ => false

def isPointer : Ty → Bool
  | pointer _ => true
  | _ => false

def numKind? : Ty → Option NumKind
  | bool => some .bool
  | int w => some (.int w)
  | float k => some (.float k)
  | pointer _ => some .pointer
  | _ => none

/-- The type as diagnostics show it. -/
def text : Ty → String
  | void => "Void"
  | bool => "Bool"
  | int w => "Int(" ++ w.name ++ ")"
  | float k => k.name
  | pointer t => "Pointer(" ++ t.text ++ ")"
  | array e n => "Array(" ++ e.text ++ ", " ++ toString n ++ ")"
  | record id => "Record(RecordId(" ++ toString id ++ "))"
  | varArgs => "VarArgs"

end Ty

end Stackify.Code
