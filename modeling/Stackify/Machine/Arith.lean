import Stackify.Machine.Fault

/-!
Arithmetic, comparison and conversion.

Integer operations are exact at their width: results wrap, division truncates toward zero, shift
amounts count modulo the width. A single bit adds without carry; as a signed number it is zero or
minus one.
-/

namespace Stackify.Machine

open Code (Width FloatKind NumKind BinaryOp UnaryOp CompareOp)

/-! ## Operands -/

def intOperand (operation : String) (v : Value) : Except Fault Int :=
  match v.toInt? with
  | some n => .ok n
  | none => .error (.expectsInteger operation v)

def floatOperand (operation : String) (v : Value) : Except Fault Float :=
  match v.toFloat? with
  | some x => .ok x
  | none => .error (.expectsFloat operation v)

def boolOperand (operation : String) : Value → Except Fault Bool
  | .bool b => .ok b
  | .int _ n => .ok (n % 2 ≠ 0)
  | v => .error (.expectsBool operation v)

/-! ## Binary operators -/

/-- The bitwise operation on the low bits of two integers. -/
def bitwise (w : Width) (f : BitVec w.bits → BitVec w.bits → BitVec w.bits) (a b : Int) : Int :=
  (f (.ofInt w.bits a) (.ofInt w.bits b)).toInt

/-- By how many places a shift moves. -/
def shiftAmount (w : Width) (b : Int) : Nat := (w.unsigned b).toNat % w.bits

/-- The result before it is wrapped to the width; `none` for a division by zero. -/
def intBinary? (op : BinaryOp) (w : Width) (a b : Int) : Option Int :=
  let divide := fun q : Int => if w.unsigned b = 0 then none else some q
  match op with
  | .add => some (a + b)
  | .sub => some (a - b)
  | .mul => some (a * b)
  | .div => divide (a.tdiv b)
  | .rem => divide (a.tmod b)
  | .divUn => divide (w.unsigned a / w.unsigned b)
  | .remUn => divide (w.unsigned a % w.unsigned b)
  | .and => some (bitwise w (· &&& ·) a b)
  | .or => some (bitwise w (· ||| ·) a b)
  | .xor => some (bitwise w (· ^^^ ·) a b)
  | .shl => some (a * Number.pow2 (shiftAmount w b))
  | .shr => some (a / Number.pow2 (shiftAmount w b))
  | .shrUn => some (w.unsigned a / Number.pow2 (shiftAmount w b))

def boolBinary? (op : BinaryOp) (a b : Bool) : Option Bool :=
  match op with
  | .and | .mul => some (a && b)
  | .or => some (a || b)
  | .xor | .add | .sub => some (a ^^ b)
  | _ => none

def floatBinary? (op : BinaryOp) (x y : Float) : Option Float :=
  match op with
  | .add => some (x + y)
  | .sub => some (x - y)
  | .mul => some (x * y)
  | .div => some (x / y)
  | .rem => some (Number.remainder x y)
  | _ => none

def binary (op : BinaryOp) (kind : NumKind) (left right : Value) : Except Fault Value :=
  match kind with
  | .int w => do
    let a ← intOperand "binary op" left
    let b ← intOperand "binary op" right
    match intBinary? op w a b with
    | some n => .ok (.ofInt w n)
    | none => .error .divisionByZero
  | .bool => do
    let a ← boolOperand "binary op" left
    let b ← boolOperand "binary op" right
    match boolBinary? op a b with
    | some c => .ok (.bool c)
    | none => .error (.binaryOn op "bool")
  | .float k => do
    let x ← floatOperand "binary op" left
    let y ← floatOperand "binary op" right
    match floatBinary? op x y with
    | some z => .ok (.float k (roundTo k z))
    | none => .error (.binaryOn op "floats")
  | .pointer => .error (.binaryOn op "pointers")

/-! ## Unary operators -/

def unary (op : UnaryOp) (kind : NumKind) (v : Value) : Except Fault Value :=
  match op, kind with
  | .logicalNot, _ =>
    match v.truth? with
    | some b => .ok (.bool !b)
    | none => .error (.logicalNotOf v)
  | .neg, .int w => (intOperand "neg" v).map fun n => .ofInt w (-n)
  | .not, .int w => (intOperand "not" v).map fun n => .ofInt w (-n - 1)
  | .neg, .float k => (floatOperand "neg" v).map fun x => .float k (-x)
  | .neg, .bool => (boolOperand "not" v).map fun b => .bool !b
  | .not, .bool => (boolOperand "not" v).map fun b => .bool !b
  | op, kind => .error (.unaryOn op kind)

/-! ## Comparison -/

def intCompare (op : CompareOp) (w : Width) (a b : Int) : Bool :=
  match op with
  | .eq => a = b
  | .gt => b < a
  | .lt => a < b
  | .gtUn => w.unsigned b < w.unsigned a
  | .ltUn => w.unsigned a < w.unsigned b

/-- A set bit is the smaller one with sign and the larger one without. -/
def boolCompare (op : CompareOp) (a b : Bool) : Bool :=
  match op with
  | .eq => a == b
  | .gt => !a && b
  | .lt => a && !b
  | .gtUn => a && !b
  | .ltUn => !a && b

def floatCompare (op : CompareOp) (x y : Float) : Bool :=
  match op with
  | .eq => x == y
  | .gt => y < x
  | .lt => x < y
  | .gtUn => !(x ≤ y)
  | .ltUn => !(y ≤ x)

/-- Any two pointers can be equal; only addresses in one block are ordered. -/
def comparePointers (op : CompareOp) (left right : Value) : Except Fault Bool :=
  match op, left, right with
  | .eq, _, _ => .ok (left.same right)
  | op, .pointer (.ofMemory r x), .pointer (.ofMemory s y) =>
    if r = s then .ok (if op = .gt || op = .gtUn then y < x else x < y)
    else .error (.unrelatedPointers left right)
  | _, _, _ => .error (.unrelatedPointers left right)

def compare (op : CompareOp) (kind : NumKind) (left right : Value) : Except Fault Bool :=
  match kind with
  | .int w => do
    let a ← intOperand "compare" left
    let b ← intOperand "compare" right
    return intCompare op w a b
  | .bool => do
    let a ← boolOperand "compare" left
    let b ← boolOperand "compare" right
    return boolCompare op a b
  | .float _ => do
    let x ← floatOperand "compare" left
    let y ← floatOperand "compare" right
    return floatCompare op x y
  | .pointer => comparePointers op left right

/-! ## Conversion -/

/-- A bit as a number. -/
def bitValue (signed b : Bool) : Int := if b then if signed then -1 else 1 else 0

def convert (source target : NumKind) (signed : Bool) (v : Value) : Except Fault Value :=
  match source, target with
  | .int w, .int u =>
    (intOperand "convert" v).map fun n => .ofInt u (if signed then n else w.unsigned n)
  | .bool, .int u => (boolOperand "convert" v).map fun b => .ofInt u (bitValue signed b)
  | .int _, .bool => (intOperand "convert" v).map fun n => .bool (n % 2 ≠ 0)
  | .bool, .bool => (boolOperand "convert" v).map .bool
  | .int w, .float k => (intOperand "convert" v).map fun n =>
    .float k (roundTo k (Number.ofInt (if signed then n else w.unsigned n)))
  | .bool, .float k =>
    (boolOperand "convert" v).map fun b => .float k (Number.ofInt (bitValue signed b))
  | .float _, .int u => (floatOperand "convert" v).map fun x =>
    .ofInt u (if signed then Number.toSigned 128 x else Number.toUnsigned 128 x)
  | .float _, .bool => (floatOperand "convert" v).map fun x => .bool (x != 0.0)
  | .float _, .float k => (floatOperand "convert" v).map fun x => .float k (roundTo k x)
  | .pointer, .pointer => .ok v
  | .pointer, .int u =>
    match v with
    | .null => .ok (.ofInt u 0)
    | v => .error (.pointerAsInteger v)
  | .int _, .pointer => do
    let n ← intOperand "convert" v
    if n = 0 then return .null else throw (.integerAsPointer n)
  | source, target => .error (.noConversion source target)

end Stackify.Machine
