import Stackify.Code.Layout
import Stackify.Number.Decimal
import Stackify.Text.Quoted

/-!
Values of the machine. An integer is kept as the signed number that its bits mean at its width;
halves and singles are kept as the doubles they equal.
-/

namespace Stackify.Machine

open Code (Width FloatKind Ty RecordId Const)

/-- A step from an object into one of its parts. -/
inductive PathStep where
  | field (index : Nat)
  | element (index : Int)
  deriving DecidableEq, Repr

/-- A block of byte memory. -/
inductive Region where
  | static (index : Nat)
  | heap (index : Nat)
  deriving DecidableEq, Repr

/-- An address: a local of a frame or a part of it, or an offset into a block. -/
inductive Pointer where
  | ofLocal (frame index : Nat) (path : List PathStep)
  | ofMemory (region : Region) (offset : Nat)
  deriving DecidableEq, Repr

inductive Value where
  | bool (b : Bool)
  | int (width : Width) (n : Int)
  | float (kind : FloatKind) (x : Float)
  | null
  | pointer (p : Pointer)
  | method (index : Nat)
  | record (fields : List Value)
  | array (items : List Value)
  /-- Packed variadic arguments, and how many of them were read. -/
  | varArgs (values : List Value) (cursor : Nat)
  | exception (message : String)
  deriving Inhabited

namespace Value

/-- The integer of a width with the low bits of `n`. -/
def ofInt (w : Width) (n : Int) : Value := .int w (w.wrap n)

/-- The integer that branches, switches and indices see. -/
def toInt? : Value → Option Int
  | .int _ n => some n
  | .bool b => some (if b then 1 else 0)
  | _ => none

def toFloat? : Value → Option Float
  | .float _ x => some x
  | _ => none

/-- What a value means as a condition. -/
def truth? : Value → Option Bool
  | .bool b => some b
  | .int _ n => some (n ≠ 0)
  | .null => some false
  | .pointer _ => some true
  | .method _ => some true
  | _ => none

/-! ## Equality -/

mutual

/-- Equality, with floating-point numbers compared as numbers. -/
def same : Value → Value → Bool
  | .bool a, .bool b => a == b
  | .int w a, .int v b => w == v && a == b
  | .float k a, .float l b => k == l && a == b
  | .null, .null => true
  | .pointer p, .pointer q => p == q
  | .method i, .method j => i == j
  | .record a, .record b => sameAll a b
  | .array a, .array b => sameAll a b
  | .varArgs a i, .varArgs b j => sameAll a b && i == j
  | .exception s, .exception t => s == t
  | _, _ => false

def sameAll : List Value → List Value → Bool
  | [], [] => true
  | a :: as, b :: bs => same a b && sameAll as bs
  | _, _ => false

end

/-! ## Text -/

end Value

def PathStep.text : PathStep → String
  | field i => "Field(" ++ toString i ++ ")"
  | element i => "Element(" ++ toString i ++ ")"

def Region.text : Region → String
  | static i => "Static(" ++ toString i ++ ")"
  | heap i => "Heap(" ++ toString i ++ ")"

def Pointer.text : Pointer → String
  | ofLocal f i path =>
    "Local \x7b frame: " ++ toString f ++ ", local: " ++ toString i ++ ", path: ["
      ++ ", ".intercalate (path.map PathStep.text) ++ "] \x7d"
  | ofMemory r o => "Memory \x7b region: " ++ r.text ++ ", offset: " ++ toString o ++ " \x7d"

mutual

/-- The value as diagnostics show it. -/
def Value.text : Value → String
  | .bool b => "Bool(" ++ toString b ++ ")"
  | .int w n => "Int \x7b width: " ++ w.name ++ ", value: " ++ toString n ++ " \x7d"
  | .float k x => "Float \x7b kind: " ++ k.name ++ ", value: " ++ Number.text x ++ " \x7d"
  | .null => "Null"
  | .pointer p => "Pointer(" ++ p.text ++ ")"
  | .method i => "MethodPointer(" ++ toString i ++ ")"
  | .record fs => "Record([" ++ ", ".intercalate (textAll fs) ++ "])"
  | .array vs => "Array([" ++ ", ".intercalate (textAll vs) ++ "])"
  | .varArgs vs c =>
    "VarArgs(VarArgList \x7b values: [" ++ ", ".intercalate (textAll vs) ++ "], cursor: "
      ++ toString c ++ " \x7d)"
  | .exception s => "Exception(" ++ Text.quoted s ++ ")"

def Value.textAll : List Value → List String
  | [] => []
  | v :: vs => v.text :: textAll vs

end

/-- What an exception says: its message, or the value that was thrown. -/
def Value.exceptionText : Value → String
  | .exception s => s
  | v => v.text

/-! ## Values of types and constants -/

/-- A number rounded to a kind; halves have the precision of singles. -/
def roundTo (k : FloatKind) (x : Float) : Float :=
  match k with
  | .double => x
  | _ => Number.roundSingle x

/-- The default value of a type, given that of each record. -/
def defaultWith (ofRecord : RecordId → Value) : Ty → Value
  | .void => .null
  | .bool => .bool false
  | .int w => .int w 0
  | .float k => .float k 0.0
  | .pointer _ => .null
  | .array e n => .array (List.replicate n (defaultWith ofRecord e))
  | .record id => ofRecord id
  | .varArgs => .varArgs [] 0

def defaultRecord (records : List Code.Record) : Nat → RecordId → Value
  | 0, _ => .record []
  | depth + 1, id =>
    match records[id]? with
    | none => .record []
    | some r => .record (r.fields.map fun f => defaultWith (defaultRecord records depth) f.ty)

/-- Zero numbers, null pointers, and aggregates of them. -/
def defaultValue (records : List Code.Record) (t : Ty) : Value :=
  defaultWith (defaultRecord records records.length) t

def constValue (records : List Code.Record) : Const → Value
  | .bool b => .bool b
  | .int w n => .ofInt w n
  | .float k x => .float k (roundTo k x)
  | .null => .null
  | .default t => defaultValue records t

end Stackify.Machine
