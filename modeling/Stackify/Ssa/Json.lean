import Stackify.Code.Json
import Stackify.Ssa.Module
import Stackify.Number.Decimal

/-!
JSON form of modules. How a floating-point constant is written is a parameter: documents that are
read again hold decimal numbers, exact reports hold bit patterns.
-/

namespace Stackify.Ssa

open Code (choice octets?)
open Json (Reader fields? items? named? leaf text? bool? nat? optionalField)

/-! ## Writing -/

/-- A number as its shortest decimal; what is not finite has none. -/
def decimalFloat (x : Float) : Json :=
  if x.isNaN || x.isInf then .null
  else
    let cs := (Number.text x).toList
    let digits := cs.filter (· ≠ '-')
    let whole := digits.takeWhile Char.isDigit
    let rest := digits.drop whole.length
    let fraction := match rest with
      | '.' :: r => some (r.takeWhile Char.isDigit)
      | _ => none
    let exponent := (cs.dropWhile (· ≠ 'e')).drop 1
    .number { negative := cs.head? = some '-', whole, fraction,
              exponent := if exponent.isEmpty then none
                else some (exponent.head? = some '-', exponent.filter (· ≠ '-')) }

/-- A number as its bit pattern; what is not finite has none. -/
def bitsFloat (x : Float) : Json := if x.isNaN || x.isInf then .null else Code.floatToJson x

mutual

def Ty.toJson : Ty → Json
  | .void => .text "Void"
  | .int bits => choice "Int" (.nat bits)
  | .half => .text "Half"
  | .float => .text "Float"
  | .double => .text "Double"
  | .pointer => .text "Pointer"
  | .array e n => choice "Array" (.array [e.toJson, .nat n])
  | .vector e n => choice "Vector" (.array [e.toJson, .nat n])
  | .struct name => choice "Struct" (.text name)
  | .literal fields packed =>
    choice "Literal" (.record [("fields", .array (toJsonAll fields)), ("packed", .bool packed)])
  | .function ret params variadic => choice "Function" (.record
      [("ret", ret.toJson), ("params", .array (toJsonAll params)), ("variadic", .bool variadic)])
  | .label => .text "Label"
  | .token => .text "Token"
  | .metadata => .text "Metadata"

def Ty.toJsonAll : List Ty → List Json
  | [] => []
  | t :: ts => t.toJson :: toJsonAll ts

end

def FunctionType.toJson (t : FunctionType) : Json :=
  .record [("ret", t.ret.toJson), ("params", .list Ty.toJson t.params),
    ("variadic", .bool t.variadic)]

def Constant.toJson (float : Float → Json) : Constant → Json
  | .int ty n => choice "Int" (.record [("ty", ty.toJson), ("value", .int n)])
  | .float ty x => choice "Float" (.record [("ty", ty.toJson), ("value", float x)])
  | .null => .text "Null"
  | .undef ty => choice "Undef" ty.toJson
  | .poison ty => choice "Poison" ty.toJson
  | .zero ty => choice "Zero" ty.toJson
  | .noneToken => .text "NoneToken"

def Info.toJson : Info → Json
  | .plain => .text "None"
  | .predicate code => choice "Predicate" (.nat code)
  | .gep ty inbounds =>
    choice "Gep" (.record [("source_element", ty.toJson), ("inbounds", .bool inbounds)])
  | .alloca ty => choice "Alloca" (.record [("allocated", ty.toJson)])
  | .phi incoming => choice "Phi" (.record [("incoming_blocks", .list .nat incoming)])
  | .call type => choice "Call" (.record [("function_type", type.toJson)])

mutual

def Operand.toJson (float : Float → Json) : Operand → Json
  | .value id => choice "Value" (.nat id)
  | .const c => choice "Const" (c.toJson float)
  | .expr opcode ty operands info => choice "Expr" (.record
      [("opcode", .text opcode.name), ("ty", ty.toJson),
        ("operands", .array (toJsonAll float operands)), ("info", info.toJson)])
  | .block id => choice "Block" (.nat id)
  | .global name => choice "Global" (.text name)
  | .function name => choice "Function" (.text name)

def Operand.toJsonAll (float : Float → Json) : List Operand → List Json
  | [] => []
  | o :: os => o.toJson float :: toJsonAll float os

end

def Instruction.toJson (float : Float → Json) (i : Instruction) : Json :=
  .record [("id", .nat i.id), ("name", .option .text i.name), ("opcode", .text i.opcode.name),
    ("ty", i.ty.toJson), ("operands", .list (Operand.toJson float) i.operands),
      ("info", i.info.toJson)]

def Block.toJson (float : Float → Json) (b : Block) : Json :=
  .record [("id", .nat b.id), ("name", .option .text b.name),
    ("instructions", .list (Instruction.toJson float) b.instructions)]

def Attribute.toJson : Attribute → Json
  | .structRet ty => choice "StructRet" ty.toJson
  | .byVal ty => choice "ByVal" ty.toJson
  | .noUnwind => .text "NoUnwind"
  | .noReturn => .text "NoReturn"
  | .other text => choice "Other" (.text text)

def Param.toJson (p : Param) : Json :=
  .record [("id", .nat p.id), ("name", .option .text p.name), ("ty", p.ty.toJson),
    ("attributes", .list Attribute.toJson p.attributes)]

def Function.toJson (float : Float → Json) (f : Function) : Json :=
  .record [("name", .text f.name), ("demangled_name", .option .text f.readable),
    ("ty", f.type.toJson), ("params", .list Param.toJson f.params),
      ("attributes", .list Attribute.toJson f.attributes),
    ("return_attributes", .list Attribute.toJson f.returnAttributes),
      ("personality", .option .text f.personality),
    ("blocks", .list (Block.toJson float) f.blocks)]

def Struct.toJson (s : Struct) : Json :=
  .record [("name", .text s.name), ("fields", .list Ty.toJson s.fields), ("packed", .bool s.packed)]

def Global.toJson (g : Global) : Json :=
  .record [("name", .text g.name), ("ty", g.ty.toJson),
    ("initializer", .option (.list fun b => .nat b.toNat) g.initializer),
      ("constant", .bool g.constant)]

def Module.toJson (float : Float → Json) (m : Module) : Json :=
  .record [("name", .text m.name), ("structs", .list Struct.toJson m.structs),
    ("globals", .list Global.toJson m.globals),
      ("functions", .list (Function.toJson float) m.functions)]

/-! ## Reading -/

def unitTypes : List (String × Ty) :=
  [("Void", .void), ("Half", .half), ("Float", .float), ("Double", .double), ("Pointer", .pointer),
    ("Label", .label), ("Token", .token), ("Metadata", .metadata)]

/-- The parts of a function's type, given how to read a type. -/
def signature? (ty : Reader Ty) : Reader FunctionType := fun depth j => do
  match ← fields? ["ret", "params", "variadic"] depth j with
  | (depth, [some r, some ps, some v]) => return ⟨← ty depth r, ← items? ty depth ps, ← v.bool?⟩
  | _ => none

/-- Reads a type of at most `fuel` levels. -/
def Ty.read : Nat → Reader Ty
  | 0, _, _ => none
  | fuel + 1, depth, j =>
    match Json.variant? depth j with
    | some ("Int", _, some n) => (n.nat? 32).map .int
    | some ("Array", depth, some c) =>
      (Json.pair? (Ty.read fuel) (leaf (nat? 64)) depth c).map fun (e, n) => .array e n
    | some ("Vector", depth, some c) =>
      (Json.pair? (Ty.read fuel) (leaf (nat? 32)) depth c).map fun (e, n) => .vector e n
    | some ("Struct", _, some name) => name.text?.map .struct
    | some ("Literal", depth, some c) =>
      match fields? ["fields", "packed"] depth c with
      | some (depth, [some fs, some p]) =>
        do return .literal (← items? (Ty.read fuel) depth fs) (← p.bool?)
      | _ => none
    | some ("Function", depth, some c) => (signature? (Ty.read fuel) depth c).map (·.toTy)
    | some (name, _, contents) => if Json.isUnit contents then unitTypes.lookup name else none
    | none => none

/-- Every level of a type is at least one level of the document. -/
def Ty.ofJson? : Reader Ty := fun depth j => Ty.read (depth + 1) depth j

def FunctionType.ofJson? : Reader FunctionType := signature? Ty.ofJson?

def Opcode.ofJson? : Reader Opcode := named? (Opcode.all.map fun o => (o.name, o))

def Constant.ofJson? : Reader Constant := fun depth j => do
  match ← Json.variant? depth j with
  | ("Int", depth, some c) =>
    match ← fields? ["ty", "value"] depth c with
    | (depth, [some t, some n]) => return .int (← Ty.ofJson? depth t) (← n.signed? 64)
    | _ => none
  | ("Float", depth, some c) =>
    match ← fields? ["ty", "value"] depth c with
    | (depth, [some t, some x]) => return .float (← Ty.ofJson? depth t) (← x.float?)
    | _ => none
  | ("Undef", depth, some t) => (Ty.ofJson? depth t).map .undef
  | ("Poison", depth, some t) => (Ty.ofJson? depth t).map .poison
  | ("Zero", depth, some t) => (Ty.ofJson? depth t).map .zero
  | _ => named? [("Null", .null), ("NoneToken", .noneToken)] depth j

def Info.ofJson? : Reader Info := fun depth j => do
  let one {α : Type} (name : String) (r : Reader α) (depth : Nat) (c : Json) : Option α :=
    match fields? [name] depth c with
    | some (depth, [some x]) => r depth x
    | _ => none
  match ← Json.variant? depth j with
  | ("Predicate", _, some n) => (n.nat? 32).map .predicate
  | ("Gep", depth, some c) =>
    match ← fields? ["source_element", "inbounds"] depth c with
    | (depth, [some t, some b]) => return .gep (← Ty.ofJson? depth t) (← b.bool?)
    | _ => none
  | ("Alloca", depth, some c) => (one "allocated" Ty.ofJson? depth c).map .alloca
  | ("Phi", depth, some c) => (one "incoming_blocks" (items? (leaf (nat? 32))) depth c).map .phi
  | ("Call", depth, some c) => (one "function_type" FunctionType.ofJson? depth c).map .call
  | _ => named? [("None", .plain)] depth j

/-- Reads an operand of at most `fuel` levels. -/
def Operand.read : Nat → Reader Operand
  | 0, _, _ => none
  | fuel + 1, depth, j => do
    match ← Json.variant? depth j with
    | ("Value", _, some n) => (n.nat? 32).map .value
    | ("Const", depth, some c) => (Constant.ofJson? depth c).map .const
    | ("Expr", depth, some c) =>
      match ← fields? ["opcode", "ty", "operands", "info"] depth c with
      | (depth, [some o, some t, some os, some i]) =>
        return .expr (← Opcode.ofJson? depth o) (← Ty.ofJson? depth t)
          (← items? (Operand.read fuel) depth os) (← Info.ofJson? depth i)
      | _ => none
    | ("Block", _, some n) => (n.nat? 32).map .block
    | ("Global", _, some name) => name.text?.map .global
    | ("Function", _, some name) => name.text?.map .function
    | _ => none

def Operand.ofJson? : Reader Operand := fun depth j => Operand.read (depth + 1) depth j

def Instruction.ofJson? : Reader Instruction := fun depth j => do
  match ← fields? ["id", "name", "opcode", "ty", "operands", "info"] depth j with
  | (depth, [some id, name, some o, some t, some os, some i]) =>
    return ⟨← id.nat? 32, ← optionalField (leaf text?) depth name, ← Opcode.ofJson? depth o,
      ← Ty.ofJson? depth t, ← items? Operand.ofJson? depth os, ← Info.ofJson? depth i⟩
  | _ => none

def Block.ofJson? : Reader Block := fun depth j => do
  match ← fields? ["id", "name", "instructions"] depth j with
  | (depth, [some id, name, some is]) =>
    return ⟨← id.nat? 32, ← optionalField (leaf text?) depth name,
      ← items? Instruction.ofJson? depth is⟩
  | _ => none

def Attribute.ofJson? : Reader Attribute := fun depth j => do
  match ← Json.variant? depth j with
  | ("StructRet", depth, some t) => (Ty.ofJson? depth t).map .structRet
  | ("ByVal", depth, some t) => (Ty.ofJson? depth t).map .byVal
  | ("Other", _, some s) => s.text?.map .other
  | _ => named? [("NoUnwind", .noUnwind), ("NoReturn", .noReturn)] depth j

def Param.ofJson? : Reader Param := fun depth j => do
  match ← fields? ["id", "name", "ty", "attributes"] depth j with
  | (depth, [some id, name, some t, some as]) =>
    return ⟨← id.nat? 32, ← optionalField (leaf text?) depth name, ← Ty.ofJson? depth t,
      ← items? Attribute.ofJson? depth as⟩
  | _ => none

def Function.ofJson? : Reader Function := fun depth j => do
  match ← fields? ["name", "demangled_name", "ty", "params", "attributes", "return_attributes",
    "personality", "blocks"] depth j with
  | (depth, [some name, readable, some t, some ps, some as, some rs, personality, some bs]) =>
    return ⟨← name.text?, ← optionalField (leaf text?) depth readable,
      ← FunctionType.ofJson? depth t, ← items? Param.ofJson? depth ps,
        ← items? Attribute.ofJson? depth as, ← items? Attribute.ofJson? depth rs,
      ← optionalField (leaf text?) depth personality, ← items? Block.ofJson? depth bs⟩
  | _ => none

def Struct.ofJson? : Reader Struct := fun depth j => do
  match ← fields? ["name", "fields", "packed"] depth j with
  | (depth, [some name, some fs, some p]) =>
    return ⟨← name.text?, ← items? Ty.ofJson? depth fs, ← p.bool?⟩
  | _ => none

def Global.ofJson? : Reader Global := fun depth j => do
  match ← fields? ["name", "ty", "initializer", "constant"] depth j with
  | (depth, [some name, some t, init, some c]) =>
    return ⟨← name.text?, ← Ty.ofJson? depth t, ← optionalField octets? depth init, ← c.bool?⟩
  | _ => none

def Module.ofJson? : Reader Module := fun depth j => do
  match ← fields? ["name", "structs", "globals", "functions"] depth j with
  | (depth, [some name, some ss, some gs, some fs]) =>
    return ⟨← name.text?, ← items? Struct.ofJson? depth ss, ← items? Global.ofJson? depth gs,
      ← items? Function.ofJson? depth fs⟩
  | _ => none

end Stackify.Ssa
