import Stackify.Code.Program
import Stackify.Json.Decode

/-!
JSON form of programs. Written, integers of 128 bits are decimal text and floating-point numbers are
their bit patterns, so that no reader rounds them; read, both are JSON numbers.
-/

namespace Stackify.Code

/-- An alternative with contents. -/
def choice (name : String) (contents : Json) : Json := .record [(name, contents)]

/-- The bit pattern of a floating-point number; what is no number has one form. -/
def floatToJson (x : Float) : Json :=
  if x.isNaN then .text "nan" else .text ("0x" ++ Text.paddedHex 16 x.toBits.toNat)

def wideToJson (n : Int) : Json := .text (toString n)

/-! ## Writing -/

def Width.toJson (w : Width) : Json := .text w.name

def Ty.toJson : Ty → Json
  | .void => .text "Void"
  | .bool => .text "Bool"
  | .int w => choice "Int" w.toJson
  | .float k => .text k.name
  | .pointer t => choice "Pointer" t.toJson
  | .array e n => choice "Array" (.array [e.toJson, .nat n])
  | .record id => choice "Record" (.nat id)
  | .varArgs => .text "VarArgs"

def NumKind.toJson : NumKind → Json
  | .bool => .text "Bool"
  | .int w => choice "Int" w.toJson
  | .float k => choice "Float" (.text k.name)
  | .pointer => .text "Pointer"

def Const.toJson : Const → Json
  | .bool b => choice "Bool" (.bool b)
  | .int w n => choice "Int" (.record [("width", w.toJson), ("value", wideToJson n)])
  | .float k x => choice "Float" (.record [("kind", .text k.name), ("value", floatToJson x)])
  | .null => .text "Null"
  | .default t => choice "Default" t.toJson

def Op.toJson : Op → Json
  | .label l => choice "Label" (.nat l)
  | .nop => .text "Nop"
  | .loadConst i => choice "LoadConst" (.nat i)
  | .loadArg i => choice "LoadArg" (.nat i)
  | .loadLocal i => choice "LoadLocal" (.nat i)
  | .storeLocal i => choice "StoreLocal" (.nat i)
  | .loadLocalAddress i => choice "LoadLocalAddress" (.nat i)
  | .initLocal i => choice "InitLocal" (.nat i)
  | .loadStaticAddress i => choice "LoadStaticAddress" (.nat i)
  | .loadMethodPointer i => choice "LoadMethodPointer" (.nat i)
  | .loadIndirect t => choice "LoadIndirect" t.toJson
  | .storeIndirect t => choice "StoreIndirect" t.toJson
  | .fieldAddress r f => choice "FieldAddress" (.record [("record", .nat r), ("field", .nat f)])
  | .elementAddress t => choice "ElementAddress" t.toJson
  | .binary op k => choice "Binary" (.record [("op", .text op.name), ("kind", k.toJson)])
  | .unary op k => choice "Unary" (.record [("op", .text op.name), ("kind", k.toJson)])
  | .compare op k => choice "Compare" (.record [("op", .text op.name), ("kind", k.toJson)])
  | .convert s t signed =>
    choice "Convert" (.record [("from", s.toJson), ("to", t.toJson), ("signed", .bool signed)])
  | .call m n => choice "Call" (.record [("method", .nat m), ("arg_count", .nat n)])
  | .callIndirect n returns =>
    choice "CallIndirect" (.record [("arg_count", .nat n), ("returns", .bool returns)])
  | .callService s n =>
    choice "CallRuntime" (.record [("entry", .text s.name), ("arg_count", .nat n)])
  | .packVarArgs n => choice "PackVarArgs" (.nat n)
  | .nextVarArg t => choice "NextVarArg" t.toJson
  | .dup => .text "Dup"
  | .pop => .text "Pop"
  | .branch l => choice "Branch" (.nat l)
  | .branchTrue l => choice "BranchTrue" (.nat l)
  | .branchFalse l => choice "BranchFalse" (.nat l)
  | .switchValue cases d => choice "SwitchValue" (.record
      [("cases", .list (fun (n, l) => .array [wideToJson n, .nat l]) cases), ("default", .nat d)])
  | .leave l => choice "Leave" (.nat l)
  | .ret => .text "Return"
  | .throw => .text "Throw"
  | .unreachable => .text "Unreachable"

def Record.toJson (r : Record) : Json :=
  .record [("name", .text r.name), ("mangled_name", .text r.symbol),
    ("fields", .list (fun f => .record [("name", .text f.name), ("ty", f.ty.toJson)]) r.fields),
    ("packed", .bool r.packed)]

def Static.toJson (s : Static) : Json :=
  .record [("name", .text s.name), ("ty", s.ty.toJson),
    ("init", .option (.list fun b => .nat b.toNat) s.init)]

def MethodType.toJson (t : MethodType) : Json :=
  .record [("params", .list Ty.toJson t.params), ("ret", t.ret.toJson),
    ("variadic", .bool t.variadic)]

def Region.toJson (r : Region) : Json :=
  .record [("try_start", .nat r.tryStart), ("try_end", .nat r.tryEnd),
    ("handler_start", .nat r.handlerStart), ("handler_end", .nat r.handlerEnd),
      ("kind", .text "Catch")]

def Body.toJson (b : Body) : Json :=
  .record [("locals", .list Ty.toJson b.locals), ("ops", .list Op.toJson b.ops),
    ("regions", .list Region.toJson b.regions), ("label_count", .nat b.labelCount)]

def Visibility.name : Visibility → String
  | .exported => "Public"
  | .internal => "Internal"

def Method.toJson (m : Method) : Json :=
  .record [("name", .text m.name), ("mangled_name", .text m.symbol),
    ("visibility", .text m.visibility.name), ("signature", m.type.toJson),
      ("parameter_names", .list .text m.paramNames), ("body", m.body.toJson)]

def Program.toJson (p : Program) : Json :=
  .record [("name", .text p.name), ("const_pool", .list Const.toJson p.consts),
    ("records", .list Record.toJson p.records), ("statics", .list Static.toJson p.statics),
    ("methods", .list Method.toJson p.methods)]

/-! ## Reading -/

open Json (Reader fields? items? named? nat? leaf)

def Width.ofJson? : Reader Width := named? (Width.all.map fun w => (w.name, w))

def FloatKind.ofJson? : Reader FloatKind := named? (FloatKind.all.map fun k => (k.name, k))

def index? : Reader Nat := leaf (nat? 32)

/-- Reads a type; each level of it is at least one level of the document. -/
def Ty.ofJson? (depth : Nat) (j : Json) : Option Ty :=
  match depth, j with
  | _, .string (some "Void") => some .void
  | _, .string (some "Bool") => some .bool
  | _, .string (some "Half") => some (.float .half)
  | _, .string (some "Single") => some (.float .single)
  | _, .string (some "Double") => some (.float .double)
  | _, .string (some "VarArgs") => some .varArgs
  | depth + 1, .object [(some "Int", w)] => (Width.ofJson? depth w).map .int
  | depth + 1, .object [(some "Pointer", t)] => (Ty.ofJson? depth t).map .pointer
  | depth + 2, .object [(some "Array", .array [e, n])] => do
    return .array (← Ty.ofJson? depth e) (← n.nat? 64)
  | depth + 1, .object [(some "Record", id)] => (index? depth id).map .record
  | _ + 1, .object [(some name, .null)] =>
    [("Void", .void), ("Bool", .bool), ("Half", .float .half), ("Single", .float .single),
      ("Double", .float .double), ("VarArgs", .varArgs)].lookup name
  | _, _ => none

def NumKind.ofJson? : Reader NumKind := fun depth j =>
  match Json.variant? depth j with
  | some ("Int", depth, some w) => (Width.ofJson? depth w).map .int
  | some ("Float", depth, some k) => (FloatKind.ofJson? depth k).map .float
  | _ => named? [("Bool", .bool), ("Pointer", .pointer)] depth j

def Const.ofJson? : Reader Const := fun depth j => do
  match ← Json.variant? depth j with
  | ("Bool", _, some b) => return .bool (← b.bool?)
  | ("Int", depth, some c) =>
    match ← fields? ["width", "value"] depth c with
    | (depth, [some w, some n]) => return .int (← Width.ofJson? depth w) (← n.wideInt?)
    | _ => none
  | ("Float", depth, some c) =>
    match ← fields? ["kind", "value"] depth c with
    | (depth, [some k, some x]) => return .float (← FloatKind.ofJson? depth k) (← x.float?)
    | _ => none
  | ("Null", _, _) => return .null
  | ("Default", depth, some t) => return .default (← Ty.ofJson? depth t)
  | _ => none

/-- An operation of a name without contents. -/
def plainOps : List (String × Op) :=
  [("Nop", .nop), ("Dup", .dup), ("Pop", .pop), ("Return", .ret), ("Throw", .throw),
    ("Unreachable", .unreachable)]

/-- Operations with one number. -/
def indexOps : List (String × (Nat → Op)) :=
  [("Label", .label), ("LoadConst", .loadConst), ("LoadArg", .loadArg), ("LoadLocal", .loadLocal),
    ("StoreLocal", .storeLocal), ("LoadLocalAddress", .loadLocalAddress), ("InitLocal", .initLocal),
    ("LoadStaticAddress", .loadStaticAddress), ("LoadMethodPointer", .loadMethodPointer),
    ("PackVarArgs", .packVarArgs), ("Branch", .branch), ("BranchTrue", .branchTrue),
    ("BranchFalse", .branchFalse), ("Leave", .leave)]

/-- Operations with one type. -/
def typeOps : List (String × (Ty → Op)) :=
  [("LoadIndirect", .loadIndirect), ("StoreIndirect", .storeIndirect),
    ("ElementAddress", .elementAddress), ("NextVarArg", .nextVarArg)]

def case? : Reader (Int × Label) := Json.pair? (leaf Json.wideInt?) index?

/-- Operations with a record of operands. -/
def recordOp? (name : String) (depth : Nat) (c : Json) : Option Op := do
  let operator {α : Type} (all : List α) (label : α → String) : Reader α :=
    named? (all.map fun a => (label a, a))
  let two (a b : String) : Option (Nat × Json × Json) :=
    match fields? [a, b] depth c with
    | some (depth, [some x, some y]) => some (depth, x, y)
    | _ => none
  match name with
  | "FieldAddress" =>
    let (_, r, f) ← two "record" "field"
    return .fieldAddress (← r.nat? 32) (← f.nat? 32)
  | "Binary" =>
    let (depth, op, k) ← two "op" "kind"
    return .binary (← operator BinaryOp.all BinaryOp.name depth op) (← NumKind.ofJson? depth k)
  | "Unary" =>
    let (depth, op, k) ← two "op" "kind"
    return .unary (← operator UnaryOp.all UnaryOp.name depth op) (← NumKind.ofJson? depth k)
  | "Compare" =>
    let (depth, op, k) ← two "op" "kind"
    return .compare (← operator CompareOp.all CompareOp.name depth op) (← NumKind.ofJson? depth k)
  | "Convert" =>
    match ← fields? ["from", "to", "signed"] depth c with
    | (depth, [some s, some t, some signed]) =>
      return .convert (← NumKind.ofJson? depth s) (← NumKind.ofJson? depth t) (← signed.bool?)
    | _ => none
  | "Call" =>
    let (_, m, n) ← two "method" "arg_count"
    return .call (← m.nat? 32) (← n.nat? 32)
  | "CallIndirect" =>
    let (_, n, r) ← two "arg_count" "returns"
    return .callIndirect (← n.nat? 32) (← r.bool?)
  | "CallRuntime" =>
    let (depth, s, n) ← two "entry" "arg_count"
    return .callService (← operator Service.all Service.name depth s) (← n.nat? 32)
  | "SwitchValue" =>
    let (depth, cases, d) ← two "cases" "default"
    return .switchValue (← items? case? depth cases) (← d.nat? 32)
  | _ => none

def Op.ofJson? : Reader Op := fun depth j => do
  let (name, depth, contents) ← Json.variant? depth j
  match plainOps.lookup name, indexOps.lookup name, typeOps.lookup name, contents with
  | some op, _, _, contents => if Json.isUnit contents then some op else none
  | _, some make, _, some c => (index? depth c).map make
  | _, _, some make, some c => (Ty.ofJson? depth c).map make
  | _, _, _, some c => recordOp? name depth c
  | _, _, _, none => none

def Field.ofJson? : Reader Field := fun depth j => do
  match ← fields? ["name", "ty"] depth j with
  | (depth, [some n, some t]) => return ⟨← n.text?, ← Ty.ofJson? depth t⟩
  | _ => none

def Record.ofJson? : Reader Record := fun depth j => do
  match ← fields? ["name", "mangled_name", "fields", "packed"] depth j with
  | (depth, [some n, some s, some fs, some p]) =>
    return ⟨← n.text?, ← s.text?, ← items? Field.ofJson? depth fs, ← p.bool?⟩
  | _ => none

def octets? : Reader (List UInt8) := items? fun _ j => (j.nat? 8).map UInt8.ofNat

def Static.ofJson? : Reader Static := fun depth j => do
  match ← fields? ["name", "ty", "init"] depth j with
  | (depth, [some n, some t, init]) =>
    return ⟨← n.text?, ← Ty.ofJson? depth t, ← Json.optionalField octets? depth init⟩
  | _ => none

def MethodType.ofJson? : Reader MethodType := fun depth j => do
  match ← fields? ["params", "ret", "variadic"] depth j with
  | (depth, [some ps, some r, some v]) =>
    return ⟨← items? Ty.ofJson? depth ps, ← Ty.ofJson? depth r, ← v.bool?⟩
  | _ => none

def Region.ofJson? : Reader Region := fun depth j => do
  match ← fields? ["try_start", "try_end", "handler_start", "handler_end", "kind"] depth j with
  | (depth, [some a, some b, some c, some d, some k]) =>
    let _ ← named? [("Catch", ())] depth k
    return ⟨← a.nat? 32, ← b.nat? 32, ← c.nat? 32, ← d.nat? 32⟩
  | _ => none

def Body.ofJson? : Reader Body := fun depth j => do
  match ← fields? ["locals", "ops", "regions", "label_count"] depth j with
  | (depth, [some ls, some ops, some rs, some n]) =>
    return ⟨← items? Ty.ofJson? depth ls, ← items? Op.ofJson? depth ops,
      ← items? Region.ofJson? depth rs, ← n.nat? 32⟩
  | _ => none

def Method.ofJson? : Reader Method := fun depth j => do
  match ← fields? ["name", "mangled_name", "visibility", "signature", "parameter_names", "body"]
    depth j with
  | (depth, [some n, some s, some v, some t, some ps, some b]) =>
    let visibility ← named? [("Public", Visibility.exported), ("Internal", .internal)] depth v
    return ⟨← n.text?, ← s.text?, visibility, ← MethodType.ofJson? depth t,
      ← items? (leaf Json.text?) depth ps, ← Body.ofJson? depth b⟩
  | _ => none

def Program.ofJson? : Reader Program := fun depth j => do
  match ← fields? ["name", "const_pool", "records", "statics", "methods"] depth j with
  | (depth, [some n, some cs, some rs, some ss, some ms]) =>
    return ⟨← n.text?, ← items? Const.ofJson? depth cs, ← items? Record.ofJson? depth rs,
      ← items? Static.ofJson? depth ss, ← items? Method.ofJson? depth ms⟩
  | _ => none

end Stackify.Code
