import Stackify.Code.Program
import Stackify.Number.Decimal

/-!
The readable listing of a program: constants, records, statics, and methods with one operation a
line.
-/

namespace Stackify.Code

def Program.recordName (p : Program) (id : RecordId) : String :=
  match p.records[id]? with
  | some r => r.name
  | none => "record#" ++ toString id

def Program.typeText (p : Program) : Ty → String
  | .void => "void"
  | .bool => "bool"
  | .int w => "int" ++ toString w.bits
  | .float .half => "half"
  | .float .single => "float32"
  | .float .double => "float64"
  | .pointer t => p.typeText t ++ "*"
  | .array e n => p.typeText e ++ "[" ++ toString n ++ "]"
  | .record id => p.recordName id
  | .varArgs => "varargs"

def Program.constText (p : Program) : Const → String
  | .bool b => toString b
  | .int w n => "int" ++ toString w.bits ++ " " ++ toString n
  | .float _ x => Number.text x
  | .null => "null"
  | .default t => "default(" ++ p.typeText t ++ ")"

def labelText (l : Label) : String := "L" ++ toString l

/-- A method by its name, or by its number if there is none. -/
def Program.methodText (p : Program) (i : Nat) : String :=
  match p.methods[i]? with
  | some m => m.name
  | none => "#" ++ toString i

def lowercase (s : String) : String := String.ofList (s.toList.map Char.toLower)

def Program.opText (p : Program) : Op → String
  | .label l => labelText l ++ ":"
  | .nop => "nop"
  | .loadConst i => "ldc [" ++ toString i ++ "]"
  | .loadArg i => "ldarg " ++ toString i
  | .loadLocal i => "ldloc " ++ toString i
  | .storeLocal i => "stloc " ++ toString i
  | .loadLocalAddress i => "ldloca " ++ toString i
  | .initLocal i => "initloc " ++ toString i
  | .loadStaticAddress i => "ldsflda " ++ toString i
  | .loadMethodPointer i => "ldftn " ++ p.methodText i
  | .loadIndirect t => "ldind " ++ p.typeText t
  | .storeIndirect t => "stind " ++ p.typeText t
  | .fieldAddress r f => "ldflda " ++ p.recordName r ++ "::field_" ++ toString f
  | .elementAddress t => "ldelema " ++ p.typeText t
  | .binary op k => lowercase (op.name ++ "." ++ k.text)
  | .unary op k => lowercase (op.name ++ "." ++ k.text)
  | .compare op k => lowercase ("c" ++ op.name ++ "." ++ k.text)
  | .convert s t signed =>
    lowercase ("conv." ++ (if signed then "s" else "u") ++ " " ++ s.text ++ " -> " ++ t.text)
  | .call m n => "call " ++ p.methodText m ++ "(" ++ toString n ++ ")"
  | .callIndirect n _ => "calli (" ++ toString n ++ ")"
  | .callService s n => "call " ++ s.symbol ++ "(" ++ toString n ++ ")"
  | .packVarArgs n => "pack.varargs " ++ toString n
  | .nextVarArg t => "next.vararg " ++ p.typeText t
  | .dup => "dup"
  | .pop => "pop"
  | .branch l => "br " ++ labelText l
  | .branchTrue l => "brtrue " ++ labelText l
  | .branchFalse l => "brfalse " ++ labelText l
  | .switchValue cases d =>
    let shown := cases.map fun (n, l) => toString n ++ " => " ++ labelText l
    "switch [" ++ ", ".intercalate shown ++ "] else " ++ labelText d
  | .leave l => "leave " ++ labelText l
  | .ret => "ret"
  | .throw => "throw"
  | .unreachable => "unreachable"

/-! ## Lines -/

def Program.recordLines (p : Program) (r : Record) : List String :=
  ["  record " ++ r.name ++ " (" ++ r.symbol ++ ")" ++
    (if r.packed then " packed" else "") ++ " \x7b"] ++ r.fields.map (fun f =>
      "    " ++ f.name ++ ": " ++ p.typeText f.ty) ++ ["  \x7d"]

def Program.methodHead (p : Program) (m : Method) : String :=
  let visibility := match m.visibility with
    | .exported => "public"
    | .internal => "internal"
  let params := (m.paramNames.zip m.type.params).map fun (n, t) => n ++ ": " ++ p.typeText t
  let params := if m.type.variadic then params ++ ["..."] else params
  "  " ++ visibility ++ " method " ++ m.name ++ "(" ++ ", ".intercalate params ++ ") -> " ++
    p.typeText m.type.ret

def Region.line (r : Region) : String :=
  "    try " ++ labelText r.tryStart ++ ".." ++ labelText r.tryEnd
    ++ " catch " ++ labelText r.handlerStart ++ ".." ++ labelText r.handlerEnd

def Program.opLine (p : Program) : Op → String
  | .label l => "   " ++ labelText l ++ ":"
  | op => "      " ++ p.opText op

def Program.methodLines (p : Program) (m : Method) : List String :=
  [p.methodHead m]
    ++ m.body.locals.mapIdx (fun i t => "    local " ++ toString i ++ ": " ++ p.typeText t)
    ++ m.body.regions.map Region.line
    ++ m.body.ops.map p.opLine

/-- The whole listing; every line ends with a line break. -/
def Program.listing (p : Program) : String :=
  let lines := ["module " ++ p.name ++ " \x7b", "  const_pool:"]
    ++ p.consts.mapIdx (fun i c => "    [" ++ toString i ++ "] " ++ p.constText c)
    ++ p.records.flatMap p.recordLines
    ++ p.statics.mapIdx (fun i s => "  static [" ++ toString i ++ "] " ++ s.name ++ ": " ++
      p.typeText s.ty)
    ++ p.methods.flatMap p.methodLines
    ++ ["\x7d"]
  String.join (lines.map (· ++ "\n"))

end Stackify.Code
