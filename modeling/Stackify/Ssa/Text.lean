import Stackify.Number.Decimal
import Stackify.Ssa.Module

/-!
The text of types, operands and instructions.
-/

namespace Stackify.Ssa

mutual

def Ty.text : Ty → String
  | .void => "void"
  | .int bits => "i" ++ toString bits
  | .half => "half"
  | .float => "float"
  | .double => "double"
  | .pointer => "ptr"
  | .array e n => "[" ++ toString n ++ " x " ++ e.text ++ "]"
  | .vector e n => "<" ++ toString n ++ " x " ++ e.text ++ ">"
  | .struct name => "%" ++ name
  | .literal fields packed =>
    let body := "\x7b " ++ ", ".intercalate (textAll fields) ++ " \x7d"
    if packed then "<" ++ body ++ ">" else body
  | .function ret params variadic =>
    ret.text ++ " (" ++ ", ".intercalate (textAll params ++ if variadic then ["..."] else []) ++ ")"
  | .label => "label"
  | .token => "token"
  | .metadata => "metadata"

def Ty.textAll : List Ty → List String
  | [] => []
  | t :: ts => t.text :: textAll ts

end

def FunctionType.text (t : FunctionType) : String := t.toTy.text

def Constant.text : Constant → String
  | int ty n => ty.text ++ " " ++ toString n
  | float ty x => ty.text ++ " " ++ Number.text x
  | null => "ptr null"
  | undef ty => ty.text ++ " undef"
  | poison ty => ty.text ++ " poison"
  | zero ty => ty.text ++ " zeroinitializer"
  | noneToken => "none"

def blockText (id : BlockId) : String := "bb" ++ toString id

mutual

def Operand.text : Operand → String
  | .value id => "%" ++ toString id
  | .const c => c.text
  | .expr opcode _ operands _ =>
    opcode.mnemonic ++ " (" ++ ", ".intercalate (textAll operands) ++ ")"
  | .block id => "label " ++ blockText id
  | .global name => "@" ++ name
  | .function name => "@" ++ name

def Operand.textAll : List Operand → List String
  | [] => []
  | o :: os => o.text :: textAll os

end

/-- What stands behind the operation. -/
def Instruction.tail (i : Instruction) : String :=
  match i.info with
  | .phi incoming =>
    let pairs := (i.operands.zip incoming).map fun (v, b) =>
        "[ " ++ v.text ++ ", " ++ blockText b ++ " ]"
    " " ++ i.ty.text ++ " " ++ ", ".intercalate pairs
  | .alloca allocated => " " ++ allocated.text
  | _ => if i.operands.isEmpty then "" else " " ++ ", ".intercalate (i.operands.map Operand.text)

def Instruction.text (i : Instruction) : String :=
  (if i.ty.isVoid then "" else "%" ++ toString i.id ++ " = ") ++ i.opcode.mnemonic
    ++ (match i.predicate? with
      | some code => " #" ++ toString code
      | none => "")
    ++ i.tail

end Stackify.Ssa
