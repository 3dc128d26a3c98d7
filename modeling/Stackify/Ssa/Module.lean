import Stackify.Ssa.Operand

/-!
Modules of the source: aggregates, globals and functions. A function consists of blocks, each of
which ends with an instruction that says where control goes; a function without blocks is only
declared.
-/

namespace Stackify.Ssa

structure Instruction where
  id : ValueId
  name : Option String := none
  opcode : Opcode
  /-- The type of the result; `void` if there is none. -/
  ty : Ty
  operands : List Operand
  info : Info := .plain
  deriving DecidableEq, Inhabited

namespace Instruction

def isTerminator (i : Instruction) : Bool := i.opcode.isTerminator

def isConditionalBranch (i : Instruction) : Bool := i.opcode = .br && i.operands.length = 3

/-- The blocks that control may go to, in operand order. -/
def successors (i : Instruction) : List BlockId :=
  if i.isTerminator then i.operands.filterMap Operand.block? else []

def predicate? (i : Instruction) : Option Nat :=
  match i.info with
  | .predicate code => some code
  | _ => none

end Instruction

structure Block where
  id : BlockId
  name : Option String := none
  instructions : List Instruction := []
  deriving DecidableEq, Inhabited

namespace Block

def terminator? (b : Block) : Option Instruction := b.instructions.getLast?.filter (·.isTerminator)

def successors (b : Block) : List BlockId :=
  match b.terminator? with
  | some t => t.successors
  | none => []

end Block

inductive Attribute where
  /-- The parameter points to where the caller wants the result. -/
  | structRet (ty : Ty)
  | byVal (ty : Ty)
  | noUnwind
  | noReturn
  | other (text : String)
  deriving DecidableEq

structure Param where
  id : ValueId
  name : Option String := none
  ty : Ty
  attributes : List Attribute := []
  deriving DecidableEq

structure Function where
  /-- The symbol. -/
  name : String
  /-- The signature in readable form. -/
  readable : Option String := none
  type : FunctionType
  params : List Param := []
  attributes : List Attribute := []
  returnAttributes : List Attribute := []
  personality : Option String := none
  blocks : List Block := []
  deriving DecidableEq

namespace Function

def isDeclaration (f : Function) : Bool := f.blocks.isEmpty

def isVoid (f : Function) : Bool := f.type.ret.isVoid

/-- Whether the function promises to raise no exception. -/
def isNoUnwind (f : Function) : Bool := f.attributes.any fun a => a = .noUnwind

/-- The aggregate that is returned through the first parameter, if that is how results are
returned. -/
def structReturn? (f : Function) : Option Ty :=
  match f.isVoid, f.params with
  | true, p :: _ =>
    if p.ty.isPointer then p.attributes.findSome? fun a => match a with
      | .structRet ty => some ty
      | _ => none
    else none
  | _, _ => none

def block? (f : Function) (id : BlockId) : Option Block := f.blocks.find? fun b => b.id = id

def instructions (f : Function) : List Instruction := f.blocks.flatMap (·.instructions)

end Function

structure Struct where
  name : String
  fields : List Ty
  packed : Bool
  deriving DecidableEq

structure Global where
  name : String
  ty : Ty
  initializer : Option (List UInt8) := none
  constant : Bool := false
  deriving DecidableEq

structure Module where
  name : String := ""
  structs : List Struct := []
  globals : List Global := []
  functions : List Function := []
  deriving DecidableEq

namespace Module

def struct? (m : Module) (name : String) : Option Struct := m.structs.find? fun s => s.name = name

def function? (m : Module) (name : String) : Option Function := m.functions.find? fun f =>
    f.name = name

def global? (m : Module) (name : String) : Option Global := m.globals.find? fun g => g.name = name

end Module

end Stackify.Ssa
