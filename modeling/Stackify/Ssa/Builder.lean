import Stackify.Ssa.Module

/-!
Building modules step by step. Values and blocks get numbers from two counters of the module, which
start again behind their last number.
-/

namespace Stackify.Ssa

/-- A module under construction and the next free numbers. -/
structure Builder where
  module : Module := {}
  nextValue : UInt32 := 0
  nextBlock : UInt32 := 0

/-- A function under construction. -/
structure FunctionBuilder where
  owner : Builder
  function : Function
  /-- The position of the block that instructions go to. -/
  current : Option Nat := none

namespace Builder

def addStruct (b : Builder) (name : String) (fields : List Ty) (packed : Bool) : Ty × Builder :=
  (.struct name, { b with module.structs := b.module.structs ++ [⟨name, fields, packed⟩] })

def addGlobal (b : Builder) (name : String) (ty : Ty) (initializer : Option (List UInt8)) :
    Operand × Builder :=
  (.global name, { b with module.globals := b.module.globals ++ [{ name, ty, initializer }] })

/-- Draws the number of a value. -/
def freshValue (b : Builder) : ValueId × Builder :=
  (b.nextValue.toNat, { b with nextValue := b.nextValue + 1 })

def freshBlock (b : Builder) : BlockId × Builder :=
  (b.nextBlock.toNat, { b with nextBlock := b.nextBlock + 1 })

def newParams (b : Builder) : List Ty → List Param × Builder
  | [] => ([], b)
  | ty :: rest =>
    let (id, b) := b.freshValue
    let (params, b) := b.newParams rest
    ({ id, ty } :: params, b)

/-- A function without blocks, whose parameters have new numbers. -/
def newFunction (b : Builder) (name : String) (type : FunctionType) : Function × Builder :=
  let (params, b) := b.newParams type.params
  ({ name, type, params }, b)

def addFunction (b : Builder) (f : Function) : Operand × Builder :=
  (.function f.name, { b with module.functions := b.module.functions ++ [f] })

/-- Adds a function without a body. -/
def declare (b : Builder) (name : String) (type : FunctionType) : Operand × Builder :=
  let (f, b) := b.newFunction name type
  b.addFunction f

/-- Starts a function. -/
def function (b : Builder) (name : String) (type : FunctionType) : FunctionBuilder :=
  let (function, owner) := b.newFunction name type
  { owner, function }

end Builder

namespace FunctionBuilder

/-- Adds the function to the module. -/
def finish (f : FunctionBuilder) : Operand × Builder := f.owner.addFunction f.function

def param (f : FunctionBuilder) (i : Nat) : Operand :=
  match f.function.params[i]? with
  | some p => .value p.id
  | none => .const (.undef .void)

def addParamAttribute (f : FunctionBuilder) (i : Nat) (a : Attribute) : FunctionBuilder :=
  { f with function.params := f.function.params.modify i fun p =>
      { p with attributes := p.attributes ++ [a] } }

def addAttribute (f : FunctionBuilder) (a : Attribute) : FunctionBuilder :=
  { f with function.attributes := f.function.attributes ++ [a] }

def setReadable (f : FunctionBuilder) (name : String) : FunctionBuilder :=
  { f with function.readable := some name }

def setPersonality (f : FunctionBuilder) (name : String) : FunctionBuilder :=
  { f with function.personality := some name }

/-! ## Blocks -/

/-- Appends a block; instructions go to the first one until another is chosen. -/
def appendBlock (f : FunctionBuilder) (name : String) : BlockId × FunctionBuilder :=
  let (id, owner) := f.owner.freshBlock
  (id, { owner
         function := { f.function with blocks := f.function.blocks ++ [{ id, name := some name }] }
         current := f.current.or (some f.function.blocks.length) })

/-- Chooses the block that instructions go to; an unknown one changes nothing. -/
def positionAt (f : FunctionBuilder) (id : BlockId) : FunctionBuilder :=
  match f.function.blocks.findIdx? fun b => b.id = id with
  | some i => { f with current := some i }
  | none => f

/-! ## Instructions -/

/-- Appends an instruction; without a block one named `entry` is made first. -/
def push (f : FunctionBuilder) (opcode : Opcode) (ty : Ty) (operands : List Operand)
    (info : Info := .plain) : Operand × FunctionBuilder :=
  let (id, owner) := f.owner.freshValue
  let f := { f with owner }
  let f := if f.current.isNone then (f.appendBlock "entry").2 else f
  let i : Instruction := { id, opcode, ty, operands, info }
  let blocks := f.function.blocks.modify (f.current.getD 0) fun b =>
      { b with instructions := b.instructions ++ [i] }
  (.value id, { f with function.blocks := blocks })

def binary (f : FunctionBuilder) (opcode : Opcode) (ty : Ty) (left right : Operand) :
    Operand × FunctionBuilder :=
  f.push opcode ty [left, right]

def fneg (f : FunctionBuilder) (ty : Ty) (v : Operand) : Operand × FunctionBuilder :=
  f.push .fneg ty [v]

def icmp (f : FunctionBuilder) (code : Nat) (left right : Operand) : Operand × FunctionBuilder :=
  f.push .icmp (.int 1) [left, right] (.predicate code)

def fcmp (f : FunctionBuilder) (code : Nat) (left right : Operand) : Operand × FunctionBuilder :=
  f.push .fcmp (.int 1) [left, right] (.predicate code)

def cast (f : FunctionBuilder) (opcode : Opcode) (v : Operand) (ty : Ty) :
    Operand × FunctionBuilder :=
  f.push opcode ty [v]

def alloca (f : FunctionBuilder) (allocated : Ty) : Operand × FunctionBuilder :=
  f.push .alloca .pointer [] (.alloca allocated)

def load (f : FunctionBuilder) (ty : Ty) (address : Operand) : Operand × FunctionBuilder :=
  f.push .load ty [address]

def store (f : FunctionBuilder) (v address : Operand) : Operand × FunctionBuilder :=
  f.push .store .void [v, address]

def gep (f : FunctionBuilder) (sourceElement : Ty) (base : Operand) (indices : List Operand) :
    Operand × FunctionBuilder :=
  f.push .getElementPtr .pointer (base :: indices) (.gep sourceElement true)

def call (f : FunctionBuilder) (type : FunctionType) (callee : Operand) (args : List Operand) :
    Operand × FunctionBuilder :=
  f.push .call type.ret (args ++ [callee]) (.call type)

def invoke (f : FunctionBuilder) (type : FunctionType) (callee : Operand) (args : List Operand)
    (normal unwind : BlockId) : Operand × FunctionBuilder :=
  f.push .invoke type.ret (args ++ [.block normal, .block unwind, callee]) (.call type)

def select (f : FunctionBuilder) (ty : Ty) (condition left right : Operand) :
    Operand × FunctionBuilder :=
  f.push .select ty [condition, left, right]

def vaArg (f : FunctionBuilder) (ty : Ty) (list : Operand) : Operand × FunctionBuilder :=
  f.push .vaArg ty [list]

def freeze (f : FunctionBuilder) (ty : Ty) (v : Operand) : Operand × FunctionBuilder :=
  f.push .freeze ty [v]

def phi (f : FunctionBuilder) (ty : Ty) (incoming : List (Operand × BlockId)) :
    Operand × FunctionBuilder :=
  f.push .phi ty (incoming.map (·.1)) (.phi (incoming.map (·.2)))

/-- Changes the first instruction with a number. -/
def modifyInstruction (id : ValueId) (change : Instruction → Instruction) : List Block → List Block
  | [] => []
  | b :: rest =>
    match b.instructions.findIdx? fun i => i.id = id with
    | some k => { b with instructions := b.instructions.modify k change } :: rest
    | none => b :: modifyInstruction id change rest

/-- Adds an incoming edge to a phi that was made before, as loops need it. -/
def addIncoming (f : FunctionBuilder) (phi v : Operand) (block : BlockId) : FunctionBuilder :=
  match phi with
  | .value id =>
    { f with function.blocks := modifyInstruction id (fun i =>
        match i.info with
        | .phi incoming =>
          { i with operands := i.operands ++ [v], info := .phi (incoming ++ [block]) }
        | _ => i) f.function.blocks }
  | _ => f

def br (f : FunctionBuilder) (target : BlockId) : Operand × FunctionBuilder :=
  f.push .br .void [.block target]

def condBr (f : FunctionBuilder) (condition : Operand) (yes no : BlockId) :
    Operand × FunctionBuilder :=
  f.push .br .void [condition, .block yes, .block no]

def switch (f : FunctionBuilder) (v : Operand) (default : BlockId)
    (cases : List (Operand × BlockId)) : Operand × FunctionBuilder :=
  f.push .switch .void (v :: .block default :: cases.flatMap fun (c, b) => [c, .block b])

def ret (f : FunctionBuilder) (v : Option Operand) : Operand × FunctionBuilder :=
  f.push .ret .void v.toList

def unreachable (f : FunctionBuilder) : Operand × FunctionBuilder := f.push .unreachable .void []

def catchSwitch (f : FunctionBuilder) (handlers : List BlockId) (unwind : Option BlockId) :
    Operand × FunctionBuilder :=
  f.push .catchSwitch .token (.const .noneToken :: handlers.map .block ++ unwind.toList.map .block)

def catchPad (f : FunctionBuilder) (within : Operand) (args : List Operand) :
    Operand × FunctionBuilder :=
  f.push .catchPad .token (within :: args)

def catchRet (f : FunctionBuilder) (pad : Operand) (target : BlockId) : Operand × FunctionBuilder :=
  f.push .catchRet .void [pad, .block target]

def cleanupPad (f : FunctionBuilder) (args : List Operand) : Operand × FunctionBuilder :=
  f.push .cleanupPad .token (.const .noneToken :: args)

def cleanupRet (f : FunctionBuilder) (pad : Operand) (unwind : Option BlockId) :
    Operand × FunctionBuilder :=
  f.push .cleanupRet .void (pad :: unwind.toList.map .block)

def landingPad (f : FunctionBuilder) : Operand × FunctionBuilder := f.push .landingPad .token []

def resume (f : FunctionBuilder) (v : Operand) : Operand × FunctionBuilder :=
  f.push .resume .void [v]

end FunctionBuilder

end Stackify.Ssa
