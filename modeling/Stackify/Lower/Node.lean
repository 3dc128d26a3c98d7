import Stackify.Lower.Call

/-!
Lowering of nodes.
-/

namespace Stackify.Lower

open Code (Op BinaryOp CompareOp NumKind)
open Stackify.Flow (Node NodeId Ref Location AddressStep FloatPredicate)
open Ssa (Opcode BlockId FunctionType)

def logicalNot : Op := .unary .logicalNot .bool

/-- The operator of an arithmetic operation. -/
def binaryOp : Opcode → BinaryOp
  | .add | .fadd => .add
  | .sub | .fsub => .sub
  | .mul | .fmul => .mul
  | .sdiv | .fdiv => .div
  | .udiv => .divUn
  | .srem | .frem => .rem
  | .urem => .remUn
  | .and => .and
  | .or => .or
  | .xor => .xor
  | .shl => .shl
  | .ashr => .shr
  | _ => .shrUn

/-- Whether a conversion takes or gives signed integers. -/
def isSigned : Opcode → Bool
  | .sext | .fpToSi | .siToFp => true
  | _ => false

namespace Context

/-- A comparison, whose result may be negated. -/
def compareOperands (c : Context) (l : Location) (kind : NumKind) (left right : Ref)
    (op : CompareOp) (negated : Bool) : Emit Unit := do
  c.pushOperand l left
  c.pushOperand l right
  emit (.compare op kind)
  if negated then emit logicalNot

/-- A comparison of floating-point numbers; some predicates take two comparisons. -/
def floatCompare (c : Context) (l : Location) (kind : NumKind) (left right : Ref)
    (p : FloatPredicate) : Emit Unit := do
  -- Two comparisons joined by an operator, and the negation of that.
  let both (a b : Ref) (first : CompareOp) (a' b' : Ref) (second : CompareOp) (op : BinaryOp)
      (negated : Bool) : Emit Unit := do
    c.compareOperands l kind a b first false
    c.compareOperands l kind a' b' second false
    emit (.binary op .bool)
    if negated then emit logicalNot
  match p.comparison?, p with
  | some (op, negated), _ => c.compareOperands l kind left right op negated
  | none, .always => loadConst (.bool true)
  | none, .one => both left right .lt left right .gt .or false
  | none, .ueq => both left right .lt left right .gt .or true
  -- A number is ordered if it equals itself.
  | none, .ord => both left left .eq right right .eq .and false
  | none, .uno => both left left .eq right right .eq .and true
  | none, _ => loadConst (.bool false)

/-- One step of an address computation. -/
def addressStep (c : Context) (l : Location) : AddressStep → Emit Unit
  | .stride element index =>
    if index.constInt? = some 0 then return
    else do
      c.pushOperand l index
      emit (.elementAddress (← c.resolved l element))
  | .field record index => emit (.fieldAddress record index)
  | .element element index => do
    c.pushOperand l index
    emit (.elementAddress (← c.resolved l element))

def select (c : Context) (l : Location) (id : NodeId) (condition left right : Ref) : Emit Unit := do
  let otherwise ← newLabel
  let done ← newLabel
  c.pushOperand l condition
  emit (.branchFalse otherwise)
  c.pushOperand l left
  c.storeResult id
  emit (.branch done)
  markLabel otherwise
  c.pushOperand l right
  c.storeResult id
  markLabel done

/-- A call that may throw, in a protected range. The handler keeps the exception and goes straight
to the unwind block, so that the copies for that edge come first. -/
def protectedCall (c : Context) (l : Location) (id : NodeId) (n : Node) (type : FunctionType)
    (callee : Ref) (args : List Ref) (target : CallTarget) (normal unwind : BlockId) :
    Emit Unit := do
  c.edgeCopies l n.block unwind
  let normalLabel ← c.edgeLabel l n.block normal
  let tryStart ← newLabel
  let tryEnd ← newLabel
  let handlerStart ← newLabel
  let handlerEnd ← newLabel
  let exception ← exceptionLocal
  let unwindLabel ← c.blockPosition l unwind
  markLabel tryStart
  c.callSite l id n type callee args target
  emit (.leave normalLabel)
  markLabel tryEnd
  markLabel handlerStart
  emit (.storeLocal exception)
  emit (.leave unwindLabel)
  markLabel handlerEnd
  addRegion ⟨tryStart, tryEnd, handlerStart, handlerEnd⟩

def invoke (c : Context) (l : Location) (id : NodeId) (n : Node) (type : FunctionType)
    (callee : Ref) (args : List Ref) (normal unwind : BlockId) : Emit Unit := do
  let target ← c.callTarget l callee
  if target.mayThrow then c.protectedCall l id n type callee args target normal unwind
  else
    c.callSite l id n type callee args target
    c.jump l n.block normal

/-- The cases of a switch, with their values as integers of the operand's width. -/
def switchCases (c : Context) (l : Location) (source : Nat) (kind : NumKind) :
    List (Int × BlockId) → Emit (List (Int × Code.Label))
  | [] => return []
  | (n, target) :: rest => do
    let label ← c.edgeLabel l source target
    let n := match kind with
      | .int w => w.wrap n
      | _ => n
    return (n, label) :: (← c.switchCases l source kind rest)

/-- Raises the exception that was caught last. -/
def rethrow : Emit Unit := do
  emit (.loadLocal (← exceptionLocal))
  emit .throw

def bitCast (c : Context) (l : Location) (id : NodeId) (n : Node) (v : Ref) : Emit Unit := do
  let source := c.operandType v
  let target := n.resultType.getD .void
  let same := (← c.resolved l source) = (← c.resolved l target)
  if !(same || (source.isPointer && target.isPointer)) then
    misuse l (.reinterpretingCast source target)
  c.pushOperand l v
  c.storeResult id

/-- Lowers a node. The operands of each kind were counted when the node was made. -/
def lowerNode (c : Context) (id : NodeId) (n : Node) : Emit Unit :=
  let l := n.location c.graph.location
  match n.kind, n.operands with
  | .alloca _, _ =>
    match c.slot id with
    | .inLocal i => emit (.initLocal i)
    | _ => return
  | .load ty source, [address] => do
    match c.wholeLocal? source ty with
    | some i => emit (.loadLocal i)
    | none =>
      c.pushOperand l address
      emit (.loadIndirect (← c.resolved l ty))
    c.storeResult id
  | .store destination, [v, address] => do
    let ty := c.operandType v
    match c.wholeLocal? destination ty with
    | some i =>
      c.pushOperand l v
      emit (.storeLocal i)
    | none =>
      c.pushOperand l address
      c.pushOperand l v
      emit (.storeIndirect (← c.resolved l ty))
  | .unary _, [v] => do
    let kind ← c.numKind l (c.operandType v)
    c.pushOperand l v
    emit (.unary .neg kind)
    c.storeResult id
  | .binary opcode, [left, right] => do
    let kind ← c.numKind l (c.operandType left)
    c.pushOperand l left
    c.pushOperand l right
    emit (.binary (binaryOp opcode) kind)
    c.storeResult id
  | .intCompare p, [left, right] => do
    let kind ← c.numKind l (c.operandType left)
    c.compareOperands l kind left right p.comparison.1 p.comparison.2
    c.storeResult id
  | .floatCompare p, [left, right] => do
    let kind ← c.numKind l (c.operandType left)
    c.floatCompare l kind left right p
    c.storeResult id
  | .convert opcode, [v] => do
    let source ← c.numKind l (c.operandType v)
    match n.resultType with
    | none => misuse l .conversionToVoid
    | some ty =>
      let target ← c.numKind l ty
      c.pushOperand l v
      emit (.convert source target (isSigned opcode))
      c.storeResult id
  | .bitCast, [v] => c.bitCast l id n v
  | .freeze, [v] => do
    c.pushOperand l v
    c.storeResult id
  | .select, [condition, left, right] => c.select l id condition left right
  | .vaArg ty, [list] => do
    c.pushOperand l list
    emit (.nextVarArg (← c.resolved l ty))
    c.storeResult id
  | .getElementPtr path _, base :: _ => do
    c.pushOperand l base
    path.forM (c.addressStep l)
    c.storeResult id
  | .call type, operands => do
    let callee := operands.getLastD (.const .null)
    c.callSite l id n type callee operands.dropLast (← c.callTarget l callee)
  | .invoke type normal unwind, operands =>
    c.invoke l id n type (operands.getLastD (.const .null)) (operands.take (operands.length - 3))
      normal unwind
  | .branch target, _ => c.jump l n.block target
  | .condBranch yes no, condition :: _ => do
    c.pushOperand l condition
    emit (.branchTrue (← c.edgeLabel l n.block yes))
    c.jump l n.block no
  | .switch default cases, v :: _ => do
    let kind ← c.numKind l (c.operandType v)
    c.pushOperand l v
    let cases ← c.switchCases l n.block kind cases
    emit (.switchValue cases (← c.edgeLabel l n.block default))
  | .ret, v :: _ => do
    c.pushOperand l v
    emit .ret
  | .ret, [] => do
    if !c.graph.function.isVoid then defect l .returnWithoutValue
    emit .ret
  | .phi _ _, _ => return
  -- Exceptions have no type to choose a handler by, so that the first one takes them all.
  | .catchSwitch (target :: _), _ => c.jump l n.block target
  | .catchPad, _ => emit .nop
  | .cleanupPad, _ => emit .nop
  | .landingPad, _ => emit .nop
  | .catchRet target, _ => c.jump l n.block target
  | .cleanupRet (some target), _ => c.jump l n.block target
  | .cleanupRet none, _ => rethrow
  | .resume, _ => rethrow
  | .unreachable, _ => emit .unreachable
  | .generic opcode, _ => do
    if n.isUsed then defect l (.unsupportedOpcode opcode)
    emit .nop
  | _, operands => defect l (.arity (.atLeast (operands.length + 1)) operands.length)

/-- Lowers the nodes of a block behind its label, and its trampolines behind them. -/
def lowerBlock (c : Context) (position : Nat) (b : Flow.Block) : Emit Unit := do
  markLabel position
  b.instructions.forM fun id =>
    match c.graph.node? id with
    | some n => c.lowerNode id n
    | none => return
  c.flushTrampolines

def lowerBlocks (c : Context) : Emit Unit :=
  c.graph.blocks.zipIdx.forM fun (b, position) => c.lowerBlock position b

end Context

end Stackify.Lower
