import Stackify.Flow.Defect
import Stackify.Flow.Predicate
import Stackify.Resolve.Resolver

/-!
Nodes of a function's graph: one for each instruction and each constant expression, with what is
particular to its operation and with the nodes that use its result.
-/

namespace Stackify.Flow

open Ssa (Opcode BlockId Info FunctionType)
open Resolve (Resolver)
open Code (RecordId)

/-! ## Kinds -/

/-- One step of an address computation. -/
inductive AddressStep where
  /-- Moves over whole objects without entering them. -/
  | stride (element : Ssa.Ty) (index : Ref)
  | field (record : RecordId) (index : Nat)
  | element (element : Ssa.Ty) (index : Ref)
  deriving DecidableEq

/-- What a node does. -/
inductive Kind where
  | alloca (allocated : Ssa.Ty)
  /-- With the node that computes the address, if there is one. -/
  | load (ty : Ssa.Ty) (source : Option NodeId)
  /-- Of the first operand at the second, with the node that computes that address. -/
  | store (destination : Option NodeId)
  | call (type : FunctionType)
  | invoke (type : FunctionType) (normal unwind : BlockId)
  | intCompare (p : IntPredicate)
  | floatCompare (p : FloatPredicate)
  | convert (opcode : Opcode)
  | bitCast
  | branch (target : BlockId)
  | condBranch (yes no : BlockId)
  | switch (default : BlockId) (cases : List (Int × BlockId))
  | ret
  /-- With the source blocks, and the value for each predecessor by its position. -/
  | phi (sources : List BlockId) (incoming : List (Nat × Ref))
  /-- With the type that the result points to. -/
  | getElementPtr (path : List AddressStep) (target : Ssa.Ty)
  | select
  | vaArg (ty : Ssa.Ty)
  /-- With the handlers, and behind them the block for what they do not handle. -/
  | catchSwitch (targets : List BlockId)
  | catchPad
  | catchRet (target : BlockId)
  | cleanupPad
  | cleanupRet (unwind : Option BlockId)
  | landingPad
  | resume
  | unary (opcode : Opcode)
  | binary (opcode : Opcode)
  | freeze
  | unreachable
  /-- An operation without a lowering of its own. -/
  | generic (opcode : Opcode)
  deriving DecidableEq

namespace Kind

/-- The blocks that control may go to, in operand order. -/
def successors : Kind → List BlockId
  | branch target => [target]
  | catchRet target => [target]
  | condBranch yes no => [yes, no]
  | switch default cases => default :: cases.map (·.2)
  | invoke _ normal unwind => [normal, unwind]
  | catchSwitch targets => targets
  | cleanupRet unwind => unwind.toList
  | _ => []

def isExceptional : Kind → Bool
  | invoke _ _ _ | catchSwitch _ | catchPad | catchRet _ | cleanupPad | cleanupRet _ | landingPad
  | resume => true
  | _ => false

/-- The operand that is pushed first, if each operand is pushed once and nothing comes before it. -/
def firstOperand? : Kind → Option Nat
  | ret | binary _ | unary _ | intCompare _ | convert _ | bitCast | condBranch _ _ | switch _ _ =>
    some 0
  | floatCompare p => if p.evaluatesOnce then some 0 else none
  | _ => none

end Kind

/-! ## Address paths -/

/-- The step that an index selects inside an object, and the type of the part. -/
def descend (r : Resolver) (ty : Ssa.Ty) (index : Ref) : Except Defect (AddressStep × Ssa.Ty) :=
  match ty with
  | .struct _ | .literal _ _ =>
    match r.aggregate? ty with
    | none => .error (.unregisteredType ty)
    | some a =>
      match index.constInt? with
      | none => .error (.nonConstantFieldIndex a.name)
      | some n =>
        match if n < 0 then none else a.fields[n.toNat]? with
        | some field => .ok (.field a.record n.toNat, field)
        | none => .error (.fieldIndexOutOfRange a.name n a.fields.length)
  | .array e _ | .vector e _ => .ok (.element e index, e)
  | ty => .error (.indexThroughLeaf ty)

def descendAll (r : Resolver) : Ssa.Ty → List Ref → Except Defect (List AddressStep × Ssa.Ty)
  | ty, [] => .ok ([], ty)
  | ty, i :: rest => do
    let (step, part) ← descend r ty i
    let (steps, target) ← descendAll r part rest
    return (step :: steps, target)

/-- The steps of an index list and the type that they lead to. The first index moves over whole
objects, each further one selects a part. -/
def addressPath (r : Resolver) (ty : Ssa.Ty) : List Ref → Except Defect (List AddressStep × Ssa.Ty)
  | [] => .ok ([], ty)
  | first :: rest => do
    let (steps, target) ← descendAll r ty rest
    return (.stride ty first :: steps, target)

/-! ## Kind of an operation -/

def exactly (n : Nat) (operands : List Ref) : Except Defect Unit :=
  if operands.length = n then .ok () else .error (.arity (.exactly n) operands.length)

def atLeast (n : Nat) (operands : List Ref) : Except Defect Unit :=
  if n ≤ operands.length then .ok () else .error (.arity (.atLeast n) operands.length)

/-- The block in an operand. -/
def blockOperand (opcode : Opcode) (operands : List Ref) (i : Nat) : Except Defect BlockId :=
  match (operands[i]?).bind Ref.block? with
  | some id => .ok id
  | none => .error (.invalidOperand (.notBlock i opcode))

/-- The cases of a switch, whose first operand is operand number `i`. -/
def switchCases (opcode : Opcode) (operands : List Ref) (i : Nat) :
    List Ref → Except Defect (List (Int × BlockId))
  | value :: _ :: rest => do
    match value.constInt? with
    | none => throw (.invalidOperand .caseNotConstant)
    | some n =>
      let target ← blockOperand opcode operands (i + 1)
      return (n, target) :: (← switchCases opcode operands (i + 2) rest)
  | _ => .ok []

def predicateCode : Info → Except Defect Nat
  | .predicate code => .ok code
  | _ => .error (.invalidOperand .noPredicate)

def callType : Info → Except Defect FunctionType
  | .call type => .ok type
  | _ => .error (.invalidOperand .noFunctionType)

/-- What an operation does to its operands, if they suit it. -/
def Kind.make (r : Resolver) (opcode : Opcode) (ty : Ssa.Ty) (operands : List Ref) (info : Info) :
    Except Defect Kind :=
  let block := blockOperand opcode operands
  let count := operands.length
  match opcode with
  | .alloca =>
    if 1 < count then .error (.arity (.either 0 1) count)
    else match info with
      | .alloca allocated => .ok (.alloca allocated)
      | _ => .error (.invalidOperand .noAllocatedType)
  | .load => do
    exactly 1 operands
    return .load ty none
  | .store => do
    exactly 2 operands
    return .store none
  | .fneg => do
    exactly 1 operands
    return .unary opcode
  | .add | .fadd | .sub | .fsub | .mul | .fmul | .udiv | .sdiv | .fdiv | .urem | .srem | .frem
  | .shl | .lshr
  | .ashr | .and | .or | .xor => do
    exactly 2 operands
    return .binary opcode
  | .icmp => do
    exactly 2 operands
    let code ← predicateCode info
    match IntPredicate.ofCode? code with
    | some p => return .intCompare p
    | none => throw (.unknownPredicate code)
  | .fcmp => do
    exactly 2 operands
    let code ← predicateCode info
    match FloatPredicate.ofCode? code with
    | some p => return .floatCompare p
    | none => throw (.unknownPredicate code)
  | .bitCast | .addrSpaceCast => do
    exactly 1 operands
    return .bitCast
  | .trunc | .zext | .sext | .fpToUi | .fpToSi | .uiToFp | .siToFp | .fpTrunc | .fpExt | .ptrToInt
  | .intToPtr => do
    exactly 1 operands
    return .convert opcode
  | .br =>
    match count with
    | 1 => return .branch (← block 0)
    | 3 => return .condBranch (← block 1) (← block 2)
    | n => .error (.arity (.either 1 3) n)
  | .switch => do
    if count < 2 ∨ count % 2 ≠ 0 then throw (.arity .switchOperands count)
    let cases ← switchCases opcode operands 2 (operands.drop 2)
    return .switch (← block 1) cases
  | .ret => if 1 < count then .error (.arity (.either 0 1) count) else .ok .ret
  | .phi =>
    match info with
    | .phi incoming =>
      if operands.isEmpty ∨ incoming.length ≠ count then
        .error (.arity (.onePerIncoming incoming.length) count)
      else .ok (.phi incoming [])
    | _ => .error (.invalidOperand .noIncomingBlocks)
  | .getElementPtr => do
    atLeast 1 operands
    match info with
    | .gep source _ =>
      let (path, target) ← addressPath r source operands.tail
      return .getElementPtr path target
    | _ => throw (.invalidOperand .noSourceType)
  | .select => do
    exactly 3 operands
    return .select
  | .vaArg => do
    exactly 1 operands
    return .vaArg ty
  | .call => do
    atLeast 1 operands
    return .call (← callType info)
  | .invoke => do
    atLeast 3 operands
    return .invoke (← callType info) (← block (count - 3)) (← block (count - 2))
  | .catchSwitch => do
    atLeast 2 operands
    return .catchSwitch (← (List.range' 1 (count - 1)).mapM block)
  | .catchPad => .ok .catchPad
  | .cleanupPad => .ok .cleanupPad
  | .landingPad => .ok .landingPad
  | .catchRet => do
    exactly 2 operands
    return .catchRet (← block 1)
  | .cleanupRet =>
    match count with
    | 1 => .ok (.cleanupRet none)
    | 2 => return .cleanupRet (some (← block 1))
    | n => .error (.arity (.either 1 2) n)
  | .resume => do
    exactly 1 operands
    return .resume
  | .freeze => do
    exactly 1 operands
    return .freeze
  | .unreachable => do
    exactly 0 operands
    return .unreachable
  | other => .ok (.generic other)

/-! ## Nodes -/

structure Node where
  key : Key
  /-- The position of the block that the node is in. -/
  block : Nat
  opcode : Opcode
  kind : Kind
  operands : List Ref
  /-- The type of the result, if the node has one. -/
  resultType : Option Ssa.Ty
  /-- The loads from the address that the node computes. -/
  loads : List NodeId := []
  /-- The stores to that address. -/
  stores : List NodeId := []
  /-- The nodes that use the result in any other way. -/
  accessors : List NodeId := []

/-- The type of a result; what is no value has none. -/
def resultType? : Ssa.Ty → Option Ssa.Ty
  | .void | .token | .label | .metadata => none
  | ty => some ty

namespace Node

def isUsed (n : Node) : Bool := !(n.accessors.isEmpty && n.loads.isEmpty && n.stores.isEmpty)

def location (function : Location) (n : Node) : Location := function.node n.key n.opcode

/-- The node of an operation. -/
def make (r : Resolver) (function : Location) (block : Nat) (key : Key) (opcode : Opcode)
    (ty : Ssa.Ty) (operands : List Ref) (info : Info) : Except Flaw Node :=
  match Kind.make r opcode ty operands info with
  | .ok kind => .ok { key, block, opcode, kind, operands, resultType := resultType? ty }
  | .error defect => .error ⟨function.node key opcode, defect⟩

end Node

end Stackify.Flow
