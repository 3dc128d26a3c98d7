import Stackify.Lower.Emit

/-!
Lowering of call sites: arguments, the call itself and its result.
-/

namespace Stackify.Lower

open Code (Service)
open Stackify.Flow (Node NodeId Ref Location Expected)
open Ssa (FunctionType)

namespace Context

/-- Pushes the fixed arguments, and packs the further ones if there may be any. -/
def pushArguments (c : Context) (l : Location) (args : List Ref) (fixed : Nat) (variadic : Bool) :
    Emit Unit := do
  (args.take fixed).forM (c.pushOperand l)
  if variadic then
    (args.drop fixed).forM (c.pushOperand l)
    emit (.packVarArgs (args.length - fixed))
  else if fixed < args.length then defect l (.arity (.arguments fixed) args.length)

/-- A call of a method by number. -/
def callMethod (c : Context) (l : Location) (id : NodeId) (n : Node) (e : MethodEntry)
    (args : List Ref) : Emit Unit := do
  let params := e.type.params.length
  if args.length < params then defect l (.arity (.arguments params) args.length)
  if e.type.ret.isVoid ≠ n.resultType.isNone then misuse l .resultMismatch
  c.pushArguments l args params e.type.variadic
  emit (.call e.index e.type.argSlots)
  if !e.type.ret.isVoid then c.storeResult id

/-- Services that copy or fill memory. As functions they return where they wrote to. -/
def isMemoryService : Service → Bool
  | .memCopy | .memMove | .memSet => true
  | _ => false

/-- Whether a service takes this number of arguments: memory services may have a flag behind theirs,
and termination ignores all. -/
def acceptsArguments (s : Service) (count : Nat) : Bool :=
  count = s.arity || (isMemoryService s && count = s.arity + 1) || s = .terminate

def callService (c : Context) (l : Location) (id : NodeId) (n : Node) (s : Service)
    (args : List Ref) : Emit Unit := do
  if !acceptsArguments s args.length then
    defect l (.arity (.serviceArguments s.arity s) args.length)
  (args.take s.arity).forM (c.pushOperand l)
  emit (.callService s s.arity)
  if !s.returns.isVoid then c.storeResult id
  else if n.resultType.isSome then
    match isMemoryService s, args with
    | true, target :: _ =>
      c.pushOperand l target
      c.storeResult id
    | _, _ => misuse l (.noValueFrom s)

/-- The argument that holds the packed arguments. -/
def packedArgument? (c : Context) : Option Nat :=
  if c.graph.function.type.variadic then some c.graph.function.params.length else none

def startVarArgs (c : Context) (l : Location) (args : List Ref) : Emit Unit :=
  match args, c.packedArgument? with
  | [list], some i => do
    c.pushOperand l list
    emit (.loadArg i)
    emit (.storeIndirect .varArgs)
  | [_], none => misuse l .vaStartNotVariadic
  | args, _ => defect l (.arity (.exactly 1) args.length)

def endVarArgs (c : Context) (l : Location) (args : List Ref) : Emit Unit :=
  args.forM fun r => do
    c.pushOperand l r
    emit .pop

/-- A call through a method pointer. -/
def callIndirect (c : Context) (l : Location) (id : NodeId) (type : FunctionType) (callee : Ref)
    (args : List Ref) : Emit Unit := do
  let fixed := type.params.length
  let returns := !type.ret.isVoid
  if args.length < fixed then defect l (.arity (.arguments fixed) args.length)
  c.pushArguments l args fixed type.variadic
  c.pushOperand l callee
  emit (.callIndirect (fixed + type.variadic.toNat) returns)
  if returns then c.storeResult id

def callSite (c : Context) (l : Location) (id : NodeId) (n : Node) (type : FunctionType)
    (callee : Ref) (args : List Ref) : CallTarget → Emit Unit
  | .method e => c.callMethod l id n e args
  | .route (.service s) => c.callService l id n s args
  | .route .vaStart => c.startVarArgs l args
  | .route .vaEnd => c.endVarArgs l args
  | .indirect => c.callIndirect l id type callee args

def callTarget (c : Context) (l : Location) (callee : Ref) : Emit CallTarget :=
  match c.declared.callTarget l callee with
  | .ok t => return t
  | .error e => throw e

end Context

end Stackify.Lower
