import Stackify.Lower.Slot

/-!
Emission of code: appending operations, taking operands to the stack, storing results, and moving
along the edges between blocks.

The label of a block is its position. The phis of a block get their values on the edges into it; an
edge that cannot hold the copies in place goes through a trampoline behind the block it leaves.
-/

namespace Stackify.Lower

open Code (Op Const NumKind Label)
open Stackify.Flow (Graph Node NodeId Ref Location Defect Misuse)
open Ssa (BlockId Constant)

/-- An edge with copies of its own. -/
structure Trampoline where
  label : Label
  source : Nat
  target : Nat

/-- The code emitted so far. -/
structure Emission where
  body : Code.Assembly := {}
  /-- The pool of constants, which all methods share. -/
  consts : List Const := []
  /-- Trampolines to be placed behind the current block. -/
  trampolines : List Trampoline := []
  /-- The local that holds the exception being handled. -/
  exceptionLocal : Option Nat := none

/-- What is lowered. -/
structure Context where
  declared : Declared
  graph : Graph
  slots : List Slot

/-- A computation that emits code. What was emitted before a failure stays. -/
abbrev Emit := EStateM Error Emission

/-! ## Operations -/

def emit (op : Op) : Emit Unit := modify fun e => { e with body := e.body.emit [op] }

def newLabel : Emit Label := modifyGet fun e =>
  let (l, body) := e.body.newLabel
  (l, { e with body })

def markLabel (l : Label) : Emit Unit := modify fun e => { e with body := e.body.markLabel l }

def addRegion (r : Code.Region) : Emit Unit := modify fun e => { e with body := e.body.addRegion r }

def loadConst (c : Const) : Emit Unit := do
  let i ← modifyGet fun e =>
    let (i, consts) := Code.intern e.consts c
    (i, { e with consts })
  emit (.loadConst i)

/-- The local for exceptions, which is added when it is first needed. -/
def exceptionLocal : Emit Nat := do
  match (← get).exceptionLocal with
  | some i => return i
  | none => modifyGet fun e =>
    let (i, body) := e.body.addLocal .opaquePointer
    (i, { e with body, exceptionLocal := some i })

def defect {α : Type} (l : Location) (d : Defect) : Emit α := throw (.structural ⟨l, d⟩)

def misuse {α : Type} (l : Location) (m : Misuse) : Emit α := defect l (.invalidOperand m)

/-! ## Types -/

namespace Context

def resolved (c : Context) (l : Location) (ty : Ssa.Ty) : Emit Code.Ty :=
  match c.declared.resolver.lookup? ty with
  | some s => return s
  | none => defect l (.unregisteredType ty)

def numKind (c : Context) (l : Location) (ty : Ssa.Ty) : Emit NumKind := do
  match (← c.resolved l ty).numKind? with
  | some k => return k
  | none => misuse l (.notNumeric ty)

def slot (c : Context) (id : NodeId) : Slot := c.slots.getD id .nowhere

/-- The parameter that a reference names. -/
def param? (c : Context) : Ref → Option Nat
  | .key (.value id) => c.graph.paramIndex? id
  | _ => none

/-- The source type of an operand; an unknown value has none. -/
def operandType (c : Context) (r : Ref) : Ssa.Ty :=
  match r with
  | .key _ =>
    match (c.param? r).bind (c.graph.function.params[·]?) with
    | some p => p.ty
    | none => (((c.graph.resolve? r).bind c.graph.node?).bind (·.resultType)).getD .void
  | .const k => k.ty
  | .global _ => .pointer
  | .function _ => .pointer
  | .block _ => .label

/-! ## Operands and results -/

/-- The constant of the stack machine for a source constant. -/
def constant (c : Context) (l : Location) : Constant → Emit Const
  | .int ty n => do
    match ← c.resolved l ty with
    | .bool => return .bool (n % 2 ≠ 0)
    | .int w => return .int w (w.wrap n)
    | other => misuse l (.intOfType other)
  | .float ty x => do
    match (← c.resolved l ty).numKind? with
    | some (.float k) => return .float k x
    | _ => misuse l (.floatOfType ty)
  | .null => return .null
  | .noneToken => return .null
  | .undef ty => ofType ty
  | .poison ty => ofType ty
  | .zero ty => ofType ty
where
  /-- The default value of a type. -/
  ofType (ty : Ssa.Ty) : Emit Const := do
    match ← c.resolved l ty with
    | .void => return .null
    | s => return .default s

/-- Takes the result of a node to the stack. -/
def pushNode (c : Context) (l : Location) (k : Flow.Key) (id : NodeId) : Emit Unit :=
  match c.slot id, (c.graph.node? id).map Node.kind with
  | .inLocal i, some (.alloca _) => emit (.loadLocalAddress i)
  | .inLocal i, _ => emit (.loadLocal i)
  | .onStack, _ => return
  | .nowhere, _ => misuse l (.noResult k)

def pushOperand (c : Context) (l : Location) (r : Ref) : Emit Unit :=
  match r with
  | .key k =>
    match c.param? r, c.graph.resolve? r with
    | some i, _ => emit (.loadArg i)
    | none, some id => c.pushNode l k id
    | none, none => misuse l (.unknownValue k)
  | .const k => do loadConst (← c.constant l k)
  | .global name =>
    match c.declared.staticIndex? name with
    | some i => emit (.loadStaticAddress i)
    | none => throw (.unresolvedSymbol l name)
  | .function name =>
    match c.declared.method? name with
    | some e => emit (.loadMethodPointer e.index)
    | none => throw (.unresolvedSymbol l name)
  | .block id => misuse l (.blockAsValue id)

/-- Stores the result of a node, or drops it if nobody reads it. -/
def storeResult (c : Context) (id : NodeId) : Emit Unit :=
  match c.slot id with
  | .inLocal i => emit (.storeLocal i)
  | .onStack => return
  | .nowhere => emit .pop

/-- The local of the allocation that an address is, if an access of the given type covers all of
it. -/
def wholeLocal? (c : Context) (address : Option NodeId) (ty : Ssa.Ty) : Option Nat := do
  let id ← address
  match c.slot id, (← c.graph.node? id).kind with
  | .inLocal i, .alloca allocated => if allocated = ty then some i else none
  | _, _ => none

/-! ## Edges -/

/-- The position of a block. -/
def blockPosition (c : Context) (l : Location) (id : BlockId) : Emit Nat :=
  match c.graph.blockIndex? id with
  | some i => return i
  | none => defect l (.missingBlock id)

/-- The phis of the block at a position, with their values by predecessor. -/
def phis (c : Context) (position : Nat) : List (NodeId × List (Nat × Ref)) :=
  (c.graph.blocks[position]?.elim [] (·.instructions)).filterMap fun id =>
    match (c.graph.node? id).map Node.kind with
    | some (.phi _ incoming) => some (id, incoming)
    | _ => none

/-- Pushes the values that phis take from a predecessor, and gives the locals of the phis. -/
def pushIncoming (c : Context) (l : Location) (source : Nat) :
    List (NodeId × List (Nat × Ref)) → Emit (List Nat)
  | [] => return []
  | (id, incoming) :: rest =>
    match incoming.find? fun e => e.1 = source, c.slot id with
    | none, _ => defect l (.phiMismatch (c.graph.blocks[source]?.elim 0 (·.id)))
    | some (_, r), .inLocal i => do
      c.pushOperand l r
      return i :: (← c.pushIncoming l source rest)
    | some _, _ => misuse l .phiWithoutLocal

/-- The copies on an edge. All values are pushed before a phi is written, so that phis which read
each other read what was there before. -/
def copiesInto (c : Context) (l : Location) (source target : Nat) : Emit Unit := do
  let locals ← c.pushIncoming l source (c.phis target)
  locals.reverse.forM fun i => emit (.storeLocal i)

/-- The copies on an edge to a block. -/
def edgeCopies (c : Context) (l : Location) (source : Nat) (id : BlockId) : Emit Unit := do
  c.copiesInto l source (← c.blockPosition l id)

/-- The label to jump to for an edge: that of the block, or of a trampoline if there are copies. -/
def edgeLabel (c : Context) (l : Location) (source : Nat) (id : BlockId) : Emit Label := do
  let target ← c.blockPosition l id
  if (c.phis target).isEmpty then return target
  match (← get).trampolines.find? fun t => t.source = source && t.target = target with
  | some t => return t.label
  | none =>
    let label ← newLabel
    modify fun e => { e with trampolines := e.trampolines ++ [⟨label, source, target⟩] }
    return label

/-- Goes along an edge: first the copies, then the jump. -/
def jump (c : Context) (l : Location) (source : Nat) (id : BlockId) : Emit Unit := do
  c.edgeCopies l source id
  emit (.branch (← c.blockPosition l id))

/-- Places the trampolines that are waiting. -/
def flushTrampolines (c : Context) : Emit Unit := do
  let waiting ← modifyGet fun e => (e.trampolines, { e with trampolines := [] })
  waiting.forM fun t => do
    markLabel t.label
    c.copiesInto c.graph.location t.source t.target
    emit (.branch t.target)

end Context

end Stackify.Lower
