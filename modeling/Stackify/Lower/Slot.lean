import Stackify.Lower.Declare

/-!
Where the results of nodes live: nowhere if nobody reads them, on the evaluation stack if the next
node takes them first, and in a local otherwise.
-/

namespace Stackify.Lower

open Stackify.Flow (Graph Node NodeId Flaw)

inductive Slot where
  | nowhere
  | onStack
  | inLocal (index : Nat)
  deriving DecidableEq, Repr

/-- Whether the only use of a node's result is as the first operand of the node that follows it. -/
def staysOnStack (g : Graph) (id : NodeId) (n : Node) : Bool :=
  match n.accessors, n.loads, n.stores with
  | [consumer], [], [] =>
    match g.node? consumer, g.blocks[n.block]? with
    | some c, some b =>
      let next := (b.instructions.idxOf? id).bind (b.instructions[· + 1]?)
      let uses := (c.operands.filter fun r => g.resolve? r = some id).length
      c.block = n.block && next = some consumer && uses = 1 &&
        match c.kind.firstOperand? with
        | some first => (c.operands[first]?).bind g.resolve? = some id
        | none => false
    | _, _ => false
  | _, _, _ => false

/-- The type of the local for a node: the allocated object, a pointer to what an address computation
leads to, or the result. -/
def localType (d : Declared) (g : Graph) (n : Node) : Except Flaw Code.Ty :=
  let resolved := fun ty : Ssa.Ty =>
    match d.resolver.lookup? ty with
    | some s => .ok s
    | none => .error ⟨n.location g.location, .unregisteredType ty⟩
  match n.kind, n.resultType with
  | .alloca allocated, _ => resolved allocated
  | .getElementPtr _ target, _ => (resolved target).map .pointer
  | _, some ty => resolved ty
  | _, none => .ok .void

/-- Whether a node gets a local, and else where its result is. -/
def slotOrLocal (g : Graph) (id : NodeId) (n : Node) : Option Slot :=
  if n.resultType.isNone then some .nowhere
  else
    match n.kind with
    | .alloca _ | .phi _ _ => none
    | .select => if n.isUsed then none else some .nowhere
    | _ =>
      if !n.isUsed then some .nowhere
      else if staysOnStack g id n then some .onStack
      else none

/-- Assigns slots to nodes, the first of which has the given number, behind the given locals. -/
def assignFrom (d : Declared) (g : Graph) : NodeId → List Code.Ty → List Node →
    Except Flaw (List Slot × List Code.Ty)
  | _, locals, [] => .ok ([], locals)
  | id, locals, n :: rest =>
    match slotOrLocal g id n with
    | some slot => do
      let (slots, locals) ← assignFrom d g (id + 1) locals rest
      return (slot :: slots, locals)
    | none => do
      let ty ← localType d g n
      let (slots, locals') ← assignFrom d g (id + 1) (locals ++ [ty]) rest
      return (.inLocal locals.length :: slots, locals')

/-- The slots of all nodes and the types of the locals. -/
def assignSlots (d : Declared) (g : Graph) : Except Flaw (List Slot × List Code.Ty) :=
  assignFrom d g 0 [] g.nodes

end Stackify.Lower
