import Stackify.Flow.Node

/-!
Flattening of constant expressions. Each expression in an operand becomes a node; the operands of an
expression come before it, from left to right. Expressions whose operands are not complete wait on a
stack, so that their depth is not limited.
-/

namespace Stackify.Flow

open Ssa (Opcode BlockId Info Operand Instruction)
open Resolve (Resolver)

/-- What making nodes depends on. -/
structure Setting where
  resolver : Resolver
  /-- How many expressions one instruction may hold. -/
  limit : Nat
  location : Location

/-- The nodes made so far. -/
structure Draft where
  nodes : List Node := []
  /-- The number of nodes made from expressions. -/
  synthesized : Nat := 0
  /-- Nodes that belong to the end of another block, by the number of that block. -/
  hoisted : List (BlockId × NodeId) := []

def Draft.append (d : Draft) (n : Node) : NodeId × Draft :=
  (d.nodes.length, { d with nodes := d.nodes ++ [n] })

/-! ## Expressions -/

/-- An expression with operands that are still to come and those that are done. -/
structure Pending where
  opcode : Opcode
  ty : Ssa.Ty
  info : Info
  rest : List Operand
  done : List Ref := []

/-- The state of flattening: what may still be made, the draft, and the nodes made for this
consumer. -/
structure Flattening where
  budget : Nat
  draft : Draft
  created : List NodeId := []

mutual

/-- The number of steps that an operand takes. -/
def weight : Operand → Nat
  | .expr _ _ operands _ => 2 + weightAll operands
  | .value _ | .const _ | .block _ | .global _ | .function _ => 1

def weightAll : List Operand → Nat
  | [] => 0
  | o :: os => weight o + weightAll os

end

def Pending.weight (p : Pending) : Nat := 1 + weightAll p.rest

def pendingWeight : List Pending → Nat
  | [] => 0
  | p :: ps => p.weight + pendingWeight ps

/-- Makes the node of an expression whose operands are done. -/
def Flattening.make (s : Setting) (consumer : Location) (block : Nat) (p : Pending)
    (f : Flattening) : Except Flaw (Key × Flattening) :=
  match f.budget with
  | 0 => .error ⟨consumer, .constantExpressionLimit s.limit⟩
  | budget + 1 => do
    let key := Key.synthesized f.draft.synthesized
    let node ← Node.make s.resolver s.location block key p.opcode p.ty p.done p.info
    let (id, draft) := { f.draft with synthesized := f.draft.synthesized + 1 }.append node
    return (key, { budget, draft, created := f.created ++ [id] })

/-- Flattens the expression on top of those that wait for it. -/
def flatten (s : Setting) (consumer : Location) (block : Nat) (top : Pending) (below : List Pending)
    (f : Flattening) : Except Flaw (Ref × Flattening) :=
  match _h : top.rest with
  | .expr opcode ty operands info :: rest =>
    flatten s consumer block { opcode, ty, info, rest := operands } ({ top with rest } :: below) f
  | .value id :: rest =>
    flatten s consumer block { top with rest, done := top.done ++ [.key (.value id)] } below f
  | .const c :: rest =>
    flatten s consumer block { top with rest, done := top.done ++ [.const c] } below f
  | .block id :: rest =>
    flatten s consumer block { top with rest, done := top.done ++ [.block id] } below f
  | .global name :: rest =>
    flatten s consumer block { top with rest, done := top.done ++ [.global name] } below f
  | .function name :: rest =>
    flatten s consumer block { top with rest, done := top.done ++ [.function name] } below f
  | [] =>
    match f.make s consumer block top with
    | .error e => .error e
    | .ok (key, f) =>
      match below with
      | [] => .ok (.key key, f)
      | parent :: below =>
        flatten s consumer block { parent with done := parent.done ++ [.key key] } below f
termination_by top.weight + pendingWeight below
decreasing_by
  all_goals simp only [Pending.weight, _h, weightAll, weight, pendingWeight]
  all_goals omega

/-! ## Instructions -/

/-- The blocks that the operands of a phi come from. -/
def incomingBlocks (i : Instruction) : List BlockId :=
  match i.opcode, i.info with
  | .phi, .phi incoming => incoming
  | _, _ => []

/-- Resolves the operands of an instruction. What feeds a phi is evaluated at the end of the block
that it comes from. -/
def flattenOperands (s : Setting) (consumer : Location) (block : Nat) :
    List (Operand × Option BlockId) → Flattening → Except Flaw (List Ref × Flattening)
  | [], f => .ok ([], f)
  | (operand, source) :: rest, f => do
    let (ref, f) ← match operand, source with
      | .expr opcode ty operands info, none =>
        flatten s consumer block { opcode, ty, info, rest := operands } [] f
      | .expr opcode ty operands info, some id => do
        let (ref, g) ← flatten s consumer block { opcode, ty, info, rest := operands } []
            { f with created := [] }
        let hoisted := g.draft.hoisted ++ g.created.map (id, ·)
        pure (ref, { g with draft := { g.draft with hoisted }, created := f.created })
      | .value id, _ => pure (Ref.key (.value id), f)
      | .const c, _ => pure (Ref.const c, f)
      | .block id, _ => pure (Ref.block id, f)
      | .global name, _ => pure (Ref.global name, f)
      | .function name, _ => pure (Ref.function name, f)
    let (refs, f) ← flattenOperands s consumer block rest f
    return (ref :: refs, f)

/-- Adds the nodes of an instruction, with its expressions in front, and gives those that stay in
its block. -/
def addInstruction (s : Setting) (block : Nat) (d : Draft) (i : Instruction) :
    Except Flaw (List NodeId × Draft) := do
  let key := Key.value i.id
  let sources := (incomingBlocks i).map some ++ List.replicate i.operands.length none
  let (operands, f) ← flattenOperands s (s.location.node key i.opcode) block
      (i.operands.zip sources)
    { budget := s.limit, draft := d }
  let node ← Node.make s.resolver s.location block key i.opcode i.ty operands i.info
  let (id, draft) := f.draft.append node
  return (f.created ++ [id], draft)

end Stackify.Flow
