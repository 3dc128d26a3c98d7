import Stackify.Flow.Flatten

/-!
The graph of a function: its blocks with the edges between them, its nodes with the edges of data
flow, and the value that each phi takes from each predecessor.
-/

namespace Stackify.Flow

open Ssa (BlockId ValueId Function Module)

/-! ## Blocks -/

structure Block where
  id : BlockId
  name : Option String
  instructions : List NodeId
  /-- Positions of the blocks that control may come from, each once. -/
  predecessors : List Nat := []
  /-- Positions of the blocks that control may go to, each once. -/
  successors : List Nat := []
  deriving DecidableEq, Repr

/-- The last position in a list, counted from `i`, that satisfies a condition. -/
def lastIndexFrom {α : Type} (cond : α → Bool) (i : Nat) : List α → Option Nat
  | [] => none
  | a :: rest =>
    match lastIndexFrom cond (i + 1) rest with
    | some j => some j
    | none => if cond a then some i else none

def lastIndex? {α : Type} (cond : α → Bool) (l : List α) : Option Nat := lastIndexFrom cond 0 l

def blockIndex? (blocks : List Block) (id : BlockId) : Option Nat :=
  lastIndex? (fun b => b.id = id) blocks

def nodeFor? (nodes : List Node) (k : Key) : Option NodeId := lastIndex? (fun n => n.key = k) nodes

/-- The node that an operand refers to, if there is one in the function. -/
def resolve? (nodes : List Node) (r : Ref) : Option NodeId := r.key?.bind (nodeFor? nodes)

/-! ## Making blocks -/

/-- Adds the nodes of the instructions of a block. -/
def addInstructions (s : Setting) (block : Nat) :
    List Ssa.Instruction → Draft → Except Flaw (List NodeId × Draft)
  | [], d => .ok ([], d)
  | i :: rest, d => do
    let (ids, d) ← addInstruction s block d i
    let (more, d) ← addInstructions s block rest d
    return (ids ++ more, d)

/-- Makes blocks from the given position on. -/
def addBlocks (s : Setting) (position : Nat) :
    List Ssa.Block → Draft → Except Flaw (List Block × Draft)
  | [], d => .ok ([], d)
  | b :: rest, d => do
    let (instructions, d) ← addInstructions s position b.instructions d
    let (blocks, d) ← addBlocks s (position + 1) rest d
    return ({ id := b.id, name := b.name, instructions } :: blocks, d)

/-- Puts a node in front of the last one of a block. -/
def Block.insertLate (b : Block) (n : NodeId) : Block :=
  { b with instructions := b.instructions.insertIdx (b.instructions.length - 1) n }

/-- Moves nodes to the blocks that they belong to, in the order in which they were made. -/
def placeHoisted (location : Location) : List (BlockId × NodeId) → List Block → List Node →
    Except Flaw (List Block × List Node)
  | [], blocks, nodes => .ok (blocks, nodes)
  | (id, n) :: rest, blocks, nodes =>
    match blocks.findIdx? fun b => b.id = id with
    | none => .error ⟨location, .missingBlock id⟩
    | some i => placeHoisted location rest (blocks.modify i (·.insertLate n))
        (nodes.modify n fun node => { node with block := i })

/-! ## Control flow -/

/-- Adds a successor, unless it is there already; whether it is new. -/
def Block.addSuccessor (b : Block) (i : Nat) : Bool × Block :=
  if b.successors.contains i then
    (false, b) else (true, { b with successors := b.successors ++ [i] })

def Block.addPredecessor (b : Block) (i : Nat) : Block :=
  if b.predecessors.contains i then b else { b with predecessors := b.predecessors ++ [i] }

/-- Links the blocks at two positions. The second one hears of it only if the link is new. -/
def linkEdge (source target : Nat) (blocks : List Block) : List Block :=
  match blocks[source]?.map (·.addSuccessor target) with
  | some (true, b) => (blocks.set source b).modify target (·.addPredecessor source)
  | _ => blocks

/-- Links a block to those with the given numbers, one by one. -/
def linkTargets (location : Location) (source : Nat) :
    List BlockId → List Block → Except Flaw (List Block)
  | [], blocks => .ok blocks
  | id :: rest, blocks =>
    match blockIndex? blocks id with
    | some target => linkTargets location source rest (linkEdge source target blocks)
    | none => .error ⟨location, .missingBlock id⟩

/-- Links a block to those that its terminator names. -/
def linkBlock (location : Location) (nodes : List Node) (blocks : List Block) (source : Nat) :
    Except Flaw (List Block) :=
  match blocks[source]? with
  | none => .ok blocks
  | some b =>
    match b.instructions.getLast?.bind (nodes[·]?) with
    | none => .error ⟨location, .invalidOperand (.emptyBlock b.id)⟩
    | some n =>
      if n.opcode.isTerminator then
        linkTargets (n.location location) source n.kind.successors blocks
      else .error ⟨n.location location, .invalidOperand (.noTerminator b.id)⟩

/-- Links all blocks, in their order. -/
def linkBlocks (location : Location) (blocks : List Block) (nodes : List Node) :
    Except Flaw (List Block) :=
  (List.range blocks.length).foldlM (linkBlock location nodes) blocks

/-! ## Data flow -/

/-- How a node uses the result of another one. -/
inductive Access where
  | load | store | other
  deriving DecidableEq, Repr

/-- The operands of a node with how they are used. -/
def Node.accesses (n : Node) : List (Access × Ref) :=
  match n.kind, n.operands with
  | .load _ _, [address] => [(.load, address)]
  | .store _, [value, address] => [(.other, value), (.store, address)]
  | _, operands => operands.map (.other, ·)

/-- An edge from the node that computes a result to one that uses it. -/
structure Edge where
  producer : NodeId
  access : Access
  consumer : NodeId
  deriving DecidableEq, Repr

def dataEdges (nodes : List Node) : List Edge :=
  nodes.zipIdx.flatMap fun (n, consumer) =>
    n.accesses.filterMap fun (access, r) =>
      (resolve? nodes r).map fun producer => ⟨producer, access, consumer⟩

/-- The consumers of edges of one kind, each once. -/
def consumers (edges : List Edge) (access : Access) : List NodeId :=
  ((edges.filter fun e => e.access = access).map (·.consumer)).eraseDups

/-- The value that a phi takes from each predecessor of its block. -/
def incomingValues (location : Location) (blocks : List Block) (n : Node) (sources : List BlockId) :
    Except Flaw (List (Nat × Ref)) :=
  (blocks[n.block]?.elim [] (·.predecessors)).mapM fun i =>
    let id := blocks[i]?.elim 0 (·.id)
    match (sources.idxOf? id).bind (n.operands[·]?) with
    | some r => .ok (i, r)
    | none => .error ⟨n.location location, .phiMismatch id⟩

/-- Records what a node loads from, stores to or takes from predecessors. -/
def completeKind (location : Location) (blocks : List Block) (nodes : List Node) (n : Node) :
    Except Flaw Kind :=
  match n.kind, n.operands with
  | .load ty _, [address] => .ok (.load ty (resolve? nodes address))
  | .store _, [_, address] => .ok (.store (resolve? nodes address))
  | .phi sources _, _ => (incomingValues location blocks n sources).map (.phi sources)
  | kind, _ => .ok kind

def analyzeDataFlow (location : Location) (blocks : List Block) (nodes : List Node) :
    Except Flaw (List Node) := do
  let kinds ← nodes.mapM (completeKind location blocks nodes)
  let edges := dataEdges nodes
  return (nodes.zip kinds).zipIdx.map fun ((n, kind), i) =>
    let own := edges.filter fun e => e.producer = i
    { n with kind, loads := consumers own .load, stores := consumers own .store, accessors :=
        consumers own .other }

/-! ## Graphs -/

structure Graph where
  function : Function
  /-- The display name of the function. -/
  name : String
  blocks : List Block
  nodes : List Node
  /-- The function that guides the handling of exceptions. -/
  personality : Option Function

namespace Graph

def location (g : Graph) : Location := { function := g.name }

def node? (g : Graph) (id : NodeId) : Option Node := g.nodes[id]?

/-- The position of a parameter. -/
def paramIndex? (g : Graph) (id : ValueId) : Option Nat :=
  lastIndex? (fun p => p.id = id) g.function.params

def blockIndex? (g : Graph) (id : BlockId) : Option Nat := Flow.blockIndex? g.blocks id

def resolve? (g : Graph) (r : Ref) : Option NodeId := Flow.resolve? g.nodes r

end Graph

/-- The personality of a function; functions that handle exceptions need one. -/
def personalityOf (location : Location) (m : Module) (f : Function) (nodes : List Node) :
    Except Flaw (Option Function) :=
  match f.personality with
  | some name =>
    match m.function? name with
    | some p => .ok (some p)
    | none => .error ⟨location, .unknownPersonality name⟩
  | none =>
    if nodes.any fun n =>
      n.kind.isExceptional then .error ⟨location, .missingPersonality⟩ else .ok none

/-- Builds the graph of a function. -/
def Graph.make (m : Module) (s : Setting) (f : Function) : Except Flaw Graph := do
  let (blocks, draft) ← addBlocks s 0 f.blocks {}
  let (blocks, nodes) ← placeHoisted s.location draft.hoisted blocks draft.nodes
  let blocks ← linkBlocks s.location blocks nodes
  let nodes ← analyzeDataFlow s.location blocks nodes
  let personality ← personalityOf s.location m f nodes
  return { function := f, name := s.location.function, blocks, nodes, personality }

end Stackify.Flow
