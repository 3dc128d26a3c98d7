import Stackify.Flow.Graph
import Stackify.Proofs.Success

/-!
Which nodes instructions become.

`postorder` makes the nodes of the expressions in an operand by recursion: the operands of an
expression come before it, from left to right, and the keys count up from `k`. The stack of waiting
expressions does the same, flaws included:

- `flatten_eq_postorder`: flattening an expression is its recursion;
- `postorder_eq`: the recursion makes the expressions in post-order, each with its count;
- `postorder_built`: what it makes, as the relation `Built s block k os rs new`: the operands `os`
  become the references `rs`, where the expressions among them become the nodes `new`;
- `addInstruction_drafted`, `addBlocks_drafted`: the nodes of an instruction and of all blocks.
-/

namespace Stackify.Ssa

/-- An operation: what an instruction or a constant expression does. -/
structure Operation where
  opcode : Opcode
  ty : Ty
  operands : List Operand
  info : Info

def Instruction.operation (i : Instruction) : Operation := ⟨i.opcode, i.ty, i.operands, i.info⟩

mutual

/-- The expressions in an operand, inner ones first. -/
def Operand.expressions : Operand → List Operation
  | .expr opcode ty operands info =>
    Operand.allExpressions operands ++ [⟨opcode, ty, operands, info⟩]
  | .value _ | .const _ | .block _ | .global _ | .function _ => []

def Operand.allExpressions : List Operand → List Operation
  | [] => []
  | o :: os => o.expressions ++ Operand.allExpressions os

end

end Stackify.Ssa

namespace Stackify.Flow

open Ssa (Opcode BlockId Info Operand Operation Instruction)
open List

/-! ## Recursion -/

/-- The reference for an operand that is no expression. -/
def leaf? : Operand → Option Ref
  | .value id => some (.key (.value id))
  | .const c => some (.const c)
  | .block id => some (.block id)
  | .global name => some (.global name)
  | .function name => some (.function name)
  | .expr _ _ _ _ => none

/-- The node of an expression behind those of its operands, as long as there are fewer than
`budget`. -/
def expressionNode (s : Setting) (consumer : Location) (block budget k : Nat) (opcode : Opcode)
    (ty : Ssa.Ty) (info : Info) (refs : List Ref) (inner : List Node) :
    Except Flaw (Key × List Node) :=
  let key := Key.synthesized (k + inner.length)
  if budget ≤ inner.length then .error ⟨consumer, .constantExpressionLimit s.limit⟩
  else (Node.make s.resolver s.location block key opcode ty refs info).map fun n =>
    (key, inner ++ [n])

mutual

/-- The reference for an operand, and the nodes of the expressions in it: those of its operands come
first, from left to right. The keys count up from `k`, and at most `budget` nodes are made. -/
def postorder (s : Setting) (consumer : Location) (block : Nat) :
    (budget k : Nat) → Operand → Except Flaw (Ref × List Node)
  | budget, k, .expr opcode ty operands info => do
    let (refs, inner) ← postorderAll s consumer block budget k operands
    let (key, new) ← expressionNode s consumer block budget k opcode ty info refs inner
    return (.key key, new)
  | _, _, .value id => return (.key (.value id), [])
  | _, _, .const c => return (.const c, [])
  | _, _, .block id => return (.block id, [])
  | _, _, .global name => return (.global name, [])
  | _, _, .function name => return (.function name, [])

def postorderAll (s : Setting) (consumer : Location) (block : Nat) :
    (budget k : Nat) → List Operand → Except Flaw (List Ref × List Node)
  | _, _, [] => return ([], [])
  | budget, k, o :: os => do
    let (r, new) ← postorder s consumer block budget k o
    let (rs, more) ← postorderAll s consumer block (budget - new.length) (k + new.length) os
    return (r :: rs, new ++ more)

end

/-! ## The stack -/

/-- The state of flattening with more nodes. -/
def Flattening.add (f : Flattening) (new : List Node) : Flattening where
  budget := f.budget - new.length
  draft :=
    { f.draft with nodes := f.draft.nodes ++ new, synthesized := f.draft.synthesized + new.length }
  created := f.created ++ range' f.draft.nodes.length new.length

variable {s : Setting} {consumer : Location} {block k : Nat} {top : Pending}
  {below : List Pending} {r : Ref} {new : List Node} {o : Operand} {rest operands : List Operand}
  {opcode : Opcode} {ty : Ssa.Ty} {info : Info} {f f' : Flattening} {more : List Node}

theorem Flattening.add_add (f : Flattening) (new more : List Node) :
    (f.add new).add more = f.add (new ++ more) := by
  simp [add, Nat.sub_sub, Nat.add_assoc]

/-- The same where the nodes may belong to the end of another block. -/
def Flattening.settle (f : Flattening) : Option BlockId → List Node → Flattening
  | none, new => f.add new
  | some id, new =>
    let hoisted := f.draft.hoisted ++ (range' f.draft.nodes.length new.length).map (id, ·)
    { f.add new with draft := { (f.add new).draft with hoisted }, created := f.created }

theorem Flattening.settle_nil (f : Flattening) (source : Option BlockId) :
    f.settle source [] = f := by
  cases source <;> simp [settle, add]

/-- An expression under way, by recursion: the operands that are still to come, and then its
node. -/
def Pending.complete (s : Setting) (consumer : Location) (block : Nat) (p : Pending)
    (f : Flattening) : Except Flaw (Key × Flattening) := do
  let (refs, inner) ← postorderAll s consumer block f.budget f.draft.synthesized p.rest
  let (key, new) ← expressionNode s consumer block f.budget f.draft.synthesized p.opcode p.ty p.info
      (p.done ++ refs) inner
  return (key, f.add new)

/-- Those that wait are completed one after the other, each with the key of the one before it. -/
def resume (s : Setting) (consumer : Location) (block : Nat) :
    List Pending → Key × Flattening → Except Flaw (Ref × Flattening)
  | [], done => .ok (.key done.1, done.2)
  | p :: below, done =>
    { p with done := p.done ++ [Ref.key done.1] }.complete s consumer block done.2 >>=
      resume s consumer block below

theorem expressionNode_append {budget : Nat} {refs : List Ref} :
    expressionNode s consumer block budget k opcode ty info refs (new ++ more) =
      (expressionNode s consumer block (budget - new.length) (k + new.length) opcode ty info
        refs more).map fun r => (r.1, new ++ r.2) := by
  have hb : budget ≤ new.length + more.length ↔ budget - new.length ≤ more.length := by omega
  simp only [expressionNode, length_append, ← Nat.add_assoc, hb, append_assoc]
  split
  · rfl
  · cases Node.make s.resolver s.location block (.synthesized (k + new.length + more.length)) opcode
      ty refs info <;> rfl

theorem make_eq_complete (hrest : top.rest = []) :
    f.make s consumer block top = top.complete s consumer block f := by
  unfold Flattening.make Pending.complete
  rw [hrest, postorderAll]
  simp only [pure_bind, append_nil, expressionNode, length_nil, Nat.add_zero, nil_append]
  cases hb : f.budget with
  | zero => rfl
  | succ budget =>
    rw [if_neg (by omega)]
    dsimp only
    cases Node.make s.resolver s.location block (.synthesized f.draft.synthesized) top.opcode top.ty
      top.done top.info with
    | error e => rfl
    | ok n => simp [Flattening.add, hb, Draft.append, bind, Except.bind, Except.map]

theorem complete_leaf {r : Ref} (hrest : top.rest = o :: rest) (ho : leaf? o = some r) :
    { top with rest, done := top.done ++ [r] }.complete s consumer block f = top.complete s consumer
      block f := by
  have hpost : postorder s consumer block f.budget f.draft.synthesized o = .ok (r, []) := by
    cases o <;> cases ho <;> rfl
  unfold Pending.complete
  rw [hrest, postorderAll, hpost]
  cases hr : postorderAll s consumer block f.budget f.draft.synthesized rest with
  | error e => simp [bind, Except.bind, hr]
  | ok p => simp [bind, Except.bind, hr, pure, Except.pure]

theorem complete_expr (hrest : top.rest = .expr opcode ty operands info :: rest) :
    top.complete s consumer block f = (do
      let done ← ({ opcode, ty, info, rest := operands } : Pending).complete s consumer block f
      { top with rest, done := top.done ++ [Ref.key done.1] }.complete s consumer block
        done.2) := by
  unfold Pending.complete
  rw [hrest, postorderAll, postorder]
  simp only [bind_assoc, pure_bind, nil_append]
  refine bind_congr fun first => bind_congr fun own => bind_congr fun second => ?_
  simp only [expressionNode_append, append_assoc, singleton_append, Flattening.add_add]
  change (expressionNode s consumer block (f.add own.2).budget (f.add own.2).draft.synthesized _ _ _
    _ second.2).map _ >>= _ = _
  cases expressionNode s consumer block (f.add own.2).budget (f.add own.2).draft.synthesized
    top.opcode top.ty top.info (top.done ++ Ref.key own.1 :: second.1) second.2 <;> rfl

theorem flatten_eq (top : Pending) (below : List Pending) (f : Flattening) :
    flatten s consumer block top below f = top.complete s consumer block f >>=
      resume s consumer block below := by
  fun_induction flatten s consumer block top below f with
  | case1 top below f opcode ty operands info rest hrest ih =>
    rw [ih, complete_expr hrest, bind_assoc]
    rfl
  | case2 top below f _ rest hrest ih
  | case3 top below f _ rest hrest ih
  | case4 top below f _ rest hrest ih
  | case5 top below f _ rest hrest ih
  | case6 top below f _ rest hrest ih => rw [ih, complete_leaf hrest rfl]
  | case7 top below f hrest e he =>
    rw [← make_eq_complete hrest, he]
    rfl
  | case8 top f hrest key f₁ hm =>
    rw [← make_eq_complete hrest, hm]
    rfl
  | case9 top f hrest key f₁ hm parent below ih =>
    rw [ih, ← make_eq_complete hrest, hm]
    rfl

/-- The stack makes the nodes of an expression that recursion makes, or fails as it does. -/
theorem flatten_eq_postorder (f : Flattening) :
    flatten s consumer block { opcode, ty, info, rest := operands }
      [] f = (postorder s consumer block f.budget f.draft.synthesized
        (.expr opcode ty operands info)).map fun r => (r.1, f.add r.2) := by
  rw [flatten_eq, postorder, Pending.complete]
  simp only [nil_append]
  cases hi : postorderAll s consumer block f.budget f.draft.synthesized operands with
  | error e => rfl
  | ok first =>
    cases hn : expressionNode s consumer block f.budget f.draft.synthesized opcode ty info
      first.1 first.2 <;>
    simp [bind, Except.bind, hn, pure, Except.pure, Except.map, resume]

/-- The references and nodes that operands become. -/
inductive Built (s : Setting) (block : Nat) : Nat → List Operand → List Ref → List Node → Prop
  | nil {k : Nat} : Built s block k [] [] []
  | leaf {k : Nat} {o : Operand} {r : Ref} {os : List Operand} {rs : List Ref} {new : List Node} :
      leaf? o = some r → Built s block k os rs new → Built s block k (o :: os) (r :: rs) new
  | expr {k : Nat} {opcode : Opcode} {ty : Ssa.Ty} {operands os : List Operand} {info : Info}
      {refs rs : List Ref} {inner new : List Node} {n : Node} :
      Built s block k operands refs inner → Node.make s.resolver s.location block
        (.synthesized (k + inner.length)) opcode ty refs info = .ok n →
      Built s block (k + inner.length + 1) os rs new →
      Built s block k (.expr opcode ty operands info :: os)
        (.key (.synthesized (k + inner.length)) :: rs) (inner ++ n :: new)

theorem Built.append {os : List Operand} {rs : List Ref} (h : Built s block k [o] [r] new)
    (h' : Built s block (k + new.length) os rs more) :
    Built s block k (o :: os) (r :: rs) (new ++ more) := by
  cases h with
  | leaf ho hnil =>
    cases hnil
    exact .leaf ho h'
  | expr hb hn hnil =>
    cases hnil
    rw [append_assoc]
    refine .expr hb hn ?_
    simpa [Nat.add_assoc] using h'

mutual

theorem postorder_built (o : Operand) {budget k : Nat} {r : Ref} {new : List Node}
    (h : postorder s consumer block budget k o = .ok (r, new)) : Built s block k [o] [r] new := by
  match o with
  | .expr opcode ty operands info =>
    rw [postorder] at h
    obtain ⟨⟨refs, inner⟩, hinner, h⟩ := bind_eq_ok.mp h
    obtain ⟨⟨key, own⟩, hown, h⟩ := bind_eq_ok.mp h
    cases h
    unfold expressionNode at hown
    split at hown
    · cases hown
    · obtain ⟨n, hn, hown⟩ := map_eq_ok.mp hown
      cases hown
      exact .expr (postorderAll_built operands hinner) hn .nil
  | .value _ | .const _ | .block _ | .global _ | .function _ =>
    cases h
    exact .leaf rfl .nil

theorem postorderAll_built (os : List Operand) {budget k : Nat} {rs : List Ref} {new : List Node}
    (h : postorderAll s consumer block budget k os = .ok (rs, new)) :
    Built s block k os rs new := by
  match os with
  | [] =>
    cases h
    exact .nil
  | o :: os =>
    rw [postorderAll] at h
    obtain ⟨⟨r, first⟩, hfirst, h⟩ := bind_eq_ok.mp h
    obtain ⟨⟨rs, more⟩, hmore, h⟩ := bind_eq_ok.mp h
    cases h
    exact (postorder_built o hfirst).append (postorderAll_built os hmore)

end

/-! ## Closed form -/

/-- The reference for an operand, where the keys of its expressions count up from `k`: its own is
the last. -/
def operandRef (k : Nat) (o : Operand) : Ref :=
  (leaf? o).getD (.key (.synthesized (k + o.expressions.length - 1)))

def operandRefs : Nat → List Operand → List Ref
  | _, [] => []
  | k, o :: os => operandRef k o :: operandRefs (k + o.expressions.length) os

/-- The node of an expression with a count. The expressions among its operands count up to it. -/
def nodeOf (s : Setting) (block : Nat) (x : Operation × Nat) : Except Flaw Node :=
  Node.make s.resolver s.location block (.synthesized x.2) x.1.opcode x.1.ty
    (operandRefs (x.2 - (Operand.allExpressions x.1.operands).length) x.1.operands) x.1.info

section
variable {ε α β : Type}

/-- What is made of the elements of a list, where only `budget` may be made. -/
def upTo (e : ε) (budget : Nat) (make : α → Except ε β) (l : List α) : Except ε (List β) :=
  if l.length ≤ budget then l.mapM make else do
    let _ ← (l.take budget).mapM make
    throw e

variable {e : ε} {budget : Nat} {F : α → Except ε β} {l l' : List α} {made : List β}

theorem upTo_eq_ok (h : upTo e budget F l = .ok made) : l.mapM F = .ok made := by
  unfold upTo at h
  split at h
  · exact h
  · obtain ⟨_, _, h⟩ := bind_eq_ok.mp h
    cases h

theorem length_of_mapM (h : l.mapM F = .ok made) : made.length = l.length :=
  (mapM_eq_ok.mp h).length_eq.symm

theorem upTo_append : upTo e budget F (l ++ l') = (do
    let made ← upTo e budget F l
    let more ← upTo e (budget - made.length) F l'
    return made ++ more) := by
  by_cases hb : l.length ≤ budget
  · have hle : (l ++ l').length ≤ budget ↔ l'.length ≤ budget - l.length := by
      rw [length_append]
      omega
    unfold upTo
    rw [if_pos hb, take_append, take_of_length_le hb, mapM_append, mapM_append]
    cases hl : l.mapM F with
    | error e => split <;> rfl
    | ok first =>
      simp only [bind, Except.bind, length_of_mapM hl, hle]
      split
      · rfl
      · cases (l'.take (budget - l.length)).mapM F <;> rfl
  · unfold upTo
    rw [if_neg hb, if_neg (by rw [length_append]; omega), take_append_of_le_length (by omega)]
    cases (l.take budget).mapM F <;> rfl

end

mutual

theorem postorder_eq (o : Operand) (budget k : Nat) : postorder s consumer block budget k o =
    (upTo ⟨consumer, .constantExpressionLimit s.limit⟩ budget (nodeOf s block)
      (o.expressions.zipIdx k)).map fun new => (operandRef k o, new) := by
  match o with
  | .expr opcode ty operands info =>
    rw [postorder, postorderAll_eq operands, Operand.expressions, zipIdx_append, upTo_append]
    cases hu : upTo ⟨consumer, .constantExpressionLimit s.limit⟩ budget (nodeOf s block)
        ((Operand.allExpressions operands).zipIdx k) with
    | error e => rfl
    | ok inner =>
      have hlen : inner.length = (Operand.allExpressions operands).length := by
        rw [length_of_mapM (upTo_eq_ok hu), length_zipIdx]
      have hnode : nodeOf s block (⟨opcode, ty, operands, info⟩, k + inner.length) =
          Node.make s.resolver s.location block (.synthesized (k + inner.length)) opcode ty
            (operandRefs k operands) info := by simp [nodeOf, hlen]
      have href : operandRef k (.expr opcode ty operands info) =
          .key (.synthesized (k + inner.length)) := by
        simp [operandRef, leaf?, Operand.expressions, hlen]
      simp only [Except.map, bind, Except.bind, expressionNode, ← hlen, href, zipIdx_singleton]
      by_cases hb : budget ≤ inner.length
      · rw [if_pos hb, Nat.sub_eq_zero_of_le hb]
        rfl
      · rw [if_neg hb, upTo, if_pos (by simp; omega), ← hnode, mapM_cons, mapM_nil]
        cases nodeOf s block (⟨opcode, ty, operands, info⟩, k + inner.length) <;> rfl
  | .value _ | .const _ | .block _ | .global _ | .function _ =>
    rw [postorder, Operand.expressions]
    simp [upTo, operandRef, leaf?, Except.map, pure, Except.pure]

theorem postorderAll_eq (os : List Operand) (budget k : Nat) :
    postorderAll s consumer block budget k os = (upTo ⟨consumer, .constantExpressionLimit s.limit⟩
      budget (nodeOf s block) ((Operand.allExpressions os).zipIdx k)).map fun new =>
        (operandRefs k os, new) := by
  match os with
  | [] =>
    rw [postorderAll, Operand.allExpressions]
    simp [upTo, operandRefs, Except.map, pure, Except.pure]
  | o :: os =>
    rw [postorderAll, postorder_eq o, Operand.allExpressions, zipIdx_append, upTo_append]
    cases hu : upTo ⟨consumer, .constantExpressionLimit s.limit⟩ budget (nodeOf s block)
      (o.expressions.zipIdx k) with
    | error e => rfl
    | ok new =>
      have hlen : new.length = o.expressions.length := by
        rw [length_of_mapM (upTo_eq_ok hu), length_zipIdx]
      simp only [Except.map, bind, Except.bind, hlen, postorderAll_eq os]
      cases upTo ⟨consumer, .constantExpressionLimit s.limit⟩ (budget - o.expressions.length)
        (nodeOf s block) ((Operand.allExpressions os).zipIdx (k + o.expressions.length)) <;> rfl

end

/-! ## Instructions -/

/-- What the operands of an instruction become, which of the nodes stay in front of it, and which
belong to the block that a phi takes them from. The nodes are numbered from `first` on. -/
inductive Operands (s : Setting) (block : Nat) :
    Nat → Nat → List (Operand × Option BlockId) → List Ref → List Node → List NodeId → List
      (BlockId × NodeId) → Prop
  | nil {k first : Nat} : Operands s block k first [] [] [] [] []
  | stay {k first : Nat} {o : Operand} {r : Ref} {rest : List (Operand × Option BlockId)}
      {rs : List Ref} {new more : List Node} {ids : List NodeId} {moved : List (BlockId × NodeId)} :
      Built s block k [o] [r] new → Operands s block (k + new.length)
        (first + new.length) rest rs more ids moved →
      Operands s block k first ((o, none) :: rest) (r :: rs) (new ++ more)
        (range' first new.length ++ ids) moved
  | move {k first : Nat} {o : Operand} {source : BlockId} {r : Ref}
      {rest : List (Operand × Option BlockId)} {rs : List Ref} {new more : List Node}
      {ids : List NodeId} {moved : List (BlockId × NodeId)} : Built s block k [o] [r] new →
      Operands s block (k + new.length) (first + new.length) rest rs more ids moved →
      Operands s block k first ((o, some source) :: rest) (r :: rs) (new ++ more) ids
        ((range' first new.length).map (source, ·) ++ moved)

/-- The blocks that the operands of an instruction come from. -/
def operandSources (i : Instruction) : List (Option BlockId) :=
  (incomingBlocks i).map some ++ replicate i.operands.length none

/-- The nodes of the instructions of a block: how they are numbered, in which order they stand, and
which of them belong to other blocks. -/
inductive Drafted (s : Setting) (block : Nat) :
    Nat → Nat → List Instruction → Nat → List Node → List NodeId → List (BlockId × NodeId) → Prop
  | nil {k first : Nat} : Drafted s block k first [] k [] [] []
  | cons {k k' first : Nat} {i : Instruction} {rest : List Instruction} {refs : List Ref}
      {new nodes : List Node} {n : Node} {ids more : List NodeId}
      {moved moved' : List (BlockId × NodeId)} :
      Operands s block k first (i.operands.zip (operandSources i)) refs new ids moved →
        Node.make s.resolver s.location block (.value i.id) i.opcode i.ty refs i.info = .ok n →
      Drafted s block (k + new.length) (first + new.length + 1) rest k' nodes more moved' →
      Drafted s block k first (i :: rest) k' (new ++ n :: nodes)
        (ids ++ (first + new.length) :: more) (moved ++ moved')

/-- The nodes of blocks from a position on. -/
inductive DraftedBlocks (s : Setting) : Nat → Nat → Nat → List Ssa.Block → List Block → List Node →
    List (BlockId × NodeId) → Prop
  | nil {position k first : Nat} : DraftedBlocks s position k first [] [] [] []
  | cons {position k k' first : Nat} {b : Ssa.Block} {rest : List Ssa.Block} {blocks : List Block}
      {nodes more : List Node} {ids : List NodeId} {moved moved' : List (BlockId × NodeId)} :
      Drafted s position k first b.instructions k' nodes ids moved →
      DraftedBlocks s (position + 1) k' (first + nodes.length) rest blocks more moved' →
      DraftedBlocks s position k first (b :: rest)
        ({ id := b.id, name := b.name, instructions := ids } :: blocks) (nodes ++ more)
        (moved ++ moved')

section
variable {s : Setting} {consumer : Location} {block : Nat} {d d' : Draft} {ids : List NodeId}

theorem flattenOperands_cons (o : Operand) (source : Option BlockId)
    (rest : List (Operand × Option BlockId)) (f : Flattening) :
    flattenOperands s consumer block ((o, source) :: rest) f = (do
      let first ← postorder s consumer block f.budget f.draft.synthesized o
      let others ← flattenOperands s consumer block rest (f.settle source first.2)
      return (first.1 :: others.1, others.2)) := by
  cases o with
  | expr opcode ty operands info =>
    cases source with
    | none =>
      rw [flattenOperands, flatten_eq_postorder]
      cases postorder s consumer block f.budget f.draft.synthesized
        (.expr opcode ty operands info) <;> rfl
    | some id =>
      rw [flattenOperands, flatten_eq_postorder]
      cases postorder s consumer block f.budget f.draft.synthesized
        (.expr opcode ty operands info) <;> rfl
  | _ =>
    rw [flattenOperands, postorder, pure_bind, pure_bind, Flattening.settle_nil]

theorem flattenOperands_operands {l : List (Operand × Option BlockId)} {refs : List Ref}
    (h : flattenOperands s consumer block l f = .ok (refs, f')) :
    ∃ new ids moved, Operands s block f.draft.synthesized f.draft.nodes.length l refs
      new ids moved ∧ f'.draft = ⟨f.draft.nodes ++ new, f.draft.synthesized + new.length,
        f.draft.hoisted ++ moved⟩ ∧
      f'.created = f.created ++ ids := by
  induction l generalizing f refs with
  | nil =>
    cases h
    exact ⟨[], [], [], .nil, by simp, by simp⟩
  | cons first rest ih =>
    obtain ⟨o, source⟩ := first
    rw [flattenOperands_cons] at h
    obtain ⟨⟨r, new⟩, hfirst, h⟩ := bind_eq_ok.mp h
    obtain ⟨⟨rs, f₁⟩, hrest, h⟩ := bind_eq_ok.mp h
    cases h
    have hb := postorder_built o hfirst
    obtain ⟨more, ids, moved, ho, hd, hc⟩ := ih hrest
    cases source with
    | none =>
      simp only [Flattening.settle, Flattening.add, length_append] at ho hd hc
      exact ⟨_, _, _, .stay hb ho, by simp [hd, Nat.add_assoc], by simp [hc]⟩
    | some id =>
      simp only [Flattening.settle, Flattening.add, length_append] at ho hd hc
      exact ⟨_, _, _, .move hb ho, by simp [hd, Nat.add_assoc], hc⟩

theorem addInstruction_drafted {i : Instruction} (h : addInstruction s block d i = .ok (ids, d')) :
    ∃ refs new n before moved,
      Operands s block d.synthesized d.nodes.length
        (i.operands.zip (operandSources i)) refs new before moved ∧
      Node.make s.resolver s.location block (.value i.id) i.opcode i.ty refs i.info = .ok n ∧
      ids = before ++ [d.nodes.length + new.length] ∧
      d' = ⟨d.nodes ++ (new ++ [n]), d.synthesized + new.length, d.hoisted ++ moved⟩ := by
  obtain ⟨⟨refs, f⟩, hf, h⟩ := bind_eq_ok.mp h
  obtain ⟨n, hn, h⟩ := bind_eq_ok.mp h
  obtain ⟨new, before, moved, ho, hd, hc⟩ := flattenOperands_operands hf
  refine ⟨refs, new, n, before, moved, ho, hn, ?_⟩
  simp only [hd, hc, Draft.append, pure_eq_ok, Prod.mk.injEq] at h
  obtain ⟨rfl, rfl⟩ := h
  simp

theorem addInstructions_drafted {is : List Instruction}
    (h : addInstructions s block is d = .ok (ids, d')) :
    ∃ nodes moved, Drafted s block d.synthesized d.nodes.length is d'.synthesized nodes ids moved ∧
      d'.nodes = d.nodes ++ nodes ∧ d'.hoisted = d.hoisted ++ moved := by
  induction is generalizing d ids with
  | nil =>
    cases h
    exact ⟨[], [], .nil, by simp, by simp⟩
  | cons i is ih =>
    obtain ⟨⟨own, d₁⟩, h₁, h⟩ := bind_eq_ok.mp h
    obtain ⟨⟨more, d₂⟩, h₂, h⟩ := bind_eq_ok.mp h
    cases h
    obtain ⟨refs, new, n, before, moved, ho, hn, rfl, rfl⟩ := addInstruction_drafted h₁
    obtain ⟨nodes, moved', hd, hnodes, hmoved⟩ := ih h₂
    refine ⟨new ++ n :: nodes, moved ++ moved', ?_, by simp [hnodes], by simp [hmoved]⟩
    rw [append_assoc]
    refine .cons ho hn ?_
    simpa [Nat.add_assoc] using hd

/-- The nodes of all blocks are those of their instructions, one block after the other. -/
theorem addBlocks_drafted {bs : List Ssa.Block} {position : Nat} {blocks : List Block}
    (h : addBlocks s position bs d = .ok (blocks, d')) :
    ∃ nodes moved, DraftedBlocks s position d.synthesized d.nodes.length bs blocks nodes moved ∧
      d'.nodes = d.nodes ++ nodes ∧ d'.hoisted = d.hoisted ++ moved := by
  induction bs generalizing position d blocks with
  | nil =>
    cases h
    exact ⟨[], [], .nil, by simp, by simp⟩
  | cons b bs ih =>
    obtain ⟨⟨ids, d₁⟩, h₁, h⟩ := bind_eq_ok.mp h
    obtain ⟨⟨rest, d₂⟩, h₂, h⟩ := bind_eq_ok.mp h
    cases h
    obtain ⟨nodes, moved, hd, hn, hm⟩ := addInstructions_drafted h₁
    obtain ⟨more, moved', hd', hn', hm'⟩ := ih h₂
    refine ⟨nodes ++ more, moved ++ moved', .cons hd ?_, by simp [hn, hn'], by simp [hm, hm']⟩
    simpa [hn] using hd'

end

end Stackify.Flow
