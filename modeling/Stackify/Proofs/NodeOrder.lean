import Mathlib.Data.List.NodupEquivFin
import Mathlib.Logic.Relation
import Stackify.Proofs.BlockMeaning

/-!
In which order nodes stand.

Constant expressions become nodes in front of the node that they are operands of, and those of a phi
go to the block that the phi takes them from. Wherever they go, they stay together and in order
(`DraftedBlocks.supplied`, `DraftedBlocks.phi_supplied`), so that every node finds the expressions
that it needs in front of itself, and a phi those that it takes from a block in front of the end of
that block (`Graph.make_in_order`).
-/

namespace Stackify.Flow

open Ssa (BlockId Operand Instruction Function)
open Resolve (Resolver)
open List

/-! ## Expressions -/

variable {s : Setting} {block k first : Nat} {os : List Operand} {rs : List Ref}
  {nodes more : List Node} {j : NodeId} {n : Node} {c : Nat}

/-- The operands of an expression that are expressions are counted before it. -/
theorem Built.operand_lt (h : Built s block k os rs nodes) (hn : Numbered first nodes j n)
    (hc : .key (.synthesized c) ∈ n.operands) : k ≤ c ∧ c < k + (j - first) := by
  induction h generalizing first with
  | nil => simp [Numbered] at hn
  | leaf _ _ ih => exact ih hn
  | @expr k _ _ _ _ _ refs _ inner new n' hb hn' _ ih ih' =>
    rcases hn.of_append with hn | hn
    · exact ih hn
    · rcases hn.of_cons with ⟨rfl, rfl⟩ | hn
      · obtain ⟨_, _, rfl⟩ := Node.make_eq_ok hn'
        have := hb.synthesized_mem c hc
        omega
      · have := ih' hn
        have := hn.1
        omega

/-! ## Drafts -/

/-- In a draft whose nodes are numbered from `first` on, the expression counted `c` has its node in
front of the node `j`: in one of the given lists, or among the nodes that move to one block. -/
def SuppliedBefore (first : Nat) (nodes : List Node) (places : List (List NodeId))
    (moved : List (BlockId × NodeId)) (c : Nat) (j : NodeId) : Prop :=
  ∃ j' n', Numbered first nodes j' n' ∧ n'.key = .synthesized c ∧
    ((∃ l ∈ places, [j', j].Sublist l) ∨ ∃ id, [(id, j'), (id, j)].Sublist moved)

/-- The expression counted `c` has its node among those that move to a block. -/
def SuppliedAt (first : Nat) (nodes : List Node) (moved : List (BlockId × NodeId)) (c : Nat)
    (id : BlockId) : Prop :=
  ∃ j' n', Numbered first nodes j' n' ∧ n'.key = .synthesized c ∧ (id, j') ∈ moved

/-- A phi has the expressions among its operands in the blocks that it takes them from. -/
def PhiSupplied (first : Nat) (nodes : List Node) (moved : List (BlockId × NodeId)) (n : Node) :
    Prop :=
  ∃ sources, n.kind = .phi sources [] ∧ sources.length = n.operands.length ∧
    ∀ (pos : Nat) (id : BlockId) (c : Nat), sources[pos]? = some id →
      n.operands[pos]? = some (.key (.synthesized c)) → SuppliedAt first nodes moved c id

section
variable {s : Setting} {block position k k' first first' : Nat} {nodes nodes' : List Node}
  {n : Node} {j : NodeId} {c : Nat} {places places' : List (List NodeId)}
  {moved moved' : List (BlockId × NodeId)} {ids : List NodeId} {id : BlockId} {rs : List Ref}
  {l : List (Operand × Option BlockId)} {is : List Instruction} {bs : List Ssa.Block}
  {blocks : List Block}

theorem SuppliedBefore.mono (h : SuppliedBefore first nodes places moved c j)
    (hnodes : ∀ j n, Numbered first nodes j n → Numbered first' nodes' j n)
    (hplaces : ∀ l ∈ places, ∃ l' ∈ places', l.Sublist l') (hmoved : moved.Sublist moved') :
    SuppliedBefore first' nodes' places' moved' c j := by
  obtain ⟨j', n', hn', hkey, hl | ⟨id, hid⟩⟩ := h
  · obtain ⟨l, hl, hsub⟩ := hl
    obtain ⟨l', hl', hsub'⟩ := hplaces l hl
    exact ⟨j', n', hnodes _ _ hn', hkey, .inl ⟨l', hl', hsub.trans hsub'⟩⟩
  · exact ⟨j', n', hnodes _ _ hn', hkey, .inr ⟨id, hid.trans hmoved⟩⟩

theorem SuppliedAt.mono (h : SuppliedAt first nodes moved c id)
    (hnodes : ∀ j n, Numbered first nodes j n → Numbered first' nodes' j n)
    (hmoved : moved ⊆ moved') : SuppliedAt first' nodes' moved' c id := by
  obtain ⟨j', n', hn', hkey, hmem⟩ := h
  exact ⟨j', n', hnodes _ _ hn', hkey, hmoved hmem⟩

theorem pair_sublist_range' {p q start len : Nat} (hpq : p < q) (hq : q < len) :
    [start + p, start + q].Sublist (range' start len) := by
  have hsplit : range' start len = range' start q ++
      range' (start + q) (len - q) := by
    rw [range'_append_1]
    congr 1
    omega
  have hp : [start + p].Sublist (range' start q) :=
    singleton_sublist.mpr (mem_range'_1.mpr (by omega))
  have hq : [start + q].Sublist (range' (start + q) (len - q)) :=
    singleton_sublist.mpr (mem_range'_1.mpr (by omega))
  rw [hsplit]
  exact hp.append hq

/-- The nodes that an operand becomes stand behind the expressions among their operands. -/
theorem Built.supplied (h : Built s block k os rs nodes) (hn : Numbered first nodes j n)
    (hc : .key (.synthesized c) ∈ n.operands) :
    ∃ j' n', Numbered first nodes j' n' ∧ n'.key = .synthesized c ∧
      [j', j].Sublist (range' first nodes.length) := by
  obtain ⟨hle, hlt⟩ := h.operand_lt hn hc
  obtain ⟨hfirst, hget⟩ := hn
  have hj := lt_of_getElem? hget
  obtain ⟨q, rfl⟩ := Nat.exists_eq_add_of_le hfirst
  rw [Nat.add_sub_cancel_left] at hlt hj
  obtain ⟨p, n', rfl, hn', hkey, -⟩ := h.exists_key hle (by omega) first
  exact ⟨_, n', hn', hkey, pair_sublist_range' (by omega) hj⟩

/-- The expressions among the operands of an instruction stand behind what they need, whether they
stay or move. -/
theorem Operands.supplied (h : Operands s block k first l rs nodes ids moved)
    (hn : Numbered first nodes j n) (hc : .key (.synthesized c) ∈ n.operands) :
    SuppliedBefore first nodes [ids] moved c j := by
  induction h with
  | nil => simp [Numbered] at hn
  | @stay k first o r rest rs new more ids moved hb _ ih =>
    rcases hn.of_append with hn | hn
    · obtain ⟨j', n', hn', hkey, hsub⟩ := hb.supplied hn hc
      exact ⟨j', n', hn'.append_left, hkey,
        .inl ⟨_, mem_singleton_self _, hsub.trans (sublist_append_left _ _)⟩⟩
    · refine (ih hn).mono (fun _ _ => .append_right) (fun l hl => ?_) (Sublist.refl _)
      rw [mem_singleton.mp hl]
      exact ⟨_, mem_singleton_self _, sublist_append_right _ _⟩
  | @move k first o source r rest rs new more ids moved hb _ ih =>
    rcases hn.of_append with hn | hn
    · obtain ⟨j', n', hn', hkey, hsub⟩ := hb.supplied hn hc
      exact ⟨j', n', hn'.append_left, hkey,
        .inr ⟨source, (hsub.map (source, ·)).trans (sublist_append_left _ _)⟩⟩
    · exact (ih hn).mono (fun _ _ => .append_right) (fun l hl => ⟨l, hl, Sublist.refl _⟩)
        (sublist_append_right _ _)

/-- An operand that is an expression has its node in the block that it comes from. -/
theorem Operands.supplied_at (h : Operands s block k first l rs nodes ids moved) {pos : Nat}
    {o : Operand} (hl : l[pos]? = some (o, some id))
    (hr : rs[pos]? = some (.key (.synthesized c))) : SuppliedAt first nodes moved c id := by
  induction h generalizing pos with
  | nil => simp at hl
  | @stay k first o r rest rs new more ids moved hb _ ih =>
    cases pos with
    | zero => cases hl
    | succ pos => exact (ih hl hr).mono (fun _ _ => .append_right) (Subset.refl _)
  | @move k first o source r rest rs new more ids moved hb _ ih =>
    cases pos with
    | zero =>
      cases hl
      cases hr
      obtain ⟨hle, hlt⟩ := hb.synthesized_mem c (by simp)
      obtain ⟨p, n', -, hn', hkey, hp⟩ := hb.exists_key hle hlt first
      exact ⟨_, n', hn'.append_left, hkey, mem_append_left _ (List.mem_map.mpr ⟨_, hp, rfl⟩)⟩
    | succ pos => exact (ih hl hr).mono (fun _ _ => .append_right) (subset_append_right _ _)

/-- Nodes that are no phis stand behind the expressions among their operands. -/
theorem DraftedBlocks.supplied (h : DraftedBlocks s position k first bs blocks nodes moved)
    (hn : Numbered first nodes j n) (hphi : n.opcode ≠ .phi)
    (hc : .key (.synthesized c) ∈ n.operands) :
    SuppliedBefore first nodes (blocks.map (·.instructions)) moved c j := by
  obtain ⟨ho, hmade, hn | ⟨rfl, rfl⟩, hnew, ⟨l, hl, hsub⟩, haway⟩ := h.part hn
  · refine (ho.supplied hn hc).mono hnew (fun l' hl' => ?_) haway
    rw [mem_singleton.mp hl']
    exact ⟨l, hl, (sublist_append_left _ _).trans hsub⟩
  · -- The operands of the instruction itself stay right in front of it.
    obtain ⟨_, _, rfl⟩ := Node.make_eq_ok hmade
    obtain ⟨rfl, rfl⟩ := ho.stayed (operandSources_of_ne_phi hphi)
    obtain ⟨hle, hlt⟩ := ho.built.synthesized_mem c hc
    obtain ⟨p, n', -, hn', hkey, hp⟩ := ho.built.exists_key hle hlt _
    refine ⟨_, n', hnew _ _ hn', hkey, .inl ⟨l, hl, Sublist.trans ?_ hsub⟩⟩
    exact (singleton_sublist.mpr hp).append (Sublist.refl _)

theorem DraftedBlocks.phi_supplied (h : DraftedBlocks s position k first bs blocks nodes moved)
    (hn : Numbered first nodes j n) (hkey : n.key.value? ≠ none) (hphi : n.opcode = .phi) :
    PhiSupplied first nodes moved n := by
  obtain @⟨_, k, start, i, refs, new, _, _, _, ho, hmade, hn | ⟨rfl, rfl⟩, hnew, -, haway⟩ :=
    h.part hn
  · rw [ho.built.key hn] at hkey
    exact absurd rfl hkey
  · have hb : Built s _ k i.operands refs new := map_fst_operandSources i ▸ ho.built
    obtain ⟨kind, hkind, rfl⟩ := Node.make_eq_ok hmade
    have hop : i.opcode = .phi := hphi
    obtain ⟨sources, hinfo, hlen, rfl⟩ := (Kind.make_fits hkind).phi hop
    have hlen' : sources.length = i.operands.length := hlen.trans hb.refersTo.length_eq.symm
    refine ⟨sources, rfl, hlen, fun pos id c hid hc => ?_⟩
    have hpos : pos < i.operands.length := hlen' ▸ lt_of_getElem? hid
    have hl : (i.operands.zip (operandSources i))[pos]? = some (i.operands[pos], some id) := by
      rw [operandSources_of_phi hop hinfo hlen', getElem?_zip_eq_some]
      exact ⟨getElem?_eq_getElem hpos, by rw [getElem?_map, hid, Option.map_some]⟩
    exact (ho.supplied_at hl hc).mono hnew haway.subset

end

/-! ## Instructions -/

/-- A node is the one of an instruction. -/
def Graph.IsNodeOf (g : Graph) (r : Resolver) (x : Instruction) (j : NodeId) : Prop :=
  ∃ n, g.node? j = some n ∧ n.key = .value x.id ∧ n.Computes r x.operation

/-- Whether a node comes from an instruction and not from an expression. -/
def Graph.isInstruction (g : Graph) (j : NodeId) : Bool := ((g.node? j).bind (·.key.value?)).isSome

section
variable {s : Setting} {g : Graph} {block k k' first : Nat} {nodes : List Node} {ids : List NodeId}
  {moved : List (BlockId × NodeId)} {j : NodeId} {n : Node}

theorem Graph.isInstruction_eq_false (hn : g.node? j = some n) (hkey : n.key.value? = none) :
    g.isInstruction j = false := by
  simp [isInstruction, hn, hkey]

theorem Graph.isInstruction_of_key {v : Ssa.ValueId} (hn : g.node? j = some n)
    (hkey : n.key.value? = some v) : g.isInstruction j = true := by
  simp [isInstruction, hn, hkey]

/-- The nodes of instructions stand in the order of the instructions. -/
theorem Drafted.in_order {is : List Instruction} (h : Drafted s block k first is k' nodes ids moved)
    (hg : g.Has first nodes) :
    Forall₂ (g.IsNodeOf s.resolver) is (ids.filter g.isInstruction) := by
  induction h with
  | nil => exact .nil
  | @cons k _ first x rest refs new nodes n ids more moved moved' ho hn _ ih =>
    have hb : Built s block k x.operands refs new := map_fst_operandSources x ▸ ho.built
    have hbefore : ids.filter g.isInstruction = [] := by
      refine filter_eq_nil_iff.mpr fun j hj => ?_
      obtain ⟨n', hn'⟩ := exists_numbered (ho.placed.mem_iff.mp (mem_append_left _ hj))
      obtain ⟨n'', hn'', hr⟩ := hg.left _ n' hn'
      rw [Graph.isInstruction_eq_false hn'' (by rw [hr.key, hb.key hn']; rfl)]
      exact Bool.false_ne_true
    obtain ⟨n', hn', hr⟩ := hg.right.head
    have hc : n'.Computes s.resolver x.operation :=
      hr.computes (Node.computes_of_make hn hb.refersTo)
    have hkey : n'.key = .value x.id := by
      obtain ⟨_, _, rfl⟩ := Node.make_eq_ok hn
      exact hr.key
    have hself : g.isInstruction (first + new.length) = true := by
      simp [Graph.isInstruction, hn', hkey, Key.value?]
    rw [filter_append, hbefore, nil_append, filter_cons_of_pos hself]
    exact .cons ⟨n', hn', hkey, hc⟩ (ih hg.right.tail)

end

theorem filter_insertLate {p : NodeId → Bool} {l ns : List NodeId} (h : ∀ id ∈ ns, p id = false) :
    (insertLate l ns).filter p = l.filter p := by
  rcases eq_nil_or_concat l with rfl | ⟨init, last, rfl⟩
  · refine filter_eq_nil_iff.mpr fun id hid => ?_
    simp [h id (by simpa using (insertLate_perm [] ns).mem_iff.mp hid)]
  · rw [concat_eq_append, insertLate_append_singleton]
    simpa [filter_append] using h

/-! ## Graphs -/

/-- A node stands in front of another one in a block. -/
def Block.Precedes (b : Block) (j j' : NodeId) : Prop :=
  ∃ p q : Nat, p < q ∧ b.instructions[p]? = some j ∧ b.instructions[q]? = some j'

variable {b : Block} {j j' : NodeId}

theorem Block.precedes_of_sublist (h : [j, j'].Sublist b.instructions) : b.Precedes j j' := by
  obtain ⟨f, hf⟩ := sublist_iff_exists_orderEmbedding_getElem?_eq.mp h
  exact ⟨f 0, f 1, f.lt_iff_lt.mpr Nat.zero_lt_one, (hf 0).symm, (hf 1).symm⟩

theorem Block.Precedes.mem_left (h : b.Precedes j j') : j ∈ b.instructions := by
  obtain ⟨p, q, -, hp, -⟩ := h
  exact mem_of_getElem? hp

theorem Block.Precedes.trans {j'' : NodeId} (hb : b.instructions.Nodup) (h : b.Precedes j j')
    (h' : b.Precedes j' j'') : b.Precedes j j'' := by
  obtain ⟨p, q, hpq, hp, hq⟩ := h
  obtain ⟨q', r, hqr, hq', hr⟩ := h'
  have hqq : q = q' := (getElem?_inj (lt_of_getElem? hq) hb).mp (hq.trans hq'.symm)
  exact ⟨p, r, by omega, hp, hr⟩

/-- A node computes an expression that another one has as an operand. -/
def Graph.Feeds (g : Graph) (j j' : NodeId) : Prop :=
  ∃ n c, g.node? j' = some n ∧ .key (.synthesized c) ∈ n.operands ∧
    g.resolve? (.key (.synthesized c)) = some j

variable {s : Setting} {f : Function} {g : Graph} {blocks : List Block} {nodes : List Node}
  {moved : List (BlockId × NodeId)} {i : Nat} {b₁ : Block} {n : Node} {c : Nat}

/-- A block that ends with the node of an instruction ends with that of its last one. -/
theorem Graph.last_instruction {b₀ : Ssa.Block} {last : NodeId}
    (hall : Forall₂ (g.IsNodeOf s.resolver) b₀.instructions
      (b.instructions.filter g.isInstruction))
    (hlast : b.instructions.getLast? = some last) (hself : g.isInstruction last = true) :
    ∃ x, b₀.instructions.getLast? = some x ∧ g.IsNodeOf s.resolver x last := by
  have hfilter : (b.instructions.filter g.isInstruction).getLast? = some last := by
    obtain ⟨init, hinit⟩ := getLast?_eq_some_iff.mp hlast
    rw [hinit, filter_append, filter_cons_of_pos hself, filter_nil, getLast?_concat]
  rw [getLast?_eq_getElem?, ← hall.length_eq] at hfilter
  obtain ⟨x, hx, hnode⟩ := forall₂_some_right hall hfilter
  exact ⟨x, by rw [getLast?_eq_getElem?, hx], hnode⟩

section
variable (h : Shape s f g blocks nodes moved)
include h

/-- No two nodes have the same count, so that it leads to the node that has it. -/
theorem Shape.resolve?_synthesized (hn : g.node? j = some n) (hkey : n.key = .synthesized c) :
    g.resolve? (.key (.synthesized c)) = some j := by
  have hdistinct : (nodes.filterMap (·.key.synthesized?)).Nodup := by
    obtain ⟨k', -, hk⟩ := h.drafted.synthesized
    exact hk ▸ nodup_range'
  have hpairs := pairwise_iff_getElem.mp (pairwise_filterMap.mp hdistinct)
  have hcount {j : NodeId} {n : Node} (hn : g.nodes[j]? = some n) (hkey : n.key = .synthesized c) :
      ∃ hj : j < nodes.length, nodes[j].key.synthesized? = some c := by
    obtain ⟨n₀, hn₀, hr, -⟩ := h.nodes j n hn
    obtain ⟨hj, rfl⟩ := List.getElem?_eq_some_iff.mp hn₀
    exact ⟨hj, by rw [← hr.key, hkey]; rfl⟩
  refine lastIndex?_eq_some_of_unique hn (decide_eq_true hkey) fun j' n' hn' hkey' => ?_
  obtain ⟨hj, hc⟩ := hcount hn hkey
  obtain ⟨hj', hc'⟩ := hcount hn' (of_decide_eq_true hkey')
  rcases Nat.lt_trichotomy j' j with hlt | rfl | hlt
  · exact absurd rfl (hpairs j' j hj' hj hlt c hc' c hc)
  · rfl
  · exact absurd rfl (hpairs j j' hj hj' hlt c hc c hc')

theorem Shape.moved_node (hj : j ∈ movedTo (blocks.map (·.id)) moved i) :
    ∃ n, g.node? j = some n ∧ n.key.value? = none := by
  obtain ⟨id, hm, -⟩ := mem_movedTo.mp hj
  obtain ⟨n₀, hn₀, hk⟩ := h.drafted.moved_expression (List.mem_map.mpr ⟨_, hm, rfl⟩)
  obtain ⟨n, hn, hr⟩ := h.has j n₀ hn₀
  exact ⟨n, hn, by rw [hr.key, hk]⟩

theorem Shape.block_of (hb₁ : blocks[i]? = some b₁) : ∃ b, g.blocks[i]? = some b := by
  have hlen : g.blocks.length = blocks.length := by simpa using congrArg List.length h.ids
  have hi : i < g.blocks.length := hlen ▸ lt_of_getElem? hb₁
  exact ⟨_, getElem?_eq_getElem hi⟩

/-- The nodes of instructions stand in the order of the instructions of their block. -/
theorem Shape.in_order (hb : g.blocks[i]? = some b) :
    ∃ b₀, f.blocks[i]? = some b₀ ∧ Forall₂ (g.IsNodeOf s.resolver) b₀.instructions
      (b.instructions.filter g.isInstruction) := by
  obtain ⟨b₁, hb₁, hins⟩ := h.instructions i b hb
  obtain ⟨b₀, k, first, k', nodes₀, moved₀, hb₀, hd, hnum⟩ := h.drafted.drafted_block hb₁
  refine ⟨b₀, hb₀, ?_⟩
  rw [hins, filter_insertLate fun j hj => ?_]
  · exact hd.in_order fun j n hn => h.has j n (hnum j n hn)
  · obtain ⟨n, hn, hkey⟩ := h.moved_node hj
    exact Graph.isInstruction_eq_false hn hkey

/-- Every node stands in one block, once. -/
theorem Shape.once : (g.blocks.flatMap (·.instructions)).Perm (List.range g.nodes.length) := by
  have hnodup : (g.blocks.flatMap (·.instructions)).Nodup := by
    refine nodup_flatMap.mpr ⟨fun b hb => ?_,
      pairwise_iff_getElem.mpr fun i i' hi hi' hlt j hj hj' => ?_⟩
    · obtain ⟨i, hb⟩ := getElem?_of_mem hb
      exact h.nodup hb
    · obtain ⟨n, hn, hblock⟩ := h.placed (getElem?_eq_getElem hi) hj
      obtain ⟨n', hn', hblock'⟩ := h.placed (getElem?_eq_getElem hi') hj'
      cases hn.symm.trans hn'
      omega
  refine (perm_ext_iff_of_nodup hnodup nodup_range).mpr fun j => ?_
  rw [mem_range, mem_flatMap]
  constructor
  · rintro ⟨b, hb, hj⟩
    obtain ⟨i, hb⟩ := getElem?_of_mem hb
    obtain ⟨n, hn, -⟩ := h.placed hb hj
    exact lt_of_getElem? hn
  · intro hj
    obtain ⟨b, hb, hmem⟩ := h.stands (getElem?_eq_getElem hj)
    exact ⟨b, mem_of_getElem? hb, hmem⟩

variable (hexpr : ∀ x ∈ f.expressions, x.opcode ≠ .phi ∧ x.opcode.isTerminator = false)
include hexpr

/-- Where expressions are neither phis nor terminators, neither are their nodes. -/
theorem Shape.expression (hn : g.node? j = some n) (hkey : n.key.value? = none) :
    n.opcode ≠ .phi ∧ n.opcode.isTerminator = false := by
  rcases h.comesFrom hn with ⟨x, -, hk, -⟩ | ⟨x, hx, y, hy, -, -, hc⟩
  · rw [hk] at hkey
    cases hkey
  · rw [hc.opcode]
    exact hexpr y (mem_flatMap.mpr ⟨x, hx, hy⟩)

/-- A block has its own nodes, with those that move there in front of the last one. -/
theorem Shape.ends (hb : g.blocks[i]? = some b) (hb₁ : blocks[i]? = some b₁) :
    ∃ init last, b₁.instructions = init ++ [last] ∧
      b.instructions = init ++ movedTo (blocks.map (·.id)) moved i ++ [last] := by
  obtain ⟨b₂, hb₂, hins⟩ := h.instructions i b hb
  cases hb₁.symm.trans hb₂
  rcases eq_nil_or_concat b₁.instructions with hnil | ⟨init, last, hinit⟩
  · -- Otherwise an expression that moved there would end the block.
    obtain ⟨-, ⟨last, n, hlast, hn, ht, -⟩, -⟩ := h.successors i b hb
    have hmem : last ∈ movedTo (blocks.map (·.id)) moved i := by
      have := mem_of_getLast? hlast
      rwa [hins, hnil, (insertLate_perm _ _).mem_iff, nil_append] at this
    obtain ⟨n', hn', hkey⟩ := h.moved_node hmem
    cases hn.symm.trans hn'
    rw [(h.expression hexpr hn hkey).2] at ht
    cases ht
  · rw [concat_eq_append] at hinit
    exact ⟨init, last, hinit, by rw [hins, hinit, insertLate_append_singleton]⟩

theorem Shape.own_sublist (hb : g.blocks[i]? = some b) (hb₁ : blocks[i]? = some b₁) :
    b₁.instructions.Sublist b.instructions := by
  obtain ⟨init, last, hown, hall⟩ := h.ends hexpr hb hb₁
  rw [hown, hall]
  exact (sublist_append_left _ _).append (Sublist.refl _)

/-- A node that is no phi stands behind the expressions among its operands. -/
theorem Shape.operand_precedes (hn : g.node? j = some n) (hphi : n.opcode ≠ .phi)
    (hc : .key (.synthesized c) ∈ n.operands) : ∃ b j', g.blocks[n.block]? = some b ∧
      g.resolve? (.key (.synthesized c)) = some j' ∧ b.Precedes j' j := by
  obtain ⟨n₀, hn₀, hr, -, hmove⟩ := h.nodes j n hn
  have hnumbered : Numbered 0 nodes j n₀ := ⟨Nat.zero_le j, hn₀⟩
  obtain ⟨j', n', hn', hkey, hplace⟩ :=
    h.drafted.supplied hnumbered (hr.opcode ▸ hphi) (hr.operands ▸ hc)
  obtain ⟨n'', hn'', hr'⟩ := h.has j' n' hn'
  have hresolve := h.resolve?_synthesized hn'' (hr'.key.trans hkey)
  rcases hplace with ⟨l, hl, hsub⟩ | ⟨id, hsub⟩
  · obtain ⟨b₁, hb₁, rfl⟩ := List.mem_map.mp hl
    obtain ⟨i, hb₁⟩ := getElem?_of_mem hb₁
    obtain ⟨b, hb⟩ := h.block_of hb₁
    have hsub := hsub.trans (h.own_sublist hexpr hb hb₁)
    obtain ⟨n₂, hn₂, rfl⟩ := h.placed hb (hsub.subset (by simp : j ∈ [j', j]))
    cases hn.symm.trans hn₂
    exact ⟨b, j', hb, hresolve, Block.precedes_of_sublist hsub⟩
  · have hhome := hmove id (hsub.subset (by simp : (id, j) ∈ [(id, j'), (id, j)]))
    have hi : n.block < blocks.length := by simpa using (findIdx?_eq_some_iff_getElem.mp hhome).1
    obtain ⟨b, hb⟩ := h.block_of (getElem?_eq_getElem hi)
    obtain ⟨init, last, -, hall⟩ := h.ends hexpr hb (getElem?_eq_getElem hi)
    have hsub' : [j', j].Sublist (movedTo (blocks.map (·.id)) moved n.block) := by
      simpa [movedTo, hhome] using hsub.filterMap fun e =>
        if home? (blocks.map (·.id)) e.1 = some n.block then some e.2 else none
    refine ⟨b, j', hb, hresolve, Block.precedes_of_sublist ?_⟩
    rw [hall]
    exact hsub'.trans ((sublist_append_right _ _).trans (sublist_append_left _ _))

/-- All expressions that an expression depends on stand in front of it. -/
theorem Shape.dependencies_precede (hb : g.blocks[i]? = some b) (hj : j ∈ b.instructions)
    (hn : g.node? j = some n) (hkey : n.key.value? = none) (hdep : Relation.TransGen g.Feeds j' j) :
    b.Precedes j' j := by
  -- An expression of the block has the expressions that feed it in the same block.
  have hfeeds {a x : NodeId} {m : Node} (hx : x ∈ b.instructions) (hm : g.node? x = some m)
      (hkey : m.key.value? = none) (ha : g.Feeds a x) : b.Precedes a x := by
    obtain ⟨m', c, hm', hc, ha⟩ := ha
    cases hm.symm.trans hm'
    obtain ⟨b', a', hb', ha', hprec⟩ :=
      h.operand_precedes hexpr hm (h.expression hexpr hm hkey).1 hc
    obtain ⟨m₂, hm₂, rfl⟩ := h.placed hb hx
    cases hm.symm.trans hm₂
    cases hb.symm.trans hb'
    cases ha.symm.trans ha'
    exact hprec
  have hfed {a x : NodeId} (ha : g.Feeds a x) : ∃ m, g.node? a = some m ∧ m.key.value? = none := by
    obtain ⟨-, c, -, -, ha⟩ := ha
    obtain ⟨_, m, hk, hm, hkey⟩ := resolve?_eq_some ha
    cases hk
    exact ⟨m, hm, by rw [hkey]; rfl⟩
  induction hdep using Relation.TransGen.head_induction_on with
  | single ha => exact hfeeds hj hn hkey ha
  | head ha hrest ih =>
    obtain ⟨_, hfirst, -⟩ := Relation.TransGen.head'_iff.mp hrest
    obtain ⟨m, hm, hmkey⟩ := hfed hfirst
    exact (hfeeds ih.mem_left hm hmkey ha).trans (h.nodup hb) ih

/-- A phi has the expressions that it takes from a block in front of the end of the block. -/
theorem Shape.phi_operand_precedes (hids : (f.blocks.map (·.id)).Nodup) (hn : g.node? j = some n)
    (hphi : n.opcode = .phi) :
    ∃ sources incoming, n.kind = .phi sources incoming ∧ sources.length = n.operands.length ∧
      ∀ (pos : Nat) id c, sources[pos]? = some id →
        n.operands[pos]? = some (.key (.synthesized c)) → ∃ i b j' last, g.blockIndex? id = some i ∧
          g.blocks[i]? = some b ∧ g.resolve? (.key (.synthesized c)) = some j' ∧
            b.instructions.getLast? = some last ∧ b.Precedes j' last ∧
          ∀ j'', Relation.TransGen g.Feeds j'' j' → b.Precedes j'' j' := by
  have hvalue : n.key.value? ≠ none := fun hkey => (h.expression hexpr hn hkey).1 hphi
  obtain ⟨n₀, hn₀, hr, -, -⟩ := h.nodes j n hn
  have hnumbered : Numbered 0 nodes j n₀ := ⟨Nat.zero_le j, hn₀⟩
  obtain ⟨sources, hk, hlen, hall⟩ :=
    h.drafted.phi_supplied hnumbered (hr.key ▸ hvalue) (hr.opcode ▸ hphi)
  obtain ⟨incoming, hkind⟩ : ∃ incoming, n.kind = .phi sources incoming := by
    have herased := hr.kind
    rw [hk] at herased
    cases hkind : n.kind with
    | phi sources' incoming =>
      rw [hkind] at herased
      cases herased
      exact ⟨incoming, rfl⟩
    | _ =>
      rw [hkind] at herased
      cases herased
  refine ⟨sources, incoming, hkind, hr.operands ▸ hlen, fun pos id c hid hc => ?_⟩
  obtain ⟨j', n', hn', hkey, hmem⟩ := hall pos id c hid (hr.operands ▸ hc)
  obtain ⟨n'', hn'', hr'⟩ := h.has j' n' hn'
  have hkey' : n''.key = .synthesized c := hr'.key.trans hkey
  obtain ⟨_, _, _, _, hmove⟩ := h.nodes j' n'' hn''
  have hhome := hmove id hmem
  obtain ⟨hi, hat, -⟩ := findIdx?_eq_some_iff_getElem.mp hhome
  have hi' : n''.block < blocks.length := by simpa using hi
  obtain ⟨b, hb⟩ := h.block_of (getElem?_eq_getElem hi')
  obtain ⟨init, last, -, hins⟩ := h.ends hexpr hb (getElem?_eq_getElem hi')
  have hmem' : j' ∈ init ++ movedTo (blocks.map (·.id)) moved n''.block :=
    mem_append_right _ (mem_movedTo.mpr ⟨id, hmem, hhome⟩)
  have hlast : b.Precedes j' last := by
    refine Block.precedes_of_sublist ?_
    rw [hins]
    exact (singleton_sublist.mpr hmem').append (Sublist.refl _)
  have hbid : b.id = id := by
    have hbs := congrArg (·[n''.block]?) h.ids
    simp only [getElem?_map, hb, getElem?_eq_getElem hi', Option.map_some, Option.some.injEq] at hbs
    rw [hbs]
    simpa using hat
  have hindex : g.blockIndex? id = some n''.block :=
    (blockIndex?_eq_some_iff (by rw [h.ids, h.drafted.ids]; exact hids)).mpr ⟨b, hb, hbid⟩
  refine ⟨n''.block, b, j', last, hindex, hb, h.resolve?_synthesized hn'' hkey', by simp [hins],
    hlast, fun j'' hdep => ?_⟩
  exact h.dependencies_precede hexpr hb hlast.mem_left hn'' (by rw [hkey']; rfl) hdep

/-- The last node of a block is the one of its last instruction, a terminator. -/
theorem Shape.terminator_last (hb : g.blocks[i]? = some b) {b₀ : Ssa.Block}
    (hall : Forall₂ (g.IsNodeOf s.resolver) b₀.instructions
      (b.instructions.filter g.isInstruction)) :
    ∃ x last, b₀.instructions.getLast? = some x ∧ x.isTerminator = true ∧
      b.instructions.getLast? = some last ∧ g.IsNodeOf s.resolver x last := by
  obtain ⟨-, ⟨last, n, hlast, hn, ht, -⟩, -⟩ := h.successors i b hb
  cases hkey : n.key.value? with
  | none =>
    rw [(h.expression hexpr hn hkey).2] at ht
    cases ht
  | some v =>
    obtain ⟨x, hx, hnode⟩ := Graph.last_instruction hall hlast (Graph.isInstruction_of_key hn hkey)
    refine ⟨x, last, hx, ?_, hlast, hnode⟩
    obtain ⟨n', hn', -, hc⟩ := hnode
    cases hn.symm.trans hn'
    rw [← ht, hc.opcode]
    rfl

end

/-! ## Placement -/

/-- The nodes of the graph of a function are in their places. -/
structure Graph.InOrder (r : Resolver) (f : Function) (g : Graph) : Prop where
  /-- Every node stands in one block, once. -/
  once : (g.blocks.flatMap (·.instructions)).Perm (List.range g.nodes.length)
  /-- The blocks are those of the function. -/
  blocks : g.blocks.map (·.id) = f.blocks.map (·.id)
  /-- Nodes know their blocks. -/
  block : ∀ (i : Nat) b j, g.blocks[i]? = some b → j ∈ b.instructions →
    ∃ n, g.node? j = some n ∧ n.block = i
  /-- Instructions keep their order, and the last one of a block, a terminator, is its last node. -/
  instructions : ∀ (i : Nat) b, g.blocks[i]? = some b → ∃ b₀, f.blocks[i]? = some b₀ ∧
    Forall₂ (g.IsNodeOf r) b₀.instructions (b.instructions.filter g.isInstruction) ∧
    ∃ x last, b₀.instructions.getLast? = some x ∧ x.isTerminator = true ∧
      b.instructions.getLast? = some last ∧ g.IsNodeOf r x last
  /-- The expressions among the operands of a node that is no phi stand in front of it. -/
  operands : ∀ j n c, g.node? j = some n → n.opcode ≠ .phi → .key (.synthesized c) ∈ n.operands →
    ∃ b j', g.blocks[n.block]? = some b ∧ g.resolve? (.key (.synthesized c)) = some j' ∧
      b.Precedes j' j
  /-- The expressions that a phi takes from a block stand in it, in front of the last node and
  behind all expressions that they depend on. -/
  phis : ∀ j n, g.node? j = some n → n.opcode = .phi →
    ∃ sources incoming, n.kind = .phi sources incoming ∧ sources.length = n.operands.length ∧
      ∀ (pos : Nat) id c, sources[pos]? = some id →
        n.operands[pos]? = some (.key (.synthesized c)) → ∃ i b j' last, g.blockIndex? id = some i ∧
          g.blocks[i]? = some b ∧ g.resolve? (.key (.synthesized c)) = some j' ∧
            b.instructions.getLast? = some last ∧ b.Precedes j' last ∧
          ∀ j'', Relation.TransGen g.Feeds j'' j' → b.Precedes j'' j'

/-- If the blocks of a function have distinct numbers and its constant expressions are neither phis
nor terminators, the nodes of its graph are in order. -/
theorem Graph.make_in_order {m : Ssa.Module} {s : Setting} {f : Function} {g : Graph}
    (h : Graph.make m s f = .ok g) (hids : (f.blocks.map (·.id)).Nodup)
    (hexpr : ∀ x ∈ f.expressions, x.opcode ≠ .phi ∧ x.opcode.isTerminator = false) :
    g.InOrder s.resolver f := by
  obtain ⟨blocks, nodes, moved, hs⟩ := Graph.make_shape h
  refine ⟨hs.once, hs.ids.trans hs.drafted.ids, fun i b j hb hj => hs.placed hb hj,
    fun i b hb => ?_, fun j n c hn hphi hc => hs.operand_precedes hexpr hn hphi hc,
    fun j n hn hphi => hs.phi_operand_precedes hexpr hids hn hphi⟩
  obtain ⟨b₀, hb₀, hall⟩ := hs.in_order hb
  exact ⟨b₀, hb₀, hall, hs.terminator_last hexpr hb hall⟩

/-- A loop whose phis take expressions from both sides, and whose terminator has one of its own. -/
def turning : Function where
  name := "turning"
  type := ⟨.int 32, [], false⟩
  blocks :=
    let int (n : Int) : Operand := .const (.int (.int 32) n)
    let expr (opcode : Ssa.Opcode) (a b : Operand) : Operand := .expr opcode (.int 32) [a, b] .plain
    [{ id := 7, instructions := [{ id := 0, opcode := .br, ty := .void, operands := [.block 3] }] },
     { id := 3, instructions :=
       [{ id := 1, opcode := .phi, ty := .int 32, info := .phi [7, 3],
          operands := [expr .add (expr .mul (int 2) (int 3)) (expr .sub (int 4) (int 5)),
            expr .xor (int 6) (int 7)] },
        { id := 2, opcode := .phi, ty := .int 32, info := .phi [3, 7],
          operands :=
            [expr .mul (int 8) (expr .add (int 9) (int 10)), expr .or (int 11) (int 12)] },
        { id := 3, opcode := .switch, ty := .void,
          operands := [expr .and (int 13) (int 14), .block 9, int 0, .block 3] }] },
     { id := 9, instructions :=
         [{ id := 4, opcode := .ret, ty := .void, operands := [.value 2] }] }]

/-- What the phis take from the loop itself stands between the terminator and its own expression. -/
theorem turning_in_order : ∃ g, Graph.make {} ⟨{}, 10, { function := "turning" }⟩ turning = .ok g ∧
    g.blocks.map (·.instructions) = [[1, 2, 3, 8, 0], [5, 9, 10, 4, 6, 7, 11], [12]] ∧
      g.InOrder {} turning := by
  obtain ⟨g, hg, hblocks⟩ :=
    toOption_map_eq_some.mp
      (show (Graph.make {} ⟨{}, 10, { function := "turning" }⟩ turning).toOption.map (fun g =>
        g.blocks.map (·.instructions)) = some [[1, 2, 3, 8, 0], [5, 9, 10, 4, 6, 7, 11],
          [12]] by decide +kernel)
  exact ⟨g, hg, hblocks, Graph.make_in_order hg (by decide) (by decide)⟩

end Stackify.Flow
