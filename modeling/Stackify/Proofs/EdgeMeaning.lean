import Mathlib.Data.List.Nodup
import Mathlib.Data.List.TakeWhile
import Stackify.Proofs.NodeOrder

/-!
What phis take along the edges between blocks.

`Takes g ν source phis values` says that phis find in a valuation, where they look for what they
take from a predecessor, the words that they are to get. They do when the nodes of that predecessor
have been evaluated (`Shape.takes`).
-/

namespace Stackify.Flow

open Ssa (Word Env BlockId ValueId Instruction Operand Function Evaluates evaluate phiValue?)
open Resolve (Resolver)
open List Option

/-- A phi with its values by predecessor. -/
def Graph.phi? (g : Graph) (id : NodeId) : Option (NodeId × List (Nat × Ref)) :=
  match (g.node? id).map Node.kind with
  | some (.phi _ incoming) => some (id, incoming)
  | _ => none

/-- What phis take from the block at a position, with the values that get it. -/
def Takes (g : Graph) (ν : Valuation) (source : Nat) :
    List (NodeId × List (Nat × Ref)) → List (ValueId × Word) → Prop :=
  Forall₂ fun phi v => ∃ n sources, g.node? phi.1 = some n ∧ n.kind = .phi sources phi.2 ∧
    n.key = .value v.1 ∧ n.Stores v.2 ∧ ∀ j r, (phi.2.find? fun e => e.1 = source) = some (j, r) →
      ν.read r = some v.2

/-! ## The phis of a block -/

variable {g : Graph} {id : NodeId} {n : Node} {sources : List BlockId} {incoming : List (Nat × Ref)}

theorem Graph.phi?_of_kind (hn : g.node? id = some n) (hk : n.kind = .phi sources incoming) :
    g.phi? id = some (id, incoming) := by
  rw [phi?, hn, map_some, hk]

theorem Graph.phi?_eq_none {r : Resolver} {x : Ssa.Operation} (hn : g.node? id = some n)
    (hc : n.Computes r x) (hx : x.opcode ≠ .phi) : g.phi? id = none := by
  rw [phi?, hn, map_some]
  split
  · next hk => exact absurd (hc.opcode_of_kind (some.inj hk) rfl) hx
  · rfl

/-- A phi of the graph is the node of a phi among the instructions. -/
def IsPhiOf (g : Graph) (r : Resolver) (x : Instruction) (phi : NodeId × List (Nat × Ref)) : Prop :=
  ∃ n sources, g.node? phi.1 = some n ∧ n.key = .value x.id ∧ n.Computes r x.operation ∧
    n.kind = .phi sources phi.2

/-- The phis among the nodes of instructions are the nodes of the phis among the instructions. -/
theorem Graph.phis_of_nodes {r : Resolver} {is : List Instruction} {ids : List NodeId}
    (h : Forall₂ (g.IsNodeOf r) is ids) :
    Forall₂ (IsPhiOf g r) (is.filter fun x => x.opcode = .phi) (ids.filterMap g.phi?) := by
  induction h with
  | nil => exact .nil
  | @cons x _ _ _ hnode _ ih =>
    obtain ⟨n, hn, hkey, hc⟩ := hnode
    by_cases hx : x.opcode = .phi
    · obtain ⟨sources, incoming, -, -, hk⟩ := hc.kind_phi hx
      rw [filter_cons_of_pos (by simpa using hx), filterMap_cons_some (phi?_of_kind hn hk)]
      exact .cons ⟨n, sources, hn, hkey, hc, hk⟩ ih
    · rw [filter_cons_of_neg (by simpa using hx), filterMap_cons_none (phi?_eq_none hn hc hx)]
      exact ih

/-! ## What they take -/

theorem home?_eq_some {blockIds : List BlockId} (h : blockIds.Nodup) {i : Nat} {id : BlockId}
    (hi : blockIds[i]? = some id) : home? blockIds id = some i := by
  obtain ⟨hlt, rfl⟩ := List.getElem?_eq_some_iff.mp hi
  refine findIdx?_eq_some_iff_getElem.mpr ⟨hlt, decide_eq_true rfl, fun j hj => ?_⟩
  intro heq
  have := h.getElem_inj_iff.mp (of_decide_eq_true heq)
  omega

variable {s : Setting} {f : Function} {blocks : List Block} {nodes : List Node}
  {moved : List (BlockId × NodeId)} {i t bound : Nat} {b bt : Block} {ν : Valuation}
  {b₀ : Ssa.Block}

section
variable (h : Shape s f g blocks nodes moved)
include h

theorem Shape.phi?_expression (hf : f.Regular) (hn : g.node? id = some n)
    (hk : n.key.value? = none) : g.phi? id = none := by
  rcases h.comesFrom hn with ⟨x, -, hkey, -⟩ | ⟨x, hx, y, hy, -, -, hc⟩
  · rw [hkey] at hk
    cases hk
  · exact Graph.phi?_eq_none hn hc (hf.expressions y (mem_flatMap.mpr ⟨x, hx, hy⟩)).1

/-- The phis of a block of the graph are those of the block of the function. -/
theorem Shape.phis (hf : f.Arithmetical) (hbt : g.blocks[t]? = some bt)
    (hb₀ : f.blocks[t]? = some b₀) :
    Forall₂ (IsPhiOf g s.resolver) b₀.phis (bt.instructions.filterMap g.phi?) := by
  obtain ⟨b₁, hb₁, hall⟩ := h.in_order hbt
  cases hb₀.symm.trans hb₁
  have hids : (bt.instructions.filter g.isInstruction).filterMap g.phi? =
      bt.instructions.filterMap g.phi? := by
    rw [filterMap_filter]
    refine filterMap_congr fun id _ => ?_
    split
    · rfl
    · next hself =>
      cases hn : g.node? id with
      | none => simp [Graph.phi?, hn]
      | some n =>
        exact (h.phi?_expression hf.regular hn
          (by simpa [Graph.isInstruction, hn] using hself)).symm
  have hphis : b₀.phis = b₀.instructions.filter fun x => x.opcode = .phi := by
    have hsplit : b₀.phis ++ b₀.body = b₀.instructions := takeWhile_append_dropWhile
    rw [← hsplit, filter_append, filter_eq_self.mpr, filter_eq_nil_iff.mpr, append_nil]
    · intro x hx
      simpa using hf.phis b₀ (mem_of_getElem? hb₀) x hx
    · intro x hx
      exact mem_takeWhile_imp (p := fun x : Instruction => x.opcode = .phi) hx
  rw [hphis, ← hids]
  exact Graph.phis_of_nodes hall

/-- What a phi takes from a block is what it takes in the source. -/
theorem Shape.phi_reads (hf : f.Arithmetical) (hb : g.blocks[i]? = some b) {x : Instruction}
    (hx : x ∈ f.instructions) (hn : g.node? id = some n) (hkey : n.key = .value x.id)
    (hc : n.Computes s.resolver x.operation) (hk : n.kind = .phi sources incoming)
    (hs : n.Supplied Evaluates (g.blocks.map (·.id)) i bound ν f.instructions) {v : ValueId × Word}
    (hv : phiValue? ν.values b.id x = some v) : v.1 = x.id ∧ n.Stores v.2 ∧
      ∀ j r, (incoming.find? fun e => e.1 = i) = some (j, r) → ν.read r = some v.2 := by
  have hop : x.opcode = .phi := hc.opcode_of_kind hk rfl
  obtain ⟨_, _, hinfo, hlen, hk'⟩ := hc.kind_phi hop
  cases hk.symm.trans hk'
  have hinfo : x.info = .phi sources := hinfo
  rw [phiValue?, hinfo] at hv
  obtain ⟨o, ho, hv⟩ := bind_eq_some_iff.mp hv
  obtain ⟨w, hw, hv⟩ := bind_eq_some_iff.mp hv
  obtain ⟨q, hq, ho⟩ := bind_eq_some_iff.mp ho
  split at hv
  · next hty =>
    cases hv
    refine ⟨rfl, ?_, fun j r hfind => ?_⟩
    · refine ⟨x.ty, ?_, Ssa.Ty.storage?_of_int? hty⟩
      rw [hc.resultType]
      show resultType? x.ty = _
      rw [Ssa.Ty.int?_eq_some.mp hty]
      rfl
    · obtain rfl : j = i := by simpa using find?_some hfind
      -- Both sides look at the operand of the same source.
      obtain ⟨k, hmem⟩ := getElem?_of_mem (mem_of_find?_eq_some hfind)
      obtain ⟨_, -, rfl, q', hq', hr'⟩ := forall₂_some_right (h.incoming hn hk) hmem
      rw [hb] at hq'
      cases hq.symm.trans hq'
      rcases hs with hs | ⟨x', hx', hkey', hs⟩
      · rw [hkey] at hs
        cases hs
      · rw [hkey] at hkey'
        obtain rfl : x = x' := inj_on_of_nodup_map (nodup_append.mp hf.regular.values).2.1 hx hx'
          (Key.value.inj hkey')
        rw [operandSources_of_phi hop hinfo (by rw [hlen, ← hc.operands.length_eq]; rfl)] at hs
        obtain ⟨hlt, hsource, -⟩ := findIdx?_eq_some_iff_getElem.mp hq
        have hzip : (x.operands.zip (sources.map some))[q]? = some (o, some b.id) := by
          refine getElem?_zip_eq_some.mpr ⟨ho, ?_⟩
          rw [getElem?_map, getElem?_eq_getElem hlt, eq_of_beq hsource, map_some]
        obtain ⟨r'', hr'', hsupplied⟩ := forall₂_some_left hs hzip
        cases hr'.symm.trans hr''
        refine hsupplied.2 b.id rfl (home?_eq_some (h.block_ids ▸ hf.blocks) ?_) w hw
        rw [getElem?_map, hb, map_some]
  · cases hv

/-- The phis of a block take from the block at position `i` what they take in the source. -/
theorem Shape.takes (hf : f.Arithmetical) (hb : g.blocks[i]? = some b)
    (hbt : g.blocks[t]? = some bt) (hb₀ : f.blocks[t]? = some b₀)
    (hs : ∀ j n, g.node? j = some n →
      n.Supplied Evaluates (g.blocks.map (·.id)) i bound ν f.instructions)
    {values : List (ValueId × Word)} (hv : b₀.phis.mapM (phiValue? ν.values b.id) = some values) :
    Takes g ν i (bt.instructions.filterMap g.phi?) values := by
  have hphis := h.phis hf hbt hb₀
  have hmem : ∀ x ∈ b₀.phis, x ∈ f.instructions := fun x hx =>
    mem_flatMap.mpr ⟨b₀, mem_of_getElem? hb₀, (List.takeWhile_prefix _).subset hx⟩
  generalize b₀.phis = xs at hphis hv hmem
  generalize bt.instructions.filterMap g.phi? = phis at hphis ⊢
  replace hv := forall₂_of_mapM hv
  unfold Takes
  induction hphis generalizing values with
  | nil =>
    cases hv
    exact .nil
  | @cons x phi xs phis hphi _ ih =>
    obtain _ | ⟨hvx, hv⟩ := hv
    rw [forall_mem_cons] at hmem
    obtain ⟨n, sources, hn, hkey, hc, hk⟩ := hphi
    obtain ⟨hid, hty, hr⟩ := h.phi_reads hf hb hmem.1 hn hkey hc hk (hs _ n hn) hvx
    exact .cons ⟨n, sources, hn, hk, hid ▸ hkey, hty, hr⟩ (ih hmem.2 hv)

end

end Stackify.Flow
