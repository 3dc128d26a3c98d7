import Mathlib.Data.List.Basic
import Stackify.Proofs.Placement

/-!
The edges of a graph, read off its blocks and nodes.

Control goes from a block to those that its last node names, and both ends of such an edge know of
it (`links_symmetric_exact`). Data goes from a node to those that name it in an operand, and both
ends know of that too; a phi has a value for each block that control comes from
(`data_flow_reciprocal`).
-/

namespace Stackify.Flow

open Ssa (BlockId Function Module)
open Resolve (Resolver)
open List

/-! ## Control flow -/

/-- What is left without duplicates stands in the order in which it comes first. -/
theorem eraseDups_ordered (l : List Nat) : l.eraseDups.Pairwise fun a b =>
    l.idxOf a < l.idxOf b := by
  induction l using List.reverseRecOn with
  | nil => exact .nil
  | append_singleton l a ih =>
    have hkeep {b : Nat} (hb : b ∈ l.eraseDups) : (l ++ [a]).idxOf b = l.idxOf b :=
      idxOf_append_of_mem (mem_eraseDups.mp hb)
    have hinit : l.eraseDups.Pairwise fun b c => (l ++ [a]).idxOf b < (l ++ [a]).idxOf c := by
      refine ih.imp_of_mem fun hb hc hlt => ?_
      rwa [hkeep hb, hkeep hc]
    rw [eraseDups_concat]
    split
    · exact hinit
    · next ha =>
      refine pairwise_append.mpr ⟨hinit, by simp, fun b hb c hc => ?_⟩
      cases mem_singleton.mp hc
      rw [hkeep hb, idxOf_append_of_notMem ha]
      have hlt := idxOf_lt_length_of_mem (mem_eraseDups.mp hb)
      omega

theorem eraseDups_nodup (l : List Nat) : l.eraseDups.Nodup := by
  refine nodup_iff_pairwise_ne.mpr ((eraseDups_ordered l).imp fun {a b} hlt heq => ?_)
  rw [heq] at hlt
  exact Nat.lt_irrefl _ hlt

variable {blocks : List Block} {targets : List BlockId} {positions : List Nat} {j : Nat}

/-- The positions of targets are those of the blocks with these numbers. -/
theorem mem_positions (hids : (blocks.map (·.id)).Nodup)
    (h : Forall₂ (fun id i => blockIndex? blocks id = some i) targets positions) :
    j ∈ positions ↔ ∃ b, blocks[j]? = some b ∧ b.id ∈ targets := by
  constructor
  · intro hj
    obtain ⟨k, hj⟩ := getElem?_of_mem hj
    obtain ⟨id, hid, hindex⟩ := forall₂_some_right h hj
    obtain ⟨b, hb, rfl⟩ := (blockIndex?_eq_some_iff hids).mp hindex
    exact ⟨b, hb, mem_of_getElem? hid⟩
  · rintro ⟨b, hb, hid⟩
    obtain ⟨k, hid⟩ := getElem?_of_mem hid
    obtain ⟨i, hi, hindex⟩ := forall₂_some_left h hid
    cases hindex.symm.trans ((blockIndex?_eq_some_iff hids).mpr ⟨b, hb, rfl⟩)
    exact mem_of_getElem? hi

/-- A position comes first where the number of its block does. -/
theorem idxOf_positions (hids : (blocks.map (·.id)).Nodup)
    (h : Forall₂ (fun id i => blockIndex? blocks id = some i) targets positions) {b : Block}
    (hb : blocks[j]? = some b) : positions.idxOf j = targets.idxOf b.id := by
  have hj := (blockIndex?_eq_some_iff hids).mpr ⟨b, hb, rfl⟩
  induction h with
  | nil => rfl
  | @cons id i targets positions hi _ ih =>
    have hsame : i = j ↔ id = b.id := by
      constructor
      · rintro rfl
        obtain ⟨b', hb', rfl⟩ := (blockIndex?_eq_some_iff hids).mp hi
        cases hb.symm.trans hb'
        rfl
      · rintro rfl
        exact Option.some.inj (hi.symm.trans hj)
    by_cases hij : i = j
    · rw [hij, hsame.mp hij, idxOf_cons_self, idxOf_cons_self]
    · rw [idxOf_cons_ne _ hij, idxOf_cons_ne _ (mt hsame.mpr hij), ih]

/-- **Both ends of an edge between blocks know of it.** In a graph of a function whose blocks have
different numbers, a block has another one among its successors exactly if that one has it among its
predecessors. The successors of a block are the blocks that its last node names, each once and in
the order in which they are first named; predecessors are in order. -/
theorem links_symmetric_exact {m : Module} {s : Setting} {f : Function} {g : Graph}
    (h : Graph.make m s f = .ok g) (hids : (f.blocks.map (·.id)).Nodup) :
    (∀ i j : Nat, (∃ b : Block, g.blocks[i]? = some b ∧ j ∈ b.successors) ↔
      ∃ b : Block, g.blocks[j]? = some b ∧ i ∈ b.predecessors) ∧
    (∀ (i : Nat) (b : Block), g.blocks[i]? = some b →
      ∃ last n, b.instructions.getLast? = some last ∧ g.node? last = some n ∧
        (∀ j : Nat, j ∈ b.successors ↔ ∃ c : Block, g.blocks[j]? = some c ∧
          c.id ∈ n.kind.successors) ∧
        b.successors.Nodup ∧
        b.successors.Pairwise fun j k => ∀ c d :
        Block, g.blocks[j]? = some c → g.blocks[k]? = some d →
          n.kind.successors.idxOf c.id < n.kind.successors.idxOf d.id) ∧
    ∀ b ∈ g.blocks, b.predecessors.Pairwise (· < ·) := by
  obtain ⟨blocks, nodes, moved, hshape⟩ := Graph.make_shape h
  rw [← hshape.block_ids] at hids
  refine ⟨fun i j => ?_, fun i b hb => ?_, fun b hb => ?_⟩
  · constructor
    · rintro ⟨b, hb, hj⟩
      obtain ⟨positions, ⟨_, n, -, -, -, hpositions⟩, hsuccessors⟩ := hshape.successors i b hb
      rw [hsuccessors, mem_eraseDups] at hj
      obtain ⟨c, hc, -⟩ := (mem_positions hids hpositions).mp hj
      refine ⟨c, hc, (hshape.predecessors j c hc i).mpr ⟨b, hb, ?_⟩⟩
      rwa [hsuccessors, mem_eraseDups]
    · rintro ⟨c, hc, hi⟩
      exact (hshape.predecessors j c hc i).mp hi
  · obtain ⟨positions, ⟨last, n, hlast, hn, -, hpositions⟩, hsuccessors⟩ := hshape.successors i b hb
    rw [hsuccessors]
    refine ⟨last, n, hlast, hn, fun j => ?_, eraseDups_nodup positions,
      (eraseDups_ordered positions).imp fun hlt c d hc hd => ?_⟩
    · rw [mem_eraseDups, mem_positions hids hpositions]
    · rwa [idxOf_positions hids hpositions hc, idxOf_positions hids hpositions hd] at hlt
  · obtain ⟨i, hb⟩ := getElem?_of_mem hb
    exact hshape.ordered i b hb

/-- A loop that a switch enters again, with targets that it names twice, and that uses one operand
twice. The address of its variable is stored in the variable itself. -/
def spin : Function where
  name := "spin"
  type := ⟨.int 32, [], false⟩
  blocks :=
    let int (n : Int) : Ssa.Operand := .const (.int (.int 32) n)
    [{ id := 4, instructions :=
       [{ id := 0, opcode := .alloca, ty := .pointer, operands := [], info := .alloca .pointer },
        { id := 1, opcode := .store, ty := .void, operands := [.value 0, .value 0] },
        { id := 2, opcode := .br, ty := .void, operands := [.block 2] }] },
     { id := 2, instructions :=
       [{ id := 3, opcode := .phi, ty := .int 32, operands := [.value 5, int 1, .value 4], info :=
            .phi [2, 4, 2] },
        { id := 4, opcode := .load, ty := .int 32, operands := [.value 0] },
        { id := 5, opcode := .mul, ty := .int 32, operands := [.value 4, .value 4] },
        { id := 6, opcode := .switch, ty := .void,
          operands := [.value 3, .block 9, int 0, .block 2, int 1, .block 9, int 2, .block 2] }] },
     { id := 9, instructions :=
         [{ id := 7, opcode := .ret, ty := .void, operands := [.value 3] }] }]

theorem spin_links_symmetric : ∃ g, Graph.make {} ⟨{}, 1, { function := "spin" }⟩ spin = .ok g ∧
    (spin.blocks.map (·.id)).Nodup ∧
    g.blocks.map (fun b => (b.predecessors, b.successors)) = [([], [1]), ([0, 1], [2, 1]),
      ([1], [])] ∧
    ∀ i j : Nat, (∃ b : Block, g.blocks[i]? = some b ∧ j ∈ b.successors) ↔
      ∃ b : Block, g.blocks[j]? = some b ∧ i ∈ b.predecessors := by
  obtain ⟨g, hg, hedges⟩ :=
    toOption_map_eq_some.mp (show (Graph.make {} ⟨{}, 1, { function := "spin" }⟩ spin).toOption.map
      (fun g => g.blocks.map fun b => (b.predecessors, b.successors)) = some [([], [1]),
        ([0, 1], [2, 1]), ([1], [])] by
      decide +kernel)
  have hids : (spin.blocks.map (·.id)).Nodup := by decide
  exact ⟨g, hg, hids, hedges, (links_symmetric_exact hg hids).1⟩

/-! ## Data flow -/

variable {r : Resolver} {n : Node} {x : Ssa.Operation}

/-- How a node uses its operands: a load takes its only one as an address, a store its second one,
and all else is used in another way. -/
theorem Node.Computes.mem_accesses (hc : n.Computes r x) (ref : Ref) :
    ((.load, ref) ∈ n.accesses ↔ n.opcode = .load ∧ n.operands[0]? = some ref) ∧
    ((.store, ref) ∈ n.accesses ↔ n.opcode = .store ∧ n.operands[1]? = some ref) ∧
    ((.other, ref) ∈ n.accesses ↔ ∃ k : Nat, n.operands[k]? = some ref ∧
      (n.opcode = .store ∧ k = 0 ∨ n.opcode ≠ .load ∧ n.opcode ≠ .store)) := by
  rw [hc.opcode]
  by_cases hload : x.opcode = .load
  · obtain ⟨address, source, ho, hk⟩ := hc.kind_load hload
    simp [accesses, hk, ho, hload, eq_comm]
  by_cases hstore : x.opcode = .store
  · obtain ⟨value, address, destination, ho, hk⟩ := hc.kind_store hstore
    simp [accesses, hk, ho, hstore, eq_comm]
  have hother : n.accesses = n.operands.map (.other, ·) := by
    unfold accesses
    split
    · next hk _ => exact absurd (hc.opcode_of_kind hk rfl) hload
    · next hk _ => exact absurd (hc.opcode_of_kind hk rfl) hstore
    · rfl
  rw [hother]
  simp [hload, hstore, mem_iff_getElem?]

/-- The uses of results, by what tells them from other operands. -/
theorem Graph.uses_iff {g : Graph} {access : Access} {P : Node → Ref → Prop} {i j : NodeId}
    (h : ∀ u, g.node? j = some u → ∀ r, (access, r) ∈ u.accesses ↔ P u r) :
    g.Uses access j i ↔ ∃ u r, g.node? j = some u ∧ P u r ∧ g.resolve? r = some i := by
  constructor
  · rintro ⟨u, r, hu, hr, hres⟩
    exact ⟨u, r, hu, (h u hu r).mp hr, hres⟩
  · rintro ⟨u, r, hu, hr, hres⟩
    exact ⟨u, r, hu, (h u hu r).mpr hr, hres⟩

/-- **Both ends of an edge of data flow know of it.** The loads from what a node computes are the
loads that name it as their operand, the stores to it are the stores that name it as their second
operand, and its accessors are the nodes that name it in any other place. Loads and stores record
which node computes their address. A phi has one value for each predecessor of its block, in their
order: the operand at the first place where the phi names that block. -/
theorem data_flow_reciprocal {m : Module} {s : Setting} {f : Function} {g : Graph}
    (h : Graph.make m s f = .ok g) : (∀ i p, g.node? i = some p → ∀ j,
      (j ∈ p.loads ↔ ∃ u r, g.node? j = some u ∧ u.opcode = .load ∧ u.operands[0]? = some r ∧
        g.resolve? r = some i) ∧
      (j ∈ p.stores ↔ ∃ u r, g.node? j = some u ∧ u.opcode = .store ∧ u.operands[1]? = some r ∧
        g.resolve? r = some i) ∧
      (j ∈ p.accessors ↔ ∃ (u : Node) (k : Nat) (r : Ref), g.node? j = some u ∧
        u.operands[k]? = some r ∧ g.resolve? r = some i ∧
          (u.opcode = .store ∧ k = 0 ∨ u.opcode ≠ .load ∧ u.opcode ≠ .store))) ∧
    ∀ j u, g.node? j = some u →
      (u.opcode = .load → ∃ ty address, u.operands = [address] ∧
        u.kind = .load ty (g.resolve? address)) ∧
      (u.opcode = .store → ∃ value address, u.operands = [value, address] ∧
        u.kind = .store (g.resolve? address)) ∧
      (u.opcode = .phi → ∃ sources incoming b, u.kind = .phi sources incoming ∧
        g.blocks[u.block]? = some b ∧ Forall₂
          (fun i e => e.1 = i ∧ ∃ (c : Block) (k : Nat), g.blocks[i]? = some c ∧
            sources[k]? = some c.id ∧ (∀ k' < k, sources[k']? ≠ some c.id) ∧
              u.operands[k]? = some e.2) b.predecessors incoming) := by
  obtain ⟨blocks, nodes, moved, hshape⟩ := Graph.make_shape h
  have haccesses {j : NodeId} {u : Node} (hu : g.node? j = some u) (r : Ref) :=
    have ⟨_, _, hc⟩ := hshape.computes hu
    hc.mem_accesses r
  refine ⟨fun i p hp j => ?_, fun j u hu => ?_⟩
  · obtain ⟨hloads, hstores, haccessors⟩ := hshape.users i p hp j
    refine ⟨hloads.trans ?_, hstores.trans ?_, haccessors.trans ?_⟩
    · rw [Graph.uses_iff fun u hu r => (haccesses hu r).1]
      simp only [and_assoc]
    · rw [Graph.uses_iff fun u hu r => (haccesses hu r).2.1]
      simp only [and_assoc]
    · rw [Graph.uses_iff fun u hu r => (haccesses hu r).2.2]
      constructor
      · rintro ⟨u, r, hu, ⟨k, hk, ho⟩, hres⟩
        exact ⟨u, k, r, hu, hk, hres, ho⟩
      · rintro ⟨u, k, r, hu, hk, hres, ho⟩
        exact ⟨u, r, hu, ⟨k, hk, ho⟩, hres⟩
  · obtain ⟨x, -, hc⟩ := hshape.computes hu
    have hkind := hshape.kinds j u hu
    refine ⟨fun ho => ?_, fun ho => ?_, fun ho => ?_⟩
    · obtain ⟨address, source, hops, hk⟩ := hc.kind_load (hc.opcode ▸ ho)
      simp only [completeKind, hk, hops] at hkind
      exact ⟨x.ty, address, hops, hk.trans (Except.ok.inj hkind).symm⟩
    · obtain ⟨value, address, destination, hops, hk⟩ := hc.kind_store (hc.opcode ▸ ho)
      simp only [completeKind, hk, hops] at hkind
      exact ⟨value, address, hops, hk.trans (Except.ok.inj hkind).symm⟩
    · obtain ⟨sources, incoming, -, -, hk⟩ := hc.kind_phi (hc.opcode ▸ ho)
      obtain ⟨b, hb, -⟩ := hshape.stands hu
      have hincoming := hshape.incoming hu hk
      rw [hb, Option.elim_some] at hincoming
      have hlinked (i : Nat) (hi : i ∈ b.predecessors) : ∃ c : Block, g.blocks[i]? = some c :=
        have ⟨c, hc, _⟩ := (hshape.predecessors u.block b hb i).mp hi
        ⟨c, hc⟩
      refine ⟨sources, incoming, b, hk, hb,
        ((forall₂_and_left _ _).mpr ⟨hlinked, hincoming⟩).imp ?_⟩
      rintro i e ⟨⟨c, hc⟩, hi, k, hk, hr⟩
      rw [hc, Option.elim_some] at hk
      obtain ⟨hlt, hk, hfirst⟩ := idxOf?_eq_some_iff.mp hk
      refine ⟨hi, c, k, hc, List.getElem?_eq_some_iff.mpr ⟨hlt, hk⟩, fun k' hk' hat => ?_, hr⟩
      exact hfirst k' hk' (List.getElem?_eq_some_iff.mp hat).2

/-- The loop reads its variable once, and multiplying what it reads with itself makes one accessor.
Its phi takes the operand at the first of two places for the loop. -/
theorem spin_data_flow : ∃ g, Graph.make {} ⟨{}, 1, { function := "spin" }⟩ spin = .ok g ∧
    g.nodes.map (fun n => (n.loads, n.stores, n.accessors)) =
      [([4], [1], [1]), ([], [], []), ([], [], []), ([], [], [6, 7]), ([], [], [3, 5]),
        ([], [], [3]), ([], [], []), ([], [], [])] ∧
    (g.node? 3).map (·.kind) =
      some (.phi [2, 4, 2] [(0, .const (.int (.int 32) 1)), (1, .key (.value 5))]) ∧
    ∀ i p, g.node? i = some p → ∀ j, j ∈ p.loads ↔
      ∃ u r, g.node? j = some u ∧ u.opcode = .load ∧ u.operands[0]? = some r ∧
        g.resolve? r = some i := by
  obtain ⟨g, hg, hparts⟩ :=
    toOption_map_eq_some.mp (show (Graph.make {} ⟨{}, 1, { function := "spin" }⟩ spin).toOption.map
      (fun g => (g.nodes.map fun n => (n.loads, n.stores, n.accessors), (g.node? 3).map (·.kind))) =
        some ([([4], [1], [1]), ([], [], []), ([], [], []), ([], [], [6, 7]), ([], [], [3, 5]),
          ([], [], [3]), ([], [], []), ([], [], [])],
            some (.phi [2, 4, 2] [(0, .const (.int (.int 32) 1)), (1, .key (.value 5))]))
              by decide +kernel)
  obtain ⟨huses, hphi⟩ := Prod.mk.inj hparts
  exact ⟨g, hg, huses, hphi, fun i p hp j => ((data_flow_reciprocal hg).1 i p hp j).1⟩

end Stackify.Flow
