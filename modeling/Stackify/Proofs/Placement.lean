import Stackify.Proofs.GraphShape

/-!
Where the nodes of a graph stand, for functions in which every value has one definition and every
block ends with its only terminator (`Ssa.Function.Regular`):

- a node stands in the block that it says it is in, and nowhere else (`Shape.stands`,
  `Shape.placed`, `Shape.nodup`);
- only the last node of a block is a terminator (`Shape.eq_last`);
- what refers to a node does not name a parameter (`Shape.not_param`).
-/

namespace Stackify.Ssa

/-- Every value has one definition, and every block ends with its only terminator. -/
structure Function.Regular (f : Function) : Prop where
  values : (f.params.map (·.id) ++ f.instructions.map (·.id)).Nodup
  terminators : ∀ b ∈ f.blocks, ∃ is last, b.instructions = is ++ [last] ∧
    last.isTerminator = true ∧ ∀ i ∈ is, i.isTerminator = false
  expressions : ∀ x ∈ f.expressions, x.opcode ≠ .phi ∧ x.opcode.isTerminator = false

theorem Block.ends_iff (b : Block) :
    (∃ is last, b.instructions = is ++ [last] ∧ last.isTerminator = true ∧
      ∀ i ∈ is, i.isTerminator = false) ↔ b.terminator?.isSome = true ∧
        ∀ i ∈ b.instructions.dropLast, i.isTerminator = false := by
  constructor
  · rintro ⟨is, last, hb, ht, his⟩
    simpa [Block.terminator?, hb, ht] using his
  · rintro ⟨ht, hinit⟩
    obtain ⟨last, hlast⟩ := Option.isSome_iff_exists.mp ht
    obtain ⟨hlast, ht⟩ := Option.filter_eq_some_iff.mp hlast
    exact ⟨b.instructions.dropLast, last, (List.dropLast_append_getLast? last hlast).symm, ht,
      hinit⟩

instance (f : Function) : Decidable f.Regular :=
  have (b : Block) := decidable_of_iff _ b.ends_iff.symm
  decidable_of_iff (_ ∧ _ ∧ _) ⟨fun ⟨hv, ht, hx⟩ => ⟨hv, ht, hx⟩, fun h =>
    ⟨h.values, h.terminators, h.expressions⟩⟩

theorem Function.Regular.terminator_unique {f : Function} (hf : f.Regular) {b : Block}
    (hb : b ∈ f.blocks) {i i' : Instruction} (hi : i ∈ b.instructions) (ht : i.isTerminator = true)
    (hi' : i' ∈ b.instructions) (ht' : i'.isTerminator = true) : i = i' := by
  obtain ⟨is, last, hbi, -, his⟩ := hf.terminators b hb
  have hlast {i : Instruction} (hi : i ∈ b.instructions) (ht : i.isTerminator = true) :
      i = last := by
    rw [hbi, List.mem_append, List.mem_singleton] at hi
    rcases hi with hi | hi
    · rw [his i hi] at ht
      cases ht
    · exact hi
  rw [hlast hi ht, hlast hi' ht']

end Stackify.Ssa

namespace Stackify.Flow

open Ssa (BlockId Instruction Function)
open List

/-! ## Drafts -/

section
variable {s : Setting} {block position k k' first : Nat} {nodes : List Node}
  {moved : List (BlockId × NodeId)} {j : NodeId} {n : Node} {more : List Node}
  {is : List Instruction} {ids : List NodeId} {bs : List Ssa.Block} {blocks : List Block}

/-- A node with a number, in a list of nodes that are numbered from `first` on. -/
def Numbered (first : Nat) (nodes : List Node) (j : NodeId) (n : Node) : Prop :=
  first ≤ j ∧ nodes[j - first]? = some n

theorem Numbered.mem (h : Numbered first nodes j n) : n ∈ nodes := mem_of_getElem? h.2

theorem Numbered.append_left (h : Numbered first nodes j n) : Numbered first (nodes ++ more) j n :=
  ⟨h.1, by rw [getElem?_append_left (lt_of_getElem? h.2), h.2]⟩

theorem Numbered.append_right (h : Numbered (first + more.length) nodes j n) :
    Numbered first (more ++ nodes) j n := by
  obtain ⟨hle, hn⟩ := h
  refine ⟨by omega, ?_⟩
  rw [getElem?_append_right (by omega), ← hn]
  congr 1
  omega

theorem Numbered.append_cons {new : List Node} {n' : Node}
    (h : Numbered (first + new.length + 1) more j n) : Numbered first (new ++ n' :: more) j n := by
  have happ : new ++ n' :: more = (new ++ [n']) ++ more := by simp
  rw [happ]
  refine .append_right ?_
  rwa [length_append, length_singleton, ← Nat.add_assoc]

theorem Numbered.of_append (h : Numbered first (nodes ++ more) j n) :
    Numbered first nodes j n ∨ Numbered (first + nodes.length) more j n := by
  obtain ⟨hle, hn⟩ := h
  rcases Nat.lt_or_ge (j - first) nodes.length with hlt | hge
  · rw [getElem?_append_left hlt] at hn
    exact .inl ⟨hle, hn⟩
  · rw [getElem?_append_right hge, Nat.sub_sub] at hn
    exact .inr ⟨by omega, hn⟩

theorem Numbered.of_cons {n' : Node} (h : Numbered first (n' :: nodes) j n) :
    (j = first ∧ n = n') ∨ Numbered (first + 1) nodes j n := by
  obtain ⟨hle, hn⟩ := h
  obtain ⟨q, rfl⟩ := Nat.exists_eq_add_of_le hle
  rw [Nat.add_sub_cancel_left] at hn
  cases q with
  | zero =>
    cases hn
    exact .inl ⟨rfl, rfl⟩
  | succ q =>
    have hsub : first + (q + 1) - (first + 1) = q := by omega
    exact .inr ⟨by omega, hsub.symm ▸ hn⟩

theorem exists_numbered (h : j ∈ range' first nodes.length) :
    ∃ n, Numbered first nodes j n := by
  obtain ⟨hle, hlt⟩ := mem_range'_1.mp h
  exact ⟨nodes[j - first], hle, getElem?_eq_getElem (by omega)⟩

section
variable {os : List Ssa.Operand} {rs : List Ref} {c : Nat}

theorem Built.key (h : Built s block k os rs nodes) (hn : Numbered first nodes j n) :
    n.key = .synthesized (k + (j - first)) := by
  have hkey := congrArg (·[j - first]?) h.keys
  have hlt := lt_of_getElem? hn.2
  simpa [hn.2, getElem?_range' hlt] using hkey

/-- Every count has its node. -/
theorem Built.exists_key (h : Built s block k os rs nodes) (hle : k ≤ c)
    (hlt : c < k + nodes.length) (first : Nat) :
    ∃ q n, c = k + q ∧ Numbered first nodes (first + q) n ∧ n.key = .synthesized c ∧
      first + q ∈ range' first nodes.length := by
  obtain ⟨q, rfl⟩ := Nat.exists_eq_add_of_le hle
  have hq : first + q ∈ range' first nodes.length := mem_range'_1.mpr (by omega)
  obtain ⟨n, hn⟩ := exists_numbered hq
  exact ⟨q, n, rfl, hn, by rw [h.key hn, Nat.add_sub_cancel_left], hq⟩

end

theorem Drafted.numbered (h : Drafted s block k first is k' nodes ids moved)
    (hj : j ∈ ids ++ moved.map Prod.snd) :
    ∃ n, Numbered first nodes j n ∧ n.block = block ∧ n.ComesFrom s.resolver is := by
  obtain ⟨n, hn⟩ := exists_numbered (h.placed.mem_iff.mp hj)
  exact ⟨n, hn, h.origin n hn.mem⟩

theorem DraftedBlocks.drafted_block (h : DraftedBlocks s position k first bs blocks nodes moved)
    {i : Nat} {b : Block} (hb : blocks[i]? = some b) :
    ∃ b₀ k₁ first₁ k₂ nodes₁ moved₁, bs[i]? = some b₀ ∧
      Drafted s (position + i) k₁ first₁ b₀.instructions k₂ nodes₁ b.instructions moved₁ ∧
      ∀ j n, Numbered first₁ nodes₁ j n → Numbered first nodes j n := by
  induction h generalizing i with
  | nil => simp at hb
  | @cons position k k' first b₀ rest blocks nodes more ids moved moved' hd _ ih =>
    cases i with
    | zero =>
      cases hb
      exact ⟨b₀, k, first, k', nodes, moved, rfl, hd, fun _ _ => .append_left⟩
    | succ i =>
      obtain ⟨b₁, k₁, first₁, k₂, nodes₁, moved₁, hb₁, hd₁, hnum⟩ := ih hb
      refine ⟨b₁, k₁, first₁, k₂, nodes₁, moved₁, hb₁, ?_, fun j n h => (hnum j n h).append_right⟩
      rwa [Nat.add_assoc, Nat.add_comm 1] at hd₁

theorem DraftedBlocks.numbered (h : DraftedBlocks s position k first bs blocks nodes moved)
    {i : Nat} {b : Block} (hb : blocks[i]? = some b) :
    ∃ b₀, bs[i]? = some b₀ ∧ ∀ j ∈ b.instructions, ∃ n, Numbered first nodes j n ∧
      n.block = position + i ∧ n.ComesFrom s.resolver b₀.instructions := by
  obtain ⟨b₀, k₁, first₁, k₂, nodes₁, moved₁, hb₀, hd, hnum⟩ := h.drafted_block hb
  refine ⟨b₀, hb₀, fun j hj => ?_⟩
  obtain ⟨n, hn, hc⟩ := hd.numbered (mem_append_left _ hj)
  exact ⟨n, hnum j n hn, hc⟩

/-- A node of a draft belongs to an instruction: it is the node of the instruction, behind those of
its operands that stay, or one of the nodes of its operands. -/
inductive PartOf (s : Setting) (first : Nat) (nodes : List Node) (places : List (List NodeId))
    (moved : List (BlockId × NodeId)) (j : NodeId) (n : Node) : Prop
  | intro {block k start : Nat} {i : Instruction} {refs : List Ref} {new : List Node} {n' : Node}
      {ids : List NodeId} {away : List (BlockId × NodeId)} :
      Operands s block k start (i.operands.zip (operandSources i)) refs new ids away →
      Node.make s.resolver s.location block (.value i.id) i.opcode i.ty refs i.info = .ok n' →
      Numbered start new j n ∨ j = start + new.length ∧ n = n' →
      (∀ j n, Numbered start new j n → Numbered first nodes j n) →
      (∃ l ∈ places, (ids ++ [start + new.length]).Sublist l) → away.Sublist moved →
      PartOf s first nodes places moved j n

theorem PartOf.mono {first' : Nat} {nodes' : List Node} {places places' : List (List NodeId)}
    {moved' : List (BlockId × NodeId)} (h : PartOf s first nodes places moved j n)
    (hnodes : ∀ j n, Numbered first nodes j n → Numbered first' nodes' j n)
    (hplaces : ∀ l ∈ places, ∃ l' ∈ places', l.Sublist l') (hmoved : moved.Sublist moved') :
    PartOf s first' nodes' places' moved' j n := by
  obtain ⟨ho, hmade, hpart, hnew, ⟨l, hl, hsub⟩, haway⟩ := h
  obtain ⟨l', hl', hsub'⟩ := hplaces l hl
  exact ⟨ho, hmade, hpart, fun j n h => hnodes j n (hnew j n h), ⟨l', hl', hsub.trans hsub'⟩,
    haway.trans hmoved⟩

theorem Drafted.part (h : Drafted s block k first is k' nodes ids moved)
    (hn : Numbered first nodes j n) : PartOf s first nodes [ids] moved j n := by
  induction h with
  | nil => simp [Numbered] at hn
  | @cons k _ first i rest refs new nodes n' ids more moved moved' ho hn' _ ih =>
    have here (hpart : Numbered first new j n ∨ j = first + new.length ∧ n = n') :
        PartOf s first (new ++ n' :: nodes) [ids ++ (first + new.length) :: more]
          (moved ++ moved') j n :=
      ⟨ho, hn', hpart, fun _ _ => .append_left, ⟨_, mem_singleton_self _, by simp⟩,
        sublist_append_left _ _⟩
    rcases hn.of_append with hn | hn
    · exact here (.inl hn)
    · rcases hn.of_cons with hn | hn
      · exact here (.inr hn)
      · refine (ih hn).mono (fun _ _ => .append_cons) (fun l hl => ?_) (sublist_append_right _ _)
        rw [mem_singleton.mp hl]
        exact ⟨_, mem_singleton_self _, (sublist_cons_self _ _).trans (sublist_append_right _ _)⟩

theorem DraftedBlocks.part (h : DraftedBlocks s position k first bs blocks nodes moved)
    (hn : Numbered first nodes j n) :
    PartOf s first nodes (blocks.map (·.instructions)) moved j n := by
  induction h with
  | nil => simp [Numbered] at hn
  | cons hd _ ih =>
    rcases hn.of_append with hn | hn
    · refine (hd.part hn).mono (fun _ _ => .append_left) (fun l hl => ?_) (sublist_append_left _ _)
      exact ⟨l, mem_singleton.mp hl ▸ mem_cons_self, Sublist.refl l⟩
    · exact (ih hn).mono (fun _ _ => .append_right) (fun l hl =>
        ⟨l, mem_cons_of_mem _ hl, Sublist.refl l⟩) (sublist_append_right _ _)

/-- Only expressions move to other blocks. -/
theorem DraftedBlocks.moved_expression
    (h : DraftedBlocks s position k first bs blocks nodes moved) (hj : j ∈ moved.map Prod.snd) :
    ∃ n, Numbered first nodes j n ∧ n.key.value? = none := by
  obtain ⟨n, hn⟩ := exists_numbered (h.placed_once.mem_iff.mp (mem_append_right _ hj))
  obtain ⟨ho, -, hn' | ⟨rfl, rfl⟩, -, ⟨l, hl, hsub⟩, -⟩ := h.part hn
  · exact ⟨n, hn, by rw [ho.built.key hn']; rfl⟩
  · have hdisjoint := (nodup_append.mp (h.placed_once.nodup_iff.mpr nodup_range')).2.2
    have hself := hsub.subset (mem_append_right _ mem_cons_self)
    exact absurd rfl (hdisjoint _ (mem_flatten.mpr ⟨l, hl, hself⟩) _ hj)

end

/-! ## Graphs -/

variable {s : Setting} {f : Function} {g : Graph} {blocks : List Block} {nodes : List Node}
  {moved : List (BlockId × NodeId)} {i : Nat} {b : Block} {j : NodeId} {n : Node}

theorem mem_movedTo {ids : List BlockId} :
    j ∈ movedTo ids moved i ↔ ∃ id, (id, j) ∈ moved ∧ home? ids id = some i := by
  simp only [movedTo, mem_filterMap, Prod.exists]
  constructor
  · rintro ⟨id, j', hm, h⟩
    split at h
    · next hi =>
      cases h
      exact ⟨id, hm, hi⟩
    · cases h
  · rintro ⟨id, hm, hi⟩
    exact ⟨id, j, hm, by simp [hi]⟩

theorem movedTo_sublist (ids : List BlockId) (moved : List (BlockId × NodeId)) (i : Nat) :
    (movedTo ids moved i).Sublist (moved.map Prod.snd) := by
  induction moved with
  | nil => exact .slnil
  | cons e rest ih =>
    by_cases hi : home? ids e.1 = some i
    · simpa [movedTo, hi] using ih
    · simpa [movedTo, hi] using ih.cons e.2

section
variable (h : Shape s f g blocks nodes moved)
include h

/-- No node stands twice in a block. -/
theorem Shape.nodup (hb : g.blocks[i]? = some b) : b.instructions.Nodup := by
  obtain ⟨b₀, hb₀, hins⟩ := h.instructions i b hb
  have hall := h.drafted.placed_once.nodup_iff.mpr nodup_range'
  have hown : b₀.instructions.Sublist (blocks.flatMap (·.instructions)) :=
    sublist_flatten_of_mem (List.mem_map_of_mem (mem_of_getElem? hb₀))
  rw [hins]
  exact (insertLate_perm _ _).nodup_iff.mpr (hall.sublist (hown.append (movedTo_sublist _ moved i)))

/-- A node of a block is there and knows its block. -/
theorem Shape.nonempty (hb : g.blocks[i]? = some b) : b.instructions ≠ [] := by
  obtain ⟨-, ⟨last, -, hlast, -⟩, -⟩ := h.successors i b hb
  exact ne_nil_of_mem (mem_of_getLast? hlast)

theorem Shape.placed (hb : g.blocks[i]? = some b) (hj : j ∈ b.instructions) :
    ∃ n, g.nodes[j]? = some n ∧ n.block = i := by
  obtain ⟨b₀, hb₀, hins⟩ := h.instructions i b hb
  have hall := h.drafted.placed_once
  rw [hins, (insertLate_perm _ _).mem_iff, mem_append] at hj
  have hlt : j < g.nodes.length := by
    have hmem : j ∈ blocks.flatMap (·.instructions) ++ moved.map Prod.snd := by
      rcases hj with hj | hj
      · exact mem_append_left _ (mem_flatMap.mpr ⟨b₀, mem_of_getElem? hb₀, hj⟩)
      · obtain ⟨id, hm, -⟩ := mem_movedTo.mp hj
        exact mem_append_right _ (List.mem_map.mpr ⟨_, hm, rfl⟩)
    simpa [h.length] using (mem_range'_1.mp (hall.mem_iff.mp hmem)).2
  refine ⟨g.nodes[j], getElem?_eq_getElem hlt, ?_⟩
  obtain ⟨n₀, hn₀, -, hkeep, hmove⟩ := h.nodes j _ (getElem?_eq_getElem hlt)
  rcases hj with hj | hj
  · obtain ⟨_, -, hn⟩ := h.drafted.numbered hb₀
    obtain ⟨n₁, ⟨-, hn₁⟩, hblock, -⟩ := hn j hj
    rw [Nat.sub_zero, hn₀, Option.some.injEq] at hn₁
    have hnot : j ∉ moved.map Prod.snd := fun hm =>
      (nodup_append.mp (hall.nodup_iff.mpr nodup_range')).2.2 j
        (mem_flatMap.mpr ⟨b₀, mem_of_getElem? hb₀, hj⟩) j hm rfl
    rw [hkeep hnot, hn₁, hblock, Nat.zero_add]
  · obtain ⟨id, hm, hi⟩ := mem_movedTo.mp hj
    exact Option.some.inj ((hmove id hm).symm.trans hi)

/-- Every node stands in the block that it knows. -/
theorem Shape.stands (hn : g.nodes[j]? = some n) :
    ∃ b, g.blocks[n.block]? = some b ∧ j ∈ b.instructions := by
  have hlen : g.blocks.length = blocks.length := by simpa using congrArg List.length h.ids
  have hmem : j ∈ blocks.flatMap (·.instructions) ++ moved.map Prod.snd := by
    refine h.drafted.placed_once.mem_iff.mpr (mem_range'_1.mpr ⟨Nat.zero_le j, ?_⟩)
    rw [Nat.zero_add, ← h.length]
    exact lt_of_getElem? hn
  have at_block {i : Nat} {b₀ : Block} (hb₀ : blocks[i]? = some b₀)
      (hj : j ∈ b₀.instructions ++ movedTo (blocks.map (·.id)) moved i) : ∃ b, g.blocks[i]? =
        some b ∧ j ∈ b.instructions := by
    have hi : i < g.blocks.length := hlen ▸ lt_of_getElem? hb₀
    have hb : g.blocks[i]? = some g.blocks[i] := getElem?_eq_getElem hi
    obtain ⟨b₁, hb₁, hins⟩ := h.instructions i _ hb
    cases hb₀.symm.trans hb₁
    exact ⟨_, hb, by rw [hins, (insertLate_perm _ _).mem_iff]; exact hj⟩
  rcases mem_append.mp hmem with hj | hj
  · obtain ⟨b₀, hb₀, hj⟩ := mem_flatMap.mp hj
    obtain ⟨i, hb₀⟩ := getElem?_of_mem hb₀
    obtain ⟨b, hb, hj⟩ := at_block hb₀ (mem_append_left _ hj)
    obtain ⟨n', hn', rfl⟩ := h.placed hb hj
    cases hn.symm.trans hn'
    exact ⟨b, hb, hj⟩
  · obtain ⟨⟨id, _⟩, hm, rfl⟩ := List.mem_map.mp hj
    obtain ⟨_, -, -, -, hmove⟩ := h.nodes _ n hn
    have hhome := hmove id hm
    have hi : n.block < blocks.length := by
      simpa using (findIdx?_eq_some_iff_getElem.mp hhome).1
    exact at_block (getElem?_eq_getElem hi) (mem_append_right _ (mem_movedTo.mpr ⟨id, hm, hhome⟩))

/-- Nodes that come from instructions come from instructions of their own block. -/
theorem Shape.instruction (hb : g.blocks[i]? = some b) (hj : j ∈ b.instructions)
    (hn : g.nodes[j]? = some n) (hv : n.key.value? ≠ none) : ∃ b₀, f.blocks[i]? = some b₀ ∧
      ∃ x ∈ b₀.instructions, n.key = .value x.id ∧ n.Computes s.resolver x.operation := by
  obtain ⟨b₁, hb₁, hins⟩ := h.instructions i b hb
  obtain ⟨n₀, hn₀, hrefines, -⟩ := h.nodes j n hn
  rw [hins, (insertLate_perm _ _).mem_iff, mem_append] at hj
  rcases hj with hj | hj
  · obtain ⟨b₀, hb₀, hnum⟩ := h.drafted.numbered hb₁
    obtain ⟨n₁, ⟨-, hn₁⟩, -, hc⟩ := hnum j hj
    rw [Nat.sub_zero, hn₀, Option.some.injEq] at hn₁
    subst hn₁
    rcases hrefines.comesFrom hc with ⟨x, hx, hk, hc⟩ | ⟨x, hx, y, hy, k, hk, hc⟩
    · exact ⟨b₀, hb₀, x, hx, hk, hc⟩
    · rw [hk] at hv
      exact absurd rfl hv
  · obtain ⟨id, hm, -⟩ := mem_movedTo.mp hj
    obtain ⟨n₁, ⟨-, hn₁⟩, hk⟩ := h.drafted.moved_expression (List.mem_map.mpr ⟨_, hm, rfl⟩)
    rw [Nat.sub_zero, hn₀, Option.some.injEq] at hn₁
    rw [hrefines.key, hn₁] at hv
    exact absurd hk hv

theorem Shape.keys_nodup (hf : f.Regular) : (g.nodes.map (·.key)).Nodup := by
  have hkeys : g.nodes.map (·.key) = nodes.map (·.key) := map_eq_map_of_some h.length fun j n hj =>
    have ⟨n₀, hn₀, hr, _⟩ := h.nodes j n hj
    ⟨n₀, hn₀, hr.key⟩
  rw [hkeys]
  exact h.drafted.keys_nodup (nodup_append.mp hf.values).2.1

/-- Only the last node of a block is a terminator. -/
theorem Shape.eq_last (hf : f.Regular) (hb : g.blocks[i]? = some b) (hj : j ∈ b.instructions)
    (hn : g.nodes[j]? = some n) (ht : n.opcode.isTerminator = true) :
    b.instructions.getLast? = some j := by
  obtain ⟨-, ⟨last, n', hlast, hn', ht', -⟩, -⟩ := h.successors i b hb
  have origin {j : NodeId} {n : Node} (hj : j ∈ b.instructions) (hn : g.nodes[j]? = some n)
      (ht : n.opcode.isTerminator = true) : ∃ b₀, f.blocks[i]? = some b₀ ∧
        ∃ x ∈ b₀.instructions, n.key = .value x.id ∧ x.isTerminator = true := by
    have hv : n.key.value? ≠ none := by
      rcases h.comesFrom hn with ⟨x, _, hk, _⟩ | ⟨x, hx, y, hy, k, hk, hc⟩
      · simp [hk, Key.value?]
      · have := (hf.expressions y (mem_flatMap.mpr ⟨x, hx, hy⟩)).2
        rw [← hc.opcode, ht] at this
        cases this
    obtain ⟨b₀, hb₀, x, hx, hk, hc⟩ := h.instruction hb hj hn hv
    exact ⟨b₀, hb₀, x, hx, hk, by rw [← ht, hc.opcode]; rfl⟩
  obtain ⟨b₀, hb₀, x, hx, hk, hxt⟩ := origin hj hn ht
  obtain ⟨b₁, hb₁, x', hx', hk', hxt'⟩ := origin (mem_of_getLast? hlast) hn' ht'
  cases hb₀.symm.trans hb₁
  have heq := hf.terminator_unique (mem_of_getElem? hb₀) hx hxt hx' hxt'
  have hkeys := h.keys_nodup hf
  have hkey : n.key = n'.key := by rw [hk, hk', heq]
  have hjl := resolve?_key hkeys hn
  rw [hkey, resolve?_key hkeys hn'] at hjl
  rw [hlast, hjl]

/-- What refers to a node does not name a parameter. -/
theorem Shape.not_param (hf : f.Regular) {v : Ssa.ValueId}
    (hr : g.resolve? (.key (.value v)) = some j) : g.paramIndex? v = none := by
  obtain ⟨k, n, hk, hn, hkey⟩ := resolve?_eq_some hr
  cases hk
  refine lastIndex?_eq_none.mpr fun p hp => ?_
  rw [h.function] at hp
  rcases h.comesFrom hn with ⟨x, hx, hkx, -⟩ | ⟨x, hx, y, hy, k, hkx, -⟩
  · rw [hkey] at hkx
    cases hkx
    refine decide_eq_false fun hpx => ?_
    exact (nodup_append.mp hf.values).2.2 p.id (List.mem_map_of_mem hp) x.id
      (List.mem_map_of_mem hx) hpx
  · rw [hkey] at hkx
    cases hkx

end

end Stackify.Flow
