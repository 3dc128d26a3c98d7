import Mathlib.Data.List.Induction
import Stackify.Proofs.Provenance

/-!
The graph of a function in terms of its nodes as they were drafted.

`Shape s f g blocks nodes moved` collects what placing nodes, linking blocks and analysing data flow
do to a draft: blocks keep their numbers and get the nodes that belong to them in front of their
last one, nodes keep everything but their place, their users and what is recorded in their kind.
Graphs have such a shape (`Graph.make_shape`).

Blocks are linked edge by edge. After any number of edges the blocks list what those edges say, each
neighbour once (`linkEdge_withEdges`), so that linking all of them records all edges in order
(`linkBlocks_spec`).
-/

namespace Stackify.Flow

open Ssa (Opcode BlockId Info Operand Instruction Function Module)
open Resolve (Resolver)
open List Option

/-! ## Placing nodes -/

/-- The position of the first block with a number. -/
def home? (ids : List BlockId) (id : BlockId) : Option Nat := ids.findIdx? fun i => i = id

/-- The nodes that belong to the block at a position, in order. -/
def movedTo (ids : List BlockId) (moved : List (BlockId × NodeId)) (i : Nat) : List NodeId :=
  moved.filterMap fun e => if home? ids e.1 = some i then some e.2 else none

/-- A list with the elements of another one in front of its last element. -/
def insertLate (l : List NodeId) : List NodeId → List NodeId
  | [] => l
  | n :: ns => insertLate (l.insertIdx (l.length - 1) n) ns

theorem insertLate_append_singleton (l ns : List NodeId) (last : NodeId) :
    insertLate (l ++ [last]) ns = l ++ ns ++ [last] := by
  induction ns generalizing l with
  | nil => simp [insertLate]
  | cons n ns ih =>
    have h : (l ++ [last]).insertIdx ((l ++ [last]).length - 1) n = (l ++ [n]) ++ [last] := by
      rw [length_append, length_singleton, Nat.add_sub_cancel]
      induction l with
      | nil => rfl
      | cons a l ihl => simpa using ihl
    rw [insertLate, h, ih]
    simp

theorem insertLate_perm (l ns : List NodeId) : (insertLate l ns).Perm (l ++ ns) := by
  induction ns generalizing l with
  | nil => simp [insertLate]
  | cons n ns ih =>
    have h : (l.insertIdx (l.length - 1) n).Perm (n :: l) := perm_insertIdx n l (by omega)
    exact (ih _).trans ((h.append_right ns).trans (by simpa using perm_middle.symm))

variable {location : Location} {moved : List (BlockId × NodeId)} {blocks blocks' : List Block}
  {nodes nodes' : List Node}

theorem map_id_modify (k : Nat) (n : NodeId) :
    (blocks.modify k (·.insertLate n)).map (·.id) = blocks.map (·.id) := by
  refine ext_getElem? fun i => ?_
  rw [getElem?_map, getElem?_map, getElem?_modify]
  cases blocks[i]? with
  | none => rfl
  | some b => by_cases hi : k = i <;> simp [hi, Block.insertLate]

section
variable (h : placeHoisted location moved blocks nodes = .ok (blocks', nodes'))
include h

theorem placeHoisted_blocks :
    blocks'.map (·.id) = blocks.map (·.id) ∧ ∀ i :
    Nat, blocks'[i]? = (blocks[i]?).map fun b : Block =>
      { b with instructions :=
          insertLate b.instructions (movedTo (blocks.map (·.id)) moved i) } := by
  induction moved generalizing blocks nodes with
  | nil =>
    cases h
    refine ⟨rfl, fun i => ?_⟩
    cases blocks'[i]? <;> rfl
  | cons e moved ih =>
    obtain ⟨id, n⟩ := e
    rw [placeHoisted] at h
    split at h
    · cases h
    · next k hk =>
      obtain ⟨hids, hb⟩ := ih h
      have hhome : home? (blocks.map (·.id)) id = some k := by rw [home?, findIdx?_map]; exact hk
      rw [map_id_modify] at hids hb
      refine ⟨hids, fun i => ?_⟩
      rw [hb i, getElem?_modify]
      by_cases hi : k = i
      · subst hi
        have hm : movedTo (blocks.map (·.id)) ((id, n) :: moved) k = n ::
            movedTo (blocks.map (·.id)) moved k := by
          simp [movedTo, hhome]
        rw [hm]
        cases blocks[k]? <;> simp [insertLate, Block.insertLate]
      · have hm : movedTo (blocks.map (·.id)) ((id, n) :: moved) i = movedTo (blocks.map (·.id))
            moved i := by
          simp [movedTo, hhome, hi]
        rw [hm]
        cases blocks[i]? <;> simp [hi]

theorem placeHoisted_nodes (hmoved : (moved.map Prod.snd).Nodup) :
    nodes'.length = nodes.length ∧ ∀ (j : NodeId) (n' : Node), nodes'[j]? = some n' →
      ∃ n, nodes[j]? = some n ∧ n' = { n with block := n'.block } ∧
        (j ∉ moved.map Prod.snd → n'.block = n.block) ∧
        ∀ id, (id, j) ∈ moved → home? (blocks.map (·.id)) id = some n'.block := by
  induction moved generalizing blocks nodes with
  | nil =>
    cases h
    exact ⟨rfl, fun j n' hn => ⟨n', hn, rfl, fun _ => rfl, by simp⟩⟩
  | cons e moved ih =>
    obtain ⟨id, n⟩ := e
    rw [placeHoisted] at h
    split at h
    · cases h
    · next k hk =>
      have hmoved := nodup_cons.mp hmoved
      obtain ⟨hlen, hn⟩ := ih h hmoved.2
      have hhome : home? (blocks.map (·.id)) id = some k := by rw [home?, findIdx?_map]; exact hk
      rw [map_id_modify] at hn
      refine ⟨by rw [hlen, length_modify], fun j n' hj => ?_⟩
      obtain ⟨n₁, hj₁, hn', hkeep, hmove⟩ := hn j n' hj
      rw [getElem?_modify] at hj₁
      obtain ⟨n₀, hj₀, hn₁⟩ := map_eq_some_iff.mp hj₁
      by_cases hi : n = j
      · subst hi
        have hb : n'.block = k := by rw [hkeep hmoved.1, ← hn₁, if_pos rfl]
        refine ⟨n₀, hj₀, by rw [hn', ← hn₁, if_pos rfl], by simp, fun id' hid => ?_⟩
        rcases mem_cons.mp hid with h | h
        · cases h
          rw [hhome, hb]
        · exact absurd (List.mem_map_of_mem h) hmoved.1
      · rw [if_neg hi] at hn₁
        subst hn₁
        refine ⟨n₀, hj₀, hn', fun hj' => hkeep fun h => hj' (by simp [h]), fun id' hid => ?_⟩
        rcases mem_cons.mp hid with h | h
        · cases h
          exact absurd rfl hi
        · exact hmove id' h

end

/-! ## Linking blocks -/

/-- The fields of a node that stay as they were drafted. -/
structure Node.Refines (n n₀ : Node) : Prop where
  key : n.key = n₀.key
  opcode : n.opcode = n₀.opcode
  operands : n.operands = n₀.operands
  resultType : n.resultType = n₀.resultType
  kind : n.kind.erased = n₀.kind.erased

variable {r : Resolver} {n n₀ : Node}

theorem Node.Refines.computes {x : Ssa.Operation} (h : n.Refines n₀) (hc : n₀.Computes r x) :
    n.Computes r x :=
  ⟨h.opcode.trans hc.opcode, h.operands ▸ hc.operands, h.resultType.trans hc.resultType,
    by rw [h.operands, h.kind]; exact hc.kind⟩

theorem Node.Refines.comesFrom {is : List Instruction} (h : n.Refines n₀) (hc : n₀.ComesFrom r is) :
    n.ComesFrom r is := by
  rcases hc with ⟨i, hi, hk, hc⟩ | ⟨i, hi, x, hx, j, hk, hc⟩
  · exact .inl ⟨i, hi, h.key.trans hk, h.computes hc⟩
  · exact .inr ⟨i, hi, x, hx, j, h.key.trans hk, h.computes hc⟩

theorem Kind.successors_erased (k : Kind) : k.erased.successors = k.successors := by
  cases k <;> rfl

/-- The ends of the edges from a block, each once and in the order in which they come. -/
def targetsOf (edges : List (Nat × Nat)) (i : Nat) : List Nat :=
  ((edges.filter (·.1 = i)).map (·.2)).eraseDups

/-- The beginnings of the edges to a block. -/
def sourcesOf (edges : List (Nat × Nat)) (i : Nat) : List Nat :=
  ((edges.filter (·.2 = i)).map (·.1)).eraseDups

/-- Blocks with the links that edges give them. -/
def withEdges (edges : List (Nat × Nat)) (blocks : List Block) : List Block :=
  blocks.mapIdx fun i b =>
    { b with successors := targetsOf edges i, predecessors := sourcesOf edges i }

variable {linked : List Block} {edges : List (Nat × Nat)} {i j source target : Nat}
  {positions : List Nat} {b : Block}

theorem mem_targetsOf : j ∈ targetsOf edges i ↔ (i, j) ∈ edges := by simp [targetsOf, mem_eraseDups]

theorem mem_sourcesOf : i ∈ sourcesOf edges j ↔ (i, j) ∈ edges := by simp [sourcesOf, mem_eraseDups]

theorem eraseDups_concat (l : List Nat) (a : Nat) :
    (l ++ [a]).eraseDups = if a ∈ l then l.eraseDups else l.eraseDups ++ [a] := by
  rw [eraseDups_append]
  by_cases ha : a ∈ l <;> simp [ha, cons_removeAll, eraseDups_cons]

theorem targetsOf_concat : targetsOf (edges ++ [(source, target)]) i =
    if source = i ∧ (source, target) ∉ edges then
      targetsOf edges i ++ [target] else targetsOf edges i := by
  by_cases hi : source = i
  · subst hi
    by_cases hmem : (source, target) ∈ edges <;> simp [targetsOf, eraseDups_concat, hmem]
  · simp [targetsOf, hi]

theorem sourcesOf_concat : sourcesOf (edges ++ [(source, target)]) i =
    if target = i ∧ (source, target) ∉ edges then
      sourcesOf edges i ++ [source] else sourcesOf edges i := by
  by_cases hi : target = i
  · subst hi
    by_cases hmem : (source, target) ∈ edges <;> simp [sourcesOf, eraseDups_concat, hmem]
  · simp [sourcesOf, hi]

theorem map_id_withEdges : (withEdges edges blocks).map (·.id) = blocks.map (·.id) := by
  refine ext_getElem? fun i => ?_
  rw [withEdges, getElem?_map, getElem?_mapIdx, getElem?_map, Option.map_map]
  rfl

/-- An edge that is there already changes nothing, and another one is added at both of its ends. -/
theorem linkEdge_withEdges (hs : source < blocks.length) :
    linkEdge source target (withEdges edges blocks) = withEdges
      (edges ++ [(source, target)]) blocks := by
  refine ext_getElem? fun i => ?_
  by_cases hmem : (source, target) ∈ edges
  · simp [linkEdge, withEdges, Block.addSuccessor, hs, mem_targetsOf, targetsOf_concat,
      sourcesOf_concat, hmem]
  · have hnew := mt mem_targetsOf.mp hmem
    have hold := mt mem_sourcesOf.mp hmem
    simp only [linkEdge, withEdges, getElem?_mapIdx, Block.addSuccessor, getElem?_eq_getElem hs,
      map_some, contains_iff_mem, hnew, if_false, getElem?_modify, getElem?_set, length_mapIdx, hs,
        targetsOf_concat, sourcesOf_concat, hmem, not_false_eq_true, and_true]
    by_cases hi : source = i <;> by_cases hj : target = i
    · subst hi hj
      simp [hs, Block.addPredecessor, hold]
    · subst hi
      simp [hs, hj]
    · subst hj
      cases blocks[target]? <;> simp [hi, Block.addPredecessor, hold]
    · simp [hi, hj]

theorem DraftedBlocks.unlinked {s : Setting} {position k first : Nat} {bs : List Ssa.Block}
    (h : DraftedBlocks s position k first bs blocks nodes moved) :
    ∀ b ∈ blocks, b.successors = [] ∧ b.predecessors = [] := by
  induction h with
  | nil => exact forall_mem_nil _
  | cons _ _ ih => exact forall_mem_cons.mpr ⟨⟨rfl, rfl⟩, ih⟩

/-- A block ends with a terminator that names the blocks at some positions. -/
def Block.Exits (b : Block) (blocks : List Block) (nodes : List Node) (positions : List Nat) :
    Prop :=
  ∃ last n, b.instructions.getLast? = some last ∧ nodes[last]? = some n ∧
    n.opcode.isTerminator = true ∧ Forall₂ (fun id i => blockIndex? blocks id = some i)
      n.kind.successors positions

theorem linkTargets_spec {ids : List BlockId} (hs : source < blocks.length)
    (h : linkTargets location source ids (withEdges edges blocks) = .ok linked) :
    ∃ positions, Forall₂ (fun id i => blockIndex? blocks id = some i) ids positions ∧
      linked = withEdges (edges ++ positions.map (source, ·)) blocks := by
  induction ids generalizing edges with
  | nil =>
    cases h
    exact ⟨[], .nil, by simp⟩
  | cons id ids ih =>
    rw [linkTargets, blockIndex?_congr map_id_withEdges] at h
    split at h
    · next target ht =>
      rw [linkEdge_withEdges hs] at h
      obtain ⟨positions, hpositions, rfl⟩ := ih h
      exact ⟨target :: positions, .cons ht hpositions, by simp⟩
    · cases h

theorem linkBlock_spec (hb : blocks[source]? = some b)
    (h : linkBlock location nodes (withEdges edges blocks) source = .ok linked) :
    ∃ positions, b.Exits blocks nodes positions ∧ linked = withEdges
      (edges ++ positions.map (source, ·)) blocks := by
  rw [linkBlock, withEdges, getElem?_mapIdx, hb] at h
  dsimp only [map_some] at h
  split at h
  · cases h
  · next n hn =>
    obtain ⟨last, hlast, hn⟩ := bind_eq_some_iff.mp hn
    split at h
    · next ht =>
      obtain ⟨positions, hpositions, hlinked⟩ := linkTargets_spec (lt_of_getElem? hb) h
      exact ⟨positions, ⟨last, n, hlast, hn, ht, hpositions⟩, hlinked⟩
    · cases h

/-- The edges from the blocks in a list, by the positions that each one names. -/
def edgesOf (targets : List (List Nat)) : List (Nat × Nat) := targets.zipIdx.flatMap fun e =>
    e.1.map (e.2, ·)

theorem edgesOf_concat (targets : List (List Nat)) (positions : List Nat) :
    edgesOf (targets ++ [positions]) = edgesOf targets ++ positions.map (targets.length, ·) := by
  simp [edgesOf, zipIdx_append]

/-- Blocks without links get those of the edges that their terminators name, block by block. -/
theorem linkBlocks_spec (hnone : ∀ b ∈ blocks, b.successors = [] ∧ b.predecessors = [])
    (h : linkBlocks location blocks nodes = .ok linked) :
    ∃ targets, Forall₂ (fun b positions => b.Exits blocks nodes positions) blocks targets ∧
      linked = withEdges (edgesOf targets) blocks := by
  have hstart : withEdges [] blocks = blocks := by
    refine ext_getElem? fun i => ?_
    rw [withEdges, getElem?_mapIdx]
    cases hb : blocks[i]? with
    | none => rfl
    | some b =>
      obtain ⟨hsuccessors, hpredecessors⟩ := hnone b (mem_of_getElem? hb)
      cases b
      cases hsuccessors
      cases hpredecessors
      rfl
  have hrun (k : Nat) (hk : k ≤ blocks.length) {linked : List Block}
      (h : (List.range k).foldlM (linkBlock location nodes) blocks = .ok linked) :
      ∃ targets, Forall₂ (fun b positions => b.Exits blocks nodes positions)
        (blocks.take k) targets ∧ linked = withEdges (edgesOf targets) blocks := by
    induction k generalizing linked with
    | zero =>
      cases h
      exact ⟨[], .nil, hstart.symm⟩
    | succ k ih =>
      rw [range_succ, foldlM_append] at h
      obtain ⟨before, hbefore, h⟩ := bind_eq_ok.mp h
      obtain ⟨targets, htargets, rfl⟩ := ih (by omega) hbefore
      have hb := getElem?_eq_getElem (show k < blocks.length by omega)
      obtain ⟨_, h, hlinked⟩ := bind_eq_ok.mp h
      cases hlinked
      obtain ⟨positions, hnames, rfl⟩ := linkBlock_spec hb h
      have hlength : targets.length = k := by rw [← htargets.length_eq, length_take]; omega
      refine ⟨targets ++ [positions], ?_, by rw [edgesOf_concat, hlength]⟩
      rw [take_add_one, hb]
      exact rel_append htargets (.cons hnames .nil)
  have hall := hrun blocks.length (Nat.le_refl _) h
  rwa [take_length] at hall

variable {targets : List (List Nat)}

theorem mem_edgesOf :
    (i, j) ∈ edgesOf targets ↔ ∃ positions, targets[i]? = some positions ∧ j ∈ positions := by
  simp [edgesOf, mem_zipIdx_iff_getElem?]

theorem targetsOf_edgesOf (h : targets[i]? = some positions) :
    targetsOf (edgesOf targets) i = positions.eraseDups := by
  have hfilter : ((edgesOf targets).filter (·.1 = i)).map (·.2) = positions := by
    induction targets using List.reverseRecOn with
    | nil => cases h
    | append_singleton targets last ih =>
      rw [edgesOf_concat, filter_append, map_append]
      rw [getElem?_append] at h
      split at h
      · next hlt => simp [ih h, List.filter_map, Function.comp_def, Nat.ne_of_gt hlt]
      · next hge =>
        obtain ⟨hi, rfl⟩ : i - targets.length = 0 ∧ last = positions := by
          simpa [getElem?_singleton] using h
        obtain rfl : i = targets.length := by omega
        have hnone : (edgesOf targets).filter (·.1 = targets.length) = [] := by
          refine filter_eq_nil_iff.mpr fun e he heq => ?_
          obtain ⟨_, hsome, -⟩ := mem_edgesOf.mp he
          rw [of_decide_eq_true heq, getElem?_eq_none (Nat.le_refl _)] at hsome
          cases hsome
        simp [hnone, List.filter_map, Function.comp_def]
  rw [targetsOf, hfilter]

/-- Where edges come in the order of their beginnings, a block has those of the edges to it in
order. -/
theorem sourcesOf_ordered (h : edges.Pairwise fun a b => a.1 ≤ b.1) :
    (sourcesOf edges i).Pairwise (· < ·) := by
  induction edges using List.reverseRecOn with
  | nil => exact .nil
  | append_singleton edges e ih =>
    obtain ⟨hedges, -, hlast⟩ := pairwise_append.mp h
    rw [sourcesOf_concat]
    split
    · next hnew =>
      obtain ⟨rfl, hnew⟩ := hnew
      refine pairwise_append.mpr ⟨ih hedges, by simp, fun a ha b hb => ?_⟩
      cases mem_singleton.mp hb
      have hmem := mem_sourcesOf.mp ha
      exact Nat.lt_of_le_of_ne (hlast _ hmem _ (by simp)) fun heq => hnew (heq ▸ hmem)
    · exact ih hedges

theorem edgesOf_ordered : (edgesOf targets).Pairwise fun a b => a.1 ≤ b.1 := by
  have hpositions : (targets.zipIdx.map (·.2)).Pairwise (· < ·) := by
    rw [zipIdx_map_snd]
    exact pairwise_lt_range'
  refine pairwise_flatMap.mpr ⟨fun e _ => ?_, (pairwise_map.mp hpositions).imp fun hlt => ?_⟩
  · exact pairwise_map.mpr (pairwise_of_forall fun _ _ => Nat.le_refl _)
  · simpa using fun _ _ _ _ => Nat.le_of_lt hlt

/-! ## Data flow -/

variable {kind : Kind} {access : Access} {c : NodeId}

theorem completeKind_erased (h : completeKind location blocks nodes n = .ok kind) :
    kind.erased = n.kind.erased := by
  unfold completeKind at h
  split at h
  · next hk _ => cases h; rw [hk]; rfl
  · next hk _ => cases h; rw [hk]; rfl
  · next hk =>
    obtain ⟨_, _, rfl⟩ := map_eq_ok.mp h
    rw [hk]
    rfl
  · cases h
    rfl

/-- Completing a kind again changes nothing. -/
theorem completeKind_completed {loads stores accessors : List NodeId}
    (hkeys : nodes'.map (·.key) = nodes.map (·.key))
    (h : completeKind location blocks nodes n = .ok kind) :
    completeKind location blocks nodes' { n with kind, loads, stores, accessors } = .ok kind := by
  unfold completeKind at h
  split at h
  · next ho =>
    cases h
    simp only [completeKind, ho, resolve?_congr hkeys]
  · next ho =>
    cases h
    simp only [completeKind, ho, resolve?_congr hkeys]
  · obtain ⟨incoming, hi, rfl⟩ := map_eq_ok.mp h
    exact map_eq_ok.mpr ⟨incoming, hi, rfl⟩
  · next hphi hload hstore =>
    cases h
    unfold completeKind
    split
    · next hk ho => exact absurd ho (hload _ _ _ hk)
    · next hk ho => exact absurd ho (hstore _ _ _ hk)
    · next hk => exact absurd hk (hphi _ _)
    · rfl

theorem analyzeDataFlow_spec (h : analyzeDataFlow location blocks nodes = .ok nodes') :
    nodes'.length = nodes.length ∧ ∀ (j : NodeId) (n' : Node), nodes'[j]? = some n' →
      ∃ n kind, nodes[j]? = some n ∧ completeKind location blocks nodes n = .ok kind ∧
      n' = { n with
        kind
        loads := consumers ((dataEdges nodes).filter fun e => e.producer = j) .load
        stores := consumers ((dataEdges nodes).filter fun e => e.producer = j) .store
        accessors := consumers ((dataEdges nodes).filter fun e => e.producer = j) .other } := by
  obtain ⟨kinds, hk, h⟩ := bind_eq_ok.mp h
  cases h
  have hk := mapM_eq_ok.mp hk
  refine ⟨by simp [hk.length_eq], fun j n' hj => ?_⟩
  rw [getElem?_map, getElem?_zipIdx, Nat.zero_add, Option.map_map] at hj
  obtain ⟨⟨n, kind⟩, hz, rfl⟩ := map_eq_some_iff.mp hj
  obtain ⟨hn, hkind⟩ := getElem?_zip_eq_some.mp hz
  obtain ⟨n₁, hn₁, hc⟩ := forall₂_some_right hk hkind
  rw [hn] at hn₁
  cases hn₁
  exact ⟨n, kind, hn, hc, rfl⟩

theorem Node.accesses_congr {m : Node} (hk : n.kind.erased = m.kind.erased)
    (ho : n.operands = m.operands) : n.accesses = m.accesses := by
  have erased (n : Node) : n.accesses = { n with kind := n.kind.erased }.accesses := by
    obtain ⟨_, _, _, kind, operands, _, _, _, _⟩ := n
    cases kind
    case load => rcases operands with _ | ⟨_, _ | ⟨_, _⟩⟩ <;> rfl
    case store => rcases operands with _ | ⟨_, _ | ⟨_, _ | ⟨_, _⟩⟩⟩ <;> rfl
    all_goals rfl
  rw [erased n, erased m]
  simp only [hk, ho, accesses]

theorem mem_dataEdges {e : Edge} : e ∈ dataEdges nodes ↔
    ∃ n r, nodes[e.consumer]? = some n ∧ (e.access, r) ∈ n.accesses ∧
      resolve? nodes r = some e.producer := by
  obtain ⟨producer, access, consumer⟩ := e
  simp only [dataEdges, mem_flatMap, Prod.exists, mem_zipIdx_iff_getElem?, mem_filterMap,
    map_eq_some_iff, Edge.mk.injEq]
  constructor
  · rintro ⟨n, c, hn, a, r, hr, p, hp, rfl, rfl, rfl⟩
    exact ⟨n, r, hn, hr, hp⟩
  · rintro ⟨n, r, hn, hr, hp⟩
    exact ⟨n, consumer, hn, access, r, hr, producer, hp, rfl, rfl, rfl⟩

theorem mem_consumers {edges : List Edge} :
    c ∈ consumers edges access ↔ ∃ e ∈ edges, e.access = access ∧ e.consumer = c := by
  simp [consumers, mem_eraseDups, and_assoc]

theorem mem_users {j : NodeId} :
    c ∈ consumers ((dataEdges nodes).filter fun e => e.producer = j) access ↔
      ∃ n r, nodes[c]? = some n ∧ (access, r) ∈ n.accesses ∧ resolve? nodes r = some j := by
  simp only [mem_consumers, mem_filter, mem_dataEdges, decide_eq_true_eq]
  constructor
  · rintro ⟨⟨_, _, _⟩, ⟨⟨n, r, hn, hr, hj⟩, rfl⟩, rfl, rfl⟩
    exact ⟨n, r, hn, hr, hj⟩
  · rintro ⟨n, r, hn, hr, hj⟩
    exact ⟨⟨j, access, c⟩, ⟨⟨n, r, hn, hr, hj⟩, rfl⟩, rfl, rfl⟩

/-- Edges depend on what nodes are known by and on what they use. -/
theorem dataEdges_congr (hkeys : nodes'.map (·.key) = nodes.map (·.key))
    (haccesses : nodes'.map (·.accesses) = nodes.map (·.accesses)) :
    dataEdges nodes' = dataEdges nodes := by
  have hmap (l : List Node) : dataEdges l = (l.map (·.accesses)).zipIdx.flatMap fun e =>
      e.1.filterMap fun a => (resolve? l a.2).map (Edge.mk · a.1 e.2) := by
    rw [zipIdx_map, flatMap_map]
    rfl
  rw [hmap, hmap, haccesses]
  simp only [resolve?_congr hkeys]

/-! ## Graphs -/

/-- A node uses the result of another one. -/
def Graph.Uses (g : Graph) (access : Access) (consumer producer : NodeId) : Prop :=
  ∃ n r, g.nodes[consumer]? = some n ∧ (access, r) ∈ n.accesses ∧ g.resolve? r = some producer

/-- A graph in terms of a draft. -/
structure Shape (s : Setting) (f : Function) (g : Graph) (blocks : List Block) (nodes : List Node)
    (moved : List (BlockId × NodeId)) : Prop where
  function : g.function = f
  name : g.name = s.location.function
  drafted : DraftedBlocks s 0 0 0 f.blocks blocks nodes moved
  ids : g.blocks.map (·.id) = blocks.map (·.id)
  instructions : ∀ (i : Nat) (b : Block), g.blocks[i]? = some b → ∃ b₀, blocks[i]? = some b₀ ∧
    b.instructions = insertLate b₀.instructions (movedTo (blocks.map (·.id)) moved i)
  length : g.nodes.length = nodes.length
  nodes : ∀ (j : NodeId) (n : Node), g.nodes[j]? = some n → ∃ n₀, nodes[j]? = some n₀ ∧
    n.Refines n₀ ∧ (j ∉ moved.map Prod.snd → n.block = n₀.block) ∧
    ∀ id, (id, j) ∈ moved → home? (blocks.map (·.id)) id = some n.block
  kinds : ∀ (j : NodeId) (n : Node), g.nodes[j]? = some n →
    completeKind s.location g.blocks g.nodes n = .ok n.kind
  users : ∀ (j : NodeId) (n : Node), g.nodes[j]? = some n → ∀ c, (c ∈ n.loads ↔ g.Uses .load c j) ∧
    (c ∈ n.stores ↔ g.Uses .store c j) ∧ (c ∈ n.accessors ↔ g.Uses .other c j)
  successors : ∀ (i : Nat) (b : Block), g.blocks[i]? = some b →
    ∃ positions, b.Exits g.blocks g.nodes positions ∧ b.successors = positions.eraseDups
  predecessors : ∀ (i : Nat) (b : Block), g.blocks[i]? = some b → ∀ j, j ∈ b.predecessors ↔
    ∃ b', g.blocks[j]? = some b' ∧ i ∈ b'.successors
  ordered : ∀ (i : Nat) (b : Block), g.blocks[i]? = some b → b.predecessors.Pairwise (· < ·)

theorem Graph.make_shape {m : Module} {s : Setting} {f : Function} {g : Graph}
    (h : Graph.make m s f = .ok g) : ∃ blocks nodes moved, Shape s f g blocks nodes moved := by
  obtain ⟨⟨blocks, draft⟩, hadd, h⟩ := bind_eq_ok.mp h
  obtain ⟨⟨placed, nodes⟩, hplace, h⟩ := bind_eq_ok.mp h
  obtain ⟨linked, hlink, h⟩ := bind_eq_ok.mp h
  obtain ⟨nodes', hflow, h⟩ := bind_eq_ok.mp h
  obtain ⟨personality, -, h⟩ := bind_eq_ok.mp h
  cases h
  obtain ⟨drafted, moved, hd, hnodes, hmoved⟩ := addBlocks_drafted hadd
  rw [nil_append] at hnodes hmoved
  rw [hnodes, hmoved] at hplace
  have hnodup : (moved.map Prod.snd).Nodup :=
    (nodup_append.mp (hd.placed_once.nodup_iff.mpr nodup_range')).2.1
  obtain ⟨hids, hblocks⟩ := placeHoisted_blocks hplace
  obtain ⟨hlen, hplaced⟩ := placeHoisted_nodes hplace hnodup
  have hunlinked : ∀ b ∈ placed, b.successors = [] ∧ b.predecessors = [] := fun b hb => by
    obtain ⟨i, hi⟩ := getElem?_of_mem hb
    obtain ⟨b₀, hb₀, rfl⟩ := map_eq_some_iff.mp ((hblocks i).symm.trans hi)
    exact hd.unlinked b₀ (mem_of_getElem? hb₀)
  obtain ⟨targets, htargets, rfl⟩ := linkBlocks_spec hunlinked hlink
  have hlinked (i : Nat) : (withEdges (edgesOf targets) placed)[i]? = placed[i]?.map _ :=
    getElem?_mapIdx
  obtain ⟨hlen', hnodes'⟩ := analyzeDataFlow_spec hflow
  have hrefines (j : NodeId) (n' : Node) (hj : nodes'[j]? = some n') :
      ∃ n, nodes[j]? = some n ∧ n'.Refines n ∧ n'.block = n.block := by
    obtain ⟨n, kind, hn, hk, rfl⟩ := hnodes' j n' hj
    exact ⟨n, hn, ⟨rfl, rfl, rfl, rfl, completeKind_erased hk⟩, rfl⟩
  have hkeys : nodes'.map (·.key) = nodes.map (·.key) := map_eq_map_of_some hlen' fun j n' hj =>
    have ⟨n, hn, hr, _⟩ := hrefines j n' hj
    ⟨n, hn, hr.key⟩
  have haccesses : nodes'.map (·.accesses) = nodes.map (·.accesses) :=
    map_eq_map_of_some hlen' fun j n' hj =>
    have ⟨n, hn, hr, _⟩ := hrefines j n' hj
    ⟨n, hn, Node.accesses_congr hr.kind hr.operands⟩
  refine ⟨blocks, drafted, moved, rfl, rfl, hd, map_id_withEdges.trans hids, ?_, hlen'.trans hlen,
    ?_, ?_, ?_, ?_, ?_, ?_⟩
  · intro i b hb
    rw [hlinked, hblocks, Option.map_map] at hb
    obtain ⟨b₀, hb₀, rfl⟩ := map_eq_some_iff.mp hb
    exact ⟨b₀, hb₀, rfl⟩
  · intro j n' hj
    obtain ⟨n, hn, hr, hblock⟩ := hrefines j n' hj
    obtain ⟨n₀, hn₀, hn', hkeep, hmove⟩ := hplaced j n hn
    refine ⟨n₀, hn₀, ?_, by rw [hblock]; exact hkeep, by rw [hblock]; exact hmove⟩
    rw [hn'] at hr
    exact ⟨hr.key, hr.opcode, hr.operands, hr.resultType, hr.kind⟩
  · intro j n' hj
    obtain ⟨n, kind, hn, hk, rfl⟩ := hnodes' j n' hj
    exact completeKind_completed hkeys hk
  · intro j n' hj c
    obtain ⟨n, kind, hn, hk, rfl⟩ := hnodes' j n' hj
    rw [← dataEdges_congr hkeys haccesses]
    exact ⟨mem_users, mem_users, mem_users⟩
  · intro i b hb
    rw [hlinked] at hb
    obtain ⟨b₁, hb₁, rfl⟩ := map_eq_some_iff.mp hb
    obtain ⟨positions, hpositions, last, n, hl, hn, hterm, hp⟩ := forall₂_some_left htargets hb₁
    have hlast : last < nodes'.length := hlen' ▸ lt_of_getElem? hn
    obtain ⟨n', hn', hr, -⟩ := hrefines last nodes'[last] (getElem?_eq_getElem hlast)
    rw [hn] at hn'
    cases hn'
    refine ⟨positions, ⟨last, nodes'[last], hl, getElem?_eq_getElem hlast, hr.opcode ▸ hterm, ?_⟩,
      targetsOf_edgesOf hpositions⟩
    rw [← Kind.successors_erased, hr.kind, Kind.successors_erased]
    exact hp.imp fun id i hi => by rw [blockIndex?_congr map_id_withEdges, hi]
  · intro i b hb j
    rw [hlinked] at hb
    obtain ⟨b₁, -, rfl⟩ := map_eq_some_iff.mp hb
    refine mem_sourcesOf.trans ⟨fun hmem => ?_, ?_⟩
    · obtain ⟨positions, hpositions, -⟩ := mem_edgesOf.mp hmem
      obtain ⟨b', hb', -⟩ := forall₂_some_right htargets hpositions
      exact ⟨_, by rw [hlinked, hb', map_some], mem_targetsOf.mpr hmem⟩
    · rintro ⟨b', hb', hi⟩
      rw [hlinked] at hb'
      obtain ⟨b₁', -, rfl⟩ := map_eq_some_iff.mp hb'
      exact mem_targetsOf.mp hi
  · intro i b hb
    rw [hlinked] at hb
    obtain ⟨b₁, -, rfl⟩ := map_eq_some_iff.mp hb
    exact sourcesOf_ordered edgesOf_ordered

/-! ## Origins -/

variable {s : Setting} {f : Function} {g : Graph} {blocks : List Block} {nodes : List Node}
  {moved : List (BlockId × NodeId)} {j : NodeId}

section
variable (h : Shape s f g blocks nodes moved)
include h

theorem Shape.comesFrom (hn : g.nodes[j]? = some n) : n.ComesFrom s.resolver f.instructions := by
  obtain ⟨n₀, hn₀, hrefines, -⟩ := h.nodes j n hn
  exact hrefines.comesFrom (h.drafted.origin n₀ (mem_of_getElem? hn₀))

theorem Shape.block_ids : g.blocks.map (·.id) = f.blocks.map (·.id) :=
  h.ids.trans h.drafted.ids

theorem Shape.length_blocks : g.blocks.length = f.blocks.length := by
  simpa using congrArg List.length h.block_ids

/-- A phi takes one value from each predecessor of its block: the operand at the first place where
that block is named. -/
theorem Shape.incoming (hn : g.nodes[j]? = some n) {sources : List BlockId}
    {incoming : List (Nat × Ref)} (hk : n.kind = .phi sources incoming) :
    Forall₂ (fun i e => e.1 = i ∧
        ∃ k, sources.idxOf? (g.blocks[i]?.elim 0 (·.id)) = some k ∧ n.operands[k]? = some e.2)
      (g.blocks[n.block]?.elim [] (·.predecessors)) incoming := by
  have hkind := h.kinds j n hn
  rw [completeKind, hk] at hkind
  obtain ⟨incoming', hin, heq⟩ := map_eq_ok.mp hkind
  cases heq
  refine (mapM_eq_ok.mp hin).imp fun i e he => ?_
  dsimp only at he
  split at he
  · next r hr =>
    cases he
    exact ⟨rfl, bind_eq_some_iff.mp hr⟩
  · cases he

/-- A node computes an operation of the function. -/
theorem Shape.computes (hn : g.nodes[j]? = some n) :
    ∃ x ∈ f.operations, n.Computes s.resolver x := by
  rcases h.comesFrom hn with ⟨i, hi, -, hc⟩ | ⟨i, hi, x, hx, -, -, hc⟩
  · exact ⟨i.operation, mem_append_left _ (List.mem_map_of_mem hi), hc⟩
  · exact ⟨x, mem_append_right _ (mem_flatMap.mpr ⟨i, hi, hx⟩), hc⟩

end

end Stackify.Flow
