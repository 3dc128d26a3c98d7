import Stackify.Proofs.NodeOrder
import Stackify.Proofs.ValidCode

/-!
The code of a body, block by block.

The code of a block stands behind its label and is confined to the block (`Confined`): it ends with
a transfer, and it jumps only to labels in it and along edges of the graph. If no block ends with an
operation that the machine has no transfer for, the code of a body consists of such pieces
(`BodyCode.parted`). Control then stays in a block or follows an edge (`Parted.divided`).
-/

namespace Stackify.Code

open List

/-- The block at a position of code whose blocks begin at the labels below `count`: the last one
that begins there or above. -/
def blockAt (count : Nat) (ops : List Op) (pc : Nat) : Option Nat :=
  ((markedLabels (ops.take (pc + 1))).filter (· < count)).getLast?

/-- Pieces of code one behind the other, each with a label in front. -/
def joined (is : List Label) (codes : List (List Op)) : List Op := (is.zip codes).flatMap fun e =>
    .label e.1 :: e.2

variable {op : Op} {ops a b code : List Op} {codes : List (List Op)} {is : List Label} {l : Label}
  {count i k pc : Nat}

theorem markedLabels_joined {is : List Label} (h : is.length = codes.length) :
    (markedLabels (joined is codes)).Perm (is ++ codes.flatMap markedLabels) := by
  induction is generalizing codes with
  | nil =>
    obtain rfl : codes = [] := eq_nil_of_length_eq_zero h.symm
    exact .nil
  | cons i is ih =>
    cases codes with
    | nil => cases h
    | cons code codes =>
      have hstep : markedLabels (joined (i :: is) (code :: codes)) = i ::
          (markedLabels code ++ markedLabels (joined is codes)) := by
        simp [joined]
      rw [hstep, cons_append, flatMap_cons]
      refine .cons i (((ih (Nat.succ.inj h)).append_left _).trans ?_)
      exact (perm_append_comm_assoc _ _ _)

/-- The labels of blocks are all there, so that no other label is one of them. -/
theorem le_of_joined {count : Nat} (hlen : codes.length = count)
    (h : (markedLabels (joined (List.range count) codes)).Nodup) :
    ∀ l ∈ codes.flatMap markedLabels, count ≤ l := by
  have hlength : (List.range count).length = codes.length := by rw [length_range, hlen]
  obtain ⟨-, -, hapart⟩ := nodup_append.mp ((markedLabels_joined hlength).nodup_iff.mp h)
  exact fun l hl => Nat.le_of_not_lt fun hlt => hapart l (mem_range.mpr hlt) l hl rfl

theorem joined_split (hl : is[i]? = some l) (hcode : codes[i]? = some code) :
    ∃ a b, joined is codes = a ++ .label l :: (code ++ b) := by
  induction is generalizing codes i with
  | nil => simp at hl
  | cons first is ih =>
    cases codes with
    | nil => simp at hcode
    | cons firstCode codes =>
      have hstep : joined (first :: is) (firstCode :: codes) = .label first ::
          (firstCode ++ joined is codes) := rfl
      cases i with
      | zero =>
        cases hl
        cases hcode
        exact ⟨[], _, hstep⟩
      | succ i =>
        obtain ⟨a, b, h⟩ := ih hl hcode
        exact ⟨.label first :: (firstCode ++ a), b, by simp [hstep, h]⟩

theorem joined_head {α : Type} {parts : List (List Op × α)} (h : 0 < parts.length) :
    (joined (List.range parts.length) (parts.map Prod.fst))[0]? = some (.label 0) := by
  obtain ⟨part, rest, rfl⟩ := exists_cons_of_length_pos h
  rw [length_cons, range_succ_eq_map]
  rfl

/-- Behind the label of a block there is the block, as far as no other block begins. -/
theorem blockAt_eq_of_split (hops : ops = a ++ .label i :: (code ++ b)) (hi : i < count)
    (hcode : ∀ l ∈ markedLabels code, count ≤ l) (hk : k ≤ code.length) :
    blockAt count ops (a.length + k) = some i := by
  have htake : ops.take (a.length + k + 1) = a ++ .label i :: code.take k := by
    rw [hops, Nat.add_assoc, take_length_add_append, take_succ_cons, take_append_of_le_length hk]
  have hnone : (markedLabels (code.take k)).filter (· < count) = [] := by
    refine filter_eq_nil_iff.mpr fun l hl => ?_
    have hmem := mem_markedLabels.mpr (mem_of_mem_take (mem_markedLabels.mp hl))
    simpa using hcode l hmem
  rw [blockAt, htake, markedLabels_append, markedLabels_label, filter_append,
    filter_cons_of_pos (by simpa using hi), hnone, getLast?_concat]

/-- Every position of joined code is in one of the pieces. -/
theorem joined_at (ho : (joined is codes)[pc]? = some op) :
    ∃ (i : Nat) (l : Label) (code a b : List Op), is[i]? = some l ∧ codes[i]? = some code ∧
      joined is codes = a ++ .label l :: (code ++ b) ∧ a.length ≤ pc ∧
        pc ≤ a.length + code.length := by
  induction is generalizing codes pc with
  | nil => simp [joined] at ho
  | cons first is ih =>
    cases codes with
    | nil => simp [joined] at ho
    | cons code codes =>
      have hstep : joined (first :: is) (code :: codes) = .label first :: code ++ joined is codes :=
        rfl
      rcases Nat.lt_or_ge pc (code.length + 1) with hlt | hge
      · exact ⟨0, first, code, [], _, rfl, rfl, hstep, by simp, by simp; omega⟩
      · rw [hstep, getElem?_append_right hge] at ho
        obtain ⟨i, l, code', a, b, hi, hcode, hsplit, hle, hle'⟩ := ih ho
        rw [length_cons] at hle hle'
        refine ⟨i + 1, l, code', .label first :: code ++ a, b, hi,
          hcode, by rw [hstep, hsplit, append_assoc], ?_, ?_⟩
        all_goals
          simp only [length_append, length_cons]
          omega

/-- Code behind which control does not go on: it ends with a transfer, behind which there is at most
the end of a handler. -/
def Closed (rs : List Region) (ops : List Op) : Prop :=
  ∃ front op, op.isFinal = true ∧
    (ops = front ++ [op] ∨ ∃ r ∈ rs, ops = front ++ [op, .label r.handlerEnd])

/-- The same, with the way control leaves such code: out of a handler, or else by no `leave`. -/
def Sealed (rs : List Region) (ops : List Op) : Prop :=
  ∃ front op, op.isFinal = true ∧ (ops = front ++ [op] ∧ (∀ u, op ≠ .leave u) ∨
    (∃ r ∈ rs, ops = front ++ [op, .label r.handlerEnd]) ∧ ∃ u, op = .leave u)

variable {rs qs : List Region}

theorem Sealed.closed (h : Sealed rs ops) (hr : rs ⊆ qs) : Closed qs ops := by
  obtain ⟨front, op, hop, ⟨hops, -⟩ | ⟨⟨r, hmem, hops⟩, -⟩⟩ := h
  · exact ⟨front, op, hop, .inl hops⟩
  · exact ⟨front, op, hop, .inr ⟨r, hr hmem, hops⟩⟩

theorem Sealed.append_left (h : Sealed qs b) (a : List Op) (rs : List Region) :
    Sealed (rs ++ qs) (a ++ b) := by
  obtain ⟨front, op, hop, ⟨rfl, hleave⟩ | ⟨⟨r, hr, rfl⟩, hleave⟩⟩ := h
  · exact ⟨a ++ front, op, hop, .inl ⟨by simp, hleave⟩⟩
  · exact ⟨a ++ front, op, hop, .inr ⟨⟨r, mem_append_right _ hr, by simp⟩, hleave⟩⟩

theorem Sealed.last (h : Sealed rs ops) : ∃ front op, ops = front ++ [op] ∧ ∀ u, op ≠ .leave u := by
  obtain ⟨front, op, -, h | ⟨⟨r, -, rfl⟩, -⟩⟩ := h
  · exact ⟨front, op, h⟩
  · exact ⟨front ++ [op], .label r.handlerEnd, by simp, by simp⟩

/-- Control that comes to an operation from above, and goes on behind it, is not at the end. -/
theorem Sealed.lt_length (h : Sealed rs code) (ho : code[k]? = some op)
    (hfinal : op.isFinal = false) (habove : ∀ j u, k = j + 1 → code[j]? ≠ some (.leave u)) :
    k + 1 < code.length := by
  by_contra hk
  have hlt := lt_of_getElem? ho
  obtain ⟨front, op', hop, ⟨rfl, -⟩ | ⟨⟨r, -, rfl⟩, u, rfl⟩⟩ := h
  · obtain rfl : k = front.length := by simp at hlt hk; omega
    rw [getElem?_concat_length] at ho
    cases ho
    rw [hop] at hfinal
    cases hfinal
  · obtain rfl : k = front.length + 1 := by simp at hlt hk; omega
    exact habove front.length u rfl (by simp)

/-- The code of a block, behind its label. -/
structure Confined (count : Nat) (edge : Nat → Prop) (rs : List Region) (code : List Op) :
    Prop where
  sealed : Sealed rs code
  inner : ∀ l ∈ markedLabels code, count ≤ l
  jumps : ∀ op ∈ code, ∀ l ∈ op.targets, l < count ∧ edge l ∨ Enters code l
  regions : Stretches code rs

/-! ## Ways of control -/

/-- How a position in code changes: not at all, inside of a block, or by a jump to the label of a
block along an edge. -/
inductive Advances (count : Nat) (edge : Nat → Nat → Prop) (ops : List Op) (pc pc' : Nat) : Prop
  | stays (h : pc' = pc)
  | within (hblock : blockAt count ops pc' = blockAt count ops pc)
      (hlabel : ∀ l < count, ops[pc']? ≠ some (.label l))
  | enters {op : Op} {i j : Nat} (ho : ops[pc]? = some op) (hi : blockAt count ops pc = some i)
      (hj : j ∈ op.targets) (hlabel : ops[pc']? = some (.label j)) (hedge : edge i j)

/-- A position that control can be at: there is an operation, and none above that control leaves the
code with. -/
def Body.Open (b : Body) (pc : Nat) : Prop :=
  (∃ op, b.ops[pc]? = some op) ∧ ∀ u, b.ops[pc - 1]? ≠ some (.leave u)

/-- A body in which control stays in a block or follows an edge, and does not come out at the
end. -/
structure Body.Divided (count : Nat) (edge : Nat → Nat → Prop) (b : Body) : Prop where
  first : b.Open 0
  next : ∀ {pc op}, b.Open pc → b.ops[pc]? = some op → op.isFinal = false →
    b.Open (pc + 1) ∧ Advances count edge b.ops pc (pc + 1)
  jump : ∀ {pc pc' op l}, b.ops[pc]? = some op → l ∈ op.targets → b.ops[pc']? = some (.label l) →
    b.Open pc' ∧ Advances count edge b.ops pc pc'
  handle : ∀ r ∈ b.regions, ∀ {first last pc pc'}, position? b.ops r.tryStart = some first →
    position? b.ops r.tryEnd = some last → position? b.ops r.handlerStart = some pc' →
      first < pc → pc < last →
    b.Open pc' ∧ Advances count edge b.ops pc pc'

/-- A body that consists of the code of its blocks, which is confined. -/
structure Body.Parted (count : Nat) (edge : Nat → Nat → Prop) (parts : List (List Op × List Region))
    (b : Body) : Prop where
  labels : (markedLabels b.ops).Nodup
  length : parts.length = count
  ops : b.ops = joined (List.range count) (parts.map Prod.fst)
  regions : b.regions = parts.flatMap Prod.snd
  confined : ∀ i part, parts[i]? = some part → Confined count (edge i) part.2 part.1

/-- Where the code of a block stands. -/
structure Stands (count : Nat) (ops : List Op) (i : Nat) (code : List Op) (start : Nat) : Prop where
  op : ∀ k ≤ code.length, ops[start + k]? = (.label i :: code)[k]?
  block : ∀ k ≤ code.length, blockAt count ops (start + k) = some i

theorem Stands.of_split (hops : ops = a ++ .label i :: (code ++ b)) (hi : i < count)
    (hcode : ∀ l ∈ markedLabels code, count ≤ l) : Stands count ops i code a.length where
  op k hk := by
    rw [hops, getElem?_append_right (Nat.le_add_right _ _), Nat.add_sub_cancel_left, ← cons_append,
      getElem?_append_left (by simp; omega)]
  block k hk := blockAt_eq_of_split hops hi hcode hk

variable {body : Body} {edge : Nat → Nat → Prop} {parts : List (List Op × List Region)}
  {part : List Op × List Region} {start pc' : Nat}

/-- A label that is marked once, in the code of a block. -/
theorem Stands.label (hs : Stands count ops i code start) (hl : (markedLabels ops).Nodup)
    (ho : ops[pc]? = some (.label l)) (hcode : code = a ++ .label l :: b) :
    pc = start + (a.length + 1) := by
  have hat : ops[start + (a.length + 1)]? = some (.label l) := by
    rw [hs.op _ (by simp [hcode]), hcode]
    simp
  exact Option.some.inj ((position?_of_getElem? ho hl).symm.trans (position?_of_getElem? hat hl))

section
variable (h : body.Parted count edge parts)
include h

theorem Body.Parted.stands_at (ho : body.ops[pc]? = some op) :
    ∃ i part start k, parts[i]? = some part ∧ Stands count body.ops i part.1 start ∧
      pc = start + k ∧ k ≤ part.1.length := by
  rw [h.ops] at ho
  obtain ⟨i, l, code, a, b, hl, hcode, hsplit, hle, hle'⟩ := joined_at ho
  rw [getElem?_map] at hcode
  obtain ⟨part, hi, rfl⟩ := Option.map_eq_some_iff.mp hcode
  obtain ⟨hlt, rfl⟩ : i < count ∧ i = l := by simpa [getElem?_eq_some_iff] using hl
  exact ⟨i, part, a.length, pc - a.length, hi,
    .of_split (h.ops.trans hsplit) hlt (h.confined i part hi).inner, by omega, by omega⟩

/-- Control comes to a block only by jumps to its label. -/
theorem Body.Parted.open_block (hi : i < count) (ho : body.ops[pc]? = some (.label i)) :
    body.Open pc := by
  refine ⟨⟨_, ho⟩, fun u hu => ?_⟩
  obtain ⟨j, part, start, k, hj, hs, hpc, hk⟩ := h.stands_at hu
  have hc := h.confined j part hj
  have hpos : pc ≠ 0 := by
    rintro rfl
    cases ho.symm.trans hu
  rw [hpc, hs.op k hk] at hu
  rcases Nat.lt_or_ge k part.1.length with hlt | hge
  · rw [show pc = start + (k + 1) by omega, hs.op _ hlt, getElem?_cons_succ] at ho
    exact absurd (hc.inner i (mem_markedLabels.mpr (mem_of_getElem? ho))) (Nat.not_le.mpr hi)
  · obtain ⟨front, op, hlast, hop⟩ := hc.sealed.last
    rw [Nat.le_antisymm hk hge, hlast] at hu
    exact hop u (by simpa using hu)

/-- A jump inside of a block. -/
theorem Body.Parted.stay (hi : parts[i]? = some part) (hs : Stands count body.ops i part.1 start)
    (hl : Enters part.1 l) (ho : body.ops[pc']? = some (.label l))
    (hpc : blockAt count body.ops pc = some i) :
    body.Open pc' ∧ Advances count edge body.ops pc pc' := by
  have hinner := (h.confined i part hi).inner l hl.marked
  obtain ⟨a, op, b, hcode, hop⟩ := hl
  obtain rfl := hs.label h.labels ho (hcode.trans (append_cons a op _))
  refine ⟨⟨⟨_, ho⟩, fun u hu => ?_⟩, .within ?_ fun l' hl' ho' => ?_⟩
  · rw [length_append, show start + (a.length + [op].length + 1) - 1 =
      start + (a.length + 1) by simp, hs.op _ (by simp [hcode]), hcode] at hu
    exact hop u (by simpa using hu)
  · rw [hpc, hs.block _ (by simp [hcode])]
  · cases ho.symm.trans ho'
    omega

theorem Body.Parted.divided (hpos : 0 < count) : body.Divided count edge where
  first := by
    refine h.open_block hpos ?_
    rw [h.ops, ← h.length]
    exact joined_head (h.length ▸ hpos)
  next := by
    intro pc op hopen ho hfinal
    obtain ⟨i, part, start, k, hi, hs, rfl, hk⟩ := h.stands_at ho
    have hc := h.confined i part hi
    have hlt : k < part.1.length := by
      cases k with
      | zero =>
        obtain ⟨front, op, hlast, -⟩ := hc.sealed.last
        simp [hlast]
      | succ k =>
        refine hc.sealed.lt_length ((hs.op _ hk).symm.trans ho) hfinal ?_
        rintro j u rfl hu
        exact hopen.2 u ((hs.op (j + 1) (Nat.le_of_succ_le hk)).trans hu)
    obtain ⟨op', ho'⟩ : ∃ op', part.1[k]? = some op' := ⟨_, getElem?_eq_getElem hlt⟩
    have hat : body.ops[start + k + 1]? = some op' := (hs.op (k + 1) hlt).trans ho'
    refine ⟨⟨⟨op', hat⟩, fun u hu => ?_⟩, .within ?_ fun l hl hlabel => ?_⟩
    · cases ho.symm.trans hu
      cases hfinal
    · exact (hs.block (k + 1) hlt).trans (hs.block k hk).symm
    · cases hat.symm.trans hlabel
      exact absurd (hc.inner l (mem_markedLabels.mpr (mem_of_getElem? ho'))) (Nat.not_le.mpr hl)
  jump := by
    intro pc pc' op l ho hl ho'
    obtain ⟨i, part, start, k, hi, hs, rfl, hk⟩ := h.stands_at ho
    have hop : op ∈ part.1 := by
      rcases mem_cons.mp (mem_of_getElem? ((hs.op k hk).symm.trans ho)) with rfl | hop
      · cases hl
      · exact hop
    obtain ⟨hlt, hedge⟩ | henters := (h.confined i part hi).jumps op hop l hl
    · exact ⟨h.open_block hlt ho', .enters ho (hs.block k hk) hl ho' hedge⟩
    · exact h.stay hi hs henters ho' (hs.block k hk)
  handle := by
    intro r hr first last pc pc' hfirst hlast hhandler hlt hlt'
    rw [h.regions] at hr
    obtain ⟨part, hpart, hr⟩ := mem_flatMap.mp hr
    obtain ⟨i, hi⟩ := getElem?_of_mem hpart
    have hc := h.confined i part hi
    have hcount : i < count := h.length ▸ lt_of_getElem? hi
    obtain ⟨front, _, hsplit⟩ :=
      joined_split (getElem?_range hcount) (show (parts.map Prod.fst)[i]? =
        some part.1 by simp [hi])
    have hs := Stands.of_split (h.ops.trans hsplit) hcount hc.inner
    obtain ⟨a, b, d, e, hcode⟩ := hc.regions.mem hr
    have hcode' : part.1 = (a ++ .label r.tryStart :: b) ++ .label r.tryEnd ::
        .label r.handlerStart ::
      (d ++ .label r.handlerEnd :: e) := by simp [hcode]
    have hstart := hs.label h.labels (position?_label hfirst) hcode
    have hend := hs.label h.labels (position?_label hlast) hcode'
    have hlength := congrArg List.length hcode
    simp only [length_append, length_cons] at hend hlength
    have hblock := hs.block (pc - front.length) (by omega)
    rw [Nat.add_sub_cancel' (by omega)] at hblock
    exact h.stay hi hs ⟨_, .label r.tryEnd, _, hcode', by simp⟩ (position?_label hhandler) hblock

end

/-- Code without jumps that ends with a return. -/
theorem Body.Divided.of_straight (hops : body.ops = ops ++ [.ret])
    (h : ∀ op ∈ ops, op.isFinal = false ∧ op.targets = []) (hregions : body.regions = []) :
    body.Divided 0 edge := by
  have hleave (u : Label) : .leave u ∉ body.ops := by
    rw [hops]
    intro hu
    rcases mem_append.mp hu with hu | hu
    · cases (h _ hu).1
    · cases mem_singleton.mp hu
  have hopen {pc : Nat} (hpc : pc < body.ops.length) : body.Open pc :=
    ⟨⟨_, getElem?_eq_getElem hpc⟩, fun u hu => hleave u (mem_of_getElem? hu)⟩
  refine ⟨hopen (by simp [hops]), fun {pc op} _ ho hfinal =>
    ⟨hopen ?_, .within (by simp [blockAt]) (by simp)⟩, fun {pc _ op _} ho hl _ => ?_, by
      simp [hregions]⟩
  · have hlt := lt_of_getElem? ho
    by_contra hge
    obtain rfl : pc = ops.length := by simp [hops] at hlt hge; omega
    rw [hops, getElem?_concat_length] at ho
    cases ho
    cases hfinal
  · rcases mem_append.mp (hops ▸ mem_of_getElem? ho) with hop | hop
    · rw [(h op hop).2] at hl
      cases hl
    · cases mem_singleton.mp hop
      cases hl

end Stackify.Code

namespace Stackify.Ssa

/-- The machine has an operation for how each block ends: no jump to an address, and no call that
jumps. -/
structure Function.Direct (f : Function) : Prop where
  blocks : ∀ b ∈ f.blocks, ∀ x ∈ b.instructions.getLast?, x.opcode ≠ .indirectBr ∧
    x.opcode ≠ .callBr
  expressions : ∀ x ∈ f.expressions, x.opcode ≠ .indirectBr ∧ x.opcode ≠ .callBr

instance (f : Function) : Decidable f.Direct :=
  decidable_of_iff (_ ∧ _) ⟨fun ⟨hb, hx⟩ => ⟨hb, hx⟩, fun h => ⟨h.blocks, h.expressions⟩⟩

end Stackify.Ssa

namespace Stackify.Flow

open Ssa (Opcode)
open List

theorem Kind.isTransfer_erased (k : Kind) : k.erased.isTransfer = k.isTransfer := by
  cases k <;> rfl

variable {s : Setting} {f : Ssa.Function} {g : Graph} {blocks : List Block} {nodes : List Node}
  {moved : List (Ssa.BlockId × NodeId)} {i : Nat} {b : Block} {n : Node} {target : Ssa.BlockId}

/-- The last node of a block of a direct function is a transfer. -/
theorem Shape.last_transfer (h : Shape s f g blocks nodes moved) (hf : f.Direct) {last : NodeId}
    (hb : g.blocks[i]? = some b) (hlast : b.instructions.getLast? = some last)
    (hn : g.node? last = some n) : n.kind.isTransfer = true := by
  have ht : n.opcode.isTerminator = true := by
    obtain ⟨-, ⟨last', n', hlast', hn', ht, -⟩, -⟩ := h.successors i b hb
    cases hlast.symm.trans hlast'
    cases hn.symm.trans hn'
    exact ht
  obtain ⟨x, hc, hx⟩ : ∃ x, n.Computes s.resolver x ∧ x.opcode ≠ .indirectBr ∧
      x.opcode ≠ .callBr := by
    cases hkey : n.key.value? with
    | none =>
      rcases h.comesFrom hn with ⟨x, -, hk, -⟩ | ⟨x, hx, y, hy, -, -, hc⟩
      · rw [hk] at hkey
        cases hkey
      · exact ⟨y, hc, hf.expressions y (mem_flatMap.mpr ⟨x, hx, hy⟩)⟩
    | some v =>
      obtain ⟨b₀, hb₀, hall⟩ := h.in_order hb
      obtain ⟨x, hx, n', hn', -, hc⟩ :=
        Graph.last_instruction hall hlast (Graph.isInstruction_of_key hn hkey)
      cases hn.symm.trans hn'
      exact ⟨x.operation, hc, hf.blocks b₀ (mem_of_getElem? hb₀) x hx⟩
  rw [← Kind.isTransfer_erased]
  exact hc.fits.transfer (hc.opcode ▸ ht) hx.1 hx.2

/-- Control goes from one block to another: the one names the other where it ends, or in a
terminator further up. -/
def Graph.Leads (g : Graph) (i j : Nat) : Prop :=
  ∃ b, g.blocks[i]? = some b ∧
    (j ∈ b.successors ∨ ∃ id ∈ b.instructions.dropLast, ∃ n target, g.node? id = some n ∧
      n.opcode.isTerminator = true ∧ target ∈ n.kind.successors ∧ g.blockIndex? target = some j)

theorem Kind.terminator_of_successor {k : Kind} (h : target ∈ k.successors) :
    ∃ o, k.opcode? = some o ∧ o.isTerminator = true := by
  cases k with
  | branch | condBranch | switch | invoke | catchSwitch | catchRet | cleanupRet =>
    exact ⟨_, rfl, rfl⟩
  | _ => cases h

theorem Shape.leads (h : Shape s f g blocks nodes moved) {j : Nat} {id : NodeId}
    (hb : g.blocks[i]? = some b) (hid : id ∈ b.instructions) (hn : g.node? id = some n)
    (ht : target ∈ n.kind.successors) (hj : g.blockIndex? target = some j) : g.Leads i j := by
  refine ⟨b, hb, ?_⟩
  obtain ⟨positions, ⟨last, n', hlast, hn', -, hpositions⟩, hsuccessors⟩ := h.successors i b hb
  obtain ⟨init, hinit⟩ := getLast?_eq_some_iff.mp hlast
  rw [hinit, mem_append, mem_singleton] at hid
  rcases hid with hid | rfl
  · obtain ⟨x, -, hc⟩ := h.computes hn
    obtain ⟨o, ho, hterminator⟩ := Kind.terminator_of_successor ht
    refine .inr ⟨id, by rwa [hinit, dropLast_concat], n, target, hn, ?_, ht, hj⟩
    rw [hc.opcode, hc.opcode_of_kind rfl ho, hterminator]
  · cases hn.symm.trans hn'
    obtain ⟨k, hk⟩ := getElem?_of_mem ht
    obtain ⟨j', hj', hindex⟩ := forall₂_some_left hpositions hk
    cases hj.symm.trans hindex
    exact .inl (by rw [hsuccessors, mem_eraseDups]; exact mem_of_getElem? hj')

end Stackify.Flow

namespace Stackify.Lower

open Code (Op Const Label Region Body Sealed Confined Enters markedLabels)
open Stackify.Flow (Node NodeId Kind Block)
open Ssa (BlockId)
open List

namespace Context

/-- Every block ends with a transfer. -/
def Transferring (c : Context) : Prop :=
  ∀ (i : Nat) (b : Block) (last : NodeId) (n : Node), c.graph.blocks[i]? = some b →
    b.instructions.getLast? = some last → c.graph.node? last = some n → n.kind.isTransfer = true

variable {c : Context} {z : Surround} {pool : List Const} {i : Nat} {ops code : List Op}
  {rs : List Region} {id : NodeId} {n : Node} {s : Flow.Setting} {f : Ssa.Function}
  {blocks : List Block} {nodes : List Node} {moved : List (BlockId × NodeId)} {b : Block}
  {ids : List NodeId} {waiting : List Trampoline}

theorem ResultCode.not_transfer (hc : ResultCode c pool n ops) : n.kind.isTransfer = false := by
  cases hc with
  | same hk => rcases hk with hk | hk <;> rw [hk] <;> rfl
  | whole hk | load hk | unary hk | binary hk | intCompare hk | floatCompare hk
  | convert hk | vaArg hk
  | address hk => rw [hk]; rfl

/-- The code of a transfer ends with one. -/
theorem NodeCode.sealed (hc : NodeCode c z id n ops rs) (ht : n.kind.isTransfer = true) :
    Sealed rs ops := by
  have no {k : Kind} (hk : n.kind = k) (hfalse : k.isTransfer = false) : Sealed rs ops := by
    rw [hk, hfalse] at ht
    cases ht
  cases hc with
  | result hq =>
    rw [hq.not_transfer] at ht
    cases ht
  | alloca hk | noLocal hk | phi hk | generic hk | storeWhole hk | store hk | select hk | call hk =>
    exact no hk rfl
  | pad hk => rcases hk with hk | hk | hk <;> exact no hk rfl
  | @invoke _ _ _ _ q _ _ _ _ _ hq =>
    obtain ⟨j, q', -, -, rfl⟩ := hq
    exact ⟨q ++ q', .branch j, rfl, .inl ⟨by simp, by simp⟩⟩
  | @guarded _ _ _ _ u x label tryStart tryEnd handlerStart handlerEnd p q =>
    refine ⟨p ++ .label tryStart ::
      (q ++ [.leave label, .label tryEnd, .label handlerStart, .storeLocal x]), .leave u, rfl,
        .inr ⟨⟨_, mem_singleton.mpr rfl, by simp⟩, u, rfl⟩⟩
  | jump _ hq =>
    obtain ⟨j, q', -, -, rfl⟩ := hq
    exact ⟨q', .branch j, rfl, .inl ⟨rfl, by simp⟩⟩
  | @condBranch _ _ _ _ label p q _ _ _ _ hq =>
    obtain ⟨j, q', -, -, rfl⟩ := hq
    exact ⟨p ++ .branchTrue label :: q', .branch j, rfl, .inl ⟨by simp, by simp⟩⟩
  | switch | ret => exact ⟨_, _, rfl, .inl ⟨rfl, by simp⟩⟩
  | retVoid | unreachable => exact ⟨[], _, rfl, .inl ⟨rfl, by simp⟩⟩
  | @rethrow x => exact ⟨[.loadLocal x], .throw, rfl, .inl ⟨rfl, by simp⟩⟩

theorem NodesCode.sealed (hshape : Flow.Shape s f c.graph blocks nodes moved) (ht : c.Transferring)
    (hb : c.graph.blocks[i]? = some b) (hids : ids <:+ b.instructions) (hne : ids ≠ [])
    (hc : NodesCode c z ids ops rs) : Sealed rs ops := by
  induction hc with
  | nil => exact absurd rfl hne
  | @skip id ids _ _ hn =>
    obtain ⟨n, hn', -⟩ := hshape.placed hb (hids.subset mem_cons_self)
    cases hn.symm.trans hn'
  | @cons id n ids q q' qs qs' hn hq hq' ih =>
    cases ids with
    | nil =>
      cases hq'
      obtain ⟨before, hbefore⟩ := hids
      rw [append_nil, append_nil]
      exact hq.sealed (ht _ b id n hb (by rw [← hbefore, getLast?_concat]) hn)
    | cons next ids => exact (ih ((suffix_cons _ _).trans hids) (by simp)).append_left q qs

/-- Trampolines are closed, and control comes to them only by jumps. -/
theorem trampolines_sealed (hc : Concat (TrampolineCode c pool) waiting ops) {p : List Op}
    (hp : Sealed rs p) : Sealed rs (p ++ ops) ∧ ∀ t ∈ waiting, Enters (p ++ ops) t.label := by
  induction hc generalizing p with
  | nil => exact ⟨by rwa [append_nil], forall_mem_nil _⟩
  | @cons t _ _ _ ht _ ih =>
    obtain ⟨q, -, rfl⟩ := ht
    obtain ⟨hsealed, henters⟩ := ih (p := p ++ .label t.label :: (q ++ [.branch t.target]))
      ⟨p ++ .label t.label :: q, .branch t.target, rfl, .inl ⟨by simp, by simp⟩⟩
    rw [append_assoc] at hsealed henters
    obtain ⟨front, op, rfl, hop⟩ := hp.last
    exact ⟨hsealed, forall_mem_cons.mpr ⟨⟨front, op, _, by simp; rfl, hop⟩, henters⟩⟩

theorem BlockCode.confined (hshape : Flow.Shape s f c.graph blocks nodes moved)
    (ht : c.Transferring) (hb : c.graph.blocks[i]? = some b)
    (hc : BlockCode c z i b (.label i :: code) rs)
    (hinner : ∀ l ∈ markedLabels code, c.graph.blocks.length ≤ l) :
    Confined c.graph.blocks.length (c.graph.Leads i) rs code := by
  obtain ⟨waiting, p, q, hwaiting, hp, hq, hcode⟩ := hc
  cases hcode
  have leads {j : Nat} (h : c.Targets b.instructions j) : j < c.graph.blocks.length ∧
      c.graph.Leads i j := by
    obtain ⟨id, hid, n, hn, target, htarget, hj⟩ := h
    exact ⟨blockIndex?_lt hj, hshape.leads hb hid hn htarget hj⟩
  obtain ⟨hsealed, henters⟩ :=
    trampolines_sealed hq (hp.sealed hshape ht hb (suffix_refl _) (hshape.nonempty hb))
  refine ⟨hsealed, hinner, forall_mem_append.mpr ⟨fun op hop l hl => ?_, hq.forall_op ?_⟩, ?_⟩
  · obtain hl | hl | hl := hp.jumps op hop l hl
    · exact .inr (hl.append_right q)
    · exact .inl (leads hl)
    · obtain ⟨t, ht, rfl⟩ := List.mem_map.mp hl
      exact .inr (henters t ht)
  · rintro t ht _ ⟨r, hr, rfl⟩
    refine forall_mem_cons.mpr ⟨forall_mem_nil _, forall_mem_append.mpr ⟨fun op hop => ?_, ?_⟩⟩
    · simp [(hr.straight op hop).targets]
    · exact forall_mem_singleton.mpr (forall_mem_singleton.mpr (.inl (leads (hwaiting t ht).2)))
  · simpa using hp.stretches.append (.nil q)

/-- Blocks stand one behind the other, each with its label in front. -/
theorem BlocksCode.parts {bs : List (Block × Nat)} (hc : BlocksCode c z bs ops rs) :
    ∃ parts : List (List Op × List Region), Forall₂ (fun e part =>
      BlockCode c z e.2 e.1 (.label e.2 :: part.1) part.2) bs parts ∧
        ops = Code.joined (bs.map Prod.snd) (parts.map Prod.fst) ∧ rs = parts.flatMap Prod.snd := by
  induction hc with
  | nil => exact ⟨[], .nil, rfl, rfl⟩
  | @cons _ _ _ _ _ rs _ hfirst _ ih =>
    obtain ⟨parts, hparts, rfl, rfl⟩ := ih
    obtain ⟨code, rfl, -⟩ := hfirst.stretches
    exact ⟨(code, rs) :: parts, .cons hfirst hparts, rfl, rfl⟩

end Context

variable {c : Context} {pool : List Const} {b : Body}

/-- A body is the code of its blocks, in order, and no label in a block is that of another one. -/
theorem BodyCode.parts (hc : BodyCode c pool b) :
    ∃ (exception : Option Nat) (parts : List (List Op × List Region)), parts.length =
      c.graph.blocks.length ∧ b.ops = Code.joined (List.range c.graph.blocks.length)
        (parts.map Prod.fst) ∧ b.regions = parts.flatMap Prod.snd ∧
      ∀ (i : Nat) part, parts[i]? = some part → (∃ block, c.graph.blocks[i]? = some block ∧
        c.BlockCode ⟨pool, [], exception⟩ i block (.label i :: part.1) part.2) ∧
          ∀ l ∈ markedLabels part.1, c.graph.blocks.length ≤ l := by
  obtain ⟨exception, -, hblocks⟩ := hc.blocks
  obtain ⟨parts, hparts, hops, hregions⟩ := hblocks.parts
  have hlen : parts.length = c.graph.blocks.length := by rw [← hparts.length_eq, length_zipIdx]
  rw [zipIdx_map_snd, ← range_eq_range'] at hops
  have hlt := Code.le_of_joined (by rw [length_map, hlen]) (hops ▸ hc.labels)
  refine ⟨exception, parts, hlen, hops, hregions, fun i part hi => ⟨?_, fun l hl => ?_⟩⟩
  · obtain ⟨e, he, hcode⟩ := forall₂_some_right hparts hi
    obtain ⟨block, hblock, rfl⟩ : ∃ block, c.graph.blocks[i]? = some block ∧ e = (block, i) := by
      simpa [getElem?_zipIdx, Option.map_eq_some_iff, eq_comm] using he
    exact ⟨block, hblock, hcode⟩
  · exact hlt l (mem_flatMap.mpr ⟨part.1, List.mem_map_of_mem (mem_of_getElem? hi), hl⟩)

theorem BodyCode.parted {s : Flow.Setting} {f : Ssa.Function} {blocks : List Block}
    {nodes : List Node} {moved : List (BlockId × NodeId)} (hc : BodyCode c pool b)
    (hshape : Flow.Shape s f c.graph blocks nodes moved) (ht : c.Transferring) :
    ∃ parts, b.Parted c.graph.blocks.length c.graph.Leads parts := by
  obtain ⟨exception, parts, hlen, hops, hregions, hparts⟩ := hc.parts
  refine ⟨parts, hc.labels, hlen, hops, hregions, fun i part hi => ?_⟩
  obtain ⟨⟨block, hblock, hcode⟩, hinner⟩ := hparts i part hi
  exact hcode.confined hshape ht hblock hinner

end Stackify.Lower
