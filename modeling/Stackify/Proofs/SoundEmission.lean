import Stackify.Proofs.Heights
import Stackify.Proofs.Lowered

/-!
Emitted code is well-formed.

What operations name by an index exists (`BlocksCode.inRange`), and the labels that they refer to
are marked in the code or belong to blocks (`BlocksCode.targets`).
-/

namespace Stackify.Lower

open Code (Op Const Label Enters markedLabels)
open Stackify.Flow (Graph Node NodeId)
open List

/-! ## Indices -/

/-- What an operation names exists, in code with so many arguments, constants and locals. -/
def Declared.InRange (d : Declared) (args consts locals : Nat) : Op → Prop
  | .loadConst i => i < consts
  | .loadLocal i | .storeLocal i | .loadLocalAddress i | .initLocal i => i < locals
  | .loadArg i => i < args
  | .loadStaticAddress i => i < d.statics.length
  | .loadMethodPointer i => i < d.methods.length
  | .fieldAddress id f => ∃ r, d.resolver.records[id]? = some r ∧ f < r.fields.length
  | .call i n => ∃ e, d.methods[i]? = some e ∧ e.type.argSlots = n
  | .callService s n => s.arity = n
  | _ => True

theorem Declared.InRange.mono {d : Declared} {args consts consts' locals : Nat} {op : Op}
    (h : d.InRange args consts locals op) (hc : consts ≤ consts') :
    d.InRange args consts' locals op := by
  cases op with
  | loadConst i => exact Nat.lt_of_lt_of_le h hc
  | _ => exact h

/-- What declaration and graph construction see to: that whatever names lead to exists. -/
structure Context.Grounded (c : Context) : Prop where
  statics : ∀ name i, c.declared.staticIndex? name = some i → i < c.declared.statics.length
  methods : ∀ name e, c.declared.method? name = some e → c.declared.methods[e.index]? = some e
  fields : ∀ (id : NodeId) (n : Node), c.graph.node? id = some n →
    ∀ path ty, n.kind = .getElementPtr path ty → ∀ record i, .field record i ∈ path →
      ∃ r, c.declared.resolver.records[record]? = some r ∧ i < r.fields.length

namespace Context

variable {c : Context} {z : Surround} {locals : Nat} {op : Op} {ops : List Op}
  {rs : List Code.Region} {pool : List Const} {n : Node} {labels : List Label}
  {blocks : List (Flow.Block × Nat)} {l : Label}

theorem Straight.inRange (h : c.Straight pool op) (hc : c.Grounded)
    (hs : ∀ id i, c.slot id = .inLocal i → i < locals) :
    c.declared.InRange c.argSlots pool.length locals op := by
  have hnames := h.names
  cases op with
  | loadConst i | loadArg i => exact hnames
  | loadLocal i | storeLocal i | loadLocalAddress i | initLocal i =>
    obtain ⟨id, hi⟩ := hnames
    exact hs id i hi
  | loadStaticAddress i =>
    obtain ⟨name, hi⟩ := hnames
    exact hc.statics name i hi
  | loadMethodPointer i =>
    obtain ⟨name, e, he, rfl⟩ := hnames
    exact lt_of_getElem? (hc.methods name e he)
  | fieldAddress record i =>
    obtain ⟨id, n, path, ty, hn, hk, hmem⟩ := hnames
    exact hc.fields id n hn path ty hk record i hmem
  | call | callService => cases h.straight
  | _ => trivial

theorem NodeOp.inRange (h : NodeOp c z n labels op) (hc : c.Grounded)
    (hs : ∀ id i, c.slot id = .inLocal i → i < locals) (hx : ∀ i, z.exception = some i →
      i < locals) : c.declared.InRange c.argSlots z.consts.length locals op := by
  cases h with
  | straight h => exact h.inRange hc hs
  | @method e h =>
    obtain ⟨name, _, -, he, h⟩ | ⟨_, _, _, _, _, h⟩ | h := callTarget_eq_ok h.1 <;> cases h
    exact ⟨e, hc.methods name e he, rfl⟩
  | service => exact rfl
  | caught h => exact hx _ h
  | raised h => exact hx _ h
  | indirect | label | throw => trivial
  | ends h => rcases h with rfl | rfl <;> trivial
  | jump h =>
    cases op with
    | branch | branchTrue | branchFalse | switchValue | leave => trivial
    | _ => cases h

/-- What the operations of a body name exists. -/
theorem BlocksCode.inRange (h : BlocksCode c z blocks ops rs) (hc : c.Grounded)
    (hs : ∀ id i, c.slot id = .inLocal i → i < locals) (hx : ∀ i, z.exception = some i →
      i < locals) :
    ∀ op ∈ ops, c.declared.InRange c.argSlots z.consts.length locals op :=
  h.forall_op (fun _ => trivial) (fun _ => trivial) (fun _ h => h.inRange hc hs)
    fun _ _ _ _ _ _ h => h.inRange hc hs hx

/-! ## Labels -/

theorem Straight.targets (h : c.Straight pool op) : op.targets = [] := by
  have hs := h.straight
  cases op with
  | branch | branchTrue | branchFalse | switchValue | leave => cases hs
  | _ => rfl

theorem NodeOp.targets (h : NodeOp c z n labels op) :
    ∀ l ∈ op.targets, n.kind = .select ∧ l ∈ labels ∨ c.Outside z n l := by
  cases h with
  | straight h => simp [h.targets]
  | jump _ h => exact h
  | ends h => rcases h with rfl | rfl <;> simp [Op.targets]
  | _ => simp [Op.targets]

/-- Nodes jump to labels in their own code, to blocks that they name, and to trampolines. -/
theorem NodesCode.jumps {ids : List NodeId} (h : NodesCode c z ids ops rs) :
    ∀ op ∈ ops, ∀ l ∈ op.targets, Enters ops l ∨ c.Targets ids l ∨
      l ∈ z.trampolines.map Trampoline.label := by
  induction h with
  | nil => exact forall_mem_nil _
  | skip _ _ ih =>
    exact fun op hop l hl =>
      (ih op hop l hl).imp_right (.imp_left fun h => h.mono (subset_cons_self _ _))
  | @cons id n _ p q _ _ hn hp _ ih =>
    refine forall_mem_append.mpr ⟨fun op hop l hl => ?_, fun op hop l hl => ?_⟩
    · obtain ⟨labels, henters, -, hops⟩ := hp.nodeOps hn
      obtain ⟨hk, hl⟩ | ⟨target, ht, hl⟩ | hl := (hops op hop).targets l hl
      · exact .inl ((henters hk l hl).append_right q)
      · exact .inr (.inl ⟨id, mem_cons_self, n, hn, target, ht, hl⟩)
      · exact .inr (.inr hl)
    · exact (ih op hop l hl).imp (·.append_left p) (.imp_left fun h =>
        h.mono (subset_cons_self _ _))

theorem trampolines_marked {waiting : List Trampoline}
    (h : Concat (TrampolineCode c pool) waiting ops) :
    markedLabels ops = waiting.map Trampoline.label := by
  induction h with
  | nil => rfl
  | cons ht _ ih =>
    obtain ⟨p, hp, rfl⟩ := ht
    simp [Code.markedLabels_eq_nil fun op hop => (hp.straight op hop).ne_label, ih]

/-- Labels that a body jumps to belong to blocks or are marked in it. -/
theorem BlocksCode.targets (h : BlocksCode c z blocks ops rs) :
    ∀ op ∈ ops, ∀ l ∈ op.targets, l < c.graph.blocks.length ∨ l ∈ markedLabels ops := by
  induction h with
  | nil => exact forall_mem_nil _
  | cons hb _ ih =>
    obtain ⟨waiting, p, q, hw, hp, hq, rfl⟩ := hb
    refine forall_mem_append.mpr ⟨forall_mem_cons.mpr ⟨forall_mem_nil _,
      forall_mem_append.mpr ⟨fun op hop l hl => ?_, ?_⟩⟩, fun op hop l hl =>
        (ih op hop l hl).imp_right fun h => by simp [h]⟩
    · obtain hl | hl | hl := hp.jumps op hop l hl
      · exact .inr (by simp [hl.marked])
      · exact .inl hl.lt
      · exact .inr (by simp [trampolines_marked hq, hl])
    · refine hq.forall_op ?_
      rintro t ht _ ⟨r, hr, rfl⟩
      refine forall_mem_cons.mpr ⟨forall_mem_nil _, forall_mem_append.mpr ⟨fun op hop => ?_, ?_⟩⟩
      · simp [(hr.straight op hop).targets]
      · exact forall_mem_singleton.mpr (forall_mem_singleton.mpr (.inl (hw t ht).2.lt))

end Context

end Stackify.Lower
