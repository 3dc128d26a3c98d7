import Stackify.Proofs.NodeCode
import Stackify.Proofs.Placement

/-!
Where results live.

Every node that gets a local gets one of its own (`assignSlots_spec`, `slot_inj`). A result stays on
the stack only for the node that comes next in its block, which takes it as its first operand and
has no other operand from the stack (`ready`).
-/

namespace Stackify.Flow

open List

/-! ## Operands of address computations -/

/-- A step that reads one of the given operands, or selects a field that its aggregate has. -/
inductive AddressStep.Selects (r : Resolve.Resolver) (indices : List Ref) : AddressStep → Prop
  | stride {ty : Ssa.Ty} {index : Ref} : index ∈ indices → Selects r indices (.stride ty index)
  | element {ty : Ssa.Ty} {index : Ref} : index ∈ indices → Selects r indices (.element ty index)
  | field {ty : Ssa.Ty} {a : Resolve.Aggregate} {i : Nat} :
      r.aggregate? ty = some a → i < a.fields.length → Selects r indices (.field a.record i)

variable {r : Resolve.Resolver} {ty target : Ssa.Ty} {index : Ref} {rest indices : List Ref}
  {path : List AddressStep} {step : AddressStep} {n : Node} {x : Ssa.Operation}

theorem field_selects {a : Resolve.Aggregate} {n : Int} (ha : r.aggregate? ty = some a)
    (h : (match if n < 0 then none else a.fields[n.toNat]? with
      | some field => Except.ok (AddressStep.field a.record n.toNat, field)
      | none =>
        .error (Defect.fieldIndexOutOfRange a.name n a.fields.length)) = .ok (step, target)) :
    step.Selects r indices := by
  split at h
  · next field hfield =>
    cases h
    split at hfield
    · cases hfield
    · exact .field ha (lt_of_getElem? hfield)
  · cases h

theorem descend_selects (h : descend r ty index = .ok (step, target)) (hi : index ∈ indices) :
    step.Selects r indices := by
  unfold descend at h
  split at h
  · split at h
    · cases h
    · next a ha =>
      split at h
      · cases h
      · exact field_selects ha h
  · split at h
    · cases h
    · next a ha =>
      split at h
      · cases h
      · exact field_selects ha h
  · cases h
    exact .element hi
  · cases h
    exact .element hi
  · cases h

theorem descendAll_selects (h : descendAll r ty rest = .ok (path, target)) (hi : rest ⊆ indices) :
    ∀ step ∈ path, step.Selects r indices := by
  induction rest generalizing ty path with
  | nil =>
    cases h
    exact forall_mem_nil _
  | cons index rest ih =>
    obtain ⟨⟨step, part⟩, hstep, h⟩ := bind_eq_ok.mp h
    obtain ⟨⟨steps, target'⟩, hrest, h⟩ := bind_eq_ok.mp h
    cases h
    obtain ⟨hindex, hi⟩ := cons_subset.mp hi
    exact forall_mem_cons.mpr ⟨descend_selects hstep hindex, ih hrest hi⟩

theorem addressPath_selects (h : addressPath r ty indices = .ok (path, target)) :
    ∀ step ∈ path, step.Selects r indices := by
  cases indices with
  | nil =>
    cases h
    exact forall_mem_nil _
  | cons first rest =>
    obtain ⟨⟨steps, target'⟩, hrest, h⟩ := bind_eq_ok.mp h
    cases h
    exact forall_mem_cons.mpr ⟨.stride mem_cons_self,
      descendAll_selects hrest (subset_cons_self _ _)⟩

theorem Node.Computes.address_source (hc : n.Computes r x)
    (hk : n.kind = .getElementPtr path target) : ∃ ty inbounds, x.info = .gep ty inbounds ∧
      addressPath r ty n.operands.tail = .ok (path, target) :=
  hc.fits.of_address path target (by rw [hk]; rfl)

/-- What an address computation reads are its operands. -/
theorem Node.Computes.address_operand (hc : n.Computes r x)
    (hk : n.kind = .getElementPtr path target) :
    ∀ step ∈ path, ∀ i, step.index? = some i → i ∈ n.operands := by
  intro step hs i hi
  obtain ⟨ty, -, -, hpath⟩ := hc.address_source hk
  refine mem_of_mem_tail ?_
  cases addressPath_selects hpath step hs with
  | stride hmem | element hmem =>
    cases hi
    exact hmem
  | field => cases hi

end Stackify.Flow

namespace Stackify.Lower

open Code (Ty)
open Stackify.Flow (Graph Node NodeId Ref Shape Setting Kind)
open Ssa (BlockId Function)
open List Option

/-! ## Assignment -/

def Slot.local? : Slot → Option Nat
  | .inLocal i => some i
  | .nowhere | .onStack => none

variable {d : Declared} {g : Graph}

/-- The slot of a node, by whether it gets a local. -/
def SlotFor (d : Declared) (g : Graph) (locals : List Ty) (id : NodeId) (n : Node)
    (slot : Slot) : Prop :=
  slotOrLocal g id n = some slot ∨
    slotOrLocal g id n = none ∧ ∃ i ty, slot = .inLocal i ∧ localType d g n = .ok ty ∧
      locals[i]? = some ty

theorem slotOrLocal_ne_inLocal {id : NodeId} {n : Node} {i : Nat} :
    slotOrLocal g id n ≠ some (.inLocal i) := by
  unfold slotOrLocal
  split
  · simp
  · split
    · simp
    · simp
    · split <;> simp
    · split
      · simp
      · split <;> simp

theorem assignFrom_spec {first : NodeId} {locals locals' : List Ty} {nodes : List Node}
    {slots : List Slot} (h : assignFrom d g first locals nodes = .ok (slots, locals')) :
    locals <+: locals' ∧
      Forall₂ (fun n slot => SlotFor d g locals' n.2 n.1 slot) (nodes.zipIdx first) slots ∧
      slots.filterMap Slot.local? = range' locals.length (locals'.length - locals.length) := by
  induction nodes generalizing first locals slots with
  | nil =>
    cases h
    exact ⟨prefix_rfl, .nil, by simp⟩
  | cons n rest ih =>
    rw [assignFrom] at h
    split at h
    · next slot hslot =>
      obtain ⟨⟨slots', locals₁⟩, hrest, h⟩ := bind_eq_ok.mp h
      cases h
      obtain ⟨hextends, hslots, hlocals⟩ := ih hrest
      refine ⟨hextends, .cons (.inl hslot) hslots, ?_⟩
      rw [filterMap_cons_none, hlocals]
      cases slot with
      | inLocal i => exact absurd hslot slotOrLocal_ne_inLocal
      | _ => rfl
    · next hslot =>
      obtain ⟨ty, hty, h⟩ := bind_eq_ok.mp h
      obtain ⟨⟨slots', locals₁⟩, hrest, h⟩ := bind_eq_ok.mp h
      cases h
      obtain ⟨hextends, hslots, hlocals⟩ := ih hrest
      have hlen := hextends.length_le
      rw [length_append, length_singleton] at hlen hlocals
      refine ⟨(prefix_append _ _).trans hextends,
        .cons (.inr ⟨hslot, locals.length, ty, rfl, hty, ?_⟩) hslots, ?_⟩
      · obtain ⟨more, rfl⟩ := hextends
        simp
      · rw [filterMap_cons_some (show Slot.local? (.inLocal _) = some _ from rfl), hlocals]
        obtain ⟨k, hk⟩ := Nat.exists_eq_add_of_le hlen
        rw [hk, show locals.length + 1 + k - locals.length = k + 1 by omega, range'_succ]
        simp

/-- The slots of a graph's nodes; no two of them are the same local. -/
theorem assignSlots_spec {slots : List Slot} {locals : List Ty}
    (h : assignSlots d g = .ok (slots, locals)) :
    Forall₂ (fun n slot => SlotFor d g locals n.2 n.1 slot) g.nodes.zipIdx slots ∧
      (slots.filterMap Slot.local?).Nodup := by
  obtain ⟨-, hslots, hlocals⟩ := assignFrom_spec h
  exact ⟨hslots, hlocals ▸ nodup_range'⟩

namespace Context

/-! ## Results on the stack -/

/-- What a node leaves on the stack for the next one. -/
def leaves (c : Context) (id : NodeId) : Nat := if c.slot id = .onStack then 1 else 0

/-- A reference names a result that is on the stack. -/
def Stacked (c : Context) (r : Ref) (id : NodeId) : Prop :=
  c.param? r = none ∧ c.graph.resolve? r = some id ∧ c.slot id = .onStack

/-- The operands of a node fit a stack with so many results for it: one of them is its first
operand, and no other operand is on the stack. -/
inductive Ready (c : Context) (n : Node) : Nat → Prop
  | empty : (∀ r ∈ n.operands, ∀ id, ¬ Stacked c r id) → Ready c n 0
  | first {r : Ref} {rest : List Ref} {id : NodeId} :
      n.kind.firstOperand? = some 0 → n.operands = r :: rest → Stacked c r id →
        (∀ r ∈ rest, ∀ id, ¬ Stacked c r id) → Ready c n 1

variable {c : Context} {locals : List Ty} {id j : NodeId} {n : Node} {i target : Nat} {r : Ref}
  {l before after : List NodeId} {b : Flow.Block} {sources : List BlockId}
  {incoming : List (Nat × Ref)}

section
variable (h : assignSlots c.declared c.graph = .ok (c.slots, locals))
include h

theorem slotFor (hn : c.graph.node? id = some n) :
    SlotFor c.declared c.graph locals id n (c.slot id) := by
  have hz : c.graph.nodes.zipIdx[id]? = some (n, id) := by
    rw [getElem?_zipIdx, show c.graph.nodes[id]? = some n from hn]
    simp
  obtain ⟨slot, hs, hfor⟩ := forall₂_some_left (assignSlots_spec h).1 hz
  have hslot : c.slot id = slot := by simp [Context.slot, getD_eq_getElem?_getD, hs]
  rw [hslot]
  exact hfor

/-- A slot that is not `nowhere` belongs to a node. -/
theorem exists_node (hs : c.slot id ≠ .nowhere) : ∃ n, c.graph.node? id = some n := by
  cases hn : c.graph.nodes[id]? with
  | some n => exact ⟨n, hn⟩
  | none =>
    have hz : c.graph.nodes.zipIdx[id]? = none := by rw [getElem?_zipIdx, hn]; rfl
    have := forall₂_none_left (assignSlots_spec h).1 hz
    simp [Context.slot, getD_eq_getElem?_getD, this] at hs

theorem slot_lt (hs : c.slot id = .inLocal i) : i < locals.length := by
  obtain ⟨n, hn⟩ := exists_node h (by rw [hs]; simp)
  rcases slotFor h hn with hslot | ⟨-, j, ty, hj, -, hlocal⟩
  · rw [hs] at hslot
    exact absurd hslot slotOrLocal_ne_inLocal
  · rw [hs] at hj
    cases hj
    exact lt_of_getElem? hlocal

/-- No two nodes have the same local. -/
theorem slot_inj (hs : c.slot id = .inLocal i) (hs' : c.slot j = .inLocal i) : id = j := by
  have some_of {id : NodeId} (hs : c.slot id = .inLocal i) : c.slots[id]? = some (.inLocal i) := by
    rw [Context.slot, getD_eq_getElem?_getD] at hs
    cases hid : c.slots[id]? with
    | none => simp [hid] at hs
    | some slot => simpa [hid] using hs
  have hpairs := pairwise_iff_getElem.mp (pairwise_filterMap.mp (assignSlots_spec h).2)
  have not_lt {id j : NodeId} (hs : c.slot id = .inLocal i) (hs' : c.slot j = .inLocal i) :
      ¬ id < j := by
    intro hlt
    obtain ⟨hid, hget⟩ := List.getElem?_eq_some_iff.mp (some_of hs)
    obtain ⟨hj, hget'⟩ := List.getElem?_eq_some_iff.mp (some_of hs')
    exact hpairs id j hid hj hlt i (by rw [hget]; rfl) i (by rw [hget']; rfl) rfl
  exact Nat.le_antisymm (Nat.le_of_not_lt (not_lt hs' hs)) (Nat.le_of_not_lt (not_lt hs hs'))

end

theorem firstOperand?_eq_zero {k : Kind} {first : Nat} (h : k.firstOperand? = some first) :
    first = 0 := by
  cases k with
  | floatCompare p =>
    rw [Kind.firstOperand?] at h
    split at h <;> cases h
    rfl
  | _ =>
    cases h
    try rfl

/-- What it takes for a result to stay on the stack. -/
structure StaysFor (c : Context) (j : NodeId) (producer : Node) (id : NodeId) (n : Node) :
    Prop where
  result : producer.resultType ≠ none
  kind : (∀ ty, producer.kind ≠ .alloca ty) ∧
    (∀ sources incoming, producer.kind ≠ .phi sources incoming) ∧ producer.kind ≠ .select
  loads : producer.loads = []
  stores : producer.stores = []
  accessors : producer.accessors = [id]
  consumer : c.graph.node? id = some n
  next : ∃ b k, c.graph.blocks[producer.block]? = some b ∧ b.instructions.idxOf? j = some k ∧
    b.instructions[k + 1]? = some id
  uses : (n.operands.filter fun r => c.graph.resolve? r = some j).length = 1
  first : n.kind.firstOperand? = some 0
  operand : (n.operands[0]?).bind c.graph.resolve? = some j

theorem staysFor (h : assignSlots c.declared c.graph = .ok (c.slots, locals))
    (hj : c.graph.node? j = some n) (hs : c.slot j = .onStack) : ∃ id n', StaysFor c j n id n' := by
  have hslot : slotOrLocal c.graph j n = some .onStack := by
    rcases hs ▸ slotFor h hj with hslot | ⟨-, _, _, hslot, -⟩
    · exact hslot
    · cases hslot
  unfold slotOrLocal at hslot
  split at hslot
  · cases hslot
  · next hresult =>
    split at hslot
    · cases hslot
    · cases hslot
    · split at hslot <;> cases hslot
    · next hkind₁ hkind₂ hkind₃ =>
      split at hslot
      · cases hslot
      · split at hslot
        · next hstays =>
          unfold staysOnStack at hstays
          split at hstays
          · next id ha hl hst =>
            split at hstays
            · next n' b hn' hb =>
              simp only [Bool.and_eq_true, decide_eq_true_eq] at hstays
              obtain ⟨⟨⟨-, hnext⟩, huses⟩, hfirst⟩ := hstays
              obtain ⟨k, hk, hnext⟩ := bind_eq_some_iff.mp hnext
              split at hfirst
              · next first hf =>
                obtain rfl := firstOperand?_eq_zero hf
                exact ⟨id, n', by simpa using hresult, ⟨hkind₁, hkind₂, hkind₃⟩, hl, hst, ha, hn',
                  ⟨b, k, hb, hk, hnext⟩, huses, hf, of_decide_eq_true hfirst⟩
              · cases hfirst
            · cases hstays
          · cases hstays
        · cases hslot

theorem exists_access (hr : r ∈ n.operands) : ∃ access, (access, r) ∈ n.accesses := by
  unfold Node.accesses
  split
  · next ho => exact ⟨.load, by simpa [ho] using hr⟩
  · next ho =>
    rw [ho, mem_cons, mem_singleton] at hr
    rcases hr with rfl | rfl
    · exact ⟨.other, by simp⟩
    · exact ⟨.store, by simp⟩
  · exact ⟨.other, List.mem_map_of_mem hr⟩

variable {s : Setting} {f : Function} {blocks : List Flow.Block} {nodes : List Node}
  {moved : List (BlockId × NodeId)}

/-- A result on the stack waits for the node that names it. -/
theorem Stacked.staysFor (hshape : Shape s f c.graph blocks nodes moved)
    (h : assignSlots c.declared c.graph = .ok (c.slots, locals)) (hn : c.graph.node? id = some n)
    (hr : r ∈ n.operands) (hs : Stacked c r j) :
    ∃ producer, c.graph.node? j = some producer ∧ StaysFor c j producer id n := by
  obtain ⟨producer, hj⟩ := exists_node h (by rw [hs.2.2]; simp)
  obtain ⟨id', n', hstays⟩ := Context.staysFor h hj hs.2.2
  obtain ⟨access, ha⟩ := exists_access hr
  have huses : c.graph.Uses access id j := ⟨n, r, hn, ha, hs.2.1⟩
  obtain ⟨hl, hst, hacc⟩ := hshape.users j producer hj id
  have hid : id = id' := by
    cases access with
    | load => simpa [hstays.loads] using hl.mpr huses
    | store => simpa [hstays.stores] using hst.mpr huses
    | other => simpa [hstays.accessors] using hacc.mpr huses
  subst hid
  cases hn.symm.trans hstays.consumer
  exact ⟨producer, hj, hstays⟩

/-- Nodes that do not begin with their first operand take nothing from the stack. -/
theorem not_stacked (hshape : Shape s f c.graph blocks nodes moved)
    (h : assignSlots c.declared c.graph = .ok (c.slots, locals)) (hn : c.graph.node? id = some n)
    (hf : n.kind.firstOperand? = none) : ∀ r ∈ n.operands, ∀ j, ¬ Stacked c r j := by
  intro r hr j hs
  obtain ⟨producer, -, hstays⟩ := hs.staysFor hshape h hn hr
  rw [hstays.first] at hf
  cases hf

theorem getElem?_of_idxOf? {k : Nat} (h : l.idxOf? j = some k) : l[k]? = some j := by
  obtain ⟨hk, hj, -⟩ := findIdx?_eq_some_iff_getElem.mp h
  rw [getElem?_eq_getElem hk, eq_of_beq hj]

theorem getLast?_eq_some_iff_getElem? :
    l.getLast? = some j ↔ ∃ k, l.length = k + 1 ∧ l[k]? = some j := by
  rw [getLast?_eq_getElem?]
  constructor
  · intro h
    have hk := lt_of_getElem? h
    exact ⟨l.length - 1, by omega, h⟩
  · rintro ⟨k, hk, h⟩
    rwa [hk]

section
variable (hshape : Shape s f c.graph blocks nodes moved)
include hshape

/-- A result that stays on the stack is the first operand of the node it stays for, and that node
takes no other operand from the stack. -/
theorem StaysFor.ready (hf : f.Regular) (h : assignSlots c.declared c.graph = .ok (c.slots, locals))
    {producer : Node} (hs : c.slot j = .onStack) (hstays : StaysFor c j producer id n) :
    Ready c n 1 := by
  obtain ⟨r, hr, hresolve⟩ := bind_eq_some_iff.mp hstays.operand
  obtain ⟨k, -, rfl, -, -⟩ := Flow.resolve?_eq_some hresolve
  have hparam : c.param? (.key k) = none := by
    cases k with
    | value v => exact hshape.not_param hf hresolve
    | synthesized k => rfl
  cases hops : n.operands with
  | nil => simp [hops] at hr
  | cons r' rest =>
    simp only [hops, getElem?_cons_zero, some.injEq] at hr
    subst hr
    refine .first hstays.first hops ⟨hparam, hresolve, hs⟩ fun r hr j' hs' => ?_
    obtain ⟨producer', -, hstays'⟩ := hs'.staysFor hshape h hstays.consumer (by simp [hops, hr])
    have hj : j' = j := some.inj (hstays'.operand.symm.trans hstays.operand)
    subst hj
    have huses := hstays.uses
    rw [hops, filter_cons_of_pos (by simpa using hresolve), length_cons, Nat.add_eq_right,
      length_eq_zero_iff, filter_eq_nil_iff] at huses
    exact huses r hr (by simpa using hs'.2.1)

/-- A result on the stack was left there by the node before. -/
theorem Stacked.previous (h : assignSlots c.declared c.graph = .ok (c.slots, locals))
    (hb : c.graph.blocks[i]? = some b) (hi : b.instructions = before ++ id :: after)
    (hn : c.graph.node? id = some n) (hr : r ∈ n.operands) (hs : Stacked c r j) :
    before.getLast? = some j := by
  have hid : b.instructions[before.length]? = some id := by simp [hi]
  obtain ⟨producer, hp, hstays⟩ := hs.staysFor hshape h hn hr
  obtain ⟨b', k, hb', hk, hnext⟩ := hstays.next
  obtain ⟨n', hn', hblock'⟩ := hshape.placed hb' (mem_of_getElem? hnext)
  obtain ⟨n'', hn'', hblock⟩ := hshape.placed hb (mem_of_getElem? hid)
  cases hn'.symm.trans hn''
  rw [← hblock', hblock, hb, some.injEq] at hb'
  subst hb'
  have hlen : k + 1 = before.length :=
    (getElem?_inj (lt_of_getElem? hnext) (hshape.nodup hb)).mp (hnext.trans hid.symm)
  refine getLast?_eq_some_iff_getElem?.mpr ⟨k, hlen.symm, ?_⟩
  rw [← getElem?_of_idxOf? hk, hi, getElem?_append_left (by omega)]

/-- A node finds on the stack what the node before it left there. -/
theorem ready (hf : f.Regular) (h : assignSlots c.declared c.graph = .ok (c.slots, locals))
    (hb : c.graph.blocks[i]? = some b) (hi : b.instructions = before ++ id :: after)
    (hn : c.graph.node? id = some n) : Ready c n (before.getLast?.elim 0 c.leaves) := by
  have hid : b.instructions[before.length]? = some id := by simp [hi]
  by_cases hprev : ∃ j, before.getLast? = some j ∧ c.slot j = .onStack
  · obtain ⟨j, hlast, hs⟩ := hprev
    obtain ⟨k, hk, hj⟩ := getLast?_eq_some_iff_getElem?.mp hlast
    have hj : b.instructions[k]? = some j := by rw [hi, getElem?_append_left (by omega), hj]
    obtain ⟨producer, hp, hpblock⟩ := hshape.placed hb (mem_of_getElem? hj)
    obtain ⟨id', n', hstays⟩ := Context.staysFor h hp hs
    obtain ⟨b', k', hb', hk', hnext⟩ := hstays.next
    rw [hpblock, hb, some.injEq] at hb'
    subst hb'
    have hkk : k = k' := (getElem?_inj (lt_of_getElem? hj) (hshape.nodup hb)).mp
      (hj.trans (getElem?_of_idxOf? hk').symm)
    rw [← hkk, ← hk, hid, some.injEq] at hnext
    subst hnext
    cases hn.symm.trans hstays.consumer
    have hone : before.getLast?.elim 0 c.leaves = 1 := by simp [hlast, leaves, hs]
    rw [hone]
    exact hstays.ready hshape hf h hs
  · have hzero : before.getLast?.elim 0 c.leaves = 0 := by
      cases hlast : before.getLast? with
      | none => rfl
      | some j =>
        have : c.slot j ≠ .onStack := fun hs => hprev ⟨j, hlast, hs⟩
        simp [leaves, this]
    rw [hzero]
    exact .empty fun r hr j hs => hprev ⟨j, hs.previous hshape h hb hi hn hr, hs.2.2⟩

end

/-! ## Operands that a kind mentions -/

/-- What a phi takes from a predecessor is one of its operands. -/
theorem phi_operand (hshape : Shape s f c.graph blocks nodes moved) (hn : c.graph.node? id = some n)
    (hk : n.kind = .phi sources incoming) : ∀ e ∈ incoming, e.2 ∈ n.operands := by
  intro e he
  obtain ⟨i, he⟩ := getElem?_of_mem he
  obtain ⟨j, -, -, k, -, hk⟩ := forall₂_some_right (hshape.incoming hn hk) he
  exact mem_of_getElem? hk

/-- What phis take is never on the stack. -/
theorem phi_not_stacked (hshape : Shape s f c.graph blocks nodes moved)
    (h : assignSlots c.declared c.graph = .ok (c.slots, locals)) (hn : c.graph.node? id = some n)
    (hk : n.kind = .phi sources incoming) : ∀ e ∈ incoming, ∀ j, ¬ Stacked c e.2 j :=
  fun e he => not_stacked hshape h hn (by rw [hk]; rfl) e.2 (phi_operand hshape hn hk e he)

theorem mem_phis_iff :
    (id, incoming) ∈ c.phis target ↔ ∃ b n sources, c.graph.blocks[target]? = some b ∧
      id ∈ b.instructions ∧ c.graph.node? id = some n ∧ n.kind = .phi sources incoming := by
  unfold phis
  rw [mem_filterMap]
  constructor
  · rintro ⟨id', hid, h⟩
    split at h
    · next hk =>
      cases h
      obtain ⟨n, hn, hk⟩ := map_eq_some_iff.mp hk
      cases hb : c.graph.blocks[target]? with
      | none => simp [hb] at hid
      | some b => exact ⟨b, n, _, rfl, by simpa [hb] using hid, hn, hk⟩
    · cases h
  · rintro ⟨b, n, sources, hb, hid, hn, hk⟩
    exact ⟨id, by simpa [hb] using hid, by rw [hn, map_some, hk]⟩

theorem mem_phis (h : (id, incoming) ∈ c.phis target) :
    ∃ n sources, c.graph.node? id = some n ∧ n.kind = .phi sources incoming := by
  obtain ⟨_, n, sources, -, -, hn, hk⟩ := mem_phis_iff.mp h
  exact ⟨n, sources, hn, hk⟩

end Context

end Stackify.Lower
