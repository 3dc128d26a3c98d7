import Stackify.Proofs.SwitchDispatch

/-!
The copies on the edge along which a call unwinds.

They are made before the arguments of the call are pushed, and so also if the call returns. Operands
that are none of the phis of the block it unwinds to read as before
(`unwind_copies_before_call`). If the call is inside a loop through that block, the phis themselves
may still be needed, and then have the values for another attempt already
(`retry_passes_next_value`).
-/

namespace Stackify.Lower

open Context (callee)
open Code (Op Method Program)
open Machine (Value State Does CodeAt)
open Stackify.Flow (Node NodeId Ref)
open Ssa (Module FunctionType BlockId)
open List Option

namespace Context

variable {c : Context} {p : Program} {s : State} {locals locals' : List Value}
  {types : List Code.Ty} {target : Nat} {r : Ref}

/-- Operands that are no phis of a block read as before if only the locals of its phis change. -/
theorem read?_congr (hslots : assignSlots c.declared c.graph = .ok (c.slots, types))
    (h : ∀ i, (∀ id n, c.graph.PhiAt target id n → c.slot id ≠ .inLocal i) →
      locals'[i]? = locals[i]?)
    (hr : ∀ id n, c.graph.PhiAt target id n → c.graph.resolve? r ≠ some id) :
    c.read? p s locals' r = c.read? p s locals r := by
  have hnode {id : NodeId} (hid : c.graph.resolve? r = some id) :
      (c.nodePlace? id).bind (Place.read? p s locals') =
        (c.nodePlace? id).bind (Place.read? p s locals) := by
    unfold nodePlace?
    split
    · rfl
    · next i hslot _ =>
      refine h i fun id' n hphi hslot' => hr id' n hphi ?_
      rw [hid, c.slot_inj hslots hslot hslot']
    · rfl
  cases r with
  | key k =>
    simp only [read?, place?]
    cases c.param? (.key k) with
    | some i => rfl
    | none =>
      cases hid : c.graph.resolve? (.key k) with
      | none => rfl
      | some id => exact hnode hid
  | const k => simp only [read?, place?]; cases c.constant? k <;> rfl
  | global name => simp only [read?, place?]; cases c.declared.staticIndex? name <;> rfl
  | function name => simp only [read?, place?]; cases c.declared.method? name <;> rfl
  | block => rfl

variable {z : Surround} {id : NodeId} {n : Node} {ops : List Op} {rs : List Code.Region}
  {type : FunctionType} {normal unwind : BlockId} {t : CallTarget}

theorem NodeCode.of_guarded (hc : NodeCode c z id n ops rs)
    (hk : n.kind = .invoke type normal unwind)
    (ht : c.declared.callTarget (n.location c.graph.location) (callee n) = .ok t)
    (hthrow : t.mayThrow = true) :
    ∃ u tryStart copies call rest, c.graph.blockIndex? unwind = some u ∧
      CopyCode c z.consts n.block u copies ∧
      CallCode c z.consts id n type (callee n) (n.operands.take (n.operands.length - 3)) t call ∧
      ops = copies ++ .label tryStart :: (call ++ rest) := by
  cases hc with
  | guarded hk' ht' _ hu hcopies _ _ hcall =>
    cases hk.symm.trans hk'
    cases ht.symm.trans ht'
    exact ⟨_, _, _, _, _, hu, hcopies, hcall, rfl⟩
  | result hp => cases hp <;> simp_all
  | jump hj => cases hj <;> simp_all
  | _ => simp_all

end Context

/-- **The copies on an unwind edge are made before the call.** They give the phis of the block that
the call unwinds to what they take on that edge, whether the call returns or not, and all other
operands read as before. The operands of the call are pushed afterwards: the callee gets the values
that they had if none of them is one of these phis. -/
theorem unwind_copies_before_call {md : Module} {o : Options} {d : Declared} {p : Program}
    (hd : declare md o = .ok d) (hp : lower md o = .ok p) {k : Nat} {entry : MethodEntry}
    (he : d.methods[k]? = some entry) {c : Context} {types : List Code.Ty}
    (hdeclared : c.declared = d) (hg : d.graph entry = .ok c.graph)
    (hslots : assignSlots d c.graph = .ok (c.slots, types)) {i : Nat} {b : Flow.Block}
    (hb : c.graph.blocks[i]? = some b) {id : NodeId} (hid : id ∈ b.instructions) {n : Node}
    (hn : c.graph.node? id = some n) {type : FunctionType} {normal unwind : BlockId}
    (hk : n.kind = .invoke type normal unwind) {t : CallTarget}
    (ht : d.callTarget (n.location c.graph.location) (callee n) = .ok t)
    (hthrow : t.mayThrow = true) :
    ∃ m u pc copies tryStart call rest, p.methods[k]? = some m ∧
      c.graph.blockIndex? unwind = some u ∧ Context.CallCode c p.consts id n type (callee n)
        (n.operands.take (n.operands.length - 3)) t call ∧
      CodeAt m pc (copies ++ .label tryStart :: (call ++ rest)) ∧
      ∀ (s : State) (locals stack : List Value), c.Framed p m s locals → ∃ locals',
        Does p m s copies ⟨locals, stack⟩ ⟨locals', stack⟩ ∧
        (∀ id' n' r, c.graph.PhiAt u id' n' → n'.taken? n.block = some r → ∃ i v w,
          c.slot id' = .inLocal i ∧ c.read? p s locals r = some v ∧ locals'[i]? = some w ∧
            Context.LoadedFor r v w) ∧
        (∀ r, (∀ id' n', c.graph.PhiAt u id' n' → c.graph.resolve? r ≠ some id') →
          c.read? p s locals' r = c.read? p s locals r) ∧
        ∀ r ∈ n.operands, ∀ push, Context.Pushes c p.consts r push → ∃ v w,
          c.read? p s locals' r = some v ∧ Context.LoadedFor r v w ∧
            ∀ stack, Does p m s push ⟨locals', stack⟩ ⟨locals', w :: stack⟩ := by
  subst hdeclared
  obtain ⟨_, hd', hcode⟩ := lower_eq_ok hp
  cases hd.symm.trans hd'
  obtain ⟨m, hm, hmethod⟩ := hcode.method he
  obtain ⟨blocks, nodes, moved, hshape⟩ := Declared.graph_shape hg
  obtain ⟨z, pc, _, _, hconsts, -, hnode, hat, -⟩ :=
    Context.node_code (hmethod.context hg hslots) hb hid hn
  obtain ⟨u, tryStart, copies, call, rest, hu, hcopies, hcall, rfl⟩ := hnode.of_guarded hk ht hthrow
  rw [hconsts] at hcopies hcall
  refine ⟨m, u, pc, copies, tryStart, call, rest, hm, hu, hcall, hat, fun s locals stack h => ?_⟩
  obtain ⟨locals', hdoes, hlength, hphis, hothers⟩ := hcopies.assigns_phis h hshape hslots stack
  have h' : c.Framed p m s locals' :=
    ⟨h.method, h.args, fun id i hslot => hlength ▸ h.room id i hslot⟩
  have hfree := Context.not_stacked hshape hslots hn (by rw [hk]; rfl)
  exact ⟨locals', hdoes, hphis, fun r hr => Context.read?_congr hslots hothers hr,
    fun r hr push hpush => hpush.loads h' (hfree r hr)⟩

/-- `pass` fails for zero and is the identity otherwise. `retry` calls it with zero and, unwinding
to a block with a phi, once more with that phi, which is 20 if the second call fails too. -/
def retrying : Module where
  functions :=
    let int (n : Int) : Ssa.Operand := .const (.int (.int 32) n)
    let type : FunctionType := ⟨.int 32, [.int 32], false⟩
    let attempt (id : Nat) (v : Ssa.Operand) (normal : Nat) : Ssa.Instruction :=
      { id, opcode := .invoke, ty := .int 32, info := .call type,
        operands := [v, .block normal, .block 1, .function "pass"] }
    [{ name := "pass", type, params := [{ id := 0, ty := .int 32 }], blocks :=
       [{ id := 0, instructions :=
          [{ id := 1, opcode := .icmp, ty := .int 1, operands := [.value 0, int 0],
             info := .predicate 32 },
           { id := 2, opcode := .br, ty := .void, operands := [.value 1, .block 1, .block 2] }] },
        { id := 1, instructions :=
          [{ id := 3, opcode := .call, ty := .void,
             operands := [.const .null, .const .null, .value 0, .function "_wassert"],
             info := .call ⟨.void, [.pointer, .pointer, .int 32], false⟩ },
           { id := 4, opcode := .br, ty := .void, operands := [.block 2] }] },
        { id := 2, instructions :=
          [{ id := 5, opcode := .ret, ty := .void, operands := [.value 0] }] }] },
     { name := "retry", type := ⟨.int 32, [], false⟩, personality := some "pass", blocks :=
       [{ id := 0, instructions := [attempt 1 (int 0) 3] },
        { id := 1, instructions :=
          [{ id := 2, opcode := .phi, ty := .int 32, operands := [int 10, int 20],
             info := .phi [0, 2] },
           { id := 3, opcode := .landingPad, ty := .token, operands := [] },
           { id := 4, opcode := .br, ty := .void, operands := [.block 2] }] },
        { id := 2, instructions := [attempt 5 (.value 2) 4] },
        { id := 3, instructions :=
          [{ id := 6, opcode := .ret, ty := .void, operands := [int 0] }] },
        { id := 4, instructions :=
          [{ id := 7, opcode := .mul, ty := .int 32, operands := [.value 5, int 100] },
           { id := 8, opcode := .add, ty := .int 32, operands := [.value 7, .value 2] },
           { id := 9, opcode := .ret, ty := .void, operands := [.value 8] }] }] }]

theorem retrying_copies_before_call :
    ∃ (d : Declared) (p : Program) (c : Context) (m : Method) (u : Nat) (copies : List Op),
      declare retrying {} = .ok d ∧ lower retrying {} = .ok p ∧ p.methods[1]? = some m ∧
      c.graph.blockIndex? 1 = some u ∧
      ∀ (s : State) (locals stack : List Value), c.Framed p m s locals → ∃ locals',
        Does p m s copies ⟨locals, stack⟩ ⟨locals', stack⟩ ∧
        ∀ r, (∀ id n, c.graph.PhiAt u id n → c.graph.resolve? r ≠ some id) →
          c.read? p s locals' r = c.read? p s locals r := by
  obtain ⟨p, hp, -⟩ :=
    toOption_map_eq_some.mp (show (lower retrying {}).toOption.map (fun _ => ()) =
      some () by decide +kernel)
  obtain ⟨d, hd, hparts⟩ :=
    toOption_map_eq_some.mp (show (declare retrying {}).toOption.map (fun d => do
      let entry ← d.methods[1]?
      let g ← (d.graph entry).toOption
      let _ ← (assignSlots d g).toOption
      let b ← g.blocks[0]?
      let id ← b.instructions.head?
      let n ← g.node? id
      let t ← (d.callTarget (n.location g.location) (callee n)).toOption
      some (n.kind, t.mayThrow)) =
    some (some (.invoke ⟨.int 32, [.int 32], false⟩ 3 1, true)) by decide +kernel)
  obtain ⟨entry, he, hparts⟩ := bind_eq_some_iff.mp hparts
  obtain ⟨g, hg, hparts⟩ := bind_eq_some_iff.mp hparts
  obtain ⟨⟨slots, types⟩, hslots, hparts⟩ := bind_eq_some_iff.mp hparts
  obtain ⟨b, hb, hparts⟩ := bind_eq_some_iff.mp hparts
  obtain ⟨id, hid, hparts⟩ := bind_eq_some_iff.mp hparts
  obtain ⟨n, hn, hparts⟩ := bind_eq_some_iff.mp hparts
  obtain ⟨t, ht, hparts⟩ := bind_eq_some_iff.mp hparts
  obtain ⟨hk, hthrow⟩ := Prod.mk.inj (some.inj hparts)
  obtain ⟨m, u, -, copies, -, -, -, hm, hu, -, -, hruns⟩ :=
    @unwind_copies_before_call retrying {} d p hd hp 1 entry he ⟨d, g, slots⟩ types rfl
      (toOption_eq_some.mp hg) (toOption_eq_some.mp hslots) 0 b hb id (mem_of_mem_head? hid) n hn
      _ _ _ hk t (toOption_eq_some.mp ht) hthrow
  refine ⟨d, p, ⟨d, g, slots⟩, m, u, copies, hd, hp, hm, hu, fun s locals stack h => ?_⟩
  obtain ⟨locals', hdoes, -, hothers, -⟩ := hruns s locals stack h
  exact ⟨locals', hdoes, hothers⟩

/-- The phi is 10 when the second call is reached, and the call returns. It gets 20 all the same,
and 20 is what the phi is afterwards. -/
theorem retry_passes_next_value : ∃ p, lower retrying {} = .ok p ∧
    (Machine.callMethod p 60 (.ofProgram p) 1 []).bind (fun r => r.2.toOption.bind fun v =>
      v.bind Value.toInt?) = some (20 * 100 + 20) :=
  toOption_map_eq_some.mp (show (lower retrying {}).toOption.map (fun p =>
    (Machine.callMethod p 60 (.ofProgram p) 1 []).bind fun r => r.2.toOption.bind fun v =>
      v.bind Value.toInt?) = some (some (20 * 100 + 20)) by decide +kernel)

end Stackify.Lower
