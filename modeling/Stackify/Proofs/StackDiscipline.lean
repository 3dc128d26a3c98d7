import Stackify.Proofs.BodyHeights
import Stackify.Proofs.StackRuns

/-!
The evaluation stack in runs of lowered programs.

In a module where values have one definition, blocks end with their only terminator, and operations
that give no value have no type of values (`Orderly`), every method keeps to the heights of its code
(`Orderly.steady`). So operations always find their operands, blocks and trampolines are reached
with an empty stack, and handlers with the exception that is caught (`stack_discipline`).
-/

namespace Stackify.Lower

open Code (Op Label Program Method Role Heights)
open Stackify.Flow (Node NodeId Ref Kind resultType?)
open Ssa (Module Function Operation)
open List

/-- An operation of a module that gives no value has no type of values. -/
structure ResultTyped (m : Module) (x : Operation) : Prop where
  /-- A call has the type of what its callee returns. -/
  calls : x.opcode = .call → ∀ type, x.info = .call type → x.ty = type.ret
  /-- Starting and ending a list of arguments gives no value. -/
  lists : x.opcode = .call → ∀ name, x.operands.getLast? = some (.function name) →
    (∀ g ∈ m.functions, g.name = name → g.isDeclaration = true) →
    Route.ofSymbol? name = some .vaStart ∨ Route.ofSymbol? name = some .vaEnd →
      resultType? x.ty = none
  /-- Neither do stores and the beginnings of handlers. -/
  procedures : x.opcode ∈ [.store, .catchPad, .cleanupPad, .landingPad] → resultType? x.ty = none

/-- What a module keeps to if its code is to keep the stack in order. Constant expressions count
like instructions. -/
structure Orderly (m : Module) : Prop where
  regular : ∀ f ∈ m.functions, f.Regular
  results : ∀ f ∈ m.functions, ∀ x ∈ f.operations, ResultTyped m x

instance (info : Ssa.Info) (P : Ssa.FunctionType → Prop) [DecidablePred P] :
    Decidable (∀ type, info = .call type → P type) :=
  match info with
  | .call type => decidable_of_iff (P type) ⟨by rintro h _ ⟨⟩; exact h, fun h => h type rfl⟩
  | .plain | .predicate _ | .gep _ _ | .alloca _ | .phi _ => isTrue (by simp)

instance (callee : Option Ssa.Operand) (P : String → Prop) [DecidablePred P] :
    Decidable (∀ name, callee = some (.function name) → P name) :=
  match callee with
  | some (.function name) =>
    decidable_of_iff (P name) ⟨by rintro h _ ⟨⟩; exact h, fun h => h name rfl⟩
  | none | some (.value _) | some (.const _) | some (.block _) | some (.global _)
  | some (.expr _ _ _ _) =>
    isTrue (by simp)

instance (m : Module) (x : Operation) : Decidable (ResultTyped m x) :=
  decidable_of_iff (_ ∧ _ ∧ _) ⟨fun ⟨hc, hl, hp⟩ => ⟨hc, hl, hp⟩, fun h =>
    ⟨h.calls, h.lists, h.procedures⟩⟩

instance (m : Module) : Decidable (Orderly m) :=
  decidable_of_iff (_ ∧ _) ⟨fun ⟨hf, hx⟩ => ⟨hf, hx⟩, fun h => ⟨h.regular, h.results⟩⟩

variable {m : Module} {o : Options} {d : Declared} {p : Program} {c : Context} {s : Flow.Setting}
  {blocks : List Flow.Block} {nodes : List Node} {moved : List (Ssa.BlockId × NodeId)}
  {locals : List Code.Ty} {i : Nat} {e : MethodEntry} {method : Method}

theorem Declaration.method_eq_none (hd : Declaration m o d) {name : String}
    (h : d.method? name = none) : ∀ g ∈ m.functions, g.name = name → g.isDeclaration = true := by
  intro g hg hname
  cases hdecl : g.isDeclaration with
  | true => rfl
  | false =>
    have hmem : g ∈ m.functions.filter fun f => !f.isDeclaration :=
      mem_filter.mpr ⟨hg, by simp [hdecl]⟩
    obtain ⟨i, hi⟩ := getElem?_of_mem hmem
    have hz : (m.functions.filter fun f => !f.isDeclaration).zipIdx[i]? = some (g, i) := by
      rw [getElem?_zipIdx, hi]
      simp
    obtain ⟨e, he, hentry⟩ := forall₂_some_left hd.entries hz
    unfold Declared.method? at h
    cases hl : Flow.lastIndex? (fun e => e.function.name = name) d.methods with
    | none =>
      have hne := Flow.lastIndex?_eq_none.mp hl e (mem_of_getElem? he)
      rw [hentry.function] at hne
      simp [hname] at hne
    | some j =>
      obtain ⟨e', he', -⟩ := Flow.lastIndex?_eq_some hl
      simp [hl, he'] at h

/-! ## Results on the stack -/

/-- A result stays on the stack only if there is one. -/
theorem yields (hd : Declaration m o d) (hm : Orderly m) {f : Function} (hf : f ∈ m.functions)
    (hc : c.declared = d) (hshape : Flow.Shape s f c.graph blocks nodes moved)
    (hslots : assignSlots c.declared c.graph = .ok (c.slots, locals)) {id : NodeId} {n : Node}
    (hn : c.graph.node? id = some n) (hl : c.leaves id ≠ 0) : c.Yields n := by
  have hslot : c.slot id = .onStack := by
    unfold Context.leaves at hl
    split at hl
    · assumption
    · exact absurd rfl hl
  obtain ⟨next, n', hstays⟩ := Context.staysFor hslots hn hslot
  obtain ⟨x, hx, hcomputes⟩ := hshape.computes hn
  have hresult : resultType? x.ty ≠ none := hcomputes.resultType ▸ hstays.result
  refine ⟨hstays.result, by simp [Node.isUsed, hstays.accessors], ?_, ?_⟩
  · -- A result that stays on the stack has a node behind it in its block.
    cases ht : n.opcode.isTerminator with
    | false => rfl
    | true =>
      obtain ⟨b, k, hb, hk, hnext⟩ := hstays.next
      have hat := Context.getElem?_of_idxOf? hk
      have hlast := hshape.eq_last (hm.regular f hf) hb (mem_of_getElem? hat) hn ht
      rw [getLast?_eq_getElem?] at hlast
      have hlt := lt_of_getElem? hnext
      have heq := (getElem?_inj (by omega) (hshape.nodup hb)).mp (hat.trans hlast.symm)
      omega
  · have procedure {k : Kind} {o : Ssa.Opcode} (hk : n.kind = k) (ho : k.opcode? = some o)
        (hmem : o ∈ [.store, .catchPad, .cleanupPad, .landingPad]) : False :=
      hresult ((hm.results f hf x hx).procedures (hcomputes.opcode_of_kind hk ho ▸ hmem))
    split
    · next hk => exact hstays.kind.1 _ hk
    · next hk => exact hstays.kind.2.1 _ _ hk
    · next hk => exact hstays.kind.2.2 hk
    · next hk => exact procedure hk rfl (by simp)
    · next hk => exact procedure hk rfl (by simp)
    · next hk => exact procedure hk rfl (by simp)
    · next hk => exact procedure hk rfl (by simp)
    · next type hk =>
      have hop : x.opcode = .call := hcomputes.opcode_of_kind hk rfl
      have hinfo : x.info = .call type := hcomputes.fits.of_call type (.inl (by rw [hk]; rfl))
      refine ⟨?_, fun target ht => ?_⟩
      · cases hv : type.ret.isVoid with
        | false => rfl
        | true =>
          refine absurd ?_ hresult
          rw [(hm.results f hf x hx).calls hop type hinfo]
          cases hret : type.ret <;> simp_all [Ssa.Ty.isVoid, resultType?]
      · have route {r : Route} (hr : target = .route r) (hva : r = .vaStart ∨ r = .vaEnd) :
            False := by
          subst hr
          rcases callTarget_eq_ok ht with ⟨_, _, _, _, h⟩ | ⟨name, _, hname, hnone, hroute,
            h⟩ | h <;> cases h
          have hlast := (callee_eq_function hcomputes).mp hname
          refine hresult ((hm.results f hf x hx).lists hop name hlast
            (hd.method_eq_none (hc ▸ hnone)) ?_)
          rcases hva with rfl | rfl
          · exact .inl hroute
          · exact .inr hroute
        exact ⟨fun h => route h (.inl rfl), fun h => route h (.inr rfl)⟩
    · trivial

/-! ## Methods -/

theorem fitting (hd : Declaration m o d) (hp : ProgramCode d p) (he : d.methods[i]? = some e)
    (htype : method.type = e.type) (hc : c.declared = d)
    (hshape : Flow.Shape s e.function c.graph blocks nodes moved)
    (hslots : assignSlots c.declared c.graph = .ok (c.slots, locals)) :
    Context.Fitting p method c where
  ret hvoid := by
    obtain ⟨⟨f, j⟩, -, hentry⟩ := forall₂_some_right hd.entries he
    have hret : e.function.type.ret = .void := by
      rw [hshape.function] at hvoid
      unfold Function.isVoid Ssa.Ty.isVoid at hvoid
      split at hvoid
      · assumption
      · cases hvoid
    obtain ⟨-, hlookup, -⟩ :=
      Resolve.Resolver.lookupSignature?_eq_some (hentry.function ▸ hentry.type)
    have hdenotes := resolveModule_denotes hd.resolved hlookup
    rw [hret] at hdenotes
    rw [htype, show e.type.ret = .void from hdenotes]
    rfl
  calls l r e' ht := by
    obtain ⟨m', hm', hcode⟩ := hp.method (hd.callee (hc ▸ ht))
    exact ⟨m', hm', hcode.type⟩
  phis target phi hphi e' he' j := by
    obtain ⟨n, sources, hn, hk⟩ := Context.mem_phis hphi
    exact Context.phi_not_stacked hshape hslots hn hk e' he' j
  steps id n hn path ty hk := by
    obtain ⟨x, -, hx⟩ := hshape.computes hn
    exact hx.address_operand hk

/-- The methods of functions keep to the heights of their code. -/
theorem method_steady (hd : Declaration m o d) (hm : Orderly m) (hp : ProgramCode d p)
    (he : d.methods[i]? = some e) (hcode : MethodCode d p.consts e method) :
    method.Steady p ∧ ∀ l < e.function.blocks.length, method.role l = .plain := by
  obtain ⟨g, slots, hg, hbody⟩ := hcode.body
  obtain ⟨blocks, nodes, moved, hshape⟩ := Declared.graph_shape hg
  obtain ⟨locals, hslots, -⟩ := hbody.slots
  have hf := (hd.index he).2
  have hstacking : Context.Stacking p method ⟨d, g, slots⟩ _ e.function :=
    ⟨⟨blocks, nodes, moved, hshape⟩, hm.regular _ hf, ⟨locals, hslots⟩,
      fitting hd hp he hcode.type rfl hshape hslots, fun id n hn hl =>
        yields hd hm hf rfl hshape hslots hn hl⟩
  obtain ⟨hsteady, hplain⟩ := hbody.heights hstacking
  exact ⟨hsteady, fun l hl => hplain l (by rwa [hshape.length_blocks])⟩

theorem loadArgs_heights (is : List Nat) (n : Nat) :
    Heights p method (some n) (is.map Op.loadArg) (some (n + is.length)) := by
  induction is generalizing n with
  | nil => rfl
  | cons i is ih =>
    rw [length_cons, show n + (is.length + 1) = n + 1 + is.length by omega]
    exact .cons rfl (ih (n + 1))

/-- So do the methods that return a result through a place for it. -/
theorem wrapper_steady (h : wrapperMethod d e = .ok method) : method.Steady p := by
  unfold wrapperMethod at h
  split at h
  · cases h
  · next ret hret =>
    cases h
    refine ⟨none, ?_⟩
    generalize hslots : Code.MethodType.argSlots _ = slots
    obtain ⟨k, hk⟩ : ∃ k, 1 + slots = k + e.type.argSlots := by
      refine ⟨1 + slots - e.type.argSlots, ?_⟩
      simp only [← hslots, Code.MethodType.argSlots, length_drop]
      omega
    have hargs (method : Method) : Heights p method (some 1) ((List.range slots).map Op.loadArg)
        (some (k + e.type.argSlots)) := by
      have hlength : k + e.type.argSlots = 1 + (List.range slots).length := by rw [length_range, hk]
      rw [hlength]
      exact loadArgs_heights _ 1
    refine .cons (k := 0) rfl (.cons (k := 0) rfl ((hargs _).append ?_))
    refine .cons rfl (.cons rfl (.stop (by simp) rfl rfl ?_))
    rw [Op.takes]
    split <;> simp [Op.results, Op.gives]

/-- Every method of a lowered program keeps to the heights of its code, and blocks are entered with
an empty stack. -/
theorem Orderly.steady (hd : Declaration m o d) (hm : Orderly m) (hp : ProgramCode d p) :
    Machine.Steady p ∧ ∀ (i : Nat) e method, d.methods[i]? = some e → p.methods[i]? = some method →
      ∀ l < e.function.blocks.length, method.role l = .plain := by
  refine ⟨fun i method hi => ?_, fun i e method he hi => ?_⟩
  · rcases hp.origin hi with ⟨e, he, hcode⟩ | ⟨e, hwrapper⟩
    · exact (method_steady hd hm hp he hcode).1
    · exact wrapper_steady hwrapper
  · obtain ⟨_, hi', hcode⟩ := hp.method he
    cases hi.symm.trans hi'
    exact (method_steady hd hm hp he hcode).2

/-! ## Runs -/

open Machine (State Frame World Value Steps Raises enter step callMethod)

/-- A frame of a method is at a label. -/
def AtLabel (p : Program) (f : Frame) (method : Method) (l : Label) : Prop :=
  p.methods[f.method]? = some method ∧ method.body.ops[f.pc]? = some (.label l)

/-- What is on the stacks in a state of a run that began in another one. -/
structure StacksInOrder (p : Program) (start t : State) : Prop where
  /-- The next operation finds its operands. -/
  operands : ∀ w, step p t ≠ .finished w (.error .stackUnderflow)
  /-- At a label where no handler begins there is nothing. -/
  labels : ∀ f ∈ t.current :: t.callers, ∀ method l, AtLabel p f method l →
    (∀ r ∈ method.body.regions, r.handlerStart ≠ l) → f.stack = []
  /-- Where a handler begins there is the exception that was raised by the operation before. -/
  handlers : ∀ f ∈ t.current :: t.callers, ∀ method, ∀ r ∈ method.body.regions,
    AtLabel p f method r.handlerStart → f = t.current ∧ ∃ u v, Steps p start u ∧
      step p u = .running t ∧ Raises p u v ∧ f.stack = [v]

/-- **Lowered code keeps the evaluation stack in order.** In every run of every method of the
program no operation misses an operand; at the label of a block, of a trampoline or of any other
place but a handler the stack of a frame is empty, and where a handler begins it holds the exception
that is caught, and nothing else. Handlers begin neither at blocks nor where operations jump to. -/
theorem stack_discipline {m : Module} {o : Options} {d : Declared} {p : Program}
    (hd : declare m o = .ok d) (hp : lower m o = .ok p) (hm : Orderly m) :
    (∀ w i args f t, enter p 0 i args .pushed = .ok f → Steps p ⟨f, [], w⟩ t →
      StacksInOrder p ⟨f, [], w⟩ t) ∧
        (∀ fuel w w' i args, callMethod p fuel w i args ≠ some (w', .error .stackUnderflow)) ∧
      ∀ (i : Nat) method, p.methods[i]? = some method → ∀ r ∈ method.body.regions,
        (∀ op ∈ method.body.ops, r.handlerStart ∉ op.targets) ∧
          ∀ e, d.methods[i]? = some e → e.function.blocks.length ≤ r.handlerStart := by
  have hcode : ProgramCode d p := by
    obtain ⟨d', hd', hcode⟩ := lower_eq_ok hp
    cases hd.symm.trans hd'
    exact hcode
  obtain ⟨hsteady, hplain⟩ := hm.steady (declare_declaration hd) hcode
  have hruns (w : World) (i : Nat) (args : List Value) (f : Frame) (t : State)
      (hf : enter p 0 i args .pushed = .ok f) (ht : Steps p ⟨f, [], w⟩ t) : StacksInOrder p ⟨f,
        [], w⟩ t := by
    obtain ⟨horder, hhandled⟩ := Machine.InOrder.run hsteady hf ht
    refine ⟨horder.no_underflow hsteady, fun g hg method l hl hno => ?_,
      fun g hg method r hr hl => ?_⟩
    · obtain ⟨rfl, hheight⟩ := horder.at_label hg hl.1 hl.2
      cases hr : method.role l with
      | plain => simpa [hr, Role.height, eq_comm] using hheight
      | handler =>
        obtain ⟨r, hr, hstart⟩ := Code.roleIn_eq_handler.mp hr
        exact absurd hstart (hno r hr)
      | closed => simp [hr, Role.height] at hheight
    · obtain ⟨rfl, -⟩ := horder.at_label hg hl.1 hl.2
      exact ⟨rfl, hhandled method _ hl.1 hl.2 (Code.roleIn_eq_handler.mpr ⟨r, hr, rfl⟩)⟩
  refine ⟨hruns, fun fuel w w' i args h => ?_, fun i method hi r hr => ?_⟩
  · unfold callMethod at h
    split at h
    · next f hf =>
      obtain ⟨t, ht, hfinished⟩ := Machine.steps_of_run h
      exact (hruns w i args f t hf ht).operands w' hfinished
    · next f hf =>
      cases h
      cases Machine.enter_tame _ hf
  · have hrole : method.role r.handlerStart = .handler := Code.roleIn_eq_handler.mpr ⟨r, hr, rfl⟩
    refine ⟨fun op hop ht => ?_, fun e he => Nat.le_of_not_lt fun hlt => ?_⟩
    · rw [(hsteady i method hi).target_plain hop ht] at hrole
      cases hrole
    · rw [hplain i e method he hi _ hlt] at hrole
      cases hrole

/-- `h` reports a failed assertion; `f` calls it unless its argument is 0, handles the exception,
and joins the ways without one in a phi, one of them through a trampoline. -/
def caught : Module where
  functions :=
    let type : Ssa.FunctionType := ⟨.int 32, [.int 32], false⟩
    let params : List Ssa.Param := [{ id := 0, ty := .int 32 }]
    [{ name := "h", type, params, blocks := [{ id := 0, instructions :=
         [{ id := 1, opcode := .call, ty := .void,
            operands := [.const .null, .const .null, .value 0, .function "_wassert"],
            info := .call ⟨.void, [.pointer, .pointer, .int 32], false⟩ },
          { id := 2, opcode := .ret, ty := .void, operands := [.value 0] }] }] },
     { name := "f", type, params, personality := some "h", blocks :=
       [{ id := 0, instructions :=
          [{ id := 1, opcode := .icmp, ty := .int 1, operands :=
               [.value 0, .const (.int (.int 32) 0)],
             info := .predicate 32 },
           { id := 2, opcode := .br, ty := .void, operands := [.value 1, .block 3, .block 1] }] },
        { id := 1, instructions :=
          [{ id := 3, opcode := .invoke, ty := .int 32, operands :=
               [.value 0, .block 2, .block 4, .function "h"],
             info := .call type }] },
        { id := 2, instructions :=
            [{ id := 4, opcode := .br, ty := .void, operands := [.block 3] }] },
        { id := 3, instructions :=
          [{ id := 5, opcode := .phi, ty := .int 32, operands := [.value 0, .value 3], info :=
               .phi [0, 2] },
           { id := 6, opcode := .ret, ty := .void, operands := [.value 5] }] },
        { id := 4, instructions :=
          [{ id := 7, opcode := .landingPad, ty := .token, operands := [] },
           { id := 8, opcode := .ret, ty := .void, operands := [.const (.int (.int 32) 9)] }] }] }]

theorem caught_stack_discipline :
    ∃ d p f, declare caught {} = .ok d ∧ lower caught {} = .ok p ∧ Orderly caught ∧
      (p.methods[1]?).map (fun method => method.body.regions) = some [⟨6, 7, 8, 9⟩] ∧
      enter p 0 1 [.int .w32 0] .pushed = .ok f ∧
      (∀ w t, Steps p ⟨f, [], w⟩ t → StacksInOrder p ⟨f, [], w⟩ t) ∧
      (∀ fuel w w' args, callMethod p fuel w 1 args ≠ some (w', .error .stackUnderflow)) := by
  obtain ⟨d, hd, -⟩ :=
    toOption_map_eq_some.mp (show (declare caught {}).toOption.map (fun _ => ()) = some () by
    decide +kernel)
  obtain ⟨p, hp, hregions⟩ := toOption_map_eq_some.mp (show (lower caught {}).toOption.map
    (fun p => (p.methods[1]?).map fun method => (method.body.regions, method.type.argSlots)) =
      some (some ([⟨6, 7, 8, 9⟩], 1)) by decide +kernel)
  have horderly : Orderly caught := by decide +kernel
  obtain ⟨method, hmethod, hboth⟩ := Option.map_eq_some_iff.mp hregions
  obtain ⟨hregions, hslots⟩ := Prod.mk.inj hboth
  obtain ⟨hruns, hcalls, -⟩ := stack_discipline hd hp horderly
  have henter : enter p 0 1 [.int .w32 0] .pushed = .ok _ :=
    Machine.enter_eq_ok.mpr ⟨method, hmethod, hslots.symm, by decide, rfl⟩
  exact ⟨d, p, _, hd, hp, horderly, by rw [hmethod, Option.map_some, hregions], henter,
    fun w t ht => hruns w 1 _ _ t henter ht, fun fuel w w' args => hcalls fuel w w' 1 args⟩

/-! ## Values that are not there -/

/-- A store with a type of values, whose value is read. -/
def storedValue : Module where
  functions :=
    [{ name := "f", type := ⟨.int 32, [], false⟩, blocks := [{ id := 0, instructions :=
         [{ id := 1, opcode := .alloca, ty := .pointer, operands := [], info := .alloca (.int 32) },
          { id := 2, opcode := .store, ty := .int 32, operands :=
              [.const (.int (.int 32) 5), .value 1] },
          { id := 3, opcode := .add, ty := .int 32, operands :=
              [.value 2, .const (.int (.int 32) 1)] },
          { id := 4, opcode := .ret, ty := .void, operands := [.const (.int (.int 32) 7)] }] }] }]

/-- A constant expression that calls a function without a result, and whose value is read. -/
def calledValue : Module where
  functions :=
    let callee : Ssa.Operand := .expr .bitCast .pointer [.function "g"] .plain
    [{ name := "f", type := ⟨.int 32, [], false⟩, blocks := [{ id := 0, instructions :=
         [{ id := 3, opcode := .add, ty := .int 32,
            operands :=
              [.expr .call (.int 32) [callee] (.call ⟨.void, [], false⟩),
                .const (.int (.int 32) 1)] },
          { id := 4, opcode := .ret, ty := .void, operands := [.const (.int (.int 32) 7)] }] }] },
     { name := "g", type := ⟨.void, [], false⟩, blocks := [{ id := 0, instructions :=
         [{ id := 10, opcode := .ret, ty := .void, operands := [] }] }] }]

/-- All instructions but stores are as they should be. -/
def OrderlyButStores (m : Module) : Prop :=
  ∀ f ∈ m.functions, f.Regular ∧ ∀ i ∈ f.instructions, i.opcode ≠ .store → ResultTyped m i.operation

instance (m : Module) : Decidable (OrderlyButStores m) := inferInstanceAs (Decidable (∀ _ ∈ _, _))

/-- A call of the first function of the lowered program misses an operand. -/
def Underflows (m : Module) : Prop :=
  ∃ p w, lower m {} = .ok p ∧ callMethod p 20 (.ofProgram p) 0 [] = some (w, .error .stackUnderflow)

theorem underflows_of_run
    (h : (lower m {}).toOption.map (fun p => (callMethod p 20 (.ofProgram p) 0 []).map fun r =>
      r.2 matches .error .stackUnderflow) = some (some true)) : Underflows m := by
  obtain ⟨p, hp, h⟩ := toOption_map_eq_some.mp h
  obtain ⟨⟨w, result⟩, hr, h⟩ := Option.map_eq_some_iff.mp h
  refine ⟨p, w, hp, hr.trans ?_⟩
  dsimp only at h
  split at h
  · rfl
  · cases h

theorem stack_underflows_without_values :
    (OrderlyButStores storedValue ∧ Underflows storedValue) ∧
      (OrderlyButStores calledValue ∧ Underflows calledValue) := by
  constructor
  · exact ⟨by decide +kernel, underflows_of_run (by decide +kernel)⟩
  · exact ⟨by decide +kernel, underflows_of_run (by decide +kernel)⟩

end Stackify.Lower
