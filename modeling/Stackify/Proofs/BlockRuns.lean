import Stackify.Proofs.FrameSteps
import Stackify.Proofs.StackDiscipline

/-!
Runs of code that is divided into blocks.

A run comes only to places that control can be at. From one step to the next a frame stays in its
block or follows an edge to the label of another one, and there is always an operation to go on with
(`Placed.step`, `Placed.has_op`). In a lowered program these are the edges of the graphs that its
methods are made from (`blocks_transfer`).
-/

namespace Stackify.Machine

open Code (Op Label Method Program Advances)

/-- All methods of a program are divided into blocks. -/
def Divided (p : Program) (count : Nat → Nat) (edge : Nat → Nat → Nat → Prop) : Prop :=
  ∀ (k : Nat) (m : Method), p.methods[k]? = some m → m.body.Divided (count k) (edge k)

/-- A frame is where control can be; if it waits for a call, control can go on behind it. -/
def Frame.Placed (p : Program) (waits : Prop) (f : Frame) : Prop :=
  ∃ m, p.methods[f.method]? = some m ∧ m.body.Open f.pc ∧
    (waits → ∃ op, m.body.ops[f.pc]? = some op ∧ op.isFinal = false)

/-- All frames of a state are where control can be. -/
def Placed (p : Program) (s : State) : Prop :=
  ∀ (d : Nat) (f : Frame), s.frames[d]? = some f → f.Placed p (d < s.depth)

variable {p : Program} {count : Nat → Nat} {edge : Nat → Nat → Nat → Prop} {s t : State}
  {m : Method} {op : Op} {d : Nat} {f g : Frame}

/-- A step adds at most one frame, which is that of a call. -/
theorem step_depth (h : step p s = .running t) :
    t.depth ≤ s.depth ∨ t.depth = s.depth + 1 ∧ ∃ frames k args use, enter p frames k args use =
      .ok t.current := by
  obtain ⟨m, op, -, -, hgoes⟩ := step_running h
  cases hgoes with
  | next vs hacts => exact .inl (Nat.le_of_eq (hacts.alters vs).depth)
  | jump => exact .inl (Nat.le_refl _)
  | call _ _ hf => exact .inr ⟨rfl, _, _, _, _, hf⟩
  | returns _ _ _ hc => exact .inl (by simp [State.depth, hc])
  | @catches _ inner outer f _ _ _ _ hsplit =>
    have hlength : s.depth + 1 = (inner ++ f :: outer).length := congrArg List.length hsplit
    rw [List.length_append, List.length_cons] at hlength
    exact .inl (show outer.length ≤ s.depth by omega)

/-- The frame of a new call is at the beginning of its method. -/
theorem step_new_frame (h : step p s = .running t) (hg : t.frames[d]? = some g) (hd : s.depth < d) :
    d = t.depth ∧ g.pc = 0 ∧ ∃ m, p.methods[g.method]? = some m := by
  have hlt := lt_of_getElem? hg
  rw [State.length_frames] at hlt
  rcases step_depth h with hle | ⟨hdepth, frames, k, args, use, henter⟩
  · omega
  · obtain rfl : d = t.depth := by omega
    cases hg.symm.trans t.frames_depth
    obtain ⟨m, hm, -, -, hframe⟩ := enter_eq_ok.mp henter
    rw [hframe]
    exact ⟨rfl, rfl, m, hm⟩

/-- There is an operation to go on with. -/
theorem Placed.has_op (hs : Placed p s) :
    ∃ m op, p.methods[s.current.method]? = some m ∧ m.body.ops[s.current.pc]? = some op := by
  obtain ⟨m, hm, ⟨⟨op, ho⟩, -⟩, -⟩ := hs _ _ s.frames_depth
  exact ⟨m, op, hm, ho⟩

section
variable (hp : Divided p count edge)
include hp

/-- A step leaves every frame where control can be, and takes it there along the ways that its
method has. -/
theorem Placed.frame (hs : Placed p s) (h : step p s = .running t) (hf : s.frames[d]? = some f)
    (hg : t.frames[d]? = some g) :
    g.Placed p (d < t.depth) ∧ g.method = f.method ∧
      ∃ m, p.methods[f.method]? = some m ∧ Advances (count f.method)
        (edge f.method) m.body.ops f.pc g.pc := by
  obtain ⟨m, op, hm, ho⟩ := exists_op_of_running h
  have hlt := lt_of_getElem? hg
  rw [State.length_frames] at hlt
  obtain ⟨g', hg', hkept, hcontrol⟩ := step_frame hm ho h hf (Nat.le_of_lt_succ hlt)
  cases hg.symm.trans hg'
  obtain ⟨m', hm', hopen, hwaits⟩ := hs d f hf
  have hdivided := hp _ m' hm'
  have hmethod := hkept.method
  -- Only the frame on top is at the operation that is executed.
  have current (hd : d = s.depth) : f = s.current ∧ m' = m := by
    subst hd
    cases hf.symm.trans s.frames_depth
    cases hm.symm.trans hm'
    exact ⟨rfl, rfl⟩
  have arrives (hopen : m'.body.Open g.pc ∧
      Advances (count f.method) (edge f.method) m'.body.ops f.pc g.pc)
      (hwaits : d < t.depth → ∃ op, m'.body.ops[g.pc]? = some op ∧ op.isFinal = false) :
      g.Placed p (d < t.depth) ∧ g.method = f.method ∧
        ∃ m, p.methods[f.method]? = some m ∧
          Advances (count f.method) (edge f.method) m.body.ops f.pc g.pc := by
    exact ⟨⟨m', hmethod ▸ hm', hopen.1, hwaits⟩, hmethod, m', hm', hopen.2⟩
  cases hcontrol with
  | waits hd ht hbare =>
    have hpc : g.pc = f.pc := (congrArg Frame.pc hbare).trans rfl
    refine arrives ⟨by rwa [hpc], .stays hpc⟩ fun _ => ?_
    rw [hpc]
    exact hwaits hd
  | returns vs hd ht hop hbare =>
    have hpc : g.pc = f.pc + 1 := (congrArg Frame.pc hbare).trans rfl
    obtain ⟨op', ho', hfinal⟩ := hwaits hd
    refine arrives ?_ (by omega)
    rw [hpc]
    exact hdivided.next hopen ho' hfinal
  | @catches _ pc ht hr hpc hbare =>
    rw [hm', Option.bind_some] at hpc
    obtain ⟨r, hregion, first, last, hfirst, hlast, hhandler, hlt, hlt'⟩ := handler?_covers hpc
    have hpc' : g.pc = pc := (congrArg Frame.pc hbare).trans rfl
    refine arrives ?_ (by omega)
    rw [hpc']
    exact hdivided.handle r hregion hfirst hlast hhandler hlt hlt'
  | calls hd ht hop hbare =>
    obtain ⟨rfl, rfl⟩ := current hd
    have hpc : g.pc = s.current.pc := (congrArg Frame.pc hbare).trans rfl
    refine arrives ⟨by rwa [hpc], .stays hpc⟩ fun _ => ⟨op, by rw [hpc, ho], ?_⟩
    rcases hop with ⟨_, _, rfl⟩ | ⟨_, _, rfl⟩ <;> rfl
  | goesOn hd ht hx hnext =>
    obtain ⟨rfl, rfl⟩ := current hd
    have hpc : g.pc = s.current.pc + 1 := congrArg Frame.pc hnext
    refine arrives ?_ (by omega)
    rw [hpc]
    exact hdivided.next hopen ho (execute_next hx).1
  | jumps hd ht hl hlabel =>
    obtain ⟨rfl, rfl⟩ := current hd
    exact arrives (hdivided.jump ho hl hlabel) (by omega)

theorem Placed.step (hs : Placed p s) (h : Machine.step p s = .running t) : Placed p t := by
  intro d g hg
  rcases Nat.lt_or_ge s.depth d with hd | hd
  · obtain ⟨hdepth, hpc, m, hm⟩ := step_new_frame h hg hd
    refine ⟨m, hm, ?_, by omega⟩
    rw [hpc]
    exact (hp _ m hm).first
  · obtain ⟨f, hf⟩ : ∃ f, s.frames[d]? = some f :=
      ⟨_, List.getElem?_eq_getElem (by rw [State.length_frames]; omega)⟩
    exact (hs.frame hp h hf hg).1

theorem Placed.run {k : Nat} {args : List Value} {w : World} (hf : enter p 0 k args .pushed = .ok f)
    (ht : Steps p ⟨f, [], w⟩ t) : Placed p t := by
  refine ht.invariant (fun s t hs h => Placed.step hp hs h) ?_
  obtain ⟨m, hm, -, -, rfl⟩ := enter_eq_ok.mp hf
  intro d g hg
  obtain ⟨rfl, rfl⟩ : d = 0 ∧ _ = g := by simpa [State.frames, List.getElem?_singleton] using hg
  exact ⟨m, hm, (hp k m hm).first, by simp [State.depth]⟩

end

end Stackify.Machine

namespace Stackify.Lower

open Code (Op Label Region Body Program Method Advances markedLabels)
open Stackify.Flow (Graph)
open Ssa (Module)
open Machine (State Frame World Value Steps enter step callMethod)
open List

/-! ## Lowered programs -/

/-- The code of a body is that of the blocks of a graph, in order: each one begins with its label
and ends with a transfer, and other labels do not begin blocks. -/
def ClosedBlocks (g : Graph) (b : Body) : Prop :=
  ∃ codes : List (List Op), codes.length = g.blocks.length ∧
    b.ops = Code.joined (List.range g.blocks.length) codes ∧
      ∀ code ∈ codes, Code.Closed b.regions code ∧ ∀ l ∈ markedLabels code, g.blocks.length ≤ l

variable {m : Module} {o : Options} {d : Declared} {p : Program} {e : MethodEntry} {method : Method}

theorem method_divided (hd : Declaration m o d) (hm : ∀ f ∈ m.functions, f.Direct) {k : Nat}
    (he : d.methods[k]? = some e) {pool : List Code.Const} (hcode : MethodCode d pool e method) :
    ∃ g, d.graph e = .ok g ∧ ClosedBlocks g method.body ∧
      method.body.Divided g.blocks.length g.Leads := by
  obtain ⟨g, slots, hg, hbody⟩ := hcode.body
  obtain ⟨blocks, nodes, moved, hshape⟩ := Declared.graph_shape hg
  have hpos : 0 < g.blocks.length := by
    have hmem : e.function ∈ m.functions.filter fun f => !f.isDeclaration :=
      hd.functions ▸ List.mem_map_of_mem (mem_of_getElem? he)
    have hblocks : e.function.blocks ≠ [] := by
      simpa [Ssa.Function.isDeclaration] using (mem_filter.mp hmem).2
    exact hshape.length_blocks ▸ length_pos_of_ne_nil hblocks
  obtain ⟨parts, hparts⟩ := hbody.parted hshape fun i b last n hb hlast hn =>
    hshape.last_transfer (hm _ (hd.index he).2) hb hlast hn
  refine ⟨g, hg, ⟨parts.map Prod.fst, by rw [length_map, hparts.length], hparts.ops,
    List.forall_mem_map.mpr fun part hpart => ?_⟩, hparts.divided hpos⟩
  obtain ⟨i, hi⟩ := getElem?_of_mem hpart
  have hc := hparts.confined i part hi
  exact ⟨hc.sealed.closed (hparts.regions ▸ fun r hr => mem_flatMap.mpr ⟨part, hpart, hr⟩),
    hc.inner⟩

theorem wrapper_divided (h : wrapperMethod d e = .ok method) :
    method.body.Divided 0 fun _ _ => False := by
  unfold wrapperMethod at h
  split at h
  · cases h
  · next ret hret =>
    cases h
    refine .of_straight (append_assoc _ [Op.call e.index e.type.argSlots, .loadLocal 0] [.ret]).symm
      ?_ rfl
    simp only [forall_mem_append, forall_mem_cons, List.forall_mem_map]
    simp [Op.isFinal, Op.targets]

/-- Every method of a lowered program is divided into the blocks of its graph. -/
theorem divided (hd : Declaration m o d) (hm : ∀ f ∈ m.functions, f.Direct) (hp : ProgramCode d p) :
    ∃ count edge, Machine.Divided p count edge ∧ ∀ (k : Nat) e g, d.methods[k]? = some e →
      d.graph e = .ok g → count k = g.blocks.length ∧ edge k = g.Leads := by
  have hall (k : Nat) : ∃ (count : Nat) (edge : Nat → Nat → Prop),
      (∀ method, p.methods[k]? = some method → method.body.Divided count edge) ∧
        ∀ e g, d.methods[k]? = some e → d.graph e = .ok g → count = g.blocks.length ∧
          edge = g.Leads := by
    cases he : d.methods[k]? with
    | some e =>
      obtain ⟨method, hk, hcode⟩ := hp.method he
      obtain ⟨g, hg, -, hdivided⟩ := method_divided hd hm he hcode
      refine ⟨g.blocks.length, g.Leads, fun method' hk' => ?_, fun e' g' he' hg' => ?_⟩
      · cases hk.symm.trans hk'
        exact hdivided
      · cases he'
        cases hg.symm.trans hg'
        exact ⟨rfl, rfl⟩
    | none =>
      refine ⟨0, fun _ _ => False, fun method hk => ?_, by simp⟩
      rcases hp.origin hk with ⟨e, he', -⟩ | ⟨e, hwrapper⟩
      · cases he.symm.trans he'
      · exact wrapper_divided hwrapper
  choose count edge hdivided hgraph using hall
  exact ⟨count, edge, hdivided, hgraph⟩

/-- How frames move in a step: one that was there before stays in its block, or jumps to the label
of a block that its own one leads to; a new one begins at the beginning. -/
structure FollowsBlocks (d : Declared) (p : Program) (s t : State) : Prop where
  frames : ∀ (depth : Nat) (f f' : Frame), s.frames[depth]? = some f → t.frames[depth]? = some f' →
    f'.method = f.method ∧ ∀ e g method, d.methods[f.method]? = some e → d.graph e = .ok g →
      p.methods[f.method]? = some method →
        Advances g.blocks.length g.Leads method.body.ops f.pc f'.pc
  calls : ∀ (depth : Nat) (f' : Frame), s.depth < depth → t.frames[depth]? = some f' → f'.pc = 0

/-- **No block falls through.** If no block ends with a jump to an address or a call that jumps, the
code of every block ends with a transfer. In every run of every method a block is entered only by a
jump to its label, out of a block that names it where it ends or in a terminator further up, and no
run comes to the end of the code of a method. -/
theorem blocks_transfer {m : Module} {o : Options} {d : Declared} {p : Program}
    (hd : declare m o = .ok d) (hp : lower m o = .ok p) (hm : ∀ f ∈ m.functions, f.Direct) :
    (∀ (k : Nat) e, d.methods[k]? = some e →
      ∃ method g, p.methods[k]? = some method ∧ d.graph e = .ok g ∧ ClosedBlocks g method.body) ∧
    (∀ w k args f s t, enter p 0 k args .pushed = .ok f → Steps p ⟨f, [], w⟩ s →
      step p s = .running t → FollowsBlocks d p s t) ∧
    ∀ fuel w w' k args name, callMethod p fuel w k args ≠ some (w', .error (.ranPastEnd name)) := by
  have hdeclaration := declare_declaration hd
  have hcode : ProgramCode d p := by
    obtain ⟨d', hd', hcode⟩ := lower_eq_ok hp
    cases hd.symm.trans hd'
    exact hcode
  obtain ⟨count, edge, hdivided, hgraph⟩ := divided hdeclaration hm hcode
  refine ⟨fun k e he => ?_, fun w k args f s t hf hs h => ⟨fun depth f f' hframe hframe' => ?_,
    fun depth f' hlt hframe' => ?_⟩, fun fuel w w' k args name h => ?_⟩
  · obtain ⟨method, hk, hmethod⟩ := hcode.method he
    obtain ⟨g, hg, hclosed, -⟩ := method_divided hdeclaration hm he hmethod
    exact ⟨method, g, hk, hg, hclosed⟩
  · obtain ⟨-, hsame, method', hmethod', hmoves⟩ :=
      (Machine.Placed.run hdivided hf hs).frame hdivided h hframe hframe'
    refine ⟨hsame, fun e g method he hg hmethod => ?_⟩
    cases hmethod.symm.trans hmethod'
    obtain ⟨hcount, hedge⟩ := hgraph _ e g he hg
    rwa [hcount, hedge] at hmoves
  · exact (Machine.step_new_frame h hframe' hlt).2.1
  · unfold callMethod at h
    split at h
    · next f hf =>
      obtain ⟨t, ht, hfinished⟩ := Machine.steps_of_run h
      obtain ⟨method, op, hmethod, ho⟩ := (Machine.Placed.run hdivided hf ht).has_op
      rcases Machine.control_fault hfinished rfl with ⟨_, hv, -⟩ | ⟨_, _, _, _, hv, -⟩ | ⟨method',
        hmethod', hnone, -⟩
      · cases hv
      · cases hv
      · cases hmethod.symm.trans hmethod'
        rw [ho] at hnone
        cases hnone
    · next f hf =>
      cases h
      cases Machine.enter_tame _ hf

theorem caught_blocks_transfer :
    ∃ d p f e method g, declare caught {} = .ok d ∧ lower caught {} = .ok p ∧
      (∀ f ∈ caught.functions, f.Direct) ∧ enter p 0 1 [.int .w32 0] .pushed = .ok f ∧
        d.methods[1]? = some e ∧ p.methods[1]? = some method ∧
      d.graph e = .ok g ∧ g.blocks.length = 5 ∧ ClosedBlocks g method.body ∧
      (∀ w s t, Steps p ⟨f, [], w⟩ s → step p s = .running t → FollowsBlocks d p s t) ∧
      ∀ fuel w w' args name, callMethod p fuel w 1 args ≠ some (w', .error (.ranPastEnd name)) := by
  obtain ⟨d, hd, hmethod⟩ := toOption_map_eq_some.mp (show (declare caught {}).toOption.map
    (fun d => (d.methods[1]?).map fun e => e.function.blocks.length) = some (some 5) by
      decide +kernel)
  obtain ⟨e, he, hlength⟩ := Option.map_eq_some_iff.mp hmethod
  obtain ⟨p, hp, hslots⟩ := toOption_map_eq_some.mp (show (lower caught {}).toOption.map
    (fun p => (p.methods[1]?).map fun method => method.type.argSlots) = some (some 1) by
      decide +kernel)
  have hdirect : ∀ f ∈ caught.functions, f.Direct := by decide
  obtain ⟨hblocks, hruns, hcalls⟩ := blocks_transfer hd hp hdirect
  obtain ⟨method, hmethod, hslots⟩ := Option.map_eq_some_iff.mp hslots
  obtain ⟨method', g, hmethod', hg, hclosed⟩ := hblocks 1 e he
  cases hmethod.symm.trans hmethod'
  obtain ⟨blocks, nodes, moved, hshape⟩ := Declared.graph_shape hg
  have henter : enter p 0 1 [.int .w32 0] .pushed = .ok _ :=
    Machine.enter_eq_ok.mpr ⟨method, hmethod, hslots.symm, by decide, rfl⟩
  exact ⟨d, p, _, e, method, g, hd, hp, hdirect, henter, he, hmethod, hg,
    hshape.length_blocks.trans hlength, hclosed, fun w s t hs h =>
      hruns w 1 _ _ s t henter hs h, fun fuel w w' args name => hcalls fuel w w' 1 args name⟩

/-! ## Jumps to addresses -/

/-- A function with an address as its argument. -/
def jumping (blocks : List Ssa.Block) : Module where
  functions :=
    [{ name := "jump", type := ⟨.int 32, [.pointer], false⟩, params :=
         [{ id := 0, ty := .pointer }], blocks }]

/-- A block that jumps to the address of another one. -/
def addressJump (id target : Ssa.BlockId) : Ssa.Block where
  id
  instructions :=
    [{ id := id + 1, opcode := .indirectBr, ty := .void, operands := [.value 0, .block target] }]

def returnBlock (id : Ssa.BlockId) : Ssa.Block where
  id
  instructions :=
    [{ id := id + 1, opcode := .ret, ty := .void, operands := [.const (.int (.int 32) id)] }]

def branchBlock (id target : Ssa.BlockId) : Ssa.Block where
  id
  instructions := [{ id := id + 1, opcode := .br, ty := .void, operands := [.block target] }]

/-- The first block names the last one only, but goes on into the one between them. -/
def fallingThrough : Module := jumping [addressJump 0 2, returnBlock 1, returnBlock 2]

/-- The last block names the one in front of it, but goes on behind the code. -/
def runningOut : Module := jumping [branchBlock 0 2, returnBlock 1, addressJump 2 1]

/-- Whether a call ends because there is no more code. -/
def endsPastCode : Option (World × Except Machine.Fault (Option Value)) → Bool
  | some (_, .error (.ranPastEnd _)) => true
  | _ => false

theorem endsPastCode_eq_true {r : Option (World × Except Machine.Fault (Option Value))}
    (h : endsPastCode r = true) : ∃ w name, r = some (w, .error (.ranPastEnd name)) := by
  unfold endsPastCode at h
  split at h
  · exact ⟨_, _, rfl⟩
  · cases h

theorem address_jumps_fall_through :
    (∃ p, lower fallingThrough {} = .ok p ∧
      p.methods.map (·.body.ops) = [[.label 0, .nop, .label 1, .loadConst 0, .ret, .label 2,
        .loadConst 1, .ret]] ∧
      (callMethod p 20 (.ofProgram p) 0 [.null]).bind
      (fun r => r.2.toOption.bind fun v => v.bind Value.toInt?) = some 1) ∧
    ∃ p w name, lower runningOut {} = .ok p ∧
      callMethod p 20 (.ofProgram p) 0 [.null] = some (w, .error (.ranPastEnd name)) := by
  constructor
  · obtain ⟨p, hp, h⟩ :=
      toOption_map_eq_some.mp (show (lower fallingThrough {}).toOption.map (fun p =>
        (p.methods.map (·.body.ops), (callMethod p 20 (.ofProgram p) 0 [.null]).bind (fun r =>
          r.2.toOption.bind fun v => v.bind Value.toInt?))) =
            some ([[.label 0, .nop, .label 1, .loadConst 0, .ret, .label 2, .loadConst 1, .ret]],
              some 1) by decide +kernel)
    exact ⟨p, hp, Prod.mk.inj h⟩
  · obtain ⟨p, hp, h⟩ := toOption_map_eq_some.mp (show (lower runningOut {}).toOption.map (fun p =>
      endsPastCode (callMethod p 20 (.ofProgram p) 0 [.null])) = some true by decide +kernel)
    obtain ⟨w, name, h⟩ := endsPastCode_eq_true h
    exact ⟨p, w, name, hp, h⟩

end Stackify.Lower
