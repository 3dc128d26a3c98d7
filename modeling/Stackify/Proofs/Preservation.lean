import Stackify.Proofs.EdgeRuns

/-!
Lowered functions compute what their source computes.

A run of the source goes from block to block, and so does a run of the machine: at the label of each
block, arguments and locals hold the words of the source, and the stack is empty
(`Context.run_steps`). So a call that returns in the source returns the same value from the machine:

    lower md o = .ok p → f.Arithmetical → f.call n args = some v →
      ∃ fuel, callMethod p fuel w i (args.map Word.value) = some (w, .ok (v.map Word.value))
-/

namespace Stackify.Lower

open Code (Op Label Method Program position?)
open Machine (Value State World CodeAt Steps step callMethod)
open Stackify.Flow (Valuation Takes Exits Followed)
open Ssa (Module Function Word ValueId Instruction Env Exit Evaluation Evaluates Executes exit?)
open Resolve (Denotes)
open List Option

/-! ## Methods -/

/-- The type of a method is that of its function. -/
structure TypedAs (f : Function) (m : Method) : Prop where
  params : m.type.params.length = f.type.params.length
  variadic : m.type.variadic = f.type.variadic
  ret : Denotes f.type.ret m.type.ret

variable {md : Module} {o : Options} {p : Program} {f : Function} {i : Nat}

/-- The functions of a module that have a body are translated, in order. -/
theorem translated_of_lower (h : lower md o = .ok p)
    (hi : (md.functions.filter fun f => !f.isDeclaration)[i]? = some f) (hf : f.Regular) :
    ∃ m c, p.methods[i]? = some m ∧ Translated p m c f ∧ TypedAs f m := by
  obtain ⟨d, hd, hp⟩ := lower_eq_ok h
  have hd := declare_declaration hd
  have hz : (md.functions.filter fun f => !f.isDeclaration).zipIdx[i]? = some (f, i) := by
    rw [getElem?_zipIdx, hi]
    simp
  obtain ⟨e, he, hentry⟩ := forall₂_some_left hd.entries hz
  obtain ⟨m, hm, hcode⟩ := hp.method he
  obtain ⟨g, slots, hg, hbody⟩ := hcode.body
  obtain ⟨blocks, nodes, moved, hshape⟩ := Declared.graph_shape hg
  have hdenotes := fun ty s => resolveModule_denotes hd.resolved (t := ty) (s := s)
  have hfunction : e.function = f := hentry.function
  rw [hfunction] at hshape
  refine ⟨m, ⟨d, g, slots⟩, hm, ⟨hf, ⟨_, blocks, nodes, moved, hshape⟩, hbody, hdenotes⟩, ?_⟩
  have htype : d.resolver.lookupSignature? f.type = some e.type := hentry.type
  obtain ⟨hparams, hret, hvariadic⟩ := Resolve.Resolver.lookupSignature?_eq_some htype
  rw [← hcode.type] at hparams hret hvariadic
  exact ⟨(forall₂_of_mapM hparams).length_eq.symm, hvariadic, hdenotes _ _ hret⟩

/-- A method for a function with integers for results returns values. -/
theorem TypedAs.isVoid_int {m : Method} (h : TypedAs f m) {bits : Nat}
    (hret : f.type.ret = .int bits) : m.type.ret.isVoid = false := by
  have hdenotes := h.ret
  rw [hret, Denotes] at hdenotes
  split at hdenotes
  · rw [hdenotes]
    rfl
  · obtain ⟨_, -, hdenotes⟩ := hdenotes
    rw [hdenotes]
    rfl

/-- A method returns a value if its function does. -/
theorem TypedAs.isVoid {m : Method} (h : TypedAs f m) {v : Option Word} (hv : f.returns v = true) :
    m.type.ret.isVoid = v.isNone := by
  cases v with
  | none =>
    have hret := h.ret
    rw [show f.type.ret = .void from of_decide_eq_true hv] at hret
    rw [show m.type.ret = .void from hret]
    rfl
  | some w => exact h.isVoid_int (Ssa.Ty.int?_eq_some.mp (of_decide_eq_true hv))

namespace Context

/-! ## Blocks -/

variable {m : Method} {c : Context} {s : State} {b₀ : Ssa.Block} {b : Flow.Block} {ν : Valuation}
  {locals : List Value} {pc : Nat} {v : Option Word} {e : Exit} {is : List Instruction}
  {last : Instruction} {ρ' : Env} {args : List Word}

theorem exists_block (h : Translated p m c f) (hb₀ : f.blocks[i]? = some b₀) :
    ∃ b, c.graph.blocks[i]? = some b ∧ b.id = b₀.id := by
  obtain ⟨_, _, _, _, hshape⟩ := h.shape
  have hid : (c.graph.blocks.map (·.id))[i]? = some b₀.id := by
    rw [hshape.block_ids, getElem?_map, hb₀, map_some]
  rw [getElem?_map] at hid
  exact map_eq_some_iff.mp hid

theorem blockIndex?_eq_some (h : Translated p m c f) (hf : f.Arithmetical)
    (hb : c.graph.blocks[i]? = some b) : c.graph.blockIndex? b.id = some i := by
  obtain ⟨_, _, _, _, hshape⟩ := h.shape
  exact (Flow.blockIndex?_eq_some_iff (hshape.block_ids ▸ hf.blocks)).mpr ⟨b, hb, rfl⟩

theorem Reaches.of_steps {source : Nat} {start start' : State} (hs : Steps p start start')
    (h : Reaches p m c s ν source start' e) : Reaches p m c s ν source start e := by
  cases e with
  | jump id =>
    intro target pc values hid hpos ht
    obtain ⟨locals, hholds, hsteps⟩ := h target pc values hid hpos ht
    exact ⟨locals, hholds, hs.trans hsteps⟩
  | ret v =>
    intro hv hc
    obtain ⟨t, hsteps, ht⟩ := h hv hc
    exact ⟨t, hs.trans hsteps, ht⟩

/-- From the label of a block, its code gets to where its last node goes, with the words that the
block computes. -/
theorem node_reaches {E : Evaluation} (hE : Followed E) (h : Translated p m c f)
    (hbits : ∀ x ∈ f.instructions, Flow.FitsBits x)
    (hphis : ∀ ρ, ∀ x ∈ f.instructions, x.opcode = .phi → ∀ o ∈ x.operands, Flow.Settled E ρ o)
    (hm : p.methods[s.current.method]? = some m) (hb₀ : f.blocks[i]? = some b₀)
    (hb : c.graph.blocks[i]? = some b) (his : b₀.instructions = is ++ [last])
    (hlast : last.isTerminator = true) (hx : Executes E ν.values is ρ')
    (hsettled : ∀ (r : Resolve.Resolver) (n : Flow.Node), n.Computes r last.operation →
      ∀ o ∈ last.operands, Flow.Settled E ρ' o) (hexits :
      ∀ (r : Resolve.Resolver) (n : Flow.Node) (ν' : Valuation), n.Computes r last.operation →
        ν'.values = ρ' → Forall₂ (ν'.Reads E) last.operands n.operands → Exits ν' n e) (hpos :
        position? m.body.ops i = some pc) (hh : Holds c s.current.args ν locals) :
    ∃ ν' bound, ν'.values = ρ' ∧
      (∀ j n, c.graph.node? j = some n →
        n.Supplied E (c.graph.blocks.map (·.id)) i bound ν' f.instructions) ∧
      Reaches p m c s ν' i (s.at ⟨locals, []⟩ pc) e := by
  obtain ⟨_, _, _, _, hshape⟩ := h.shape
  obtain ⟨init, j, n, ν', bound, hins, hn, hevals, hvalues, hcomputes, hreads, hsupplied⟩ :=
    hshape.evals_block hE h.regular hbits hphis hb hb₀ his hlast hx (hsettled _)
  have hexits := hexits _ n ν' hcomputes hvalues hreads
  obtain ⟨exception, pc', _, _, hat, ⟨waiting, q, q', -, hnodes, htrampolines, hops⟩, hpos', -⟩ :=
    block_code h.body hb
  cases hops
  cases hpos.symm.trans hpos'
  have hblock : n.block = i := by
    obtain ⟨n', hn', hblock⟩ := hshape.placed hb (j := j) (by simp [hins])
    cases hn.symm.trans hn'
    exact hblock
  rw [hins] at hnodes
  obtain ⟨q₁, q₂, _, _, hq₁, hq₂, rfl⟩ := hnodes.append
  -- The label, the nodes before the last one, and the last one.
  have hlabel := Machine.does_label (a := ⟨locals, []⟩) hm i pc (CodeAt.left (a := [_]) hat)
  obtain ⟨locals', hdoes, hholds⟩ :=
    hq₁.does h hm rfl hb (show b.instructions = [] ++ (init ++ [j]) from hins) hevals hh
  have hsteps := hdoes (pc + 1) hat.tail.left.left
  obtain _ | ⟨hn', -⟩ | ⟨hn', hcode, _ | _⟩ := hq₂
  · cases hn.symm.trans hn'
  · cases hn.symm.trans hn'
    refine ⟨ν', bound, hvalues, hsupplied, .of_steps (hlabel.trans hsteps) ?_⟩
    rw [← hblock]
    refine hcode.exits h hm (follows h hb hins hn) hholds rfl ?_ hexits hat.tail.left.right.left
    exact fun t ht => Concat.at_mem htrampolines hat.tail.right ht

/-- From the label of a block, its code gets to where the block goes, with the words that it
computes. -/
theorem block_reaches (h : Translated p m c f) (hf : f.Arithmetical)
    (hm : p.methods[s.current.method]? = some m) (hb₀ : f.blocks[i]? = some b₀)
    (hb : c.graph.blocks[i]? = some b) (his : b₀.instructions = is ++ [last])
    (hlast : last.isTerminator = true) (hx : Executes Evaluates ν.values is ρ')
    (he : exit? ρ' last = some e) (hpos : position? m.body.ops i = some pc)
    (hh : Holds c s.current.args ν locals) : ∃ ν' bound, ν'.values = ρ' ∧
      (∀ j n, c.graph.node? j = some n → n.Supplied Evaluates (c.graph.blocks.map (·.id)) i bound ν'
        f.instructions) ∧
      Reaches p m c s ν' i (s.at ⟨locals, []⟩ pc) e := by
  have hlastmem : last ∈ f.instructions := mem_flatMap.mpr ⟨b₀, mem_of_getElem? hb₀, by simp [his]⟩
  refine node_reaches Flow.evaluates_followed h (Function.fitsBits hf.bits) hf.settled hm hb₀ hb
    his hlast hx (fun _ _ hc => Flow.settled_of_exit? hc he)
      (fun _ _ ν' hc hvalues hreads => ?_) hpos hh
  exact Flow.exits_of_exit? hc hreads (hvalues ▸ he) (hf.cases last hlastmem)

/-- A run that returns in the source returns from the machine. -/
theorem run_steps (h : Translated p m c f) (hf : f.Arithmetical)
    (hm : p.methods[s.current.method]? = some m) (hty : TypedAs f m) (hs : s.callers = []) {n : Nat}
    {front rest : List Instruction} (hb₀ : f.blocks[i]? = some b₀)
    (hsplit : b₀.instructions = front ++ rest) (hfront : ∀ x ∈ front, x.opcode = .phi)
    (hpos : position? m.body.ops i = some pc) (hh : Holds c s.current.args ν locals)
    (hrun : f.run n ⟨b₀.id, rest, ν.values⟩ = some v) :
    ∃ t, Steps p (s.at ⟨locals, []⟩ pc) t ∧ step p t = .finished s.world
      (.ok (v.map Word.value)) := by
  induction n using Nat.strongRecOn generalizing i b₀ front rest ν locals pc with
  | ind n ih =>
    obtain ⟨b, hb, hid⟩ := exists_block h hb₀
    obtain ⟨is, last, his, hlast, hinner⟩ := hf.regular.terminators b₀ (mem_of_getElem? hb₀)
    obtain ⟨is', rfl, rfl⟩ : ∃ is', rest = is' ++ [last] ∧ is = front ++ is' := by
      rcases eq_nil_or_concat rest with rfl | ⟨is', last', rfl⟩
      · rw [his, append_nil] at hsplit
        have hphi := hfront last (by simp [← hsplit])
        rw [Instruction.isTerminator, hphi] at hlast
        cases hlast
      · rw [his, concat_eq_append, ← append_assoc] at hsplit
        obtain ⟨rfl, heq⟩ := append_inj' hsplit rfl
        cases heq
        exact ⟨is', concat_eq_append, rfl⟩
    obtain ⟨ρ', hx, hend⟩ :=
      Function.run_block hrun (fun x hx => hinner x (mem_append_right _ hx)) hlast
    have hx := (Executes.phis hfront).append hx
    rcases hend with ⟨hexit, hret⟩ | ⟨target, c', k, hexit, henter, hk, hrun'⟩
    · obtain ⟨_, _, -, -, hreaches⟩ := block_reaches h hf hm hb₀ hb his hlast hx hexit hpos hh
      exact hreaches (hty.isVoid hret) hs
    · obtain ⟨ν', bound, rfl, hsupplied, hreaches⟩ :=
        block_reaches h hf hm hb₀ hb his hlast hx hexit hpos hh
      obtain ⟨b₁, hb₁, henter⟩ := bind_eq_some_iff.mp henter
      obtain ⟨values, hvalues, henter⟩ := bind_eq_some_iff.mp henter
      cases henter
      obtain ⟨t, ht⟩ := getElem?_of_mem (mem_of_find?_eq_some hb₁)
      obtain rfl : b₁.id = target := by simpa using find?_some hb₁
      obtain ⟨bt, hbt, hidt⟩ := exists_block h ht
      obtain ⟨_, pc', _, _, -, -, hpos', -⟩ := block_code h.body hbt
      obtain ⟨_, _, _, _, hshape⟩ := h.shape
      have htakes : Takes c.graph ν' i (c.phis t) values := by
        rw [phis, hbt]
        exact hshape.takes hf hb hbt ht hsupplied (hid ▸ hvalues)
      obtain ⟨locals', hholds, hsteps⟩ :=
        hreaches t pc' values (hidt ▸ blockIndex?_eq_some h hf hbt) hpos' htakes
      have hsplit₁ : b₁.instructions = b₁.phis ++ b₁.body := takeWhile_append_dropWhile.symm
      have hphis : ∀ x ∈ b₁.phis, x.opcode = .phi := fun x hx => by simpa using mem_takeWhile_imp hx
      obtain ⟨u, hu, hfinished⟩ := ih k hk ht hsplit₁ hphis hpos' hholds hrun'
      exact ⟨u, hsteps.trans hu, hfinished⟩

/-! ## Calls -/

theorem lookup_zip {ks : List ValueId} (h : ks.Nodup) {k : ValueId} (hk : ks[i]? = some k) :
    (ks.zip args).lookup k = args[i]? := by
  induction ks generalizing i args with
  | nil => simp at hk
  | cons k' ks ih =>
    obtain ⟨hnot, hnodup⟩ := nodup_cons.mp h
    cases args with
    | nil => rfl
    | cons a args =>
      rw [zip_cons_cons, lookup_cons]
      cases i with
      | zero =>
        cases hk
        simp
      | succ i =>
        have hne : k ≠ k' := fun heq => hnot (heq ▸ mem_of_getElem? hk)
        rw [beq_eq_false_iff_ne.mpr hne]
        exact ih hnodup hk

/-- When a call begins, arguments hold the words of the parameters, and nothing else has a word. -/
theorem holds_start (h : Translated p m c f) (rest : List Value)
    (hargs : f.params.map (·.ty.storage?) = args.map fun w => some w.ty) :
    Holds c (args.map Word.value ++ rest) ⟨Env.empty.assign ((f.params.map (·.id)).zip args),
      fun _ => none⟩ (m.body.locals.map (Machine.defaultValue p.records)) := by
  obtain ⟨_, _, _, _, hshape⟩ := h.shape
  have hassigned (id : ValueId) : Env.empty.assign ((f.params.map (·.id)).zip args) id =
      ((f.params.map (·.id)).zip args).lookup id := or_none
  refine ⟨fun i q w hq hw => ?_, fun id n w hn hw => ?_, fun id i hs => ?_⟩
  · rw [hshape.function] at hq
    have hid : (f.params.map (·.id))[i]? = some q.id := by rw [getElem?_map, hq, map_some]
    replace hw := (hassigned q.id).symm.trans hw
    rw [lookup_zip (nodup_append.mp h.regular.values).1 hid] at hw
    have hty := congrArg (·[i]?) hargs
    simp only [getElem?_map, hq, hw, map_some, some.injEq] at hty
    refine ⟨hty, ?_⟩
    rw [getElem?_append_left (by simpa using (lt_of_getElem? hw)), getElem?_map, hw, map_some]
  · cases hk : n.key with
    | synthesized k =>
      rw [hk] at hw
      cases hw
    | value id =>
      rw [hk] at hw
      replace hw := (hassigned id).symm.trans hw
      obtain ⟨l, l', hl, -⟩ := lookup_eq_some_iff.mp hw
      have hmem : (id, w) ∈ (f.params.map (·.id)).zip args := by simp [hl]
      obtain ⟨q, hq, rfl⟩ := List.mem_map.mp (of_mem_zip hmem).1
      exact absurd hk (h.param_ne hn (hshape.function ▸ hq))
  · rw [length_map]
    exact h.slot_lt hs

end Context

/-- A method that gets to its end returns from the call. -/
theorem callMethod_of_steps {m : Method} (hm : p.methods[i]? = some m) {args : List Value}
    (hargs : args.length = m.type.argSlots) {w : World} {t : State}
    {r : Except Machine.Fault (Option Value)}
    (hsteps : Steps p ⟨⟨i, args, m.body.locals.map (Machine.defaultValue p.records), [], 0,
      .pushed⟩, [], w⟩ t) (hfinished : step p t = .finished w r) : ∃ fuel, ∀ more,
        callMethod p (fuel + more) w i args = some (w, r) := by
  have henter : Machine.enter p 0 i args .pushed = .ok _ :=
    Machine.enter_eq_ok.mpr ⟨m, hm, hargs, by decide, rfl⟩
  obtain ⟨fuel, hfuel⟩ := Machine.run_of_steps hsteps hfinished
  refine ⟨fuel, fun more => ?_⟩
  rw [callMethod, henter]
  exact Machine.run_add hfuel more

theorem stored_params {ps : List Ssa.Param} {args : List Word}
    (h : ps.map (·.ty.int?) = args.map fun w => some w.ty) :
    ps.map (·.ty.storage?) = args.map fun w => some w.ty :=
  map_eq_map_iff_forall₂.mpr ((map_eq_map_iff_forall₂.mp h).imp fun _ _ => Ssa.Ty.storage?_of_int?)

/-- **Lowered functions return what their source returns.** If a call of a function of integers
returns in the source, after any number of steps, then a call of its method with the values of these
arguments returns the same value, and changes nothing outside. A method for further arguments takes
them in a list behind the others. -/
theorem callMethod_of_call {md : Module} {o : Options} {p : Program} (h : lower md o = .ok p)
    {i : Nat} {f : Function} (hi : (md.functions.filter fun f => !f.isDeclaration)[i]? = some f)
    (hf : f.Arithmetical) {n : Nat} {args : List Word} {v : Option Word}
    (hcall : f.call n args = some v) (rest : List Value)
    (hrest : args.length + rest.length = f.type.params.length + f.type.variadic.toNat) (w : World) :
    ∃ fuel, ∀ more, callMethod p (fuel + more) w i
      (args.map Word.value ++ rest) = some (w, .ok (v.map Word.value)) := by
  obtain ⟨m, c, hm, ht, hty⟩ := translated_of_lower h hi hf.regular
  obtain ⟨start, hstart, hrun⟩ := bind_eq_some_iff.mp hcall
  obtain ⟨b₀, hb₀, hstart⟩ := bind_eq_some_iff.mp hstart
  rw [head?_eq_getElem?] at hb₀
  split at hstart
  · next hargs =>
    cases hstart
    have hslots : (args.map Word.value ++ rest).length = m.type.argSlots := by
      rw [length_append, length_map, hrest, Code.MethodType.argSlots, hty.params, hty.variadic]
    obtain ⟨b, hb, -⟩ := Context.exists_block ht hb₀
    have hholds := Context.holds_start ht rest (stored_params hargs)
    obtain ⟨t, hsteps, hfinished⟩ := Context.run_steps
      (s := ⟨⟨i, args.map Word.value ++ rest, m.body.locals.map (Machine.defaultValue p.records),
        [], 0, .pushed⟩, [], w⟩)
      ht hf hm hty rfl hb₀ (nil_append _).symm (by simp) (Context.first_at ht hb) hholds hrun
    exact callMethod_of_steps hm hslots hsteps hfinished
  · cases hstart

/-- Fibonacci numbers, the odd ones from 5 on tripled, in two's complement of a byte. The phis of
the loop read each other, one of them begins with an expression, and the ways out of the loop join
in a phi behind a switch. -/
def fibonacci : Function where
  name := "fibonacci"
  type := ⟨.int 32, [.int 32], false⟩
  params := [{ id := 0, ty := .int 32 }]
  blocks :=
    let int (n : Int) : Ssa.Operand := .const (.int (.int 32) n)
    [{ id := 0, instructions := [{ id := 1, opcode := .br, ty := .void, operands := [.block 1] }] },
     { id := 1, instructions :=
       [{ id := 2, opcode := .phi, ty := .int 32, operands := [int 0, .value 3], info :=
            .phi [0, 2] },
        { id := 3, opcode := .phi, ty := .int 32, operands :=
            [.expr .sub (.int 32) [int 3, int 2] .plain, .value 7],
          info := .phi [0, 2] },
        { id := 4, opcode := .phi, ty := .int 32, operands := [int 0, .value 8], info :=
            .phi [0, 2] },
        { id := 5, opcode := .icmp, ty := .int 1, operands := [.value 4, .value 0], info :=
            .predicate 36 },
        { id := 6, opcode := .br, ty := .void, operands := [.value 5, .block 2, .block 3] }] },
     { id := 2, instructions :=
       [{ id := 7, opcode := .add, ty := .int 32, operands := [.value 2, .value 3] },
        { id := 8, opcode := .add, ty := .int 32, operands := [.value 4, int 1] },
        { id := 9, opcode := .br, ty := .void, operands := [.block 1] }] },
     { id := 3, instructions :=
       [{ id := 10, opcode := .and, ty := .int 32, operands := [.value 2, int 1] },
        { id := 11, opcode := .switch, ty := .void, operands :=
            [.value 10, .block 4, int 0, .block 5] }] },
     { id := 4, instructions :=
       [{ id := 12, opcode := .icmp, ty := .int 1, operands := [.value 2, int 5], info :=
            .predicate 40 },
        { id := 13, opcode := .mul, ty := .int 32, operands := [.value 2, int 3] },
        { id := 14, opcode := .select, ty := .int 32, operands :=
            [.value 12, .value 2, .value 13] },
        { id := 15, opcode := .br, ty := .void, operands := [.block 5] }] },
     { id := 5, instructions :=
       [{ id := 16, opcode := .phi, ty := .int 32, operands := [.value 2, .value 14], info :=
            .phi [3, 4] },
        { id := 17, opcode := .trunc, ty := .int 8, operands := [.value 16] },
        { id := 18, opcode := .sext, ty := .int 32, operands := [.value 17] },
        { id := 19, opcode := .ret, ty := .void, operands := [.value 18] }] }]

theorem fibonacci_callMethod_of_call :
    ∃ p, lower { functions := [fibonacci] } {} = .ok p ∧ fibonacci.Arithmetical ∧ fibonacci.call 100
      [.ofInt .i32 11] = some (some (.ofInt .i32 11)) ∧
    fibonacci.call 100 [.ofInt .i32 12] = some (some (.ofInt .i32 (-112))) ∧ ∀ w,
      (∃ fuel, ∀ more, callMethod p (fuel + more) w 0 [.int .w32 11] =
        some (w, .ok (some (.int .w32 11)))) ∧
      ∃ fuel, ∀ more, callMethod p (fuel + more) w 0 [.int .w32 12] =
        some (w, .ok (some (.int .w32 (-112)))) := by
  obtain ⟨p, hp, -⟩ :=
    toOption_map_eq_some.mp (show (lower { functions := [fibonacci] } {}).toOption.map (fun _ =>
      ()) = some () by decide +kernel)
  have hf : fibonacci.Arithmetical := by decide +kernel
  have hodd : fibonacci.call 100 [.ofInt .i32 11] = some (some (.ofInt .i32 11)) := by
    decide +kernel
  have heven : fibonacci.call 100 [.ofInt .i32 12] = some (some (.ofInt .i32 (-112))) := by
    decide +kernel
  exact ⟨p, hp, hf, hodd, heven, fun w => ⟨callMethod_of_call hp rfl hf hodd [] rfl w,
    callMethod_of_call hp rfl hf heven [] rfl w⟩⟩

end Stackify.Lower
