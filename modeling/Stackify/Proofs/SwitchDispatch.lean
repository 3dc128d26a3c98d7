import Stackify.Proofs.EdgeRuns
import Stackify.Proofs.IntegerOperations
import Stackify.Proofs.ParallelCopies

/-!
Which block a switch goes on to.

The numbers of cases and constants that are operands come to the machine on different ways. They
agree at all widths, so that a switch takes the first case whose number, as a constant of the type
of what it looks at, is the value (`switches_select`). For bits they do not: a constant is odd or
even, but the number of a case is kept as it is, and only zero and one are ever taken.
-/

namespace Stackify.Lower

open Code (Op Label Method Program position? blockAt Ty)
open Machine (Value State Data Does CodeAt Steps execute constValue)
open Stackify.Flow (Node NodeId Ref Shape Setting)
open Ssa (Function BlockId Module)
open List Option

/-! ## Values and cases -/

/-- The integers of a type. -/
inductive IsInteger : Ty → Value → Prop
  | bool (b : Bool) : IsInteger .bool (.bool b)
  | int (w : Code.Width) (n : Int) : IsInteger (.int w) (.int w n)

/-- The target of the first case whose number is hit, or else the default. -/
inductive Selects (hit : Int → Prop) (default : BlockId) : List (Int × BlockId) → BlockId → Prop
  | default : Selects hit default [] default
  | found {n : Int} {target : BlockId} {rest : List (Int × BlockId)} :
      hit n → Selects hit default ((n, target) :: rest) target
  | skip {n : Int} {other target : BlockId} {rest : List (Int × BlockId)} :
      ¬ hit n → Selects hit default rest target → Selects hit default ((n, other) :: rest) target

namespace Context

/-- The number of a case is a value, as an operand that is a constant of a type. Among bits it is
zero or one. -/
def Hits (c : Context) (p : Program) (ty : Ssa.Ty) (v : Value) (n : Int) : Prop :=
  (c.constant? (.int ty n)).map (constValue p.records) = some v ∧
    (c.declared.resolver.lookup? ty = some .bool → n = 0 ∨ n = 1)

/-- An operand has a value: it is kept somewhere, or it is on top of the stack. -/
def Supplies (c : Context) (p : Program) (s : State) (locals : List Value) (r : Ref) (v : Value)
    (start stack : List Value) : Prop :=
  (∀ j, ¬ Stacked c r j) ∧ c.read? p s locals r = some v ∧ start = stack ∨ (∃ j, Stacked c r j) ∧
    start = v :: stack

variable {c : Context} {p : Program} {m : Method} {s : State} {v : Value} {t : Ty}
  {ty : Ssa.Ty} {locals start stack : List Value} {r : Ref} {ops : List Op} {pc source : Nat}
  {id default : BlockId} {label : Label} {z : Surround} {types : List Ty}
  {cases : List (Int × BlockId)} {rs : List Code.Region} {i : Nat} {b : Flow.Block} {n : Node}

/-- The machine finds a case by its number exactly if its number is hit. -/
theorem hits_iff (ht : c.declared.resolver.lookup? ty = some t) (hv : IsInteger t v) :
    ∃ kind k, c.numKind? ty = some kind ∧ v.toInt? = some k ∧ ∀ n, Hits c p ty v n ↔
      caseValue kind n = k := by
  cases hv with
  | bool b =>
    refine ⟨.bool, if b then 1 else 0, by rw [numKind?, ht]; rfl, rfl, fun n => ?_⟩
    simp only [Hits, constant?, ht, map_some, constValue, some.injEq, Value.bool.injEq,
      true_implies, caseValue]
    cases b <;> simp <;> omega
  | int w x =>
    refine ⟨.int w, x, by rw [numKind?, ht]; rfl, rfl, fun n => ?_⟩
    have hwrap : w.wrap (w.wrap n) = w.wrap n := by rw [w.wrap_eq n, w.wrap_toInt]
    simp [Hits, constant?, ht, constValue, Value.ofInt, hwrap, caseValue]

theorem CaseLabels.selects {kind : Code.NumKind} {labels : List (Int × Label)}
    (hc : CaseLabels c z source kind cases labels) (hl : LeadsTo c z source default label)
    {hit : Int → Prop} {k : Int} (hk : ∀ n, hit n ↔ caseValue kind n = k) :
    ∃ target, Selects hit default cases target ∧ LeadsTo c z source target
      ((labels.lookup k).getD label) := by
  induction hc with
  | nil => exact ⟨default, .default, hl⟩
  | @cons n target label' _ _ hfirst _ ih =>
    by_cases hn : caseValue kind n = k
    · refine ⟨target, .found ((hk n).mpr hn), ?_⟩
      rw [lookup_cons, beq_iff_eq.mpr hn.symm]
      exact hfirst
    · obtain ⟨target', hselects, hleads⟩ := ih
      refine ⟨target', .skip (mt (hk n).mp hn) hselects, ?_⟩
      rw [lookup_cons, beq_eq_false_iff_ne.mpr (Ne.symm hn)]
      exact hleads

/-! ## Places of nodes -/

theorem NodeCode.of_switch {id : NodeId} (hc : NodeCode c z id n ops rs)
    (hk : n.kind = .switch default cases) : ∃ r rest kind labels label q, n.operands = r :: rest ∧
      c.numKind? (c.operandType r) = some kind ∧ Pushes c z.consts r q ∧
        CaseLabels c z n.block kind cases labels ∧ LeadsTo c z n.block default label ∧
          ops = q ++ [.switchValue labels label] := by
  cases hc with
  | switch hk' ho hkind hq hcases hdefault =>
    cases hk.symm.trans hk'
    exact ⟨_, _, _, _, _, _, ho, hkind, hq, hcases, hdefault, rfl⟩
  | result hq =>
    have hno := hq.not_transfer
    rw [hk] at hno
    cases hno
  | jump hj => cases hj <;> simp_all
  | _ => simp_all

/-- The code of a node stands in its block, together with the trampolines that it refers to. -/
theorem node_code (hc : BodyCode c p.consts m.body) (hb : c.graph.blocks[i]? = some b) {id : NodeId}
    (hid : id ∈ b.instructions) (hn : c.graph.node? id = some n) :
    ∃ z pc code rs, z.consts = p.consts ∧ Standing c p m z ∧ NodeCode c z id n code rs ∧
      CodeAt m pc code ∧ ∀ k < code.length, blockAt c.graph.blocks.length m.body.ops
        (pc + k) = some i := by
  obtain ⟨exception, start, _, _, hat, ⟨waiting, nodes, trampolines, -, hnodes, hwaiting, hops⟩, -,
      hin⟩ := block_code hc hb
  cases hops
  obtain ⟨before, after, hsplit⟩ := append_of_mem hid
  rw [hsplit] at hnodes
  obtain ⟨q, q', _, _, -, hrest, rfl⟩ := hnodes.append
  obtain _ | ⟨hnone, -⟩ | ⟨hn', hcode, -⟩ := hrest
  · rw [hn] at hnone
    cases hnone
  · next code _ _ _ =>
    cases hn.symm.trans hn'
    have hstand : Standing c p m ⟨p.consts, waiting, exception⟩ :=
      fun t ht => Concat.at_mem hwaiting hat.tail.right ht
    refine ⟨_, start + 1 + q.length, code, _, rfl, hstand, hcode, hat.tail.left.right.left,
      fun k hk => ?_⟩
    rw [show start + 1 + q.length + k = start + (1 + q.length + k) by omega]
    refine hin _ ?_
    simp only [length_append]
    omega

/-! ## Runs -/

/-- A label leads to the beginning of its block, be it through a trampoline. -/
theorem LeadsTo.arrives {st : Setting} {f : Function} {blocks : List Flow.Block} {nodes : List Node}
    {moved : List (BlockId × NodeId)} (hc : BodyCode c p.consts m.body)
    (hshape : Shape st f c.graph blocks nodes moved)
    (hslots : assignSlots c.declared c.graph = .ok (c.slots, types)) (hz : Standing c p m z)
    (hl : LeadsTo c z source id label) (h : c.Framed p m s locals) (stack : List Value) :
    ∃ target pc pc' locals', c.graph.blockIndex? id = some target ∧
      position? m.body.ops target = some pc' ∧ position? m.body.ops label = some pc ∧ Steps p
        (s.at ⟨locals, stack⟩ pc) (s.at ⟨locals', stack⟩ pc') := by
  obtain ⟨target, hid, hl⟩ := hl
  obtain ⟨-, pc', -, -, -, -, hpos, -⟩ := block_code hc (getElem?_eq_getElem (blockIndex?_lt hid))
  rcases hl with ⟨-, rfl⟩ | hmem
  · exact ⟨label, pc', pc', locals, hid, hpos, hpos, Steps.refl p _⟩
  · obtain ⟨pc, _, hat, q, hq, rfl⟩ := hz _ hmem
    obtain ⟨locals', hdoes, -⟩ :=
      hq.assigns h hslots (phis_distinct hshape) (phis_not_stacked hshape hslots target) stack
    have hlabel :=
      Machine.does_label (a := ⟨locals, stack⟩) h.method label pc (CodeAt.left (a := [_]) hat)
    exact ⟨target, pc, pc', locals', hid, hpos, hat.position hc.labels,
      hlabel.trans ((hdoes _ hat.tail.left).trans
        (Machine.jump_steps h.method hat.tail.right.head rfl hpos))⟩

/-- The code for an operand that is an integer puts its value on the stack. -/
theorem Supplies.does (h : c.Supplies p s locals r v start stack) (hv : IsInteger t v)
    (hp : Pushes c p.consts r ops) (hframed : c.Framed p m s locals) :
    Does p m s ops ⟨locals, start⟩ ⟨locals, v :: stack⟩ := by
  rcases h with ⟨hs, hread, rfl⟩ | ⟨⟨j, hs⟩, rfl⟩
  · exact hp.loads_read hframed hs hread (by cases hv <;> simp) start
  · rw [hp.eq_nil hs]
    exact .nil _

end Context

theorem MethodCode.context {c : Context} {pool : List Code.Const} {entry : MethodEntry} {m : Method}
    {types : List Ty} (h : MethodCode c.declared pool entry m)
    (hg : c.declared.graph entry = .ok c.graph)
    (hslots : assignSlots c.declared c.graph = .ok (c.slots, types)) : BodyCode c pool m.body := by
  obtain ⟨g, slots, hg', hbody⟩ := h.body
  cases hg.symm.trans hg'
  obtain ⟨_, hslots', -⟩ := hbody.slots
  cases hslots.symm.trans hslots'
  exact hbody

/-- **Switches select by their cases.** The code of a switch over an integer puts the value of its
operand on the stack and goes on, from there and with any integer of that type, to the beginning of
a block of the same method: the target of the first case whose number, as an operand that is a
constant of the type, is the value, or the default. Only among bits it takes more, namely that the
number is zero or one. -/
theorem switches_select {md : Module} {o : Options} {d : Declared} {p : Program}
    (hd : declare md o = .ok d) (hp : lower md o = .ok p) {k : Nat} {entry : MethodEntry}
    (he : d.methods[k]? = some entry) {c : Context} {types : List Ty}
    (hdeclared : c.declared = d) (hg : d.graph entry = .ok c.graph)
    (hslots : assignSlots d c.graph = .ok (c.slots, types)) {i : Nat} {b : Flow.Block}
    (hb : c.graph.blocks[i]? = some b) {id : NodeId} (hid : id ∈ b.instructions) {n : Node}
    (hn : c.graph.node? id = some n) {default : BlockId} {cases : List (Int × BlockId)}
    (hk : n.kind = .switch default cases) {r : Ref} {rest : List Ref} (ho : n.operands = r :: rest)
    {t : Ty} (ht : d.resolver.lookup? (c.operandType r) = some t) :
    ∃ m pc dispatch labels label, p.methods[k]? = some m ∧
      blockAt c.graph.blocks.length m.body.ops pc = some i ∧
        blockAt c.graph.blocks.length m.body.ops dispatch = some i ∧
          m.body.ops[dispatch]? = some (.switchValue labels label) ∧
      ∀ (s : State) (locals stack : List Value) (v : Value), p.methods[s.current.method]? = some m →
        c.graph.function.params.length ≤ s.current.args.length → types.length ≤ locals.length →
          IsInteger t v →
        (∀ start, c.Supplies p s locals r v start stack →
          Steps p (s.at ⟨locals, start⟩ pc) (s.at ⟨locals, v :: stack⟩ dispatch)) ∧
        ∃ target j pc' locals', Selects (c.Hits p (c.operandType r) v) default cases target ∧
          c.graph.blockIndex? target = some j ∧ position? m.body.ops j = some pc' ∧
          Steps p (s.at ⟨locals, v :: stack⟩ dispatch) (s.at ⟨locals', stack⟩ pc') := by
  subst hdeclared
  obtain ⟨_, hd', hcode⟩ := lower_eq_ok hp
  cases hd.symm.trans hd'
  obtain ⟨m, hm, hmethod⟩ := hcode.method he
  have hbody := hmethod.context hg hslots
  obtain ⟨blocks, nodes, moved, hshape⟩ := Declared.graph_shape hg
  obtain ⟨z, pc, _, _, hconsts, hstand, hnode, hat, hin⟩ := Context.node_code hbody hb hid hn
  obtain ⟨r', _, kind, labels, label, q, ho', hkind, hq, hcases, hdefault, rfl⟩ :=
    hnode.of_switch hk
  cases ho.symm.trans ho'
  refine ⟨m, pc, pc + q.length, labels, label, hm, hin 0 (by simp), hin q.length (by simp),
    hat.right.head, ?_⟩
  intro s locals stack v hs hargs hlocals hv
  have hframed := Context.Framed.of_slots hslots hs hargs hlocals
  refine ⟨fun start hsupplies => hsupplies.does hv (hconsts ▸ hq) hframed pc hat.left, ?_⟩
  obtain ⟨kind', k, hkind', hint, hits⟩ := Context.hits_iff (p := p) ht hv
  cases hkind.symm.trans hkind'
  obtain ⟨target, hselects, hleads⟩ := hcases.selects hdefault hits
  obtain ⟨j, pcl, pc', locals', hj, hpos, hlabel, hsteps⟩ :=
    hleads.arrives hbody hshape hslots hstand hframed stack
  refine ⟨target, j, pc', locals', hselects, hj, hpos, Steps.trans ?_ hsteps⟩
  refine Machine.jump_steps hs hat.right.head ?_ hlabel
  rw [execute, Machine.State.pop_cons rfl, hint]
  rfl

/-- A function that switches over its argument, an integer of so many bits. -/
def switching (bits : Nat) (operands : List Ssa.Operand) (blocks : List Ssa.Block) : Module where
  functions := [{
    name := "pick"
    type := ⟨.int 32, [.int bits], false⟩
    params := [{ id := 0, ty := .int bits }]
    blocks :=
      { id := 0, instructions :=
          [{ id := 1, opcode := .switch, ty := .void, operands := .value 0 :: operands }] } ::
            blocks }]

def returning (id : BlockId) (n : Int) : Ssa.Block where
  id
  instructions :=
    [{ id := id + 10, opcode := .ret, ty := .void, operands := [.const (.int (.int 32) n)] }]

/-- Both of the first two cases are for the byte two, and the first and the last one lead to the
same phi. -/
def choosing : Module :=
  let byte (n : Int) : Ssa.Operand := .const (.int (.int 8) n)
  switching 8 [.block 1, byte 258, .block 2, byte 2, .block 3, byte (-1), .block 2] [returning 1 10,
    { id := 2, instructions :=
      [{ id := 2, opcode := .phi, ty := .int 32, operands := [.const (.int (.int 32) 20)],
         info := .phi [0] },
       { id := 3, opcode := .ret, ty := .void, operands := [.value 2] }] },
    returning 3 30]

theorem choosing_selects :
    ∃ (d : Declared) (p : Program) (entry : MethodEntry) (c : Context) (types : List Ty)
      (m : Method) (dispatch : Nat), declare choosing {} = .ok d ∧ lower choosing {} = .ok p ∧
        d.methods[0]? = some entry ∧
    d.graph entry = .ok c.graph ∧ assignSlots d c.graph = .ok (c.slots, types) ∧
      p.methods[0]? = some m ∧
    blockAt c.graph.blocks.length m.body.ops dispatch = some 0 ∧
    ∀ (s : State) (locals stack : List Value), p.methods[s.current.method]? = some m →
      c.graph.function.params.length ≤ s.current.args.length → types.length ≤ locals.length →
      ∃ pc locals', position? m.body.ops 2 = some pc ∧
        Steps p (s.at ⟨locals, .int .w8 2 :: stack⟩ dispatch) (s.at ⟨locals', stack⟩ pc) := by
  obtain ⟨p, hp, -⟩ :=
    toOption_map_eq_some.mp (show (lower choosing {}).toOption.map (fun _ => ()) =
      some () by decide +kernel)
  obtain ⟨d, hd, hparts⟩ :=
    toOption_map_eq_some.mp (show (declare choosing {}).toOption.map (fun d => do
      let entry ← d.methods[0]?
      let g ← (d.graph entry).toOption
      let a ← (assignSlots d g).toOption
      let b ← g.blocks[0]?
      let id ← b.instructions.head?
      let n ← g.node? id
      let r ← n.operands.head?
      let t ← d.resolver.lookup? (Context.operandType ⟨d, g, a.1⟩ r)
      some (n.kind, t, g.blockIndex? 2)) =
    some (some (.switch 1 [(258, 2), (2, 3), (-1, 2)], .int .w8, some 2)) by decide +kernel)
  obtain ⟨entry, he, hparts⟩ := bind_eq_some_iff.mp hparts
  obtain ⟨g, hg, hparts⟩ := bind_eq_some_iff.mp hparts
  obtain ⟨⟨slots, types⟩, hslots, hparts⟩ := bind_eq_some_iff.mp hparts
  obtain ⟨b, hb, hparts⟩ := bind_eq_some_iff.mp hparts
  obtain ⟨id, hid, hparts⟩ := bind_eq_some_iff.mp hparts
  obtain ⟨n, hn, hparts⟩ := bind_eq_some_iff.mp hparts
  obtain ⟨r, hr, hparts⟩ := bind_eq_some_iff.mp hparts
  obtain ⟨t, ht, hparts⟩ := bind_eq_some_iff.mp hparts
  obtain ⟨hk, hparts⟩ := Prod.mk.inj (some.inj hparts)
  obtain ⟨rfl, hindex⟩ := Prod.mk.inj hparts
  obtain ⟨rest, ho⟩ := head?_eq_some_iff.mp hr
  have hg := toOption_eq_some.mp hg
  have hslots := toOption_eq_some.mp hslots
  obtain ⟨m, pc, dispatch, labels, label, hm, -, hdispatch, -, hruns⟩ :=
    @switches_select choosing {} d p hd hp 0 entry he ⟨d, g, slots⟩ types rfl hg hslots 0 b hb id
      (mem_of_mem_head? hid) n hn _ _ hk r rest ho _ ht
  refine ⟨d, p, entry, ⟨d, g, slots⟩, types, m, dispatch, hd, hp, he, hg, hslots, hm, hdispatch, ?_⟩
  intro s locals stack hs hargs hlocals
  obtain ⟨-, target, j, pc', locals', hselects, hj, hpos, hsteps⟩ :=
    hruns s locals stack (.int .w8 2) hs hargs hlocals (.int _ _)
  obtain ⟨kind, k, hkind, hint, hits⟩ :=
    Context.hits_iff (c := ⟨d, g, slots⟩) (p := p) ht (.int .w8 2)
  cases hint
  rw [Context.numKind?, ht] at hkind
  cases hkind
  have htarget : target = 2 := by
    cases hselects with
    | found => rfl
    | skip hno => exact absurd ((hits 258).mpr (by decide)) hno
  subst htarget
  cases hindex.symm.trans hj
  exact ⟨pc', locals', hpos, hsteps⟩

/-- A case for the bit that is minus one. -/
def picking : Module :=
  switching 1 [.block 1, .const (.int (.int 1) (-1)), .block 2] [returning 1 10, returning 2 20]

/-- As a constant that is an operand, minus one is the bit that is set. With that bit the switch
goes to its default all the same, and not to its case for minus one. -/
theorem bit_case_skipped :
    (∃ d, declare picking {} = .ok d ∧ ∀ c : Context, c.declared = d →
      c.constant? (.int (.int 1) (-1)) = some (.bool true)) ∧
    ∃ p, lower picking {} = .ok p ∧
      p.methods.map (·.body.ops) = [[.label 0, .loadArg 0, .switchValue [(-1, 2)] 1, .label 1,
        .loadConst 0, .ret, .label 2, .loadConst 1, .ret]] ∧
      (Machine.callMethod p 20 (.ofProgram p) 0 [.bool true]).bind
      (fun r => r.2.toOption.bind fun v => v.bind Value.toInt?) =
        some 10 := by
  constructor
  · obtain ⟨d, hd, hbit⟩ :=
      toOption_map_eq_some.mp (show (declare picking {}).toOption.map (fun d =>
      d.resolver.lookup? (.int 1)) = some (some .bool) by decide +kernel)
    refine ⟨d, hd, ?_⟩
    rintro c rfl
    simp [Context.constant?, hbit]
  · obtain ⟨p, hp, h⟩ :=
      toOption_map_eq_some.mp (show (lower picking {}).toOption.map (fun p =>
        (p.methods.map (·.body.ops), (Machine.callMethod p 20 (.ofProgram p) 0 [.bool true]).bind
          (fun r => r.2.toOption.bind fun v => v.bind Value.toInt?))) =
            some ([[.label 0, .loadArg 0, .switchValue [(-1, 2)] 1, .label 1, .loadConst 0, .ret,
              .label 2, .loadConst 1, .ret]], some 10) by decide +kernel)
    exact ⟨p, hp, Prod.mk.inj h⟩

end Stackify.Lower
