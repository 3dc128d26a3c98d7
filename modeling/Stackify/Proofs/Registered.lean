import Stackify.Proofs.Lookups

/-!
Which types lowering looks up.

Declaration resolves all types that the instructions and constant expressions of a module name: of
results and constants, and in the facts beside operands (`resolveModule_knows`). Types of parameters
are known if they are those of the function's type. Starting from known types, address computations
lead to known types. So making a graph never lacks a type, and lowering it lacks one only where an
operand has a type that no one has written down (`Synthesised`).
-/

namespace Stackify.Ssa

open List

/-! ## Types that are written down -/

def Operand.constTy? : Operand → Option Ty
  | .const c => some c.ty
  | _ => none

/-- The types of the result and of constants, and those beside operands. -/
def Operation.types (x : Operation) : List Ty :=
  x.ty :: x.info.types ++ x.operands.filterMap Operand.constTy?

/-- The types of parameters and result, and those of operations. -/
def Function.types (f : Function) : List Ty :=
  f.type.params ++ [f.type.ret] ++ f.operations.flatMap Operation.types

mutual

theorem Operand.types_subset (o : Operand) :
    o.expressions.flatMap Operation.types ++ o.constTy?.toList ⊆ o.types := by
  match o with
  | .const c => simp [Operand.expressions, Operand.constTy?, Operand.types]
  | .expr opcode ty operands info =>
    have hsub := Operand.typesAll_subset operands
    intro t ht
    simp only [Operand.expressions, Operand.constTy?, Operation.types, Operand.types,
      subset_def, mem_append, mem_flatMap, mem_cons, Option.toList_none, not_mem_nil,
        or_false] at hsub ht ⊢
    grind
  | .value _ | .block _ | .global _ | .function _ =>
    simp [Operand.expressions, Operand.constTy?, Operand.types]

theorem Operand.typesAll_subset (os : List Operand) :
    (Operand.allExpressions os).flatMap Operation.types ++ os.filterMap Operand.constTy? ⊆
      Operand.typesAll os := by
  match os with
  | [] => exact nil_subset _
  | o :: os =>
    have hfirst := Operand.types_subset o
    have hrest := Operand.typesAll_subset os
    intro t ht
    simp only [Operand.allExpressions, Operand.typesAll, subset_def, flatMap_append, mem_append,
      mem_filterMap, mem_cons, Option.mem_toList] at hfirst hrest ht ⊢
    grind

end

theorem Function.types_subset (f : Function) : f.types ⊆ f.allTypes := by
  have hinstruction (i : Instruction) := Operand.typesAll_subset i.operands
  intro t ht
  simp only [Function.types, Function.allTypes, Function.operations, Function.expressions,
    Instruction.types, Operation.types, Instruction.operation, subset_def, flatMap_append,
      mem_append, mem_flatMap, List.mem_map, mem_cons]
    at hinstruction ht ⊢
  grind

end Stackify.Ssa

namespace Stackify.Lower

open Resolve (Resolver)
open Ssa (Module Function Operand Operation Info Instruction Ty)
open Stackify.Flow (Graph Node Ref Location)
open List Option

/-! ## Types of a module -/

variable {m : Module} {ty : Ty}

/-- All types that a function writes down are known when its module is resolved. -/
theorem resolveModule_knows {r : Resolver} (h : (resolveModule m).run {} = .ok () r) {f : Function}
    (hf : f ∈ m.functions) {t : Ty} (ht : t ∈ f.types) : r.Knows t := by
  refine (resolveModule_visits m).knows h t (mem_append_right _ (mem_append_right _ ?_))
  exact mem_flatMap.mpr ⟨f, hf, f.types_subset ht⟩

theorem walkable {r : Resolver} (hr : r.Settled m) :
    Flow.Walkable (fun d => ∀ t, d ≠ .unregisteredType t) r.Knows r r where
  other h t := by rintro rfl; cases h
  element e n h := by
    rcases h with ⟨s, hs⟩ | ⟨s, hs⟩
    all_goals
      obtain ⟨s', hs', -⟩ := hr.element rfl hs
      exact ⟨s', hs'⟩
  aggregate t ht hfields := by
    obtain ⟨a, ha, hknown⟩ := hr.aggregate ht hfields
    exact .inl ⟨a, ha, ha, hknown⟩

/-! ## Functions whose types are known -/

variable {r : Resolver} {f : Function}

theorem functionSourced (hf : ∀ t ∈ f.types, r.Knows t) :
    Flow.FunctionSourced r.Knows f.instructions := by
  have hsource (x : Operation) (hx : x ∈ f.operations) : Flow.Sourced r.Knows x.info := by
    intro source inbounds hinfo
    refine hf source (mem_append_right _ (mem_flatMap.mpr ⟨x, hx, ?_⟩))
    simp [Operation.types, hinfo, Info.types]
  intro i hi
  refine ⟨hsource i.operation (mem_append_left _ (List.mem_map_of_mem hi)), fun x hx =>
    hsource x ?_⟩
  exact mem_append_right _ (mem_flatMap.mpr ⟨i, hi, hx⟩)

variable {n : Node} {x : Operation}

theorem resultType_known (hx : ∀ t ∈ x.types, r.Knows t) (hc : n.Computes r x)
    (hty : n.resultType = some ty) : r.Knows ty := by
  rw [hc.resultType] at hty
  unfold Flow.resultType? at hty
  split at hty
  case h_5 =>
    cases hty
    exact hx x.ty (by simp [Operation.types])
  all_goals cases hty

/-- The types that a node names are known, but for that of a cast without a result. -/
theorem node_types (hr : r.Settled m) (hx : ∀ t ∈ x.types, r.Knows t) (hc : n.Computes r x) :
    ∀ ty ∈ kindTypes n ++ n.resultType.toList, r.Knows ty ∨ ty = .void ∧ n.kind = .bitCast ∧
      n.resultType = none := by
  have hinfo (t : Ty) (ht : t ∈ x.info.types) : r.Knows t :=
    hx t (by simp [Operation.types, ht])
  have hown : r.Knows x.ty := hx x.ty (by simp [Operation.types])
  obtain ⟨halloca, hloaded⟩ := hc.fits.of_type
  intro ty hty
  rcases mem_append.mp hty with hty | hty
  · unfold kindTypes at hty
    split at hty
    · next hk =>
      rw [mem_singleton.mp hty]
      exact .inl (hinfo _ (by simp [halloca _ (by rw [hk]; rfl), Info.types]))
    · next t _ hk =>
      rw [mem_singleton.mp hty, hloaded t (.inl (by rw [hk]; rfl))]
      exact .inl hown
    · next t hk =>
      rw [mem_singleton.mp hty, hloaded t (.inr (by rw [hk]; rfl))]
      exact .inl hown
    · next path target hk =>
      obtain ⟨source, inbounds, hsource, hpath⟩ := hc.address_source hk
      obtain ⟨htarget, hsteps⟩ :=
        Flow.addressPath_admissible (walkable hr) (hinfo source (by simp [hsource, Info.types]))
          hpath
      rcases mem_cons.mp hty with rfl | hty
      · exact .inl htarget
      · obtain ⟨step, hstep, helement⟩ := mem_filterMap.mp hty
        exact .inl (hsteps step hstep ty helement)
    · next hk =>
      rw [mem_singleton.mp hty]
      cases hresult : n.resultType with
      | none => exact .inr ⟨rfl, hk, rfl⟩
      | some ty => exact .inl (resultType_known hx hc hresult)
    · cases hty
  · exact .inl (resultType_known hx hc (by simpa using hty))

/-- The types of constant operands are known. -/
theorem constant_known (hx : ∀ t ∈ x.types, r.Knows t) (hc : n.Computes r x) {k : Ssa.Constant}
    (hk : .const k ∈ n.operands) : r.Knows k.ty := by
  obtain ⟨o, ho, hleaf⟩ := hc.leaf_mem hk (by simp)
  cases o with
  | const c =>
    cases hleaf
    exact hx k.ty (mem_append_right _ (mem_filterMap.mpr ⟨_, ho, rfl⟩))
  | _ => cases hleaf

/-! ## Lowering -/

/-- An operand of a node has a type that nobody has written down: it is the address of a global or
of a function, a block, or a value without a type. The same goes for the result of a cast that has
none. -/
inductive Synthesised (g : Graph) (n : Node) : Ty → Prop
  | global {name : String} : .global name ∈ n.operands → Synthesised g n .pointer
  | function {name : String} : .function name ∈ n.operands → Synthesised g n .pointer
  | block {id : Ssa.BlockId} : .block id ∈ n.operands → Synthesised g n .label
  | value {k : Flow.Key} : .key k ∈ n.operands → (∀ p ∈ g.function.params, k ≠ .value p.id) →
      ((g.resolve? (.key k)).bind g.node?).bind (·.resultType) = none → Synthesised g n .void
  | cast : n.kind = .bitCast → n.resultType = none → Synthesised g n .void

/-- If a type is lacking, it is one that nobody has written down, and one that is not known by
chance. -/
def Lacks (d : Declared) (g : Graph) (e : Error) : Prop :=
  ∀ l t, e = .structural ⟨l, .unregisteredType t⟩ →
    d.resolver.lookup? t = none ∧ ∃ n ∈ g.nodes, l = n.location g.location ∧ Synthesised g n t

variable {d : Declared} {g : Graph}

theorem finds_of_synthesised (hn : n ∈ g.nodes) (h : d.resolver.Knows ty ∨ Synthesised g n ty) :
    d.Finds (Lacks d g) d (n.location g.location) ty := by
  cases hl : d.resolver.lookup? ty with
  | some s => exact .inl ⟨s, hl, hl⟩
  | none =>
    refine .inr ⟨hl, ?_⟩
    rintro l t ⟨⟩
    refine ⟨hl, n, hn, rfl, h.resolve_left ?_⟩
    rintro ⟨s, hs⟩
    rw [hl] at hs
    cases hs

theorem operandType_known {slots : List Slot}
    (hparams : ∀ p ∈ g.function.params, d.resolver.Knows p.ty)
    (hresults : ∀ n ∈ g.nodes, ∀ ty, n.resultType = some ty → d.resolver.Knows ty)
    (hconstants : ∀ k, .const k ∈ n.operands → d.resolver.Knows k.ty) {r : Ref}
    (hr : r ∈ n.operands) : d.resolver.Knows (Context.operandType ⟨d, g, slots⟩ r) ∨
      Synthesised g n (Context.operandType ⟨d, g, slots⟩ r) := by
  cases r with
  | key k =>
    unfold Context.operandType
    dsimp only
    split
    · next p hp =>
      obtain ⟨i, -, hi⟩ := bind_eq_some_iff.mp hp
      exact .inl (hparams p (mem_of_getElem? hi))
    · next hp =>
      cases hty : ((g.resolve? (.key k)).bind g.node?).bind (·.resultType) with
      | some ty =>
        obtain ⟨n', hn', hty'⟩ := bind_eq_some_iff.mp hty
        obtain ⟨j, -, hj⟩ := bind_eq_some_iff.mp hn'
        exact .inl (hresults n' (mem_of_getElem? hj) ty hty')
      | none =>
        refine .inr (.value hr ?_ hty)
        rintro p hmem rfl
        have hindex : (g.paramIndex? p.id).bind (g.function.params[·]?) = none := hp
        cases hfound : g.paramIndex? p.id with
        | none => simpa using Flow.lastIndex?_eq_none.mp hfound p hmem
        | some i =>
          obtain ⟨q, hq, -⟩ := Flow.lastIndex?_eq_some hfound
          rw [hfound, bind_some, hq] at hindex
          cases hindex
  | const k => exact .inl (hconstants k hr)
  | global name => exact .inr (.global hr)
  | function name => exact .inr (.function hr)
  | block id => exact .inr (.block hr)

/-- A function of a declared module finds all types that are written down. -/
theorem alike_self {o : Options} (hd : Declaration m o d) {e : MethodEntry} (he : e ∈ d.methods)
    (hparams : e.function.params.map (·.ty) = e.function.type.params) (hg : d.graph e = .ok g)
    (slots : List Slot) : Context.Alike (Lacks d g) ⟨d, g, slots⟩ d := by
  obtain ⟨blocks, nodes, moved, hshape⟩ := Declared.graph_shape hg
  have hr := resolveModule_settled hd.resolved
  have hknown (t : Ty) (ht : t ∈ e.function.types) : d.resolver.Knows t := by
    obtain ⟨i, hi⟩ := getElem?_of_mem he
    exact resolveModule_knows hd.resolved (hd.index hi).2 ht
  have hnode (n : Node) (hn : n ∈ g.nodes) : ∃ x, n.Computes d.resolver x ∧
      ∀ t ∈ x.types, d.resolver.Knows t := by
    obtain ⟨j, hj⟩ := getElem?_of_mem hn
    obtain ⟨x, hx, hc⟩ := hshape.computes hj
    exact ⟨x, hc, fun t ht => hknown t (mem_append_right _ (mem_flatMap.mpr ⟨x, hx, ht⟩))⟩
  have hresults (n : Node) (hn : n ∈ g.nodes) (ty : Ty) (hty : n.resultType = some ty) :
      d.resolver.Knows ty := by
    obtain ⟨x, hc, hx⟩ := hnode n hn
    exact resultType_known hx hc hty
  have hparams (p : Ssa.Param) (hp : p ∈ g.function.params) : d.resolver.Knows p.ty := by
    rw [hshape.function] at hp
    refine hknown p.ty (mem_append_left _ (mem_append_left _ ?_))
    exact hparams ▸ List.mem_map_of_mem hp
  refine .of_shape hshape (fun n hn r hmem => ?_) fun n hn ty hty => ?_
  · obtain ⟨x, hc, hx⟩ := hnode n hn
    refine ⟨?_, finds_of_synthesised hn (operandType_known hparams hresults (fun k =>
      constant_known hx hc) hmem)⟩
    cases r with
    | const k =>
      obtain ⟨s, hs⟩ := constant_known hx hc hmem
      exact Context.known_const fun _ => .inl ⟨s, hs, hs⟩
    | global => rfl
    | function name => exact Context.sameMethods (d.method? name)
    | key | block => trivial
  · obtain ⟨x, hc, hx⟩ := hnode n hn
    refine finds_of_synthesised hn ((node_types hr hx hc ty hty).imp id ?_)
    rintro ⟨rfl, hk, hresult⟩
    exact .cast hk hresult

/-- **Declaration resolves every type that is written down.** If the parameters of functions have
the types that the functions' types say, then no graph of a declared module lacks a type. Lowering a
graph lacks one only at a node with an operand, or the result of a cast, that has a type which no
one has written down; and only if that type, which is then that of pointers, of labels or of
nothing, is not known from elsewhere. -/
theorem lacks_only_synthesised {m : Module} {o : Options} {d : Declared} (h : declare m o = .ok d)
    (hparams : ∀ f ∈ m.functions, f.params.map (·.ty) = f.type.params) {e : MethodEntry}
    (he : e ∈ d.methods) : (∀ l t, d.graph e ≠ .error (.structural ⟨l, .unregisteredType t⟩)) ∧
      ∀ g consts l t, d.graph e = .ok g →
        (lowerGraph d consts g).result = .error (.structural ⟨l, .unregisteredType t⟩) →
        d.resolver.lookup? t = none ∧ ∃ n ∈ g.nodes, l = n.location g.location ∧
          Synthesised g n t := by
  have hd := declare_declaration h
  obtain ⟨i, hi⟩ := getElem?_of_mem he
  have hf := (hd.index hi).2
  constructor
  · intro l t hgraph
    have hsourced := functionSourced fun t ht => resolveModule_knows hd.resolved hf ht
    unfold Declared.graph at hgraph
    dsimp only at hgraph
    split at hgraph
    · cases hgraph
    · next flaw hmake =>
      cases hgraph
      exact (Flow.Graph.make_mirrors (walkable (resolveModule_settled hd.resolved)) (by simp)
        (fun _ _ _ hp => hp) hsourced).of_error hmake t rfl
  · intro g consts l t hg hresult
    have hother (err : Error) (h : ∀ l t, err ≠ .structural ⟨l, .unregisteredType t⟩) :
        Lacks d g err :=
      fun l t herr => absurd herr (h l t)
    rcases lowerGraph_mirrors hother (fun slots => alike_self hd he (hparams _ hf) hg slots)
      consts with ⟨b, hb, -⟩ | ⟨err, herr, hlacks⟩
    · rw [hresult] at hb
      cases hb
    · rw [hresult] at herr
      cases herr
      exact hlacks l t rfl

/-- What is wrong with a function that cannot be lowered. -/
def Lowered.flaw? (x : Lowered) : Option Flow.Flaw :=
  match x.result with
  | .error (.structural f) => some f
  | _ => none

theorem Lowered.flaw?_eq_some {x : Lowered} {f : Flow.Flaw} (h : x.flaw? = some f) :
    x.result = .error (.structural f) := by
  unfold Lowered.flaw? at h
  split at h
  · next hx =>
    cases h
    exact hx
  · cases h

/-- A function that keeps its own address in a global. No type of the module is that of pointers. -/
def keepingItself : Module where
  globals := [{ name := "slot", ty := .int 64 }]
  functions :=
    [{ name := "keep"
       type := { ret := .void, params := [] }
       blocks := [{ id := 0, instructions :=
         [{ id := 1, opcode := .store, ty := .void, operands :=
              [.function "keep", .global "slot"] },
          { id := 2, opcode := .ret, ty := .void, operands := [] }] }] }]

def keepingItselfFlaw : Flow.Flaw :=
  ⟨{ function := "keep", instruction := some 1, opcode := some .store }, .unregisteredType .pointer⟩

theorem keepingItself_lowered :
    ∃ d e g, declare keepingItself {} = .ok d ∧ e ∈ d.methods ∧ d.graph e = .ok g ∧
      (lowerGraph d [] g).result = .error (.structural keepingItselfFlaw) := by
  obtain ⟨d, hd, hrest⟩ :=
    toOption_map_eq_some.mp (show (declare keepingItself {}).toOption.map (fun d =>
      d.methods.head?.bind fun e => (d.graph e).toOption.bind fun g => (lowerGraph d [] g).flaw?) =
    some (some keepingItselfFlaw) by decide +kernel)
  obtain ⟨e, he, hrest⟩ := bind_eq_some_iff.mp hrest
  obtain ⟨g, hg, hflaw⟩ := bind_eq_some_iff.mp hrest
  exact ⟨d, e, g, hd, mem_of_head? he, toOption_eq_some.mp hg, Lowered.flaw?_eq_some hflaw⟩

/-- The address of a function has a type that declaration does not resolve. -/
theorem keepingItself_lacks_pointer :
    (∀ f ∈ keepingItself.functions, f.params.map (·.ty) = f.type.params) ∧
      ∃ d e g, declare keepingItself {} = .ok d ∧ e ∈ d.methods ∧ d.graph e = .ok g ∧
        (lowerGraph d [] g).result = .error (.structural keepingItselfFlaw) :=
  ⟨by decide, keepingItself_lowered⟩

theorem keepingItself_lacks_only_synthesised :
    (∀ f ∈ keepingItself.functions, f.params.map (·.ty) = f.type.params) ∧
      ∃ d e g, declare keepingItself {} = .ok d ∧ e ∈ d.methods ∧ d.graph e = .ok g ∧
        (lowerGraph d [] g).result = .error (.structural keepingItselfFlaw) ∧
      (∀ l t, d.graph e ≠ .error (.structural ⟨l, .unregisteredType t⟩)) ∧
        d.resolver.lookup? .pointer = none ∧
      ∃ n ∈ g.nodes, keepingItselfFlaw.location = n.location g.location ∧
        Synthesised g n .pointer := by
  have hparams : ∀ f ∈ keepingItself.functions, f.params.map (·.ty) = f.type.params := by decide
  obtain ⟨d, e, g, hd, he, hg, hresult⟩ := keepingItself_lowered
  obtain ⟨hgraph, hlowered⟩ := lacks_only_synthesised hd hparams he
  exact ⟨hparams, d, e, g, hd, he, hg, hresult, hgraph, hlowered g [] _ _ hg hresult⟩

end Stackify.Lower
