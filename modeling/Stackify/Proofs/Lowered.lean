import Stackify.Proofs.Slots

/-!
What is in a program that was lowered from a module.

- `lowerGraph_code`: the body of a method is the code of its graph, and marks no label twice;
- `lowerDeclared_code`: the methods of a program are those of the declared functions, and wrappers
  behind them;
- `declare_declaration`: the declared functions are those of the module that have a body, numbered
  in order.
-/

namespace Stackify.Lower

open Code (Op Const Label Method Body Program markedLabels)
open Stackify.Flow (Graph)
open Ssa (Module Function)
open List

/-! ## Labels -/

theorem repeated?_eq_none {seen ls : List Label} :
    Code.Assembly.repeated? seen ls = none ↔ ls.Nodup ∧ ∀ l ∈ ls, l ∉ seen := by
  induction ls generalizing seen with
  | nil => simp [Code.Assembly.repeated?]
  | cons l ls ih =>
    simp only [Code.Assembly.repeated?, contains_iff_mem, nodup_cons, mem_cons]
    split
    · next h => simp [h]
    · next h => rw [ih]; grind

variable {b : Body} {d : Declared} {consts consts' : List Const} {g : Graph} {e : MethodEntry}
  {es : List MethodEntry} {p : Program} {i : Nat} {m : Module} {o : Options} {r : Resolve.Resolver}
  {fs : List Function} {name : String} {l : Flow.Location}

theorem finish_ok {a : Code.Assembly} (h : a.finish = .ok b) :
    (markedLabels a.ops).Nodup ∧ b = ⟨a.locals, a.ops, a.regions, a.labelCount⟩ := by
  unfold Code.Assembly.finish at h
  split at h
  · cases h
  · next hr =>
    split at h
    · cases h
    · cases h
      exact ⟨(repeated?_eq_none.mp hr).1, rfl⟩

/-! ## Bodies -/

/-- A body is the code of a graph. -/
structure BodyCode (c : Context) (pool : List Const) (b : Body) : Prop where
  slots : ∃ locals, assignSlots c.declared c.graph = .ok (c.slots, locals) ∧ locals <+: b.locals
  labels : (markedLabels b.ops).Nodup
  /-- Exceptions have a local of their own. -/
  blocks : ∃ exception, (∀ x, exception = some x → ∀ id, c.slot id ≠ .inLocal x) ∧
    c.BlocksCode ⟨pool, [], exception⟩ c.graph.blocks.zipIdx b.ops b.regions

theorem lowerGraph_code (h : (lowerGraph d consts g).result = .ok b) :
    Grows consts (lowerGraph d consts g).consts ∧
      ∃ slots, ∀ pool, (lowerGraph d consts g).consts <+: pool → BodyCode ⟨d, g, slots⟩ pool b := by
  unfold lowerGraph at h ⊢
  split at h
  · cases h
  · next slots locals hs =>
    simp only
    extract_lets start at h
    cases hb : (Context.lowerBlocks ⟨d, g, slots⟩).run start with
    | error err s => simp [hb] at h
    | ok a e =>
      simp only [hb] at h ⊢
      cases hf : e.body.finish with
      | error f => simp [hf] at h
      | ok body =>
        simp only [hf] at h ⊢
        cases h
        obtain ⟨ops, extras, happ, hcode⟩ :=
          (Context.lowerBlocks_emits (Context.alike_own _) rfl).of_ok hb
        obtain ⟨hl, rfl⟩ := finish_ok hf
        have hops : e.body.ops = ops := happ.ops
        have hrs : e.body.regions = extras.regions := happ.regions
        have hnone : e.trampolines = [] := by rw [happ.trampolines, happ.none_waits]; rfl
        have hfresh : ∀ x, e.exceptionLocal = some x →
            ∀ id, Context.slot ⟨d, g, slots⟩ id ≠ .inLocal x := by
          intro x hx id hslot
          have hlt : x < locals.length := Context.slot_lt (c := ⟨d, g, slots⟩) hs hslot
          rcases happ.fresh x hx with h | h
          · cases h
          · exact absurd hlt (Nat.not_lt.mpr h.1)
        refine ⟨happ.consts, slots, fun pool hpool => ⟨⟨locals, hs, happ.locals⟩, hl,
          e.exceptionLocal, hfresh, ?_⟩⟩
        rw [hops, hrs]
        exact hcode ⟨pool, [], e.exceptionLocal⟩ ⟨hpool, hnone ▸ prefix_rfl, fun _ hi => hi⟩

/-! ## Methods -/

/-- A method is what a declared function becomes. -/
structure MethodCode (d : Declared) (pool : List Const) (e : MethodEntry) (m : Method) : Prop where
  name : m.name = e.name
  symbol : m.symbol = e.function.name
  type : m.type = e.type
  visibility : m.visibility = if e.wrapper.isSome then .internal else .exported
  paramNames : m.paramNames = Lower.paramNames e.function
  body : ∃ g slots, d.graph e = .ok g ∧ BodyCode ⟨d, g, slots⟩ pool m.body

theorem lowerMethod_code {m : Method} (h : lowerMethod d consts e = .ok (m, consts')) :
    Grows consts consts' ∧ ∀ pool, consts' <+: pool → MethodCode d pool e m := by
  obtain ⟨g, hg, h⟩ := bind_eq_ok.mp h
  obtain ⟨b, hb, h⟩ := bind_eq_ok.mp h
  cases h
  obtain ⟨hc, slots, hcode⟩ := lowerGraph_code hb
  exact ⟨hc, fun pool hpool => ⟨rfl, rfl, rfl, rfl, rfl, g, slots, hg, hcode pool hpool⟩⟩

theorem lowerMethods_code {ms : List Method} (h : lowerMethods d consts es = .ok (ms, consts')) :
    Grows consts consts' ∧ ∀ pool, consts' <+: pool → Forall₂ (MethodCode d pool) es ms := by
  induction es generalizing consts ms with
  | nil =>
    cases h
    exact ⟨.refl, fun _ _ => .nil⟩
  | cons e es ih =>
    obtain ⟨⟨m, consts₁⟩, hm, h⟩ := bind_eq_ok.mp h
    obtain ⟨⟨ms, consts₂⟩, hms, h⟩ := bind_eq_ok.mp h
    cases h
    obtain ⟨hc, hm⟩ := lowerMethod_code hm
    obtain ⟨hc', hms⟩ := ih hms
    exact ⟨hc.trans hc', fun pool hpool => .cons (hm pool (hc'.isPrefix.trans hpool))
      (hms pool hpool)⟩

/-! ## Programs -/

/-- The methods of a lowered program. -/
structure ProgramCode (d : Declared) (p : Program) : Prop where
  valid : p.defect? = none
  records : p.records = d.resolver.records
  statics : p.statics = d.statics
  methods : ∃ ms wrappers, p.methods = ms ++ wrappers ∧
    Forall₂ (MethodCode d p.consts) d.methods ms ∧ Forall₂
      (fun e m => wrapperMethod d e = .ok m) (d.methods.filter (·.wrapper.isSome)) wrappers

theorem ProgramCode.method (hp : ProgramCode d p) (he : d.methods[i]? = some e) :
    ∃ m, p.methods[i]? = some m ∧ MethodCode d p.consts e m := by
  obtain ⟨ms, wrappers, hms, hcode, -⟩ := hp.methods
  obtain ⟨m, hi, hm⟩ := forall₂_some_left hcode he
  exact ⟨m, by rw [hms, getElem?_append_left (lt_of_getElem? hi), hi], hm⟩

/-- A method of a program comes from a declared function or is a wrapper of one. -/
theorem ProgramCode.origin (hp : ProgramCode d p) {m : Method} (hm : p.methods[i]? = some m) :
    (∃ e, d.methods[i]? = some e ∧ MethodCode d p.consts e m) ∨ ∃ e, wrapperMethod d e = .ok m := by
  obtain ⟨ms, wrappers, hms, hcode, hwrappers⟩ := hp.methods
  rw [hms] at hm
  rcases Nat.lt_or_ge i ms.length with hi | hi
  · rw [getElem?_append_left hi] at hm
    exact .inl (forall₂_some_right hcode hm)
  · rw [getElem?_append_right hi] at hm
    obtain ⟨e, -, he⟩ := forall₂_some_right hwrappers hm
    exact .inr ⟨e, he⟩

theorem lowerDeclared_eq_ok (h : lowerDeclared d = .ok p) :
    ∃ ms wrappers, lowerMethods d [] d.methods = .ok (ms, p.consts) ∧
      (d.methods.filter (·.wrapper.isSome)).mapM (wrapperMethod d) = .ok wrappers ∧
        p.defect? = none ∧
      p = ⟨d.options.moduleName, p.consts, d.resolver.records, d.statics, ms ++ wrappers⟩ := by
  obtain ⟨⟨ms, consts⟩, hms, h⟩ := bind_eq_ok.mp h
  obtain ⟨wrappers, hw, h⟩ := bind_eq_ok.mp h
  extract_lets q at h
  split at h
  · cases h
  · next hq =>
    obtain rfl := pure_eq_ok.mp h
    exact ⟨ms, wrappers, hms, hw, hq, rfl⟩

theorem lowerDeclared_code (h : lowerDeclared d = .ok p) : ProgramCode d p := by
  obtain ⟨ms, wrappers, hms, hw, hvalid, hp⟩ := lowerDeclared_eq_ok h
  rw [hp] at hvalid ⊢
  exact ⟨hvalid, rfl, rfl, ms, wrappers, rfl, (lowerMethods_code hms).2 _ prefix_rfl,
    mapM_eq_ok.mp hw⟩

theorem lower_declared (h : lower m o = .ok p) :
    ∃ d, declare m o = .ok d ∧ lowerDeclared d = .ok p := by
  unfold lower at h
  split at h
  · cases h
  · exact bind_eq_ok.mp h

theorem lower_eq_ok (h : lower m o = .ok p) : ∃ d, declare m o = .ok d ∧ ProgramCode d p := by
  obtain ⟨d, hd, hp⟩ := lower_declared h
  exact ⟨d, hd, lowerDeclared_code hp⟩

/-! ## Declared functions -/

/-- What declaration says about the method of a function. -/
structure Entry (r : Resolve.Resolver) (i : Nat) (f : Function) (e : MethodEntry) : Prop where
  function : e.function = f
  index : e.index = i
  type : r.lookupSignature? f.type = some e.type

theorem declareMethods_entries {w : Nat} {scope : Name.Scope}
    (h : declareMethods o r i w scope fs = .ok es) :
    Forall₂ (fun f e => Entry r f.2 f.1 e) (fs.zipIdx i) es := by
  induction fs generalizing i w scope es with
  | nil =>
    cases h
    exact .nil
  | cons f fs ih =>
    rw [declareMethods] at h
    split at h
    · cases h
    · cases h
    · next base type hb ht =>
      obtain ⟨rest, hr, h⟩ := bind_eq_ok.mp h
      cases h
      exact .cons ⟨rfl, rfl, ht⟩ (ih hr)

/-- What a declared module has to do with its source. -/
structure Declaration (m : Module) (o : Options) (d : Declared) : Prop where
  source : d.source = m
  options : d.options = o
  resolved : (resolveModule m).run {} = .ok () d.resolver
  entries : Forall₂ (fun f e => Entry d.resolver f.2 f.1 e)
    (m.functions.filter fun f => !f.isDeclaration).zipIdx d.methods

theorem throwing_length (d : Declared) : d.throwing.length = d.methods.length := by
  have hround (entries : List (Bool × List Nat)) (l : List Nat) (throws : List Bool)
      (h : throws.length = entries.length) :
      (l.foldl (fun throws _ => throwRound entries throws) throws).length = entries.length := by
    induction l generalizing throws with
    | nil => exact h
    | cons _ l ih => exact ih _ (by simp [throwRound, h])
  rw [Declared.throwing, hround _ _ _ (by simp), length_map]

theorem entries_zip {fs : List (Function × Nat)} {throws : List Bool}
    (h : Forall₂ (fun f e => Entry r f.2 f.1 e) fs es) (hlen : throws.length = es.length) :
    Forall₂ (fun f c => Entry r f.2 f.1 { c.1 with mayThrow := c.2 }) fs (es.zip throws) := by
  induction h generalizing throws with
  | nil => exact .nil
  | cons he _ ih =>
    cases throws with
    | nil => cases hlen
    | cons t throws => exact .cons ⟨he.function, he.index, he.type⟩ (ih (Nat.succ.inj hlen))

/-- Methods, with what is found out about exceptions. -/
def markThrowing (es : List MethodEntry) (throws : List Bool) : List MethodEntry :=
  (es.zip throws).map fun c => { c.1 with mayThrow := c.2 }

theorem declare_eq_ok (h : declare m o = .ok d) :
    ∃ methods, (resolveModule m).run {} = .ok () d.resolver ∧
      declareStatics d.resolver .empty m.globals = .ok d.statics ∧ declareMethods o d.resolver 0
        (m.functions.filter fun f => !f.isDeclaration).length .empty
        (m.functions.filter fun f => !f.isDeclaration) = .ok methods ∧
      d = ⟨m, o, d.resolver, d.statics,
        markThrowing methods (Declared.throwing ⟨m, o, d.resolver, d.statics, methods⟩)⟩ := by
  unfold declare at h
  split at h
  · cases h
  · next resolver hr =>
    obtain ⟨statics, hs, h⟩ := bind_eq_ok.mp h
    obtain ⟨methods, hm, h⟩ := bind_eq_ok.mp h
    cases h
    exact ⟨methods, hr, hs, hm, rfl⟩

theorem declare_declaration (h : declare m o = .ok d) : Declaration m o d := by
  obtain ⟨methods, hr, -, hm, hd⟩ := declare_eq_ok h
  rw [hd]
  refine ⟨rfl, rfl, hr, ?_⟩
  rw [markThrowing, forall₂_map_right_iff]
  exact entries_zip (declareMethods_entries hm) (throwing_length _)

theorem Declaration.index (hd : Declaration m o d) (he : d.methods[i]? = some e) :
    e.index = i ∧ e.function ∈ m.functions := by
  obtain ⟨⟨f, j⟩, hf, h⟩ := forall₂_some_right hd.entries he
  rw [getElem?_zipIdx, Option.map_eq_some_iff] at hf
  obtain ⟨f', hf', h'⟩ := hf
  cases h'
  refine ⟨by simpa using h.index, ?_⟩
  rw [h.function]
  exact (mem_filter.mp (mem_of_getElem? hf')).1

theorem entries_functions (h : Forall₂ (fun f e => Entry r f.2 f.1 e) fs.zipIdx es) :
    es.map (·.function) = fs := by
  rw [forall₂_map_eq (F := Prod.fst) h fun _ _ hentry => hentry.function]
  exact zipIdx_map_fst 0 fs

/-- Each function with a body becomes a method, in order. -/
theorem Declaration.functions (hd : Declaration m o d) :
    d.methods.map (·.function) = m.functions.filter fun f => !f.isDeclaration :=
  entries_functions hd.entries

theorem Declaration.method (hd : Declaration m o d) (he : d.method? name = some e) :
    d.methods[e.index]? = some e := by
  obtain ⟨i, -, hi⟩ := Option.bind_eq_some_iff.mp he
  rw [(hd.index hi).1, hi]

theorem Declared.graph_shape (h : d.graph e = .ok g) :
    ∃ blocks nodes moved, Flow.Shape ⟨d.resolver, d.options.maxConstantNodes,
      { function := e.name }⟩ e.function g blocks nodes moved := by
  unfold Declared.graph at h
  dsimp only at h
  split at h
  · next g' hg =>
    cases h
    exact Flow.Graph.make_shape hg
  · cases h

/-- The callee of a node is the function that its operation names. -/
theorem callee_eq_function {n : Flow.Node} {x : Ssa.Operation} (hc : n.Computes r x) :
    Context.callee n = .function name ↔ x.operands.getLast? = some (.function name) := by
  have hlen := hc.operands.length_eq
  unfold Context.callee
  rw [getLastD_eq_getLast?, getLast?_eq_getElem?, getLast?_eq_getElem?, hlen]
  constructor
  · intro h
    cases hr : n.operands[n.operands.length - 1]? with
    | none => simp [hr] at h
    | some r =>
      obtain ⟨o, ho, href⟩ := forall₂_some_right hc.operands hr
      rw [hr, Option.getD_some] at h
      subst h
      have hleaf := href.leaf (by simp)
      cases o with
      | function _ =>
        cases hleaf
        exact ho
      | _ => cases hleaf
  · intro h
    obtain ⟨r, hr, href⟩ := forall₂_some_left hc.operands h
    cases href
    simp [hr]

/-- What is called: a method by name, something the machine provides, or what a pointer leads to. -/
theorem callTarget_eq_ok {r : Flow.Ref} {target : CallTarget} (h : d.callTarget l r = .ok target) :
    (∃ name e, r = .function name ∧ d.method? name = some e ∧ target = .method e) ∨
      (∃ name route, r = .function name ∧ d.method? name = none ∧
        Route.ofSymbol? name = some route ∧ target = .route route) ∨ target = .indirect := by
  cases r with
  | function name =>
    rw [Declared.callTarget] at h
    split at h
    · next e he =>
      cases h
      exact .inl ⟨name, e, rfl, he, rfl⟩
    · next route hnone hroute =>
      cases h
      exact .inr (.inl ⟨name, route, rfl, hnone, hroute, rfl⟩)
    · cases h
  | _ =>
    cases h
    exact .inr (.inr rfl)

theorem Declaration.callee (hd : Declaration m o d) {r : Flow.Ref}
    (h : d.callTarget l r = .ok (.method e)) : d.methods[e.index]? = some e := by
  rcases callTarget_eq_ok h with ⟨name, e', -, he, ht⟩ | ⟨_, _, _, _, _, ht⟩ | ht
  · cases ht
    exact hd.method he
  · cases ht
  · cases ht

end Stackify.Lower
