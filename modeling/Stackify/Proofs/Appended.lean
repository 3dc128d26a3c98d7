import Stackify.Proofs.Lookups
import Stackify.Proofs.MayThrow
import Stackify.Proofs.Names

/-!
A function that is added behind the others of a module, and that none of them mentions.

Types are resolved in order, so those of the other functions are resolved as before, and what is
resolved then stays (`resolveModule_append`). The other methods keep their numbers and names
(`declareMethods_append`), and whether they may throw, since none of them calls the new one
(`throwing_append`). So their code is the same, with the same constants (`Adds.lowerMethods`), and
so are their wrappers.
-/

namespace Stackify.Ssa

/-- A module with a function more, behind the others. -/
def Module.append (m : Module) (f : Function) : Module := { m with functions := m.functions ++ [f] }

/-- The name of a function stands in an operand of an instruction or of a constant expression. -/
def Module.Mentions (m : Module) (name : String) : Prop :=
  ∃ f ∈ m.functions, ∃ x ∈ f.operations, .function name ∈ x.operands

instance (m : Module) (name : String) : Decidable (m.Mentions name) :=
  inferInstanceAs (Decidable (∃ f ∈ m.functions, ∃ x ∈ f.operations, .function name ∈ x.operands))

end Stackify.Ssa

namespace Stackify.Resolve

open Ssa (Module)

/-! ## Types -/

/-- Only the aggregates of a module matter to its types. -/
theorem resolve_congr {m m' : Module} (h : m'.structs = m.structs) : resolve m' = resolve m := by
  have hfound (name : String) : m'.struct? name = m.struct? name := by
    rw [Module.struct?, h, Module.struct?]
  have hstruct (depth : Nat) : resolveStruct m' depth = resolveStruct m depth := by
    induction depth with
    | zero =>
      funext name
      rw [resolveStruct, resolveStruct, hfound]
    | succ depth ih =>
      funext name
      rw [resolveStruct, resolveStruct, hfound]
      simp only [ih]
  funext t
  rw [resolve, resolve, h, hstruct]

variable {r r' : Resolver}

theorem Resolver.Continues.aggregate? (h : r.Continues r') {t : Ssa.Ty} {a : Aggregate}
    (ha : r.aggregate? t = some a) : r'.aggregate? t = some a := by
  unfold Resolver.aggregate? at ha
  split at ha
  · next id hid =>
    obtain ⟨hlt, rfl⟩ := List.getElem?_eq_some_iff.mp ha
    rw [Resolver.aggregate?, h.kept t _ hid]
    exact List.prefix_iff_getElem?.mp h.entries id hlt
  · cases ha

theorem Resolver.Continues.lookupSignature? (h : r.Continues r') {t : Ssa.FunctionType}
    {s : Code.MethodType} (hs : r.lookupSignature? t = some s) :
    r'.lookupSignature? t = some s := by
  obtain ⟨params, hparams, hs⟩ := Option.bind_eq_some_iff.mp hs
  obtain ⟨ret, hret, hs⟩ := Option.bind_eq_some_iff.mp hs
  rw [Resolver.lookupSignature?, mapM_eq_some_of_imp h.kept hparams, h.kept t.ret ret hret]
  exact hs

theorem Resolver.Continues.records (h : r.Continues r') : r.records <+: r'.records :=
  h.entries.map _

end Stackify.Resolve

namespace Stackify.Lower

open Resolve (Resolver resolve resolve_congr resolveSignature)
open Code (Program Method Const)
open Stackify.Flow (Graph Node Ref lastIndex?)
open Ssa (Module Function Operand Operation Info Instruction)
open List Option

section
variable {m m' : Module}

theorem resolveSignature_congr (h : resolve m' = resolve m) (t : Ssa.FunctionType) :
    resolveSignature m' t = resolveSignature m t := by
  rw [resolveSignature, h, resolveSignature]

theorem resolveInfo_congr (h : resolve m' = resolve m) (i : Info) :
    resolveInfo m' i = resolveInfo m i := by
  cases i with
  | alloca ty | gep ty _ => rw [resolveInfo, h, resolveInfo]
  | call type => rw [resolveInfo, resolveSignature_congr h, resolveInfo]
  | plain | predicate _ | phi _ => rfl

mutual

theorem resolveOperand_congr (h : resolve m' = resolve m) (o : Operand) :
    resolveOperand m' o = resolveOperand m o := by
  match o with
  | .const c => rw [resolveOperand, h, resolveOperand]
  | .expr _ ty operands info =>
    rw [resolveOperand, h, resolveInfo_congr h, resolveOperands_congr h operands, resolveOperand]
  | .value _ | .block _ | .global _ | .function _ => rw [resolveOperand, resolveOperand]

theorem resolveOperands_congr (h : resolve m' = resolve m) (os : List Operand) :
    resolveOperands m' os = resolveOperands m os := by
  match os with
  | [] => rw [resolveOperands, resolveOperands]
  | o :: os =>
    rw [resolveOperands, resolveOperands_congr h os, resolveOperand_congr h o, resolveOperands]

end

theorem resolveFunction_congr (h : resolve m' = resolve m) (f : Function) :
    resolveFunction m' f = resolveFunction m f := by
  have hattribute : resolveAttribute m' = resolveAttribute m := by
    funext a
    cases a with
    | structRet ty | byVal ty => rw [resolveAttribute, h, resolveAttribute]
    | _ => rfl
  have hinstruction : resolveInstruction m' = resolveInstruction m := by
    funext i
    rw [resolveInstruction, h, resolveInfo_congr h, resolveOperands_congr h, resolveInstruction]
  rw [resolveFunction, resolveSignature_congr h, hattribute, hinstruction, resolveFunction]

end

variable {r r' : Resolver} {m : Module} {f : Function}

theorem forM_append_run {α : Type} {as : List α} {a : α} {g : α → Resolve.Resolving PUnit}
    (h : (as ++ [a]).forM g r = .ok () r') :
    ∃ r₁, as.forM g r = .ok () r₁ ∧ g a r₁ = .ok () r' := by
  induction as generalizing r with
  | nil =>
    obtain ⟨_, r₁, ha, hnil⟩ := run_bind_eq_ok.mp h
    cases hnil
    exact ⟨r, rfl, ha⟩
  | cons b as ih =>
    obtain ⟨_, r₁, hb, h⟩ := run_bind_eq_ok.mp h
    obtain ⟨r₂, has, ha⟩ := ih h
    exact ⟨r₂, run_bind_eq_ok.mpr ⟨_, r₁, hb, has⟩, ha⟩

/-- The types of a function more are resolved behind all others. -/
theorem resolveModule_append (h : (resolveModule m).run {} = .ok () r)
    (h' : (resolveModule (m.append f)).run {} = .ok () r') : r.Continues r' := by
  have hresolve : resolve (m.append f) = resolve m := resolve_congr rfl
  have hfunction : resolveFunction (m.append f) = resolveFunction m :=
    funext (resolveFunction_congr hresolve)
  have hlast : resolveFunction m f r = .ok () r' := by
    rw [resolveModule, hresolve, hfunction] at h'
    obtain ⟨_, r₁, hstructs, h⟩ := run_bind_eq_ok.mp h
    obtain ⟨_, r₂, hglobals, h⟩ := run_bind_eq_ok.mp h
    obtain ⟨_, r₁', hstructs', h'⟩ := run_bind_eq_ok.mp h'
    cases hstructs.symm.trans hstructs'
    obtain ⟨_, r₂', hglobals', h'⟩ := run_bind_eq_ok.mp h'
    cases hglobals.symm.trans hglobals'
    obtain ⟨r₃, hothers, hf⟩ := forM_append_run h'
    cases h.symm.trans hothers
    exact hf
  exact (resolveFunction_visits m f).continues hlast

/-! ## Statics and methods -/

variable {o : Options} {scope : Name.Scope}

theorem declareStatics_append (hr : r.Continues r') {gs : List Ssa.Global} {ss : List Code.Static}
    (h : declareStatics r scope gs = .ok ss) : declareStatics r' scope gs = .ok ss := by
  induction gs generalizing scope ss with
  | nil => exact h
  | cons g gs ih =>
    rw [declareStatics] at h ⊢
    split at h
    · cases h
    · next ty hty =>
      obtain ⟨rest, hrest, h⟩ := bind_eq_ok.mp h
      rw [hr.kept g.ty ty hty]
      exact bind_eq_ok.mpr ⟨rest, ih hrest, h⟩

/-- The methods of a module with a function more: those of the others, and behind them its own. -/
theorem declareMethods_append (hr : r.Continues r') {i w w' : Nat} {fs : List Function}
    {es es' : List MethodEntry} (h : declareMethods o r i w scope fs = .ok es)
    (h' : declareMethods o r' i w' scope (fs ++ [f]) = .ok es') :
    ∃ others e, es' = others ++ [e] ∧ Forall₂ MethodEntry.Same es others ∧ e.function = f ∧
      e.wrapper.isSome = (o.publicWrappers && f.structReturn?.isSome) := by
  induction fs generalizing i w w' scope es es' with
  | nil =>
    cases h
    rw [nil_append, declareMethods] at h'
    split at h'
    · cases h'
    · cases h'
    · cases h'
      refine ⟨[], _, rfl, .nil, rfl, ?_⟩
      dsimp only
      split
      · next hwraps => rw [hwraps]; rfl
      · next hwraps => simpa using hwraps
  | cons g fs ih =>
    rw [cons_append, declareMethods] at h'
    rw [declareMethods] at h
    split at h
    · cases h
    · cases h
    · next base type hbase htype =>
      rw [hbase, hr.lookupSignature? htype] at h'
      obtain ⟨rest, hrest, h⟩ := bind_eq_ok.mp h
      obtain ⟨rest', hrest', h'⟩ := bind_eq_ok.mp h'
      cases h
      cases h'
      obtain ⟨others, e, rfl, hsame, hnew⟩ := ih hrest hrest'
      refine ⟨_ :: others, e, rfl, .cons ⟨rfl, ?_⟩ hsame, hnew⟩
      dsimp only
      split <;> rfl

/-! ## Exceptions -/

variable {d d' : Declared} {others : List MethodEntry} {e : MethodEntry} {name : String}
  {i : Instruction} {entries : List (Bool × List Nat)} {throws : List Bool}

theorem functions_eq (hsame : Forall₂ MethodEntry.Same d.methods others) :
    others.map (·.function) = d.methods.map (·.function) :=
  forall₂_map_eq hsame fun _ _ h => by rw [h.eq]

/-- A method that has another name is found as before. -/
theorem method?_append (hmethods : d'.methods = others ++ [e])
    (hsame : Forall₂ MethodEntry.Same d.methods others) (hne : e.function.name ≠ name) :
    Option.Rel MethodEntry.Same (d.method? name) (d'.method? name) := by
  have hindex : lastIndex? (fun e => e.function.name = name) d'.methods =
      lastIndex? (fun e => e.function.name = name) d.methods := by
    have hmap (es : List MethodEntry) : lastIndex? (fun e => e.function.name = name) es =
        lastIndex? (fun f => decide (f.name = name)) (es.map (·.function)) := by
      rw [Flow.lastIndex?_map]
    rw [hmethods, Flow.lastIndex?_append_of_false (by simpa using hne), hmap,
      functions_eq hsame, ← hmap]
  unfold Declared.method?
  rw [hindex]
  cases hfound : lastIndex? (fun e => e.function.name = name) d.methods with
  | none => exact .none
  | some i =>
    obtain ⟨e₁, he₁, -⟩ := Flow.lastIndex?_eq_some hfound
    obtain ⟨e₂, he₂, hsame₂⟩ := forall₂_some_left hsame he₁
    rw [bind_some, bind_some, he₁, hmethods, getElem?_append_left (lt_of_getElem? he₂), he₂]
    exact .some hsame₂

/-- A function that does not mention the new one. -/
def Ignores (f : Function) (name : String) : Prop := ∀ x ∈ f.operations, .function name ∉ x.operands

theorem callee?_ne {name' : String} (hf : Ignores f name) (hi : i ∈ f.instructions)
    (hcallee : callee? i = some (.function name')) : name ≠ name' := by
  rintro rfl
  refine hf i.operation (mem_append_left _ (List.mem_map_of_mem hi)) ?_
  have hlast : i.operands.getLast?.getD (.const .null) = .function name := by
    unfold callee? at hcallee
    split at hcallee
    · exact some.inj hcallee
    · exact some.inj hcallee
    · cases hcallee
  cases hl : i.operands.getLast? with
  | none =>
    rw [hl] at hlast
    cases hlast
  | some o =>
    rw [hl] at hlast
    cases hlast
    exact mem_of_getLast? hl

theorem calls_append (hmethods : d'.methods = others ++ [e])
    (hsame : Forall₂ MethodEntry.Same d.methods others) (hf : Ignores f e.function.name) :
    d'.calls f = d.calls f := by
  refine filterMap_congr fun i hi => ?_
  split
  · next name hcallee =>
    have hrel := method?_append hmethods hsame (callee?_ne hf hi hcallee)
    generalize d.method? name = e₁ at hrel ⊢
    generalize d'.method? name = e₂ at hrel ⊢
    cases hrel with
    | none => rfl
    | some h =>
      rw [h.eq]
      rfl
  · rfl

theorem raises_append (hmethods : d'.methods = others ++ [e])
    (hsame : Forall₂ MethodEntry.Same d.methods others) (hf : Ignores f e.function.name)
    (hi : i ∈ f.instructions) : d'.raises i = d.raises i := by
  unfold Declared.raises
  congr 1
  split
  · next name hcallee =>
    have hrel := method?_append hmethods hsame (callee?_ne hf hi hcallee)
    have hnone : (d'.method? name).isNone = (d.method? name).isNone := by
      generalize d.method? name = e₁ at hrel ⊢
      generalize d'.method? name = e₂ at hrel ⊢
      cases hrel <;> rfl
    rw [hnone]
  · rfl
  · rfl

theorem throwRound_append (hlen : throws.length = entries.length)
    (hcalls : ∀ x ∈ entries, ∀ i ∈ x.2, i < entries.length) (x : Bool × List Nat) (b : Bool) :
    ∃ b', throwRound (entries ++ [x]) (throws ++ [b]) = throwRound entries throws ++ [b'] := by
  unfold throwRound
  rw [zip_append hlen.symm, map_append]
  refine ⟨_, congrArg₂ (· ++ ·) (map_congr_left fun y hy => ?_) rfl⟩
  obtain ⟨⟨silent, calls⟩, t⟩ := y
  -- A method among the others calls only others, so what is said about the new one does not matter.
  have hother (i : Nat) (hi : i ∈ calls) : (throws ++ [b]).getD i false = throws.getD i false := by
    have hlt : i < throws.length := hlen ▸ hcalls _ (of_mem_zip hy).1 i hi
    rw [getD_eq_getElem?_getD, getElem?_append_left hlt, getD_eq_getElem?_getD]
  have hany : (calls.any fun i => (throws ++ [b]).getD i false) = calls.any fun i =>
      throws.getD i false := by
    rw [Bool.eq_iff_iff, List.any_eq_true, List.any_eq_true]
    exact exists_congr fun i => and_congr_right fun hi => by rw [hother i hi]
  dsimp only
  rw [hany]

theorem iterate_throwRound_append (hcalls : ∀ x ∈ entries, ∀ i ∈ x.2, i < entries.length)
    (x : Bool × List Nat) (rounds : Nat) (hlen : throws.length = entries.length) (b : Bool) :
    ∃ b', (throwRound (entries ++ [x]))^[rounds]
      (throws ++ [b]) = (throwRound entries)^[rounds] throws ++ [b'] := by
  induction rounds generalizing throws b with
  | zero => exact ⟨b, rfl⟩
  | succ rounds ih =>
    obtain ⟨b₁, hb₁⟩ := throwRound_append hlen hcalls x b
    rw [Function.iterate_succ_apply, hb₁, Function.iterate_succ_apply]
    exact ih ((throwRound_covers hlen).length_eq.symm.trans hlen) b₁

/-- Whether a method among the others may throw does not depend on the new one. -/
theorem throwing_append (hmethods : d'.methods = others ++ [e])
    (hsame : Forall₂ MethodEntry.Same d.methods others)
    (hignores : ∀ e₁ ∈ d.methods, Ignores e₁.function e.function.name)
    (hindex : ∀ name e₁, d.method? name = some e₁ → e₁.index < d.methods.length) :
    ∃ b, d'.throwing = d.throwing ++ [b] := by
  have hmap {β : Type} (F F' : Function → β) (hF : ∀ e₁ ∈ d.methods, F' e₁.function =
      F e₁.function) : d'.methods.map (fun e =>
        F' e.function) = d.methods.map (fun e => F e.function) ++ [F' e.function] := by
    have hothers : others.map (fun e => F' e.function) = d.methods.map fun e => F' e.function := by
      have hfunctions := congrArg (List.map F') (functions_eq hsame)
      rwa [List.map_map, List.map_map] at hfunctions
    rw [hmethods, map_append, hothers, map_congr_left hF]
    rfl
  have hentries : d'.throwEntries = d.throwEntries ++
      [(e.function.isNoUnwind, d'.calls e.function)] := by
    refine hmap (fun f => (f.isNoUnwind, d.calls f)) (fun f => (f.isNoUnwind, d'.calls f))
      fun e₁ he₁ => ?_
    rw [calls_append hmethods hsame (hignores e₁ he₁)]
  have hstart : d'.throwStart = d.throwStart ++
      [!e.function.isNoUnwind && e.function.instructions.any d'.raises] := by
    refine hmap (fun f => !f.isNoUnwind && f.instructions.any d.raises)
      (fun f => !f.isNoUnwind && f.instructions.any d'.raises) fun e₁ he₁ => ?_
    have hany : e₁.function.instructions.any d'.raises = e₁.function.instructions.any d.raises := by
      rw [Bool.eq_iff_iff, List.any_eq_true, List.any_eq_true]
      refine exists_congr fun i => and_congr_right fun hi => ?_
      rw [raises_append hmethods hsame (hignores e₁ he₁) hi]
    rw [hany]
  have hcalls : ∀ x ∈ d.throwEntries, ∀ i ∈ x.2, i < d.throwEntries.length := by
    intro x hx i hi
    obtain ⟨e₁, -, rfl⟩ := List.mem_map.mp hx
    obtain ⟨y, -, hy⟩ := mem_filterMap.mp hi
    split at hy
    · next name _ =>
      obtain ⟨e₂, he₂, rfl⟩ := map_eq_some_iff.mp hy
      simpa [Declared.throwEntries] using hindex name e₂ he₂
    · cases hy
  have hlength : d'.methods.length = d.methods.length + 1 := by
    rw [hmethods, length_append, ← hsame.length_eq]
    rfl
  obtain ⟨b, hb⟩ :=
    iterate_throwRound_append hcalls _ (d.methods.length + 1) (throwStart_length d) _
  refine ⟨b, ?_⟩
  rw [throwing_eq_iterate, hlength, hentries, hstart, hb, Function.iterate_succ_apply',
    ← throwing_eq_iterate, throwing_fixed]

/-! ## Declarations -/

/-- A declared module that has a method more than another one, behind the others. -/
structure Declared.Adds (d d' : Declared) (others : List MethodEntry) (e : MethodEntry) : Prop where
  source : d'.source = d.source.append e.function
  options : d'.options = d.options
  resolver : d.resolver.Continues d'.resolver
  statics : d'.statics = d.statics
  methods : d'.methods = others ++ [e]
  same : Forall₂ MethodEntry.Same d.methods others
  /-- The others do not mention it. -/
  ignores : ∀ e₁ ∈ d.methods, Ignores e₁.function e.function.name

theorem markThrowing_same {es : List MethodEntry} (h : Forall₂ MethodEntry.Same es others)
    (throws : List Bool) :
    Forall₂ MethodEntry.Same (markThrowing es throws) (markThrowing others throws) := by
  induction h generalizing throws with
  | nil => exact .nil
  | cons he _ ih =>
    cases throws with
    | nil => exact .nil
    | cons t throws =>
      refine .cons ⟨?_, he.wraps⟩ (ih throws)
      dsimp only
      rw [he.eq]

theorem declare_append (hf : f.isDeclaration = false) (hunused : ¬ m.Mentions f.name)
    (h : declare m o = .ok d) (h' : declare (m.append f) o = .ok d') :
    ∃ others e, d.Adds d' others e ∧ e.function = f ∧
      e.wrapper.isSome = (o.publicWrappers && f.structReturn?.isSome) := by
  obtain ⟨es, hr, hs, hes, hd⟩ := declare_eq_ok h
  obtain ⟨es', hr', hs', hes', hd'⟩ := declare_eq_ok h'
  have hresolver := resolveModule_append hr hr'
  have hstatics : d'.statics = d.statics :=
    Except.ok.inj (hs'.symm.trans (declareStatics_append hresolver hs))
  have hdefined : ((m.append f).functions.filter fun f => !f.isDeclaration) =
      (m.functions.filter fun f => !f.isDeclaration) ++ [f] := by
    simp [Module.append, filter_append, hf]
  rw [hdefined] at hes'
  obtain ⟨others, e, rfl, hsame, hfunction, hwraps⟩ := declareMethods_append hresolver hes hes'
  have hentries := declareMethods_entries hes
  have hignores (e₁ : MethodEntry) (he₁ : e₁ ∈ es) : Ignores e₁.function f.name := by
    have hmem : e₁.function ∈ m.functions.filter fun f => !f.isDeclaration :=
      entries_functions hentries ▸ List.mem_map_of_mem he₁
    exact fun x hx hmentions => hunused ⟨_, (mem_filter.mp hmem).1, x, hx, hmentions⟩
  have hindex (name : String) (e₁ : MethodEntry)
      (he₁ : Declared.method? ⟨m, o, d.resolver, d.statics, es⟩ name = some e₁) : e₁.index <
        es.length := by
    obtain ⟨i, -, hi⟩ := bind_eq_some_iff.mp he₁
    obtain ⟨⟨g, j⟩, hj, hentry⟩ := forall₂_some_right hentries hi
    rw [getElem?_zipIdx, map_eq_some_iff] at hj
    obtain ⟨_, -, hj⟩ := hj
    cases hj
    rw [hentry.index, Nat.zero_add]
    exact lt_of_getElem? hi
  subst hfunction
  -- Whether methods may throw is found out from the entries as they are before.
  obtain ⟨b, hb⟩ : ∃ b, Declared.throwing ⟨m.append e.function, o, d'.resolver, d'.statics,
      others ++ [e]⟩ = Declared.throwing ⟨m, o, d.resolver, d.statics, es⟩ ++ [b] :=
        throwing_append rfl hsame hignores hindex
  have hlength : others.length = (Declared.throwing ⟨m, o, d.resolver, d.statics, es⟩).length := by
    rw [throwing_length, hsame.length_eq]
  rw [hb, markThrowing, zip_append hlength, map_append, ← markThrowing] at hd'
  refine ⟨markThrowing others (Declared.throwing ⟨m, o, d.resolver, d.statics, es⟩),
    { e with mayThrow := b }, ⟨?_, ?_, hresolver, hstatics, ?_, ?_, ?_⟩, rfl, hwraps⟩
  · rw [hd', hd]
  · rw [hd', hd]
  · rw [hd']
    rfl
  · rw [hd]
    exact markThrowing_same hsame _
  · intro e₁ he₁
    rw [hd] at he₁
    obtain ⟨c, hc, rfl⟩ := List.mem_map.mp he₁
    exact hignores c.1 (of_mem_zip hc).1

/-! ## Code -/

variable {d d' : Declared} {others : List MethodEntry} {e e₁ e₂ : MethodEntry} {g : Graph}
  {consts : List Const} {es : List MethodEntry} {x : List Method × List Const}

section
variable (h : d.Adds d' others e)
include h

theorem Declared.Adds.walkable :
    Flow.Walkable (fun _ => True) (fun _ => True) d.resolver d'.resolver where
  other _ := trivial
  element _ _ _ := trivial
  aggregate t _ _ := by
    cases ha : d.resolver.aggregate? t with
    | none => exact .inr ⟨rfl, trivial⟩
    | some a => exact .inl ⟨a, rfl, h.resolver.aggregate? ha, fun _ _ => trivial⟩

theorem Declared.Adds.graph (hsame : e₁.Same e₂) (hg : d.graph e₁ = .ok g) :
    d'.graph e₂ = .ok g := by
  unfold Declared.graph at hg ⊢
  dsimp only at hg ⊢
  split at hg
  · next hmake =>
    cases hg
    have hfound (name : String) (p : Function) (_ : e₁.function.personality = some name)
        (hp : d.source.function? name = some p) : d'.source.function? name = some p := by
      rw [h.source, Module.function?, Module.append, find?_append]
      exact or_of_isSome (isSome_of_eq_some hp) ▸ hp
    have hsourced : Flow.FunctionSourced (fun _ => True) e₁.function.instructions :=
      fun _ _ => ⟨fun _ _ _ => trivial, fun _ _ _ _ _ => trivial⟩
    rw [hsame.eq, h.options,
      (Flow.Graph.make_mirrors h.walkable (fun _ => trivial) hfound hsourced).of_ok hmake]
  · cases hg

theorem Declared.Adds.finds (l : Flow.Location) (ty : Ssa.Ty) :
    d.Finds (fun _ => True) d' l ty := by
  cases hty : d.resolver.lookup? ty with
  | none => exact .inr ⟨hty, trivial⟩
  | some s => exact .inl ⟨s, hty, h.resolver.kept ty s hty⟩

theorem Declared.Adds.alike (he₁ : e₁ ∈ d.methods) (hg : d.graph e₁ = .ok g) (slots : List Slot) :
    Context.Alike (fun _ => True) ⟨d, g, slots⟩ d' := by
  obtain ⟨blocks, nodes, moved, hshape⟩ := Declared.graph_shape hg
  refine .of_shape hshape (fun n hn r hmem => ⟨?_, h.finds _ _⟩) fun _ _ _ _ => h.finds _ _
  cases r with
  | const k => exact Context.known_const fun l => h.finds l k.ty
  | global name =>
    show d'.staticIndex? name = d.staticIndex? name
    rw [Declared.staticIndex?, h.source]
    rfl
  | function name =>
    obtain ⟨j, hj⟩ := getElem?_of_mem hn
    obtain ⟨x, hx, hc⟩ := hshape.computes hj
    refine method?_append h.methods h.same fun hne => h.ignores e₁ he₁ x hx ?_
    obtain ⟨o, ho, hleaf⟩ := hc.leaf_mem hmem (by simp)
    rw [hne]
    cases o with
    | function name' =>
      cases hleaf
      exact ho
    | _ => cases hleaf
  | key | block => trivial

theorem Declared.Adds.lowerMethod (he₁ : e₁ ∈ d.methods) (hsame : e₁.Same e₂)
    {x : Method × List Const} (hx : lowerMethod d consts e₁ = .ok x) :
    lowerMethod d' consts e₂ = .ok x := by
  obtain ⟨g, hg, hx⟩ := bind_eq_ok.mp hx
  obtain ⟨b, hb, hx⟩ := bind_eq_ok.mp hx
  refine bind_eq_ok.mpr ⟨g, h.graph hsame hg, ?_⟩
  rcases lowerGraph_mirrors (fun _ _ => trivial) (h.alike he₁ hg) consts with ⟨_, -,
    heq⟩ | ⟨_, hfails, -⟩
  · dsimp only
    rw [heq]
    refine bind_eq_ok.mpr ⟨b, hb, ?_⟩
    rw [hsame.wraps, hsame.eq]
    exact hx
  · rw [hb] at hfails
    cases hfails

/-- Other methods have the code they had, with the constants they had. -/
theorem Declared.Adds.lowerMethods {es' : List MethodEntry} (hes : ∀ e₁ ∈ es, e₁ ∈ d.methods)
    (hsame : Forall₂ MethodEntry.Same es es') (hx : lowerMethods d consts es = .ok x) :
    lowerMethods d' consts es' = .ok x := by
  induction hsame generalizing consts x with
  | nil => exact hx
  | cons hsame _ ih =>
    obtain ⟨he₁, hes⟩ := forall_mem_cons.mp hes
    obtain ⟨y, hy, hx⟩ := bind_eq_ok.mp hx
    obtain ⟨z, hz, hx⟩ := bind_eq_ok.mp hx
    exact bind_eq_ok.mpr ⟨y, h.lowerMethod he₁ hsame hy, bind_eq_ok.mpr ⟨z, ih hes hz, hx⟩⟩

end

theorem lowerMethods_append_singleton (h : lowerMethods d consts (es ++ [e]) = .ok x) :
    ∃ y z, lowerMethods d consts es = .ok y ∧
      lowerMethod d y.2 e = .ok z ∧ x = (y.1 ++ [z.1], z.2) := by
  induction es generalizing consts x with
  | nil =>
    obtain ⟨z, hz, h⟩ := bind_eq_ok.mp h
    cases h
    exact ⟨([], consts), z, rfl, hz, rfl⟩
  | cons e₁ es ih =>
    obtain ⟨first, hfirst, h⟩ := bind_eq_ok.mp h
    obtain ⟨rest, hrest, h⟩ := bind_eq_ok.mp h
    cases h
    obtain ⟨y, z, hy, hz, rfl⟩ := ih hrest
    exact ⟨(first.1 :: y.1, y.2), z, bind_eq_ok.mpr ⟨first, hfirst, bind_eq_ok.mpr ⟨y, hy, rfl⟩⟩,
      hz, rfl⟩

theorem Declared.Adds.wrapperMethod (h : d.Adds d' others e) (hsame : e₁.Same e₂) {w : Method}
    (hw : wrapperMethod d e₁ = .ok w) : wrapperMethod d' e₂ = .ok w := by
  unfold Lower.wrapperMethod at hw ⊢
  rw [hsame.eq]
  dsimp only
  split at hw
  · cases hw
  · next ret hret =>
    obtain ⟨ty, hty, hret⟩ := bind_eq_some_iff.mp hret
    rw [hty, bind_some, h.resolver.kept ty ret hret]
    exact hw

theorem Declared.Adds.wrappers (h : d.Adds d' others e) {ws : List Method}
    (hws : (d.methods.filter (·.wrapper.isSome)).mapM (Lower.wrapperMethod d) = .ok ws) :
    (others.filter (·.wrapper.isSome)).mapM (Lower.wrapperMethod d') = .ok ws := by
  have hfilter : Forall₂ MethodEntry.Same (d.methods.filter (·.wrapper.isSome))
      (others.filter (·.wrapper.isSome)) :=
    rel_filter (fun _ _ hsame => Bool.eq_iff_iff.mp hsame.wraps.symm) h.same
  exact forall₂_mapM_eq_ok hfilter (fun _ _ _ hsame => h.wrapperMethod hsame) hws

/-- **Lowering a function does not disturb the others.** A function is added behind those of a
module, none of which mentions it, and the module can be lowered with it and without it. Then
records, statics and constants stay and get others behind them at most. All methods stay as they
are; that of the function stands behind those of the other functions, and behind all of them, if it
gets one, its wrapper. -/
theorem lower_append {m : Module} {f : Function} {o : Options} {p p' : Program}
    (hf : f.isDeclaration = false) (hunused : ¬ m.Mentions f.name) (h : lower m o = .ok p)
    (h' : lower (m.append f) o = .ok p') :
    p.records <+: p'.records ∧ p.statics <+: p'.statics ∧ p.consts <+: p'.consts ∧
      ∃ bodies wrappers body ws, p.methods = bodies ++ wrappers ∧
        bodies.length = (m.functions.filter fun f => !f.isDeclaration).length ∧
        p'.methods = bodies ++ body :: (wrappers ++ ws) ∧
        (∃ d e, declare (m.append f) o = .ok d ∧ d.methods[bodies.length]? = some e ∧
          e.function = f ∧ lowerMethod d p.consts e = .ok (body, p'.consts)) ∧
        ws.length = (if o.publicWrappers && f.structReturn?.isSome then 1 else 0) ∧
        ∀ w ∈ ws, Wraps bodies.length body w := by
  obtain ⟨d, hd, hp⟩ := lower_declared h
  obtain ⟨d', hd', hp'⟩ := lower_declared h'
  obtain ⟨others, e, hadds, hfunction, hwraps⟩ := declare_append hf hunused hd hd'
  obtain ⟨bodies, wrappers, hbodies, hwrappers, -, hp⟩ := lowerDeclared_eq_ok hp
  obtain ⟨bodies', wrappers', hbodies', hwrappers', -, hp'⟩ := lowerDeclared_eq_ok hp'
  rw [hadds.methods] at hbodies' hwrappers'
  obtain ⟨y, z, hy, hz, hsplit⟩ := lowerMethods_append_singleton hbodies'
  cases hy.symm.trans (hadds.lowerMethods (fun _ he => he) hadds.same hbodies)
  obtain ⟨rfl, hconsts⟩ := Prod.mk.inj hsplit
  have hz : lowerMethod d' p.consts e = .ok (z.1, p'.consts) := by rw [hconsts]; exact hz
  rw [filter_append, mapM_append] at hwrappers'
  obtain ⟨ws₁, hws₁, hwrappers'⟩ := bind_eq_ok.mp hwrappers'
  obtain ⟨ws, hws, hwrappers'⟩ := bind_eq_ok.mp hwrappers'
  cases hwrappers'
  cases hws₁.symm.trans (hadds.wrappers hwrappers)
  have hlength : bodies.length = d.methods.length :=
    ((lowerMethods_code hbodies).2 _ prefix_rfl).length_eq.symm
  have hdefined : d.methods.length = (m.functions.filter fun f => !f.isDeclaration).length := by
    rw [← (declare_declaration hd).functions, length_map]
  have hat : d'.methods[bodies.length]? = some e := by
    rw [hadds.methods, hlength, hadds.same.length_eq, getElem?_concat_length]
  obtain ⟨hgrown, hcode⟩ := lowerMethod_code hz
  refine ⟨?_, ?_, hgrown.isPrefix, bodies, wrappers, z.1, ws, ?_, hlength.trans hdefined, ?_,
    ⟨d', e, hd', hat, hfunction, hz⟩, ?_⟩
  · rw [hp, hp']
    exact hadds.resolver.records
  · have hstatics : p'.statics = p.statics := by rw [hp, hp', hadds.statics]
    exact hstatics ▸ prefix_rfl
  · rw [hp]
  · simpa using congrArg Program.methods hp'
  · rw [← hwraps]
    cases hwrapper : e.wrapper.isSome with
    | false =>
      rw [filter_singleton, hwrapper] at hws
      cases hws
      exact ⟨rfl, by simp⟩
    | true =>
      rw [filter_singleton, hwrapper] at hws
      obtain ⟨w, hw, hws⟩ := bind_eq_ok.mp hws
      cases hws
      refine ⟨rfl, fun w' hw' => ?_⟩
      rw [mem_singleton.mp hw', ← ((declare_declaration hd').index hat).1]
      exact (wraps_of_wrapperMethod (hcode _ prefix_rfl) hwrapper hw).1

/-- A function that returns a number, and one that returns an aggregate through its first
parameter. -/
def sharing : Module where
  structs := [⟨"struct.void", [.int 32, .int 32], false⟩]
  globals := [{ name := "count", ty := .int 8 }]
  functions :=
    [{ name := "seven"
       type := { ret := .int 32, params := [] }
       blocks := [{ id := 0, instructions :=
         [{ id := 1, opcode := .ret, ty := .void, operands := [.const (.int (.int 32) 7)] }] }] },
     returningPair "pair"]

/-- A function that calls one of the others, and has an aggregate and a constant of its own beside
one of theirs. -/
def callingSeven : Function where
  name := "boxed"
  type := { ret := .void, params := [.pointer] }
  params := [{ id := 0, ty := .pointer, attributes := [.structRet (.literal [.int 32] false)] }]
  blocks := [{ id := 0, instructions :=
    [{ id := 1, opcode := .call, ty := .int 32, operands := [.function "seven"], info :=
         .call { ret := .int 32, params := [] } },
     { id := 2, opcode := .store, ty := .void, operands := [.value 1, .value 0] },
     { id := 3, opcode := .store, ty := .void, operands := [.const (.int (.int 32) 7), .value 0] },
     { id := 4, opcode := .store, ty := .void, operands := [.const (.int (.int 32) 8), .value 0] },
     { id := 5, opcode := .ret, ty := .void, operands := [] }] }]

theorem callingSeven_lower_append :
    callingSeven.isDeclaration = false ∧ ¬ sharing.Mentions callingSeven.name ∧
      ∃ p p', lower sharing {} = .ok p ∧ lower (sharing.append callingSeven) {} = .ok p' ∧
        p.methods.map (·.symbol) = ["seven", "pair", "pair"] ∧
      p'.methods.map (·.symbol) = ["seven", "pair", "boxed", "pair", "boxed"] ∧
      p.records <+: p'.records ∧ p.statics <+: p'.statics ∧ p.consts <+: p'.consts ∧
      ∃ bodies wrappers body ws, p.methods = bodies ++ wrappers ∧ bodies.length = 2 ∧
        p'.methods = bodies ++ body :: (wrappers ++ ws) ∧
        (∃ d e, declare (sharing.append callingSeven) {} = .ok d ∧
          d.methods[bodies.length]? = some e ∧ e.function = callingSeven ∧
            lowerMethod d p.consts e = .ok (body, p'.consts)) ∧
        ws.length = 1 ∧ ∀ w ∈ ws, Wraps bodies.length body w := by
  have hunused : ¬ sharing.Mentions callingSeven.name := by decide
  obtain ⟨p, hp, hmethods⟩ :=
    toOption_map_eq_some.mp (show (lower sharing {}).toOption.map (fun p =>
      p.methods.map (·.symbol)) = some ["seven", "pair", "pair"] by decide +kernel)
  obtain ⟨p', hp', hmethods'⟩ :=
    toOption_map_eq_some.mp (show (lower (sharing.append callingSeven) {}).toOption.map (fun p =>
      p.methods.map (·.symbol)) = some ["seven", "pair", "boxed", "pair",
        "boxed"] by decide +kernel)
  exact ⟨rfl, hunused, p, p', hp, hp', hmethods, hmethods', lower_append rfl hunused hp hp'⟩

end Stackify.Lower
