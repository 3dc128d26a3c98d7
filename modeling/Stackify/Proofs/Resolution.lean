import Stackify.Lower.Declare
import Stackify.Proofs.Remembered

/-!
What is resolved for a module. A module is resolved type by type, so it keeps what resolving a type
keeps (`resolveModule_maintains`). In particular, when all its types are resolved, the parts of
known types are known, registered aggregates have a type for each of their fields, and counterparts
have the right form:

    (resolveModule m).run {} = .ok () r → r.Settled m                        (resolveModule_settled)
-/

namespace Stackify.Resolve

open Ssa (Module Ty)

theorem Resolver.lookupSignature?_eq_some {r : Resolver} {t : Ssa.FunctionType}
    {s : Code.MethodType} (h : r.lookupSignature? t = some s) :
    t.params.mapM r.lookup? = some s.params ∧ r.lookup? t.ret = some s.ret ∧
      s.variadic = t.variadic := by
  obtain ⟨params, hparams, h⟩ := Option.bind_eq_some_iff.mp h
  obtain ⟨ret, hret, h⟩ := Option.bind_eq_some_iff.mp h
  cases h
  exact ⟨hparams, hret, rfl⟩

/-! ## Sequences of resolutions -/

/-- Types are resolved one after the other. -/
inductive InTurn (m : Module) : List Ty → Resolver → Resolver → Prop
  | nil {r} : InTurn m [] r r
  | cons {t ts s r r' r''} :
      resolve m t r = .ok s r' → InTurn m ts r' r'' → InTurn m (t :: ts) r r''

/-- A computation that resolves the given types, in some order. -/
def Visits {α : Type} (m : Module) (x : Resolving α) (ts : List Ty) : Prop :=
  ∀ r a r', x r = .ok a r' → ∃ us, us.Perm ts ∧ InTurn m us r r'

variable {m : Module} {r r' r'' : Resolver} {ts us : List Ty} {I : Resolver → Prop}

theorem InTurn.append (h : InTurn m ts r r') (h' : InTurn m us r' r'') :
    InTurn m (ts ++ us) r r'' := by
  induction h with
  | nil => exact h'
  | cons ht _ ih => exact .cons ht (ih h')

theorem InTurn.maintains (h : InTurn m ts r r') (hI : ∀ t ∈ ts, Maintains I (resolve m t))
    (hr : I r) : I r' := by
  induction h with
  | nil => exact hr
  | cons ht _ ih =>
    rw [List.forall_mem_cons] at hI
    exact ih hI.2 (hI.1 _ _ _ ht hr)

theorem InTurn.continues (h : InTurn m ts r r') : r.Continues r' :=
  h.maintains (I := r.Continues) (fun _ _ _ _ _ ht hr =>
    hr.trans (continues_of_resolve ht)) (.refl r)

theorem InTurn.knows (h : InTurn m ts r r') : ∀ t ∈ ts, r'.Knows t := by
  induction h with
  | nil => exact List.forall_mem_nil _
  | cons ht h ih =>
    exact List.forall_mem_cons.mpr ⟨h.continues.knows ⟨_, lookup?_of_resolve ht⟩, ih⟩

variable {α β : Type} {x : Resolving α} {f : α → Resolving β}

theorem Visits.maintains (hx : Visits m x ts) (hI : ∀ t ∈ ts, Maintains I (resolve m t)) :
    Maintains I x := by
  intro r a r' h hr
  obtain ⟨us, hperm, hturn⟩ := hx r a r' h
  exact hturn.maintains (fun t ht => hI t (hperm.subset ht)) hr

theorem Visits.continues {a : α} (hx : Visits m x ts) (h : x r = .ok a r') : r.Continues r' := by
  obtain ⟨us, -, hturn⟩ := hx r a r' h
  exact hturn.continues

theorem Visits.knows {a : α} (hx : Visits m x ts) (h : x r = .ok a r') : ∀ t ∈ ts, r'.Knows t := by
  obtain ⟨us, hperm, hturn⟩ := hx r a r' h
  exact fun t ht => hturn.knows t (hperm.symm.subset ht)

theorem Visits.perm (hx : Visits m x ts) (h : ts.Perm us) : Visits m x us := by
  intro r a r' hrun
  obtain ⟨vs, hperm, hturn⟩ := hx r a r' hrun
  exact ⟨vs, hperm.trans h, hturn⟩

theorem Visits.pure {a : α} : Visits m (Pure.pure a) [] := by
  rintro r _ _ ⟨⟩
  exact ⟨[], .nil, .nil⟩

theorem Visits.bind (hx : Visits m x ts) (hf : ∀ a, Visits m (f a) us) :
    Visits m (x >>= f) (ts ++ us) := by
  intro r b r'' h
  obtain ⟨a, r', ha, hb⟩ := run_bind_eq_ok.mp h
  obtain ⟨ts', hts, hfirst⟩ := hx r a r' ha
  obtain ⟨us', hus, hrest⟩ := hf a r' b r'' hb
  exact ⟨ts' ++ us', hts.append hus, hfirst.append hrest⟩

theorem Visits.bind_pure {g : α → β} (hx : Visits m x ts) :
    Visits m (x >>= fun a => Pure.pure (g a)) ts := by
  simpa using hx.bind fun a => .pure (a := g a)

theorem Visits.forM {as : List α} {g : α → Resolving PUnit} {types : α → List Ty}
    (h : ∀ a, Visits m (g a) (types a)) : Visits m (as.forM g) (as.flatMap types) := by
  induction as with
  | nil => exact .pure
  | cons a as ih => exact (h a).bind fun _ => ih

theorem resolve_visits (m : Module) (t : Ty) : Visits m (resolve m t) [t] :=
  fun _ _ _ h => ⟨[t], .rfl, .cons h .nil⟩

theorem resolveSignature_visits (m : Module) (t : Ssa.FunctionType) :
    Visits m (resolveSignature m t) (t.params ++ [t.ret]) := by
  have hparams (ts : List Ty) : Visits m (ts.mapM (resolve m)) ts := by
    induction ts with
    | nil => exact .pure
    | cons t ts ih =>
      rw [List.mapM_cons]
      exact (resolve_visits m t).bind fun _ => ih.bind_pure
  exact (hparams t.params).bind fun _ => (resolve_visits m t.ret).bind_pure

end Stackify.Resolve

/-! ## Modules -/

namespace Stackify.Ssa

def Info.types : Info → List Ty
  | .alloca ty | .gep ty _ => [ty]
  | .call type => type.params ++ [type.ret]
  | .plain | .predicate _ | .phi _ => []

mutual

def Operand.types : Operand → List Ty
  | .const c => [c.ty]
  | .expr _ ty operands info => ty :: info.types ++ typesAll operands
  | .value _ | .block _ | .global _ | .function _ => []

def Operand.typesAll : List Operand → List Ty
  | [] => []
  | o :: os => o.types ++ typesAll os

end

def Attribute.types : Attribute → List Ty
  | .structRet ty | .byVal ty => [ty]
  | .noUnwind | .noReturn | .other _ => []

def Instruction.types (i : Instruction) : List Ty :=
  i.ty :: i.info.types ++ Operand.typesAll i.operands

/-- The types of a function's signature, of its parameters' attributes and of its instructions. -/
def Function.allTypes (f : Function) : List Ty :=
  f.type.params ++ [f.type.ret] ++ f.params.flatMap (fun p => p.attributes.flatMap Attribute.types)
    ++ f.instructions.flatMap Instruction.types

/-- The types that a module writes down. -/
def Module.types (m : Module) : List Ty :=
  m.structs.flatMap (fun s => .struct s.name :: s.fields) ++ m.globals.map (·.ty) ++
    m.functions.flatMap Function.allTypes

end Stackify.Ssa

namespace Stackify.Lower

open Resolve (Resolver Maintains Denotes Visits resolve resolve_visits resolveSignature_visits)
open Ssa (Module Operand Info)

theorem resolveInfo_visits (m : Module) (i : Info) : Visits m (resolveInfo m i) i.types := by
  cases i with
  | alloca ty | gep ty _ => exact (resolve_visits m ty).bind_pure
  | call type => exact (resolveSignature_visits m type).bind_pure
  | plain | predicate _ | phi _ => exact .pure

mutual

theorem resolveOperand_visits (m : Module) (o : Operand) :
    Visits m (resolveOperand m o) o.types := by
  match o with
  | .const c =>
    rw [resolveOperand]
    exact (resolve_visits m c.ty).bind_pure
  | .expr _ ty operands info =>
    rw [resolveOperand]
    exact (resolve_visits m ty).bind fun _ =>
      (resolveInfo_visits m info).bind fun _ => resolveOperands_visits m operands
  | .value _ | .block _ | .global _ | .function _ =>
    rw [resolveOperand]
    exact .pure

theorem resolveOperands_visits (m : Module) (os : List Operand) :
    Visits m (resolveOperands m os) (Operand.typesAll os) := by
  match os with
  | [] =>
    rw [resolveOperands]
    exact .pure
  | o :: os =>
    rw [resolveOperands]
    exact ((resolveOperands_visits m os).bind fun _ => resolveOperand_visits m o).perm
      List.perm_append_comm

end

theorem resolveInstruction_visits (m : Module) (i : Ssa.Instruction) :
    Visits m (resolveInstruction m i) i.types :=
  (resolve_visits m i.ty).bind fun _ =>
    (resolveInfo_visits m i.info).bind fun _ => resolveOperands_visits m i.operands

theorem resolveFunction_visits (m : Module) (f : Ssa.Function) :
    Visits m (resolveFunction m f) f.allTypes := by
  have hattribute (a : Ssa.Attribute) : Visits m (resolveAttribute m a) a.types := by
    cases a with
    | structRet ty | byVal ty => exact (resolve_visits m ty).bind_pure
    | _ => exact .pure
  rw [Ssa.Function.allTypes, List.append_assoc]
  exact (resolveSignature_visits m f.type).bind fun _ =>
    Visits.bind (.forM fun p => .forM hattribute) fun _ =>
    .forM (resolveInstruction_visits m)

theorem resolveModule_visits (m : Module) :
    Visits m (resolveModule m)
      (m.structs.flatMap (fun s => [.struct s.name]) ++ (m.globals.flatMap (fun g => [g.ty]) ++
        m.functions.flatMap Ssa.Function.allTypes)) :=
  Visits.bind (.forM fun _ => (resolve_visits m _).bind_pure) fun _ =>
    Visits.bind (.forM fun _ => (resolve_visits m _).bind_pure) fun _ =>
      .forM (resolveFunction_visits m)

/-- What resolving the types of a module one by one keeps, resolving the module keeps. -/
theorem resolveModule_maintains {m : Module} {I : Resolver → Prop}
    (hI : ∀ t ∈ m.types, Maintains I (resolve m t)) : Maintains I (resolveModule m) := by
  refine (resolveModule_visits m).maintains fun t ht => hI t ?_
  simp only [Ssa.Module.types, List.mem_append, List.mem_flatMap, List.mem_map,
    List.mem_cons] at ht ⊢
  grind

variable {m : Module} {r : Resolver}

section
variable (h : (resolveModule m).run {} = .ok () r)
include h

theorem resolveModule_settled : r.Settled m :=
  resolveModule_maintains (fun t _ => Resolve.resolve_settled m t) {} () r h (.empty m)

/-- When all types of a module are resolved, every registered aggregate has types for all of its
fields. -/
theorem resolveModule_complete : r.registry.Complete :=
  (resolveModule_settled h).complete

/-- What is remembered when all types of a module are resolved. -/
theorem resolveModule_denotes {t : Ssa.Ty} {s : Code.Ty} (hs : r.lookup? t = some s) :
    Denotes t s :=
  ((resolveModule_settled h).yields t s hs).denotes

end

end Stackify.Lower
