import Stackify.Proofs.Names
import Stackify.Proofs.TypeText

/-!
Caches and registries agree with each other and with the module.

An aggregate is found in the registry by its symbol: its name, or its text if it has none. With
plain names a symbol says which aggregate it is (`eq_of_symbol`), so an entry that is found has the
fields of the type that is looked for, and the parts of a known type, at any depth, are known
(`Faithful.contains`):

    r.Reached m → r.Consistent m                                                (Reached.consistent)

So a type is known only if no part of it is too wide, and one that is too wide is the only reason to
fail.
-/

namespace Stackify.Ssa

/-! ## Parts of types -/

/-- A type is the other one, or a part of it at some depth. -/
def Module.Contains (m : Module) : Ty → Ty → Prop := Relation.ReflTransGen fun t u => u ∈ m.parts t

/-- The names in fields of aggregates are plain. -/
def Module.PlainFields (m : Module) : Prop := ∀ s ∈ m.structs, ∀ t ∈ s.fields, t.Plain

instance (m : Module) : Decidable m.PlainFields :=
  inferInstanceAs (Decidable (∀ s ∈ m.structs, ∀ t ∈ s.fields, t.Plain))

theorem Module.PlainFields.plain_of_mem_parts {m : Module} (hm : m.PlainFields) {t : Ty}
    (ht : t.Plain) : ∀ u ∈ m.parts t, u.Plain := by
  intro u hu
  cases t with
  | array e n | vector e n =>
    rw [List.mem_singleton.mp hu]
    exact ht
  | struct name =>
    rw [Module.parts] at hu
    cases hs : m.struct? name with
    | none => simp [hs] at hu
    | some s =>
      rw [hs] at hu
      exact hm s (List.mem_of_find?_eq_some hs) u hu
  | literal fields packed => exact Ty.plain_literal.mp ht u hu
  | _ => cases hu

end Stackify.Ssa

namespace Stackify.Resolve

open Ssa (Module Ty)
open Code (RecordId)
open List

variable {m : Module} {t u : Ty} {o o' : Outline}

theorem plan_unsupported : plan m t = .unsupported ↔ ∃ bits, t = .int bits ∧ 128 < bits := by
  constructor
  · intro hp
    cases t with
    | int bits =>
      rcases plan_int m bits with ⟨-, s, hs⟩ | ⟨hlt, -⟩
      · cases hs.symm.trans hp
      · exact ⟨bits, rfl, hlt⟩
    | _ => cases hp
  · rintro ⟨bits, rfl, hlt⟩
    rcases plan_int m bits with ⟨hle, -⟩ | ⟨-, hp⟩
    · omega
    · exact hp

theorem parts_of_direct {s : Code.Ty} (hp : plan m t = .direct s) : m.parts t = [] := by
  cases t with
  | array _ _ | vector _ _ | struct _ | literal _ _ => cases hp
  | _ => rfl

/-- With plain names, aggregates with the same symbol are the same. -/
theorem eq_of_symbol (ht : t.Plain) (hu : u.Plain) (hp : plan m t = .aggregate o)
    (hp' : plan m u = .aggregate o') (h : o.symbol = o'.symbol) : t = u := by
  have hname {name : String} (hplain : (Ty.struct name).Plain) :
      name.toList.all Ssa.isPlain = true :=
    hplain name mem_cons_self
  -- A plain name is no text of an aggregate without a name, which has a blank in it.
  have hapart {name : String} {fields : List Ty} {packed : Bool}
      (hplain : (Ty.struct name).Plain) : name ≠ (Ty.literal fields packed).text := by
    rintro rfl
    have hblank := hname hplain
    rw [Ty.text_literal_not_plain] at hblank
    cases hblank
  rcases plan_eq_aggregate hp with ⟨name, rfl⟩ | ⟨fields, packed, rfl⟩ <;>
    rcases plan_eq_aggregate hp' with ⟨name', rfl⟩ | ⟨fields', packed', rfl⟩ <;>
      cases hp <;> cases hp'
  · exact congrArg Ty.struct h
  · exact absurd h (hapart ht)
  · exact absurd h.symm (hapart hu)
  · exact Ty.text_injective ht hu h

/-! ## Faithful resolvers -/

/-- Known types have plain names, and every entry is that of an aggregate with plain names. -/
structure Resolver.Traced (r : Resolver) (m : Module) : Prop where
  plain : ∀ t, r.Knows t → t.Plain
  traced : ∀ a ∈ r.registry.entries, ∃ t o, t.Plain ∧ plan m t = .aggregate o ∧ a.Of o

variable {m : Module} {r : Resolver} {α : Type}

theorem traced_kept (hm : m.PlainFields) : Kept m Ty.Plain (·.Traced m) where
  parts _ ht := hm.plain_of_mem_parts ht
  begin r t o ht hp hnew hr := by
    obtain ⟨a, ha, -, hof, -⟩ := begin_entries hnew
    refine ⟨hr.plain, fun b hb => ?_⟩
    rw [ha] at hb
    rcases mem_append.mp hb with hb | hb
    · exact hr.traced b hb
    · rw [mem_singleton.mp hb]
      exact ⟨t, o, ht, hp, hof⟩
  addFieldType r id s hr := by
    refine ⟨hr.plain, fun a ha => ?_⟩
    obtain ⟨i, hi⟩ := getElem?_of_mem ha
    obtain ⟨b, types, hb, rfl⟩ := getElem?_addFieldType_eq_some hi
    obtain ⟨t, o, ht, hp, hof⟩ := hr.traced b (mem_of_getElem? hb)
    exact ⟨t, o, ht, hp, hof.addTypes types⟩
  remember r t s ht _ hr := by
    refine ⟨fun u hu => ?_, hr.traced⟩
    obtain ⟨s', hs'⟩ := hu
    rcases Resolver.lookup?_remember_eq_some hs' with ⟨rfl, -⟩ | hu
    · exact ht
    · exact hr.plain u ⟨s', hu⟩

/-- Nothing is lacking, and every entry is that of an aggregate with plain names. -/
structure Resolver.Faithful (r : Resolver) (m : Module) : Prop extends r.Settled m, r.Traced m

/-- The record of a known aggregate is that of its own entry. -/
theorem Resolver.Faithful.entry (hr : r.Faithful m) {s : Code.Ty} (hp : plan m t = .aggregate o)
    (hs : r.lookup? t = some s) :
    ∃ a : Aggregate, s = .record a.record ∧ r.registry.entries[a.record]? = some a ∧ a.Of o := by
  obtain ⟨a, rfl, ha, hsymbol⟩ := hr.toWellFormed.entry hp hs
  obtain ⟨u, o', hu, hp', hof⟩ := hr.traced a (mem_of_getElem? ha)
  obtain rfl : u = t := eq_of_symbol hu (hr.plain t ⟨_, hs⟩) hp' hp (hof.symbol.symm.trans hsymbol)
  cases hp.symm.trans hp'
  exact ⟨a, rfl, ha, hof⟩

/-- The parts of a known type are known. -/
theorem Resolver.Faithful.parts (hr : r.Faithful m) (ht : r.Knows t) :
    ∀ u ∈ m.parts t, r.Knows u := by
  obtain ⟨s, hs⟩ := ht
  intro u hu
  cases hr.yields t s hs with
  | direct hp =>
    rw [parts_of_direct hp] at hu
    cases hu
  | element hp hl =>
    rw [parts_of_element hp, mem_singleton] at hu
    exact hu ▸ ⟨_, hl⟩
  | aggregate hp _ _ =>
    obtain ⟨a, -, ha, hof⟩ := hr.entry hp hs
    rw [parts_of_aggregate hp, ← hof.fields] at hu
    exact (hr.typed _ a (Nat.zero_le _) ha).knows hu

theorem Resolver.Faithful.contains (hr : r.Faithful m) (ht : r.Knows t) (h : m.Contains t u) :
    r.Knows u := by
  induction h with
  | refl => exact ht
  | tail _ hpart ih => exact hr.parts ih _ hpart

theorem Resolver.Yields.supported {s : Code.Ty} (h : r.Yields m t s) : plan m t ≠ .unsupported := by
  intro hp
  cases h with
  | direct hp' | element hp' _ | aggregate hp' _ _ => cases hp.symm.trans hp'

/-! ## Failures -/

section
variable {m : Module}

mutual

/-- Resolution fails at an integer that is too wide, and it has come to it by way of parts. -/
theorem Resolves.tooWide {t : Ty} {r : Resolver} {x : Ending Code.Ty} (h : Resolves m t r x)
    (u : Ty) (r' : Resolver) (hx : x = .error u r') :
    plan m u = .unsupported ∧ m.Contains t u := by
  match h with
  | .unsupported _ hp =>
    cases hx
    exact ⟨hp, .refl⟩
  | .elementFails _ hp h =>
    obtain ⟨hu, hcontains⟩ := h.tooWide u r' hx
    exact ⟨hu, .head (by rw [parts_of_element hp]; exact mem_cons_self) hcontains⟩
  | .aggregateFails _ hp h =>
    obtain ⟨hu, e, he, hcontains⟩ := h.tooWide u r' hx
    exact ⟨hu, .head (by rwa [parts_of_aggregate hp]) hcontains⟩

theorem Registers.tooWide {o : Outline} {r : Resolver} {x : Ending Code.Ty} (h : Registers m o r x)
    (u : Ty) (r' : Resolver) (hx : x = .error u r') :
    plan m u = .unsupported ∧ ∃ t ∈ o.fields, m.Contains t u := by
  match h with
  | .fieldFails _ h =>
    obtain ⟨hu, hcontains⟩ := h.tooWide u r' (by cases hx; rfl)
    exact ⟨hu, hcontains⟩

theorem ResolvesFields.tooWide {id : RecordId} {ts : List Ty} {r : Resolver} {x : Ending Unit}
    (h : ResolvesFields m id ts r x) (u : Ty) (r' : Resolver) (hx : x = .error u r') :
    plan m u = .unsupported ∧ ∃ t ∈ ts, m.Contains t u := by
  match h with
  | .cons _ hrest =>
    obtain ⟨hu, t, ht, hcontains⟩ := hrest.tooWide u r' hx
    exact ⟨hu, t, mem_cons_of_mem _ ht, hcontains⟩
  | .fails h =>
    obtain ⟨hu, hcontains⟩ := h.tooWide u r' (by cases hx; rfl)
    exact ⟨hu, _, mem_cons_self, hcontains⟩

end

end

/-! ## Histories -/

/-- The resolvers that successful resolutions of types and signatures with plain names lead to. -/
inductive Resolver.Reached (m : Module) : Resolver → Prop
  | start : Reached m {}
  | type {r r' : Resolver} {t : Ty} {s : Code.Ty} :
      Reached m r → t.Plain → resolve m t r = .ok s r' → Reached m r'
  | signature {r r' : Resolver} {f : Ssa.FunctionType} {s : Code.MethodType} :
      Reached m r → f.toTy.Plain → resolveSignature m f r = .ok s r' → Reached m r'

/-- Whatever every resolution keeps holds in the end. -/
theorem Resolver.Reached.maintained {I : Resolver → Prop} (hstart : I {})
    (hI : ∀ t, t.Plain → Maintains I (resolve m t)) (hr : r.Reached m) : I r := by
  induction hr with
  | start => exact hstart
  | type _ ht hrun ih => exact hI _ ht _ _ _ hrun ih
  | signature _ hf hrun ih =>
    obtain ⟨hret, hparams⟩ := Ty.plain_function.mp hf
    refine (resolveSignature_visits m _).maintains (fun t ht => hI t ?_) _ _ _ hrun ih
    rcases mem_append.mp ht with ht | ht
    · exact hparams t ht
    · rw [mem_singleton.mp ht]
      exact hret

/-- Cache and registry agree: entries have their own numbers, symbols and names, the types of their
fields are the known counterparts of the fields, and the parts of known types are known. -/
structure Resolver.Consistent (r : Resolver) (m : Module) : Prop where
  numbered : ∀ (i : Nat) (a : Aggregate), r.registry.entries[i]? = some a → a.record = i
  symbols : (r.registry.entries.map (·.symbol)).Nodup
  names : (r.registry.entries.map (·.name)).Nodup
  fieldTypes : ∀ a ∈ r.registry.entries, Forall₂ (fun t s => r.lookup? t = some s) a.fields
    a.fieldTypes
  parts : ∀ t, r.Knows t → ∀ u ∈ m.parts t, r.Knows u

theorem Resolver.Reached.faithful (hm : m.PlainFields) (hr : r.Reached m) : r.Faithful m := by
  have htraced : Resolver.Traced {} m :=
    ⟨fun t ht => by simp [Resolver.Knows, Resolver.lookup?] at ht, by simp⟩
  exact ⟨hr.maintained (.empty m) fun t _ => resolve_settled m t, hr.maintained htraced fun t ht =>
    (traced_kept hm).resolve ht⟩

theorem Resolver.Reached.consistent (hm : m.PlainFields) (hr : r.Reached m) : r.Consistent m := by
  have hfaithful := hr.faithful hm
  have hnamed := hr.maintained (I := (·.registry.Named)) ⟨⟨.nil, by simp⟩, by simp⟩ fun t _ =>
      (named_kept m).resolve trivial
  refine ⟨hfaithful.numbered, hfaithful.distinct, hnamed.proper.distinct, fun a ha => ?_,
    fun t ht => hfaithful.parts ht⟩
  obtain ⟨i, hi⟩ := getElem?_of_mem ha
  exact hfaithful.typed i a (Nat.zero_le i) hi

/-! ## Later resolutions -/

/-- The resolver after a type or a signature is resolved, or found to have no counterpart. -/
inductive Resolver.Proceeds (m : Module) (r : Resolver) : Resolver → Prop
  | type (t : Ty) : Proceeds m r (final (resolve m t r))
  | signature (f : Ssa.FunctionType) : Proceeds m r (final (resolveSignature m f r))

/-- The resolvers after any number of resolutions. -/
def Resolver.Later (m : Module) : Resolver → Resolver → Prop :=
  Relation.ReflTransGen (Resolver.Proceeds m)

/-- A computation that changes nothing of what was known and registered, whether it succeeds or
not. -/
def Adds {α : Type} (x : Resolving α) : Prop := ∀ r : Resolver, r.Continues (final (x r))

theorem Adds.pure {a : α} : Adds (Pure.pure a) := fun r => .refl r

theorem Adds.bind {β : Type} {x : Resolving α} {f : α → Resolving β} (hx : Adds x)
    (hf : ∀ a, Adds (f a)) : Adds (x >>= f) := by
  intro r
  have hfirst := hx r
  cases hrun : x r with
  | ok a r' =>
    rw [hrun] at hfirst
    rw [run_bind_of_ok hrun]
    exact hfirst.trans (hf a r')
  | error u r' =>
    rw [hrun] at hfirst
    rw [run_bind_of_error hrun]
    exact hfirst

theorem resolveSignature_adds (m : Module) (f : Ssa.FunctionType) :
    Adds (resolveSignature m f) := by
  have hparams (ts : List Ty) : Adds (ts.mapM (resolve m)) := by
    induction ts with
    | nil => exact .pure
    | cons t ts ih =>
      rw [mapM_cons]
      exact Adds.bind (resolve_continues m t) fun _ => ih.bind fun _ => .pure
  exact (hparams f.params).bind fun _ => Adds.bind (resolve_continues m f.ret) fun _ => .pure

theorem Resolver.Later.continues {r' : Resolver} (h : Resolver.Later m r r') : r.Continues r' := by
  induction h with
  | refl => exact .refl r
  | tail _ hstep ih =>
    cases hstep with
    | type t => exact ih.trans (resolve_continues m t _)
    | signature f => exact ih.trans (resolveSignature_adds m f _)

/-- Whatever types and signatures were resolved, cache and registry are consistent. Later
resolutions, successful or not, change neither what is known nor what is registered, and those of
known types add nothing. -/
theorem reached_consistent {m : Module} (hm : m.PlainFields) {r : Resolver} (hr : r.Reached m) :
    r.Consistent m ∧ (∀ r', Resolver.Later m r r' → r.Continues r') ∧
      (∀ t s r', resolve m t r = .ok s r' → r'.lookup? t = some s) ∧
      ∀ t s, r.lookup? t = some s → resolve m t r = .ok s r :=
  ⟨hr.consistent hm, fun _ h => h.continues, fun _ _ _ h => lookup?_of_resolve h, fun _ _ h =>
    resolve_of_known h⟩

/-- Aggregates that contain themselves and each other, and one with an integer that is too wide. -/
def nestedTypes : Module where
  structs := [
    ⟨"list.Node", [.int 32, .array (.struct "list.Node") 2, .struct "std::pair"], false⟩,
    ⟨"std::pair", [.pointer, .literal [.struct "list.Node", .struct "undefined"] true], false⟩,
    ⟨"wide", [.struct "list.Node", .vector (.int 129) 4], false⟩]

theorem nestedTypes_consistent : nestedTypes.PlainFields ∧ ∃ s r,
    resolve nestedTypes (.struct "list.Node") {} = .ok s r ∧ r.Reached nestedTypes ∧
      r.Consistent nestedTypes := by
  have hm : nestedTypes.PlainFields := by decide
  obtain ⟨s, r, hrun⟩ : ∃ s r, resolve nestedTypes (.struct "list.Node") {} = .ok s r := ⟨_, _, rfl⟩
  have hr : r.Reached nestedTypes := .type .start (by decide) hrun
  exact ⟨hm, s, r, hrun, hr, (reached_consistent hm hr).1⟩

/-- Resolution ends, and it fails exactly if a type has a part that is an integer of more than 128
bits, at any depth; it reports such a part. -/
theorem resolve_fails_iff {m : Module} (hm : m.PlainFields) {r : Resolver} (hr : r.Reached m)
    {t : Ty} (ht : t.Plain) : (∀ x, Resolves m t r x ↔ x = resolve m t r) ∧
      ((∃ u r', resolve m t r = .error u r') ↔ ∃ bits, 128 < bits ∧ m.Contains t (.int bits)) ∧
      ∀ u r', resolve m t r = .error u r' → ∃ bits, u = .int bits ∧ 128 < bits ∧
        m.Contains t u := by
  have hreason (u : Ty) (r' : Resolver) (hrun : resolve m t r = .error u r') :
      ∃ bits, u = .int bits ∧ 128 < bits ∧ m.Contains t u := by
    obtain ⟨hp, hcontains⟩ := (resolve_resolves m t r).tooWide u r' hrun
    obtain ⟨bits, rfl, hlt⟩ := plan_unsupported.mp hp
    exact ⟨bits, rfl, hlt, hcontains⟩
  refine ⟨fun x => resolves_iff, ⟨?_, ?_⟩, hreason⟩
  · rintro ⟨u, r', hrun⟩
    obtain ⟨bits, rfl, hlt, hcontains⟩ := hreason u r' hrun
    exact ⟨bits, hlt, hcontains⟩
  · rintro ⟨bits, hlt, hcontains⟩
    cases hrun : resolve m t r with
    | error u r' => exact ⟨u, r', rfl⟩
    | ok s r' =>
      -- All parts would be known by now, but this one has no counterpart.
      have hr' := (hr.type ht hrun).faithful hm
      obtain ⟨s', hs'⟩ := hr'.contains ⟨s, lookup?_of_resolve hrun⟩ hcontains
      exact absurd (plan_unsupported.mpr ⟨bits, rfl, hlt⟩) (hr'.yields _ s' hs').supported

theorem nestedTypes_fails : nestedTypes.PlainFields ∧ ∃ s r,
    resolve nestedTypes (.struct "list.Node") {} = .ok s r ∧ r.Reached nestedTypes ∧
      ∃ u r', resolve nestedTypes (.literal [.array (.struct "wide") 3] false) r = .error u r' := by
  have hm : nestedTypes.PlainFields := by decide
  obtain ⟨s, r, hrun⟩ : ∃ s r, resolve nestedTypes (.struct "list.Node") {} = .ok s r := ⟨_, _, rfl⟩
  have hr : r.Reached nestedTypes := .type .start (by decide) hrun
  have hcontains : nestedTypes.Contains (.literal [.array (.struct "wide") 3] false) (.int 129) :=
    .head (b := .array (.struct "wide") 3) (by decide) <| .head (b := .struct "wide") (by decide) <|
      .head (b := .vector (.int 129) 4) (by decide) <| .single (by decide)
  exact ⟨hm, s, r, hrun, hr, (resolve_fails_iff hm hr (by decide)).2.1.mpr
    ⟨129, by decide, hcontains⟩⟩

end Stackify.Resolve
