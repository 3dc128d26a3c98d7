import Stackify.Proofs.Registry

/-!
Rules of resolution.

A type that is known has its counterpart; else its parts are resolved first, and what is found is
remembered. An aggregate that is registered has its record; else it is registered, and its fields
are resolved one after the other. The rules (`Resolves`) say nothing of how deep aggregates nest:
that a type is resolved by finitely many of them means that its resolution ends, also where
aggregates contain each other. It does, with what `resolve` gives and with nothing else:

    Resolves m t r x ↔ x = resolve m t r                                              (resolves_iff)

So whatever the rules keep, `resolve` keeps. First of all, what was known and registered stays as it
is, whether a type can be resolved or not (`resolve_continues`). Beyond that, a resolver changes in
three ways only, and what each of them keeps (`Kept`), resolutions keep (`Kept.resolve`).
-/

namespace Stackify.Ssa

/-- The types that a type directly consists of. What pointers and functions refer to is no part of
them. -/
def Module.parts (m : Module) : Ty → List Ty
  | .array e _ | .vector e _ => [e]
  | .struct name => ((m.struct? name).map (·.fields)).getD []
  | .literal fields _ => fields
  | _ => []

end Stackify.Ssa

namespace Stackify.Resolve

open Ssa (Module)
open Code (RecordId Ty)
open List Option

/-! ## What types consist of -/

/-- What is registered for an aggregate. -/
structure Outline where
  symbol : String
  base : Option String
  fields : List Ssa.Ty
  packed : Bool

/-- How the counterpart of a type is found: at once, not at all, from its element or from its
fields. -/
inductive Plan where
  | direct (s : Ty)
  | unsupported
  | element (e : Ssa.Ty) (length : Nat)
  | aggregate (o : Outline)

/-- Fields of named aggregates stand in the module; those that do not have none. -/
def plan (m : Module) : Ssa.Ty → Plan
  | .void | .label | .token | .metadata => .direct .void
  | .int bits =>
    if bits = 1 then .direct .bool else ((Code.Width.ofBits? bits).map fun w =>
      .direct (.int w)).getD .unsupported
  | .half => .direct (.float .half)
  | .float => .direct (.float .single)
  | .double => .direct (.float .double)
  | .pointer | .function _ _ _ => .direct .opaquePointer
  | .array e n | .vector e n => .element e n
  | .struct name =>
    .aggregate ⟨name, none, ((m.struct? name).map (·.fields)).getD [],
      ((m.struct? name).map (·.packed)).getD false⟩
  | .literal fields packed =>
    .aggregate ⟨(Ssa.Ty.literal fields packed).text, some "Struct", fields, packed⟩

variable {m : Module} {t e : Ssa.Ty} {o : Outline} {n : Nat}

/-- Integers have counterparts unless they are too wide. -/
theorem plan_int (m : Module) (bits : Nat) :
    (bits ≤ 128 ∧ ∃ s, plan m (.int bits) = .direct s) ∨ 128 < bits ∧ plan m
    (.int bits) = .unsupported := by
  unfold plan
  by_cases hb : bits = 1
  · exact .inl ⟨by omega, .bool, by simp [hb]⟩
  · cases hw : Code.Width.ofBits? bits with
    | some w =>
      have hle : bits ≤ w.bits := by simpa using find?_some hw
      have hmost : w.bits ≤ 128 := by cases w <;> decide
      exact .inl ⟨by omega, .int w, by simp [hb, hw]⟩
    | none =>
      have hnot : ¬ bits ≤ 128 :=
        fun hle => List.find?_eq_none.mp hw .w128 (by decide) (decide_eq_true hle)
      exact .inr ⟨by omega, by simp [hb, hw]⟩

theorem plan_eq_element (hp : plan m t = .element e n) : t = .array e n ∨ t = .vector e n := by
  cases t with
  | int bits => rcases plan_int m bits with ⟨-, s, hs⟩ | ⟨-, hs⟩ <;> cases hs.symm.trans hp
  | array _ _ =>
    cases hp
    exact .inl rfl
  | vector _ _ =>
    cases hp
    exact .inr rfl
  | _ => cases hp

theorem plan_eq_aggregate (hp : plan m t = .aggregate o) :
    (∃ name, t = .struct name) ∨ ∃ fields packed, t = .literal fields packed := by
  cases t with
  | int bits => rcases plan_int m bits with ⟨-, s, hs⟩ | ⟨-, hs⟩ <;> cases hs.symm.trans hp
  | struct name => exact .inl ⟨name, rfl⟩
  | literal fields packed => exact .inr ⟨fields, packed, rfl⟩
  | _ => cases hp

theorem parts_of_element (hp : plan m t = .element e n) : m.parts t = [e] := by
  rcases plan_eq_element hp with rfl | rfl <;> rfl

theorem parts_of_aggregate (hp : plan m t = .aggregate o) : m.parts t = o.fields := by
  rcases plan_eq_aggregate hp with ⟨name, rfl⟩ | ⟨fields, packed, rfl⟩ <;> cases hp <;> rfl

/-- Unnamed aggregates share one base for their display names, named ones have theirs. -/
theorem base_of_aggregate (hp : plan m t = .aggregate o) :
    ∀ name, o.base = some name → name = "Struct" := by
  rcases plan_eq_aggregate hp with ⟨name, rfl⟩ | ⟨fields, packed, rfl⟩ <;> cases hp <;> simp

/-- An entry is that of an aggregate, whether it has types for all fields or not. -/
structure Aggregate.Of (a : Aggregate) (o : Outline) : Prop where
  symbol : a.symbol = o.symbol
  fields : a.fields = o.fields
  packed : a.packed = o.packed

theorem Aggregate.Of.addTypes {a : Aggregate} (h : a.Of o) (types : List Ty) :
    (a.addTypes types).Of o :=
  ⟨h.symbol, h.fields, h.packed⟩

/-! ## Rules -/

/-- The resolver with an aggregate registered whose fields are not resolved. -/
def Resolver.begin (r : Resolver) (o : Outline) : Resolver :=
  { r with registry := (r.registry.register o.symbol o.base o.fields o.packed).2 }

def Resolver.addFieldType (r : Resolver) (id : RecordId) (s : Ty) : Resolver :=
  { r with registry := r.registry.addFieldType id s }

/-- What a resolution ends with: a result or the type that has no counterpart, and what is known
then. -/
abbrev Ending := EStateM.Result Ssa.Ty Resolver

mutual

inductive Resolves (m : Module) : Ssa.Ty → Resolver → Ending Ty → Prop
  | known {t r s} : r.lookup? t = some s → Resolves m t r (.ok s r)
  | direct {t r s} : r.lookup? t = none → plan m t = .direct s →
      Resolves m t r (.ok s (r.remember t s))
  | unsupported {t r} : r.lookup? t = none → plan m t = .unsupported → Resolves m t r (.error t r)
  | element {t r e n s r'} :
      r.lookup? t = none → plan m t = .element e n → Resolves m e r (.ok s r') → Resolves m t r
        (.ok (.array s n) (r'.remember t (.array s n)))
  | elementFails {t r e n u r'} :
      r.lookup? t = none → plan m t = .element e n → Resolves m e r (.error u r') → Resolves m t r
        (.error u r')
  | aggregate {t r o s r'} :
      r.lookup? t = none → plan m t = .aggregate o → Registers m o r (.ok s r') → Resolves m t r
        (.ok s (r'.remember t s))
  | aggregateFails {t r o u r'} :
      r.lookup? t = none → plan m t = .aggregate o → Registers m o r (.error u r') → Resolves m t r
        (.error u r')

/-- An aggregate has a record. -/
inductive Registers (m : Module) : Outline → Resolver → Ending Ty → Prop
  | found {o r a} : r.registry.find? o.symbol = some a → Registers m o r (.ok (.record a.record) r)
  | fields {o r r'} : r.registry.find? o.symbol = none →
      ResolvesFields m r.registry.entries.length o.fields (r.begin o) (.ok () r') →
      Registers m o r (.ok (.record r.registry.entries.length) r')
  | fieldFails {o r u r'} : r.registry.find? o.symbol = none →
      ResolvesFields m r.registry.entries.length o.fields (r.begin o) (.error u r') →
        Registers m o r (.error u r')

/-- The types of fields are added to an entry. -/
inductive ResolvesFields (m : Module) : RecordId → List Ssa.Ty → Resolver → Ending Unit → Prop
  | nil {id r} : ResolvesFields m id [] r (.ok () r)
  | cons {id t ts r s r' x} :
      Resolves m t r (.ok s r') → ResolvesFields m id ts (r'.addFieldType id s) x →
        ResolvesFields m id (t :: ts) r x
  | fails {id t ts r u r'} :
      Resolves m t r (.error u r') → ResolvesFields m id (t :: ts) r (.error u r')

end

/-! ## What stays -/

/-- A type has been resolved. -/
def Resolver.Knows (r : Resolver) (t : Ssa.Ty) : Prop := ∃ s, r.lookup? t = some s

/-- A resolver knows what another one knows, and has its records. -/
structure Resolver.Continues (r r' : Resolver) : Prop where
  kept : ∀ t s, r.lookup? t = some s → r'.lookup? t = some s
  entries : r.registry.entries <+: r'.registry.entries

/-- What is known at the end. -/
def final {α : Type} : Ending α → Resolver
  | .ok _ r => r
  | .error _ r => r

section
variable {r r' r'' : Resolver} {t u : Ssa.Ty} {s : Ty} {o : Outline}

theorem Resolver.lookup?_remember (r : Resolver) (t : Ssa.Ty) (s : Ty) :
    (r.remember t s).lookup? t = some s := by
  simp [Resolver.lookup?, Resolver.remember]

theorem Resolver.lookup?_remember_ne (r : Resolver) (s : Ty) (h : u ≠ t) :
    (r.remember t s).lookup? u = r.lookup? u := by
  have hut : (u == t) = false := by simpa using h
  have hfilter (cache : List (Ssa.Ty × Ty)) : (cache.filter fun e => e.1 ≠ t).lookup u =
      cache.lookup u := by
    induction cache with
    | nil => rfl
    | cons e cache ih =>
      obtain ⟨v, s'⟩ := e
      rw [filter_cons, lookup_cons]
      by_cases hv : v = t
      · rw [if_neg (by simpa using hv), ih, hv, hut]
      · rw [if_pos (by simpa using hv), lookup_cons, ih]
  rw [Resolver.lookup?, Resolver.remember, lookup_cons, hut]
  exact hfilter r.cache

theorem Resolver.lookup?_remember_eq_some {s' : Ty}
    (h : (r.remember t s).lookup? u = some s') : u = t ∧ s' = s ∨ r.lookup? u = some s' := by
  by_cases hut : u = t
  · subst hut
    exact .inl ⟨rfl, some.inj (h.symm.trans (r.lookup?_remember u s))⟩
  · exact .inr ((r.lookup?_remember_ne s hut).symm.trans h)

theorem Resolver.Continues.refl (r : Resolver) : r.Continues r := ⟨fun _ _ h => h, prefix_rfl⟩

theorem Resolver.Continues.trans (h : r.Continues r') (h' : r'.Continues r'') : r.Continues r'' :=
  ⟨fun t s hs => h'.kept t s (h.kept t s hs), h.entries.trans h'.entries⟩

theorem Resolver.Continues.knows (h : r.Continues r') (ht : r.Knows t) : r'.Knows t :=
  ht.imp (h.kept t)

/-- A type is remembered that was not known, so nothing that was known is overwritten. -/
theorem Resolver.Continues.remember (h : r.Continues r') (hl : r.lookup? t = none) (s : Ty) :
    r.Continues (r'.remember t s) := by
  refine ⟨fun u s' hu => ?_, h.entries⟩
  have hut : u ≠ t := by
    rintro rfl
    rw [hl] at hu
    cases hu
  exact (r'.lookup?_remember_ne s hut).trans (h.kept u s' hu)

theorem Resolver.Continues.symbols_subset (h : r.Continues r') :
    r.registry.symbols ⊆ r'.registry.symbols :=
  (h.entries.map _).subset

/-- The entry of a new aggregate stands behind the others. -/
theorem begin_entries (h : r.registry.find? o.symbol = none) : ∃ a : Aggregate,
    (r.begin o).registry.entries = r.registry.entries ++ [a] ∧
      a.record = r.registry.entries.length ∧ a.Of o ∧ a.fieldTypes = [] := by
  unfold Resolver.begin Registry.register
  rw [h]
  exact ⟨_, rfl, rfl, ⟨rfl, rfl, rfl⟩, rfl⟩

theorem begin_symbols (hnew : r.registry.find? o.symbol = none) :
    (r.begin o).registry.symbols = r.registry.symbols ++ [o.symbol] := by
  obtain ⟨a, ha, -, hof, -⟩ := begin_entries hnew
  simp [Registry.symbols, ha, hof.symbol]

theorem length_begin (hnew : r.registry.find? o.symbol = none) :
    (r.begin o).registry.entries.length = r.registry.entries.length + 1 := by
  obtain ⟨a, ha, -⟩ := begin_entries hnew
  simp [ha]

theorem length_addFieldType (r : Resolver) (id : RecordId) (s : Ty) :
    (r.addFieldType id s).registry.entries.length = r.registry.entries.length := length_modify _ _ _

/-- An entry gets more types of fields; otherwise what was known and registered stays. -/
structure Resolver.Filled (r : Resolver) (id : RecordId) (types : List Ty) (r' : Resolver) :
    Prop where
  kept : ∀ t s, r.lookup? t = some s → r'.lookup? t = some s
  entries : r.registry.entries.modify id (·.addTypes types) <+: r'.registry.entries

theorem Resolver.Continues.filled (h : r.Continues r') (id : RecordId) : r.Filled id [] r' := by
  refine ⟨h.kept, ?_⟩
  rw [modify_addTypes_nil]
  exact h.entries

variable {types : List Ty}

/-- The type of the next field is added before those of the others. -/
theorem Resolver.Filled.cons {id : RecordId} (h : r.Continues r')
    (hid : id < r.registry.entries.length) (hrest : (r'.addFieldType id s).Filled id types r'') :
    r.Filled id (s :: types) r'' := by
  refine ⟨fun t s ht => hrest.kept t s (h.kept t s ht), (prefix_modify h.entries hid _).trans ?_⟩
  rw [← modify_addTypes_cons]
  exact hrest.entries

/-- While the fields of a new aggregate are resolved, only its own entry changes. -/
theorem Resolver.Filled.continues (hnew : r.registry.find? o.symbol = none)
    (h : (r.begin o).Filled r.registry.entries.length types r') : r.Continues r' := by
  obtain ⟨a, ha, -⟩ := begin_entries hnew
  refine ⟨h.kept, IsPrefix.trans ?_ h.entries⟩
  rw [ha, modify_last]
  exact prefix_append _ _

/-- When the fields of a new aggregate are resolved, its entry has their types. -/
theorem Resolver.Filled.last (hnew : r.registry.find? o.symbol = none)
    (h : (r.begin o).Filled r.registry.entries.length types r') :
    ∃ a, r'.registry.entries[r.registry.entries.length]? = some a ∧
      a.record = r.registry.entries.length ∧ a.Of o ∧ a.fieldTypes = types := by
  obtain ⟨a, ha, hrecord, hof, htypes⟩ := begin_entries hnew
  have hentries := h.entries
  rw [ha, modify_last] at hentries
  obtain ⟨more, hmore⟩ := hentries
  refine ⟨a.addTypes types, ?_, hrecord, hof.addTypes types, by simp [Aggregate.addTypes, htypes]⟩
  simp [← hmore]

/-- Other entries than the one that is filled are not touched. -/
theorem Resolver.Filled.getElem?_eq {id i : Nat} (h : r.Filled id types r') (hid : id ≠ i)
    (hi : i < r.registry.entries.length) : r'.registry.entries[i]? = r.registry.entries[i]? := by
  obtain ⟨more, hmore⟩ := h.entries
  rw [← hmore, getElem?_append_left (by simpa using hi), getElem?_modify]
  simp [hid]

end

section
variable {m : Module}

mutual

theorem Resolves.continues {t : Ssa.Ty} {r : Resolver} {x : Ending Ty} (h : Resolves m t r x) :
    r.Continues (final x) := by
  match h with
  | .known _ => exact .refl r
  | .direct hl _ => exact (Resolver.Continues.refl r).remember hl _
  | .unsupported _ _ => exact .refl r
  | .element hl _ h => exact h.continues.remember hl _
  | .elementFails _ _ h => exact h.continues
  | .aggregate hl _ h => exact h.continues.remember hl _
  | .aggregateFails _ _ h => exact h.continues

theorem Registers.continues {o : Outline} {r : Resolver} {x : Ending Ty}
    (h : Registers m o r x) : r.Continues (final x) := by
  match h with
  | .found _ => exact .refl r
  | .fields hnew h | .fieldFails hnew h =>
    obtain ⟨types, hfilled⟩ := h.filled (by simp [length_begin hnew])
    exact hfilled.continues hnew

theorem ResolvesFields.filled {id : RecordId} {ts : List Ssa.Ty} {r : Resolver} {x : Ending Unit}
    (h : ResolvesFields m id ts r x) (hid : id < r.registry.entries.length) :
    ∃ types, r.Filled id types (final x) := by
  match h with
  | .nil => exact ⟨[], (Resolver.Continues.refl r).filled id⟩
  | .cons h hrest =>
    have hfirst := h.continues
    have hid' := Nat.lt_of_lt_of_le hid hfirst.entries.length_le
    obtain ⟨types, hfilled⟩ := hrest.filled (by rwa [length_addFieldType])
    exact ⟨_, .cons hfirst hid hfilled⟩
  | .fails h => exact ⟨[], h.continues.filled id⟩

end

/-! ## What is kept -/

/-- The counterparts of a type that are at hand with what is known and registered. -/
inductive Resolver.Yields (r : Resolver) (m : Module) (t : Ssa.Ty) : Ty → Prop
  | direct {s} : plan m t = .direct s → Yields r m t s
  | element {e n s} : plan m t = .element e n → r.lookup? e = some s → Yields r m t (.array s n)
  | aggregate {o a} : plan m t = .aggregate o → a ∈ r.registry.entries → a.symbol = o.symbol →
      Yields r m t (.record a.record)

/-- A property of resolvers is kept by the changes that resolving certain types makes. -/
structure Kept (m : Module) (P : Ssa.Ty → Prop) (I : Resolver → Prop) : Prop where
  parts : ∀ t, P t → ∀ u ∈ m.parts t, P u
  begin : ∀ r t o, P t → plan m t = .aggregate o → r.registry.find? o.symbol = none → I r →
    I (r.begin o)
  addFieldType : ∀ r id s, I r → I (r.addFieldType id s)
  remember : ∀ r t s, P t → r.Yields m t s → I r → I (r.remember t s)

variable {r r' : Resolver} {s : Ty}

/-- A type that is resolved is known. -/
theorem Resolves.lookup? (h : Resolves m t r (.ok s r')) : r'.lookup? t = some s := by
  cases h with
  | known hl => exact hl
  | _ => exact Resolver.lookup?_remember _ t _

/-- An aggregate that has a record is registered. -/
theorem Registers.exists_entry (h : Registers m o r (.ok s r')) :
    ∃ a ∈ r'.registry.entries, a.symbol = o.symbol ∧ s = .record a.record := by
  cases h with
  | found hf => exact ⟨_, mem_of_find?_eq_some hf, by simpa using find?_some hf, rfl⟩
  | fields hnew h =>
    obtain ⟨types, hfilled⟩ := h.filled (by simp [length_begin hnew])
    obtain ⟨a, ha, hrecord, hof, -⟩ := hfilled.last hnew
    exact ⟨a, mem_of_getElem? ha, hof.symbol, by rw [hrecord]⟩

theorem Registers.yields (hp : plan m t = .aggregate o) (h : Registers m o r (.ok s r')) :
    r'.Yields m t s := by
  obtain ⟨a, ha, hsymbol, rfl⟩ := h.exists_entry
  exact .aggregate hp ha hsymbol

section
variable {P : Ssa.Ty → Prop} {I : Resolver → Prop}

mutual

theorem Kept.resolves (hI : Kept m P I) {t : Ssa.Ty} {r : Resolver} {x : Ending Ty}
    (h : Resolves m t r x) (ht : P t) (hr : I r) : I (final x) := by
  match h with
  | .known _ | .unsupported _ _ => exact hr
  | .direct _ hp => exact hI.remember r t _ ht (.direct hp) hr
  | .element _ hp h =>
    have he := forall_mem_singleton.mp (parts_of_element hp ▸ hI.parts t ht)
    exact hI.remember _ t _ ht (.element hp h.lookup?) (hI.resolves h he hr)
  | .elementFails _ hp h =>
    have he := forall_mem_singleton.mp (parts_of_element hp ▸ hI.parts t ht)
    exact hI.resolves h he hr
  | .aggregate _ hp h => exact hI.remember _ t _ ht (h.yields hp) (hI.registers h ht hp hr)
  | .aggregateFails _ hp h => exact hI.registers h ht hp hr

theorem Kept.registers (hI : Kept m P I) {o : Outline} {r : Resolver} {x : Ending Ty}
    (h : Registers m o r x) {t : Ssa.Ty} (ht : P t) (hp : plan m t = .aggregate o) (hr : I r) :
    I (final x) := by
  match h with
  | .found _ => exact hr
  | .fields hnew h | .fieldFails hnew h =>
    exact hI.resolvesFields h (parts_of_aggregate hp ▸ hI.parts t ht) (hI.begin r t o ht hp hnew hr)

theorem Kept.resolvesFields (hI : Kept m P I) {id : RecordId} {ts : List Ssa.Ty} {r : Resolver}
    {x : Ending Unit} (h : ResolvesFields m id ts r x) (hts : ∀ t ∈ ts, P t) (hr : I r) :
    I (final x) := by
  match h with
  | .nil => exact hr
  | .cons h hrest =>
    rw [forall_mem_cons] at hts
    exact hI.resolvesFields hrest hts.2 (hI.addFieldType _ id _ (hI.resolves h hts.1 hr))
  | .fails h => exact hI.resolves h (hts _ mem_cons_self) hr

end

end

/-! ## Uniqueness -/

mutual

/-- At most one rule applies: a type is known or has one plan, and an aggregate is registered or
not. -/
theorem Resolves.unique {t : Ssa.Ty} {r : Resolver} {x y : Ending Ty} (h : Resolves m t r x)
    (h' : Resolves m t r y) : x = y := by
  match h with
  | .known hl => cases h' <;> simp_all
  | .direct hl hp => cases h' <;> simp_all
  | .unsupported hl hp => cases h' <;> simp_all
  | .element hl hp h =>
    cases h' with
    | element _ hp' h' =>
      cases hp.symm.trans hp'
      cases h.unique h'
      rfl
    | elementFails _ hp' h' =>
      cases hp.symm.trans hp'
      cases h.unique h'
    | _ => simp_all
  | .elementFails hl hp h =>
    cases h' with
    | element _ hp' h' =>
      cases hp.symm.trans hp'
      cases h.unique h'
    | elementFails _ hp' h' =>
      cases hp.symm.trans hp'
      exact h.unique h'
    | _ => simp_all
  | .aggregate hl hp h =>
    cases h' with
    | aggregate _ hp' h' =>
      cases hp.symm.trans hp'
      cases h.unique h'
      rfl
    | aggregateFails _ hp' h' =>
      cases hp.symm.trans hp'
      cases h.unique h'
    | _ => simp_all
  | .aggregateFails hl hp h =>
    cases h' with
    | aggregate _ hp' h' =>
      cases hp.symm.trans hp'
      cases h.unique h'
    | aggregateFails _ hp' h' =>
      cases hp.symm.trans hp'
      exact h.unique h'
    | _ => simp_all

theorem Registers.unique {o : Outline} {r : Resolver} {x y : Ending Ty} (h : Registers m o r x)
    (h' : Registers m o r y) : x = y := by
  match h with
  | .found hf => cases h' <;> simp_all
  | .fields hnew h =>
    cases h' with
    | found hf => simp_all
    | fields _ h' =>
      cases h.unique h'
      rfl
    | fieldFails _ h' => cases h.unique h'
  | .fieldFails hnew h =>
    cases h' with
    | found hf => simp_all
    | fields _ h' => cases h.unique h'
    | fieldFails _ h' =>
      cases h.unique h'
      rfl

theorem ResolvesFields.unique {id : RecordId} {ts : List Ssa.Ty} {r : Resolver} {x y : Ending Unit}
    (h : ResolvesFields m id ts r x) (h' : ResolvesFields m id ts r y) : x = y := by
  match h with
  | .nil =>
    cases h'
    rfl
  | .cons h hrest =>
    cases h' with
    | cons h' hrest' =>
      cases h.unique h'
      exact hrest.unique hrest'
    | fails h' => cases h.unique h'
  | .fails h =>
    cases h' with
    | cons h' _ => cases h.unique h'
    | fails h' =>
      cases h.unique h'
      rfl

end

end

/-! ## Computations -/

section
variable {m : Module} {depth : Nat} {t : Ssa.Ty} {r : Resolver} {o : Outline}
  {x : Resolving Ty}

theorem memoized_of_known {s : Ty} (h : r.lookup? t = some s) : memoized t x r = .ok s r := by
  rw [memoized, run_get_bind, h]
  rfl

/-- A type is known, or it is remembered what is computed for it. -/
theorem memoized_ok {s : Ty} {r' : Resolver} (hx : x r = .ok s r')
    (h : r.lookup? t = none → Resolves m t r (.ok s (r'.remember t s))) :
    Resolves m t r (memoized t x r) := by
  cases hl : r.lookup? t with
  | some s =>
    rw [memoized_of_known hl]
    exact .known hl
  | none =>
    rw [memoized, run_get_bind, hl]
    dsimp only
    rw [run_bind_of_ok hx]
    exact h hl

theorem memoized_error {u : Ssa.Ty} {r' : Resolver} (hx : x r = .error u r')
    (h : r.lookup? t = none → Resolves m t r (.error u r')) : Resolves m t r (memoized t x r) := by
  cases hl : r.lookup? t with
  | some s =>
    rw [memoized_of_known hl]
    exact .known hl
  | none =>
    rw [memoized, run_get_bind, hl]
    dsimp only
    rw [run_bind_of_error hx]
    exact h hl

theorem memoized_direct {s : Ty} (hp : plan m t = .direct s) :
    Resolves m t r (memoized t (return s) r) :=
  memoized_ok rfl fun hl => .direct hl hp

theorem memoized_aggregate (hp : plan m t = .aggregate o) (h : Registers m o r (x r)) :
    Resolves m t r (memoized t x r) := by
  cases hx : x r with
  | ok s r' => exact memoized_ok hx fun hl => .aggregate hl hp (hx ▸ h)
  | error u r' => exact memoized_error hx fun hl => .aggregateFails hl hp (hx ▸ h)

/-- A new aggregate is registered, and then its fields are resolved. -/
theorem recordOf_registers (resolveAll : RecordId → Resolving Unit)
    (hall : r.registry.find? o.symbol = none →
      ResolvesFields m r.registry.entries.length o.fields (r.begin o)
        (resolveAll r.registry.entries.length (r.begin o))) :
    Registers m o r (recordOf o.symbol (do
      let id ← register o.symbol o.base o.fields o.packed
      resolveAll id
      return id) r) := by
  rw [recordOf, run_get_bind]
  cases hf : r.registry.find? o.symbol with
  | some a => exact .found hf
  | none =>
    have hregister : register o.symbol o.base o.fields o.packed r = .ok r.registry.entries.length
        (r.begin o) := by
      show EStateM.Result.ok (r.registry.register o.symbol o.base o.fields o.packed).1
        (r.begin o) = _
      rw [Registry.register, hf]
    specialize hall hf
    dsimp only
    cases hrun : resolveAll r.registry.entries.length (r.begin o) with
    | ok a r' =>
      rw [hrun] at hall
      rw [run_bind_of_ok (run_bind_of_ok hregister |>.trans (run_bind_of_ok hrun))]
      exact .fields hf hall
    | error u r' =>
      rw [hrun] at hall
      rw [run_bind_of_error (run_bind_of_ok hregister |>.trans (run_bind_of_error hrun))]
      exact .fieldFails hf hall

/-! ## Types -/

mutual

theorem resolveWith_resolves {ofStruct : String → Resolving Ty}
    (h : ∀ name o r, plan m (.struct name) = .aggregate o → missing m r.registry.symbols < depth →
      Registers m o r (ofStruct name r))
    (t : Ssa.Ty) (r : Resolver) (hr : missing m r.registry.symbols < depth) :
    Resolves m t r (resolveWith ofStruct t r) := by
  match t with
  | .void | .label | .token | .metadata | .half | .float | .double | .pointer | .function .. =>
    rw [resolveWith]
    exact memoized_direct rfl
  | .int bits =>
    rw [resolveWith]
    by_cases hb : bits = 1
    · rw [if_pos hb]
      exact memoized_direct (by simp [plan, hb])
    · rw [if_neg hb]
      cases hw : Code.Width.ofBits? bits with
      | some w => exact memoized_direct (by simp [plan, hb, hw])
      | none => exact memoized_error rfl fun hl => .unsupported hl (by simp [plan, hb, hw])
  | .array e n | .vector e n =>
    rw [resolveWith]
    have he := resolveWith_resolves h e r hr
    cases hrun : resolveWith ofStruct e r with
    | ok s r' => exact memoized_ok (run_bind_of_ok hrun) fun hl => .element hl rfl (hrun ▸ he)
    | error u r' =>
      exact memoized_error (run_bind_of_error hrun) fun hl => .elementFails hl rfl (hrun ▸ he)
  | .struct name =>
    rw [resolveWith]
    exact memoized_aggregate rfl (h name _ r rfl hr)
  | .literal fields packed =>
    rw [resolveWith]
    refine memoized_aggregate rfl (recordOf_registers (resolveFields ofStruct · fields)
      fun hnew => ?_)
    refine resolveFields_resolves h _ fields _ ?_
    rw [begin_symbols hnew]
    exact Nat.lt_of_le_of_lt (missing_le (subset_append_left _ _)) hr

theorem resolveFields_resolves {ofStruct : String → Resolving Ty}
    (h : ∀ name o r, plan m (.struct name) = .aggregate o → missing m r.registry.symbols < depth →
      Registers m o r (ofStruct name r))
    (id : RecordId) (ts : List Ssa.Ty) (r : Resolver) (hr : missing m r.registry.symbols < depth) :
    ResolvesFields m id ts r (resolveFields ofStruct id ts r) := by
  match ts with
  | [] =>
    rw [resolveFields]
    exact .nil
  | t :: ts =>
    rw [resolveFields]
    have hfirst := resolveWith_resolves h t r hr
    cases hrun : resolveWith ofStruct t r with
    | ok s r' =>
      rw [hrun] at hfirst
      rw [run_bind_of_ok hrun]
      refine .cons hfirst (resolveFields_resolves h id ts _ ?_)
      have hsame : (r'.addFieldType id s).registry.symbols = r'.registry.symbols :=
        symbols_addFieldType _ _ _
      rw [hsame]
      exact Nat.lt_of_le_of_lt (missing_le hfirst.continues.symbols_subset) hr
    | error u r' =>
      rw [hrun] at hfirst
      rw [run_bind_of_error hrun]
      exact .fails hfirst

end

theorem resolveStruct_registers (m : Module) (depth : Nat) (name : String) (o : Outline)
    (r : Resolver) (hp : plan m (.struct name) = .aggregate o)
    (hr : missing m r.registry.symbols < depth) :
    Registers m o r (resolveStruct m depth name r) := by
  induction depth generalizing name o r with
  | zero => exact absurd hr (Nat.not_lt_zero _)
  | succ depth ih =>
    rw [resolveStruct]
    cases hs : m.struct? name with
    | none =>
      simp only [plan, hs, map_none, getD_none, Plan.aggregate.injEq] at hp
      subst hp
      refine recordOf_registers (resolveFields (resolveStruct m depth) · []) fun _ => ?_
      rw [resolveFields]
      exact .nil
    | some d =>
      simp only [plan, hs, map_some, getD_some, Plan.aggregate.injEq] at hp
      subst hp
      refine recordOf_registers (resolveFields (resolveStruct m depth) · d.fields) fun hnew => ?_
      refine resolveFields_resolves ih _ d.fields _ ?_
      -- One aggregate less is missing from now on.
      have hmem : d ∈ m.structs := mem_of_find?_eq_some hs
      obtain rfl : d.name = name := by simpa using find?_some hs
      have hless : missing m (r.registry.symbols ++ [d.name]) < missing m r.registry.symbols :=
        missing_lt (subset_append_left _ _) hmem (find?_eq_none.mp hnew) (by simp)
      rw [begin_symbols hnew]
      exact Nat.lt_of_lt_of_le hless (Nat.le_of_lt_succ hr)

end

/-- Resolution follows the rules, and ends. -/
theorem resolve_resolves (m : Module) (t : Ssa.Ty) (r : Resolver) :
    Resolves m t r (resolve m t r) :=
  resolveWith_resolves (resolveStruct_registers m _) t r (Nat.lt_succ_of_le (missing_le_length m _))

variable {m : Module} {t : Ssa.Ty} {r r' : Resolver} {s : Ty}

theorem resolves_iff {x : Ending Ty} : Resolves m t r x ↔ x = resolve m t r := by
  constructor
  · exact fun h => h.unique (resolve_resolves m t r)
  · rintro rfl
    exact resolve_resolves m t r

/-- What was known and registered stays, whether a type can be resolved or not. -/
theorem resolve_continues (m : Module) (t : Ssa.Ty) (r : Resolver) :
    r.Continues (final (resolve m t r)) :=
  (resolve_resolves m t r).continues

theorem continues_of_resolve (h : resolve m t r = .ok s r') : r.Continues r' := by
  have hcontinues := resolve_continues m t r
  rwa [h] at hcontinues

/-- A type that is resolved is known. -/
theorem lookup?_of_resolve (h : resolve m t r = .ok s r') : r'.lookup? t = some s :=
  (resolves_iff.mpr h.symm).lookup?

/-- Resolving a known type gives its counterpart, and adds nothing. -/
theorem resolve_of_known (h : r.lookup? t = some s) : resolve m t r = .ok s r :=
  (resolves_iff.mp (.known h)).symm

/-- A computation that keeps a property of resolvers. -/
def Maintains {α : Type} (I : Resolver → Prop) (x : Resolving α) : Prop :=
  ∀ r a r', x r = .ok a r' → I r → I r'

/-- What each change keeps, resolving a type keeps. -/
theorem Kept.resolve {P : Ssa.Ty → Prop} {I : Resolver → Prop} (hI : Kept m P I) (ht : P t) :
    Maintains I (Resolve.resolve m t) := by
  intro r s r' h hr
  have hkept := hI.resolves (resolve_resolves m t r) ht hr
  rwa [h] at hkept

end Stackify.Resolve
