import Stackify.Proofs.Success
import Stackify.Resolve.Resolver

/-!
Entries of a registry. A new one stands behind the others and has no types of fields yet; they are
added one by one (`Aggregate.addTypes`), which changes nothing else. How deep aggregates nest is
bounded by the number of defined aggregates that are not registered (`missing`), which decreases
with every nested registration.
-/

namespace Stackify.Resolve

open Ssa (Module)
open Code (RecordId Ty)
open List

/-! ## Types of fields -/

def Aggregate.addTypes (types : List Ty) (a : Aggregate) : Aggregate :=
  { a with fieldTypes := a.fieldTypes ++ types }

variable {es es' : List Aggregate}

theorem prefix_modify (h : es <+: es') {id : Nat} (hid : id < es.length)
    (f : Aggregate → Aggregate) : es.modify id f <+: es'.modify id f := by
  obtain ⟨more, rfl⟩ := h
  refine ⟨more, ext_getElem? fun i => ?_⟩
  by_cases hlt : i < es.length
  · rw [getElem?_append_left (by simpa using hlt), getElem?_modify, getElem?_modify,
      getElem?_append_left hlt]
  · have hne : id ≠ i := by omega
    rw [getElem?_append_right (by simpa using hlt), getElem?_modify,
      getElem?_append_right (by omega), length_modify]
    simp [hne]

theorem modify_addTypes_nil (es : List Aggregate) (id : RecordId) :
    es.modify id (·.addTypes []) = es := by
  have hsame : (fun a : Aggregate => a.addTypes []) = fun a => a := by
    funext a
    simp [Aggregate.addTypes]
  rw [hsame]
  exact modify_id id es

theorem modify_addTypes_cons (r : Registry) (id : RecordId) (s : Ty) (types : List Ty) :
    (r.addFieldType id s).entries.modify id (·.addTypes types) = r.entries.modify id
    (·.addTypes (s :: types)) := by
  rw [Registry.addFieldType, modify_modify_eq]
  congr
  funext a
  simp [Aggregate.addTypes]

theorem modify_last (es : List Aggregate) (a : Aggregate) (f : Aggregate → Aggregate) :
    (es ++ [a]).modify es.length f = es ++ [f a] := by
  simp [modify_eq_take_cons_drop]

theorem getElem?_concat_eq_some {a b : Aggregate} {i : Nat} (h : (es ++ [a])[i]? = some b) :
    es[i]? = some b ∨ i = es.length ∧ b = a := by
  rcases Nat.lt_or_ge i es.length with hi | hi
  · exact .inl (by rwa [getElem?_append_left hi] at h)
  · rw [getElem?_append_right hi, getElem?_singleton] at h
    split at h
    · exact .inr ⟨by omega, (Option.some.inj h).symm⟩
    · cases h

theorem getElem?_addFieldType (r : Registry) (id : RecordId) (s : Ty) (i : Nat) :
    (r.addFieldType id s).entries[i]? = (r.entries[i]?).map fun a =>
      a.addTypes (if id = i then [s] else []) := by
  rw [Registry.addFieldType, getElem?_modify]
  by_cases hi : id = i <;> simp [hi, Aggregate.addTypes]

/-- An entry is the one that was there before, but for the types of its fields. -/
theorem getElem?_addFieldType_eq_some {r : Registry} {id : RecordId} {s : Ty} {i : Nat}
    {a : Aggregate} (h : (r.addFieldType id s).entries[i]? = some a) :
    ∃ b types, r.entries[i]? = some b ∧ a = b.addTypes types := by
  obtain ⟨b, hb, rfl⟩ := Option.map_eq_some_iff.mp ((getElem?_addFieldType r id s i).symm.trans h)
  exact ⟨b, _, hb, rfl⟩

theorem map_addFieldType {β : Type} {g : Aggregate → β} (hg : ∀ a types, g (a.addTypes types) = g a)
    (r : Registry) (id : RecordId) (ty : Ty) :
    (r.addFieldType id ty).entries.map g = r.entries.map g := by
  refine ext_getElem? fun i => ?_
  rw [getElem?_map, getElem?_map, getElem?_addFieldType, Option.map_map]
  exact Option.map_congr fun a _ => hg a _

/-! ## Aggregates that are not registered -/

def Registry.symbols (r : Registry) : List String := r.entries.map (·.symbol)

theorem find?_eq_none {r : Registry} {symbol : String} :
    r.find? symbol = none ↔ symbol ∉ r.symbols := by
  simp [Registry.find?, Registry.symbols, List.find?_eq_none]

theorem symbols_addFieldType (r : Registry) (id : RecordId) (ty : Ty) :
    (r.addFieldType id ty).symbols = r.symbols :=
  map_addFieldType (fun _ _ => rfl) r id ty

/-- How many aggregates of a module are not registered under their names. -/
def missing (m : Module) (symbols : List String) : Nat := m.structs.countP fun s => s.name ∉ symbols

theorem missing_le_length (m : Module) (symbols : List String) :
    missing m symbols ≤ m.structs.length :=
  countP_le_length

section
variable {m : Module} {symbols symbols' : List String}

theorem countP_missing_le (h : symbols ⊆ symbols') (structs : List Ssa.Struct) :
    structs.countP (fun s => s.name ∉ symbols') ≤ structs.countP (fun s => s.name ∉ symbols) := by
  refine countP_mono_left fun s _ hs => ?_
  simp only [decide_eq_true_eq] at hs ⊢
  exact fun hmem => hs (h hmem)

theorem missing_le (h : symbols ⊆ symbols') : missing m symbols' ≤ missing m symbols :=
  countP_missing_le h _

/-- Registering a defined aggregate leaves fewer that are missing. -/
theorem missing_lt (h : symbols ⊆ symbols') {s : Ssa.Struct} (hs : s ∈ m.structs)
    (hnew : s.name ∉ symbols) (hold : s.name ∈ symbols') :
    missing m symbols' < missing m symbols := by
  obtain ⟨before, after, hsplit⟩ := append_of_mem hs
  have hbefore := countP_missing_le h before
  have hafter := countP_missing_le h after
  simp only [missing, hsplit, countP_append, countP_cons, decide_eq_true_eq, if_pos hnew,
    if_neg (not_not.mpr hold)]
  omega

end

end Stackify.Resolve
