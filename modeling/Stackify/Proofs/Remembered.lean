import Mathlib.Data.List.Nodup
import Stackify.Proofs.ResolutionRules

/-!
What a resolver remembers.

A type that is known has a counterpart that is at hand with what is known and registered
(`WellFormed`): the element of an array is known, and an aggregate has an entry. Its outermost
constructor says what form the counterpart has (`Denotes`). There is only one at hand, so that
remembering a type once more changes nothing.

An aggregate is registered before its fields are resolved, so that its entry lacks types in between.
But nothing that is resolved meanwhile touches the entries that were there: new entries stand behind
them, and lack nothing by the time their own aggregate is resolved (`Resolves.typed`). Between
resolutions nothing is lacking (`Settled`):

    resolve m t r = .ok s r' → r.Settled m → r'.Settled m                          (resolve_settled)
-/

namespace Stackify.Resolve

open Ssa (Module)
open Code (RecordId Ty)
open List

/-! ## Known types -/

/-- Entries carry their positions as numbers and have their own symbols, and the counterparts of
known types are at hand. -/
structure Resolver.WellFormed (r : Resolver) (m : Module) : Prop where
  numbered : ∀ (i : Nat) (a : Aggregate), r.registry.entries[i]? = some a → a.record = i
  distinct : r.registry.symbols.Nodup
  yields : ∀ t s, r.lookup? t = some s → r.Yields m t s

variable {m : Module} {r r' : Resolver} {t e : Ssa.Ty} {s s' : Ty} {o : Outline} {n : Nat}

theorem Resolver.Yields.mono (h : r.Yields m t s) (hkept : ∀ t s, r.lookup? t = some s →
    r'.lookup? t = some s) (hentries :
    ∀ a ∈ r.registry.entries, ∃ b ∈ r'.registry.entries, b.symbol = a.symbol ∧
      b.record = a.record) : r'.Yields m t s := by
  cases h with
  | direct hp => exact .direct hp
  | element hp hl => exact .element hp (hkept _ _ hl)
  | aggregate hp ha hsymbol =>
    obtain ⟨b, hb, hsame, hrecord⟩ := hentries _ ha
    exact hrecord ▸ .aggregate hp hb (hsame.trans hsymbol)

/-- Only one counterpart is at hand. -/
theorem Resolver.Yields.unique (hr : r.registry.symbols.Nodup) (h : r.Yields m t s)
    (h' : r.Yields m t s') : s = s' := by
  cases h with
  | direct hp =>
    cases h' with
    | direct hp' => exact Plan.direct.inj (hp.symm.trans hp')
    | element hp' _ | aggregate hp' _ _ => cases hp.symm.trans hp'
  | element hp hl =>
    cases h' with
    | element hp' hl' =>
      cases hp.symm.trans hp'
      rw [Option.some.inj (hl.symm.trans hl')]
    | direct hp' | aggregate hp' _ _ => cases hp.symm.trans hp'
  | aggregate hp ha hsymbol =>
    cases h' with
    | aggregate hp' ha' hsymbol' =>
      cases hp.symm.trans hp'
      rw [inj_on_of_nodup_map hr ha ha' (hsymbol.trans hsymbol'.symm)]
    | direct hp' | element hp' _ => cases hp.symm.trans hp'

theorem Resolver.WellFormed.element (hr : r.WellFormed m) (hp : plan m t = .element e n)
    (hs : r.lookup? t = some s) : ∃ s', r.lookup? e = some s' ∧ s = .array s' n := by
  cases hr.yields t s hs with
  | element hp' hl =>
    cases hp.symm.trans hp'
    exact ⟨_, hl, rfl⟩
  | direct hp' | aggregate hp' _ _ => cases hp.symm.trans hp'

theorem Resolver.WellFormed.entry (hr : r.WellFormed m) (hp : plan m t = .aggregate o)
    (hs : r.lookup? t = some s) : ∃ a : Aggregate, s = .record a.record ∧
      r.registry.entries[a.record]? = some a ∧ a.symbol = o.symbol := by
  cases hr.yields t s hs with
  | aggregate hp' ha hsymbol =>
    cases hp.symm.trans hp'
    obtain ⟨i, hi⟩ := getElem?_of_mem ha
    exact ⟨_, rfl, by rwa [hr.numbered i _ hi], hsymbol⟩
  | direct hp' | element hp' _ => cases hp.symm.trans hp'

/-! ## Changes of a resolver -/

theorem Resolver.WellFormed.empty (m : Module) : Resolver.WellFormed {} m where
  numbered _ _ h := by simp at h
  distinct := .nil
  yields _ _ h := by simp [Resolver.lookup?] at h

section
variable (hr : r.WellFormed m)
include hr

theorem Resolver.WellFormed.begin (hnew : r.registry.find? o.symbol = none) :
    (r.begin o).WellFormed m := by
  obtain ⟨a, ha, hrecord, -⟩ := begin_entries hnew
  refine ⟨fun i b hb => ?_, ?_, fun u s hu => (hr.yields u s hu).mono (fun _ _ h => h) fun b hb =>
    ⟨b, ?_, rfl, rfl⟩⟩
  · rw [ha] at hb
    rcases getElem?_concat_eq_some hb with hb | ⟨rfl, rfl⟩
    · exact hr.numbered i b hb
    · exact hrecord
  · rw [begin_symbols hnew, nodup_append]
    refine ⟨hr.distinct, nodup_singleton _, fun symbol hold symbol' hsymbol heq => ?_⟩
    rw [mem_singleton] at hsymbol
    exact find?_eq_none.mp hnew (hsymbol ▸ heq ▸ hold)
  · rw [ha]
    exact mem_append_left _ hb

theorem Resolver.WellFormed.addFieldType (id : RecordId) (s : Ty) :
    (r.addFieldType id s).WellFormed m := by
  refine ⟨fun i a ha => ?_, ?_, fun u s' hu => (hr.yields u s' hu).mono (fun _ _ h => h)
    fun b hb => ?_⟩
  · obtain ⟨b, types, hb, rfl⟩ := getElem?_addFieldType_eq_some ha
    exact hr.numbered i b hb
  · have hsymbols : (r.addFieldType id s).registry.symbols = r.registry.symbols :=
      symbols_addFieldType _ id s
    rw [hsymbols]
    exact hr.distinct
  · obtain ⟨i, hi⟩ := getElem?_of_mem hb
    have hi' := getElem?_addFieldType r.registry id s i
    rw [hi] at hi'
    exact ⟨_, mem_of_getElem? hi', rfl, rfl⟩

/-- A counterpart that is at hand is remembered. If the type was known, nothing changes. -/
theorem Resolver.WellFormed.continues_remember (hs : r.Yields m t s) :
    r.Continues (r.remember t s) := by
  refine ⟨fun u s' hu => ?_, prefix_rfl⟩
  by_cases hut : u = t
  · subst hut
    rw [(hr.yields u s' hu).unique hr.distinct hs]
    exact r.lookup?_remember u s
  · exact (r.lookup?_remember_ne s hut).trans hu

theorem Resolver.WellFormed.remember (hs : r.Yields m t s) : (r.remember t s).WellFormed m := by
  refine ⟨hr.numbered, hr.distinct, fun u s' hu => ?_⟩
  have hyields : r.Yields m u s' := by
    rcases Resolver.lookup?_remember_eq_some hu with ⟨rfl, rfl⟩ | hu
    · exact hs
    · exact hr.yields u s' hu
  exact hyields.mono (hr.continues_remember hs).kept fun b hb => ⟨b, hb, rfl, rfl⟩

end

theorem wellFormed_kept (m : Module) : Kept m (fun _ => True) (·.WellFormed m) where
  parts _ _ _ _ := trivial
  begin _ _ _ _ _ hnew hr := hr.begin hnew
  addFieldType _ id s hr := hr.addFieldType id s
  remember _ _ _ _ hs hr := hr.remember hs

/-! ## Types of fields -/

/-- The types of an entry's fields are known, and they are the types that the entry has. -/
def Aggregate.Typed (r : Resolver) (a : Aggregate) : Prop :=
  Forall₂ (fun t s => r.lookup? t = some s) a.fields a.fieldTypes

/-- Entries from a position on lack no types. -/
def Resolver.TypedFrom (r : Resolver) (start : Nat) : Prop :=
  ∀ (i : Nat) (a : Aggregate), start ≤ i → r.registry.entries[i]? = some a → a.Typed r

variable {start : Nat} {a : Aggregate}

theorem Aggregate.Typed.mono (h : a.Typed r) (hkept : ∀ t s, r.lookup? t = some s →
    r'.lookup? t = some s) : a.Typed r' :=
  Forall₂.imp (fun t s => hkept t s) h

theorem Aggregate.Typed.knows (h : a.Typed r) (ht : t ∈ a.fields) : r.Knows t := by
  obtain ⟨j, hj⟩ := getElem?_of_mem ht
  obtain ⟨s, -, hs⟩ := forall₂_some_left h hj
  exact ⟨s, hs⟩

theorem Resolver.typedFrom_length (r : Resolver) : r.TypedFrom r.registry.entries.length := by
  intro i a hi ha
  have hlt := lt_of_getElem? ha
  omega

theorem Resolver.TypedFrom.trans (h : r.TypedFrom start) (hcontinues : r.Continues r')
    (h' : r'.TypedFrom r.registry.entries.length) : r'.TypedFrom start := by
  intro i a hi ha
  by_cases hlt : i < r.registry.entries.length
  · -- Entries that were there before stay as they are.
    obtain ⟨more, hmore⟩ := hcontinues.entries
    rw [← hmore, getElem?_append_left hlt] at ha
    exact (h i a hi ha).mono hcontinues.kept
  · exact h' i a (by omega) ha

theorem Resolver.TypedFrom.remember (h : r.TypedFrom start) (hr : r.WellFormed m)
    (hs : r.Yields m t s) : (r.remember t s).TypedFrom start :=
  h.trans (hr.continues_remember hs) (r.remember t s).typedFrom_length

theorem Resolver.TypedFrom.filled {id : Nat} {types : List Ty} (h : r.TypedFrom start)
    (hid : id < start) (hfilled : (r.addFieldType id s).Filled id types r')
    (h' : r'.TypedFrom r.registry.entries.length) : r'.TypedFrom start := by
  intro i a hi ha
  by_cases hlt : i < r.registry.entries.length
  · have hne : id ≠ i := by omega
    rw [hfilled.getElem?_eq hne (by rwa [length_addFieldType]), Resolver.addFieldType,
      getElem?_addFieldType] at ha
    exact (h i a hi (by simpa [hne, Aggregate.addTypes] using ha)).mono hfilled.kept
  · exact h' i a (by omega) ha

section
variable {m : Module}

mutual

/-- Entries that are added for a type lack nothing when it is resolved. -/
theorem Resolves.typed {t : Ssa.Ty} {r : Resolver} {x : Ending Ty} (h : Resolves m t r x)
    (hr : r.WellFormed m) (s : Ty) (r' : Resolver) (hx : x = .ok s r') :
    r'.TypedFrom r.registry.entries.length := by
  match h with
  | .known _ =>
    cases hx
    exact r.typedFrom_length
  | .direct _ hp =>
    cases hx
    exact r.typedFrom_length.remember hr (.direct hp)
  | .element _ hp h =>
    have htyped := h.typed hr _ _ rfl
    cases hx
    exact htyped.remember ((wellFormed_kept m).resolves h trivial hr) (.element hp h.lookup?)
  | .aggregate _ hp h =>
    have htyped := h.typed hr _ _ rfl
    cases hx
    exact htyped.remember ((wellFormed_kept m).registers h trivial hp hr) (h.yields hp)

theorem Registers.typed {o : Outline} {r : Resolver} {x : Ending Ty} (h : Registers m o r x)
    (hr : r.WellFormed m) (s : Ty) (r' : Resolver) (hx : x = .ok s r') :
    r'.TypedFrom r.registry.entries.length := by
  match h with
  | .found _ =>
    cases hx
    exact r.typedFrom_length
  | .fields hnew h =>
    obtain ⟨htyped, types, hknown, hfilled⟩ :=
      h.typed (hr.begin hnew) (by simp [length_begin hnew]) _ rfl
    cases hx
    obtain ⟨a, ha, -, hof, htypes⟩ := hfilled.last hnew
    intro i b hi hb
    rcases Nat.eq_or_lt_of_le hi with rfl | hlt
    · obtain rfl : a = b := Option.some.inj (ha.symm.trans hb)
      rw [Aggregate.Typed, hof.fields, htypes]
      exact hknown
    · exact htyped i b (by rwa [length_begin hnew]) hb

/-- The fields of an aggregate are known once they are resolved, with the types that its entry has
got. -/
theorem ResolvesFields.typed {id : RecordId} {ts : List Ssa.Ty} {r : Resolver} {x : Ending Unit}
    (h : ResolvesFields m id ts r x) (hr : r.WellFormed m) (hid : id < r.registry.entries.length)
    (r' : Resolver) (hx : x = .ok () r') : r'.TypedFrom r.registry.entries.length ∧
      ∃ types, Forall₂ (fun t s => r'.lookup? t = some s) ts types ∧ r.Filled id types r' := by
  match h with
  | .nil =>
    cases hx
    exact ⟨r.typedFrom_length, [], .nil, (Resolver.Continues.refl r).filled id⟩
  | .cons h hrest =>
    have htyped := h.typed hr _ _ rfl
    have hfirst := h.continues
    have hr₁ := ((wellFormed_kept m).resolves h trivial hr).addFieldType id
    have hid' := Nat.lt_of_lt_of_le hid hfirst.entries.length_le
    obtain ⟨htyped', types, hknown, hfilled⟩ :=
      hrest.typed (hr₁ _) (by rwa [length_addFieldType]) r' hx
    rw [length_addFieldType] at htyped'
    exact ⟨htyped.filled hid hfilled htyped', _ :: types, .cons (hfilled.kept _ _ h.lookup?) hknown,
      .cons hfirst hid hfilled⟩

end

end

/-! ## Between resolutions -/

/-- The parts of known types are known, and entries have types for their fields. -/
structure Resolver.Settled (r : Resolver) (m : Module) : Prop extends r.WellFormed m where
  typed : r.TypedFrom 0

theorem Resolver.Settled.empty (m : Module) : Resolver.Settled {} m :=
  ⟨.empty m, fun i a _ ha => by simp at ha⟩

theorem resolve_settled (m : Module) (t : Ssa.Ty) : Maintains (·.Settled m) (resolve m t) := by
  rintro r s r' h ⟨hr, htyped⟩
  exact ⟨(wellFormed_kept m).resolve trivial r s r' h hr,
    htyped.trans (continues_of_resolve h) ((resolve_resolves m t r).typed hr s r' h)⟩

/-- Whether a type is an aggregate with fields, named or not. -/
def hasFields : Ssa.Ty → Bool
  | .struct _ | .literal _ _ => true
  | _ => false

variable {r : Resolver} {m : Module} {t : Ssa.Ty}

/-- A known aggregate is registered, and its fields are known. -/
theorem Resolver.Settled.aggregate (hr : r.Settled m) (ht : r.Knows t)
    (hfields : hasFields t = true) : ∃ a, r.aggregate? t = some a ∧ ∀ u ∈ a.fields, r.Knows u := by
  obtain ⟨s, hs⟩ := ht
  obtain ⟨o, hp⟩ : ∃ o, plan m t = .aggregate o := by
    cases t with
    | struct _ | literal _ _ => exact ⟨_, rfl⟩
    | _ => cases hfields
  obtain ⟨a, rfl, ha, -⟩ := hr.entry hp hs
  refine ⟨a, ?_, fun u hu => (hr.typed _ a (Nat.zero_le _) ha).knows hu⟩
  rw [Resolver.aggregate?, hs]
  exact ha

/-- An entry has the given number and types for all of its fields. -/
structure Aggregate.Complete (a : Aggregate) (id : RecordId) : Prop where
  record : a.record = id
  fieldTypes : a.fieldTypes.length = a.fields.length

def Registry.Complete (r : Registry) : Prop :=
  ∀ (i : Nat) (a : Aggregate), r.entry? i = some a → a.Complete i

theorem Resolver.Settled.complete (hr : r.Settled m) : r.registry.Complete :=
  fun i a ha => ⟨hr.numbered i a ha, (hr.typed i a (Nat.zero_le i) ha).length_eq.symm⟩

/-- The fields of a registered aggregate are fields of its record. -/
theorem Registry.Complete.field (hr : r.registry.Complete) (ha : r.aggregate? t = some a) {i : Nat}
    (hi : i < a.fields.length) :
    ∃ record, r.records[a.record]? = some record ∧ i < record.fields.length := by
  unfold Resolver.aggregate? at ha
  split at ha
  · next id _ =>
    obtain ⟨hrecord, htypes⟩ := hr id a ha
    have hentry : r.registry.entries[a.record]? = some a := hrecord ▸ ha
    refine ⟨_, by rw [Resolver.records, Registry.records, getElem?_map, hentry]; rfl, ?_⟩
    simpa [htypes] using hi
  · cases ha

/-! ## Forms of counterparts -/

/-- A source type has a counterpart of the right form. -/
def Denotes : Ssa.Ty → Ty → Prop
  | .void, s | .label, s | .token, s | .metadata, s => s = .void
  | .int bits, s =>
    if bits = 1 then s = .bool else ∃ w, Code.Width.ofBits? bits = some w ∧ s = .int w
  | .half, s => s = .float .half
  | .float, s => s = .float .single
  | .double, s => s = .float .double
  | .pointer, s | .function _ _ _, s => s = .opaquePointer
  | .array _ n, s | .vector _ n, s => ∃ e, s = .array e n
  | .struct _, s | .literal _ _, s => ∃ id, s = .record id

theorem Resolver.Yields.denotes (h : r.Yields m t s) : Denotes t s := by
  cases h with
  | direct hp =>
    cases t with
    | int bits =>
      rw [plan] at hp
      rw [Denotes]
      split at hp
      · next hb =>
        cases hp
        rw [if_pos hb]
      · next hb =>
        rw [if_neg hb]
        cases hw : Code.Width.ofBits? bits with
        | some w =>
          rw [hw] at hp
          cases hp
          exact ⟨w, rfl, rfl⟩
        | none =>
          rw [hw] at hp
          cases hp
    | array _ _ | vector _ _ | struct _ | literal _ _ => cases hp
    | _ =>
      cases hp
      rfl
  | element hp _ => rcases plan_eq_element hp with rfl | rfl <;> exact ⟨_, rfl⟩
  | aggregate hp _ _ => rcases plan_eq_aggregate hp with ⟨_, rfl⟩ | ⟨_, _, rfl⟩ <;> exact ⟨_, rfl⟩

end Stackify.Resolve
