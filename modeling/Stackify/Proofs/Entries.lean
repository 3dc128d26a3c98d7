import Stackify.Proofs.Consistency

/-!
Which aggregate an entry of a registry belongs to, and what a resolution that fails leaves behind.

Entries are found by their symbols, so aggregates have one record exactly if they have one symbol.
With plain names that means that they are one (`aggregates_apart`); but the text of an aggregate
without a name may be the name of another one (`disguised_aliases`).

Aggregates are registered before their fields are resolved. If a field has no counterpart, the entry
stays, without the types of the fields from there on, and is found from then on (`failure_leaves`);
only failures at integers, or arrays of them, change nothing.
-/

namespace Stackify.Resolve

open Ssa (Module)
open Code (RecordId)

/-! ## Aggregates and their entries -/

variable {m : Module} {r : Resolver} {t u : Ssa.Ty} {o o' : Outline} {s s' : Code.Ty}

/-- Aggregates have one record exactly if they have one symbol. -/
theorem Resolver.WellFormed.same_iff (hr : r.WellFormed m) (hp : plan m t = .aggregate o)
    (hp' : plan m u = .aggregate o') (hs : r.lookup? t = some s) (hs' : r.lookup? u = some s') :
    s = s' ↔ o.symbol = o'.symbol := by
  obtain ⟨a, rfl, ha, hsymbol⟩ := hr.entry hp hs
  obtain ⟨a', rfl, ha', hsymbol'⟩ := hr.entry hp' hs'
  rw [← hsymbol, ← hsymbol']
  constructor
  · intro heq
    rw [Code.Ty.record.inj heq, ha', Option.some.injEq] at ha
    rw [ha]
  · intro heq
    rw [List.inj_on_of_nodup_map hr.distinct (List.mem_of_getElem? ha)
      (List.mem_of_getElem? ha') heq]

end Stackify.Resolve

namespace Stackify.Lower

open Ssa (Module)
open Resolve (plan)

theorem declared_reached {md : Module} {o : Options} {d : Declared}
    (hplain : ∀ t ∈ md.types, t.Plain) (hd : declare md o = .ok d) : d.resolver.Reached md := by
  have hI (t : Ssa.Ty) (ht : t ∈ md.types) :
      Resolve.Maintains (Resolve.Resolver.Reached md) (Resolve.resolve md t) :=
    fun _ _ _ h hr => hr.type (hplain t ht) h
  exact resolveModule_maintains hI {} () d.resolver (declare_declaration hd).resolved .start

theorem plainFields_of_types {md : Module} (hplain : ∀ t ∈ md.types, t.Plain) : md.PlainFields := by
  intro s hs t ht
  refine hplain t (List.mem_append_left _
    (List.mem_append_left _ (List.mem_flatMap.mpr ⟨s, hs, ?_⟩)))
  exact List.mem_cons_of_mem _ ht

/-- Aggregates of a declared module have one record exactly if they have one symbol. If the names in
its types are plain, different ones have different records, a record has the fields of its own
aggregate, with their counterparts, and every entry belongs to exactly one aggregate. -/
theorem aggregates_apart {m : Module} {o : Options} {d : Declared} (hd : declare m o = .ok d) :
    (∀ t u p q s s', plan m t = .aggregate p → plan m u = .aggregate q →
      d.resolver.lookup? t = some s → d.resolver.lookup? u = some s' →
        (s = s' ↔ p.symbol = q.symbol)) ∧
    ((∀ t ∈ m.types, t.Plain) →
      (∀ t u p q s s', plan m t = .aggregate p → plan m u = .aggregate q →
        d.resolver.lookup? t = some s → d.resolver.lookup? u = some s' → t ≠ u → s ≠ s') ∧
      (∀ t p s, plan m t = .aggregate p → d.resolver.lookup? t = some s → ∃ id a, s = .record id ∧
        d.resolver.registry.entry? id = some a ∧ a.Of p ∧
        List.Forall₂ (fun u s => d.resolver.lookup? u = some s) (m.parts t) a.fieldTypes) ∧
      ∀ id a, d.resolver.registry.entry? id = some a → ∃! t, t.Plain ∧
        ∃ p, plan m t = .aggregate p ∧ a.Of p) := by
  have hsettled := resolveModule_settled (declare_declaration hd).resolved
  refine ⟨fun t u p q s s' hp hq hs hs' => hsettled.same_iff hp hq hs hs', fun hplain => ?_⟩
  have hfaithful := (declared_reached hplain hd).faithful (plainFields_of_types hplain)
  refine ⟨fun t u p q s s' hp hq hs hs' hne heq => ?_, fun t p s hp hs => ?_, fun id a ha => ?_⟩
  · have hsymbol := (hsettled.same_iff hp hq hs hs').mp heq
    exact hne (Resolve.eq_of_symbol (hfaithful.plain t ⟨s, hs⟩) (hfaithful.plain u ⟨s', hs'⟩)
      hp hq hsymbol)
  · obtain ⟨a, rfl, ha, hof⟩ := hfaithful.entry hp hs
    refine ⟨_, a, rfl, ha, hof, ?_⟩
    rw [Resolve.parts_of_aggregate hp, ← hof.fields]
    exact hfaithful.typed _ a (Nat.zero_le _) ha
  · obtain ⟨t, p, ht, hp, hof⟩ := hfaithful.traced a (List.mem_of_getElem? ha)
    refine ⟨t, ⟨ht, p, hp, hof⟩, ?_⟩
    rintro u ⟨hu, q, hq, hof'⟩
    exact Resolve.eq_of_symbol hu ht hq hp (hof'.symbol.symm.trans hof.symbol)

/-- A module with a named aggregate and one without a name. -/
def namedAndLiteral (name : String) : Module where
  structs := [⟨name, [.int 64], false⟩]
  globals := [{ name := "pair", ty := .literal [.int 32, .int 32] false }]

/-- The records of both, and the types of fields of all records. -/
def recordsOf (name : String) : Option (Option Code.Ty × Option Code.Ty × List (List Code.Ty)) :=
  (declare (namedAndLiteral name) {}).toOption.map fun d => (d.resolver.lookup? (.struct name),
    d.resolver.lookup? (.literal [.int 32, .int 32] false), d.resolver.records.map fun r =>
      r.fields.map (·.ty))

theorem wide_apart : ∃ d s s', declare (namedAndLiteral "struct.Wide") {} = .ok d ∧
    d.resolver.lookup? (.struct "struct.Wide") = some s ∧
      d.resolver.lookup? (.literal [.int 32, .int 32] false) = some s' ∧ s ≠ s' := by
  have hrecords : recordsOf "struct.Wide" = some (some (.record 0), some (.record 1),
      [[.int .w64], [.int .w32, .int .w32]]) := by
    decide +kernel
  obtain ⟨d, hd, hknown⟩ := toOption_map_eq_some.mp hrecords
  obtain ⟨hs, hknown⟩ := Prod.mk.inj hknown
  obtain ⟨hs', -⟩ := Prod.mk.inj hknown
  exact ⟨d, _, _, hd, hs, hs', ((aggregates_apart hd).2 (by decide)).1 _ _ _ _ _ _ rfl rfl hs hs'
    (by decide)⟩

/-- A name that is the text of an aggregate without a name: both have one record, with the field of
the named one. -/
theorem disguised_aliases :
    recordsOf "\x7b i32, i32 \x7d" = some (some (.record 0), some (.record 0), [[.int .w64]]) := by
  decide +kernel

end Stackify.Lower

namespace Stackify.Ssa

/-- The innermost element of arrays and vectors. -/
def Ty.innermost : Ty → Ty
  | .array e _ | .vector e _ => e.innermost
  | t => t

end Stackify.Ssa

namespace Stackify.Resolve

open Ssa (Module)
open Code (RecordId)

/-! ## Failures -/

variable {m : Module} {r r' : Resolver} {t u : Ssa.Ty} {o : Outline}

theorem innermost_of_aggregate (hp : plan m t = .aggregate o) :
    t.innermost = t ∧ hasFields t = true := by
  rcases plan_eq_aggregate hp with ⟨name, rfl⟩ | ⟨fields, packed, rfl⟩ <;> exact ⟨rfl, rfl⟩

/-- Resolution fails at an integer, or at a field of an aggregate that it has registered. -/
theorem failure_cases {t : Ssa.Ty} {x : Ending Code.Ty} (h : Resolves m t r x)
    (hx : x = .error u r') : (hasFields t.innermost = false ∧ r' = r) ∨
      ∃ o, plan m t.innermost = .aggregate o ∧ r.registry.find? o.symbol = none ∧
        ResolvesFields m r.registry.entries.length o.fields (r.begin o) (.error u r') := by
  match h with
  | .unsupported _ hp =>
    cases hx
    obtain ⟨bits, rfl, -⟩ := plan_unsupported.mp hp
    exact .inl ⟨rfl, rfl⟩
  | .elementFails _ hp he =>
    have hinnermost := failure_cases he hx
    rcases plan_eq_element hp with rfl | rfl <;> exact hinnermost
  | .aggregateFails _ hp (.fieldFails hnew hfields) =>
    cases hx
    exact .inr ⟨_, by rwa [(innermost_of_aggregate hp).1], hnew, hfields⟩

/-- Types are added for the fields in front of the one that has no counterpart. -/
theorem ResolvesFields.lacks {id : RecordId} {ts : List Ssa.Ty}
    (h : ResolvesFields m id ts r (.error u r')) (hid : id < r.registry.entries.length) :
    ∃ types, types.length < ts.length ∧ r.Filled id types r' := by
  induction ts generalizing r with
  | nil => cases h
  | cons t ts ih =>
    cases h with
    | fails h => exact ⟨[], Nat.zero_lt_succ _, h.continues.filled id⟩
    | cons h hrest =>
      have hfirst := h.continues
      have hid' := Nat.lt_of_lt_of_le hid hfirst.entries.length_le
      obtain ⟨types, hlt, hfilled⟩ := ih hrest (by rwa [length_addFieldType])
      exact ⟨_ :: types, Nat.succ_lt_succ hlt, .cons hfirst hid hfilled⟩

/-- An aggregate with an entry has a record, and so has an array of it. -/
theorem succeeds_of_entry (hentry : o.symbol ∈ r.registry.symbols) (t : Ssa.Ty)
    (hp : plan m t.innermost = .aggregate o) : ∃ s r', Resolves m t r (.ok s r') := by
  cases hl : r.lookup? t with
  | some s => exact ⟨s, r, .known hl⟩
  | none =>
    match t with
    | .array e n | .vector e n =>
      obtain ⟨s, r', he⟩ := succeeds_of_entry hentry e hp
      exact ⟨_, _, .element hl rfl he⟩
    | .struct _ | .literal _ _ =>
      cases hfind : r.registry.find? o.symbol with
      | none => exact absurd hentry (find?_eq_none.mp hfind)
      | some a => exact ⟨_, _, .aggregate hl hp (.found hfind)⟩
    | .int bits => rcases plan_int m bits with ⟨-, s, hs⟩ | ⟨-, hs⟩ <;> cases hs.symm.trans hp

/-- A resolution that fails changes nothing that was known and registered. At an integer, or an
array of integers, it adds nothing either, so that all goes on as if it had not been tried.
Otherwise it leaves an entry that lacks types of fields, and tried again, it succeeds. -/
theorem failure_leaves (h : resolve m t r = .error u r') :
    r.Continues r' ∧ (r' = r ↔ hasFields t.innermost = false) ∧
      (hasFields t.innermost = true → (∃ s r'', resolve m t r' = .ok s r'') ∧
        ∃ a o, r'.registry.entry? r.registry.entries.length = some a ∧
          plan m t.innermost = .aggregate o ∧ a.Of o ∧ a.fieldTypes.length < a.fields.length) := by
  have hrules := resolves_iff.mpr h.symm
  refine ⟨hrules.continues, ?_⟩
  rcases failure_cases hrules rfl with ⟨hfields, rfl⟩ | ⟨o, hp, hnew, hfails⟩
  · simp [hfields]
  · obtain ⟨types, hlt, hfilled⟩ := hfails.lacks (by simp [length_begin hnew])
    obtain ⟨a, ha, -, hof, htypes⟩ := hfilled.last hnew
    have hlength := lt_of_getElem? ha
    have hmem : o.symbol ∈ r'.registry.symbols :=
      List.mem_map.mpr ⟨a, List.mem_of_getElem? ha, hof.symbol⟩
    obtain ⟨s, r'', hagain⟩ := succeeds_of_entry hmem t hp
    refine ⟨iff_of_false ?_ ?_, fun _ => ⟨⟨s, r'', (resolves_iff.mp hagain).symm⟩, a, o, ha,
      hp, hof, ?_⟩⟩
    · rintro rfl
      exact Nat.lt_irrefl _ hlength
    · simpa using (innermost_of_aggregate hp).2
    · rwa [htypes, hof.fields]

/-- Both at an integer and at an aggregate that was registered for it. -/
theorem nestedTypes_failure_leaves : ∃ u r u' r',
    resolve nestedTypes (.vector (.array (.int 300) 2) 2) {} = .error u r ∧ r = {} ∧
      resolve nestedTypes (.array (.struct "wide") 2) {} = .error u' r' ∧
        ∃ s r'', resolve nestedTypes (.array (.struct "wide") 2) r' = .ok s r'' := by
  obtain ⟨u, r, hr⟩ : ∃ u r, resolve nestedTypes (.vector (.array (.int 300) 2) 2) {} =
      .error u r := ⟨_, _, rfl⟩
  obtain ⟨u', r', hr'⟩ : ∃ u r, resolve nestedTypes (.array (.struct "wide") 2) {} = .error u r :=
    ⟨_, _, rfl⟩
  exact ⟨u, r, u', r', hr, (failure_leaves hr).2.1.mpr rfl, hr', ((failure_leaves hr').2.2 rfl).1⟩

/-- What has no counterpart has one when it is asked for again: a record without its field. -/
theorem refused_then_resolved : ∃ u r r', resolve {} (.literal [.int 129] false) {} = .error u r ∧
    resolve {} (.literal [.int 129] false) r = .ok (.record 0) r' ∧ r'.records.map
      (·.fields) = [[]] :=
  ⟨_, _, _, rfl, rfl, rfl⟩

end Stackify.Resolve
