import Mathlib.Data.List.Perm.Subperm
import Stackify.Proofs.Lowered
import Stackify.Proofs.Resolution

/-!
Names in lowered programs.

Whatever text a symbol, a readable signature or a parameter's name is, cleaning makes an identifier
of it, and so do the endings that tell constructors from destructors. A scope gives out each name
once: of the numbers that it tries behind a taken name, one more than there are taken names, one is
free. So the names that a scope gives out one after the other (`reserveAll`) are identifiers, all
different:

    (∀ b ∈ bases, isIdentifier b) → Proper (empty.reserveAll bases).1            (proper_reserveAll)

Statics, methods and parameters get their names this way, and so do records, in whatever order their
aggregates are registered (`resolveModule_names`).
-/

namespace Stackify.Name

open List

/-! ## Identifiers -/

/-- A letter or an underscore, and behind it letters, digits and underscores. -/
def Spelled (cs : List Char) : Prop :=
  ∃ c rest, cs = c :: rest ∧ (isLetter c || c = '_') = true ∧
    ∀ d ∈ rest, (isWordChar d || d = '_') = true

theorem isIdentifier_iff {name : String} :
    isIdentifier name = true ↔ Spelled name.toList ∧ name ∉ reserved := by
  unfold isIdentifier Spelled
  cases name.toList with
  | nil => simp
  | cons c rest =>
    simp only [Bool.and_eq_true, List.all_eq_true, Bool.not_eq_true', contains_eq_mem,
      decide_eq_false_iff_not, cons.injEq]
    constructor
    · rintro ⟨⟨hc, hrest⟩, hnot⟩
      exact ⟨⟨c, rest, ⟨rfl, rfl⟩, hc, hrest⟩, hnot⟩
    · rintro ⟨⟨_, _, ⟨rfl, rfl⟩, hc, hrest⟩, hnot⟩
      exact ⟨⟨hc, hrest⟩, hnot⟩

theorem Spelled.append {cs tail : List Char} (h : Spelled cs)
    (ht : ∀ d ∈ tail, (isWordChar d || d = '_') = true) : Spelled (cs ++ tail) := by
  obtain ⟨c, rest, rfl, hc, hrest⟩ := h
  refine ⟨c, rest ++ tail, rfl, hc, fun d hd => ?_⟩
  rcases mem_append.mp hd with hd | hd
  · exact hrest d hd
  · exact ht d hd

/-- Reserved words have no underscore. -/
theorem not_reserved {name : String} (h : '_' ∈ name.toList) : name ∉ reserved := by
  have hwords : ∀ w ∈ reserved, '_' ∉ w.toList := by decide
  exact fun hmem => hwords name hmem h

/-- An ending with an underscore makes an identifier of any spelled name. -/
theorem isIdentifier_append {name tail : String} (h : isIdentifier name = true)
    (hu : '_' ∈ tail.toList) (ht : ∀ d ∈ tail.toList, (isWordChar d || d = '_') = true) :
    isIdentifier (name ++ tail) = true := by
  rw [isIdentifier_iff] at h ⊢
  rw [String.toList_append]
  refine ⟨h.1.append ht, not_reserved ?_⟩
  rw [String.toList_append]
  exact mem_append_right _ hu

/-- Behind a leading digit there is an underscore; what begins in another way stays. -/
theorem guardDigit_spelled {cs : List Char} (hne : cs ≠ [])
    (h : ∀ d ∈ cs, (isWordChar d || d = '_') = true) : Spelled (guardDigit cs) := by
  cases cs with
  | nil => exact absurd rfl hne
  | cons c rest =>
    rw [guardDigit]
    split
    · exact ⟨'_', c :: rest, rfl, by decide, h⟩
    · next hd =>
      rw [forall_mem_cons] at h
      refine ⟨c, rest, rfl, ?_, h.2⟩
      simpa [isWordChar, hd] using h.1

theorem isIdentifier_clean {fallback : String} (h : isIdentifier fallback = true) (name : String) :
    isIdentifier (clean name fallback) = true := by
  unfold clean
  extract_lets cs cleaned
  split
  · exact h
  · next hall =>
    have hchars : ∀ d ∈ cs, (isWordChar d || d = '_') = true := by
      intro d hd
      obtain ⟨c, -, rfl⟩ := List.mem_map.mp hd
      by_cases hc : isWordChar c = true <;> simp [hc]
    have hspelled : Spelled cleaned.toList := by
      rw [String.toList_ofList]
      refine guardDigit_spelled (fun hnil => hall ?_) hchars
      rw [hnil]
      rfl
    split
    · -- A reserved word gets an underscore in front, which makes it another word.
      rw [isIdentifier_iff, String.toList_append]
      obtain ⟨c, rest, heq, hc, hrest⟩ := hspelled
      refine ⟨⟨'_', cleaned.toList, rfl, by decide, ?_⟩, not_reserved (by simp)⟩
      rw [heq]
      refine forall_mem_cons.mpr ⟨?_, hrest⟩
      simp only [isWordChar, Bool.or_eq_true] at hc ⊢
      rcases hc with hc | hc
      · exact .inl (.inl hc)
      · exact .inr hc
    · next hnot =>
      exact isIdentifier_iff.mpr ⟨hspelled, by simpa using hnot⟩

theorem isIdentifier_signatureName (s : Signature) : isIdentifier (signatureName s) = true := by
  have htype : isIdentifier (clean (s.typeName.getD "") "Type") = true :=
    isIdentifier_clean (by decide) _
  unfold signatureName
  extract_lets typeName lastSegment
  split
  · exact isIdentifier_append htype (by decide) (List.all_eq_true.mp (by decide))
  · split
    · exact isIdentifier_append htype (by decide) (List.all_eq_true.mp (by decide))
    · split
      · exact isIdentifier_append htype (by decide) (List.all_eq_true.mp (by decide))
      · exact isIdentifier_clean (by decide) _

theorem isIdentifier_displayName {symbol name : String} {readable : Option String}
    {renamed : List (String × String)} (h : displayName symbol readable renamed = .ok name) :
    isIdentifier name = true := by
  unfold displayName at h
  split at h
  · next name' _ =>
    split at h
    · next hid =>
      cases h
      exact hid
    · cases h
  · dsimp only at h
    split at h
    · cases h
      exact isIdentifier_signatureName _
    · cases h
      exact isIdentifier_clean (by decide) _

/-! ## Scopes -/

namespace Scope

theorem numbered_injective (base : String) : Function.Injective (numbered base) := by
  intro i j h
  have hlist := congrArg String.toList h
  simp only [numbered, String.toList_append] at hlist
  have hdigits := append_cancel_left hlist
  have hnumber := congrArg (fun ds => Nat.ofDigitChars 10 ds 0) hdigits
  simpa [Nat.toString_eq_ofList_toDigits] using hnumber

theorem isWordChar_of_mem_toString (n : Nat) :
    ∀ d ∈ (toString n).toList, (isWordChar d || d = '_') = true := by
  intro d hd
  rw [Nat.toString_eq_ofList_toDigits, String.toList_ofList] at hd
  have hdigit := Nat.isDigit_of_mem_toDigits (by decide) (by decide) hd
  simp only [Char.isDigit, Bool.and_eq_true, decide_eq_true_eq] at hdigit
  have hword : isDigit d = true := by
    simp only [isDigit, Bool.and_eq_true, decide_eq_true_eq]
    exact hdigit
  simp [isWordChar, hword]

theorem isIdentifier_numbered {base : String} (h : isIdentifier base = true) (n : Nat) :
    isIdentifier (numbered base n) = true := by
  rw [numbered, String.append_assoc]
  refine isIdentifier_append h (by simp) fun d hd => ?_
  rw [String.toList_append] at hd
  rcases mem_append.mp hd with hd | hd
  · rw [show d = '_' from by simpa using hd]
    rfl
  · exact isWordChar_of_mem_toString n d hd

/-- The search stops at a free name, or has passed taken ones only. -/
theorem firstFree_spec (s : Scope) (base : String) (tries n : Nat) :
    numbered base (s.firstFree base tries n) ∉ s.taken ∨
      s.firstFree base tries n = n + tries ∧ ∀ i, i < tries → numbered base (n + i) ∈ s.taken := by
  induction tries generalizing n with
  | zero => exact .inr ⟨rfl, by omega⟩
  | succ tries ih =>
    rw [firstFree]
    split
    · next htaken =>
      rcases ih (n + 1) with hfree | ⟨hend, hall⟩
      · exact .inl hfree
      · refine .inr ⟨by omega, fun i hi => ?_⟩
        cases i with
        | zero => simpa [isTaken] using htaken
        | succ i =>
          rw [show n + (i + 1) = n + 1 + i by omega]
          exact hall i (by omega)
    · next hfree => exact .inl (by simpa [isTaken] using hfree)

/-- Of more numbered names than there are taken ones, not all are taken. -/
theorem exists_free (s : Scope) (base : String) {count : Nat} (h : s.taken.length < count) :
    ∃ i, i < count ∧ numbered base (1 + i) ∉ s.taken := by
  by_contra hall
  have htaken : ∀ i, i < count → numbered base (1 + i) ∈ s.taken := by
    intro i hi
    by_contra hfree
    exact hall ⟨i, hi, hfree⟩
  have hnodup : ((List.range count).map fun i => numbered base (1 + i)).Nodup := by
    refine List.Nodup.map (fun i j hij => ?_) nodup_range
    have := numbered_injective base hij
    omega
  have hsubset : (List.range count).map (fun i => numbered base (1 + i)) ⊆ s.taken := by
    intro name hname
    obtain ⟨i, hi, rfl⟩ := List.mem_map.mp hname
    exact htaken i (mem_range.mp hi)
  have hle := (subperm_of_subset hnodup hsubset).length_le
  rw [length_map, length_range] at hle
  omega

theorem fresh_not_taken (s : Scope) (base : String) : s.fresh base ∉ s.taken := by
  unfold fresh
  split
  · rcases s.firstFree_spec base s.taken.length 1 with hfree | ⟨hend, hall⟩
    · exact hfree
    · -- All names that were tried are taken, so the one behind them is not.
      obtain ⟨i, hi, hfree⟩ := s.exists_free base (Nat.lt_succ_self _)
      have heq : i = s.taken.length := by
        by_contra hne
        exact hfree (hall i (by omega))
      rwa [hend, ← heq]
  · next hfree => simpa [isTaken] using hfree

theorem isIdentifier_fresh (s : Scope) {base : String} (h : isIdentifier base = true) :
    isIdentifier (s.fresh base) = true := by
  unfold fresh
  split
  · exact isIdentifier_numbered h _
  · exact h

/-- The names that are given out for several bases, one after the other, and what is taken then. -/
def reserveAll : Scope → List String → List String × Scope
  | s, [] => ([], s)
  | s, base :: bases =>
    ((s.reserve base).1 :: ((s.reserve base).2.reserveAll bases).1,
      ((s.reserve base).2.reserveAll bases).2)

theorem reserveAll_append (s : Scope) (bases : List String) (last : String) :
    (s.reserveAll (bases ++ [last])).1 = (s.reserveAll bases).1 ++
      [((s.reserveAll bases).2.reserve last).1] := by
  induction bases generalizing s with
  | nil => rfl
  | cons base bases ih =>
    rw [cons_append, reserveAll, reserveAll, ih]
    rfl

/-- Names are given out once, and none that was taken before. -/
theorem reserveAll_distinct (s : Scope) (bases : List String) :
    (s.reserveAll bases).1.Nodup ∧ ∀ name ∈ (s.reserveAll bases).1, name ∉ s.taken := by
  induction bases generalizing s with
  | nil => simp [reserveAll]
  | cons base bases ih =>
    obtain ⟨hnodup, hnew⟩ := ih (s.reserve base).2
    have htaken : (s.reserve base).2.taken = s.fresh base :: s.taken := rfl
    rw [reserveAll]
    refine ⟨nodup_cons.mpr ⟨fun hmem => ?_, hnodup⟩,
      forall_mem_cons.mpr ⟨s.fresh_not_taken base, ?_⟩⟩
    · exact hnew _ hmem (by rw [htaken]; exact mem_cons_self)
    · intro name hname hold
      exact hnew name hname (by rw [htaken]; exact mem_cons_of_mem _ hold)

theorem isIdentifier_reserveAll (s : Scope) {bases : List String}
    (h : ∀ base ∈ bases, isIdentifier base = true) :
    ∀ name ∈ (s.reserveAll bases).1, isIdentifier name = true := by
  induction bases generalizing s with
  | nil => simp [reserveAll]
  | cons base bases ih =>
    rw [forall_mem_cons] at h
    exact forall_mem_cons.mpr ⟨s.isIdentifier_fresh h.1, ih _ h.2⟩

end Scope

/-- Names that are identifiers, all different. -/
structure Proper (names : List String) : Prop where
  distinct : names.Nodup
  identifiers : ∀ name ∈ names, isIdentifier name = true

theorem proper_reserveAll (s : Scope) {bases : List String}
    (h : ∀ base ∈ bases, isIdentifier base = true) : Proper (s.reserveAll bases).1 :=
  ⟨(s.reserveAll_distinct bases).1, s.isIdentifier_reserveAll h⟩

end Stackify.Name

namespace Stackify.Resolve

open Name (Proper isIdentifier isIdentifier_clean)
open List

/-! ## Records -/

/-- The display names of registered aggregates are proper, and taken. -/
structure Registry.Named (r : Registry) : Prop where
  proper : Proper (r.entries.map (·.name))
  taken : ∀ a ∈ r.entries, a.name ∈ r.names.taken

theorem Registry.Named.register {r : Registry} (h : r.Named) (symbol : String)
    {base : Option String} (fields : List Ssa.Ty) (packed : Bool)
    (hb : ∀ name, base = some name → name = "Struct") :
    (r.register symbol base fields packed).2.Named := by
  unfold Registry.register
  split
  · exact h
  · have hbase : isIdentifier (base.getD (Name.clean (Name.stripTag symbol) "Struct")) = true := by
      cases base with
      | none => exact isIdentifier_clean (by decide) _
      | some name =>
        rw [Option.getD_some, hb name rfl]
        decide
    generalize base.getD (Name.clean (Name.stripTag symbol) "Struct") = b at hbase
    have hnew := r.names.fresh_not_taken b
    refine ⟨⟨?_, ?_⟩, ?_⟩
    · rw [map_append, nodup_append]
      refine ⟨h.proper.distinct, by simp, fun name hname other hother heq => ?_⟩
      obtain ⟨a, ha, rfl⟩ := List.mem_map.mp hname
      rw [map_singleton, mem_singleton] at hother
      have hfresh : a.name = r.names.fresh b := heq.trans hother
      exact hnew (hfresh ▸ h.taken a ha)
    · rw [map_append]
      intro name hname
      rcases mem_append.mp hname with hname | hname
      · exact h.proper.identifiers name hname
      · rw [map_singleton, mem_singleton] at hname
        rw [hname]
        exact r.names.isIdentifier_fresh hbase
    · intro a ha
      rcases mem_append.mp ha with ha | ha
      · exact mem_cons_of_mem _ (h.taken a ha)
      · rw [mem_singleton] at ha
        rw [ha]
        exact mem_cons_self

theorem Registry.Named.addFieldType {r : Registry} (h : r.Named) (id : Code.RecordId)
    (ty : Code.Ty) : (r.addFieldType id ty).Named := by
  have hnames := map_addFieldType (g := (·.name)) (fun _ _ => rfl) r id ty
  refine ⟨hnames ▸ h.proper, fun a ha => ?_⟩
  have hmem : a.name ∈ (r.addFieldType id ty).entries.map (·.name) := List.mem_map_of_mem ha
  rw [hnames] at hmem
  obtain ⟨b, hb, heq⟩ := List.mem_map.mp hmem
  rw [← heq]
  exact h.taken b hb

theorem named_kept (m : Ssa.Module) : Kept m (fun _ => True) (·.registry.Named) where
  parts _ _ _ _ := trivial
  begin _ _ o _ hp _ h := h.register o.symbol o.fields o.packed (base_of_aggregate hp)
  addFieldType _ id s h := h.addFieldType id s
  remember _ _ _ _ _ h := h

end Stackify.Resolve

namespace Stackify.Lower

open Name (Proper Scope isIdentifier isIdentifier_clean isIdentifier_displayName proper_reserveAll)
open Code (Program Method Op)
open Ssa (Module Function)
open List

variable {m : Module} {r : Resolve.Resolver} {scope : Scope} {o : Options} {d : Declared}

theorem resolveModule_names (h : (resolveModule m).run {} = .ok () r) :
    Proper (r.records.map (·.name)) := by
  have hnamed := resolveModule_maintains (fun t _ => (Resolve.named_kept m).resolve trivial) {} () r
      h ⟨⟨.nil, by simp⟩, by simp⟩
  have hmap : r.records.map (·.name) = r.registry.entries.map (·.name) := by
    simp [Resolve.Resolver.records, Resolve.Registry.records]
  rw [hmap]
  exact hnamed.proper

/-! ## Statics, methods and parameters -/

theorem declareStatics_names {gs : List Ssa.Global} {ss : List Code.Static}
    (h : declareStatics r scope gs = .ok ss) :
    ss.map (·.name) = (scope.reserveAll (gs.map fun g => Name.clean g.name "Global")).1 := by
  induction gs generalizing scope ss with
  | nil =>
    cases h
    rfl
  | cons g gs ih =>
    rw [declareStatics] at h
    split at h
    · cases h
    · obtain ⟨rest, hrest, h⟩ := bind_eq_ok.mp h
      cases h
      rw [map_cons, ih hrest]
      rfl

theorem declareMethods_names {i w : Nat} {fs : List Function} {es : List MethodEntry}
    (h : declareMethods o r i w scope fs = .ok es) :
    ∃ bases, (∀ base ∈ bases, isIdentifier base = true) ∧ es.map
      (·.name) = (scope.reserveAll bases).1 := by
  induction fs generalizing i w scope es with
  | nil =>
    cases h
    exact ⟨[], by simp, rfl⟩
  | cons f fs ih =>
    rw [declareMethods] at h
    split at h
    · cases h
    · cases h
    · next base _ hbase _ =>
      obtain ⟨rest, hrest, h⟩ := bind_eq_ok.mp h
      cases h
      obtain ⟨bases, hid, hnames⟩ := ih hrest
      refine ⟨base :: bases, forall_mem_cons.mpr ⟨isIdentifier_displayName hbase, hid⟩, ?_⟩
      rw [map_cons, hnames]
      rfl

theorem isIdentifier_arg (i : Nat) : isIdentifier ("arg" ++ toString i) = true := by
  have hspelled : Name.Spelled "arg".toList := (Name.isIdentifier_iff.mp (by decide)).1
  have hwords : ∀ w ∈ Name.reserved, w.toList.head? ≠ some 'a' := by decide
  rw [Name.isIdentifier_iff]
  refine ⟨?_, fun hmem => hwords _ hmem ?_⟩
  · rw [String.toList_append]
    exact hspelled.append (Scope.isWordChar_of_mem_toString i)
  · rw [String.toList_append]
    rfl

/-- What the name of a parameter is made from. -/
def paramBase (byPointer : Bool) (i : Nat) (q : Ssa.Param) : String :=
  if i = 0 && byPointer then
    "result" else q.name.elim ("arg" ++ toString i) (Name.clean · ("arg" ++ toString i))

theorem isIdentifier_paramBase (byPointer : Bool) (i : Nat) (q : Ssa.Param) :
    isIdentifier (paramBase byPointer i q) = true := by
  unfold paramBase
  split
  · decide
  · cases q.name with
    | none => exact isIdentifier_arg i
    | some name => exact isIdentifier_clean (isIdentifier_arg i) name

/-- Parameters get the names that a scope gives out for identifiers. -/
theorem paramNamesFrom_eq (byPointer : Bool) (ps : List Ssa.Param) (i : Nat) (scope : Scope) :
    ∃ bases, (∀ base ∈ bases, isIdentifier base = true) ∧
      paramNamesFrom byPointer i scope ps = scope.reserveAll bases := by
  induction ps generalizing i scope with
  | nil => exact ⟨[], by simp, rfl⟩
  | cons q ps ih =>
    obtain ⟨bases, hid, hnames⟩ := ih (i + 1) (scope.reserve (paramBase byPointer i q)).2
    refine ⟨paramBase byPointer i q :: bases,
      forall_mem_cons.mpr ⟨isIdentifier_paramBase byPointer i q, hid⟩, ?_⟩
    rw [Scope.reserveAll, ← hnames]
    rfl

theorem paramNames_proper (f : Function) : Proper (paramNames f) := by
  obtain ⟨bases, hid, hnames⟩ := paramNamesFrom_eq f.structReturn?.isSome f.params 0 .empty
  unfold paramNames
  rw [hnames]
  dsimp only
  split
  · rw [← Scope.reserveAll_append]
    refine proper_reserveAll _ fun base hbase => ?_
    rcases mem_append.mp hbase with hbase | hbase
    · exact hid base hbase
    · rw [mem_singleton.mp hbase]
      decide
  · exact proper_reserveAll _ hid

theorem declare_names (h : declare m o = .ok d) :
    Proper (d.statics.map (·.name)) ∧ Proper (d.methods.map (·.name)) := by
  obtain ⟨methods, -, hs, hm, hd⟩ := declare_eq_ok h
  obtain ⟨bases, hid, hnames⟩ := declareMethods_names hm
  constructor
  · rw [declareStatics_names hs]
    refine proper_reserveAll _ fun base hbase => ?_
    obtain ⟨g, -, rfl⟩ := List.mem_map.mp hbase
    exact isIdentifier_clean (by decide) _
  · -- What is found out about exceptions changes no name.
    have hlen : methods.length ≤ (Declared.throwing ⟨m, o, d.resolver, d.statics,
        methods⟩).length :=
      Nat.le_of_eq (throwing_length ⟨m, o, d.resolver, d.statics, methods⟩).symm
    rw [hd, markThrowing, List.map_map]
    change Proper ((methods.zip _).map ((fun e => e.name) ∘ Prod.fst))
    rw [← List.map_map, map_fst_zip hlen, hnames]
    exact proper_reserveAll _ hid

/-! ## Programs -/

/-- A method that returns as a value what another one, the method number `i`, leaves in memory. -/
structure Wraps (i : Nat) (body wrapper : Method) : Prop where
  name : wrapper.name = body.name
  symbol : wrapper.symbol = body.symbol
  internal : body.visibility = .internal
  exported : wrapper.visibility = .exported
  calls : ∃ count, Op.call i count ∈ wrapper.body.ops

theorem wraps_of_wrapperMethod {pool : List Code.Const} {e : MethodEntry} {body wrapper : Method}
    (hbody : MethodCode d pool e body) (he : e.wrapper.isSome = true)
    (h : wrapperMethod d e = .ok wrapper) :
    Wraps e.index body wrapper ∧ wrapper.paramNames = (paramNames e.function).drop 1 := by
  unfold wrapperMethod at h
  split at h
  · cases h
  · cases h
    refine ⟨⟨hbody.name.symm, hbody.symbol.symm, ?_, rfl, e.type.argSlots, by simp⟩, rfl⟩
    rw [hbody.visibility, if_pos he]

/-- **Every generated name is an identifier, and unique among its kind.** Of a lowered program, the
names of records, of statics and of the methods that hold the code of functions are identifiers, all
different, and so are the names of each method's parameters. Behind the methods with code stand
those that wrap one of them and carry its name. -/
theorem lowered_names_proper {m : Module} {o : Options} {p : Program} (h : lower m o = .ok p) :
    Proper (p.records.map (·.name)) ∧ Proper (p.statics.map (·.name)) ∧
      (∃ bodies wrappers, p.methods = bodies ++ wrappers ∧
        bodies.map (·.symbol) = (m.functions.filter fun f => !f.isDeclaration).map (·.name) ∧
        Proper (bodies.map (·.name)) ∧ ∀ w ∈ wrappers, ∃ i b, bodies[i]? = some b ∧ Wraps i b w) ∧
      ∀ x ∈ p.methods, Proper x.paramNames := by
  obtain ⟨d, hdeclare, hp⟩ := lower_eq_ok h
  have hd := declare_declaration hdeclare
  obtain ⟨hstatics, hmethods⟩ := declare_names hdeclare
  obtain ⟨bodies, wrappers, hsplit, hbodies, hwrappers⟩ := hp.methods
  have hwraps : ∀ w ∈ wrappers, ∃ i b e, bodies[i]? = some b ∧ Wraps i b w ∧
      w.paramNames = (paramNames e).drop 1 := by
    intro w hw
    obtain ⟨k, hk⟩ := getElem?_of_mem hw
    obtain ⟨e, he, hwrapper⟩ := forall₂_some_right hwrappers hk
    obtain ⟨hdeclared, hsome⟩ := mem_filter.mp (mem_of_getElem? he)
    obtain ⟨i, hi⟩ := getElem?_of_mem hdeclared
    obtain ⟨b, hb, hcode⟩ := forall₂_some_left hbodies hi
    obtain ⟨hwraps, hparams⟩ := wraps_of_wrapperMethod hcode hsome hwrapper
    rw [(hd.index hi).1] at hwraps
    exact ⟨i, b, e.function, hb, hwraps, hparams⟩
  refine ⟨?_, ?_, ⟨bodies, wrappers, hsplit, ?_, ?_, ?_⟩, ?_⟩
  · rw [hp.records]
    exact resolveModule_names hd.resolved
  · rw [hp.statics]
    exact hstatics
  · rw [forall₂_map_eq hbodies fun _ _ hcode => hcode.symbol, ← hd.functions, List.map_map]
    rfl
  · rw [forall₂_map_eq hbodies fun _ _ hcode => hcode.name]
    exact hmethods
  · intro w hw
    obtain ⟨i, b, _, hb, hwraps, -⟩ := hwraps w hw
    exact ⟨i, b, hb, hwraps⟩
  · intro x hx
    rw [hsplit] at hx
    rcases mem_append.mp hx with hx | hx
    · obtain ⟨k, hk⟩ := getElem?_of_mem hx
      obtain ⟨e, -, hcode⟩ := forall₂_some_right hbodies hk
      rw [hcode.paramNames]
      exact paramNames_proper e.function
    · obtain ⟨_, _, f, -, -, hparams⟩ := hwraps x hx
      have hall := paramNames_proper f
      rw [hparams]
      refine ⟨hall.distinct.sublist (drop_sublist _ _), fun name hname => ?_⟩
      exact hall.identifiers name (mem_of_mem_drop hname)

/-- A function that returns an aggregate through its first parameter; the names of the others clean
to the same text. -/
def returningPair (name : String) : Function where
  name
  type := { ret := .void, params := [.pointer, .int 32, .int 32] }
  params := [{ id := 0, ty := .pointer, attributes := [.structRet (.struct "struct.void")] },
    { id := 1, name := some "a b", ty := .int 32 }, { id := 2, name := some "a_b", ty := .int 32 }]
  blocks :=
    [{ id := 0, instructions := [{ id := 3, opcode := .ret, ty := .void, operands := [] }] }]

/-- Names that are reserved, that begin with digits, that clean to the same text or to what a number
behind a taken name gives. -/
def clashing : Module where
  structs :=
    [⟨"struct.void", [.int 32, .int 32], false⟩, ⟨"class.void", [], false⟩, ⟨"_void_1", [], false⟩]
  globals :=
    [{ name := "7", ty := .int 8 }, { name := "·7", ty := .int 8 },
      { name := "_7_1", ty := .int 8 }, { name := "λ", ty := .int 8 }]
  functions := [returningPair "f.g", returningPair "f_g"]

theorem clashing_names_proper : ∃ p, lower clashing {} = .ok p ∧
    p.records.map (·.name) = ["_void", "_void_1", "_void_1_1"] ∧
    p.statics.map (·.name) = ["_7", "_7_1", "_7_1_1", "Global"] ∧
    p.methods.map (·.name) = ["f_g", "f_g_1", "f_g", "f_g_1"] ∧
    p.methods.map (·.paramNames) =
      [["result", "a_b", "a_b_1"], ["result", "a_b", "a_b_1"], ["a_b", "a_b_1"], ["a_b", "a_b_1"]] ∧
    Proper (p.records.map (·.name)) ∧ Proper (p.statics.map (·.name)) ∧
    (∃ bodies wrappers, p.methods = bodies ++ wrappers ∧ bodies.map (·.symbol) = ["f.g", "f_g"] ∧
      Proper (bodies.map (·.name)) ∧ ∀ w ∈ wrappers, ∃ i b, bodies[i]? = some b ∧ Wraps i b w) ∧
    ∀ x ∈ p.methods, Proper x.paramNames := by
  obtain ⟨p, hp, hnames⟩ := toOption_map_eq_some.mp (show (lower clashing {}).toOption.map (fun p =>
      (p.records.map (·.name), p.statics.map (·.name), p.methods.map (·.name),
        p.methods.map (·.paramNames))) =
    some (["_void", "_void_1", "_void_1_1"], ["_7", "_7_1", "_7_1_1", "Global"],
      ["f_g", "f_g_1", "f_g", "f_g_1"], [["result", "a_b", "a_b_1"], ["result", "a_b", "a_b_1"],
        ["a_b", "a_b_1"], ["a_b", "a_b_1"]]) by decide +kernel)
  obtain ⟨hrecords, hstatics, hmethods, hparams⟩ : _ ∧ _ ∧ _ ∧ _ := by
    simpa only [Prod.mk.injEq] using hnames
  exact ⟨p, hp, hrecords, hstatics, hmethods, hparams, lowered_names_proper hp⟩

end Stackify.Lower
