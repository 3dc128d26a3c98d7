import Mathlib.Data.List.Chain
import Stackify.Proofs.MayThrow

/-!
Why a method may throw.

To throw is the least property of methods that those have which raise exceptions themselves, and
that goes from a method to all that call it, unless they promise not to throw (`Throws`). Rounds
that work out all answers at once arrive at it. So does a loop that writes each answer over the old
one, over and over again until none changes (`throwLoop_eq_throwing`); it ends since there are fewer
answers left to change after each pass. In terms of the source, a method throws if a chain of calls
leads from its function to one that raises an exception:

    e.mayThrow = true ↔ ∃ fs, fs.head? = some e.function ∧ m.ThrowChain fs      (mayThrow_iff_chain)
-/

namespace Stackify.Ssa

/-- An instruction can raise an exception whatever the functions do that it calls by name. -/
inductive Module.Unwinds (m : Module) (i : Instruction) : Prop
  | invoke : i.opcode = .invoke → Unwinds m i
  | resume : i.opcode = .resume → Unwinds m i
  | cleanup : i.opcode = .cleanupRet → i.operands.length = 1 → Unwinds m i
  /-- A call of the function that reports a failed assertion, which has no body. -/
  | assertion {name : String} : i.opcode = .call → i.operands.getLast? = some (.function name) →
      (∀ f ∈ m.functions, f.isDeclaration = false → f.name ≠ name) →
      Lower.Route.ofSymbol? name = some (.service .assertFailure) → Unwinds m i
  | indirect : i.opcode = .call → (∀ name, i.operands.getLast? ≠ some (.function name)) →
      Unwinds m i

/-- One function calls the other by its name. -/
def Function.Calls (f g : Function) : Prop :=
  ∃ i ∈ f.instructions, (i.opcode = .call ∨ i.opcode = .invoke) ∧
    i.operands.getLast? = some (.function g.name)

/-- Functions with bodies, none of which promises to raise no exception. Each one calls the next,
and the last one raises an exception. -/
structure Module.ThrowChain (m : Module) (fs : List Function) : Prop where
  members : ∀ f ∈ fs, f ∈ m.functions ∧ f.isDeclaration = false ∧ f.isNoUnwind = false
  calls : fs.IsChain Function.Calls
  unwinds : ∃ f i, fs.getLast? = some f ∧ i ∈ f.instructions ∧ m.Unwinds i

end Stackify.Ssa

namespace Stackify.Lower

open Ssa (Module Function Instruction)
open List Option

/-! ## Least answers -/

/-- A method throws that raises exceptions itself, or that makes no promise and calls one that
throws. -/
inductive Throws (entries : List (Bool × List Nat)) (start : List Bool) : Nat → Prop
  | raises {i : Nat} : start[i]? = some true → Throws entries start i
  | calls {i j : Nat} {callees : List Nat} :
      entries[i]? = some (false, callees) → j ∈ callees → Throws entries start j →
        Throws entries start i

/-- Answers that say yes only where a method throws. -/
def Justified (entries : List (Bool × List Nat)) (start throws : List Bool) : Prop :=
  ∀ i : Nat, throws[i]? = some true → Throws entries start i

/-- Answers that say yes for every method without a promise that calls one for which they do. -/
def ThrowClosed (entries : List (Bool × List Nat)) (throws : List Bool) : Prop :=
  ∀ (i : Nat) (callees : List Nat), entries[i]? = some (false, callees) →
    (∃ j ∈ callees, throws[j]? = some true) → throws[i]? = some true

section
variable {entries : List (Bool × List Nat)} {start throws throws' : List Bool} {i : Nat}

theorem Covers.refl (throws : List Bool) : Covers throws throws := forall₂_same.mpr fun _ _ h => h

theorem Covers.of_some_true (h : Covers throws throws') (hi : throws[i]? = some true) :
    throws'[i]? = some true := by
  obtain ⟨b, hb, himp⟩ := forall₂_some_left h hi
  rw [hb, himp rfl]

theorem Covers.antisymm (h : Covers throws throws') (h' : Covers throws' throws) :
    throws = throws' := by
  refine ext_getElem? fun i => ?_
  cases hi : throws[i]? with
  | none => exact (forall₂_none_left h hi).symm
  | some b =>
    cases b with
    | true => exact (h.of_some_true hi).symm
    | false => exact (h'.of_some hi).symm

/-- Answers that grew from the right start are complete if they are closed. -/
theorem Throws.of_closed (h : Throws entries start i) (hstart : Covers start throws)
    (hclosed : ThrowClosed entries throws) : throws[i]? = some true := by
  induction h with
  | raises hi => exact hstart.of_some_true hi
  | calls he hj _ ih => exact hclosed _ _ he ⟨_, hj, ih⟩

theorem Justified.iff_throws (h : Justified entries start throws) (hstart : Covers start throws)
    (hclosed : ThrowClosed entries throws) : throws[i]? = some true ↔ Throws entries start i :=
  ⟨h i, fun hi => hi.of_closed hstart hclosed⟩

/-- Justified answers are covered by all closed ones. -/
theorem Justified.covers (h : Justified entries start throws) (hstart : Covers start throws')
    (hclosed : ThrowClosed entries throws') (hlen : throws.length = throws'.length) :
    Covers throws throws' := by
  refine forall₂_iff_get.mpr ⟨hlen, fun i hi hi' htrue => ?_⟩
  have hthrows := h i (List.getElem?_eq_some_iff.mpr ⟨hi, htrue⟩)
  exact (List.getElem?_eq_some_iff.mp (hthrows.of_closed hstart hclosed)).2

/-! ## Rounds -/

theorem getD_eq_true {j : Nat} : throws.getD j false = true ↔ throws[j]? = some true := by
  rw [getD_eq_getElem?_getD]
  cases throws[j]? <;> simp

theorem throwRound_getElem? : (throwRound entries throws)[i]? = some true ↔
    ∃ e, entries[i]? = some e ∧ ∃ b, throws[i]? = some b ∧
      (b = true ∨ e.1 = false ∧ ∃ j ∈ e.2, throws[j]? = some true) := by
  simp only [throwRound, getElem?_map, map_eq_some_iff, Prod.exists, getElem?_zip_eq_some,
    Bool.or_eq_true, Bool.and_eq_true, Bool.not_eq_true', List.any_eq_true, getD_eq_true]
  grind

theorem Justified.throwRound (h : Justified entries start throws) :
    Justified entries start (throwRound entries throws) := by
  intro i hi
  obtain ⟨⟨silent, callees⟩, he, b, hb, rfl | ⟨rfl, j, hj, hthrows⟩⟩ := throwRound_getElem?.mp hi
  · exact h i hb
  · exact .calls he hj (h j hthrows)

theorem Justified.iterate (h : Justified entries start throws) (n : Nat) :
    Justified entries start ((Lower.throwRound entries)^[n] throws) := by
  induction n generalizing throws with
  | zero => exact h
  | succ n ih => exact ih h.throwRound

theorem throwClosed_iff (hlen : throws.length = entries.length) :
    ThrowClosed entries throws ↔ throwRound entries throws = throws := by
  constructor
  · refine fun h =>
      Covers.antisymm (forall₂_iff_get.mpr ⟨by simp [throwRound, hlen], fun i hi hi' htrue => ?_⟩)
        (throwRound_covers hlen)
    obtain ⟨⟨silent, callees⟩, he, b, hb, rfl | ⟨rfl, hcalls⟩⟩ :=
      throwRound_getElem?.mp (List.getElem?_eq_some_iff.mpr ⟨hi, htrue⟩)
    · exact (List.getElem?_eq_some_iff.mp hb).2
    · exact (List.getElem?_eq_some_iff.mp (h i callees he hcalls)).2
  · intro h i callees he hcalls
    rw [← h]
    have hi : i < throws.length := hlen ▸ lt_of_getElem? he
    exact throwRound_getElem?.mpr ⟨_, he, _, getElem?_eq_getElem hi, .inr ⟨rfl, hcalls⟩⟩

/-! ## Passes in place -/

/-- Whether a method makes no promise and calls one that is said to throw. -/
def throwDue (entries : List (Bool × List Nat)) (throws : List Bool) (i : Nat) : Bool :=
  (entries[i]?).any fun e => !e.1 && e.2.any fun j => throws.getD j false

def throwUpdate (entries : List (Bool × List Nat)) (throws : List Bool) (i : Nat) : List Bool :=
  if throwDue entries throws i then throws.set i true else throws

/-- One pass over all methods, in which each answer counts for the methods behind it. -/
def throwSweep (entries : List (Bool × List Nat)) (throws : List Bool) : List Bool :=
  (List.range entries.length).foldl (throwUpdate entries) throws

theorem throwDue_eq_true : throwDue entries throws i = true ↔
    ∃ callees, entries[i]? = some (false, callees) ∧ ∃ j ∈ callees, throws[j]? = some true := by
  simp only [throwDue, Option.any_eq_true, Bool.and_eq_true, Bool.not_eq_true', List.any_eq_true,
    getD_eq_true]
  grind

theorem throwUpdate_covers : Covers throws (throwUpdate entries throws i) := by
  unfold throwUpdate
  split
  · refine forall₂_iff_get.mpr ⟨by simp, fun j hj hj' htrue => ?_⟩
    have htrue : throws[j] = true := htrue
    show (throws.set i true)[j] = true
    rw [getElem_set]
    split
    · rfl
    · exact htrue
  · exact .refl throws

theorem throwUpdates_covers (is : List Nat) :
    Covers throws (is.foldl (throwUpdate entries) throws) := by
  induction is generalizing throws with
  | nil => exact .refl throws
  | cons i is ih => exact throwUpdate_covers.trans ih

theorem throwSweep_covers : Covers throws (throwSweep entries throws) := throwUpdates_covers _

/-- Passes over all methods until one of them changes nothing. -/
def throwLoop (entries : List (Bool × List Nat)) (throws : List Bool) : List Bool :=
  if throwSweep entries throws = throws then
    throws else throwLoop entries (throwSweep entries throws)
termination_by throws.count false
decreasing_by exact throwSweep_covers.eq_or_count_lt.resolve_left ‹_›

theorem Justified.throwUpdate (h : Justified entries start throws) :
    Justified entries start (throwUpdate entries throws i) := by
  unfold Lower.throwUpdate
  split
  · next hdue =>
    obtain ⟨callees, he, j, hj, hthrows⟩ := throwDue_eq_true.mp hdue
    intro k hk
    rcases eq_or_ne i k with rfl | hne
    · exact .calls he hj (h j hthrows)
    · rw [getElem?_set_ne hne] at hk
      exact h k hk
  · exact h

theorem Justified.throwSweep (h : Justified entries start throws) :
    Justified entries start (throwSweep entries throws) := by
  unfold Lower.throwSweep
  generalize List.range entries.length = is
  induction is generalizing throws with
  | nil => exact h
  | cons i is ih => exact ih h.throwUpdate

/-- A pass that changes nothing has changed nothing on its way. -/
theorem throwUpdate_eq_self {is : List Nat} (h : is.foldl (throwUpdate entries) throws = throws) :
    ∀ i ∈ is, throwUpdate entries throws i = throws := by
  induction is with
  | nil => exact forall_mem_nil _
  | cons i is ih =>
    have hfirst : throwUpdate entries throws i = throws := by
      refine (throwUpdate_covers.antisymm ?_).symm
      conv => rhs; rw [← h]
      exact throwUpdates_covers is
    rw [foldl_cons, hfirst] at h
    exact forall_mem_cons.mpr ⟨hfirst, ih h⟩

theorem throwClosed_of_throwSweep (hlen : throws.length = entries.length)
    (h : throwSweep entries throws = throws) : ThrowClosed entries throws := by
  intro i callees he hcalls
  have hi := lt_of_getElem? he
  have hsame := throwUpdate_eq_self h i (mem_range.mpr hi)
  rw [throwUpdate, if_pos (throwDue_eq_true.mpr ⟨callees, he, hcalls⟩)] at hsame
  rw [← hsame]
  exact getElem?_set_self (hlen ▸ hi)

/-- What the loop keeps from pass to pass, and what its last pass shows. -/
theorem throwLoop_spec (hlen : throws.length = entries.length) (h : Justified entries start throws)
    (hstart : Covers start throws) :
    Justified entries start (throwLoop entries throws) ∧ Covers start (throwLoop entries throws) ∧
      ThrowClosed entries (throwLoop entries throws) := by
  fun_induction throwLoop entries throws with
  | case1 throws hfixed => exact ⟨h, hstart, throwClosed_of_throwSweep hlen hfixed⟩
  | case2 throws _ ih =>
    exact ih (throwSweep_covers.length_eq.symm.trans hlen) h.throwSweep
      (hstart.trans throwSweep_covers)

end

/-! ## Declared methods -/

variable {d : Declared}

theorem justified_throwStart (d : Declared) : Justified d.throwEntries d.throwStart d.throwStart :=
  fun _ h => .raises h

theorem throwing_justified (d : Declared) : Justified d.throwEntries d.throwStart d.throwing := by
  rw [throwing_eq_iterate]
  exact (justified_throwStart d).iterate _

theorem throwing_covers (d : Declared) : Covers d.throwStart d.throwing := by
  rw [throwing_eq_iterate]
  exact iterate_covers (fun x => throwRound_covers) _ _ (throwStart_length d)

theorem throwing_throwClosed (d : Declared) : ThrowClosed d.throwEntries d.throwing := by
  refine (throwClosed_iff ?_).mpr (throwing_fixed d)
  rw [throwing_length, Declared.throwEntries, length_map]

/-- Rounds and passes in place come to the same answers. -/
theorem throwLoop_eq_throwing (d : Declared) :
    throwLoop d.throwEntries d.throwStart = d.throwing := by
  obtain ⟨hjustified, hstart, hclosed⟩ :=
    throwLoop_spec (throwStart_length d) (justified_throwStart d) (.refl _)
  have hlen : (throwLoop d.throwEntries d.throwStart).length = d.throwing.length :=
    hstart.length_eq.symm.trans (throwing_covers d).length_eq
  exact (hjustified.covers (throwing_covers d) (throwing_throwClosed d) hlen).antisymm
    ((throwing_justified d).covers hstart hclosed hlen.symm)

variable {m : Module} {o : Options} {i : Nat} {e : MethodEntry} {f g : Function} {name : String}
  {x : Instruction}

theorem Declaration.defined (hd : Declaration m o d) (he : d.methods[i]? = some e) :
    e.function.isDeclaration = false := by
  have hmem : e.function ∈ d.methods.map (·.function) := List.mem_map_of_mem (mem_of_getElem? he)
  rw [hd.functions] at hmem
  simpa using (mem_filter.mp hmem).2

theorem Declaration.exists_method (hd : Declaration m o d) (hf : f ∈ m.functions)
    (hdef : f.isDeclaration = false) :
    ∃ (i : Nat) (e : MethodEntry), d.methods[i]? = some e ∧ e.function = f := by
  have hmem : f ∈ d.methods.map (·.function) := by
    rw [hd.functions]
    exact mem_filter.mpr ⟨hf, by simp [hdef]⟩
  obtain ⟨e, he, rfl⟩ := List.mem_map.mp hmem
  obtain ⟨i, hi⟩ := getElem?_of_mem he
  exact ⟨i, e, hi, rfl⟩

theorem method?_name (h : d.method? name = some e) : e.function.name = name := by
  obtain ⟨i, hi, he⟩ := bind_eq_some_iff.mp h
  obtain ⟨e', he', hname, -⟩ := Flow.lastIndex?_eq_some hi
  cases he.symm.trans he'
  exact of_decide_eq_true hname

theorem Declaration.method?_eq_none (hd : Declaration m o d) :
    d.method? name = none ↔ ∀ f ∈ m.functions, f.isDeclaration = false → f.name ≠ name := by
  constructor
  · intro h f hf hdef hname
    obtain ⟨i, e, hi, rfl⟩ := hd.exists_method hf hdef
    unfold Declared.method? at h
    cases hl : Flow.lastIndex? (fun e' => e'.function.name = name) d.methods with
    | none => simpa [hname] using Flow.lastIndex?_eq_none.mp hl e (mem_of_getElem? hi)
    | some j =>
      obtain ⟨e', hj, -⟩ := Flow.lastIndex?_eq_some hl
      rw [hl, bind_some, hj] at h
      cases h
  · intro h
    cases hm : d.method? name with
    | none => rfl
    | some e =>
      have hi := hd.method hm
      exact absurd (method?_name hm) (h _ (hd.index hi).2 (hd.defined hi))

/-- Where no two functions have the same name, a name leads to the method of the function that has
it. -/
theorem Declaration.method?_of_nodup (hd : Declaration m o d)
    (hnames : (m.functions.map (·.name)).Nodup) (he : d.methods[i]? = some e) :
    d.method? e.function.name = some e := by
  have hnodup : (d.methods.map (·.function.name)).Nodup := by
    have hmap : d.methods.map (·.function.name) = (m.functions.filter fun f => !f.isDeclaration).map
        (·.name) := by
      rw [← hd.functions, List.map_map]
      rfl
    rw [hmap]
    exact hnames.sublist (filter_sublist.map _)
  rw [Declared.method?, Flow.lastIndex?_of_nodup hnodup he, bind_some, he]

theorem callee?_eq_some {callee : Ssa.Operand} :
    callee? x = some callee ↔
    (x.opcode = .call ∨ x.opcode = .invoke) ∧ x.operands.getLast?.getD (.const .null) = callee := by
  unfold callee?
  split
  · next ho => simp [ho]
  · next ho => simp [ho]
  · next hcall hinvoke =>
    refine iff_of_false (by simp) ?_
    rintro ⟨ho | ho, -⟩
    · exact hcall ho
    · exact hinvoke ho

theorem getLast?_of_callee :
    x.operands.getLast?.getD (.const .null) = .function name ↔
      x.operands.getLast? = some (.function name) := by
  cases x.operands.getLast? <;> simp

theorem Declaration.raises_iff (hd : Declaration m o d) : d.raises x = true ↔ m.Unwinds x := by
  have hnone (name : String) : (d.method? name).isNone = true ↔ ∀ f ∈ m.functions, f.isDeclaration =
      false → f.name ≠ name := by
    rw [isNone_iff_eq_none, hd.method?_eq_none]
  constructor
  · intro h
    by_cases hinvoke : x.opcode = .invoke
    · exact .invoke hinvoke
    · rcases Bool.or_eq_true_iff.mp h with h | h
      · split at h
        · next ho => exact .resume ho
        · next ho => exact .invoke ho
        · next ho => exact .cleanup ho (of_decide_eq_true h)
        · cases h
      · split at h
        · next name hc =>
          obtain ⟨ho, hlast⟩ := callee?_eq_some.mp hc
          obtain ⟨hn, hroute⟩ := (Bool.and_eq_true _ _).mp h
          exact .assertion (ho.resolve_right hinvoke) (getLast?_of_callee.mp hlast)
            ((hnone name).mp hn) (of_decide_eq_true hroute)
        · next callee hno hc =>
          obtain ⟨ho, hlast⟩ := callee?_eq_some.mp hc
          exact .indirect (ho.resolve_right hinvoke) fun name hname =>
            hno name (hlast.symm.trans (getLast?_of_callee.mpr hname))
        · cases h
  · rintro (ho | ho | ⟨ho, hlen⟩ | ⟨ho, hlast, hundefined, hroute⟩ | ⟨ho, hlast⟩)
    · simp [Declared.raises, ho]
    · simp [Declared.raises, ho]
    · simp [Declared.raises, ho, hlen]
    · simp [Declared.raises, callee?, ho, hlast, (hnone _).mpr hundefined, hroute]
    · have hcallee := callee?_eq_some.mpr ⟨.inl ho, rfl⟩
      rw [Declared.raises, hcallee]
      generalize hx : x.operands.getLast?.getD (.const .null) = callee
      cases callee with
      | function name => exact absurd (getLast?_of_callee.mp hx) (hlast name)
      | _ => simp

theorem throwStart_eq_true (hd : Declaration m o d) (he : d.methods[i]? = some e) :
    d.throwStart[i]? = some true ↔ e.function.isNoUnwind = false ∧ ∃ x ∈ e.function.instructions,
      m.Unwinds x := by
  simp [Declared.throwStart, he, hd.raises_iff]

theorem throwEntries_getElem? (he : d.methods[i]? = some e) :
    d.throwEntries[i]? = some (e.function.isNoUnwind, d.calls e.function) := by
  simp [Declared.throwEntries, he]

/-- The methods that a function calls by name. -/
theorem mem_calls {j : Nat} :
    j ∈ d.calls f ↔ ∃ x ∈ f.instructions, (x.opcode = .call ∨ x.opcode = .invoke) ∧
      ∃ name e, x.operands.getLast? = some (.function name) ∧ d.method? name = some e ∧
        e.index = j := by
  rw [Declared.calls, mem_filterMap]
  refine exists_congr fun x => and_congr_right fun _ => ?_
  constructor
  · intro h
    split at h
    · next name hc =>
      obtain ⟨e, he, hj⟩ := map_eq_some_iff.mp h
      obtain ⟨ho, hlast⟩ := callee?_eq_some.mp hc
      exact ⟨ho, name, e, getLast?_of_callee.mp hlast, he, hj⟩
    · cases h
  · rintro ⟨ho, name, e, hlast, he, rfl⟩
    rw [callee?_eq_some.mpr ⟨ho, getLast?_of_callee.mpr hlast⟩]
    simp [he]

/-! ## Chains of calls -/

theorem Throws.exists_chain (hd : Declaration m o d) (h : Throws d.throwEntries d.throwStart i)
    (he : d.methods[i]? = some e) : ∃ fs, fs.head? = some e.function ∧ m.ThrowChain fs := by
  have member {i : Nat} {e : MethodEntry} (he : d.methods[i]? = some e)
      (hsilent : e.function.isNoUnwind = false) : e.function ∈ m.functions ∧
        e.function.isDeclaration = false ∧ e.function.isNoUnwind = false :=
    ⟨(hd.index he).2, hd.defined he, hsilent⟩
  induction h generalizing e with
  | raises hi =>
    obtain ⟨hsilent, x, hx, hunwinds⟩ := (throwStart_eq_true hd he).mp hi
    refine ⟨[e.function], rfl, ⟨?_, .singleton _, e.function, x, rfl, hx, hunwinds⟩⟩
    exact forall_mem_singleton.mpr (member he hsilent)
  | calls hentry hj _ ih =>
    obtain ⟨hsilent, rfl⟩ := Prod.mk.inj (some.inj ((throwEntries_getElem? he).symm.trans hentry))
    obtain ⟨x, hx, ho, name, e', hlast, he', rfl⟩ := mem_calls.mp hj
    obtain ⟨fs, hhead, hchain⟩ := ih (hd.method he')
    obtain ⟨rest, rfl⟩ := head?_eq_some_iff.mp hhead
    refine ⟨e.function :: e'.function :: rest, rfl, ⟨?_, ?_, ?_⟩⟩
    · exact forall_mem_cons.mpr ⟨member he hsilent, hchain.members⟩
    · exact .cons_cons ⟨x, hx, ho, by rw [method?_name he', hlast]⟩ hchain.calls
    · rw [getLast?_cons_cons]
      exact hchain.unwinds

theorem Throws.of_chain (hd : Declaration m o d) (hnames : (m.functions.map (·.name)).Nodup)
    {fs : List Function} (h : m.ThrowChain fs) (hhead : fs.head? = some e.function)
    (he : d.methods[i]? = some e) : Throws d.throwEntries d.throwStart i := by
  induction fs generalizing i e with
  | nil => cases hhead
  | cons f fs ih =>
    cases hhead
    obtain ⟨⟨-, -, hsilent⟩, hmembers⟩ := forall_mem_cons.mp h.members
    cases fs with
    | nil =>
      obtain ⟨f, x, hlast, hx, hunwinds⟩ := h.unwinds
      cases hlast
      exact .raises ((throwStart_eq_true hd he).mpr ⟨hsilent, x, hx, hunwinds⟩)
    | cons g fs =>
      obtain ⟨⟨x, hx, ho, hlast⟩, hcalls⟩ := isChain_cons_cons.mp h.calls
      obtain ⟨hg, hdef, -⟩ := hmembers g mem_cons_self
      obtain ⟨j, e', hj, rfl⟩ := hd.exists_method hg hdef
      have hindex : e'.index = j := (hd.index hj).1
      refine .calls (hsilent ▸ throwEntries_getElem? he) (mem_calls.mpr ⟨x, hx, ho, _, e', hlast,
        ?_, hindex⟩) ?_
      · exact hd.method?_of_nodup hnames hj
      · refine ih ⟨hmembers, hcalls, ?_⟩ rfl hj
        rw [← getLast?_cons_cons]
        exact h.unwinds

/-- **What may throw is the least fixed point of its rule.** If no two functions of a declared
module have the same name, a function with a body may throw exactly if a finite chain of calls by
name leads from it to one that raises an exception, all of them with bodies and without a promise.
The answers are what a loop that updates them in place ends with; a further round changes nothing,
and all answers that contain the methods which raise exceptions themselves and are not changed by a
round contain them. -/
theorem mayThrow_iff_chain {m : Module} {o : Options} {d : Declared} (hd : declare m o = .ok d)
    (hnames : (m.functions.map (·.name)).Nodup) :
    (∀ f ∈ m.functions, f.isDeclaration = false → ∃ e, d.method? f.name = some e ∧ e.function = f ∧
      (e.mayThrow = true ↔ ∃ fs, fs.head? = some f ∧ m.ThrowChain fs)) ∧
    d.methods.map (·.mayThrow) = throwLoop d.throwEntries d.throwStart ∧
    throwRound d.throwEntries (d.methods.map (·.mayThrow)) = d.methods.map (·.mayThrow) ∧
    ∀ throws, Covers d.throwStart throws → throwRound d.throwEntries throws = throws →
      Covers (d.methods.map (·.mayThrow)) throws := by
  have hdecl := declare_declaration hd
  rw [declare_mayThrow hd]
  refine ⟨fun f hf hdef => ?_, (throwLoop_eq_throwing d).symm, throwing_fixed d,
    fun throws hstart hfixed => ?_⟩
  · obtain ⟨i, e, he, rfl⟩ := hdecl.exists_method hf hdef
    have hthrows : d.throwing[i]? = some e.mayThrow := by
      rw [← declare_mayThrow hd, getElem?_map, he, map_some]
    have hiff :=
      (throwing_justified d).iff_throws (i := i) (throwing_covers d) (throwing_throwClosed d)
    rw [hthrows, some.injEq] at hiff
    refine ⟨e, hdecl.method?_of_nodup hnames he, rfl,
      hiff.trans ⟨fun h => h.exists_chain hdecl he, ?_⟩⟩
    rintro ⟨fs, hhead, hchain⟩
    exact .of_chain hdecl hnames hchain hhead he
  · have hlen : throws.length = d.throwEntries.length :=
      hstart.length_eq.symm.trans (throwStart_length d)
    exact (throwing_justified d).covers hstart ((throwClosed_iff hlen).mpr hfixed)
      ((throwing_covers d).length_eq.symm.trans hstart.length_eq)

/-- A function without arguments or result that makes the given calls and returns. -/
def callsOnly (name : String) (callees : List String) (attributes : List Ssa.Attribute) :
    Function where
  name
  type := { ret := .void, params := [] }
  attributes
  blocks := [{ id := 0, instructions := (callees.zipIdx.map fun c =>
    { id := c.2, opcode := .call, ty := .void, operands := [.function c.1], info :=
        .call { ret := .void, params := [] } }) ++
    [{ id := 9, opcode := .ret, ty := .void, operands := [] }] }]

/-- Two functions that call each other, of which one calls a third that reports a failed assertion;
one that calls them but promises not to throw, one that only calls the latter, and the declaration
of what reports failed assertions. -/
def pingPong : Module where
  functions := [callsOnly "ping" ["pong"] [], callsOnly "pong" ["ping", "check"] [],
    callsOnly "check" ["_wassert"] [], callsOnly "guard" ["ping"] [.noUnwind],
      callsOnly "outer" ["guard"] [],
    { name := "_wassert", type := { ret := .void, params := [] } }]

theorem pingPong_mayThrow :
    (pingPong.functions.map (·.name)).Nodup ∧ ∃ d, declare pingPong {} = .ok d ∧ d.methods.map
    (·.mayThrow) = [true, true, true, false, false] ∧
      (∀ f ∈ pingPong.functions, f.isDeclaration = false → ∃ e, d.method? f.name = some e ∧
        e.function = f ∧ (e.mayThrow = true ↔ ∃ fs, fs.head? = some f ∧ pingPong.ThrowChain fs)) ∧
    throwLoop d.throwEntries d.throwStart = [true, true, true, false, false] := by
  have hnames : (pingPong.functions.map (·.name)).Nodup := by decide
  obtain ⟨d, hd, hthrows⟩ := toOption_map_eq_some.mp (show (declare pingPong {}).toOption.map
    (fun d => d.methods.map (·.mayThrow)) = some [true, true, true, false, false] by decide +kernel)
  obtain ⟨hchain, hloop, -⟩ := mayThrow_iff_chain hd hnames
  exact ⟨hnames, d, hd, hthrows, hchain, hloop.symm.trans hthrows⟩

end Stackify.Lower
