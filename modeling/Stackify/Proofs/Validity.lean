import Stackify.Code.Validity
import Stackify.Proofs.Effect
import Stackify.Proofs.Steps

/-!
What the validity of a program buys at run time. A valid program, called any number of times with
known arguments, never reports that something it names by an index is missing:

    p.defect? = none → Session p w → Admissible p method args →
      FaultsAt p w method args op f → ruledOut op f = false        (valid_program_names_what_exists)

The invariant is that states stay within the scope of the program (`Scope.known`): every frame has
as many arguments and locals as its method declares, and the methods and statics that values in
frames and memory mention exist.
-/

namespace Stackify.Machine

open Code (Op Ty Label Method Program Service position?)
open List

/-! ## Faults that validity rules out -/

def Fault.isMissingLocal : Fault → Bool
  | .missingLocal _ _ => true
  | _ => false

def Fault.isArgumentCount : Fault → Bool
  | .argumentCount _ _ _ => true
  | _ => false

def Fault.isMissingField : Fault → Bool
  | .unknownRecord _ | .outsideObject _ => true
  | _ => false

/-- The faults that an operation of a valid program never ends with. Stray indices come from no
operation; a missing local, a wrong number of arguments or a missing field may still come from
addresses and method pointers that are computed at run time. -/
def ruledOut (op : Op) (f : Fault) : Bool :=
  f.isStray ||
    match op with
    | .loadLocal _ | .storeLocal _ | .initLocal _ | .loadLocalAddress _ => f.isMissingLocal
    | .call _ _ => f.isArgumentCount
    | .fieldAddress _ _ => f.isMissingField
    | _ => false

@[simp] theorem ruledOut_stackUnderflow (op : Op) : ruledOut op .stackUnderflow = false := by
  cases op <;> rfl

/-! ## Valid operations -/

variable {p : Program} {m : Method} {op : Op}

/-- The operations of a valid program have no defects. -/
theorem op_defect_none (hp : p.defect? = none) (hm : m ∈ p.methods) (ho : op ∈ m.body.ops) :
    op.defect? p m = none := by
  have h1 := findSome?_eq_none_iff.mp hp m hm
  rw [Option.map_eq_none_iff] at h1
  unfold Method.defect? at h1
  split at h1
  · cases h1
  · next h2 => exact findSome?_eq_none_iff.mp h2 op ho

/-- Every label that a valid operation may jump to is marked. -/
theorem target_marked (h : op.defect? p m = none) {l : Label} (hl : l ∈ op.targets) :
    (position? m.body.ops l).isSome := by
  unfold Op.defect? at h
  dsimp only at h
  split at h
  · cases h
  · split at h
    · cases h
    · next hf => simpa [Option.isSome_iff_ne_none] using List.find?_eq_none.mp hf l hl

theorem operandDefect_none (h : op.defect? p m = none) : op.operandDefect? p m = none := by
  unfold Op.defect? at h
  dsimp only at h
  split at h
  · cases h
  · split at h
    · cases h
    · exact h

theorem below_none {i n : Nat} {d : Code.Defect} (h : Code.below i n d = none) : i < n := by
  unfold Code.below at h
  split at h
  · assumption
  · cases h

/-! ## The scope of a program -/

mutual

/-- The methods and statics that a value mentions exist. -/
def Value.Known (p : Program) : Value → Prop
  | .pointer (.ofMemory (.static i) _) => i < p.statics.length
  | .method i => i < p.methods.length
  | .record vs => KnownAll p vs
  | .array vs => KnownAll p vs
  | .varArgs vs _ => KnownAll p vs
  | .pointer (.ofMemory (.heap _) _) | .pointer (.ofLocal _ _ _) => True
  | .bool _ | .int _ _ | .float _ _ | .null | .exception _ => True

def KnownAll (p : Program) : List Value → Prop
  | [] => True
  | v :: vs => v.Known p ∧ KnownAll p vs

end

theorem knownAll_iff (p : Program) (vs : List Value) : KnownAll p vs ↔ ∀ v ∈ vs, v.Known p := by
  induction vs with
  | nil => simp [KnownAll]
  | cons v vs ih => simp [KnownAll, ih]

/-- The blocks that exist without having been allocated. -/
def Region.Known (p : Program) : Region → Prop
  | .static i => i < p.statics.length
  | .heap _ => True

/-- What exists in a program may occur, and no index out of range is reported. -/
def Scope.known (p : Program) : Scope where
  Holds := Value.Known p
  Reaches := Region.Known p
  Reports f := f.isStray = false
  Fits i args locals :=
    ∃ m, p.methods[i]? = some m ∧ args = m.type.argSlots ∧ locals = m.body.locals.length
  ordinary h := by simpa using (Bool.and_eq_true_iff.mp h).2
  plain {v} h := by
    cases v with
    | pointer q =>
      cases q with
      | ofLocal => exact trivial
      | ofMemory => cases h
    | bool | int | float | null | exception => exact trivial
    | method | record | array | varArgs => cases h
  heap _ := trivial
  address {r _} := by cases r <;> rfl
  record {vs} := knownAll_iff p vs
  array {vs} := knownAll_iff p vs
  varArgs {vs _} := knownAll_iff p vs

variable {s : State} {f : Fault} {t : State} {i : Nat} {use : ResultUse} {w : World} {method : Nat}
  {args : List Value}

/-! ## Operations -/

@[simp] theorem State.frame?_depth (s : State) : s.frame? s.depth = some s.current := by
    simp [State.frame?]

theorem names_known (hd : op.defect? p m = none) (hm : p.methods[s.current.method]? = some m)
    (hs : s.Within (.known p)) : Names (.known p) p s op := by
  have hi := operandDefect_none hd
  cases op with
  | loadConst i => exact .inl (below_none hi)
  | loadArg i =>
    obtain ⟨m', hm', ha, -⟩ := hs.current.fits
    cases hm.symm.trans hm'
    exact .inl (ha ▸ below_none hi)
  | loadStaticAddress i => exact below_none hi
  | loadMethodPointer i => exact below_none hi
  | callService service n =>
    rw [Op.operandDefect?] at hi
    split at hi
    · next h => exact .inl h.symm
    · cases hi
  | _ => exact trivial

/-- The address of a field that the program declares only fails on what is no address. -/
theorem fieldAddress_error {address : Value} {id field : Nat} {r : Code.Record}
    (hr : p.records[id]? = some r) (hfield : field < r.fields.length)
    (h : fieldAddress p address id field = .error f) : f = badAddress address := by
  have hl : field < (r.layout p.records).offsets.length := by rwa [Code.layout_offsets_length]
  unfold fieldAddress at h
  split at h
  · cases h
  · simp [hr, hl] at h
  · cases h
    rfl

/-- Some faults are ruled out for some operations only. -/
theorem ruledOut_of_fault (hd : op.defect? p m = none) (hm : p.methods[s.current.method]? = some m)
    (hs : s.Within (.known p)) (h : execute p m s op = .fault t f) (hf : f.isStray = false) :
    ruledOut op f = false := by
  have hi := operandDefect_none hd
  have hlocal {i : Nat} (hi : i < m.body.locals.length) : i < s.current.locals.length := by
    obtain ⟨m', hm', -, hl⟩ := hs.current.fits
    cases hm.symm.trans hm'
    exact hl ▸ hi
  cases op with
  | loadLocal i =>
    have hlt := hlocal (below_none hi)
    simp [execute, State.local?, hlt, State.deliver, Action.fault] at h
  | loadLocalAddress i =>
    have hlt := hlocal (below_none hi)
    simp [execute, State.local?, hlt, State.deliver, Action.fault, Except.map] at h
  | initLocal i =>
    have hlt := hlocal (below_none hi)
    simp [execute, State.setLocal, hlt, Action.fault] at h
  | storeLocal i =>
    have hlt := hlocal (below_none hi)
    rw [execute, State.pop] at h
    split at h
    · next v rest _ =>
      have hlt : i < (s.withStack rest).current.locals.length := hlt
      simp [State.setLocal, hlt, Action.fault] at h
    · cases h
      rfl
  | call i n =>
    rw [execute, State.popMany] at h
    split at h <;> cases h
    rfl
  | fieldAddress id field =>
    rw [Op.operandDefect?] at hi
    split at hi
    · cases hi
    · next r hr =>
      rw [execute, State.pop] at h
      split at h
      · next address rest _ =>
        cases hx : fieldAddress p address id field with
        | ok v =>
          rw [hx] at h
          cases h
        | error f' =>
          rw [hx] at h
          cases h
          rw [fieldAddress_error hr (below_none hi) hx]
          unfold badAddress
          split <;> rfl
      · cases h
        rfl
  | _ => simp [ruledOut, hf]

/-! ## Steps -/

/-- What a step from a sound state at an operation may give. -/
def Outcome.Sound (p : Program) (op : Op) : Outcome → Prop
  | .running s => s.Within (.known p)
  | .finished w r => w.memory.Within (.known p) ∧ ∀ f, r = .error f → ruledOut op f = false

theorem enter_within {frames : Nat} {f : Frame} (h : enter p frames i args use = .ok f)
    (hargs : ∀ v ∈ args, v.Known p) : f.Within (.known p) := by
  obtain ⟨callee, hc, hl, -, rfl⟩ := enter_eq_ok.mp h
  refine ⟨⟨callee, hc, hl, by simp⟩, hargs, fun v hv => ?_, by simp⟩
  obtain ⟨ty, -, rfl⟩ := List.mem_map.mp hv
  exact defaultValue_holds _ _

theorem ruledOut_enter {callee : Method} {frames : Nat} {f : Fault}
    (hc : p.methods[i]? = some callee)
    (hn : ruledOut op (.argumentCount callee.name callee.type.argSlots args.length) = true →
      args.length = callee.type.argSlots) (hf :
      enter p frames i args use = .error f) : ruledOut op f = false := by
  rw [enter, hc] at hf
  dsimp only at hf
  split at hf
  · next hl =>
    cases hf
    exact Bool.eq_false_iff.mpr fun hr => hl (hn hr)
  · split at hf
    · cases hf
      cases op <;> rfl
    · cases hf

theorem step_sound (hp : p.defect? = none) (hs : s.Within (.known p)) (ho : s.op? p = some op) :
    (step p s).Sound p op := by
  obtain ⟨m, hm, hop⟩ := Option.bind_eq_some_iff.mp ho
  have hd := op_defect_none hp (mem_of_getElem? hm) (mem_of_getElem? hop)
  have hgoes := step_within hs (names_known hd hm hs) hm hop
  generalize step p s = outcome at hgoes
  cases hgoes with
  | next _ _ _ _ ht => exact ht.goTo _
  | @jump _ stack _ _ hstack =>
    refine (hs.withStack stack fun v hv => ?_).goTo _
    rcases hstack with ⟨-, rfl⟩ | ⟨-, rfl⟩
    · exact hs.current.stack v (mem_of_mem_drop hv)
    · cases hv
  | call _ hargs hf =>
    have hdrop := hs.withStack (s.current.stack.drop (op.takes m)) fun v hv =>
        hs.current.stack v (mem_of_mem_drop hv)
    exact ⟨enter_within hf hargs, forall_mem_cons.mpr ⟨hdrop.current, hs.callers⟩, hs.memory⟩
  | returns _ _ hv hc hf =>
    obtain ⟨vs, hvs, rfl⟩ := resume_eq_ok hf
    obtain ⟨hcaller, hrest⟩ := forall_mem_cons.mp (hc ▸ hs.callers)
    have hstack : ∀ v ∈ vs ++ _, v.Known p :=
      forall_mem_append.mpr ⟨fun v h => hv v (hvs v h), hcaller.stack⟩
    exact ⟨⟨hcaller.fits, hcaller.args, hcaller.locals, hstack⟩, hrest, hs.memory⟩
  | catches _ _ hv hsplit =>
    have hall : ∀ f ∈ s.current :: s.callers, f.Within (.known p) :=
      forall_mem_cons.mpr ⟨hs.current, hs.callers⟩
    rw [hsplit] at hall
    obtain ⟨hf, houter⟩ := forall_mem_cons.mp (forall_mem_append.mp hall).2
    exact ⟨⟨hf.fits, hf.args, hf.locals, forall_mem_singleton.mpr hv⟩, houter, hs.memory⟩
  | ends => exact ⟨hs.memory, nofun⟩
  | uncaught | noResult =>
    refine ⟨hs.memory, ?_⟩
    rintro f ⟨⟩
    cases op <;> rfl
  | fault hx h ht =>
    refine ⟨ht.memory, ?_⟩
    rintro g ⟨⟩
    rcases h with h | ⟨rfl, -⟩
    · exact ruledOut_of_fault hd hm hs hx h
    · exact ruledOut_stackUnderflow op
  | unmarked hl hpc =>
    have hmarked := target_marked hd hl
    rw [hpc] at hmarked
    cases hmarked
  | refuses hop hf =>
    refine ⟨hs.memory, ?_⟩
    rintro g ⟨⟩
    rcases hop with rfl | ⟨⟨n, returns, rfl⟩, hi⟩
    · have hi := operandDefect_none hd
      rw [Op.operandDefect?] at hi
      split at hi
      · cases hi
      · next callee hc =>
        split at hi
        · next hn => exact ruledOut_enter hc (fun _ => hn.symm) hf
        · cases hi
    · have hi : _ < p.methods.length := hi
      exact ruledOut_enter (getElem?_eq_getElem hi)
        (fun h => by simp [ruledOut, Fault.isStray] at h) hf

/-- A sound state stands at an operation, or behind the last one of its method. -/
theorem State.Within.op_cases (hs : s.Within (.known p)) :
    (∃ op, s.op? p = some op) ∨ ∃ name, step p s = .finished s.world
    (.error (.ranPastEnd name)) := by
  obtain ⟨m, hm, -⟩ := hs.current.fits
  cases ho : m.body.ops[s.current.pc]? with
  | some op => exact .inl ⟨op, by simp [State.op?, hm, ho]⟩
  | none => exact .inr ⟨m.name, by simp [step, hm, ho]⟩

theorem step_running_within (hp : p.defect? = none) (hs : s.Within (.known p))
    (h : step p s = .running t) : t.Within (.known p) := by
  rcases hs.op_cases with ⟨op, ho⟩ | ⟨name, hn⟩
  · have := step_sound hp hs ho
    rwa [h] at this
  · rw [h] at hn
    cases hn

theorem step_finished_within (hp : p.defect? = none) (hs : s.Within (.known p))
    {r : Except Fault (Option Value)} (h : step p s = .finished w r) :
    w.memory.Within (.known p) := by
  rcases hs.op_cases with ⟨op, ho⟩ | ⟨name, hn⟩
  · have := step_sound hp hs ho
    rw [h] at this
    exact this.1
  · rw [h] at hn
    cases hn
    exact hs.memory

/-! ## Calls one after the other -/

/-- A call of a method that exists, with as many arguments as it takes, all of them known. -/
structure Admissible (p : Program) (method : Nat) (args : List Value) : Prop where
  exists_method : ∃ m, p.methods[method]? = some m ∧ args.length = m.type.argSlots
  known : ∀ v ∈ args, v.Known p

/-- The worlds that admissible calls lead to, one call after the other; a call that fails leaves its
world behind, too. -/
inductive Session (p : Program) : World → Prop
  | start : Session p (World.ofProgram p)
  | call {w w' : World} {method fuel : Nat} {args : List Value} {r : Except Fault (Option Value)} :
      Session p w → Admissible p method args → callMethod p fuel w method args = some (w', r) →
        Session p w'

/-- A call reaches an operation that ends it with a fault. -/
def FaultsAt (p : Program) (w : World) (method : Nat) (args : List Value) (op : Op) (f : Fault) :
    Prop :=
  ∃ start s w', enter p 0 method args .pushed = .ok start ∧ Steps p ⟨start, [], w⟩ s ∧
    s.op? p = some op ∧ step p s = .finished w' (.error f)

theorem Admissible.enter (h : Admissible p method args) :
    ∃ f, enter p 0 method args .pushed = .ok f ∧ f.Within (.known p) := by
  obtain ⟨m, hm, hl⟩ := h.exists_method
  have he : Machine.enter p 0 method args .pushed =
      .ok { method, args, locals := m.body.locals.map (defaultValue p.records), use :=
              .pushed } := by
    simp [Machine.enter, hm, hl, maxDepth]
  exact ⟨_, he, enter_within he h.known⟩

theorem Session.within (hp : p.defect? = none) (h : Session p w) : w.memory.Within (.known p) := by
  induction h with
  | start =>
    refine ⟨.ofStatics (Scope.known p).kept _, fun i (hi : i < p.statics.length) => .inl ?_⟩
    simpa [World.ofProgram, Memory.ofStatics] using hi
  | call _ ha hc ih =>
    obtain ⟨f, hf, hF⟩ := ha.enter
    rw [callMethod, hf] at hc
    obtain ⟨t, ht, he⟩ := steps_of_run hc
    have hs : t.Within (.known p) :=
      ht.invariant (fun _ _ => step_running_within hp) ⟨hF, by simp, ih⟩
    exact step_finished_within hp hs he

/-- A valid program names only what exists: in every admissible call of a session, no operation ends
with a fault that validity rules out, and a call that fails does so at an operation or behind the
last one. -/
theorem valid_program_names_what_exists (hp : p.defect? = none) (hw : Session p w)
    (ha : Admissible p method args) :
    (∀ op f, FaultsAt p w method args op f → ruledOut op f = false) ∧
      ∀ fuel w' f, callMethod p fuel w method args = some (w', .error f) →
        (∃ op, FaultsAt p w method args op f) ∨ ∃ name, f = .ranPastEnd name := by
  obtain ⟨start, hstart, hS⟩ := ha.enter
  have sound : ∀ s, Steps p ⟨start, [], w⟩ s → s.Within (.known p) := fun s h =>
    h.invariant (fun _ _ => step_running_within hp) ⟨hS, by simp, hw.within hp⟩
  constructor
  · rintro op f ⟨start', s, w', hstart', hsteps, hop, hstep⟩
    rw [hstart] at hstart'
    cases hstart'
    have := step_sound hp (sound s hsteps) hop
    rw [hstep] at this
    exact this.2 f rfl
  · intro fuel w' f h
    rw [callMethod, hstart] at h
    obtain ⟨t, ht, he⟩ := steps_of_run h
    rcases (sound t ht).op_cases with ⟨op, ho⟩ | ⟨name, hn⟩
    · exact .inl ⟨op, start, t, w', hstart, ht, ho, he⟩
    · rw [he] at hn
      cases hn
      exact .inr ⟨name, rfl⟩

/-- A method that passes the address of a static object to another one, which reads a field of it
and jumps. -/
def fieldOfStatic : Program where
  records := [⟨"pair", "pair", [⟨"a", .int .w8⟩, ⟨"b", .int .w32⟩], false⟩]
  statics := [⟨"origin", .record 0, none⟩]
  methods :=
    [⟨"main", "main", .exported, ⟨[], .int .w32, false⟩, [],
      { ops := [.loadStaticAddress 0, .call 1 1, .ret] }⟩,
     ⟨"second", "second", .internal, ⟨[.opaquePointer], .int .w32, false⟩, ["at"],
      { locals := [.int .w32]
        ops := [.loadArg 0, .fieldAddress 0 1, .loadIndirect (.int .w32), .storeLocal 0,
          .branch 0, .label 0,
                .loadLocal 0, .ret]
        labelCount := 1 }⟩]

theorem fieldOfStatic_names_what_exists :
    fieldOfStatic.defect? = none ∧
      ∀ op f, FaultsAt fieldOfStatic (World.ofProgram fieldOfStatic) 0 [] op f →
        ruledOut op f = false := by
  have hp : fieldOfStatic.defect? = none := by decide
  have ha : Admissible fieldOfStatic 0 [] := ⟨⟨_, rfl, rfl⟩, by simp⟩
  exact ⟨hp, (valid_program_names_what_exists hp .start ha).1⟩

end Stackify.Machine
