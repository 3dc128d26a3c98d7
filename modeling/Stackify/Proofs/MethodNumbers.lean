import Stackify.Proofs.FrameSteps
import Stackify.Proofs.Interning
import Stackify.Proofs.Names
import Stackify.Proofs.SwitchDispatch
import Stackify.Proofs.ThrowChains

/-!
Numbers of methods.

A function with a body becomes the method that has its number, and code refers to it by that number.
The wrappers of functions that return an object through a pointer stand behind all of these, in
order. A wrapper calls the method that it wraps with the address of a new object, and what the call
leaves there is the result (`wrapper_run_iff`):

    (∃ fuel, callMethod p fuel w k args = some (w', r)) ↔
      ∃ x, CallEnds p (wrapped ..) w' x ∧ r = x.map (·'s object)
-/

namespace Stackify.Machine

open Code (Op Method Program Ty)
open List Option

variable {p : Program} {m : Method} {s t u : State} {w : World} {f : Frame} {d fuel : Nat}
  {locals stack : List Value} {r : Except Fault (Option Value)}

/-! ## Ends of calls -/

/-- How a call that is under way ends: with a failure, or in the state that its caller goes on
from. -/
inductive CallEnds (p : Program) (s : State) : World → Except Fault State → Prop
  | fails {t : State} {w : World} {f : Fault} :
      During p s t → step p t = .finished w (.error f) → CallEnds p s w (.error f)
  | returns {t u : State} :
      During p s t → step p t = .running u → u.depth < s.depth → CallEnds p s u.world (.ok u)

theorem During.steps (h : During p s t) : Steps p s t := by
  induction h with
  | start => exact .refl p s
  | step _ hn _ ih => exact ih.tail hn

theorem During.depth_le (h : During p s t) : s.depth ≤ t.depth := by
  cases h with
  | start => exact Nat.le_refl _
  | step _ _ hd => exact hd

/-- A run stays inside the current call or leaves it at some point. -/
theorem Steps.during (h : Steps p s t) :
    During p s t ∨ ∃ t' u, During p s t' ∧ step p t' = .running u ∧ u.depth < s.depth ∧
      Steps p u t := by
  induction h with
  | refl => exact .inl .start
  | @tail b c _ hn ih =>
    rcases ih with hb | ⟨t', u, ht, hu, hd, hsteps⟩
    · rcases Nat.lt_or_ge c.depth s.depth with hc | hc
      · exact .inr ⟨b, c, hb, hn, hc, .refl p c⟩
      · exact .inl (.step hb hn hc)
    · exact .inr ⟨t', u, ht, hu, hd, hsteps.tail hn⟩

theorem run_iff_of_steps {e : World × Except Fault (Option Value)} (h : Steps p s t) :
    (∃ fuel, run p fuel s = some e) ↔ ∃ fuel, run p fuel t = some e := by
  induction h with
  | refl => rfl
  | @tail b c _ hn ih =>
    rw [ih]
    have hn : step p b = .running c := hn
    constructor
    · rintro ⟨fuel, h⟩
      cases fuel with
      | zero => cases h
      | succ fuel =>
        rw [run, hn] at h
        exact ⟨fuel, h⟩
    · rintro ⟨fuel, h⟩
      exact ⟨fuel + 1, by rw [run, hn]; exact h⟩

theorem run_unique {e e' : World × Except Fault (Option Value)} {fuel' : Nat}
    (h : run p fuel s = some e) (h' : run p fuel' s = some e') : e = e' := by
  have h := run_add h fuel'
  rw [Nat.add_comm, run_add h' fuel] at h
  exact (some.inj h).symm

/-- Only the outermost call ends a run without a failure. -/
theorem depth_of_finished {result : Option Value} (h : step p s = .finished w (.ok result)) :
    s.depth = 0 := by
  rcases step_cases p s with ⟨f, hend, -⟩ | ⟨m, op, -, -, hgoes⟩
  · cases h.symm.trans hend
  · rw [h] at hgoes
    cases hgoes with
    | ends hc => exact congrArg length hc

/-- A run that starts inside a call goes on from where the call ends. -/
theorem run_iff_callEnds (hs : 0 < s.depth) :
    (∃ fuel, run p fuel s = some (w, r)) ↔
      (∃ f, CallEnds p s w (.error f) ∧ r = .error f) ∨
        ∃ w' u, CallEnds p s w' (.ok u) ∧ ∃ fuel, run p fuel u = some (w, r) := by
  constructor
  · rintro ⟨fuel, h⟩
    obtain ⟨t, ht, hend⟩ := steps_of_run h
    rcases ht.during with ht | ⟨t', u, ht, hu, hd, hsteps⟩
    · cases r with
      | error f => exact .inl ⟨f, .fails ht hend, rfl⟩
      | ok v =>
        exact absurd (depth_of_finished hend) (Nat.ne_of_gt (Nat.lt_of_lt_of_le hs ht.depth_le))
    · exact .inr ⟨_, u, .returns ht hu hd, run_of_steps hsteps hend⟩
  · rintro (⟨f, h, rfl⟩ | ⟨w', u, h, hrun⟩)
    · cases h with
      | fails ht hend => exact run_of_steps ht.steps hend
    · cases h with
      | returns ht hu _ => exact (run_iff_of_steps (ht.steps.tail hu)).mpr hrun

/-- The frames below a call wait until it ends, and only what pointers lead to changes in them. -/
theorem During.waits (h : During p s t) (hd : d < s.depth) (hf : s.frames[d]? = some f) :
    ∃ g, t.frames[d]? = some g ∧ g.bare = f.bare ∧ g.locals.length = f.locals.length := by
  induction h with
  | start => exact ⟨f, hf, rfl, rfl⟩
  | @step t u ht hn hu ih =>
    obtain ⟨g, hg, hbare, hlen⟩ := ih
    obtain ⟨m, op, hm, ho⟩ := exists_op_of_running hn
    obtain ⟨g', hg', hkept, hcontrol⟩ := step_frame hm ho hn hg (by omega)
    refine ⟨g', hg', ?_, hkept.length.trans hlen⟩
    have ht := ht.depth_le
    cases hcontrol with
    | waits _ _ h => exact h.trans hbare
    | returns | catches | calls | goesOn | jumps => omega

/-! ## Wrappers -/

theorem does_loadArgs (hm : p.methods[s.current.method]? = some m) {n : Nat}
    (hn : n ≤ s.current.args.length) :
    Does p m s ((List.range n).map .loadArg) ⟨locals, stack⟩ ⟨locals,
      (s.current.args.take n).reverse ++ stack⟩ := by
  induction n with
  | zero => exact .nil _
  | succ n ih =>
    have hv := getElem?_eq_getElem (Nat.lt_of_succ_le hn)
    rw [range_succ, map_append, take_add_one, hv, reverse_append]
    exact (ih (Nat.le_of_succ_le hn)).append (does_loadArg hm hv)

variable {args : List Value} {pc i k : Nat}

theorem State.popMany_at {next : State → List Value → Action} :
    (s.at ⟨locals, args.reverse ++ stack⟩ pc).popMany args.length next =
      next (s.at ⟨locals, stack⟩ pc) args := by
  have hstack : (s.at ⟨locals, args.reverse ++ stack⟩ pc).current.stack = args.reverse ++ stack :=
    rfl
  rw [State.popMany, hstack, if_pos (by simp), take_left' (by simp), drop_left' (by simp),
    reverse_reverse]
  rfl

theorem call_steps (hm : p.methods[s.current.method]? = some m)
    (ho : m.body.ops[pc]? = some (.call i args.length))
    (hf : enter p (s.depth + 1) i args .pushed = .ok f) :
    Steps p (s.at ⟨locals, args.reverse ++ stack⟩ pc) ⟨f, (s.at ⟨locals, stack⟩ pc).current ::
      s.callers, s.world⟩ := by
  refine .one ?_
  have hdepth : (s.at ⟨locals, stack⟩ pc).depth = s.depth := rfl
  rw [step_at hm ho, execute, State.popMany_at, Action.outcome, hdepth, hf]
  rfl

theorem enter_of_length_ne {frames : Nat} {use : ResultUse} (hi : p.methods[i]? = some m)
    (h : args.length ≠ m.type.argSlots) :
    enter p frames i args use = .error (.argumentCount m.name m.type.argSlots args.length) := by
  rw [enter, hi]
  exact if_pos h

/-- The call that a wrapper makes: the frame below has a new object in its only local, whose address
comes before the arguments. -/
def wrapped (p : Program) (ret : Ty) (body : Method) (wrapper method : Nat) (w : World)
    (args : List Value) : State :=
  ⟨{ method, args := .pointer (.ofLocal 0 0 []) :: args, locals :=
       body.body.locals.map (defaultValue p.records) },
    [{ method := wrapper, args, locals := [defaultValue p.records ret], pc := args.length + 2 }], w⟩

/-- A wrapper of a method, for as many arguments. -/
structure IsWrapper (m : Method) (ret : Ty) (method args : Nat) : Prop where
  locals : m.body.locals = [ret]
  ops : m.body.ops =
    [.initLocal 0, .loadLocalAddress 0] ++ (List.range args).map .loadArg ++
      [.call method (args + 1), .loadLocal 0, .ret]
  regions : m.body.regions = []
  ret : m.type.ret = ret

theorem IsWrapper.codeAt {ret : Ty} {n : Nat} (h : IsWrapper m ret i n) :
    ∃ front, front = [.initLocal 0, .loadLocalAddress 0] ++ (List.range n).map .loadArg ∧
      0 + front.length = n + 2 ∧ CodeAt m 0 front ∧ CodeAt m (n + 2)
        [.call i (n + 1), .loadLocal 0, .ret] := by
  have hat : CodeAt m 0 m.body.ops := List.prefix_rfl
  rw [h.ops] at hat
  have hlength : 0 + ([Op.initLocal 0, .loadLocalAddress 0] ++
      (List.range n).map Op.loadArg).length = n + 2 := by
    simp only [length_append, length_map, length_range, length_cons, length_nil]
    omega
  exact ⟨_, rfl, hlength, hat.left, hlength ▸ hat.right⟩

theorem ret_outcome {result : Option Value} (h : s.callers = []) :
    (Action.ret s result).outcome p m = .finished s.world (.ok result) := by
  rw [Action.outcome, h]

section
variable {ret : Ty} {body : Method} {w' : World}
variable (hk : p.methods[k]? = some m) (hm : IsWrapper m ret i args.length)
include hk hm

theorem wrapper_steps (hi : p.methods[i]? = some body)
    (hargs : args.length + 1 = body.type.argSlots) :
    Steps p ⟨{ method := k, args, locals := [defaultValue p.records ret] }, [], w⟩
      (wrapped p ret body k i w args) := by
  let s : State := ⟨{ method := k, args, locals := [defaultValue p.records ret] }, [], w⟩
  let address : Value := .pointer (.ofLocal 0 0 [])
  let object := [defaultValue p.records ret]
  have hinit : Does p m s [.initLocal 0] ⟨object, []⟩ ⟨object, []⟩ := by
    refine .one hk fun pc => ?_
    rw [execute, State.at_depth, State.setLocal_at (by simp [object]), hm.locals]
    rfl
  have hloads : Does p m s ((List.range args.length).map .loadArg) ⟨object, [address]⟩
      ⟨object, _⟩ :=
    does_loadArgs hk (Nat.le_refl _)
  have hpushed := (hinit.cons (does_loadLocalAddress hk (by simp [object]))).append hloads
  have hf : enter p (s.depth + 1) i (address :: args) .pushed = .ok _ :=
    enter_eq_ok.mpr ⟨body, hi, hargs, show 1 < maxDepth by decide, rfl⟩
  obtain ⟨front, rfl, hlength, hat, hrest⟩ := hm.codeAt
  have hcall : Steps p (s.at ⟨object, (address :: args).reverse ++ []⟩ (args.length + 2)) _ :=
    call_steps hk hrest.head hf
  rw [reverse_cons, append_nil] at hcall
  rw [show s.current.args = args from rfl, take_length] at hpushed
  exact Steps.trans (hlength ▸ hpushed 0 hat) hcall

/-- What is left of a wrapper when the call that it makes returns. -/
theorem wrapper_rest (h : CallEnds p (wrapped p ret body k i w args) w' (.ok u)) :
    ∃ v, u.current.locals[0]? = some v ∧
      ∃ fuel, run p fuel u = some (w', .ok (if ret.isVoid then none else some v)) := by
  cases h with
  | @returns t _ ht hu hd =>
    have hdepth : u.depth = 0 := Nat.lt_one_iff.mp hd
    obtain ⟨f, hf, hbare, hlen⟩ := ht.waits (d := 0) (Nat.zero_lt_one) rfl
    obtain ⟨m', op, hm', ho⟩ := exists_op_of_running hu
    obtain ⟨g, hg, hkept, hcontrol⟩ := step_frame hm' ho hu hf (Nat.zero_le _)
    have ht : 1 ≤ t.depth := ht.depth_le
    have hmethod : p.methods[f.method]? = some m := (congrArg (p.methods[·.method]?) hbare).trans hk
    -- no range of the wrapper is protected, so that it goes on only if the call returns
    obtain ⟨vs, hg'⟩ : ∃ vs, g.bare = { f.bare with pc := f.pc + 1, stack := vs ++ f.stack } := by
      cases hcontrol with
      | returns vs _ _ _ h => exact ⟨vs, h⟩
      | catches _ _ hpc => simp [hmethod, handler?, coveringRegions, hm.regions] at hpc
      | waits | calls | goesOn | jumps => omega
    cases hg.symm.trans (hdepth ▸ u.frames_depth)
    have hpc : u.current.pc = args.length + 3 :=
      (congrArg Frame.pc hg').trans (congrArg (·.pc + 1) hbare)
    obtain ⟨v, hv⟩ := length_eq_one_iff.mp (hkept.length.trans hlen)
    have hv : u.current.locals[0]? = some v := by rw [hv]; rfl
    obtain ⟨-, -, -, -, hat⟩ := hm.codeAt
    have hu : p.methods[u.current.method]? = some m := hkept.method ▸ hmethod
    have hload : Does p m u [.loadLocal 0] ⟨_, u.current.stack⟩ _ := does_loadLocal hu hv
    have hload := hload _ (CodeAt.left (b := [.ret]) hat.tail)
    rw [← hpc] at hload
    refine ⟨v, hv, run_of_steps hload ?_⟩
    have hcallers : u.callers = [] := length_eq_zero_iff.mp hdepth
    rw [hpc, length_singleton, step_at hu hat.tail.tail.head, execute, hm.ret, State.pop_cons rfl]
    split <;> exact ret_outcome hcallers

/-- A wrapper ends as the call that it makes, and returns what this leaves in the object. -/
theorem wrapper_run_iff (hi : p.methods[i]? = some body) (htype : m.type.argSlots = args.length)
    (hargs : args.length + 1 = body.type.argSlots) :
    (∃ fuel, callMethod p fuel w k args = some (w', r)) ↔
      ∃ x, CallEnds p (wrapped p ret body k i w args) w' x ∧
        r = x.map fun u => if ret.isVoid then none else u.current.locals[0]? := by
  have henter : enter p 0 k args .pushed = .ok _ :=
    enter_eq_ok.mpr ⟨m, hk, htype.symm, show 0 < maxDepth by decide, rfl⟩
  rw [hm.locals] at henter
  simp only [callMethod, henter]
  have hdepth : 0 < (wrapped p ret body k i w args).depth := Nat.zero_lt_one
  refine (run_iff_of_steps (wrapper_steps hk hm hi hargs)).trans
    ((run_iff_callEnds hdepth).trans ?_)
  constructor
  · rintro (⟨f, h, rfl⟩ | ⟨w₁, u, h, fuel, hrun⟩)
    · exact ⟨.error f, h, rfl⟩
    · obtain ⟨v, hv, _, hrest⟩ := wrapper_rest hk hm h
      obtain ⟨rfl, rfl⟩ := Prod.mk.inj (run_unique hrun hrest)
      exact ⟨.ok u, h, by rw [Except.map, hv]⟩
  · rintro ⟨f | u, h, rfl⟩
    · exact .inl ⟨f, h, rfl⟩
    · obtain ⟨v, hv, hrest⟩ := wrapper_rest hk hm h
      exact .inr ⟨w', u, h, by rw [Except.map, hv]; exact hrest⟩

end

end Stackify.Machine

namespace Stackify.Lower

open Code (Op Method Program blockAt)
open Machine (Value State World Fault CodeAt CallEnds IsWrapper callMethod enter wrapped)
open Ssa (Module FunctionType)
open Stackify.Flow (Node NodeId Ref)
open List Option

variable {m : Module} {o : Options} {d : Declared} {p : Program} {e : MethodEntry} {i k : Nat}

/-! ## Numbers of wrappers -/

/-- Functions that return through a pointer, and only these, have wrappers, which are numbered in
order. -/
structure WrapperNumbers (o : Options) (first : Nat) (es : List MethodEntry) : Prop where
  numbers : es.filterMap (·.wrapper) = range' first (es.filterMap (·.wrapper)).length
  wraps : ∀ e ∈ es, e.wrapper.isSome = (o.publicWrappers && e.function.structReturn?.isSome)

theorem declareMethods_numbered {r : Resolve.Resolver} {w : Nat} {scope : Name.Scope}
    {fs : List Ssa.Function} {es : List MethodEntry}
    (h : declareMethods o r i w scope fs = .ok es) : WrapperNumbers o w es := by
  induction fs generalizing i w scope es with
  | nil =>
    cases h
    exact ⟨rfl, List.forall_mem_nil _⟩
  | cons f fs ih =>
    rw [declareMethods] at h
    split at h
    · cases h
    · cases h
    · obtain ⟨rest, hrest, h⟩ := bind_eq_ok.mp h
      cases h
      obtain ⟨hnumbers, hwraps⟩ := ih hrest
      cases hw : o.publicWrappers && f.structReturn?.isSome with
      | true =>
        rw [hw, if_pos rfl] at hnumbers
        refine ⟨?_, forall_mem_cons.mpr ⟨hw.symm, hwraps⟩⟩
        rw [filterMap_cons_some (by rfl), length_cons, range'_succ, ← hnumbers]
      | false =>
        rw [hw, if_neg Bool.false_ne_true] at hnumbers
        exact ⟨hnumbers, forall_mem_cons.mpr ⟨hw.symm, hwraps⟩⟩

theorem WrapperNumbers.markThrowing {first : Nat} {es : List MethodEntry} {throws : List Bool}
    (h : WrapperNumbers o first es) (hlen : throws.length = es.length) :
    WrapperNumbers o first (markThrowing es throws) := by
  have hfst : (es.zip throws).map Prod.fst = es := map_fst_zip (Nat.le_of_eq hlen.symm)
  have hmap : (Lower.markThrowing es throws).filterMap (·.wrapper) = es.filterMap (·.wrapper) := by
    rw [Lower.markThrowing, filterMap_map]
    conv_rhs => rw [← hfst, filterMap_map]
    rfl
  refine ⟨by rw [hmap]; exact h.numbers, fun e he => ?_⟩
  obtain ⟨c, hc, rfl⟩ := List.mem_map.mp he
  exact h.wraps c.1 (hfst ▸ mem_map_of_mem hc)

theorem declare_numbered (hd : declare m o = .ok d) :
    WrapperNumbers o d.methods.length d.methods := by
  obtain ⟨es, -, -, hes, hmethods⟩ := declare_eq_ok hd
  have h :=
    (declareMethods_numbered hes).markThrowing (throwing_length ⟨m, o, d.resolver, d.statics, es⟩)
  rw [← (declare_declaration hd).functions, length_map] at h
  rwa [hmethods] at h ⊢

/-- The wrapper of a function stands where it was declared, and there are no further methods. -/
theorem ProgramCode.wrapper (hd : declare m o = .ok d) (hp : ProgramCode d p) :
    p.methods.length = d.methods.length + (d.methods.filterMap (·.wrapper)).length ∧
      ∀ e ∈ d.methods, ∀ k, e.wrapper = some k → ∃ w, p.methods[k]? = some w ∧
        wrapperMethod d e = .ok w := by
  obtain ⟨ms, ws, hms, hbodies, hwrappers⟩ := hp.methods
  have hnumbers : (d.methods.filter (·.wrapper.isSome)).map (·.wrapper) =
      (d.methods.filterMap (·.wrapper)).map some := by
    rw [map_filterMap_some_eq_filter_map_isSome, List.filter_map]
    rfl
  constructor
  · rw [hms, length_append, ← hbodies.length_eq, ← hwrappers.length_eq]
    simpa using congrArg length hnumbers
  · intro e he k hk
    have hmem : e ∈ d.methods.filter (·.wrapper.isSome) := mem_filter.mpr ⟨he, by rw [hk]; rfl⟩
    obtain ⟨j, hj⟩ := getElem?_of_mem hmem
    obtain ⟨w, hw, hcode⟩ := forall₂_some_left hwrappers hj
    have hk' := congrArg (·[j]?) hnumbers
    rw [(declare_numbered hd).numbers] at hk'
    simp only [getElem?_map, hj, map_some, hk] at hk'
    obtain ⟨number, hrange, hnumber⟩ := map_eq_some_iff.mp hk'.symm
    obtain rfl := some.inj hnumber
    obtain ⟨-, rfl⟩ := List.getElem?_eq_some_iff.mp hrange
    refine ⟨w, ?_, hcode⟩
    rw [hms, getElem_range', Nat.one_mul, hbodies.length_eq,
      getElem?_append_right (Nat.le_add_right _ _), Nat.add_sub_cancel_left, hw]

namespace Context

variable {c : Context} {n : Node} {id : NodeId} {method : Method} {type : FunctionType}
  {args : List Ref} {b : Flow.Block}

/-- The type and the arguments of a call. -/
inductive Site (n : Node) : FunctionType → List Ref → Prop
  | call {type : FunctionType} : n.kind = .call type → Site n type n.operands.dropLast
  | invoke {type : FunctionType} {normal unwind : Ssa.BlockId} :
      n.kind = .invoke type normal unwind → Site n type (n.operands.take (n.operands.length - 3))

/-- The code of a call stands in the block that makes it. -/
theorem call_code (hc : BodyCode c p.consts method.body) (hb : c.graph.blocks[i]? = some b)
    (hid : id ∈ b.instructions) (hn : c.graph.node? id = some n) (hsite : Site n type args) :
    ∃ target pc code, c.declared.callTarget (n.location c.graph.location) (callee n) = .ok target ∧
      CallCode c p.consts id n type (callee n) args target code ∧ CodeAt method pc code ∧
      ∀ k < code.length, blockAt c.graph.blocks.length method.body.ops (pc + k) = some i := by
  obtain ⟨z, pc, _, _, hz, -, hcode, hat, hin⟩ := node_code hc hb hid hn
  rw [← hz]
  cases hsite with
  | call hk =>
    cases hcode with
    | call hk' ht hp =>
      cases hk.symm.trans hk'
      exact ⟨_, pc, _, ht, hp, hat, hin⟩
    | result hp => cases hp <;> simp_all
    | jump hj => cases hj <;> simp_all
    | _ => simp_all
  | invoke hk =>
    cases hcode with
    | invoke hk' ht _ hp =>
      cases hk.symm.trans hk'
      exact ⟨_, pc, _, ht, hp, hat.left, fun k hk => hin k (by simp only [length_append]; omega)⟩
    | guarded hk' ht _ _ _ _ _ hp =>
      cases hk.symm.trans hk'
      refine ⟨_, _, _, ht, hp, hat.right.tail.left, fun k hk => ?_⟩
      rw [Nat.add_assoc, Nat.add_assoc]
      exact hin _ (by simp only [length_append, length_cons]; omega)
    | result hp => cases hp <;> simp_all
    | jump hj => cases hj <;> simp_all
    | _ => simp_all

end Context

/-- The code of a method refers to functions by their declared numbers. -/
structure Refers (c : Context) (p : Program) (method : Method) : Prop where
  /-- Where a block calls a function by name, the call of its method stands behind the arguments. -/
  call : ∀ e ∈ c.declared.methods, ∀ i b, c.graph.blocks[i]? = some b →
    ∀ id ∈ b.instructions, ∀ n type args, c.graph.node? id = some n → Context.Site n type args →
      Context.callee n = .function e.function.name →
    ∃ pc front rest, CodeAt method pc (front ++ .call e.index e.type.argSlots :: rest) ∧
      Context.ArgumentCode c p.consts args e.type.params.length e.type.variadic front ∧
      blockAt c.graph.blocks.length method.body.ops (pc + front.length) = some i
  /-- The code for a function as an operand. -/
  pointer :
    ∀ e ∈ c.declared.methods, ∀ ops, Context.Pushes c p.consts (.function e.function.name) ops →
      ops = [.loadMethodPointer e.index]

theorem BodyCode.refers {c : Context} {method : Method} (hd : Declaration m o c.declared)
    (hnames : (m.functions.map (·.name)).Nodup) (hc : BodyCode c p.consts method.body) :
    Refers c p method := by
  have hmethod (e) (he : e ∈ c.declared.methods) : c.declared.method? e.function.name = some e := by
    obtain ⟨i, hi⟩ := getElem?_of_mem he
    exact hd.method?_of_nodup hnames hi
  refine ⟨fun e he i b hb id hid n type args hn hsite hcallee => ?_, fun e he ops hops => ?_⟩
  · obtain ⟨target, pc, code, htarget, hcode, hat, hin⟩ := Context.call_code hc hb hid hn hsite
    rw [hcallee, Declared.callTarget, hmethod e he] at htarget
    cases htarget
    cases hcode with
    | method _ _ hargs => exact ⟨pc, _, _, hat, hargs, hin _ (by simp)⟩
  · cases hops with
    | argument h => cases h
    | method he' =>
      cases he'.symm.trans (hmethod e he)
      rfl

/-! ## Methods of a program -/

theorem isWrapper_of_wrapperMethod {wrapper : Method} (h : wrapperMethod d e = .ok wrapper) :
    ∃ ret, e.function.structReturn?.bind d.resolver.lookup? = some ret ∧
      (e.type.params ≠ [] → IsWrapper wrapper ret e.index wrapper.type.argSlots ∧
        wrapper.type.argSlots + 1 = e.type.argSlots) := by
  unfold wrapperMethod at h
  split at h
  · cases h
  · next ret hret =>
    cases h
    refine ⟨ret, hret, fun hparams => ?_⟩
    have hslots : Code.MethodType.argSlots ⟨e.type.params.drop 1, ret, e.type.variadic⟩ + 1 =
        e.type.argSlots := by
      obtain ⟨_, _, hparams⟩ := exists_cons_of_ne_nil hparams
      simp only [Code.MethodType.argSlots, hparams, drop_succ_cons, drop_zero, length_cons]
      omega
    exact ⟨⟨rfl, hslots ▸ rfl, rfl, rfl⟩, hslots⟩

/-- What becomes of a function with a body. It is the method of its number. If it returns through a
pointer it may have a wrapper, which gives what the method leaves in a new object, or nothing where
the type of the object is void. A wrapper fails where the method does, also on a wrong number of
arguments. -/
structure MethodPlaced (m : Module) (o : Options) (d : Declared) (p : Program) (i : Nat)
    (e : MethodEntry) : Prop where
  index : e.index = i
  body : ∃ body pool pool', p.methods[i]? = some body ∧ lowerMethod d pool e = .ok (body, pool') ∧
    ∃ c : Context, c.declared = d ∧ d.graph e = .ok c.graph ∧ BodyCode c p.consts body.body ∧
      Refers c p body
  wraps : e.wrapper.isSome = true ↔ o.publicWrappers = true ∧ e.function.structReturn?.isSome = true
  wrapper : ∀ k, e.wrapper = some k →
    ∃ ret body wrapper, e.function.structReturn?.bind d.resolver.lookup? = some ret ∧
      p.methods[i]? = some body ∧ p.methods[k]? = some wrapper ∧ wrapperMethod d e = .ok wrapper ∧
    (e.type.params ≠ [] → ∀ args w, (args.length + 1 = e.type.argSlots → ∀ w' r,
        (∃ fuel, callMethod p fuel w k args = some (w', r)) ↔
          ∃ x, CallEnds p (wrapped p ret body k i w args) w' x ∧
            r = x.map fun u => if ret.isVoid then none else u.current.locals[0]?) ∧
      (args.length + 1 ≠ e.type.argSlots →
        (∃ f, enter p 1 i (.pointer (.ofLocal 0 0 []) :: args) .pushed = .error f) ∧
          ∃ f, ∀ fuel, callMethod p fuel w k args = some (w, .error f)))

/-- **Methods have the numbers that were declared.** The functions with bodies are numbered in order
and their wrappers behind them, and the program has a method for each of these numbers and no
others. -/
theorem methods_numbered {m : Module} {o : Options} {d : Declared} {p : Program}
    (hnames : (m.functions.map (·.name)).Nodup) (hd : declare m o = .ok d)
    (hp : lower m o = .ok p) :
    d.methods.map (·.function) = (m.functions.filter fun f => !f.isDeclaration) ∧
      d.methods.filterMap (·.wrapper) = range' d.methods.length
        (p.methods.length - d.methods.length) ∧
      ∀ i e, d.methods[i]? = some e → MethodPlaced m o d p i e := by
  have hdecl := declare_declaration hd
  obtain ⟨_, hd', hlower⟩ := lower_declared hp
  cases hd.symm.trans hd'
  have hcode := lowerDeclared_code hlower
  obtain ⟨hlength, hwrapper⟩ := hcode.wrapper hd
  have hnumbered := declare_numbered hd
  refine ⟨hdecl.functions, ?_, fun i e he => ?_⟩
  · rw [hlength, Nat.add_sub_cancel_left]
    exact hnumbered.numbers
  obtain ⟨body, hbody, hmethod⟩ := hcode.method he
  obtain ⟨g, slots, hg, hblocks⟩ := hmethod.body
  obtain ⟨hindex, -⟩ := hdecl.index he
  refine ⟨hindex, ?_, by rw [hnumbered.wraps e (mem_of_getElem? he), Bool.and_eq_true],
    fun k hk => ?_⟩
  · obtain ⟨ms, wrappers, hms, -, -, hmethods⟩ := lowerDeclared_eq_ok hlower
    obtain ⟨pool, pool', body', hi, hlowered, -⟩ := lowerMethods_at hms he
    have hi' : p.methods[i]? = some body' := by
      rw [hmethods]
      exact (getElem?_append_left (lt_of_getElem? hi)).trans hi
    cases hbody.symm.trans hi'
    exact ⟨body, pool, pool', hbody, hlowered, ⟨d, g, slots⟩, rfl, hg, hblocks,
      hblocks.refers hdecl hnames⟩
  · obtain ⟨wrapper, hw, hwraps⟩ := hwrapper e (mem_of_getElem? he) k hk
    obtain ⟨ret, hret, his⟩ := isWrapper_of_wrapperMethod hwraps
    refine ⟨ret, body, wrapper, hret, hbody, hw, hwraps, fun hparams args w => ?_⟩
    obtain ⟨his, hslots⟩ := his hparams
    rw [hindex] at his
    constructor
    · intro hargs w' r
      have hlen : wrapper.type.argSlots = args.length := Nat.succ.inj (hslots.trans hargs.symm)
      exact Machine.wrapper_run_iff hw (hlen ▸ his) hbody hlen (hmethod.type ▸ hargs)
    · intro hargs
      have hlen : args.length ≠ wrapper.type.argSlots := fun h => hargs (h ▸ hslots)
      refine ⟨⟨_, Machine.enter_of_length_ne hbody (hmethod.type ▸ hargs)⟩,
        .argumentCount wrapper.name wrapper.type.argSlots args.length, fun fuel => ?_⟩
      rw [callMethod, Machine.enter_of_length_ne hw hlen]

theorem clashing_numbered :
    (clashing.functions.map (·.name)).Nodup ∧ ∃ d p, declare clashing {} = .ok d ∧ lower clashing
    {} = .ok p ∧ d.methods.map (fun e => (e.index, e.wrapper, e.type.params.length)) =
      [(0, some 2, 3), (1, some 3, 3)] ∧ d.methods.filterMap (·.wrapper) = range' d.methods.length
      (p.methods.length - d.methods.length) ∧
    ∀ i e, d.methods[i]? = some e → MethodPlaced clashing {} d p i e := by
  have hnames : (clashing.functions.map (·.name)).Nodup := by decide
  obtain ⟨p, hp, -⟩ :=
    toOption_map_eq_some.mp (show (lower clashing {}).toOption.map (fun _ => ()) =
      some () by decide +kernel)
  obtain ⟨d, hd, hmethods⟩ :=
    toOption_map_eq_some.mp (show (declare clashing {}).toOption.map (fun d =>
    d.methods.map fun e => (e.index, e.wrapper, e.type.params.length)) = some [(0, some 2, 3),
      (1, some 3, 3)] by decide +kernel)
  exact ⟨hnames, d, p, hd, hp, hmethods, (methods_numbered hnames hd hp).2⟩

/-- A function whose type lacks the parameter that it returns through. -/
def untypedReturn : Module where
  functions := [{
    name := "f"
    type := { ret := .void, params := [] }
    params := [{ id := 0, ty := .pointer, attributes := [.structRet (.int 32)] }]
    blocks :=
      [{ id := 0, instructions := [{ id := 1, opcode := .ret, ty := .void, operands := [] }] }] }]

/-- Its wrapper returns, though the method does not take the address. -/
theorem wrapper_returns_without_address : ∃ p w v, lower untypedReturn {} = .ok p ∧
    callMethod p 10 (.ofProgram p) 1 [] = some (w, .ok (some v)) ∧
    ∃ f, enter p 1 0 [.pointer (.ofLocal 0 0 [])] .pushed = .error f := by
  obtain ⟨p, hp, h⟩ := toOption_map_eq_some.mp (show (lower untypedReturn {}).toOption.map (fun p =>
    ((callMethod p 10 (.ofProgram p) 1 []).map fun r => r.2.toOption.join.isSome,
      p.methods[0]?.map (·.type.argSlots))) = some (some true, some 0) by decide +kernel)
  obtain ⟨hrun, hslots⟩ := Prod.mk.inj h
  obtain ⟨⟨w, r⟩, hcall, hr⟩ := map_eq_some_iff.mp hrun
  obtain ⟨body, hbody, hslots⟩ := map_eq_some_iff.mp hslots
  obtain ⟨v, hv⟩ := isSome_iff_exists.mp hr
  refine ⟨p, w, v, hp, ?_, _, Machine.enter_of_length_ne hbody (by simp [hslots])⟩
  cases r with
  | error f => cases hv
  | ok x =>
    cases x with
    | none => cases hv
    | some x =>
      cases hv
      exact hcall

end Stackify.Lower
