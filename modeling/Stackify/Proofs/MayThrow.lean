import Mathlib.Data.List.Basic
import Mathlib.Logic.Function.Iterate
import Stackify.Proofs.Effect
import Stackify.Proofs.Lowered
import Stackify.Proofs.Steps

/-!
Which methods may throw.

The closure over calls is complete after as many rounds as there are methods (`throwing_fixed`), so
a method that is not said to throw raises nothing itself and calls only methods that are not said to
throw (`Declared.Quiet`). The code of such a method has no operation that raises an exception, and
calls only such methods (`quiet_body`). While it runs, nothing is raised:

    e ∈ d.methods → e.mayThrow = false → no operation of a call of `e` raises an exception
-/

namespace Stackify.Lower

open Code (Op Program)
open Stackify.Flow (Node Graph Ref)
open Ssa (Module Function Operand Instruction)
open List Option

/-! ## The closure -/

/-- One list of answers says yes wherever the other does. -/
def Covers (throws throws' : List Bool) : Prop :=
  Forall₂ (fun a b => a = true → b = true) throws throws'

variable {x y : List Bool} {i len : Nat} {F : List Bool → List Bool} {d : Declared}

theorem Covers.eq_or_count_lt (h : Covers x y) : y = x ∨ y.count false < x.count false := by
  induction h with
  | nil => exact .inl rfl
  | @cons a b _ _ hab _ ih =>
    rcases ih with rfl | hlt
    · cases a <;> cases b <;> simp_all
    · refine .inr ?_
      cases a <;> cases b <;> simp_all
      omega

theorem Covers.trans {z : List Bool} (h : Covers x y) (h' : Covers y z) : Covers x z := by
  induction h generalizing z with
  | nil => exact h'
  | cons hab _ ih =>
    cases h' with
    | cons hbc h' => exact .cons (fun ha => hbc (hab ha)) (ih h')

theorem Covers.of_some (h : Covers x y) (hy : y[i]? = some false) : x[i]? = some false := by
  obtain ⟨a, ha, hab⟩ := forall₂_some_right h hy
  cases a with
  | false => exact ha
  | true => cases hab rfl

/-- Rounds that only ever add answers come to an end once every answer could have been added. -/
theorem iterate_fixed (hF : ∀ x, x.length = len → Covers x (F x)) :
    ∀ (n : Nat) (x : List Bool), x.length = len → x.count false ≤ n → F (F^[n] x) = F^[n] x := by
  intro n
  induction n with
  | zero =>
    intro x hlen hcount
    rcases (hF x hlen).eq_or_count_lt with h | h
    · exact h
    · omega
  | succ n ih =>
    intro x hlen hcount
    rw [Function.iterate_succ_apply]
    rcases (hF x hlen).eq_or_count_lt with h | h
    · rw [h, Function.iterate_fixed h, h]
    · exact ih (F x) ((hF x hlen).length_eq.symm.trans hlen) (by omega)

theorem iterate_covers (hF : ∀ x, x.length = len → Covers x (F x)) :
    ∀ (n : Nat) (x : List Bool), x.length = len → Covers x (F^[n] x) := by
  intro n
  induction n with
  | zero => exact fun x _ => forall₂_same.mpr fun _ _ h => h
  | succ n ih =>
    intro x hlen
    rw [Function.iterate_succ_apply]
    have h := hF x hlen
    exact h.trans (ih (F x) (h.length_eq.symm.trans hlen))

theorem throwRound_covers {entries : List (Bool × List Nat)} {throws : List Bool}
    (hlen : throws.length = entries.length) : Covers throws (throwRound entries throws) := by
  have h (g : Bool × List Nat → Bool) (xs : List Bool) (es : List (Bool × List Nat))
      (hlen : xs.length = es.length) : Covers xs ((es.zip xs).map fun (e, t) => t || g e) := by
    induction xs generalizing es with
    | nil => cases es <;> exact .nil
    | cons x xs ih =>
      cases es with
      | nil => cases hlen
      | cons e es => exact .cons (fun hx => by simp [hx]) (ih es (Nat.succ.inj hlen))
  exact h (fun e => !e.1 && e.2.any fun i => throws.getD i false) throws entries hlen

/-- What the closure takes from each method: whether it promises not to throw, and what it calls. -/
def Declared.throwEntries (d : Declared) : List (Bool × List Nat) :=
  d.methods.map fun e => (e.function.isNoUnwind, d.calls e.function)

/-- The methods that raise exceptions themselves. -/
def Declared.throwStart (d : Declared) : List Bool :=
  d.methods.map fun e => !e.function.isNoUnwind && e.function.instructions.any d.raises

theorem throwing_eq_iterate (d : Declared) :
    d.throwing = (throwRound d.throwEntries)^[d.methods.length] d.throwStart := by
  rw [Declared.throwing, foldl_const, length_range]
  rfl

theorem throwStart_length (d : Declared) : d.throwStart.length = d.throwEntries.length := by
  simp [Declared.throwStart, Declared.throwEntries]

/-- A further round changes nothing. -/
theorem throwing_fixed (d : Declared) : throwRound d.throwEntries d.throwing = d.throwing := by
  rw [throwing_eq_iterate]
  refine iterate_fixed (fun x => throwRound_covers) _ _ (throwStart_length d) ?_
  exact Nat.le_trans count_le_length (by simp [Declared.throwStart])

/-- What the closure says about the methods that it leaves out. -/
theorem throwing_closed {e : MethodEntry} (he : d.methods[i]? = some e)
    (hi : d.throwing[i]? = some false) (hsilent : e.function.isNoUnwind = false) :
    (∀ x ∈ e.function.instructions, d.raises x = false) ∧
      ∀ c ∈ d.calls e.function, d.throwing.getD c false = false := by
  have hstart : d.throwStart[i]? = some false := by
    have hcovers := iterate_covers (fun x => throwRound_covers) d.methods.length d.throwStart
        (throwStart_length d)
    rw [← throwing_eq_iterate] at hcovers
    exact hcovers.of_some hi
  constructor
  · intro x hx
    simp only [Declared.throwStart, getElem?_map, he, map_some, hsilent, Bool.not_false,
      Bool.true_and, some.injEq, List.any_eq_false, Bool.not_eq_true] at hstart
    exact hstart x hx
  · intro c hc
    have hentry : d.throwEntries[i]? = some (false, d.calls e.function) := by
      simp [Declared.throwEntries, he, hsilent]
    have hround : (throwRound d.throwEntries d.throwing)[i]? =
        some (false || (!false && (d.calls e.function).any fun i => d.throwing.getD i false)) := by
      have hz : (d.throwEntries.zip d.throwing)[i]? = some ((false, d.calls e.function), false) :=
        getElem?_zip_eq_some.mpr ⟨hentry, hi⟩
      rw [throwRound, getElem?_map, hz]
      rfl
    rw [throwing_fixed, hi] at hround
    simp only [Bool.not_false, Bool.true_and, Bool.false_or, some.injEq] at hround
    exact Bool.not_eq_true _ ▸ List.any_eq_false.mp hround.symm c hc

/-! ## Declared methods -/

/-- A declared method without what is known about exceptions. -/
def MethodEntry.plain (e : MethodEntry) : MethodEntry := { e with mayThrow := false }

def Declared.plain (d : Declared) : Declared :=
  { d with methods := d.methods.map MethodEntry.plain }

theorem method?_plain (d : Declared) (symbol : String) :
    d.plain.method? symbol = (d.method? symbol).map .plain := by
  unfold Declared.method? Declared.plain
  rw [Flow.lastIndex?_map]
  change ((Flow.lastIndex? (fun e => e.function.name = symbol) d.methods).bind _) = _
  cases Flow.lastIndex? (fun e => e.function.name = symbol) d.methods <;> simp

/-- The closure does not depend on its own result. -/
theorem throwing_plain (d : Declared) : d.plain.throwing = d.throwing := by
  have hraises : d.plain.raises = d.raises := by
    funext x
    simp only [Declared.raises, method?_plain, isNone_map]
  have hcalls : d.plain.calls = d.calls := by
    funext f
    have hindex : MethodEntry.index ∘ MethodEntry.plain = MethodEntry.index := rfl
    simp only [Declared.calls, method?_plain, Option.map_map, hindex]
  have hmap {α : Type} (F : MethodEntry → α) (hF : ∀ e, F e.plain = F e) :
      d.plain.methods.map F = d.methods.map F := by
    rw [Declared.plain, List.map_map]
    exact map_congr_left fun e _ => hF e
  have hlen : d.plain.methods.length = d.methods.length := by simp [Declared.plain]
  unfold Declared.throwing
  rw [hraises, hcalls, hlen, hmap _ fun _ => rfl, hmap _ fun _ => rfl]

theorem throwing_congr {d' : Declared} (h : d.plain = d'.plain) : d.throwing = d'.throwing := by
  rw [← throwing_plain d, h, throwing_plain]

theorem declare_mayThrow {m : Module} {o : Options} (h : declare m o = .ok d) :
    d.methods.map (·.mayThrow) = d.throwing := by
  unfold declare at h
  split at h
  · cases h
  · obtain ⟨statics, -, h⟩ := bind_eq_ok.mp h
    obtain ⟨methods, -, h⟩ := bind_eq_ok.mp h
    extract_lets d₀ at h
    obtain rfl := pure_eq_ok.mp h
    have hlen : d₀.throwing.length = methods.length := throwing_length d₀
    have hplain : ((methods.zip d₀.throwing).map fun x => { x.1 with mayThrow := x.2 }).map
        MethodEntry.plain = methods.map .plain := by
      conv => rhs; rw [← map_fst_zip (Nat.le_of_eq hlen.symm)]
      rw [List.map_map, List.map_map]
      rfl
    calc
      _ = (methods.zip d₀.throwing).map Prod.snd := by rw [List.map_map]; rfl
      _ = d₀.throwing := map_snd_zip (Nat.le_of_eq hlen)
      _ = Declared.throwing { d₀ with
            methods := (methods.zip d₀.throwing).map fun x => { x.1 with mayThrow := x.2 } } :=
        throwing_congr (by rw [Declared.plain, Declared.plain, hplain])

/-! ## Quiet code -/

/-- An operation that raises no exception and calls no method that may throw. -/
def Declared.Quiet (d : Declared) : Op → Prop
  | .throw | .callIndirect _ _ => False
  | .callService s _ => s ≠ .assertFailure
  | .call i _ => ∃ e, d.methods[i]? = some e ∧ e.mayThrow = false
  | _ => True

/-- A node whose code is quiet: it raises no exception and calls nothing that may throw. -/
def Declared.QuietNode (d : Declared) (n : Node) : Prop :=
  match n.kind with
  | .invoke _ _ _ | .resume | .cleanupRet none => False
  | .call _ => ∀ l target, d.callTarget l (Context.callee n) = .ok target → target.mayThrow = false
  | _ => True

theorem Declared.quiet_of_straight (d : Declared) {op : Op} (h : op.isStraight = true) :
    d.Quiet op := by
  cases op with
  | throw | callIndirect | callService | call => cases h
  | _ => trivial

namespace Context

theorem NodeOp.quiet {c : Context} {z : Surround} {n : Node} {labels : List Code.Label} {op : Op}
    (h : NodeOp c z n labels op) (hn : c.declared.QuietNode n)
    (hm : ∀ l r e, c.declared.callTarget l r = .ok (.method e) →
      c.declared.methods[e.index]? = some e) :
    c.declared.Quiet op := by
  have silent {target : CallTarget} (hcalls : c.Calls n target) : target.mayThrow = false := by
    obtain ⟨ht, ⟨_, hk⟩ | ⟨_, _, _, hk⟩⟩ := hcalls <;> rw [Declared.QuietNode, hk] at hn
    · exact hn _ _ ht
    · exact hn.elim
  cases h with
  | straight h => exact c.declared.quiet_of_straight h.straight
  | method h => exact ⟨_, hm _ _ _ h.1, silent h⟩
  | service h =>
    rintro rfl
    cases silent h
  | indirect h => cases silent h
  | label | caught | raised => trivial
  | throw hk => rcases hk with hk | hk <;> rw [Declared.QuietNode, hk] at hn <;> exact hn.elim
  | ends h => rcases h with rfl | rfl <;> trivial
  | jump h =>
    cases op with
    | branch | branchTrue | branchFalse | switchValue | leave => trivial
    | _ => cases h

end Context

/-! ## Quiet methods -/

theorem Route.mayThrow_eq_false {r : Route} (h : r ≠ .service .assertFailure) :
    r.mayThrow = false := by
  unfold Route.mayThrow
  split
  · exact absurd rfl h
  · rfl

variable {r : Resolve.Resolver} {n : Node}

theorem quietNode_of_expression {x : Ssa.Operation} (hc : n.Computes r x)
    (hx : x.opcode ∉ [.call, .invoke, .resume, .cleanupRet]) : d.QuietNode n := by
  unfold Declared.QuietNode
  split
  · next hk => exact hx (by simp [hc.opcode_of_kind hk rfl])
  · next hk => exact hx (by simp [hc.opcode_of_kind hk rfl])
  · next hk => exact hx (by simp [hc.opcode_of_kind hk rfl])
  · next hk => exact absurd (by simp [hc.opcode_of_kind hk rfl]) hx
  · trivial

theorem quietNode_of_instruction {i : Instruction} (hc : n.Computes r i.operation)
    (hi : d.raises i = false) (hcalls : ∀ name e, callee? i = some (.function name) →
      d.method? name = some e → e.mayThrow = false) :
    d.QuietNode n := by
  simp only [Declared.raises, Bool.or_eq_false_iff] at hi
  unfold Declared.QuietNode
  split
  · next hk =>
    have ho : i.opcode = .invoke := hc.opcode_of_kind hk rfl
    simp [ho] at hi
  · next hk =>
    have ho : i.opcode = .resume := hc.opcode_of_kind hk rfl
    simp [ho] at hi
  · next hk =>
    have ho : i.opcode = .cleanupRet := hc.opcode_of_kind hk rfl
    have hl : i.operands.length = 1 :=
      hc.operands.length_eq.trans (hc.fits.of_rethrow (by rw [hk]; rfl))
    simp [ho, hl] at hi
  · next hk =>
    have ho : i.opcode = .call := hc.opcode_of_kind hk rfl
    have hcallee : callee? i = some (i.operands.getLast?.getD (.const .null)) := by
      simp [callee?, ho]
    intro l target ht
    -- Only a call by name is not taken to raise an exception.
    cases hlast : i.operands.getLast? with
    | none => simp [hcallee, hlast] at hi
    | some o =>
      cases o with
      | function name =>
        have hfun : callee? i = some (.function name) := by simp [hcallee, hlast]
        have href : Context.callee n = .function name := (callee_eq_function hc).mpr hlast
        simp only [hfun, Bool.and_eq_false_iff, isNone_eq_false_iff, decide_eq_false_iff_not] at hi
        rw [href] at ht
        rcases callTarget_eq_ok ht with ⟨_, e, ⟨⟩, he, rfl⟩ | ⟨_, route, ⟨⟩, hnone,
          hroute, rfl⟩ | rfl
        · exact hcalls name e hfun he
        · have hr : route ≠ .service .assertFailure := fun h => by simp [hnone, hroute, h] at hi
          exact Route.mayThrow_eq_false hr
        · rw [Declared.callTarget] at ht
          split at ht <;> cases ht
      | _ => simp [hcallee, hlast] at hi
  · trivial

/-- What a module keeps to if its methods are to be trusted about exceptions: no function promises
silence, and no constant expression calls or raises. -/
structure Candid (m : Module) : Prop where
  unwinds : ∀ f ∈ m.functions, f.isNoUnwind = false
  expressions :
    ∀ f ∈ m.functions, ∀ x ∈ f.expressions, x.opcode ∉ [.call, .invoke, .resume, .cleanupRet]

variable {m : Module} {o : Options} {e : MethodEntry}

theorem quiet_nodes (hd : declare m o = .ok d) (hm : Candid m) (he : d.methods[i]? = some e)
    (hq : e.mayThrow = false) {g : Graph} (hg : d.graph e = .ok g) {j : Flow.NodeId}
    (hj : g.nodes[j]? = some n) : d.QuietNode n := by
  have hdecl := declare_declaration hd
  obtain ⟨-, hf⟩ := hdecl.index he
  have hthrowing (k : Nat) (e' : MethodEntry) (hk : d.methods[k]? = some e') :
      d.throwing[k]? = some e'.mayThrow := by
    rw [← declare_mayThrow hd, getElem?_map, hk, map_some]
  obtain ⟨hraises, hcalls⟩ := throwing_closed he (hq ▸ hthrowing i e he) (hm.unwinds _ hf)
  obtain ⟨blocks, nodes, moved, hshape⟩ := Declared.graph_shape hg
  rcases hshape.comesFrom hj with ⟨x, hx, -, hc⟩ | ⟨x, hx, y, hy, -, -, hc⟩
  · refine quietNode_of_instruction hc (hraises x hx) fun name e' hname he' => ?_
    have hindex := hdecl.method he'
    have hmem : e'.index ∈ d.calls e.function :=
      mem_filterMap.mpr ⟨x, hx, by simp [hname, he']⟩
    simpa [getD_eq_getElem?_getD, hthrowing _ _ hindex] using hcalls _ hmem
  · exact quietNode_of_expression hc (hm.expressions _ hf y (mem_flatMap.mpr ⟨x, hx, hy⟩))

namespace Context

variable {c : Context} {z : Surround} {ops : List Op} {rs : List Code.Region}

theorem BlocksCode.quiet {blocks : List (Flow.Block × Nat)} (h : BlocksCode c z blocks ops rs)
    (hn : ∀ j n, c.graph.node? j = some n → c.declared.QuietNode n)
    (hm : ∀ l r e, c.declared.callTarget l r = .ok (.method e) →
      c.declared.methods[e.index]? = some e) :
    ∀ op ∈ ops, c.declared.Quiet op :=
  h.forall_op (fun _ => trivial) (fun _ => trivial) (fun _ hop =>
    c.declared.quiet_of_straight hop.straight) fun _ _ _ _ _ hid hop => hop.quiet (hn _ _ hid) hm

end Context

/-- The code of a method that is not said to throw. -/
theorem quiet_body (hd : declare m o = .ok d) (hm : Candid m) {p : Program} (hp : ProgramCode d p)
    (he : d.methods[i]? = some e) (hq : e.mayThrow = false) :
    ∃ method, p.methods[i]? = some method ∧ ∀ op ∈ method.body.ops, d.Quiet op := by
  obtain ⟨method, hi, hmethod⟩ := hp.method he
  obtain ⟨g, slots, hg, hbody⟩ := hmethod.body
  obtain ⟨exception, -, hblocks⟩ := hbody.blocks
  refine ⟨method, hi, hblocks.quiet (fun j n hj => quiet_nodes hd hm he hq hg hj) fun l r e' ht =>
    ?_⟩
  exact (declare_declaration hd).callee ht

end Stackify.Lower

namespace Stackify.Machine

open Code (Op Method Program)
open List

/-! ## Calls under way -/

/-- The second state is reached from the first while the call that is current there is under way,
whatever it calls included. -/
inductive During (p : Program) (s : State) : State → Prop
  | start : During p s s
  | step {t u : State} : During p s t → step p t = .running u → s.depth ≤ u.depth → During p s u

/-- The methods of the frames, innermost first. -/
def State.methods (s : State) : List Nat := s.current.method :: s.callers.map (·.method)

theorem State.length_methods (s : State) : s.methods.length = s.depth + 1 := by
  simp [State.methods, State.depth]

variable {s t : State} {m : Method} {p : Program}

theorem SameFrames.methods (h : SameFrames s t) : t.methods = s.methods := by
  have hc : t.callers.map (·.method) = s.callers.map (·.method) := by
    simpa [Function.comp_def, Frame.bare] using congrArg (List.map Frame.method) h.callers
  rw [State.methods, State.methods, h.method, hc]

/-- A step that raises no exception stays in its method, returns, or calls another method. -/
theorem step_methods {op : Op} (hm : p.methods[s.current.method]? = some m)
    (ho : m.body.ops[s.current.pc]? = some op) (hr : op.raises = false)
    (h : step p s = .running t) : t.methods = s.methods ∨ t.methods = s.methods.tail ∨
      ∃ i n, (op = .call i n ∨ ∃ returns, op = .callIndirect n returns) ∧
        t.methods = i :: s.methods := by
  have hgoes := step_goes hm ho
  rw [h] at hgoes
  cases hgoes with
  | next vs hacts => exact .inl (hacts.alters vs).methods
  | jump => exact .inl rfl
  | call hop _ hf =>
    obtain ⟨_, _, _, _, rfl⟩ := enter_eq_ok.mp hf
    cases hop with
    | call => exact .inr (.inr ⟨_, _, .inl rfl, rfl⟩)
    | indirect => exact .inr (.inr ⟨_, _, .inr ⟨_, rfl⟩, rfl⟩)
  | returns _ _ _ hc hf =>
    obtain ⟨vs, -, rfl⟩ := resume_eq_ok hf
    exact .inr (.inl (by simp [State.methods, hc]))
  | catches hraises =>
    rw [hr] at hraises
    cases hraises

/-- Methods that raise no exception and only call such methods. -/
def Calm (p : Program) (calm : Nat → Prop) : Prop :=
  ∀ i, calm i → ∀ m, p.methods[i]? = some m → ∀ op ∈ m.body.ops,
    op.raises = false ∧ (∀ n returns, op ≠ .callIndirect n returns) ∧ ∀ j n, op = .call j n → calm j

/-- While a calm method runs, all frames from its own on belong to calm methods. -/
theorem During.calm {calm : Nat → Prop} (hp : Calm p calm) (hs : calm s.current.method)
    (h : During p s t) :
    s.depth ≤ t.depth ∧ ∀ i ∈ t.methods.take (t.depth + 1 - s.depth), calm i := by
  induction h with
  | start =>
    refine ⟨Nat.le_refl _, ?_⟩
    simpa [State.methods] using hs
  | @step t u _ hstep hdepth ih =>
    obtain ⟨hle, ih⟩ := ih
    refine ⟨hdepth, ?_⟩
    have hcurrent : calm t.current.method := ih _ (by
      rw [show t.depth + 1 - s.depth = (t.depth - s.depth) + 1 by omega, State.methods,
        take_succ_cons]
      exact mem_cons_self)
    obtain ⟨m, op, hm, ho, -⟩ := step_running hstep
    obtain ⟨hraises, hindirect, hcall⟩ := hp _ hcurrent m hm op (mem_of_getElem? ho)
    have hlen := t.length_methods
    have hlen' := u.length_methods
    rcases step_methods hm ho hraises hstep with heq | heq | ⟨i, n, hop, heq⟩
    · rw [heq] at hlen' ⊢
      rwa [show u.depth = t.depth by omega]
    · have hu : u.depth + 1 = t.depth := by
        rw [heq, length_tail] at hlen'
        omega
      intro i hi
      refine ih i ?_
      rw [heq] at hi
      rw [show t.depth + 1 - s.depth = (u.depth + 1 - s.depth) + 1 by omega, State.methods,
        take_succ_cons]
      exact mem_cons_of_mem _ hi
    · have hu : u.depth = t.depth + 1 := by
        rw [heq, length_cons] at hlen'
        omega
      rw [heq, show u.depth + 1 - s.depth = (t.depth + 1 - s.depth) + 1 by omega, take_succ_cons]
      refine forall_mem_cons.mpr ⟨?_, ih⟩
      rcases hop with hop | ⟨returns, hop⟩
      · exact hcall i n hop
      · exact absurd hop (hindirect n returns)

theorem During.not_raises {calm : Nat → Prop} (hp : Calm p calm) (hs : calm s.current.method)
    (h : During p s t) (v : Value) : ¬ Raises p t v := by
  rintro ⟨m, op, u, hm, ho, hx⟩
  obtain ⟨hle, hcalm⟩ := h.calm hp hs
  have hcurrent : calm t.current.method := hcalm _ (by
    rw [show t.depth + 1 - s.depth = (t.depth - s.depth) + 1 by omega, State.methods,
      take_succ_cons]
    exact mem_cons_self)
  have hraises := (hp _ hcurrent m hm op (mem_of_getElem? ho)).1
  have heffect := execute_effect p m t op
  rw [hx] at heffect
  cases heffect with
  | raise h => rw [hraises] at h; cases h

theorem During.of_steps (h : Steps p s t) (hs : s.depth = 0) : During p s t := by
  induction h with
  | refl => exact .start
  | tail _ hn ih => exact .step ih hn (by omega)

/-- Only a run whose last operation raises an exception ends with one. -/
theorem raises_of_uncaught {w : World} {v : Value}
    (h : step p s = .finished w (.error (.uncaught v))) : Raises p s v := by
  rcases control_fault h rfl with ⟨_, hv, hr⟩ | ⟨_, _, _, _, hf, -⟩ | ⟨_, _, _, hf⟩
  · cases hv
    exact hr
  · cases hf
  · cases hf

end Stackify.Machine

namespace Stackify.Lower

open Code (Op Program)
open Ssa (Module)
open Machine (State World Value Fault During Raises callMethod)

/-- **Methods that are not said to throw do not throw.** While one of them runs, in any state, with
any arguments, memory and callers, no operation raises an exception, neither its own nor one of what
it calls; so a call of it from outside never ends with one. -/
theorem raises_nothing_unless_mayThrow {m : Module} {o : Options} {d : Declared} {p : Program}
    (hd : declare m o = .ok d) (hp : lower m o = .ok p) (hm : Candid m) {e : MethodEntry}
    (he : e ∈ d.methods) (hq : e.mayThrow = false) :
    (∀ (s t : State) (v : Value), s.current.method = e.index → During p s t → ¬ Raises p t v) ∧
      ∀ (fuel : Nat) (w w' : World) (args : List Value) (v : Value),
        callMethod p fuel w e.index args ≠ some (w', .error (.uncaught v)) := by
  have hcode : ProgramCode d p := by
    obtain ⟨d', hd', hcode⟩ := lower_eq_ok hp
    cases hd.symm.trans hd'
    exact hcode
  let calm (i : Nat) : Prop := ∃ e, d.methods[i]? = some e ∧ e.mayThrow = false
  have hcalm : Machine.Calm p calm := by
    rintro i ⟨e, he, hq⟩ method hmethod op hop
    obtain ⟨method', hmethod', hquiet⟩ := quiet_body hd hm hcode he hq
    cases hmethod.symm.trans hmethod'
    have hop := hquiet op hop
    cases op with
    | callService service n =>
      exact ⟨by simpa [Op.raises, Declared.Quiet] using hop, by simp, by simp⟩
    | call j n => exact ⟨rfl, by simp, by rintro _ _ ⟨⟩; exact hop⟩
    | throw => exact hop.elim
    | callIndirect n returns => exact hop.elim
    | _ => exact ⟨rfl, by simp, by simp⟩
  have hindex : calm e.index := by
    obtain ⟨i, hi⟩ := List.getElem?_of_mem he
    exact ⟨e, by rw [((declare_declaration hd).index hi).1, hi], hq⟩
  have hnever (s t : State) (v : Value) (hs : s.current.method = e.index) (ht : During p s t) :
      ¬ Raises p t v :=
    ht.not_raises hcalm (hs ▸ hindex) v
  refine ⟨hnever, fun fuel w w' args v h => ?_⟩
  unfold callMethod at h
  split at h
  · next f hf =>
    obtain ⟨t, ht, hfin⟩ := Machine.steps_of_run h
    obtain ⟨_, _, _, _, rfl⟩ := Machine.enter_eq_ok.mp hf
    exact hnever _ t v rfl (.of_steps ht rfl) (Machine.raises_of_uncaught hfin)
  · next f hf =>
    cases h
    cases Machine.enter_tame _ hf

/-- Of three functions, `g` returns its argument, `f` calls `g`, and `h` reports a failed
assertion. -/
def threeCalls : Module where
  functions :=
    let params : List Ssa.Param := [{ id := 0, ty := .int 32 }]
    let ret : Ssa.Instruction := { id := 2, opcode := .ret, ty := .void, operands := [.value 0] }
    [{ name := "g", type := ⟨.int 32, [.int 32], false⟩, params, blocks :=
         [{ id := 0, instructions := [ret] }] },
     { name := "f", type := ⟨.int 32, [.int 32], false⟩, params,
       blocks := [{ id := 0, instructions :=
         [{ id := 1, opcode := .call, ty := .int 32, operands := [.value 0, .function "g"],
            info := .call ⟨.int 32, [.int 32], false⟩ },
          { ret with operands := [.value 1] }] }] },
     { name := "h", type := ⟨.int 32, [.int 32], false⟩, params,
       blocks := [{ id := 0, instructions :=
         [{ id := 1, opcode := .call, ty := .void,
            operands := [.const .null, .const .null, .value 0, .function "_wassert"],
            info := .call ⟨.void, [.pointer, .pointer, .int 32], false⟩ },
          ret] }] }]

theorem threeCalls_raises_nothing_unless_mayThrow :
    ∃ d p e, declare threeCalls {} = .ok d ∧ lower threeCalls {} = .ok p ∧ Candid threeCalls ∧
      e ∈ d.methods ∧ d.methods.map (·.mayThrow) = [false, false, true] ∧ e.index = 1 ∧
      (∀ (s t : State) (v : Value), s.current.method = 1 → During p s t → ¬ Raises p t v) ∧
        ∀ (fuel : Nat) (w w' : World) (args : List Value) (v : Value),
          callMethod p fuel w 1 args ≠ some (w', .error (.uncaught v)) := by
  obtain ⟨d, hd, hmethods⟩ := toOption_map_eq_some.mp (show (declare threeCalls {}).toOption.map
    (fun d => (d.methods.map (·.mayThrow), (d.methods[1]?).map fun e => (e.index, e.mayThrow))) =
      some ([false, false, true], some (1, false)) by decide +kernel)
  obtain ⟨p, hp, -⟩ :=
    toOption_map_eq_some.mp (show (lower threeCalls {}).toOption.map (fun _ => ()) = some () by
    decide +kernel)
  have hcandid : Candid threeCalls := ⟨by decide +kernel, by decide +kernel⟩
  simp only [Prod.mk.injEq, Option.map_eq_some_iff] at hmethods
  obtain ⟨hall, e, he, hindex, hquiet⟩ := hmethods
  have hmem : e ∈ d.methods := List.mem_of_getElem? he
  have hthrows := raises_nothing_unless_mayThrow hd hp hcandid hmem hquiet
  rw [hindex] at hthrows
  exact ⟨d, p, e, hd, hp, hcandid, hmem, hall, hindex, hthrows⟩

end Stackify.Lower
