import Stackify.Proofs.BinaryForm
import Stackify.Proofs.ParallelCopies

/-!
The constants that code loads. All methods of a program share one pool, and an equal constant in it
is used again. What is loaded is then the constant that was asked for, with one exception: the zeros
of both signs are equal as numbers, so whichever of them comes second is replaced by the first one.

- `intern_standsFor`: what interning a constant gives the position of;
- `Grows.unrepeated`: no constant is stored twice, other than those that are no numbers;
- `constants_faithful`: both, for the constants of a module and the code that loads them.
-/

namespace Stackify.Code

/-! ## Equality as numbers -/

/-- Zeros of one floating-point kind, with different signs. -/
def Const.OtherZero (k k' : Const) : Prop :=
  ∃ kind, k = .float kind 0 ∧ k' = .float kind (-0) ∨ k = .float kind (-0) ∧ k' = .float kind 0

theorem Const.eq_or_otherZero_of_same {k k' : Const} (h : k'.same k = true) :
    k' = k ∨ k'.OtherZero k := by
  rcases eq_or_float_of_same h with rfl | ⟨kind, x, y, rfl, rfl, hxy⟩
  · exact .inl rfl
  obtain ⟨-, -, rfl | ⟨rfl, rfl⟩ | ⟨rfl, rfl⟩⟩ := Float.beq_iff_ne_nan_and_eq.mp hxy
  · exact .inl rfl
  · exact .inr ⟨kind, .inl ⟨rfl, rfl⟩⟩
  · exact .inr ⟨kind, .inr ⟨rfl, rfl⟩⟩

theorem Const.same_self {k : Const} (h : k.isNaN = false) : k.same k = true := by
  cases k with
  | float kind x =>
    have hx : x ≠ Float.nan := by simpa [isNaN] using h
    simp [same, Float.beq_self_iff.mpr hx]
  | bool | int | null | default => simp [same]

end Stackify.Code

namespace Stackify.Lower

open Code (Const Program intern)
open Machine (Does Value constValue State)
open Ssa (Module)
open List

/-! ## Pools -/

/-- What stands for a constant that was interned into a pool: the constant, unless the pool had its
other zero. -/
def StandsFor (pool : List Const) (k k' : Const) : Prop := k' = k ∨ k' ∈ pool ∧ k'.OtherZero k

/-- No constant is stored twice, other than those that are no numbers. -/
def Unrepeated (pool : List Const) : Prop := (pool.filter fun k => !k.isNaN).Nodup

variable {pool pool' : List Const}

theorem Grows.getElem? (h : Grows pool pool') {i : Nat} {k : Const} (hk : pool[i]? = some k) :
    pool'[i]? = some k := by
  obtain ⟨hi, rfl⟩ := List.getElem?_eq_some_iff.mp hk
  exact prefix_iff_getElem?.mp h.isPrefix i hi

/-- What has the position that interning gives, then and after all that is interned later. -/
theorem intern_standsFor (pool : List Const) (k : Const) :
    ∃ k', StandsFor pool k k' ∧ ∀ pool', Grows (intern pool k).2 pool' →
      pool'[(intern pool k).1]? = some k' := by
  obtain ⟨i, k', h, hi, hsame⟩ | ⟨h, -⟩ := intern_cases pool k
  · rw [h]
    have hstands : StandsFor pool k k' :=
      (Const.eq_or_otherZero_of_same hsame).imp_right fun hzero => ⟨mem_of_getElem? hi, hzero⟩
    exact ⟨k', hstands, fun pool' hgrows => hgrows.getElem? hi⟩
  · rw [h]
    exact ⟨k, .inl rfl, fun pool' hgrows => hgrows.getElem? getElem?_concat_length⟩

theorem Unrepeated.intern (h : Unrepeated pool) (k : Const) :
    Unrepeated (intern pool k).2 := by
  obtain ⟨i, k', hk, -⟩ | ⟨hk, hnone⟩ := intern_cases pool k
  · rw [hk]
    exact h
  rw [hk, Unrepeated, filter_append]
  cases hnan : k.isNaN with
  | true =>
    rw [filter_singleton, hnan, Bool.not_true, cond_false, append_nil]
    exact h
  | false =>
    -- a number is equal to itself, so it would have been found
    have hnew : k ∉ pool := fun hmem => by simpa [Const.same_self hnan] using hnone k hmem
    rw [filter_singleton, hnan]
    exact Nodup.append h (nodup_singleton k) (by simp [hnew])

theorem Grows.unrepeated (h : Grows pool pool') (hpool : Unrepeated pool) : Unrepeated pool' := by
  induction h with
  | refl => exact hpool
  | tail _ hstep ih =>
    obtain ⟨k, rfl⟩ := hstep
    exact ih.intern k

/-! ## Programs -/

/-- A method is lowered with the pool that the methods before it left, and leaves its own to those
behind it. -/
theorem lowerMethods_at {d : Declared} {es : List MethodEntry} {consts consts' : List Const}
    {ms : List Code.Method} (h : lowerMethods d consts es = .ok (ms, consts')) {n : Nat}
    {e : MethodEntry} (he : es[n]? = some e) : ∃ pool pool' m, ms[n]? = some m ∧
      lowerMethod d pool e = .ok (m, pool') ∧ Grows consts pool ∧ Grows pool' consts' := by
  induction es generalizing consts ms n with
  | nil => cases he
  | cons e₁ es ih =>
    obtain ⟨⟨m, consts₁⟩, hm, h⟩ := bind_eq_ok.mp h
    obtain ⟨⟨ms, consts₂⟩, hms, h⟩ := bind_eq_ok.mp h
    cases h
    cases n with
    | zero =>
      cases he
      exact ⟨consts, consts₁, m, rfl, hm, .refl, (lowerMethods_code hms).1⟩
    | succ n =>
      obtain ⟨pool, pool', m', hm', hlowered, hbefore, hafter⟩ := ih hms he
      exact ⟨pool, pool', m', hm', hlowered, (lowerMethod_code hm).1.trans hbefore, hafter⟩

/-- The code for a constant operand, in a program with a given pool. -/
theorem Context.Pushes.of_constant {c : Context} {k : Ssa.Constant} {ops : List Code.Op}
    (h : c.Pushes pool (.const k) ops) : ∃ i k' k'', ops = [.loadConst i] ∧
      c.constant? k = some k' ∧ pool[i]? = some k'' ∧ StandsFor pool k' k'' := by
  cases h with
  | argument hi =>
    obtain ⟨_, -, hkey⟩ := param?_eq_some hi
    cases hkey
  | @constant _ k' i hk hi =>
    obtain ⟨k'', hat, rfl | hsame⟩ := hi
    · exact ⟨i, k'', k'', rfl, hk, hat, .inl rfl⟩
    · refine ⟨i, k', k'', rfl, hk, hat, ?_⟩
      exact (Const.eq_or_otherZero_of_same hsame).imp_right fun hzero =>
        ⟨mem_of_getElem? hat, hzero⟩

/-- A constant operand is interned, and loaded from the position that this gives. -/
theorem Context.pushOperand_constant {c : Context} {l : Flow.Location} {k : Ssa.Constant}
    {e e' : Emission} (h : c.pushOperand l (.const k) e = .ok () e') :
    ∃ k', c.constant? k = some k' ∧
      e'.body.ops = e.body.ops ++ [.loadConst (intern e.consts k').1] ∧
        e'.consts = (intern e.consts k').2 := by
  obtain ⟨ops, extras, -, hcode⟩ := (pushOperand_emits (c.known_own (.const k)) e).of_ok h
  obtain ⟨_, k', -, -, hk, -⟩ := (hcode _ e'.within_surround).2.of_constant
  rw [pushOperand, constant_eq_pure hk] at h
  cases h
  exact ⟨k', hk, rfl, rfl⟩

/-- Constants keep their positions, whatever is interned later, and none is stored twice other than
those that are no numbers. So it is for the pool that the methods of a module share. An operation
that is emitted for a constant operand loads that constant, or its other zero if the pool had that
one before; and so does the code for a constant operand in the final program, whose methods are all
made of code for its own pool. -/
theorem constants_faithful (pool : List Const) (k : Const) :
    (∃ k', StandsFor pool k k' ∧ ∀ pool', Grows (intern pool k).2 pool' →
      pool'[(intern pool k).1]? = some k') ∧
    (∀ pool', Grows pool pool' → Unrepeated pool → Unrepeated pool') ∧
    (∀ (m : Module) (o : Options) (p : Program), lower m o = .ok p → Unrepeated p.consts ∧
      ∃ d, declare m o = .ok d ∧ ∀ (n : Nat) (e : MethodEntry), d.methods[n]? = some e →
        ∃ before after method, p.methods[n]? = some method ∧
          lowerMethod d before e = .ok (method, after) ∧ Grows before after ∧ Grows after p.consts ∧
        ∃ g slots, d.graph e = .ok g ∧ BodyCode ⟨d, g, slots⟩ p.consts method.body) ∧
    (∀ (c : Context) (l : Flow.Location) (x : Ssa.Constant) (e e' : Emission),
      c.pushOperand l (.const x) e = .ok () e' → ∃ i k', c.constant? x = some k' ∧
        e'.body.ops = e.body.ops ++ [.loadConst i] ∧ ∀ p : Program, Grows e'.consts p.consts →
          ∃ k'', p.consts[i]? = some k'' ∧ StandsFor e.consts k' k'' ∧ ∀ (method : Code.Method)
            (s : State) (locals stack : List Value), p.methods[s.current.method]? = some method →
              Does p method s [.loadConst i] ⟨locals, stack⟩ ⟨locals,
                constValue p.records k'' :: stack⟩) ∧
    ∀ (c : Context) (p : Program) (x : Ssa.Constant) (ops : List Code.Op), c.Pushes p.consts
      (.const x) ops → ∃ k' k'', c.constant? x = some k' ∧ StandsFor p.consts k' k'' ∧
        ∀ (method : Code.Method) (s : State) (locals stack : List Value),
          p.methods[s.current.method]? = some method →
            Does p method s ops ⟨locals, stack⟩ ⟨locals, constValue p.records k'' :: stack⟩ := by
  refine ⟨intern_standsFor pool k, fun _ => Grows.unrepeated, fun m o p hp => ?_,
    fun c l x e e' he => ?_, fun c p x ops hops => ?_⟩
  · obtain ⟨d, hd, hp⟩ := lower_declared hp
    obtain ⟨ms, wrappers, hms, -, -, hparts⟩ := lowerDeclared_eq_ok hp
    refine ⟨(lowerMethods_code hms).1.unrepeated nodup_nil, d, hd, fun n e he => ?_⟩
    obtain ⟨before, after, method, hn, hmethod, -, hafter⟩ := lowerMethods_at hms he
    obtain ⟨hgrows, hcode⟩ := lowerMethod_code hmethod
    refine ⟨before, after, method, ?_, hmethod, hgrows, hafter,
      (hcode p.consts hafter.isPrefix).body⟩
    rw [hparts]
    exact (getElem?_append_left (lt_of_getElem? hn)).trans hn
  · obtain ⟨k', hk, hops, hconsts⟩ := Context.pushOperand_constant he
    refine ⟨_, k', hk, hops, fun p hgrows => ?_⟩
    obtain ⟨k'', hstands, hlater⟩ := intern_standsFor e.consts k'
    have hat := hlater p.consts (hconsts ▸ hgrows)
    exact ⟨k'', hat, hstands, fun method s locals stack hm => Machine.does_loadConst hm hat⟩
  · obtain ⟨i, k', k'', rfl, hk, hat, hstands⟩ := hops.of_constant
    exact ⟨k', k'', hk, hstands, fun method s locals stack hm => Machine.does_loadConst hm hat⟩

theorem signedZeros_constants :
    ∃ (p : Program) (c : Context) (e' : Emission), lower signedZeros {} = .ok p ∧
      p.consts = [.float .double 0.0] ∧ Unrepeated p.consts ∧
    c.pushOperand { function := "positive" } (.const (.float .double 2.5))
      { consts := p.consts } = .ok () e' ∧
    e'.body.ops = [.loadConst 1] ∧
    ∀ q : Program, Grows e'.consts q.consts → q.consts[1]? = some (.float .double 2.5) := by
  obtain ⟨p, hp, hconsts⟩ :=
    toOption_map_eq_some.mp (show (lower signedZeros {}).toOption.map (·.consts) =
      some [.float .double 0.0] by decide +kernel)
  obtain ⟨d, -, hparts⟩ :=
    toOption_map_eq_some.mp (show (declare signedZeros {}).toOption.map (fun d => do
      let entry ← d.methods[0]?
      let g ← (d.graph entry).toOption
      let ops ← (do
        Context.pushOperand ⟨d, g, []⟩ { function := "positive" } (.const (.float .double 2.5))
        return (← get).body.ops : Emit (List Code.Op)).run' { consts := [.float .double 0.0] }
      some (ops, Context.constant? ⟨d, g, []⟩ (.float .double 2.5))) =
    some (some ([.loadConst 1], some (.float .double 2.5))) by decide +kernel)
  obtain ⟨entry, -, hparts⟩ := Option.bind_eq_some_iff.mp hparts
  obtain ⟨g, -, hparts⟩ := Option.bind_eq_some_iff.mp hparts
  obtain ⟨ops, hops, hparts⟩ := Option.bind_eq_some_iff.mp hparts
  obtain ⟨hlist, hconst⟩ := Prod.mk.inj (Option.some.inj hparts)
  obtain ⟨e', hrun⟩ := Context.run'_eq_some hops
  obtain ⟨_, _, he, hrun⟩ := run_bind_eq_ok.mp hrun
  cases hrun
  obtain ⟨-, -, hlowered, hpushed, -⟩ := constants_faithful [] .null
  obtain ⟨i, k', hk', hi, hloads⟩ := hpushed ⟨d, g, []⟩ _ _ _ _ he
  cases hconst.symm.trans hk'
  cases hlist.symm.trans hi
  refine ⟨p, ⟨d, g, []⟩, e', hp, hconsts, (hlowered _ _ p hp).1, by rwa [hconsts], hlist,
    fun q hq => ?_⟩
  obtain ⟨k'', hat, hstands, -⟩ := hloads q hq
  have hzero : (2.5 : Float) ≠ -0 ∧ (2.5 : Float) ≠ 0 := by decide +kernel
  rcases hstands with rfl | ⟨-, kind, ⟨-, h⟩ | ⟨-, h⟩⟩
  · exact hat
  · exact absurd (Const.float.inj h).2 hzero.1
  · exact absurd (Const.float.inj h).2 hzero.2

/-- A negative zero behind a positive one gets its position, and there is no other entry. -/
theorem negative_zero_interned_as_positive :
    intern [.float .double 0.0] (.float .double (-0.0)) = (0, [.float .double 0.0]) ∧
    Const.float .double 0.0 ≠ .float .double (-0.0) := by
  decide +kernel

end Stackify.Lower
