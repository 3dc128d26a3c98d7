import Stackify.Proofs.NodeRuns

/-!
Integers of the machine are exact at their width.

A width keeps the numbers that wrapping leaves as they are. On numbers that it keeps, the machine
computes with the words that they stand for:

- operators are those of words, and fail where there is no quotient (`binary_word`,
  `word?_eq_none`);
- the code of a predicate decides the relation between words (`predicate_does`,
  `predicate_does_bit`);
- conversions extend words or cut them (`Ssa.convert_int`, `Ssa.convert_bit`).
-/

namespace Stackify.Code

/-- Operators that take a quotient or a remainder. -/
def BinaryOp.divides : BinaryOp → Bool
  | .div | .divUn | .rem | .remUn => true
  | _ => false

theorem BinaryOp.word?_eq_none {n : Nat} {x y : BitVec n} {op : BinaryOp} :
    op.word? x y = none ↔ op.divides = true ∧ y = 0 := by
  cases op <;> simp [word?, divides]

theorem Width.wrap_toInt (w : Width) (x : BitVec w.bits) : w.wrap x.toInt = x.toInt := by
  rw [w.wrap_eq, BitVec.ofInt_toInt]

end Stackify.Code

namespace Stackify.Machine

open Code (Op Width NumKind BinaryOp Method Program)
open Stackify.Flow (IntPredicate)
open Ssa (IntTy resize)

/-! ## Predicates -/

/-- The code of a predicate: a comparison, and its negation where that decides the predicate. -/
def predicateCode (p : IntPredicate) (kind : NumKind) : List Op :=
  .compare p.comparison.1 kind :: if p.comparison.2 then [Lower.logicalNot] else []

variable {prog : Program} {m : Method} {s : State} {locals stack : List Value}

theorem predicate_does (hm : prog.methods[s.current.method]? = some m) {w : Width}
    (x y : BitVec w.bits) {left right : Value} (hl : left.toInt? = some x.toInt)
    (hr : right.toInt? = some y.toInt) (p : IntPredicate) :
    Does prog m s (predicateCode p (.int w)) ⟨locals, right :: left :: stack⟩ ⟨locals,
      .bool (p.holds x y) :: stack⟩ := by
  obtain ⟨b, hb, hholds⟩ := compare_word x y hl hr p
  rw [← hholds]
  exact Lower.Context.compare_does hm hb p.comparison.2

theorem predicate_does_bit (hm : prog.methods[s.current.method]? = some m) (a b : Bool)
    (p : IntPredicate) : Does prog m s (predicateCode p .bool) ⟨locals, .bool b :: .bool a :: stack⟩
      ⟨locals, .bool (p.holds (BitVec.ofBool a) (BitVec.ofBool b)) :: stack⟩ := by
  have hbit (c : Bool) : (BitVec.ofBool c == 1#1) = c := by cases c <;> rfl
  obtain ⟨r, hr, hholds⟩ := Ssa.compare_bit (BitVec.ofBool a) (BitVec.ofBool b) p
  rw [hbit, hbit] at hr
  rw [← hholds]
  exact Lower.Context.compare_does hm hr p.comparison.2

/-! ## Exactness -/

/-- **Integer operations are exact at their width.** For numbers that a width keeps, every operator
gives the number of the word that the operator gives on words, which the width keeps again, and
fails exactly for a quotient or a remainder by zero. The code of each predicate decides the relation
between the words; a bit is such a word too, with one as minus one where signs count. Conversions to
any width or to a bit extend the word by its sign or by zeros, or cut it. -/
theorem integer_operations_exact {w : Width} {left right : Value} {a b : Int}
    (hl : left.toInt? = some a) (hr : right.toInt? = some b) (ha : w.wrap a = a)
    (hb : w.wrap b = b) : (∀ op : BinaryOp,
      binary op (.int w) left right =
        (op.word? (BitVec.ofInt w.bits a) (BitVec.ofInt w.bits b)).elim (.error .divisionByZero)
        (fun r => .ok (.int w r.toInt)) ∧
      ((∃ f, binary op (.int w) left right = .error f) ↔ op.divides = true ∧ b = 0) ∧
      ∀ v, binary op (.int w) left right = .ok v → ∃ n, v = .int w n ∧ w.wrap n = n) ∧
    (∀ (p : IntPredicate) (prog : Program) (m : Method) (s : State) (locals stack : List Value),
      prog.methods[s.current.method]? = some m →
      Does prog m s (predicateCode p (.int w)) ⟨locals, right :: left :: stack⟩
        ⟨locals, .bool (p.holds (BitVec.ofInt w.bits a) (BitVec.ofInt w.bits b)) :: stack⟩ ∧
      ∀ c d, Does prog m s (predicateCode p .bool) ⟨locals, .bool d :: .bool c :: stack⟩
        ⟨locals, .bool (p.holds (BitVec.ofBool c) (BitVec.ofBool d)) :: stack⟩) ∧
    ∀ (t : IntTy) (signed : Bool),
      convert (.int w) t.kind signed left = .ok (resize signed (BitVec.ofInt w.bits a) t).value ∧
      ∀ c, convert .bool t.kind signed
        (.bool c) = .ok (resize signed (BitVec.ofBool c) t).value := by
  have hx : (BitVec.ofInt w.bits a).toInt = a := by rw [← w.wrap_eq, ha]
  have hy : (BitVec.ofInt w.bits b).toInt = b := by rw [← w.wrap_eq, hb]
  generalize BitVec.ofInt w.bits a = x at hx ⊢
  generalize BitVec.ofInt w.bits b = y at hy ⊢
  subst hx hy
  refine ⟨fun op => ?_, fun p prog m s locals stack hm => ⟨predicate_does hm x y hl hr p, fun c d =>
    predicate_does_bit hm c d p⟩, fun t signed => ⟨Ssa.convert_int x hl signed, fun c => ?_⟩⟩
  · have hbinary := binary_word x y hl hr op
    have hzero : y.toInt = 0 ↔ y = 0 := by
      rw [← BitVec.toInt_inj, BitVec.ofNat_eq_ofNat, BitVec.toInt_zero]
    rw [hbinary, hzero, ← BinaryOp.word?_eq_none]
    refine ⟨rfl, ?_, ?_⟩
    · cases op.word? x y <;> simp
    · rintro v hv
      cases hword : op.word? x y with
      | none =>
        rw [hword] at hv
        cases hv
      | some r =>
        rw [hword] at hv
        cases hv
        exact ⟨r.toInt, rfl, w.wrap_toInt r⟩
  · have hbit : Value.bool c = .bool (BitVec.ofBool c == 1#1) := by cases c <;> rfl
    rw [hbit]
    exact Ssa.convert_bit _ signed

/-- The least number of the largest width: its quotient by minus one wraps around to itself, there
is no remainder, it is not above minus one with sign, and its low byte is zero. -/
theorem least_operations_exact :
    let least : Int := -170141183460469231731687303715884105728
    Width.w128.wrap least = least ∧ Width.w128.wrap (-1) = -1 ∧
    binary .div (.int .w128) (.int .w128 least) (.int .w128 (-1)) = .ok (.int .w128 least) ∧
    binary .rem (.int .w128) (.int .w128 least) (.int .w128 (-1)) = .ok (.int .w128 0) ∧
    (∀ (prog : Program) (m : Method) (s : State), prog.methods[s.current.method]? = some m →
      Does prog m s (predicateCode .sle (.int .w128)) ⟨[], [.int .w128 (-1), .int .w128 least]⟩ ⟨[],
        [.bool true]⟩ ∧
      Does prog m s (predicateCode .sle .bool) ⟨[], [.bool false, .bool true]⟩ ⟨[], [.bool true]⟩) ∧
    convert (.int .w128) (.int .w8) true (.int .w128 least) = .ok (.int .w8 0) := by
  intro least
  have hleast : Width.w128.wrap least = least := by decide
  have hone : Width.w128.wrap (-1) = -1 := by decide
  obtain ⟨hbinary, hpredicate, hconvert⟩ :=
    @integer_operations_exact .w128 (.int .w128 least) (.int .w128 (-1)) least (-1) rfl
      rfl hleast hone
  have hquotient : BinaryOp.div.word? (BitVec.ofInt 128 least) (BitVec.ofInt 128 (-1)) =
      some (BitVec.ofInt 128 least) := by decide
  have hremainder : BinaryOp.rem.word? (BitVec.ofInt 128 least) (BitVec.ofInt 128 (-1)) =
      some 0 := by decide
  refine ⟨hleast, hone, (hbinary .div).1.trans ?_, (hbinary .rem).1.trans ?_, fun prog m s hm => ?_,
    (hconvert .i8 true).1.trans ?_⟩
  · show (BinaryOp.div.word? (BitVec.ofInt 128 least) (BitVec.ofInt 128 (-1))).elim _ _ = _
    rw [hquotient]
    rfl
  · show (BinaryOp.rem.word? (BitVec.ofInt 128 least) (BitVec.ofInt 128 (-1))).elim _ _ = _
    rw [hremainder]
    rfl
  · exact ⟨(hpredicate .sle prog m s [] [] hm).1, (hpredicate .sle prog m s [] [] hm).2 true false⟩
  · rfl

end Stackify.Machine
