import Stackify.Lower.Node
import Stackify.Machine.Arith
import Stackify.Proofs.Semantics

/-!
Words as values of the machine. A bit is a truth value, any other word is the signed number that it
means. The machine computes with these values what the source computes with the words:

- `binary_value`: arithmetic;
- `compare_value`: comparison, with the negation that a predicate may ask for;
- `convert_resize`: conversion.
-/

namespace Stackify.Code.Width

theorem wrap_eq (w : Width) (n : Int) : w.wrap n = (BitVec.ofInt w.bits n).toInt :=
  (BitVec.toInt_ofInt n).symm

theorem unsigned_toInt (w : Width) (x : BitVec w.bits) : w.unsigned x.toInt = x.toNat := by
  rw [unsigned, BitVec.toInt_eq_toNat_bmod]
  show Int.bmod x.toNat (2 ^ w.bits) % (2 ^ w.bits : Nat) = x.toNat
  rw [Int.bmod_emod]
  exact Int.emod_eq_of_lt (Int.natCast_nonneg _) (Int.ofNat_lt.mpr x.isLt)

end Stackify.Code.Width

namespace Stackify.Code

/-- The word that an operator gives at the width of its operands; `none` for a division by zero.
Quotients truncate toward zero, and shifts move by an amount modulo the width. -/
def BinaryOp.word? {n : Nat} (x y : BitVec n) : BinaryOp → Option (BitVec n)
  | .add => some (x + y)
  | .sub => some (x - y)
  | .mul => some (x * y)
  | .div => if y = 0 then none else some (x.sdiv y)
  | .divUn => if y = 0 then none else some (x / y)
  | .rem => if y = 0 then none else some (x.srem y)
  | .remUn => if y = 0 then none else some (x % y)
  | .and => some (x &&& y)
  | .or => some (x ||| y)
  | .xor => some (x ^^^ y)
  | .shl => some (x <<< (y.toNat % n))
  | .shr => some (x.sshiftRight (y.toNat % n))
  | .shrUn => some (x >>> (y.toNat % n))

end Stackify.Code

namespace Stackify.Ssa

open Code (Width NumKind)
open Machine (Value)

/-- The type of words in which integers of some number of bits are kept: the smallest one that has
room for them. Where there is none, nothing is lowered. -/
def storage (bits : Nat) : IntTy :=
  if bits = 1 then .i1
  else if bits ≤ 8 then .i8
  else if bits ≤ 16 then .i16
  else if bits ≤ 32 then .i32
  else if bits ≤ 64 then .i64
  else .i128

def Ty.storage? : Ty → Option IntTy
  | .int bits => some (storage bits)
  | _ => none

@[simp] theorem storage_bits (t : IntTy) : storage t.bits = t := by cases t <;> rfl

theorem storage_eq_i1 {bits : Nat} (h : storage bits = .i1) : bits = 1 := by
  unfold storage at h
  split at h
  · next hone => exact hone
  · split_ifs at h

theorem Ty.storage?_of_int? {ty : Ty} {t : IntTy} (h : ty.int? = some t) :
    ty.storage? = some t := by
  rw [int?_eq_some.mp h, storage?, storage_bits]

/-- The kind of operands that words of a type are. -/
def IntTy.kind : IntTy → NumKind
  | i1 => .bool
  | i8 => .int .w8
  | i16 => .int .w16
  | i32 => .int .w32
  | i64 => .int .w64
  | i128 => .int .w128

/-- The machine has the same widths. -/
theorem storage_kind {bits : Nat} {w : Width} (hone : bits ≠ 1) (h : Width.ofBits? bits = some w) :
    (storage bits).kind = .int w := by
  simp only [Width.ofBits?, Width.all, List.find?_cons, List.find?_nil, Width.bits] at h
  unfold storage
  rw [if_neg hone]
  split_ifs with h8 h16 h32 h64
  case neg =>
    simp only [h8, h16, h32, h64, decide_false] at h
    split at h
    · cases h
      rfl
    · cases h
  all_goals simp_all [IntTy.kind]

/-- The value of the machine that a word is. -/
def Word.value : Word → Value
  | ⟨.i1, x⟩ => .bool (x == 1#1)
  | ⟨.i8, x⟩ => .int .w8 x.toInt
  | ⟨.i16, x⟩ => .int .w16 x.toInt
  | ⟨.i32, x⟩ => .int .w32 x.toInt
  | ⟨.i64, x⟩ => .int .w64 x.toInt
  | ⟨.i128, x⟩ => .int .w128 x.toInt

end Stackify.Ssa

namespace Stackify.Machine

open Code (Width BinaryOp)
open Ssa (Opcode arithmetic?)

theorem Value.ofInt_eq (w : Width) (n : Int) :
    Value.ofInt w n = .int w (BitVec.ofInt w.bits n).toInt := by
  rw [Value.ofInt, w.wrap_eq]

theorem intOperand_eq_ok {operation : String} {v : Value} {n : Int} (h : v.toInt? = some n) :
    intOperand operation v = .ok n := by
  rw [intOperand, h]

/-! ## Arithmetic -/

section
variable {w : Width} (x y : BitVec w.bits)

theorem shiftAmount_toInt : shiftAmount w y.toInt = y.toNat % w.bits := by
  rw [shiftAmount, w.unsigned_toInt, Int.toNat_natCast]

theorem ofInt_mul_pow2 (k : Nat) : BitVec.ofInt w.bits (x.toInt * Number.pow2 k) = x <<< k := by
  have h : BitVec.ofNat w.bits (Number.pow2 k) = BitVec.twoPow w.bits k := BitVec.eq_of_toNat_eq (by
    rw [BitVec.toNat_ofNat, BitVec.toNat_twoPow]
    rfl)
  rw [BitVec.ofInt_mul, BitVec.ofInt_toInt, BitVec.ofInt_natCast, BitVec.shiftLeft_eq_mul_twoPow, h]

theorem ofInt_div_pow2 (k : Nat) :
    BitVec.ofInt w.bits (x.toInt / Number.pow2 k) = x.sshiftRight k := by
  have h : (x.sshiftRight k).toInt = x.toInt / Number.pow2 k := by
    rw [BitVec.toInt_sshiftRight, Int.shiftRight_eq_div_pow]
    rfl
  rw [← h, BitVec.ofInt_toInt]

theorem ofInt_toNat_div_pow2 (k : Nat) :
    BitVec.ofInt w.bits ((x.toNat : Int) / Number.pow2 k) = x >>> k := by
  have h : (x >>> k).toNat = x.toNat / Number.pow2 k := by
    rw [BitVec.toNat_ushiftRight, Nat.shiftRight_eq_div_pow]
    rfl
  rw [← Int.natCast_ediv, BitVec.ofInt_natCast, ← h, BitVec.ofNat_toNat, BitVec.setWidth_eq]

theorem ofInt_tdiv : BitVec.ofInt w.bits (x.toInt.tdiv y.toInt) = x.sdiv y := by
  refine BitVec.eq_of_toInt_eq ?_
  rw [BitVec.toInt_ofInt, BitVec.toInt_sdiv]

theorem ofInt_tmod : BitVec.ofInt w.bits (x.toInt.tmod y.toInt) = x.srem y := by
  rw [← BitVec.toInt_srem, BitVec.ofInt_toInt]

theorem ofInt_toNat_div : BitVec.ofInt w.bits ((x.toNat : Int) / y.toNat) = x / y := by
  rw [← Int.natCast_ediv, BitVec.ofInt_natCast, ← BitVec.toNat_udiv, BitVec.ofNat_toNat,
    BitVec.setWidth_eq]

theorem ofInt_toNat_mod : BitVec.ofInt w.bits ((x.toNat : Int) % y.toNat) = x % y := by
  rw [← Int.natCast_emod, BitVec.ofInt_natCast, ← BitVec.toNat_umod, BitVec.ofNat_toNat,
    BitVec.setWidth_eq]

theorem bitwise_toInt (f : BitVec w.bits → BitVec w.bits → BitVec w.bits) :
    bitwise w f x.toInt y.toInt = (f x y).toInt := by
  rw [bitwise, BitVec.ofInt_toInt, BitVec.ofInt_toInt]

theorem unsigned_toInt_eq_zero : w.unsigned y.toInt = 0 ↔ y = 0 := by
  rw [w.unsigned_toInt, ← BitVec.toNat_inj]
  exact Int.natCast_eq_zero

/-- Arithmetic on signed numbers, wrapped to the width, is arithmetic on the words. -/
theorem intBinary?_toInt (op : BinaryOp) :
    (intBinary? op w x.toInt y.toInt).map (BitVec.ofInt w.bits) = op.word? x y := by
  have divide {n : Int} {r : BitVec w.bits} (h : BitVec.ofInt w.bits n = r) :
      (if w.unsigned y.toInt = 0 then none else some n).map (BitVec.ofInt w.bits) = if y = 0 then
        none else some r := by
    rw [← h]
    by_cases hy : y = 0
    · rw [if_pos hy, if_pos ((unsigned_toInt_eq_zero y).mpr hy), Option.map_none]
    · rw [if_neg hy, if_neg (mt (unsigned_toInt_eq_zero y).mp hy), Option.map_some]
  cases op with
  | add => exact congrArg some (by rw [BitVec.ofInt_add, BitVec.ofInt_toInt, BitVec.ofInt_toInt])
  | sub =>
    refine congrArg some ?_
    rw [Int.sub_eq_add_neg, BitVec.ofInt_add, BitVec.ofInt_neg, BitVec.ofInt_toInt,
      BitVec.ofInt_toInt, BitVec.sub_eq_add_neg]
  | mul => exact congrArg some (by rw [BitVec.ofInt_mul, BitVec.ofInt_toInt, BitVec.ofInt_toInt])
  | div => exact divide (ofInt_tdiv x y)
  | rem => exact divide (ofInt_tmod x y)
  | divUn => exact divide (by rw [w.unsigned_toInt, w.unsigned_toInt, ofInt_toNat_div])
  | remUn => exact divide (by rw [w.unsigned_toInt, w.unsigned_toInt, ofInt_toNat_mod])
  | and | or | xor => exact congrArg some (by rw [bitwise_toInt, BitVec.ofInt_toInt])
  | shl => exact congrArg some (by rw [shiftAmount_toInt, ofInt_mul_pow2])
  | shr => exact congrArg some (by rw [shiftAmount_toInt, ofInt_div_pow2])
  | shrUn => exact congrArg some (by rw [shiftAmount_toInt, w.unsigned_toInt, ofInt_toNat_div_pow2])

variable {left right : Value} {opcode : Opcode} {r : BitVec w.bits}

/-- The machine computes with integers what their words give. -/
theorem binary_word (hl : left.toInt? = some x.toInt) (hr : right.toInt? = some y.toInt)
    (op : BinaryOp) : binary op (.int w) left right = (op.word? x y).elim (.error .divisionByZero)
      fun r => .ok (.int w r.toInt) := by
  rw [← intBinary?_toInt, binary, intOperand_eq_ok hl, intOperand_eq_ok hr]
  simp only [bind, Except.bind]
  cases intBinary? op w x.toInt y.toInt with
  | none => rfl
  | some n => exact congrArg Except.ok (Value.ofInt_eq w n)

theorem word?_of_arithmetic? (h : arithmetic? x y opcode = some r) :
    (Lower.binaryOp opcode).word? x y = some r := by
  unfold arithmetic? at h
  split at h
  case h_14 => cases h
  all_goals exact h

theorem binary_toInt (h : arithmetic? x y opcode = some r) :
    binary (Lower.binaryOp opcode) (.int w) (.int w x.toInt)
      (.int w y.toInt) = .ok (.int w r.toInt) := by
  rw [binary_word x y rfl rfl, word?_of_arithmetic? x y h]
  rfl

end

/-! ## Comparison -/

theorem compare_word {w : Width} (x y : BitVec w.bits) {left right : Value}
    (hl : left.toInt? = some x.toInt) (hr : right.toInt? = some y.toInt) (p : Flow.IntPredicate) :
    ∃ b, Machine.compare p.comparison.1 (.int w) left right = .ok b ∧
      (b ^^ p.comparison.2) = p.holds x y := by
  have hcompare : Machine.compare p.comparison.1 (.int w) left right =
      .ok (intCompare p.comparison.1 w x.toInt y.toInt) := by
    rw [Machine.compare, intOperand_eq_ok hl, intOperand_eq_ok hr]
    rfl
  refine ⟨_, hcompare, ?_⟩
  cases p <;> simp only [Flow.IntPredicate.comparison, Flow.IntPredicate.holds, intCompare,
    w.unsigned_toInt, BitVec.ult, BitVec.ule, BitVec.slt, BitVec.sle, BitVec.toInt_inj]
  all_goals rw [Bool.eq_iff_iff]
  all_goals simp

/-! ## Conversion -/

section
variable {v w : Width} (x : BitVec v.bits) {u : Value}

theorem convert_unsigned (h : u.toInt? = some x.toInt) :
    convert (.int v) (.int w) false u = .ok (.int w (x.setWidth w.bits).toInt) := by
  rw [convert, intOperand_eq_ok h]
  show Except.ok (Value.ofInt w (v.unsigned x.toInt)) = _
  rw [Value.ofInt_eq, v.unsigned_toInt, BitVec.ofInt_natCast, BitVec.ofNat_toNat]

theorem convert_signed (h : u.toInt? = some x.toInt) :
    convert (.int v) (.int w) true u = .ok (.int w (x.signExtend w.bits).toInt) := by
  rw [convert, intOperand_eq_ok h]
  show Except.ok (Value.ofInt w x.toInt) = _
  rw [Value.ofInt_eq]
  rfl

theorem convert_to_bit (h : u.toInt? = some x.toInt) (signed : Bool) :
    convert (.int v) .bool signed u = .ok (.bool (x.setWidth 1 == 1#1)) := by
  have hdvd : (2 : Int) ∣ Number.pow2 v.bits := by cases v <;> decide
  have hmod : x.toInt % 2 = x.toNat % 2 := by
    rw [← v.unsigned_toInt x, Code.Width.unsigned, Int.emod_emod_of_dvd _ hdvd]
  have hbit : x.setWidth 1 = 1#1 ↔ x.toNat % 2 = 1 := by
    rw [← BitVec.toNat_inj, BitVec.toNat_setWidth]
    rfl
  have heq : decide (x.toInt % 2 ≠ 0) = decide (x.setWidth 1 = 1#1) := by
    rw [decide_eq_decide, hbit, hmod]
    omega
  rw [convert, intOperand_eq_ok h]
  exact congrArg (fun b => Except.ok (Value.bool b)) heq

end

end Stackify.Machine

namespace Stackify.Ssa

open Code (Width)
open Machine (Value compare_word binary_toInt convert)

/-! ## Words -/

theorem value_ofInt_bit (n : Int) : (Word.ofInt .i1 n).value = .bool (n % 2 ≠ 0) := by
  have hbit : BitVec.ofInt 1 n = 1#1 ↔ n % 2 ≠ 0 := by
    rw [← BitVec.toNat_inj, BitVec.toNat_ofInt]
    show (n % 2).toNat = 1 ↔ n % 2 ≠ 0
    omega
  exact congrArg Value.bool (decide_eq_decide.mpr hbit)

theorem value_ofInt_wide {t : IntTy} {w : Width} (hw : t.kind = .int w) (n : Int) :
    (Word.ofInt t n).value = .int w (w.wrap n) := by
  rw [Width.wrap_eq]
  cases t <;> cases hw <;> rfl

/-- Operations that the machine does not offer on truth values. -/
def Opcode.dividesOrShifts : Opcode → Bool
  | .udiv | .sdiv | .urem | .srem | .shl | .lshr | .ashr => true
  | _ => false

variable {s t : IntTy} {opcode : Opcode}

theorem binary_bit {x y r : BitVec 1} (h : arithmetic? x y opcode = some r)
    (hop : opcode.dividesOrShifts = false) :
    Machine.binary (Lower.binaryOp opcode) .bool (.bool (x == 1#1))
      (.bool (y == 1#1)) = .ok (.bool (r == 1#1)) := by
  unfold arithmetic? at h
  split at h
  all_goals first | cases hop; done | cases h
  all_goals
    rcases BitVec.eq_zero_or_eq_one x with rfl | rfl <;>
      rcases BitVec.eq_zero_or_eq_one y with rfl | rfl <;> rfl

/-- The machine computes the result of an arithmetic operation. -/
theorem binary_value {x y r : BitVec t.bits} (h : arithmetic? x y opcode = some r)
    (hbit : t = .i1 → opcode.dividesOrShifts = false) :
    Machine.binary (Lower.binaryOp opcode) t.kind (Word.value ⟨t, x⟩)
      (Word.value ⟨t, y⟩) = .ok (Word.value ⟨t, r⟩) := by
  cases t with
  | i1 => exact binary_bit h (hbit rfl)
  | i8 => exact binary_toInt (w := .w8) x y h
  | i16 => exact binary_toInt (w := .w16) x y h
  | i32 => exact binary_toInt (w := .w32) x y h
  | i64 => exact binary_toInt (w := .w64) x y h
  | i128 => exact binary_toInt (w := .w128) x y h

theorem compare_bit (x y : BitVec 1) (p : Flow.IntPredicate) :
    ∃ b, Machine.compare p.comparison.1 .bool (.bool (x == 1#1)) (.bool (y == 1#1)) = .ok b ∧
      (b ^^ p.comparison.2) = p.holds x y := by
  refine ⟨Machine.boolCompare p.comparison.1 (x == 1#1) (y == 1#1), rfl, ?_⟩
  cases p <;>
    rcases BitVec.eq_zero_or_eq_one x with rfl | rfl <;>
      rcases BitVec.eq_zero_or_eq_one y with rfl | rfl <;> rfl

/-- The machine decides a relation, up to the negation that goes with it. -/
theorem compare_value (x y : BitVec t.bits) (p : Flow.IntPredicate) :
    ∃ b, Machine.compare p.comparison.1 t.kind (Word.value ⟨t, x⟩) (Word.value ⟨t, y⟩) = .ok b ∧
      (b ^^ p.comparison.2) = p.holds x y := by
  cases t with
  | i1 => exact compare_bit x y p
  | i8 => exact compare_word (w := .w8) x y rfl rfl p
  | i16 => exact compare_word (w := .w16) x y rfl rfl p
  | i32 => exact compare_word (w := .w32) x y rfl rfl p
  | i64 => exact compare_word (w := .w64) x y rfl rfl p
  | i128 => exact compare_word (w := .w128) x y rfl rfl p

/-- A word as one of another type, by its sign or by the bits alone. -/
def resize {n : Nat} (signed : Bool) (x : BitVec n) (t : IntTy) : Word :=
  ⟨t, if signed then x.signExtend t.bits else x.setWidth t.bits⟩

theorem convert_bit (x : BitVec 1) (signed : Bool) :
    convert .bool t.kind signed (.bool (x == 1#1)) = .ok (resize signed x t).value := by
  rcases BitVec.eq_zero_or_eq_one x with rfl | rfl <;> cases signed <;> cases t <;> rfl

theorem convert_wide {v w : Width} (x : BitVec v.bits) {u : Value} (h : u.toInt? = some x.toInt)
    (signed : Bool) : convert (.int v) (.int w) signed u =
      .ok (.int w (if signed then x.signExtend w.bits else x.setWidth w.bits).toInt) := by
  cases signed with
  | true => exact Machine.convert_signed x h
  | false => exact Machine.convert_unsigned x h

theorem convert_int {v : Width} (x : BitVec v.bits) {u : Value} (h : u.toInt? = some x.toInt)
    (signed : Bool) : convert (.int v) t.kind signed u = .ok (resize signed x t).value := by
  cases t with
  | i1 =>
    have hbit : (resize signed x .i1).value = .bool (x.setWidth 1 == 1#1) := by
      cases signed with
      | false => rfl
      | true =>
        have hle : 1 ≤ v.bits := by cases v <;> decide
        show Value.bool (x.signExtend 1 == 1#1) = _
        rw [BitVec.signExtend_eq_setWidth_of_le x hle]
    rw [hbit]
    exact Machine.convert_to_bit x h signed
  | i8 => exact convert_wide (w := .w8) x h signed
  | i16 => exact convert_wide (w := .w16) x h signed
  | i32 => exact convert_wide (w := .w32) x h signed
  | i64 => exact convert_wide (w := .w64) x h signed
  | i128 => exact convert_wide (w := .w128) x h signed

/-- The machine computes the result of a conversion, to whatever width. -/
theorem convert_resize (x : BitVec s.bits) (signed : Bool) :
    convert s.kind t.kind signed (Word.value ⟨s, x⟩) = .ok (resize signed x t).value := by
  cases s with
  | i1 => exact convert_bit x signed
  | i8 => exact convert_int (v := .w8) x rfl signed
  | i16 => exact convert_int (v := .w16) x rfl signed
  | i32 => exact convert_int (v := .w32) x rfl signed
  | i64 => exact convert_int (v := .w64) x rfl signed
  | i128 => exact convert_int (v := .w128) x rfl signed

theorem conversion?_eq_resize {x : Word} {r : BitVec t.bits} (h : conversion? x t opcode = some r)
    (hop : opcode ≠ .freeze) : ⟨t, r⟩ = resize (Lower.isSigned opcode) x.val t := by
  unfold conversion? at h
  split at h
  · split at h <;> cases h
    rfl
  · split at h <;> cases h
    rfl
  · split at h <;> cases h
    rfl
  · exact absurd rfl hop
  · cases h

end Stackify.Ssa
