import Stackify.Proofs.Valuation

/-!
What functions without branches compute with integers, when those of type `int n` are given `W n`
bits.

With `W = id` this is arithmetic in two's complement at the widths of the types; with `W = stored`
it is what the machine does, which keeps integers in the smallest words with room for them. The two
are the same where no width is rounded (`Function.compute_congr`). A function that is well typed has
a result for all arguments of the right widths, unless a divisor is zero
(`Function.StraightLine.compute_ok_or_zeroDivisor`).
-/

namespace Stackify.Ssa

open List Option

/-! ## Bits -/

/-- An integer in two's complement. -/
structure Bits where
  width : Nat
  val : BitVec width
  deriving DecidableEq

/-- The bits, if there are as many as asked for. -/
def Bits.as (x : Bits) (n : Nat) : Option (BitVec n) :=
  if x.width = n then some (x.val.setWidth n) else none

theorem Bits.as_eq_some {x : Bits} {n : Nat} {b : BitVec n} : x.as n = some b ↔ x = ⟨n, b⟩ := by
  obtain ⟨m, a⟩ := x
  unfold as
  split
  · next h =>
    dsimp only at h
    subst h
    simp
  · next h =>
    have hne : (⟨m, a⟩ : Bits) ≠ ⟨n, b⟩ := fun heq => h (congrArg Bits.width heq)
    simp [hne]

theorem Bits.exists_as {x : Bits} {n : Nat} (h : x.width = n) : ∃ b, x.as n = some b :=
  ⟨_, if_pos h⟩

def Word.bits (w : Word) : Bits := ⟨w.ty.bits, w.val⟩

theorem Word.bits_eq_mk {w : Word} {t : IntTy} {b : BitVec t.bits} :
    w.bits = ⟨t.bits, b⟩ ↔ w = ⟨t, b⟩ := by
  constructor
  · intro h
    obtain ⟨s, a⟩ := w
    have hty : s = t := by
      rw [← storage_bits s, ← storage_bits t]
      exact congrArg (fun x => storage x.width) h
    subst hty
    have hval : a = b := by simpa [Word.bits] using h
    rw [hval]
  · rintro rfl
    rfl

theorem Word.bits_inj {w w' : Word} : w.bits = w'.bits ↔ w = w' := bits_eq_mk

/-- How many bits are kept of integers with some number of bits. -/
def stored (n : Nat) : Nat := (storage n).bits

/-! ## Operations -/

/-- Why a computation has no result. -/
inductive Obstacle where
  | zeroDivisor
  /-- An operation, or operands for it, that have no meaning here. -/
  | undefined
  deriving DecidableEq

def Opcode.divides : Opcode → Bool
  | .udiv | .sdiv | .urem | .srem => true
  | _ => false

def arithmeticAt {n : Nat} (x y : BitVec n) (opcode : Opcode) : Except Obstacle (BitVec n) :=
  if opcode.divides && y = 0 then .error .zeroDivisor
  else
    match arithmetic? x y opcode with
    | some z => .ok z
    | none => .error .undefined

def conversionAt (x : Bits) (n : Nat) : Opcode → Except Obstacle (BitVec n)
  | .trunc | .zext => .ok (x.val.setWidth n)
  | .sext => .ok (x.val.signExtend n)
  | _ => .error .undefined

/-- Whether two integers of one width stand in a relation, as a bit. -/
def relationAt (info : Info) (x y : Bits) (n : Nat) : Except Obstacle (BitVec n) :=
  match y.as x.width, comparison? info with
  | some b, some p =>
    if n = 1 then .ok ((BitVec.ofBool (p.holds x.val b)).setWidth n) else .error .undefined
  | _, _ => .error .undefined

/-- The result of an operation, with the given number of bits. -/
def operateAt (opcode : Opcode) (info : Info) (n : Nat) : List Bits → Except Obstacle (BitVec n)
  | [x] => conversionAt x n opcode
  | [x, y] =>
    if opcode = .icmp then relationAt info x y n
    else
      match x.as n, y.as n with
      | some a, some b => arithmeticAt a b opcode
      | _, _ => .error .undefined
  | _ => .error .undefined

/-! ## Functions -/

abbrev Assignment := ValueId → Option Bits

def Assignment.set (ρ : Assignment) (id : ValueId) (x : Bits) : Assignment :=
  fun id' => if id' = id then some x else ρ id'

section
variable (W : Nat → Nat)

mutual

def evaluateAt (ρ : Assignment) : Operand → Except Obstacle Bits
  | .value id =>
    match ρ id with
    | some x => .ok x
    | none => .error .undefined
  | .const (.int (.int n) k) => .ok ⟨W n, .ofInt (W n) k⟩
  | .expr opcode (.int n) operands info => do
    let xs ← evaluateAllAt ρ operands
    return ⟨W n, ← operateAt opcode info (W n) xs⟩
  | _ => .error .undefined

def evaluateAllAt (ρ : Assignment) : List Operand → Except Obstacle (List Bits)
  | [] => .ok []
  | o :: os => do return (← evaluateAt ρ o) :: (← evaluateAllAt ρ os)

end

/-- Instructions one after the other assign their results; the last one returns. -/
def computeFrom (ρ : Assignment) : List Instruction → Except Obstacle Bits
  | [] => .error .undefined
  | [i] =>
    match i.opcode, i.operands with
    | .ret, [o] => evaluateAt W ρ o
    | _, _ => .error .undefined
  | i :: rest => do
    let x ← evaluateAt W ρ i.operation.operand
    computeFrom (ρ.set i.id x) rest

/-- What a function of one block returns. -/
def Function.compute (f : Function) (args : List Bits) : Except Obstacle Bits :=
  match f.blocks with
  | [b] => computeFrom W (fun id => ((f.params.map (·.id)).zip args).lookup id) b.instructions
  | _ => .error .undefined

end

/-! ## Widths -/

def Ty.width? : Ty → Option Nat
  | .int n => some n
  | _ => none

mutual

/-- The widths of the types that are written in an operand. -/
def Operand.widths : Operand → List Nat
  | .const (.int ty _) => ty.width?.toList
  | .expr _ ty operands _ => ty.width?.toList ++ Operand.allWidths operands
  | _ => []

def Operand.allWidths : List Operand → List Nat
  | [] => []
  | o :: os => o.widths ++ Operand.allWidths os

end

def Function.widths (f : Function) : List Nat :=
  f.params.filterMap (·.ty.width?) ++ f.instructions.flatMap fun i => i.operation.operand.widths

section
variable {W W' : Nat → Nat}

mutual

theorem evaluateAt_congr (ρ : Assignment) (o : Operand) (h : ∀ n ∈ o.widths, W n = W' n) :
    evaluateAt W ρ o = evaluateAt W' ρ o := by
  cases o with
  | value id => rw [evaluateAt, evaluateAt]
  | const c =>
    cases c with
    | int ty k =>
      cases ty with
      | int n =>
        have hn : W n = W' n := h n (by simp [Operand.widths, Ty.width?])
        rw [evaluateAt, evaluateAt, hn]
      | _ => rfl
    | _ => rfl
  | expr opcode ty operands info =>
    rw [Operand.widths, forall_mem_append] at h
    cases ty with
    | int n =>
      have hn : W n = W' n := h.1 n (by simp [Ty.width?])
      rw [evaluateAt, evaluateAt, evaluateAllAt_congr ρ operands h.2, hn]
    | _ => rfl
  | block _ | global _ | function _ => rfl

theorem evaluateAllAt_congr (ρ : Assignment) (os : List Operand)
    (h : ∀ n ∈ Operand.allWidths os, W n = W' n) :
    evaluateAllAt W ρ os = evaluateAllAt W' ρ os := by
  cases os with
  | nil => rfl
  | cons o os =>
    rw [Operand.allWidths, forall_mem_append] at h
    rw [evaluateAllAt, evaluateAllAt, evaluateAt_congr ρ o h.1, evaluateAllAt_congr ρ os h.2]

end

theorem computeFrom_congr {ρ : Assignment} {is : List Instruction}
    (h : ∀ i ∈ is, ∀ n ∈ i.operation.operand.widths, W n = W' n) :
    computeFrom W ρ is = computeFrom W' ρ is := by
  induction is generalizing ρ with
  | nil => rfl
  | cons i rest ih =>
    rw [forall_mem_cons] at h
    cases rest with
    | nil =>
      unfold computeFrom
      split
      · next o _ hops =>
        refine evaluateAt_congr ρ o fun n hn => h.1 n ?_
        simp [Instruction.operation, Operation.operand, Operand.widths, hops, Operand.allWidths, hn]
      · rfl
    | cons j rest =>
      have hrest (x : Bits) : computeFrom W (ρ.set i.id x) (j :: rest) = computeFrom W'
          (ρ.set i.id x) (j :: rest) := ih h.2
      show (evaluateAt W ρ i.operation.operand >>= fun x =>
        computeFrom W (ρ.set i.id x) (j :: rest)) = (evaluateAt W' ρ i.operation.operand >>=
          fun x => computeFrom W' (ρ.set i.id x) (j :: rest))
      rw [evaluateAt_congr ρ _ h.1]
      simp only [hrest]

/-- What a function computes depends on the widths of its own types only. -/
theorem Function.compute_congr {f : Function} (h : ∀ n ∈ f.widths, W n = W' n) (args : List Bits) :
    f.compute W args = f.compute W' args := by
  unfold compute
  split
  · next b hb =>
    refine computeFrom_congr fun i hi n hn => h n (mem_append_right _ (mem_flatMap.mpr ⟨i, ?_, hn⟩))
    exact mem_flatMap.mpr ⟨b, by simp [hb], hi⟩
  · rfl

end

/-! ## Types -/

/-- Whether the operation takes an integer with `k` bits to one with `n` bits. -/
def Opcode.converts (k n : Nat) : Opcode → Bool
  | .trunc => n < k
  | .zext | .sext => k < n
  | _ => false

def Opcode.isArithmetic : Opcode → Bool
  | .add | .sub | .mul | .udiv | .sdiv | .urem | .srem | .shl | .lshr | .ashr | .and | .or | .xor =>
    true
  | _ => false

/-- Whether an operation on integers with these numbers of bits has a result with the given
number. -/
def accepts (opcode : Opcode) (info : Info) (n : Nat) : List Nat → Bool
  | [k] => opcode.converts k n
  | [k, k'] =>
    if opcode = .icmp then n = 1 && k = k' && (comparison? info).isSome
    else opcode.isArithmetic && k = n && k' = n
  | _ => false

section
variable (Γ : ValueId → Option Nat)

mutual

/-- The number of bits of an operand that is well typed. -/
def widthOf? : Operand → Option Nat
  | .value id => Γ id
  | .const (.int (.int n) _) => some n
  | .expr opcode (.int n) operands info => do
    let ns ← widthsOf? operands
    if accepts opcode info n ns then some n else none
  | _ => none

def widthsOf? : List Operand → Option (List Nat)
  | [] => some []
  | o :: os => do return (← widthOf? o) :: (← widthsOf? os)

end

end

/-- Whether instructions are well typed and the last one returns an integer with the given number of
bits. -/
def returnsWidth (n : Nat) : (Γ : ValueId → Option Nat) → List Instruction → Bool
  | _, [] => false
  | Γ, [i] =>
    match i.opcode, i.operands with
    | .ret, [o] => widthOf? Γ o = some n
    | _, _ => false
  | Γ, i :: rest =>
    match widthOf? Γ i.operation.operand with
    | some k => returnsWidth n (fun id => if id = i.id then some k else Γ id) rest
    | none => false

def Function.isStraightLine (f : Function) : Bool :=
  match f.blocks, f.type.ret with
  | [b], .int n =>
    returnsWidth n (fun id => (f.params.find? fun q => q.id = id).bind (·.ty.width?)) b.instructions
  | _, _ => false

/-- A function of one block that computes with integers, is well typed and has, on bits, only
operations that suit them. -/
structure Function.StraightLine (f : Function) : Prop where
  regular : f.Regular
  typed : f.isStraightLine = true
  bits : ∀ x ∈ f.operations, x.FitsBits

instance (f : Function) : Decidable f.StraightLine :=
  decidable_of_iff (_ ∧ _ ∧ _) ⟨fun ⟨hr, ht, hb⟩ => ⟨hr, ht, hb⟩, fun h =>
    ⟨h.regular, h.typed, h.bits⟩⟩

/-! ## Results -/

/-- There is a result with the given number of bits, or a divisor is zero. -/
def HasWidth (n : Nat) (x : Except Obstacle Bits) : Prop :=
  (∃ y, x = .ok y ∧ y.width = n) ∨ x = .error .zeroDivisor

/-- Values have the numbers of bits that go with their types. -/
def Assignment.Fits (W : Nat → Nat) (ρ : Assignment) (Γ : ValueId → Option Nat) : Prop :=
  ∀ id n, Γ id = some n → ∃ x, ρ id = some x ∧ x.width = W n

section
variable {W : Nat → Nat} {ρ : Assignment} {Γ : ValueId → Option Nat} {opcode : Opcode}
  {info : Info} {n : Nat}

theorem Assignment.Fits.set (h : ρ.Fits W Γ) {id : ValueId} {x : Bits} (hx : x.width = W n) :
    (ρ.set id x).Fits W fun id' => if id' = id then some n else Γ id' := by
  intro id' n' hn'
  unfold Assignment.set
  dsimp only at hn' ⊢
  split at hn'
  · next hid =>
    cases hn'
    exact ⟨x, if_pos hid, hx⟩
  · next hid =>
    rw [if_neg hid]
    exact h id' n' hn'

/-- Arithmetic has a result, unless it divides by zero. -/
theorem arithmeticAt_ok_or_zeroDivisor (x y : BitVec n) (h : opcode.isArithmetic = true) :
    (∃ z, arithmeticAt x y opcode = .ok z) ∨ arithmeticAt x y opcode = .error .zeroDivisor := by
  unfold arithmeticAt
  split
  · exact .inr rfl
  · next hdivisor =>
    have hresult : ∃ z, arithmetic? x y opcode = some z := by
      cases opcode
      case udiv | sdiv | urem | srem => exact ⟨_, if_neg (by simpa [Opcode.divides] using hdivisor)⟩
      case add | sub | mul | shl | lshr | ashr | and | or | xor => exact ⟨_, rfl⟩
      all_goals cases h
    obtain ⟨z, hz⟩ := hresult
    rw [hz]
    exact .inl ⟨z, rfl⟩

theorem conversionAt_ok (x : Bits) {k m : Nat} (h : opcode.converts k m = true) :
    ∃ z, conversionAt x n opcode = .ok z := by
  cases opcode
  case trunc | zext | sext => exact ⟨_, rfl⟩
  all_goals cases h

theorem operateAt_ok_or_zeroDivisor (hone : W 1 = 1) {ns : List Nat} {xs : List Bits}
    (h : accepts opcode info n ns = true) (hxs : xs.map Bits.width = ns.map W) :
    (∃ z, operateAt opcode info (W n) xs = .ok z) ∨ operateAt opcode info
    (W n) xs = .error .zeroDivisor := by
  unfold accepts at h
  split at h
  · next k =>
    obtain ⟨x, rfl, hx⟩ := map_eq_singleton_iff.mp hxs
    exact .inl (conversionAt_ok x h)
  · next k k' =>
    obtain ⟨x, xs, rfl, hx, hxs⟩ := map_eq_cons_iff.mp hxs
    obtain ⟨y, rfl, hy⟩ := map_eq_singleton_iff.mp hxs
    rw [operateAt]
    split at h
    · next hop =>
      simp only [Bool.and_eq_true, decide_eq_true_eq] at h
      obtain ⟨⟨rfl, rfl⟩, hp⟩ := h
      obtain ⟨p, hp⟩ := isSome_iff_exists.mp hp
      obtain ⟨b, hb⟩ := Bits.exists_as (hy.trans hx.symm)
      rw [if_pos hop, relationAt, hb, hp]
      exact .inl ⟨_, if_pos hone⟩
    · next hop =>
      simp only [Bool.and_eq_true, decide_eq_true_eq] at h
      obtain ⟨⟨harith, rfl⟩, rfl⟩ := h
      obtain ⟨a, ha⟩ := Bits.exists_as hx
      obtain ⟨b, hb⟩ := Bits.exists_as hy
      rw [if_neg hop, ha, hb]
      exact arithmeticAt_ok_or_zeroDivisor a b harith
  · cases h

mutual

/-- An operand that is well typed has a result, unless a divisor is zero. -/
theorem evaluateAt_hasWidth (hone : W 1 = 1) (hρ : ρ.Fits W Γ) {n : Nat} (o : Operand)
    (h : widthOf? Γ o = some n) : HasWidth (W n) (evaluateAt W ρ o) := by
  cases o with
  | value id =>
    rw [widthOf?] at h
    obtain ⟨x, hx, hwidth⟩ := hρ id n h
    rw [evaluateAt, hx]
    exact .inl ⟨x, rfl, hwidth⟩
  | const c =>
    cases c with
    | int ty k =>
      cases ty with
      | int m =>
        cases h
        rw [evaluateAt]
        exact .inl ⟨_, rfl, rfl⟩
      | _ => cases h
    | _ => cases h
  | expr opcode ty operands info =>
    cases ty with
    | int m =>
      rw [widthOf?] at h
      obtain ⟨ns, hns, h⟩ := bind_eq_some_iff.mp h
      split at h
      · next haccepts =>
        cases h
        rw [evaluateAt]
        rcases evaluateAllAt_hasWidths hone hρ operands hns with ⟨xs, hxs, hwidths⟩ | hzero
        · rw [hxs]
          rcases operateAt_ok_or_zeroDivisor hone haccepts hwidths with ⟨z, hz⟩ | hzero
          · exact .inl ⟨⟨W n, z⟩, bind_eq_ok.mpr ⟨xs, rfl, bind_eq_ok.mpr ⟨z, hz, rfl⟩⟩, rfl⟩
          · refine .inr ?_
            show (operateAt opcode info (W n) xs >>= _) = _
            rw [hzero]
            rfl
        · rw [hzero]
          exact .inr rfl
      · cases h
    | _ => cases h
  | block _ | global _ | function _ => cases h

theorem evaluateAllAt_hasWidths (hone : W 1 = 1) (hρ : ρ.Fits W Γ) {ns : List Nat}
    (os : List Operand) (h : widthsOf? Γ os = some ns) :
    (∃ xs, evaluateAllAt W ρ os = .ok xs ∧ xs.map Bits.width = ns.map W) ∨
      evaluateAllAt W ρ os = .error .zeroDivisor := by
  cases os with
  | nil =>
    cases h
    exact .inl ⟨[], rfl, rfl⟩
  | cons o os =>
    rw [widthsOf?] at h
    obtain ⟨n, hn, h⟩ := bind_eq_some_iff.mp h
    obtain ⟨ns', hns, h⟩ := bind_eq_some_iff.mp h
    cases h
    rw [evaluateAllAt]
    rcases evaluateAt_hasWidth hone hρ o hn with ⟨x, hx, hwidth⟩ | hzero
    · rw [hx]
      rcases evaluateAllAt_hasWidths hone hρ os hns with ⟨xs, hxs, hwidths⟩ | hzero
      · rw [hxs]
        exact .inl ⟨x :: xs, rfl, congrArg₂ List.cons hwidth hwidths⟩
      · rw [hzero]
        exact .inr rfl
    · rw [hzero]
      exact .inr rfl

end

theorem computeFrom_hasWidth (hone : W 1 = 1) {is : List Instruction} (hρ : ρ.Fits W Γ)
    (h : returnsWidth n Γ is = true) : HasWidth (W n) (computeFrom W ρ is) := by
  fun_induction returnsWidth n Γ is generalizing ρ with
  | case1 => cases h
  | case2 Γ i o hop hops =>
    simp only [computeFrom, hop, hops]
    exact evaluateAt_hasWidth hone hρ o (of_decide_eq_true h)
  | case3 => cases h
  | case4 Γ i rest hrest k hk ih =>
    rw [computeFrom]
    rcases evaluateAt_hasWidth hone hρ _ hk with ⟨x, hx, hwidth⟩ | hzero
    · rw [hx]
      exact ih (hρ.set hwidth) h
    · rw [hzero]
      exact .inr rfl
    · exact hrest
  | case5 => cases h

theorem ne_phi_of_widthOf? {x : Operation} (h : widthOf? Γ x.operand = some n) :
    x.opcode ≠ .phi := by
  intro hop
  obtain ⟨opcode, ty, operands, info⟩ := x
  cases hop
  cases ty with
  | int m =>
    rw [Operation.operand, widthOf?] at h
    obtain ⟨ns, -, h⟩ := bind_eq_some_iff.mp h
    have hrefused : accepts .phi info m ns = false := by
      unfold accepts
      split <;> rfl
    rw [hrefused] at h
    cases h
  | _ => cases h

theorem ne_phi_of_returnsWidth {is : List Instruction} (h : returnsWidth n Γ is = true) :
    ∀ i ∈ is, i.opcode ≠ .phi := by
  fun_induction returnsWidth n Γ is with
  | case1 => cases h
  | case2 Γ i o hops hop => simp [hop]
  | case3 => cases h
  | case4 Γ i rest hrest k hk ih => exact forall_mem_cons.mpr ⟨ne_phi_of_widthOf? hk, ih h⟩
  | case5 => cases h

/-- Arguments fit the types of parameters. -/
theorem fits_params {ps : List Param} {args : List Bits}
    (h : Forall₂ (fun q x => ∀ n, q.ty.width? = some n → x.width = W n) ps args) :
    Assignment.Fits W (fun id => ((ps.map (·.id)).zip args).lookup id)
      fun id => (ps.find? fun q => q.id = id).bind (·.ty.width?) := by
  intro id n hn
  dsimp only at hn ⊢
  induction h with
  | nil => cases hn
  | @cons q x ps args hx _ ih =>
    rw [find?_cons] at hn
    rw [map_cons, zip_cons_cons, lookup_cons]
    by_cases hid : q.id = id
    · rw [decide_eq_true hid] at hn
      rw [beq_iff_eq.mpr hid.symm]
      exact ⟨x, rfl, hx n hn⟩
    · rw [decide_eq_false hid] at hn
      rw [beq_eq_false_iff_ne.mpr (Ne.symm hid)]
      exact ih hn

end

variable {f : Function}

theorem Function.StraightLine.exists_block (h : f.StraightLine) :
    ∃ b n, f.blocks = [b] ∧ f.type.ret = .int n ∧ returnsWidth n
      (fun id => (f.params.find? fun q => q.id = id).bind (·.ty.width?)) b.instructions = true := by
  have htyped := h.typed
  unfold isStraightLine at htyped
  split at htyped
  · next b n hb hret => exact ⟨b, n, hb, hret, htyped⟩
  · cases htyped

theorem Function.StraightLine.ne_phi (h : f.StraightLine) :
    ∀ i ∈ f.instructions, i.opcode ≠ .phi := by
  obtain ⟨b, n, hb, -, htyped⟩ := h.exists_block
  intro i hi
  rw [Function.instructions, hb, flatMap_singleton] at hi
  exact ne_phi_of_returnsWidth htyped i hi

/-- A function that is well typed has a result for arguments of the right widths, unless a divisor
is zero. -/
theorem Function.StraightLine.compute_ok_or_zeroDivisor (h : f.StraightLine) {W : Nat → Nat}
    (hone : W 1 = 1) {args : List Bits}
    (hargs : Forall₂ (fun q x => ∀ n, q.ty.width? = some n → x.width = W n) f.params args) :
    (∃ n x, f.compute W args = .ok x ∧ f.type.ret = .int n ∧ x.width = W n) ∨
      f.compute W args = .error .zeroDivisor := by
  obtain ⟨b, n, hb, hret, htyped⟩ := h.exists_block
  unfold compute
  rw [hb]
  refine (computeFrom_hasWidth hone (fits_params hargs) htyped).imp_left ?_
  rintro ⟨x, hx, hwidth⟩
  exact ⟨n, x, hx, hret, hwidth⟩

end Stackify.Ssa
