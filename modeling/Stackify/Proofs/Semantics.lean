import Stackify.Proofs.Provenance

/-!
What functions of the source compute, as far as they compute with integers only.

Values are words of six types, in two's complement. A function runs instruction by instruction; the
phis of a block take their values together when control enters it. Where an instruction has no
meaning here, or none for the values at hand (a division by zero, operands of other types), the run
goes no further:

    f.call n args = some v        the call returns `v` within `n` steps
-/

namespace Stackify.Flow.IntPredicate

/-- Whether two words stand in the relation. -/
def holds {w : Nat} (x y : BitVec w) : IntPredicate → Bool
  | eq => x == y
  | ne => x != y
  | ugt => y.ult x
  | uge => y.ule x
  | ult => x.ult y
  | ule => x.ule y
  | sgt => y.slt x
  | sge => y.sle x
  | slt => x.slt y
  | sle => x.sle y

end Stackify.Flow.IntPredicate

namespace Stackify.Ssa

open Stackify.Flow (IntPredicate)
open List Option

/-! ## Words -/

/-- The types of words. -/
inductive IntTy where
  | i1 | i8 | i16 | i32 | i64 | i128
  deriving DecidableEq, Repr

def IntTy.bits : IntTy → Nat
  | i1 => 1
  | i8 => 8
  | i16 => 16
  | i32 => 32
  | i64 => 64
  | i128 => 128

/-- The type of words that a source type is. -/
def Ty.int? : Ty → Option IntTy
  | .int 1 => some .i1
  | .int 8 => some .i8
  | .int 16 => some .i16
  | .int 32 => some .i32
  | .int 64 => some .i64
  | .int 128 => some .i128
  | _ => none

variable {t : IntTy} {opcode : Opcode} {info : Info} {x y : BitVec t.bits}

theorem Ty.int?_eq_some {ty : Ty} : ty.int? = some t ↔ ty = .int t.bits := by
  constructor
  · intro h
    unfold Ty.int? at h
    split at h <;> cases h <;> rfl
  · rintro rfl
    cases t <;> rfl

structure Word where
  ty : IntTy
  val : BitVec ty.bits
  deriving DecidableEq

namespace Word

def ofInt (t : IntTy) (n : Int) : Word := ⟨t, .ofInt t.bits n⟩

/-- The bits of a word of the given type. -/
def as (x : Word) (t : IntTy) : Option (BitVec t.bits) :=
  if h : x.ty = t then some (h ▸ x.val) else none

theorem as_eq_some {x : Word} {b : BitVec t.bits} : x.as t = some b ↔ x = ⟨t, b⟩ := by
  obtain ⟨s, a⟩ := x
  unfold as
  split
  · next h =>
    subst h
    simp
  · next h =>
    have hne : (⟨s, a⟩ : Word) ≠ ⟨t, b⟩ := fun heq => h (congrArg Word.ty heq)
    simp [hne]

end Word

/-! ## Operations -/

/-- Arithmetic at the width of its operands; shifts move by an amount modulo the width. -/
def arithmetic? {w : Nat} (x y : BitVec w) : Opcode → Option (BitVec w)
  | .add => some (x + y)
  | .sub => some (x - y)
  | .mul => some (x * y)
  | .udiv => if y = 0 then none else some (x / y)
  | .sdiv => if y = 0 then none else some (x.sdiv y)
  | .urem => if y = 0 then none else some (x % y)
  | .srem => if y = 0 then none else some (x.srem y)
  | .shl => some (x <<< (y.toNat % w))
  | .lshr => some (x >>> (y.toNat % w))
  | .ashr => some (x.sshiftRight (y.toNat % w))
  | .and => some (x &&& y)
  | .or => some (x ||| y)
  | .xor => some (x ^^^ y)
  | _ => none

/-- The words of the given type that words of another type become. -/
def conversion? (x : Word) (t : IntTy) : Opcode → Option (BitVec t.bits)
  | .trunc => if t.bits < x.ty.bits then some (x.val.setWidth t.bits) else none
  | .zext => if x.ty.bits < t.bits then some (x.val.setWidth t.bits) else none
  | .sext => if x.ty.bits < t.bits then some (x.val.signExtend t.bits) else none
  | .freeze => x.as t
  | _ => none

/-- The relation that a comparison decides. -/
def comparison? : Info → Option IntPredicate
  | .predicate code => IntPredicate.ofCode? code
  | _ => none

/-- Whether two words of one type stand in a relation, as a bit. -/
def relation? (info : Info) (x y : Word) : (t : IntTy) → Option (BitVec t.bits)
  | .i1 => do
    let b ← y.as x.ty
    let p ← comparison? info
    return .ofBool (p.holds x.val b)
  | _ => none

/-- The result of an operation with the given type. -/
def operate (opcode : Opcode) (info : Info) (t : IntTy) : List Word → Option (BitVec t.bits)
  | [x] => conversion? x t opcode
  | [x, y] =>
    if opcode = .icmp then relation? info x y t
    else do
      let a ← x.as t
      let b ← y.as t
      arithmetic? a b opcode
  | [c, x, y] =>
    if opcode = .select then do
      let b ← c.as .i1
      let x ← x.as t
      let y ← y.as t
      return if b = 1 then x else y
    else none
  | _ => none

/-! ## Operands -/

abbrev Env := ValueId → Option Word

def Env.empty : Env := fun _ => none

/-- The environment in which values have been assigned, all at once. -/
def Env.assign (ρ : Env) (values : List (ValueId × Word)) : Env :=
  fun id => (values.lookup id).or (ρ id)

mutual

def evaluate (ρ : Env) : Operand → Option Word
  | .value id => ρ id
  | .const (.int ty n) => ty.int?.map fun t => .ofInt t n
  | .expr opcode ty operands info => do
    let t ← ty.int?
    let ws ← evaluateAll ρ operands
    return ⟨t, ← operate opcode info t ws⟩
  | .const _ | .block _ | .global _ | .function _ => none

def evaluateAll (ρ : Env) : List Operand → Option (List Word)
  | [] => some []
  | o :: os => do return (← evaluate ρ o) :: (← evaluateAll ρ os)

end

def Operation.evaluate (ρ : Env) (x : Operation) : Option Word :=
  Ssa.evaluate ρ (.expr x.opcode x.ty x.operands x.info)

/-- A way to give words to operands. -/
abbrev Evaluation := Env → Operand → Word → Prop

/-- The words that are computed. -/
def Evaluates : Evaluation := fun ρ o w => evaluate ρ o = some w

/-- An operation as an expression. -/
def Operation.operand (x : Operation) : Operand := .expr x.opcode x.ty x.operands x.info

/-! ## Control -/

/-- The phis in front of a block. -/
def Block.phis (b : Block) : List Instruction := b.instructions.takeWhile fun i => i.opcode = .phi

/-- The instructions behind the phis. -/
def Block.body (b : Block) : List Instruction := b.instructions.dropWhile fun i => i.opcode = .phi

/-- The value that a phi takes when control comes from a block. -/
def phiValue? (ρ : Env) (source : BlockId) (i : Instruction) : Option (ValueId × Word) :=
  match i.info with
  | .phi incoming => do
    let o ← (incoming.idxOf? source).bind (i.operands[·]?)
    let v ← evaluate ρ o
    if i.ty.int? = some v.ty then some (i.id, v) else none
  | _ => none

/-- A place in a run: the current block, what is left of it, and the values so far. -/
structure Config where
  block : BlockId
  rest : List Instruction
  env : Env

/-- Goes along an edge. -/
def Function.enter (f : Function) (source target : BlockId) (ρ : Env) : Option Config := do
  let b ← f.block? target
  let values ← b.phis.mapM (phiValue? ρ source)
  return ⟨target, b.body, ρ.assign values⟩

/-- Where control goes at the end of a block. -/
inductive Exit where
  | jump (target : BlockId)
  | ret (v : Option Word)

/-- The target of the first case that has the value. -/
def caseTarget? (v : Word) (default : BlockId) : List Operand → Option BlockId
  | [] => some default
  | .const (.int ty n) :: .block target :: rest =>
    if ty.int? ≠ some v.ty then none
    else if .ofInt v.ty n = v then some target
    else caseTarget? v default rest
  | _ => none

def exit? (ρ : Env) (i : Instruction) : Option Exit :=
  match i.opcode, i.operands with
  | .ret, [] => some (.ret none)
  | .ret, [o] => (evaluate ρ o).map fun v => .ret (some v)
  | .br, [.block target] => some (.jump target)
  | .br, [o, .block yes, .block no] => do
    let b ← (← evaluate ρ o).as .i1
    return .jump (if b = 1 then yes else no)
  | .switch, o :: .block default :: cases => do
    let v ← evaluate ρ o
    return .jump (← caseTarget? v default cases)
  | _, _ => none

/-- The place after a step, or the result of the call. -/
inductive Progress where
  | running (c : Config)
  | returned (v : Option Word)

namespace Function

/-- Whether a function of this type may return the result. -/
def returns (f : Function) : Option Word → Bool
  | none => f.type.ret = .void
  | some v => f.type.ret.int? = some v.ty

/-- One instruction. -/
def step (f : Function) (c : Config) : Option Progress :=
  match c.rest with
  | [] => none
  | i :: rest =>
    if i.isTerminator then
      match exit? c.env i with
      | some (.jump target) => (f.enter c.block target c.env).map .running
      | some (.ret v) => if f.returns v then some (.returned v) else none
      | none => none
    else (i.operation.evaluate c.env).map fun v =>
      .running ⟨c.block, rest, c.env.assign [(i.id, v)]⟩

/-- Runs at most `n` steps. -/
def run (f : Function) : Nat → Config → Option (Option Word)
  | 0, _ => none
  | n + 1, c =>
    match f.step c with
    | some (.running c) => f.run n c
    | some (.returned v) => some v
    | none => none

/-- Where a call starts, for arguments of the parameters' types. -/
def start (f : Function) (args : List Word) : Option Config := do
  let b ← f.blocks.head?
  if f.params.map (·.ty.int?) = args.map fun v => some v.ty then
    some ⟨b.id, b.instructions, Env.empty.assign ((f.params.map (·.id)).zip args)⟩
  else none

def call (f : Function) (n : Nat) (args : List Word) : Option (Option Word) :=
  (f.start args).bind (f.run n)

end Function

/-! ## Runs through blocks -/

/-- Instructions one after the other assign their results; phis have theirs already. -/
inductive Executes (E : Evaluation) : Env → List Instruction → Env → Prop
  | nil {ρ : Env} : Executes E ρ [] ρ
  | phi {ρ ρ' : Env} {i : Instruction} {is : List Instruction} :
      i.opcode = .phi → Executes E ρ is ρ' → Executes E ρ (i :: is) ρ'
  | cons {ρ ρ' : Env} {i : Instruction} {is : List Instruction} {w : Word} :
      E ρ i.operation.operand w → Executes E (ρ.assign [(i.id, w)]) is ρ' → Executes E ρ
        (i :: is) ρ'

variable {E : Evaluation} {ρ ρ₁ ρ' : Env} {is is' : List Instruction}

theorem Executes.append (h : Executes E ρ is ρ₁) (h' : Executes E ρ₁ is' ρ') :
    Executes E ρ (is ++ is') ρ' := by
  induction h with
  | nil => exact h'
  | phi hi _ ih => exact .phi hi (ih h')
  | cons hw _ ih => exact .cons hw (ih h')

theorem Executes.phis (h : ∀ i ∈ is, i.opcode = .phi) : Executes E ρ is ρ := by
  induction is with
  | nil => exact .nil
  | cons i is ih =>
    rw [forall_mem_cons] at h
    exact .phi h.1 (ih h.2)

/-- A run that returns gets through the instructions of a block and on from its last one. -/
theorem Function.run_block {f : Function} {n : Nat} {block : BlockId} {last : Instruction}
    {v : Option Word} (h : f.run n ⟨block, is ++ [last], ρ⟩ = some v)
    (his : ∀ i ∈ is, i.isTerminator = false) (hlast : last.isTerminator = true) :
    ∃ ρ', Executes Evaluates ρ is ρ' ∧ ((exit? ρ' last = some (.ret v) ∧ f.returns v = true) ∨
      ∃ target c k, exit? ρ' last = some (.jump target) ∧ f.enter block target ρ' = some c ∧ k < n ∧
        f.run k c = some v) := by
  induction is generalizing n ρ with
  | nil =>
    refine ⟨ρ, .nil, ?_⟩
    cases n with
    | zero => cases h
    | succ n =>
      simp only [nil_append, run, step, hlast, if_true] at h
      cases hx : exit? ρ last with
      | none => simp [hx] at h
      | some e =>
        cases e with
        | jump target =>
          simp only [hx] at h
          cases hc : f.enter block target ρ with
          | none => simp [hc] at h
          | some c =>
            simp only [hc, map_some] at h
            exact .inr ⟨target, c, n, rfl, hc, by omega, h⟩
        | ret v' =>
          simp only [hx] at h
          split at h
          · next heq =>
            split at heq <;> cases heq
          · next heq =>
            split at heq
            · next hr =>
              cases heq
              cases h
              exact .inl ⟨rfl, hr⟩
            · cases heq
          · cases h
  | cons i is ih =>
    rw [forall_mem_cons] at his
    cases n with
    | zero => cases h
    | succ n =>
      simp only [cons_append, run, step, his.1, Bool.false_eq_true, if_false] at h
      cases hw : i.operation.evaluate ρ with
      | none => simp [hw] at h
      | some w =>
        simp only [hw, map_some] at h
        obtain ⟨ρ', hx, hend⟩ := ih h his.2
        refine ⟨ρ', .cons hw hx, hend.imp_right ?_⟩
        rintro ⟨target, c, k, he, hc, hk, hr⟩
        exact ⟨target, c, k, he, hc, by omega, hr⟩

/-! ## Constants -/

/-- Whether an operation on words of the given types always has a result. -/
def isTotal (opcode : Opcode) (info : Info) (t : IntTy) : List IntTy → Bool
  | [s] =>
    match opcode with
    | .trunc => t.bits < s.bits
    | .zext | .sext => s.bits < t.bits
    | _ => false
  | [s, s'] =>
    match opcode with
    | .icmp => t = .i1 && s = s' && (comparison? info).isSome
    | .add | .sub | .mul | .shl | .lshr | .ashr | .and | .or | .xor => s = t && s' = t
    | _ => false
  | _ => false

mutual

/-- The type of a constant: an integer, or an expression of constants that always has a result. -/
def constantType? : Operand → Option IntTy
  | .const (.int ty _) => ty.int?
  | .expr opcode ty operands info => do
    let t ← ty.int?
    let ts ← constantTypes? operands
    if isTotal opcode info t ts then some t else none
  | .value _ | .const _ | .block _ | .global _ | .function _ => none

def constantTypes? : List Operand → Option (List IntTy)
  | [] => some []
  | o :: os => do return (← constantType? o) :: (← constantTypes? os)

end

theorem operate_arithmetic {b : BitVec t.bits} (h : arithmetic? x y opcode = some b)
    (hop : opcode ≠ .icmp) : operate opcode info t [⟨t, x⟩, ⟨t, y⟩] = some b := by
  have has (z : BitVec t.bits) : Word.as ⟨t, z⟩ t = some z := Word.as_eq_some.mpr rfl
  rw [operate, if_neg hop, has, has]
  exact h

theorem operate_icmp {p : IntPredicate} (h : comparison? info = some p) :
    operate .icmp info .i1 [⟨t, x⟩, ⟨t, y⟩] = some (.ofBool (p.holds x y)) := by
  have has : Word.as ⟨t, y⟩ t = some y := Word.as_eq_some.mpr rfl
  show (Word.as ⟨t, y⟩ t).bind (fun b => (comparison? info).bind fun p =>
    some (BitVec.ofBool (p.holds x b))) = _
  rw [has, h]
  rfl

theorem operate_of_isTotal {ws : List Word} (h : isTotal opcode info t (ws.map Word.ty) = true) :
    ∃ b, operate opcode info t ws = some b := by
  match ws with
  | [] => cases h
  | [x] =>
    simp only [map_cons, map_nil, isTotal] at h
    split at h
    · exact ⟨_, if_pos (of_decide_eq_true h)⟩
    · exact ⟨_, if_pos (of_decide_eq_true h)⟩
    · exact ⟨_, if_pos (of_decide_eq_true h)⟩
    · cases h
  | [⟨s, x⟩, ⟨s', y⟩] =>
    simp only [map_cons, map_nil, isTotal] at h
    split at h
    case h_1 =>
      simp only [Bool.and_eq_true, decide_eq_true_eq] at h
      obtain ⟨⟨rfl, rfl⟩, hp⟩ := h
      obtain ⟨p, hp⟩ := isSome_iff_exists.mp hp
      exact ⟨_, operate_icmp hp⟩
    case h_11 => cases h
    all_goals
      simp only [Bool.and_eq_true, decide_eq_true_eq] at h
      obtain ⟨rfl, rfl⟩ := h
      exact ⟨_, operate_arithmetic rfl (by decide)⟩
  | _ :: _ :: _ :: _ => cases h

mutual

/-- Constants have a word of their type. -/
theorem evaluate_of_constantType? {ρ : Env} {t : IntTy} (o : Operand)
    (h : constantType? o = some t) : ∃ w, evaluate ρ o = some w ∧ w.ty = t := by
  match o with
  | .const (.int ty n) =>
    rw [constantType?] at h
    exact ⟨.ofInt t n, by rw [evaluate, h]; rfl, rfl⟩
  | .expr opcode ty operands info =>
    rw [constantType?] at h
    obtain ⟨t', ht, h⟩ := bind_eq_some_iff.mp h
    obtain ⟨ts, hts, h⟩ := bind_eq_some_iff.mp h
    split at h
    · next htotal =>
      cases h
      obtain ⟨ws, hws, rfl⟩ := evaluateAll_of_constantTypes? (ρ := ρ) operands hts
      obtain ⟨b, hb⟩ := operate_of_isTotal htotal
      exact ⟨⟨t, b⟩, by simp [evaluate, ht, hws, hb], rfl⟩
    · cases h

theorem evaluateAll_of_constantTypes? {ρ : Env} {ts : List IntTy} (os : List Operand)
    (h : constantTypes? os = some ts) : ∃ ws, evaluateAll ρ os = some ws ∧ ws.map Word.ty = ts := by
  match os with
  | [] =>
    cases h
    exact ⟨[], rfl, rfl⟩
  | o :: os =>
    rw [constantTypes?] at h
    obtain ⟨t, ht, h⟩ := bind_eq_some_iff.mp h
    obtain ⟨ts', hts, h⟩ := bind_eq_some_iff.mp h
    cases h
    obtain ⟨w, hw, rfl⟩ := evaluate_of_constantType? (ρ := ρ) o ht
    obtain ⟨ws, hws, rfl⟩ := evaluateAll_of_constantTypes? (ρ := ρ) os hts
    exact ⟨w :: ws, by simp [evaluateAll, hw, hws], rfl⟩

end

end Stackify.Ssa
