import Stackify.Proofs.Emission
import Stackify.Proofs.LastIndex

/-!
The code of nodes, blocks and bodies.

`NodeCode c z id n ops rs` says what the code of a node is made of, with one case for each kind of
node. The main statements are that lowering gives such code:

- `lowerNode_emits : c.Lowers d b [] (·.lowerNode id n) fun z _ p y => NodeCode c z id n p
  y.regions`;
- `lowerBlocks_emits`: blocks become the code of their nodes, in order.
-/

namespace Stackify.Code

/-- Operations that work on values only: no labels, no jumps, no calls and no ends. -/
def Op.isStraight : Op → Bool
  | .label _ | .branch _ | .branchTrue _ | .branchFalse _ | .switchValue _ _ | .leave _ => false
  | .call _ _ | .callIndirect _ _ | .callService _ _ | .ret | .throw | .unreachable => false
  | _ => true

/-- Operations that go on elsewhere. -/
def Op.isJump : Op → Bool
  | .branch _ | .branchTrue _ | .branchFalse _ | .switchValue _ _ | .leave _ => true
  | _ => false

end Stackify.Code

namespace Stackify.Lower

open Code (Op Const BinaryOp CompareOp NumKind Label markedLabels Region Service)
open Stackify.Flow (Node NodeId Ref Location AddressStep FloatPredicate Block)
open Ssa (BlockId FunctionType Ty)
open List

namespace Context

/-! ## Calls -/

/-- The code that pushes the arguments of a call, the further ones in a pack. -/
inductive ArgumentCode (c : Context) (pool : List Const) (args : List Ref) (fixed : Nat) :
    Bool → List Op → Prop
  | exact {p : List Op} : args.length ≤ fixed → Concat (Pushes c pool) (args.take fixed) p →
      ArgumentCode c pool args fixed false p
  | packed {p q : List Op} :
      Concat (Pushes c pool) (args.take fixed) p → Concat (Pushes c pool) (args.drop fixed) q →
        ArgumentCode c pool args fixed true (p ++ (q ++ [.packVarArgs (args.length - fixed)]))

/-- The code of a call site. -/
inductive CallCode (c : Context) (pool : List Const) (id : NodeId) (n : Node) (type : FunctionType)
    (callee : Ref) (args : List Ref) : CallTarget → List Op → Prop
  | method {e : MethodEntry} {p : List Op} : e.type.params.length ≤ args.length →
      e.type.ret.isVoid = n.resultType.isNone →
        ArgumentCode c pool args e.type.params.length e.type.variadic p →
      CallCode c pool id n type callee args (.method e)
        (p ++ .call e.index e.type.argSlots :: if e.type.ret.isVoid then [] else c.storeCode id)
  | service {s : Service} {p : List Op} :
      acceptsArguments s args.length → s.returns.isVoid = false → Concat (Pushes c pool)
        (args.take s.arity) p →
      CallCode c pool id n type callee args (.route (.service s))
        (p ++ .callService s s.arity :: c.storeCode id)
  | procedure {s : Service} {p : List Op} :
      acceptsArguments s args.length → s.returns.isVoid = true → n.resultType = none → Concat
        (Pushes c pool) (args.take s.arity) p →
      CallCode c pool id n type callee args (.route (.service s)) (p ++ [.callService s s.arity])
  /-- As a function, a memory service returns where it wrote to. -/
  | memory {s : Service} {target : Ref} {rest : List Ref} {p q : List Op} :
      acceptsArguments s args.length → s.returns.isVoid = true → isMemoryService s = true →
        args = target :: rest →
      Concat (Pushes c pool) (args.take s.arity) p → Pushes c pool target q →
      CallCode c pool id n type callee args (.route (.service s))
        (p ++ .callService s s.arity :: (q ++ c.storeCode id))
  | vaStart {list : Ref} {i : Nat} {p : List Op} :
      args = [list] → c.packedArgument? = some i → Pushes c pool list p →
        CallCode c pool id n type callee args (.route .vaStart)
          (p ++ [.loadArg i, .storeIndirect .varArgs])
  | vaEnd {p : List Op} : Concat (fun r q => ∃ p, Pushes c pool r p ∧ q = p ++ [.pop]) args p →
      CallCode c pool id n type callee args (.route .vaEnd) p
  | indirect {p q : List Op} : type.params.length ≤ args.length →
      ArgumentCode c pool args type.params.length type.variadic p → Pushes c pool callee q →
      CallCode c pool id n type callee args .indirect
        (p ++ (q ++ .callIndirect (type.params.length + type.variadic.toNat) (!type.ret.isVoid) ::
          if type.ret.isVoid then [] else c.storeCode id))

/-- Two ways to reach a callee that differ in the number of its wrapper at most. -/
inductive CallTarget.Same : CallTarget → CallTarget → Prop
  | method {e e' : MethodEntry} : e.Same e' → Same (.method e) (.method e')
  | route (r : Route) : Same (.route r) (.route r)
  | indirect : Same .indirect .indirect

theorem CallTarget.Same.mayThrow {t t' : CallTarget} (h : CallTarget.Same t t') :
    t'.mayThrow = t.mayThrow := by
  cases h with
  | method hsame =>
    rw [hsame.eq]
    rfl
  | route | indirect => rfl

section
variable {c : Context} {d : Declared} {b : Bounds} {l : Location} {id : NodeId} {n : Node}
  {type : FunctionType} {callee : Ref} {args : List Ref}

theorem pushAll_emits (h : ∀ r ∈ args, c.Known b.fails d r) :
    c.LowersPlain d b (fun c => args.forM (c.pushOperand l)) fun z _ p =>
      Concat (Pushes c z.consts) args p :=
  .forM fun r hr => pushOperand_emits (h r hr)

section
variable (h : ∀ r ∈ args, c.Known b.fails d r)
include h

theorem pushArguments_emits {fixed : Nat} {variadic : Bool} :
    c.LowersPlain d b (·.pushArguments l args fixed variadic) fun z _ p =>
      ArgumentCode c z.consts args fixed variadic p := by
  refine (pushAll_emits fun r hr => h r (mem_of_mem_take hr)).bind fun _ p => ?_
  cases variadic with
  | true =>
    rw [if_pos rfl, if_pos rfl]
    exact (pushAll_emits fun r hr => h r (mem_of_mem_drop hr)).bind fun _ q =>
      emit_emits fun z hq hp => ⟨rfl, .packed hp hq⟩
  | false =>
    rw [if_neg Bool.false_ne_true, if_neg Bool.false_ne_true]
    split
    · exact .fail rfl
    · next h =>
      refine .pure fun z hp => ⟨rfl, ?_⟩
      rw [append_nil]
      exact .exact (by omega) hp

theorem callMethod_emits {e : MethodEntry} :
    c.LowersPlain d b (·.callMethod l id n e args) fun z _ p =>
      CallCode c z.consts id n type callee args (.method e) p := by
  unfold callMethod
  dsimp only
  split
  · exact .fail_bind rfl
  · next hargs =>
    show EmitsPlain b (if e.type.ret.isVoid ≠ n.resultType.isNone then _ else _)
      (if _ then _ else _) _
    split
    · exact .fail_bind rfl
    · next hret =>
      have hret : e.type.ret.isVoid = n.resultType.isNone := by simpa using hret
      refine (pushArguments_emits h).bind fun _ p => emit_bind ?_
      have code {z : Surround} {q} (hp : ArgumentCode c z.consts args e.type.params.length
          e.type.variadic p) (hq : q = if e.type.ret.isVoid then [] else c.storeCode id) :
          CallCode c z.consts id n type callee args (.method e)
            (p ++ .call e.index e.type.argSlots :: q) := by
        rw [hq]
        exact .method (by omega) hret hp
      cases hv : e.type.ret.isVoid with
      | true => exact .pure fun z hp => ⟨rfl, code hp (by simp [hv])⟩
      | false => exact storeResult_emits fun z hp => ⟨rfl, code hp (by simp [hv])⟩

theorem callService_emits {s : Service} :
    c.LowersPlain d b (·.callService l id n s args) fun z _ p =>
      CallCode c z.consts id n type callee args (.route (.service s)) p := by
  unfold callService
  dsimp only
  split
  · exact .fail_bind rfl
  · next hargs =>
    have hargs : acceptsArguments s args.length := by simpa using hargs
    refine (pushAll_emits fun r hr => h r (mem_of_mem_take hr)).bind fun _ p => emit_bind ?_
    split
    · next hv => exact storeResult_emits fun z hp => ⟨rfl, .service hargs (by simpa using hv) hp⟩
    · next hv =>
      have hv : s.returns.isVoid = true := by simpa using hv
      split
      · split
        · exact (pushOperand_emits (h _ mem_cons_self)).bind fun _ q =>
            storeResult_emits fun z hq hp =>
            ⟨rfl, .memory hargs hv (by assumption) rfl hp hq⟩
        · exact .fail rfl
      · next hr => exact .pure fun z hp => ⟨rfl, .procedure hargs hv (by simpa using hr) hp⟩

theorem startVarArgs_emits :
    c.LowersPlain d b (·.startVarArgs l args) fun z _ p =>
      CallCode c z.consts id n type callee args (.route .vaStart) p := by
  unfold startVarArgs
  dsimp only [LowersPlain]
  rw [show (c.within d).packedArgument? = c.packedArgument? from rfl]
  split
  · next list i hi =>
    exact (pushOperand_emits (h _ mem_cons_self)).bind fun _ p =>
      emit_bind (emit_emits fun z hp => ⟨rfl, .vaStart rfl hi hp⟩)
  · exact .fail rfl
  · exact .fail rfl

theorem endVarArgs_emits :
    c.LowersPlain d b (·.endVarArgs l args) fun z _ p =>
      CallCode c z.consts id n type callee args (.route .vaEnd) p :=
  EmitsPlain.mono (.forM fun r hr => (pushOperand_emits (h r hr)).bind fun _ p =>
    emit_emits fun _ hp => ⟨rfl, p, hp, rfl⟩) fun _ _ _ h => ⟨rfl, .vaEnd h⟩

variable (hcallee : c.Known b.fails d callee)
include hcallee

theorem callIndirect_emits :
    c.LowersPlain d b (·.callIndirect l id type callee args) fun z _ p =>
      CallCode c z.consts id n type callee args .indirect p := by
  unfold callIndirect
  dsimp only
  split
  · exact .fail_bind rfl
  · next hargs =>
    refine (pushArguments_emits h).bind fun _ p =>
      (pushOperand_emits hcallee).bind fun _ q => emit_bind ?_
    have code {z : Surround} {r} (hp : ArgumentCode c z.consts args type.params.length
        type.variadic p) (hq : Pushes c z.consts callee q) (hr : r = if type.ret.isVoid then
          [] else c.storeCode id) :
        CallCode c z.consts id n type callee args .indirect
          (p ++ (q ++ .callIndirect (type.params.length + type.variadic.toNat) (!type.ret.isVoid) ::
            r)) := by
      rw [hr]
      exact .indirect (by omega) hp hq
    split
    · next hv =>
      exact storeResult_emits fun z hq hp => ⟨rfl, code hp hq (by rw [if_neg]; simpa using hv)⟩
    · next hv => exact .pure fun z hq hp => ⟨rfl, code hp hq (by rw [if_pos]; simpa using hv)⟩

theorem callSite_emits {t t' : CallTarget} (ht : CallTarget.Same t t') :
    EmitsPlain b (c.callSite l id n type callee args t)
      ((c.within d).callSite l id n type callee args t') fun z _ p =>
      CallCode c z.consts id n type callee args t p := by
  cases ht with
  | method hsame =>
    rw [hsame.eq]
    exact callMethod_emits h
  | route r =>
    cases r with
    | service => exact callService_emits h
    | vaStart => exact startVarArgs_emits h
    | vaEnd => exact endVarArgs_emits h
  | indirect => exact callIndirect_emits h hcallee

end

/-- What is called is the same, up to the number of a wrapper. -/
theorem callTarget_bind {α : Type} {opened : List Label} {f f' : CallTarget → Emit α}
    {R : Surround → α → List Op → Extras → Prop} (hcallee : c.Known b.fails d callee)
    (h : ∀ t t', c.declared.callTarget l callee = .ok t → CallTarget.Same t t' →
      Emits b opened (f t) (f' t') R) :
    Emits b opened (c.callTarget l callee >>= f) ((c.within d).callTarget l callee >>= f') R := by
  unfold callTarget Declared.callTarget within at *
  cases callee with
  | function name =>
    change Option.Rel MethodEntry.Same (c.declared.method? name) (d.method? name) at hcallee
    dsimp only at h ⊢
    generalize c.declared.method? name = e₁ at hcallee h ⊢
    generalize d.method? name = e₂ at hcallee ⊢
    cases hcallee with
    | some hsame => exact h _ _ rfl (.method hsame)
    | none =>
      cases hr : Route.ofSymbol? name with
      | some r => exact h _ _ (by simp only [hr]) (.route r)
      | none => exact .fail_bind rfl
  | _ => exact h _ _ rfl .indirect

end

/-! ## Results -/

/-- A comparison, whose result may be negated. -/
def CompareCode (c : Context) (pool : List Const) (kind : NumKind) (left right : Ref)
    (op : CompareOp) (negated : Bool) (ops : List Op) : Prop :=
  ∃ p q, Pushes c pool left p ∧ Pushes c pool right q ∧
    ops = p ++ (q ++ .compare op kind :: if negated then [logicalNot] else [])

/-- The predicates that take two comparisons: their operands and operators, what joins them, and
whether that is negated. -/
def twoComparisons? (left right : Ref) :
    FloatPredicate → Option ((Ref × Ref × CompareOp) × (Ref × Ref × CompareOp) × BinaryOp × Bool)
  | .one => some ((left, right, .lt), (left, right, .gt), .or, false)
  | .ueq => some ((left, right, .lt), (left, right, .gt), .or, true)
  | .ord => some ((left, left, .eq), (right, right, .eq), .and, false)
  | .uno => some ((left, left, .eq), (right, right, .eq), .and, true)
  | _ => none

/-- The code of a comparison of floating-point numbers. -/
inductive FloatCode (c : Context) (pool : List Const) (kind : NumKind) (left right : Ref) :
    FloatPredicate → List Op → Prop
  | once {pr : FloatPredicate} {op : CompareOp} {negated : Bool} {p : List Op} :
      pr.comparison? = some (op, negated) → CompareCode c pool kind left right op negated p →
        FloatCode c pool kind left right pr p
  | twice {pr : FloatPredicate} {a b a' b' : Ref} {first second : CompareOp} {op : BinaryOp}
      {negated : Bool} {p q : List Op} :
      twoComparisons? left right pr = some ((a, b, first), (a', b', second), op, negated) →
        CompareCode c pool kind a b first false p → CompareCode c pool kind a' b' second false q →
      FloatCode c pool kind left right pr
        (p ++ (q ++ .binary op .bool :: if negated then [logicalNot] else []))
  | known {pr : FloatPredicate} {i : Nat} :
      pr = .always ∨ pr = .never → Pooled pool i (.bool (pr = .always)) →
        FloatCode c pool kind left right pr [.loadConst i]

/-- The code of one step of an address computation. -/
inductive StepCode (c : Context) (pool : List Const) : AddressStep → List Op → Prop
  | stay {ty : Ty} {index : Ref} :
      index.constInt? = some 0 → StepCode c pool (.stride ty index) []
  | stride {ty : Ty} {index : Ref} {s : Code.Ty} {p : List Op} :
      index.constInt? ≠ some 0 → Pushes c pool index p → c.declared.resolver.lookup? ty = some s →
        StepCode c pool (.stride ty index) (p ++ [.elementAddress s])
  | field {record index : Nat} : StepCode c pool (.field record index) [.fieldAddress record index]
  | element {ty : Ty} {index : Ref} {s : Code.Ty} {p : List Op} : Pushes c pool index p →
      c.declared.resolver.lookup? ty = some s → StepCode c pool (.element ty index)
        (p ++ [.elementAddress s])

/-- The code of nodes that leave one result on the stack. -/
inductive ResultCode (c : Context) (pool : List Const) (n : Node) : List Op → Prop
  | whole {ty : Ty} {source : Option NodeId} {i : Nat} : n.kind = .load ty source →
      c.wholeLocal? source ty = some i → ResultCode c pool n [.loadLocal i]
  | load {ty : Ty} {source : Option NodeId} {address : Ref} {s : Code.Ty} {p : List Op} :
      n.kind = .load ty source → n.operands = [address] → c.wholeLocal? source ty = none →
      c.declared.resolver.lookup? ty = some s → Pushes c pool address p → ResultCode c pool n
        (p ++ [.loadIndirect s])
  | unary {opcode : Ssa.Opcode} {v : Ref} {kind : NumKind} {p : List Op} : n.kind = .unary opcode →
      n.operands = [v] → c.numKind? (c.operandType v) = some kind → Pushes c pool v p →
      ResultCode c pool n (p ++ [.unary .neg kind])
  | binary {opcode : Ssa.Opcode} {left right : Ref} {kind : NumKind} {p q : List Op} :
      n.kind = .binary opcode → n.operands = [left, right] → c.numKind?
        (c.operandType left) = some kind → Pushes c pool left p →
      Pushes c pool right q → ResultCode c pool n (p ++ (q ++ [.binary (binaryOp opcode) kind]))
  | intCompare {pr : Flow.IntPredicate} {left right : Ref} {kind : NumKind} {p : List Op} :
      n.kind = .intCompare pr → n.operands = [left, right] → c.numKind?
        (c.operandType left) = some kind →
      CompareCode c pool kind left right pr.comparison.1 pr.comparison.2 p → ResultCode c pool n p
  | floatCompare {pr : FloatPredicate} {left right : Ref} {kind : NumKind} {p : List Op} :
      n.kind = .floatCompare pr → n.operands = [left, right] → c.numKind?
        (c.operandType left) = some kind →
      FloatCode c pool kind left right pr p → ResultCode c pool n p
  | convert {opcode : Ssa.Opcode} {v : Ref} {ty : Ty} {source target : NumKind} {p : List Op} :
      n.kind = .convert opcode → n.operands = [v] → n.resultType = some ty →
      c.numKind? (c.operandType v) = some source → c.numKind? ty = some target → Pushes c pool v p →
      ResultCode c pool n (p ++ [.convert source target (isSigned opcode)])
  /-- Casts that keep the representation, and the choice of one value for an indefinite one. -/
  | same {v : Ref} {p : List Op} :
      n.kind = .bitCast ∨ n.kind = .freeze → n.operands = [v] → Pushes c pool v p →
        ResultCode c pool n p
  | vaArg {ty : Ty} {list : Ref} {s : Code.Ty} {p : List Op} :
      n.kind = .vaArg ty → n.operands = [list] → c.declared.resolver.lookup? ty = some s →
        Pushes c pool list p → ResultCode c pool n (p ++ [.nextVarArg s])
  | address {path : List AddressStep} {target : Ty} {base : Ref} {rest : List Ref}
      {p q : List Op} : n.kind = .getElementPtr path target → n.operands = base :: rest →
        Pushes c pool base p →
      Concat (StepCode c pool) path q → ResultCode c pool n (p ++ q)

variable {c : Context} {d : Declared} {b : Bounds} {l : Location} {id : NodeId} {n : Node}
  {kind : NumKind} {left right : Ref} {negated : Bool} {pr : FloatPredicate}
  {cases : List (Int × BlockId)} {target : CallTarget} {ids : List NodeId}
  {blocks : List (Block × Nat)}

section
variable (hl : c.Known b.fails d left) (hr : c.Known b.fails d right)
include hl hr

theorem compareOperands_emits {op : CompareOp} :
    c.LowersPlain d b (·.compareOperands l kind left right op negated) fun z _ p =>
      CompareCode c z.consts kind left right op negated p := by
  refine (pushOperand_emits hl).bind fun _ p => (pushOperand_emits hr).bind fun _ q => emit_bind ?_
  cases negated with
  | true => exact emit_emits fun z hq hp => ⟨rfl, p, q, hp, hq, rfl⟩
  | false => exact .pure fun z hq hp => ⟨rfl, p, q, hp, hq, rfl⟩

theorem floatCompare_emits :
    c.LowersPlain d b (·.floatCompare l kind left right pr) fun z _ p =>
      FloatCode c z.consts kind left right pr p := by
  change EmitsPlain b (c.floatCompare l kind left right pr)
    ((c.within d).floatCompare l kind left right pr) _
  unfold floatCompare
  extract_lets both both'
  have both_emits {a b₁ a' b' first second op negated}
      (h : twoComparisons? left right pr = some ((a, b₁, first), (a', b', second), op, negated)) :
      EmitsPlain b (both a b₁ first a' b' second op negated)
        (both' a b₁ first a' b' second op negated) fun z _ p =>
        FloatCode c z.consts kind left right pr p := by
    have known : c.Known b.fails d a ∧ c.Known b.fails d b₁ ∧ c.Known b.fails d a' ∧
        c.Known b.fails d b' := by
      cases pr <;> cases h <;> exact ⟨‹_›, ‹_›, ‹_›, ‹_›⟩
    obtain ⟨ha, hb, ha', hb'⟩ := known
    refine (compareOperands_emits ha hb).bind fun _ p =>
      (compareOperands_emits ha' hb').bind fun _ q => emit_bind ?_
    cases negated with
    | true => exact emit_emits fun z hq hp => ⟨rfl, .twice h hp hq⟩
    | false => exact .pure fun z hq hp => ⟨rfl, .twice h hp hq⟩
  split
  · next op negated h => exact (compareOperands_emits hl hr).mono fun z _ p hp => ⟨rfl, .once h hp⟩
  · exact loadConst_emits fun z i hi => ⟨rfl, .known (.inl rfl) hi⟩
  · exact both_emits rfl
  · exact both_emits rfl
  · exact both_emits rfl
  · exact both_emits rfl
  · next pr _ _ _ _ _ _ _ _ =>
    have hn : pr = .never := by cases pr <;> simp_all [FloatPredicate.comparison?]
    subst hn
    exact loadConst_emits fun z i hi => ⟨rfl, .known (.inr rfl) hi⟩

end

theorem addressStep_emits {s : AddressStep} (helement : ∀ ty, s.element? = some ty →
    c.declared.Finds b.fails d l ty) (hindex : ∀ r, s.index? = some r → c.Known b.fails d r) :
    c.LowersPlain d b (·.addressStep l s) fun z _ p => StepCode c z.consts s p := by
  cases s with
  | stride ty index =>
    dsimp only [LowersPlain, addressStep]
    split
    · next h => exact .pure fun z => ⟨rfl, .stay h⟩
    · next h =>
      exact (pushOperand_emits (hindex _ rfl)).bind fun _ p =>
        resolved_bind (helement _ rfl) fun s hs =>
        emit_emits fun z hp => ⟨rfl, .stride h hp hs⟩
  | field record index => exact emit_emits fun z => ⟨rfl, .field⟩
  | element ty index =>
    exact (pushOperand_emits (hindex _ rfl)).bind fun _ p =>
      resolved_bind (helement _ rfl) fun s hs =>
      emit_emits fun z hp => ⟨rfl, .element hp hs⟩

theorem bitCast_emits {v : Ref} (hv : c.Known b.fails d v)
    (hsource : c.declared.Finds b.fails d l (c.operandType v))
    (htarget : c.declared.Finds b.fails d l (n.resultType.getD .void)) :
    c.LowersPlain d b (·.bitCast l id n v) fun z _ p =>
      ∃ q, Pushes c z.consts v q ∧ p = q ++ c.storeCode id := by
  refine resolved_bind hsource fun s _ => resolved_bind htarget fun t _ => ?_
  dsimp only
  rw [show (c.within d).operandType v = c.operandType v from rfl]
  split
  · exact .fail_bind rfl
  · exact (pushOperand_emits hv).bind fun _ q => storeResult_emits fun z hq => ⟨rfl, q, hq, rfl⟩

/-! ## Nodes -/

/-- The value of a case as an integer of the operand's width. -/
def caseValue (kind : NumKind) (n : Int) : Int :=
  match kind with
  | .int w => w.wrap n
  | _ => n

/-- The cases of a switch with the labels that they lead to. -/
inductive CaseLabels (c : Context) (z : Surround) (source : Nat) (kind : NumKind) :
    List (Int × BlockId) → List (Int × Label) → Prop
  | nil : CaseLabels c z source kind [] []
  | cons {n : Int} {target : BlockId} {label : Label} {rest : List (Int × BlockId)}
      {labels : List (Int × Label)} :
      LeadsTo c z source target label → CaseLabels c z source kind rest labels →
        CaseLabels c z source kind ((n, target) :: rest) ((caseValue kind n, label) :: labels)

/-- What a call node calls. -/
def callee (n : Node) : Ref := n.operands.getLastD (.const .null)

/-- A node that only goes on to another block. -/
inductive GoesTo (n : Node) (target : BlockId) : Prop
  | branch : n.kind = .branch target → GoesTo n target
  | catchRet : n.kind = .catchRet target → GoesTo n target
  | cleanupRet : n.kind = .cleanupRet (some target) → GoesTo n target
  | catchSwitch {rest : List BlockId} : n.kind = .catchSwitch (target :: rest) → GoesTo n target

/-- The code of a node and the ranges that it protects. -/
inductive NodeCode (c : Context) (z : Surround) (id : NodeId) (n : Node) :
    List Op → List Region → Prop
  | result {p : List Op} : ResultCode c z.consts n p → NodeCode c z id n (p ++ c.storeCode id) []
  | alloca {ty : Ty} {i : Nat} :
      n.kind = .alloca ty → c.slot id = .inLocal i → NodeCode c z id n [.initLocal i] []
  | noLocal {ty : Ty} :
      n.kind = .alloca ty → (∀ i, c.slot id ≠ .inLocal i) → NodeCode c z id n [] []
  | storeWhole {destination : Option NodeId} {v address : Ref} {i : Nat} {p : List Op} :
      n.kind = .store destination → n.operands = [v, address] →
      c.wholeLocal? destination (c.operandType v) = some i → Pushes c z.consts v p →
      NodeCode c z id n (p ++ [.storeLocal i]) []
  | store {destination : Option NodeId} {v address : Ref} {s : Code.Ty} {p q : List Op} :
      n.kind = .store destination → n.operands = [v, address] →
      c.wholeLocal? destination (c.operandType v) = none → c.declared.resolver.lookup?
        (c.operandType v) = some s →
      Pushes c z.consts address p → Pushes c z.consts v q → NodeCode c z id n
        (p ++ (q ++ [.storeIndirect s])) []
  | select {condition left right : Ref} {otherwise done : Label} {p q r : List Op} :
      n.kind = .select → n.operands = [condition, left, right] → Pushes c z.consts condition p →
        Pushes c z.consts left q → Pushes c z.consts right r →
      NodeCode c z id n (p ++ .branchFalse otherwise ::
        (q ++ (c.storeCode id ++ .branch done :: .label otherwise ::
          (r ++ (c.storeCode id ++ [.label done]))))) []
  | call {type : FunctionType} {target : CallTarget} {p : List Op} : n.kind = .call type →
      c.declared.callTarget (n.location c.graph.location) (callee n) = .ok target →
      CallCode c z.consts id n type (callee n) n.operands.dropLast target p → NodeCode c z id n p []
  /-- A call that cannot throw needs no protection. -/
  | invoke {type : FunctionType} {normal unwind : BlockId} {target : CallTarget} {p q : List Op} :
      n.kind = .invoke type normal unwind →
      c.declared.callTarget (n.location c.graph.location) (callee n) = .ok target →
        target.mayThrow = false →
      CallCode c z.consts id n type (callee n) (n.operands.take (n.operands.length - 3)) target p →
      JumpCode c z.consts n.block normal q → NodeCode c z id n (p ++ q) []
  | guarded {type : FunctionType} {normal unwind : BlockId} {target : CallTarget} {u x : Nat}
      {label tryStart tryEnd handlerStart handlerEnd : Label} {p q : List Op} :
      n.kind = .invoke type normal unwind →
      c.declared.callTarget (n.location c.graph.location) (callee n) = .ok target →
        target.mayThrow = true →
      c.graph.blockIndex? unwind = some u → CopyCode c z.consts n.block u p →
        LeadsTo c z n.block normal label →
      z.exception = some x →
      CallCode c z.consts id n type (callee n) (n.operands.take (n.operands.length - 3)) target q →
      NodeCode c z id n (p ++ .label tryStart ::
        (q ++ [.leave label, .label tryEnd, .label handlerStart, .storeLocal x, .leave u,
          .label handlerEnd])) [⟨tryStart, tryEnd, handlerStart, handlerEnd⟩]
  | jump {target : BlockId} {p : List Op} :
      GoesTo n target → JumpCode c z.consts n.block target p → NodeCode c z id n p []
  | condBranch {yes no : BlockId} {condition : Ref} {rest : List Ref} {label : Label}
      {p q : List Op} : n.kind = .condBranch yes no → n.operands = condition :: rest →
        Pushes c z.consts condition p →
      LeadsTo c z n.block yes label → JumpCode c z.consts n.block no q →
      NodeCode c z id n (p ++ .branchTrue label :: q) []
  | switch {default : BlockId} {cases : List (Int × BlockId)} {v : Ref} {rest : List Ref}
      {kind : NumKind} {labels : List (Int × Label)} {label : Label} {p : List Op} :
      n.kind = .switch default cases → n.operands = v :: rest → c.numKind?
        (c.operandType v) = some kind →
      Pushes c z.consts v p → CaseLabels c z n.block kind cases labels →
        LeadsTo c z n.block default label →
      NodeCode c z id n (p ++ [.switchValue labels label]) []
  | ret {v : Ref} {rest : List Ref} {p : List Op} :
      n.kind = .ret → n.operands = v :: rest → Pushes c z.consts v p → NodeCode c z id n
        (p ++ [.ret]) []
  | retVoid : n.kind = .ret → n.operands = [] → c.graph.function.isVoid = true →
      NodeCode c z id n [.ret] []
  | phi {sources : List BlockId} {incoming : List (Nat × Ref)} : n.kind = .phi sources incoming →
      NodeCode c z id n [] []
  | pad : n.kind = .catchPad ∨ n.kind = .cleanupPad ∨ n.kind = .landingPad →
      NodeCode c z id n [.nop] []
  | rethrow {x : Nat} : n.kind = .cleanupRet none ∨ n.kind = .resume → z.exception = some x →
      NodeCode c z id n [.loadLocal x, .throw] []
  | unreachable : n.kind = .unreachable → NodeCode c z id n [.unreachable] []
  | generic {opcode : Ssa.Opcode} :
      n.kind = .generic opcode → n.isUsed = false → NodeCode c z id n [.nop] []

attribute [local simp] Flow.Kind.successors

/-- Where the trampolines of edges to some blocks lead. -/
def Aims (c : Context) (aim : Nat → Prop) (targets : List BlockId) : Prop :=
  ∀ id ∈ targets, ∀ j, c.graph.blockIndex? id = some j → (c.phis j).isEmpty = false → aim j

variable {type : FunctionType} {normal unwind : BlockId}

theorem switchCases_bind {α : Type} {R : Surround → α → List Op → Extras → Prop} {source : Nat}
    {f f' : List (Int × Label) → Emit α} (haim : c.Aims b.aims (cases.map Prod.snd))
    (h : ∀ labels new, Emits b [] (f labels) (f' labels) fun z a p w =>
      CaseLabels c z source kind cases labels → R z a p ({ trampolines := new } ++ w)) :
    Emits b [] (c.switchCases l source kind cases >>= f) ((c.within d).switchCases l source kind
      cases >>= f') R := by
  induction cases generalizing α R with
  | nil => exact (h [] []).mono fun z a p w hr => hr .nil
  | cons first rest ih =>
    obtain ⟨n, target⟩ := first
    obtain ⟨hfirst, hrest⟩ := forall_mem_cons.mp haim
    unfold switchCases
    rw [bind_assoc, bind_assoc]
    refine edgeLabel_bind hfirst fun label new => ?_
    rw [bind_assoc, bind_assoc]
    refine ih hrest fun labels more =>
      (h ((caseValue kind n, label) :: labels) (new ++ more)).mono fun z a p w hr hls hl => ?_
    have hw := hr (.cons hl hls)
    rwa [show { trampolines := new ++ more } ++ w = { trampolines := new } ++
      ({ trampolines := more } ++ w) by
      exact congrArg (Extras.mk w.regions) (append_assoc _ _ _)] at hw

theorem select_emits {condition : Ref} (hk : n.kind = .select)
    (ho : n.operands = [condition, left, right]) (hknown : ∀ r ∈ n.operands, c.Known b.fails d r) :
    c.LowersPlain d b (·.select l id condition left right) fun z _ p => NodeCode c z id n p [] := by
  rw [ho] at hknown
  simp only [forall_mem_cons] at hknown
  obtain ⟨hcondition, hleft, hright, -⟩ := hknown
  refine newLabel_bind fun otherwise =>
    newLabel_bind fun done => (pushOperand_emits hcondition).bind fun _ p => emit_bind ?_
  refine (pushOperand_emits hleft).bind fun _ q => storeResult_bind (emit_bind (markLabel_bind ?_))
  refine (pushOperand_emits hright).bind fun _ r =>
    storeResult_bind (markLabel_emits fun z hr hq hp => ?_)
  exact ⟨rfl, .select hk ho hp hq hr⟩

theorem rethrow_emits (hk : n.kind = .cleanupRet none ∨ n.kind = .resume) :
    EmitsPlain b rethrow rethrow fun z _ p => NodeCode c z id n p [] :=
  exceptionLocal_bind fun _ => emit_bind (emit_emits fun _ hx => ⟨rfl, .rethrow hk hx⟩)

section
variable (h : c.Alike b.fails d) (hknown : ∀ r ∈ n.operands, c.Known b.fails d r)
  (hcallee : c.Known b.fails d (callee n)) (haim : c.Aims b.aims n.kind.successors)
  (hk : n.kind = .invoke type normal unwind)
include h hknown hcallee haim hk

theorem protectedCall_emits {target' : CallTarget}
    (ht : c.declared.callTarget (n.location c.graph.location) (callee n) = .ok target)
    (hm : target.mayThrow = true) (hsame : CallTarget.Same target target') :
    Emits b [] (c.protectedCall l id n type (callee n) (n.operands.take (n.operands.length - 3))
      target normal unwind) ((c.within d).protectedCall l id n type (callee n)
        (n.operands.take (n.operands.length - 3)) target' normal unwind)
      fun z _ p y => NodeCode c z id n p y.regions := by
  have hnormal := haim normal (by simp [hk])
  refine (edgeCopies_emits h).bind fun _ p => edgeLabel_bind hnormal fun label _ => ?_
  refine newLabel_bind fun _ =>
    newLabel_bind fun _ => newLabel_bind fun _ => newLabel_bind fun _ => ?_
  refine exceptionLocal_bind fun x => blockPosition_bind fun u hu => markLabel_bind ?_
  refine (callSite_emits (fun r hr => hknown r (mem_of_mem_take hr)) hcallee hsame).bind fun _ q =>
    emit_bind ?_
  refine markLabel_bind
    (markLabel_bind (emit_bind
      (emit_bind (markLabel_bind (addRegion_emits fun z hq hx hl hp => ?_)))))
  obtain ⟨u', hu', hp⟩ := hp
  rw [hu] at hu'
  cases hu'
  exact .guarded hk ht hm hu hp hl hx hq

theorem invoke_emits :
    c.Lowers d b [] (·.invoke (n.location c.graph.location) id n type (callee n)
      (n.operands.take (n.operands.length - 3)) normal unwind) fun z _ p y =>
        NodeCode c z id n p y.regions := by
  refine callTarget_bind hcallee fun target target' ht hsame => ?_
  rw [hsame.mayThrow]
  split
  · next hm => exact protectedCall_emits h hknown hcallee haim hk ht hm hsame
  · next hm =>
    have hm : target.mayThrow = false := by simpa using hm
    exact (callSite_emits (fun r hr => hknown r (mem_of_mem_take hr)) hcallee hsame).bind fun _ p =>
      (jump_emits h).mono fun z _ q hq hp => .invoke hk ht hm hp hq

end

/-- The code of a node is what its kind asks for. -/
theorem lowerNode_emits (h : c.Alike b.fails d) (hn : n ∈ c.graph.nodes)
    (haim : c.Aims b.aims n.kind.successors) : c.Lowers d b [] (·.lowerNode id n) fun z _ p y =>
      NodeCode c z id n p y.regions := by
  have stored {p : List Op} {z : Surround} (h : ResultCode c z.consts n p) :
      NodeCode c z id n (p ++ c.storeCode id) [] :=
    .result h
  have hknown (r : Ref) (hr : r ∈ n.operands) : c.Known b.fails d r := (h.operands n hn r hr).1
  have push {l : Location} (r : Ref) (hr : r ∈ n.operands) :=
    pushOperand_emits (l := l) (hknown r hr)
  have finds (r : Ref) (hr : r ∈ n.operands) := (h.operands n hn r hr).2
  have types := h.types n hn
  have hcallee : c.Known b.fails d (callee n) := by
    rw [callee, getLastD_eq_getLast?]
    cases hlast : n.operands.getLast? with
    | none => trivial
    | some r => exact hknown r (mem_of_getLast? hlast)
  dsimp only [Lowers, lowerNode]
  split
  · next hk =>
    rw [show (c.within d).slot id = c.slot id from rfl]
    split
    · next i hs => exact emit_emits fun z => .alloca hk hs
    · next hs => exact .pure fun z => .noLocal hk hs
  · next ty source address hk ho =>
    rw [show (c.within d).wholeLocal? source ty = c.wholeLocal? source ty from rfl]
    split
    · next i hw => exact emit_bind (storeResult_emits fun z => stored (.whole hk hw))
    · next hw =>
      refine (push address (by simp [ho])).bind fun _ p =>
        resolved_bind (types ty (by simp [kindTypes, hk])) fun s hs =>
        emit_bind (storeResult_emits fun z hp => ?_)
      simpa using stored (.load hk ho hw hs hp)
  · next destination v address hk ho =>
    rw [show (c.within d).wholeLocal? destination ((c.within d).operandType v) = c.wholeLocal?
      destination (c.operandType v) from rfl]
    split
    · next i hw =>
      exact (push v (by simp [ho])).bind fun _ p => emit_emits fun z hp => .storeWhole hk ho hw hp
    · next hw =>
      exact (push address (by simp [ho])).bind fun _ p => (push v (by simp [ho])).bind fun _ q =>
        resolved_bind (finds v (by simp [ho])) fun s hs =>
          emit_emits fun z hq hp => .store hk ho hw hs hp hq
  · next opcode v hk ho =>
    refine numKind_bind (finds v (by simp [ho])) fun kind hkind =>
      (push v (by simp [ho])).bind fun _ p =>
      emit_bind (storeResult_emits fun z hp => ?_)
    simpa using stored (.unary hk ho hkind hp)
  · next opcode left right hk ho =>
    refine numKind_bind (finds left (by simp [ho])) fun kind hkind =>
      (push left (by simp [ho])).bind fun _ p =>
      (push right (by simp [ho])).bind fun _ q => emit_bind (storeResult_emits fun z hq hp => ?_)
    simpa using stored (.binary hk ho hkind hp hq)
  · next pr left right hk ho =>
    exact numKind_bind (finds left (by simp [ho])) fun kind hkind =>
      (compareOperands_emits (hknown left (by simp [ho])) (hknown right (by simp [ho]))).bind
        fun _ p => storeResult_emits fun z hp => stored (.intCompare hk ho hkind hp)
  · next pr left right hk ho =>
    exact numKind_bind (finds left (by simp [ho])) fun kind hkind =>
      (floatCompare_emits (hknown left (by simp [ho])) (hknown right (by simp [ho]))).bind
        fun _ p => storeResult_emits fun z hp => stored (.floatCompare hk ho hkind hp)
  · next opcode v hk ho =>
    refine numKind_bind (finds v (by simp [ho])) fun source hs => ?_
    split
    · exact .fail rfl
    · next ty hty =>
      refine numKind_bind (types ty (by simp [hty])) fun target ht =>
        (push v (by simp [ho])).bind fun _ p =>
        emit_bind (storeResult_emits fun z hp => ?_)
      simpa using stored (.convert hk ho hty hs ht hp)
  · next v hk ho =>
    have hv : v ∈ n.operands := by simp [ho]
    refine (bitCast_emits (hknown v hv) (finds v hv) (types _ (by simp [kindTypes, hk]))).mono
      fun z _ p hp => ?_
    obtain ⟨q, hq, rfl⟩ := hp
    exact stored (.same (.inl hk) ho hq)
  · next v hk ho =>
    exact (push v (by simp [ho])).bind fun _ p =>
      storeResult_emits fun z hp => stored (.same (.inr hk) ho hp)
  · next condition left right hk ho => exact (select_emits hk ho hknown).mono fun z _ p hp => hp
  · next ty list hk ho =>
    refine (push list (by simp [ho])).bind fun _ p =>
      resolved_bind (types ty (by simp [kindTypes, hk])) fun s hs =>
      emit_bind (storeResult_emits fun z hp => ?_)
    simpa using stored (.vaArg hk ho hs hp)
  · next path target base rest hk ho =>
    have element (step : AddressStep) (hstep : step ∈ path) (ty : Ty)
        (hty : step.element? = some ty) :=
      types ty (mem_append_left _
        (by rw [kindTypes, hk]; exact mem_cons_of_mem _ (mem_filterMap.mpr ⟨step, hstep, hty⟩)))
    refine (push base (by simp [ho])).bind fun _ p =>
      (EmitsPlain.forM fun step hstep => addressStep_emits (element step hstep)
        (h.steps n hn path target hk step hstep)).bind fun _ q =>
          storeResult_emits fun z hq hp => ?_
    simpa using stored (.address hk ho hp hq)
  · next type hk =>
    exact callTarget_bind hcallee fun target target' ht hsame =>
      (callSite_emits (fun r hr => hknown r ((dropLast_sublist _).subset hr)) hcallee hsame).mono
        fun z _ p hp => .call hk ht hp
  · next type normal unwind hk => exact invoke_emits h hknown hcallee haim hk
  · next target hk => exact (jump_emits h).mono fun z _ p hp => .jump (.branch hk) hp
  · next yes no condition rest hk ho =>
    have hyes := haim yes (by simp [hk])
    exact (push condition (by simp [ho])).bind fun _ p =>
      edgeLabel_bind hyes fun label _ =>
        emit_bind ((jump_emits h).mono fun z _ q hq hl hp => .condBranch hk ho hp hl hq)
  · next default cases v rest hk ho =>
    rw [hk] at haim
    obtain ⟨hdefault, hcases⟩ := forall_mem_cons.mp haim
    exact numKind_bind (finds v (by simp [ho])) fun kind hkind =>
      (push v (by simp [ho])).bind fun _ p =>
      switchCases_bind hcases fun labels _ => edgeLabel_bind hdefault fun label _ => emit_emits
        fun z hl hls hp => .switch hk ho hkind hp hls hl
  · next v rest hk ho =>
    exact (push v (by simp [ho])).bind fun _ p => emit_emits fun z hp => .ret hk ho hp
  · next hk ho =>
    rw [show (c.within d).graph = c.graph from rfl]
    split
    · exact .fail_bind rfl
    · next hv => exact emit_emits fun z => .retVoid hk ho (by simpa using hv)
  · next hk => exact .pure fun z => .phi hk
  · next target rest hk => exact (jump_emits h).mono fun z _ p hp => .jump (.catchSwitch hk) hp
  · next hk => exact emit_emits fun z => .pad (.inl hk)
  · next hk => exact emit_emits fun z => .pad (.inr (.inl hk))
  · next hk => exact emit_emits fun z => .pad (.inr (.inr hk))
  · next target hk => exact (jump_emits h).mono fun z _ p hp => .jump (.catchRet hk) hp
  · next target hk => exact (jump_emits h).mono fun z _ p hp => .jump (.cleanupRet hk) hp
  · next hk => exact (rethrow_emits (.inl hk)).mono fun z _ p hp => hp
  · next hk => exact (rethrow_emits (.inr hk)).mono fun z _ p hp => hp
  · next hk => exact emit_emits fun z => .unreachable hk
  · next opcode hk =>
    split
    · exact .fail_bind rfl
    · next hu => exact emit_emits fun z => .generic hk (by simpa using hu)
  · exact .fail rfl

/-! ## Blocks and bodies -/

/-- The code of nodes, one after the other. -/
inductive NodesCode (c : Context) (z : Surround) : List NodeId → List Op → List Region → Prop
  | nil : NodesCode c z [] [] []
  | skip {id : NodeId} {ids : List NodeId} {p : List Op} {rs : List Region} :
      c.graph.node? id = none → NodesCode c z ids p rs → NodesCode c z (id :: ids) p rs
  | cons {id : NodeId} {n : Node} {ids : List NodeId} {p q : List Op} {rs qs : List Region} :
      c.graph.node? id = some n → NodeCode c z id n p rs → NodesCode c z ids q qs →
      NodesCode c z (id :: ids) (p ++ q) (rs ++ qs)

def TrampolineCode (c : Context) (pool : List Const) (t : Trampoline) (ops : List Op) : Prop :=
  ∃ p, CopyCode c pool t.source t.target p ∧ ops = .label t.label :: (p ++ [.branch t.target])

/-- A node among the given ones names the block at a position as its successor. -/
def Targets (c : Context) (ids : List NodeId) (j : Nat) : Prop :=
  ∃ id ∈ ids, ∃ n, c.graph.node? id = some n ∧
    ∃ target ∈ n.kind.successors, c.graph.blockIndex? target = some j

theorem Targets.mono {c : Context} {ids ids' : List NodeId} {j : Nat} (h : c.Targets ids j)
    (hids : ids ⊆ ids') : c.Targets ids' j := by
  obtain ⟨id, hid, h⟩ := h
  exact ⟨id, hids hid, h⟩

/-- The code of a block: its label, its nodes and the trampolines of its edges. -/
def BlockCode (c : Context) (z : Surround) (position : Nat) (b : Block) (ops : List Op)
    (rs : List Region) : Prop :=
  ∃ waiting p q, (∀ t ∈ waiting, (c.phis t.target).isEmpty = false ∧
    c.Targets b.instructions t.target) ∧ NodesCode c { z with trampolines := waiting }
      b.instructions p rs ∧
    Concat (TrampolineCode c z.consts) waiting q ∧ ops = .label position :: (p ++ q)

/-- The code of blocks with their positions, one after the other. -/
inductive BlocksCode (c : Context) (z : Surround) :
    List (Block × Nat) → List Op → List Region → Prop
  | nil : BlocksCode c z [] [] []
  | cons {b : Block} {i : Nat} {rest : List (Block × Nat)} {p q : List Op}
      {rs qs : List Region} : BlockCode c z i b p rs → BlocksCode c z rest q qs →
        BlocksCode c z ((b, i) :: rest) (p ++ q) (rs ++ qs)

variable {c : Context} {d : Declared} {b : Bounds} {e : Emission}

theorem lowerNodes_emits (h : c.Alike b.fails d)
    (haim : ∀ id ∈ ids, ∀ n, c.graph.node? id = some n → c.Aims b.aims n.kind.successors) :
    c.Lowers d b [] (fun c => ids.forM fun id => match c.graph.node? id with
      | some n => c.lowerNode id n
      | none => pure ()) fun z _ p y => NodesCode c z ids p y.regions := by
  induction ids with
  | nil => exact .pure fun z => .nil
  | cons id ids ih =>
    obtain ⟨hfirst, hrest⟩ := forall_mem_cons.mp haim
    show Emits b [] ((match c.graph.node? id with
      | some n => c.lowerNode id n
      | none => pure ()) >>= fun _ => _) ((match c.graph.node? id with
      | some n => (c.within d).lowerNode id n
      | none => pure ()) >>= fun _ => _) _
    cases hn : c.graph.node? id with
    | none => exact (ih hrest).mono fun z _ p y h => .skip hn h
    | some n =>
      exact (lowerNode_emits h (mem_of_getElem? hn) (hfirst n hn)).bind fun _ p y =>
        (ih hrest).mono fun z _ q w hq hp => .cons hn hp hq

theorem placeTrampolines_emits (h : c.Alike b.fails d) (waiting : List Trampoline) :
    c.Lowers d b (waiting.map Trampoline.label) (fun c => waiting.forM fun t => do
      markLabel t.label
      c.copiesInto c.graph.location t.source t.target
      emit (.branch t.target)) fun z _ p y => y = {} ∧
        Concat (TrampolineCode c z.consts) waiting p := by
  induction waiting with
  | nil => exact .pure fun _ => ⟨rfl, .nil⟩
  | cons t rest ih =>
    have hplace : c.Lowers d b [t.label] (fun c => do
        markLabel t.label
        c.copiesInto c.graph.location t.source t.target
        emit (.branch t.target)) fun z _ p y => y = {} ∧ TrampolineCode c z.consts t p :=
      markLabel_bind ((copiesInto_emits h).bind fun _ p => emit_emits fun _ hp => ⟨rfl, p, hp, rfl⟩)
    refine hplace.bind fun _ p y => ih.mono fun _ _ q w hq hp => ?_
    rw [hp.1, hq.1]
    exact ⟨rfl, .cons hp.2 hq.2⟩

/-- The trampolines that a computation leaves behind are placed. -/
theorem flushTrampolines_emits {aim : Nat → Prop} {opened : List Label} {x x' : Emit Unit}
    {Q : Surround → Unit → List Op → Extras → Prop} (h : c.Alike b.fails d)
    (hx : Emits (b.aiming aim) opened x x' Q) (he : e.trampolines = []) :
    EmitsFrom (b.aiming fun _ => False) e opened (x >>= fun _ => c.flushTrampolines)
      (x' >>= fun _ => (c.within d).flushTrampolines) fun z _ p y =>
        ∃ waiting q r, (∀ t ∈ waiting, aim t.target) ∧ Q { z with trampolines := waiting } () q
          { y with trampolines := waiting } ∧ Concat (TrampolineCode c z.consts) waiting r ∧
            p = q ++ r := by
  obtain ⟨_, e₁, p, y, ⟨h₁, h₁'⟩, hp, hP⟩ | ⟨err, e₁, herr, hb⟩ := hx e
  · have hwaiting : e₁.trampolines = y.trampolines := by rw [hp.trampolines, he, nil_append]
    obtain ⟨_, e₂, q, w, ⟨h₂, h₂'⟩, hq, hQ⟩ | ⟨err, e₂, herr, hb⟩ :=
      placeTrampolines_emits (b := b.aiming aim) h e₁.trampolines { e₁ with trampolines := [] }
    · obtain rfl : w = {} := (hQ _ e₂.within_surround).1
      rw [hwaiting] at hq hQ
      refine .inl ⟨(), e₂, p ++ q, _,
        ⟨(run_bind_of_ok h₁).trans h₂, (run_bind_of_ok h₁').trans h₂'⟩, hp.place he hq, fun z hz =>
          ?_⟩
      have hz' : e₁.Within { z with trampolines := y.trampolines } :=
        ⟨hq.consts.isPrefix.trans hz.consts, hwaiting ▸ prefix_rfl, fun i hi =>
          hz.exception i (hq.exception i hi)⟩
      exact ⟨y.trampolines, p, q, hp.aims, hP _ hz', (hQ z hz).2, rfl⟩
    · exact .inr ⟨err, e₂, (run_bind_of_ok h₁).trans herr, hb⟩
  · exact .inr ⟨err, e₁, run_bind_of_error herr, hb⟩

/-- Lowering a block marks its label and places the trampolines of its edges. -/
theorem lowerBlock_emits {position : Nat} {block : Block} (h : c.Alike b.fails d)
    (he : e.trampolines = []) :
    EmitsFrom (b.aiming fun _ => False) e [position] (c.lowerBlock position block)
      ((c.within d).lowerBlock position block) fun z _ p y =>
        BlockCode c z position block p y.regions := by
  rw [lowerBlock, lowerBlock, ← bind_assoc, ← bind_assoc]
  have hnodes : Emits (b.aiming fun j => (c.phis j).isEmpty = false ∧
      c.Targets block.instructions j) [position] (markLabel position >>= fun _ =>
        _) (markLabel position >>= fun _ => _) fun z _ p y =>
        ∃ q, p = .label position :: q ∧ NodesCode c z block.instructions q y.regions :=
    markLabel_bind (Emits.mono (lowerNodes_emits (b := b.aiming _) h
      fun id hid n hn target ht j hj hphis =>
      ⟨hphis, id, hid, n, hn, target, ht, hj⟩) fun z _ q y hq => ⟨q, rfl, hq⟩)
  refine (flushTrampolines_emits h hnodes he).mono fun z _ p y hy => ?_
  obtain ⟨waiting, _, r, hwaiting, ⟨q, rfl, hq⟩, hr, rfl⟩ := hy
  exact ⟨waiting, q, r, hwaiting, hq, hr, rfl⟩

theorem lowerBlocks_emits (h : c.Alike b.fails d) (he : e.trampolines = []) :
    EmitsFrom (b.aiming fun _ => False) e (blocks.map Prod.snd)
      (blocks.forM fun (b, position) => c.lowerBlock position b)
      (blocks.forM fun (b, position) => (c.within d).lowerBlock position b) fun z _ p y =>
        BlocksCode c z blocks p y.regions := by
  induction blocks generalizing e with
  | nil => exact .inl ⟨(), e, [], {}, ⟨rfl, rfl⟩, .refl e, fun z _ => .nil⟩
  | cons first rest ih =>
    refine (lowerBlock_emits h he).bind fun _ e₁ p y hp => ?_
    have he₁ : e₁.trampolines = [] := by rw [hp.trampolines, he, hp.none_waits, nil_append]
    exact (ih he₁).mono fun z _ q w hq hp => .cons hp hq

/-! ## Straight code -/

/-- The number of arguments that the function of a graph takes. -/
def argSlots (c : Context) : Nat :=
  c.graph.function.params.length + c.graph.function.type.variadic.toNat

/-- What an operation names was found where it belongs. -/
def Names (c : Context) (pool : List Const) : Op → Prop
  | .loadConst i => i < pool.length
  | .loadArg i => i < c.argSlots
  | .loadLocal i | .storeLocal i | .initLocal i | .loadLocalAddress i =>
    ∃ id, c.slot id = .inLocal i
  | .loadStaticAddress i => ∃ name, c.declared.staticIndex? name = some i
  | .loadMethodPointer i => ∃ name e, c.declared.method? name = some e ∧ i = e.index
  | .fieldAddress record i =>
    ∃ id n path ty, c.graph.node? id = some n ∧ n.kind = .getElementPtr path ty ∧
      .field record i ∈ path
  | _ => True

/-- A straight operation that names only locals of nodes. -/
structure Straight (c : Context) (pool : List Const) (op : Op) : Prop where
  straight : op.isStraight = true
  names : c.Names pool op

variable {pool : List Const} {ops : List Op} {r : Ref} {i source : Nat} {ty : Ty}
  {phis : List (NodeId × List (Nat × Ref))} {locals : List Nat} {args : List Ref} {op : Op}

theorem Straight.ne_label (h : c.Straight pool op) (l : Label) : op ≠ .label l := by
  rintro rfl
  cases h.straight

theorem param?_lt (h : c.param? r = some i) : i < c.argSlots := by
  unfold param? at h
  split at h
  · obtain ⟨_, hi, -⟩ := Flow.lastIndex?_eq_some h
    exact Nat.lt_of_lt_of_le (lt_of_getElem? hi) (Nat.le_add_right _ _)
  · cases h

theorem packedArgument?_lt (h : c.packedArgument? = some i) : i < c.argSlots := by
  unfold packedArgument? at h
  split at h
  · next hv =>
    cases h
    simp [argSlots, hv]
  · cases h

theorem wholeLocal?_slot {address : Option NodeId} (h : c.wholeLocal? address ty = some i) :
    ∃ id, c.slot id = .inLocal i := by
  obtain ⟨id, -, h⟩ := Option.bind_eq_some_iff.mp h
  obtain ⟨n, -, h⟩ := Option.bind_eq_some_iff.mp h
  split at h
  · next hs _ =>
    split at h
    · cases h
      exact ⟨id, hs⟩
    · cases h
  · cases h

theorem Pushes.straight (h : Pushes c pool r ops) : ∀ op ∈ ops, c.Straight pool op := by
  cases h with
  | stacked => exact forall_mem_nil _
  | argument hi => exact forall_mem_singleton.mpr ⟨rfl, param?_lt hi⟩
  | constant _ hi => exact forall_mem_singleton.mpr ⟨rfl, hi.lt⟩
  | static hi => exact forall_mem_singleton.mpr ⟨rfl, _, hi⟩
  | method he => exact forall_mem_singleton.mpr ⟨rfl, _, _, he, rfl⟩
  | address _ _ hs | value _ _ hs => exact forall_mem_singleton.mpr ⟨rfl, _, hs⟩

theorem straight_storeCode (c : Context) (id : NodeId) :
    ∀ op ∈ c.storeCode id, c.Straight pool op := by
  unfold storeCode
  split
  · next hs => exact forall_mem_singleton.mpr ⟨rfl, id, hs⟩
  · exact forall_mem_nil _
  · exact forall_mem_singleton.mpr ⟨rfl, trivial⟩

theorem Incoming.straight (h : Incoming c pool source phis locals ops) :
    ∀ op ∈ ops, c.Straight pool op := by
  induction h with
  | nil => exact forall_mem_nil _
  | cons _ _ hr _ ih => exact forall_mem_append.mpr ⟨hr.straight, ih⟩

theorem Incoming.slots (h : Incoming c pool source phis locals ops) :
    ∀ i ∈ locals, ∃ id, c.slot id = .inLocal i := by
  induction h with
  | nil => exact forall_mem_nil _
  | cons _ hs _ _ ih => exact forall_mem_cons.mpr ⟨⟨_, hs⟩, ih⟩

theorem CopyCode.straight {target : Nat} (h : CopyCode c pool source target ops) :
    ∀ op ∈ ops, c.Straight pool op := by
  obtain ⟨locals, p, hp, rfl⟩ := h
  exact forall_mem_append.mpr ⟨hp.straight, List.forall_mem_map.mpr fun i hi =>
    ⟨rfl, hp.slots i (mem_reverse.mp hi)⟩⟩

theorem ArgumentCode.straight {fixed : Nat} {variadic : Bool}
    (h : ArgumentCode c pool args fixed variadic ops) : ∀ op ∈ ops, c.Straight pool op := by
  cases h with
  | exact _ hp => exact hp.forall_op fun _ _ _ => Pushes.straight
  | packed hp hq =>
    have hp := hp.forall_op fun _ _ _ => Pushes.straight
    have hq := hq.forall_op fun _ _ _ => Pushes.straight
    exact forall_mem_append.mpr ⟨hp,
      forall_mem_append.mpr ⟨hq, forall_mem_singleton.mpr ⟨rfl, trivial⟩⟩⟩

/-- An operation that names nothing, and the negation of its result. -/
theorem straight_negated (h : c.Straight pool op) (negated : Bool) :
    ∀ op' ∈ op :: (if negated then [logicalNot] else []), c.Straight pool op' := by
  refine forall_mem_cons.mpr ⟨h, ?_⟩
  split
  · exact forall_mem_singleton.mpr ⟨rfl, trivial⟩
  · exact forall_mem_nil _

theorem CompareCode.straight {op : CompareOp}
    (h : CompareCode c pool kind left right op negated ops) : ∀ op ∈ ops, c.Straight pool op := by
  obtain ⟨p, q, hp, hq, rfl⟩ := h
  refine forall_mem_append.mpr ⟨hp.straight, forall_mem_append.mpr ⟨hq.straight, ?_⟩⟩
  refine straight_negated ?_ _
  exact ⟨rfl, trivial⟩

theorem FloatCode.straight (h : FloatCode c pool kind left right pr ops) :
    ∀ op ∈ ops, c.Straight pool op := by
  cases h with
  | once _ hp => exact hp.straight
  | twice _ hp hq =>
    refine forall_mem_append.mpr ⟨hp.straight, forall_mem_append.mpr ⟨hq.straight, ?_⟩⟩
    refine straight_negated ?_ _
    exact ⟨rfl, trivial⟩
  | known _ hi => exact forall_mem_singleton.mpr ⟨rfl, hi.lt⟩

theorem Pushes.straight_behind (h : Pushes c pool r ops) (hop : c.Straight pool op) :
    ∀ op' ∈ ops ++ [op], c.Straight pool op' :=
  forall_mem_append.mpr ⟨h.straight, forall_mem_singleton.mpr hop⟩

theorem straight_steps {path steps : List AddressStep} (h : Concat (StepCode c pool) steps ops)
    (hn : c.graph.node? id = some n) (hk : n.kind = .getElementPtr path ty) (hsub : steps ⊆ path) :
    ∀ op ∈ ops, c.Straight pool op := by
  induction h with
  | nil => exact forall_mem_nil _
  | cons hs _ ih =>
    obtain ⟨hmem, hsub⟩ := cons_subset.mp hsub
    refine forall_mem_append.mpr ⟨?_, ih hsub⟩
    cases hs with
    | stay => exact forall_mem_nil _
    | field => exact forall_mem_singleton.mpr ⟨rfl, id, n, path, ty, hn, hk, hmem⟩
    | stride _ hp | element hp => exact hp.straight_behind ⟨rfl, trivial⟩

theorem ResultCode.straight (h : ResultCode c pool n ops) (hn : c.graph.node? id = some n) :
    ∀ op ∈ ops, c.Straight pool op := by
  cases h with
  | whole _ hi => exact forall_mem_singleton.mpr ⟨rfl, wholeLocal?_slot hi⟩
  | load _ _ _ _ hp | unary _ _ _ hp | convert _ _ _ _ _ hp | vaArg _ _ _ hp =>
    exact hp.straight_behind ⟨rfl, trivial⟩
  | binary _ _ _ hp hq =>
    exact forall_mem_append.mpr ⟨hp.straight, hq.straight_behind ⟨rfl, trivial⟩⟩
  | intCompare _ _ _ hp => exact hp.straight
  | floatCompare _ _ _ hp => exact hp.straight
  | same _ _ hp => exact hp.straight
  | address hk _ hp hq =>
    exact forall_mem_append.mpr ⟨hp.straight, straight_steps hq hn hk fun _ hs => hs⟩

/-- The code of a call is straight apart from the call itself. -/
theorem CallCode.forall_op {Q : Op → Prop} {callee : Ref}
    (h : CallCode c pool id n type callee args target ops) (hstraight : ∀ op, c.Straight pool op →
      Q op) (hmethod : ∀ e, target = .method e → Q (.call e.index e.type.argSlots))
    (hservice : ∀ s, target = .route (.service s) → Q (.callService s s.arity))
    (hindirect : target = .indirect → ∀ n returns, Q (.callIndirect n returns)) :
    ∀ op ∈ ops, Q op := by
  have of_straight {p : List Op} (hp : ∀ op ∈ p, c.Straight pool op) : ∀ op ∈ p, Q op :=
    fun op hop => hstraight op (hp op hop)
  have pushAll {rs : List Ref} {p : List Op} (hp : Concat (Pushes c pool) rs p) : ∀ op ∈ p, Q op :=
    of_straight (hp.forall_op fun _ _ _ => Pushes.straight)
  have store := of_straight (c.straight_storeCode id)
  cases h with
  | method _ _ hp =>
    refine forall_mem_append.mpr ⟨of_straight hp.straight, forall_mem_cons.mpr ⟨hmethod _ rfl, ?_⟩⟩
    split
    · simp
    · exact store
  | service _ _ hp =>
    exact forall_mem_append.mpr ⟨pushAll hp, forall_mem_cons.mpr ⟨hservice _ rfl, store⟩⟩
  | procedure _ _ _ hp =>
    exact forall_mem_append.mpr ⟨pushAll hp, forall_mem_cons.mpr ⟨hservice _ rfl, by simp⟩⟩
  | memory _ _ _ _ hp hq =>
    have hq := forall_mem_append.mpr ⟨of_straight hq.straight, store⟩
    exact forall_mem_append.mpr ⟨pushAll hp, forall_mem_cons.mpr ⟨hservice _ rfl, hq⟩⟩
  | vaStart _ hi hp =>
    exact of_straight (forall_mem_append.mpr ⟨hp.straight, forall_mem_cons.mpr
      ⟨⟨rfl, packedArgument?_lt hi⟩, forall_mem_singleton.mpr ⟨rfl, trivial⟩⟩⟩)
  | vaEnd hp =>
    refine of_straight (hp.forall_op ?_)
    rintro _ - _ ⟨p, hp, rfl⟩
    exact forall_mem_append.mpr ⟨hp.straight, forall_mem_singleton.mpr ⟨rfl, trivial⟩⟩
  | indirect _ hp hq =>
    refine forall_mem_append.mpr ⟨of_straight hp.straight, forall_mem_append.mpr
      ⟨of_straight hq.straight, forall_mem_cons.mpr ⟨hindirect rfl _ _, ?_⟩⟩⟩
    split
    · simp
    · exact store

/-! ## Operations of nodes -/

/-- What a node calls. -/
def Calls (c : Context) (n : Node) (target : CallTarget) : Prop :=
  c.declared.callTarget (n.location c.graph.location) (callee n) = .ok target ∧
    ((∃ type, n.kind = .call type) ∨ ∃ type normal unwind, n.kind = .invoke type normal unwind)

/-- A label of a block that a node leads to, or of a trampoline that waits. -/
def Outside (c : Context) (z : Surround) (n : Node) (l : Label) : Prop :=
  (∃ target ∈ n.kind.successors, c.graph.blockIndex? target = some l) ∨
    l ∈ z.trampolines.map Trampoline.label

/-- The operations in the code of a node that marks the given labels itself. -/
inductive NodeOp (c : Context) (z : Surround) (n : Node) (labels : List Label) : Op → Prop
  | straight {op : Op} : c.Straight z.consts op → NodeOp c z n labels op
  | method {e : MethodEntry} :
      c.Calls n (.method e) → NodeOp c z n labels (.call e.index e.type.argSlots)
  | service {s : Service} :
      c.Calls n (.route (.service s)) → NodeOp c z n labels (.callService s s.arity)
  | indirect {count : Nat} {returns : Bool} :
      c.Calls n .indirect → NodeOp c z n labels (.callIndirect count returns)
  | label {l : Label} : l ∈ labels → NodeOp c z n labels (.label l)
  | jump {op : Op} : op.isJump = true → (∀ l ∈ op.targets, n.kind = .select ∧ l ∈ labels ∨
      c.Outside z n l) → NodeOp c z n labels op
  /-- The handler of a protected call keeps the exception. -/
  | caught {x : Nat} :
      z.exception = some x → labels ≠ [] → n.kind ≠ .select → NodeOp c z n labels (.storeLocal x)
  | raised {x : Nat} : z.exception = some x → NodeOp c z n labels (.loadLocal x)
  | throw : n.kind = .cleanupRet none ∨ n.kind = .resume → NodeOp c z n labels .throw
  | ends {op : Op} : op = .ret ∨ op = .unreachable → NodeOp c z n labels op

variable {z : Surround} {rs : List Region} {labels : List Label} {Q : Op → Prop}

theorem blockIndex?_lt {id : BlockId} (h : c.graph.blockIndex? id = some i) :
    i < c.graph.blocks.length := by
  obtain ⟨_, hi, -⟩ := Flow.lastIndex?_eq_some h
  exact lt_of_getElem? hi

theorem Targets.lt {ids : List NodeId} (h : c.Targets ids i) : i < c.graph.blocks.length := by
  obtain ⟨_, _, _, _, _, _, hi⟩ := h
  exact blockIndex?_lt hi

theorem LeadsTo.outside {id : BlockId} {l : Label} (h : LeadsTo c z source id l)
    (hid : id ∈ n.kind.successors) : c.Outside z n l := by
  obtain ⟨target, ht, ⟨-, rfl⟩ | hmem⟩ := h
  · exact .inl ⟨id, hid, ht⟩
  · exact .inr (List.mem_map_of_mem hmem)

theorem CaseLabels.outside {labels : List (Int × Label)}
    (h : CaseLabels c z source kind cases labels)
    (hcases : cases.map Prod.snd ⊆ n.kind.successors) :
    ∀ l ∈ labels.map Prod.snd, c.Outside z n l := by
  induction h with
  | nil => exact forall_mem_nil _
  | cons hl _ ih =>
    obtain ⟨hfirst, hrest⟩ := cons_subset.mp hcases
    exact forall_mem_cons.mpr ⟨hl.outside hfirst, ih hrest⟩

theorem GoesTo.mem_successors {target : BlockId} (h : GoesTo n target) :
    target ∈ n.kind.successors := by
  cases h with
  | branch hk | catchRet hk | cleanupRet hk | catchSwitch hk => simp [hk]

theorem JumpCode.nodeOps {id : BlockId} (h : JumpCode c z.consts source id ops)
    (hid : id ∈ n.kind.successors) : ∀ op ∈ ops, NodeOp c z n labels op := by
  obtain ⟨target, p, ht, hp, rfl⟩ := h
  refine forall_mem_append.mpr ⟨fun op hop => .straight (hp.straight op hop),
    forall_mem_singleton.mpr (.jump rfl ?_)⟩
  exact forall_mem_singleton.mpr (.inr (.inl ⟨id, hid, ht⟩))

/-- What the code of a node consists of. Only choices and protected calls have labels of their
own. -/
theorem NodeCode.nodeOps (h : NodeCode c z id n ops rs) (hn : c.graph.node? id = some n) :
    ∃ labels, (n.kind = .select → ∀ l ∈ labels, Code.Enters ops l) ∧
      (n.kind ≠ .select → rs = [] → labels = []) ∧ ∀ op ∈ ops, NodeOp c z n labels op := by
  have straight {labels : List Label} {p : List Op} (hp : ∀ op ∈ p, c.Straight z.consts op) :
      ∀ op ∈ p, NodeOp c z n labels op := fun op hop => .straight (hp op hop)
  have one {labels : List Label} {op : Op} (hop : NodeOp c z n labels op) :
      ∀ op' ∈ [op], NodeOp c z n labels op' :=
    forall_mem_singleton.mpr hop
  have store {labels : List Label} : ∀ op ∈ c.storeCode id, NodeOp c z n labels op :=
    straight (c.straight_storeCode id)
  have call {labels : List Label} {type : FunctionType} {args : List Ref} {target : CallTarget}
      {p : List Op} (hcalls : c.Calls n target) (hp : CallCode c z.consts id n type (callee n)
        args target p) :
      ∀ op ∈ p, NodeOp c z n labels op :=
    hp.forall_op (fun _ => .straight) (fun e he => .method (he ▸ hcalls)) (fun s hs =>
      .service (hs ▸ hcalls)) fun hi _ _ => .indirect (hi ▸ hcalls)
  have unmarked (hops : ∀ op ∈ ops, NodeOp c z n [] op) :
      ∃ labels, (n.kind = .select → ∀ l ∈ labels, Code.Enters ops l) ∧
        (n.kind ≠ .select → rs = [] → labels = []) ∧ ∀ op ∈ ops, NodeOp c z n labels op :=
    ⟨[], by simp, fun _ _ => rfl, hops⟩
  cases h with
  | result hp => exact unmarked (forall_mem_append.mpr ⟨straight (hp.straight hn), store⟩)
  | alloca _ hs => exact unmarked (one (.straight ⟨rfl, id, hs⟩))
  | noLocal | phi => exact unmarked (forall_mem_nil _)
  | pad | generic => exact unmarked (one (.straight ⟨rfl, trivial⟩))
  | storeWhole _ _ hi hp =>
    exact unmarked (forall_mem_append.mpr ⟨straight hp.straight,
      one (.straight ⟨rfl, wholeLocal?_slot hi⟩)⟩)
  | store _ _ _ _ hp hq =>
    exact unmarked (forall_mem_append.mpr ⟨straight hp.straight, forall_mem_append.mpr
      ⟨straight hq.straight, one (.straight ⟨rfl, trivial⟩)⟩⟩)
  | @select _ _ _ otherwise done p q r hk _ hp hq hr =>
    have hnone : ∀ op ∈ .label otherwise :: (r ++ c.storeCode id), ∀ u, op ≠ .leave u := by
      simp only [forall_mem_cons, forall_mem_append]
      refine ⟨by simp, fun op hop u h => ?_, fun op hop u h => ?_⟩
      · cases (h ▸ hr.straight op hop).straight
      · cases (h ▸ c.straight_storeCode id op hop : c.Straight [] (.leave u)).straight
    refine ⟨[otherwise, done], fun _ => forall_mem_cons.mpr ⟨?_, forall_mem_singleton.mpr ?_⟩,
      fun hselect => absurd hk hselect, ?_⟩
    · exact ⟨p ++ .branchFalse otherwise :: (q ++ c.storeCode id), .branch done,
        r ++ (c.storeCode id ++ [.label done]), by simp, by simp⟩
    · have henters := (Code.Enters.of_forall (b := []) (l := done) hnone).append_left
        (p ++ .branchFalse otherwise :: (q ++ (c.storeCode id ++ [.branch done])))
      simpa only [append_assoc, cons_append, nil_append] using henters
    simp only [forall_mem_append, forall_mem_cons]
    exact ⟨straight hp.straight, .jump rfl (by simp [Op.targets, hk]), straight hq.straight, store,
      .jump rfl (by simp [Op.targets, hk]), .label (by simp), straight hr.straight, store,
        .label (by simp), forall_mem_nil _⟩
  | call hk ht hp => exact unmarked (call ⟨ht, .inl ⟨_, hk⟩⟩ hp)
  | invoke hk ht _ hp hq =>
    exact unmarked (forall_mem_append.mpr ⟨call ⟨ht, .inr ⟨_, _, _, hk⟩⟩ hp,
      hq.nodeOps (by simp [hk])⟩)
  | @guarded _ _ _ _ u x label tryStart tryEnd handlerStart handlerEnd p q hk ht _ hu hp hl hx hq =>
    refine ⟨[tryStart, tryEnd, handlerStart, handlerEnd], by simp [hk], fun _ hrs =>
      (nomatch hrs), ?_⟩
    simp only [forall_mem_append, forall_mem_cons]
    exact ⟨straight hp.straight, .label (by simp), call ⟨ht, .inr ⟨_, _, _, hk⟩⟩ hq,
      .jump rfl (forall_mem_singleton.mpr (.inr (hl.outside (by simp [hk])))),
        .label (by simp),
      .label (by simp), .caught hx (by simp) (by simp [hk]),
      .jump rfl (forall_mem_singleton.mpr
        (.inr (.inl ⟨_, by simp [hk], hu⟩))), .label (by simp),
      forall_mem_nil _⟩
  | jump hk hp => exact unmarked (hp.nodeOps hk.mem_successors)
  | condBranch hk _ hp hl hq =>
    exact unmarked (forall_mem_append.mpr ⟨straight hp.straight, forall_mem_cons.mpr
      ⟨.jump rfl (forall_mem_singleton.mpr
        (.inr (hl.outside (by simp [hk])))),
          hq.nodeOps (by simp [hk])⟩⟩)
  | switch hk _ _ hp hcases hl =>
    refine unmarked (forall_mem_append.mpr ⟨straight hp.straight,
      one (.jump rfl (forall_mem_append.mpr ⟨?_, ?_⟩))⟩)
    · exact fun l hl => .inr (hcases.outside (by simp [hk]) l hl)
    · exact forall_mem_singleton.mpr (.inr (hl.outside (by simp [hk])))
  | ret _ _ hp =>
    exact unmarked (forall_mem_append.mpr ⟨straight hp.straight, one (.ends (.inl rfl))⟩)
  | retVoid => exact unmarked (one (.ends (.inl rfl)))
  | rethrow hk hx => exact unmarked (forall_mem_cons.mpr ⟨.raised hx, one (.throw hk)⟩)
  | unreachable => exact unmarked (one (.ends (.inr rfl)))

theorem NodesCode.forall_op (h : NodesCode c z ids ops rs)
    (hQ : ∀ id n labels op, c.graph.node? id = some n → NodeOp c z n labels op → Q op) :
    ∀ op ∈ ops, Q op := by
  induction h with
  | nil => exact forall_mem_nil _
  | skip _ _ ih => exact ih
  | cons hn hp _ ih =>
    obtain ⟨labels, -, -, hops⟩ := hp.nodeOps hn
    exact forall_mem_append.mpr ⟨fun op hop => hQ _ _ labels op hn (hops op hop), ih⟩

/-- The code of blocks consists of that of their nodes, labels, and straight code in front of
jumps. -/
theorem BlocksCode.forall_op (h : BlocksCode c z blocks ops rs) (hlabel : ∀ l, Q (.label l))
    (hbranch : ∀ l, Q (.branch l)) (hstraight : ∀ op, c.Straight z.consts op → Q op)
    (hnode : ∀ waiting id n labels op, c.graph.node? id = some n →
      NodeOp c { z with trampolines := waiting } n labels op → Q op) :
    ∀ op ∈ ops, Q op := by
  induction h with
  | nil => exact forall_mem_nil _
  | cons hb _ ih =>
    obtain ⟨waiting, p, q, -, hp, hq, rfl⟩ := hb
    have hq : ∀ op ∈ q, Q op := by
      refine hq.forall_op ?_
      rintro t - _ ⟨p, hp, rfl⟩
      exact forall_mem_cons.mpr ⟨hlabel _, forall_mem_append.mpr
        ⟨fun op hop => hstraight op (hp.straight op hop), forall_mem_singleton.mpr (hbranch _)⟩⟩
    exact forall_mem_append.mpr ⟨forall_mem_cons.mpr ⟨hlabel _, forall_mem_append.mpr
      ⟨hp.forall_op (hnode waiting), hq⟩⟩, ih⟩

end Context

end Stackify.Lower
