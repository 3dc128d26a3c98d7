import Stackify.Proofs.Effect
import Stackify.Proofs.Slots

/-!
How many values are on the evaluation stack at every place of a method's code.

`Heights p m h ops h'` says that a piece of code which is entered with `h` values on the stack, or
never from above if `h` is `none`, finds the operands of all its operations there, jumps only with
an empty stack, and ends with `h'` values. What labels are entered with is said by their role.
Lowered code keeps to that:

    ResultCode c pool n ops → Ready c n h → … → Heights p m (some h) ops (some 1)
-/

namespace Stackify.Code

open List

/-- How control comes to a label. -/
inductive Role where
  /-- From above or by a jump, with an empty stack. -/
  | plain
  /-- By an exception, which is on the stack. -/
  | handler
  /-- Never. -/
  | closed

def Role.height : Role → Option Nat
  | plain => some 0
  | handler => some 1
  | closed => none

/-- The role of a label in code with the given protected ranges: there is no way to the ends of a
range and of its handler. -/
def roleIn (rs : List Region) (l : Label) : Role :=
  if ∃ r ∈ rs, r.handlerStart = l then .handler
  else if ∃ r ∈ rs, r.tryEnd = l ∨ r.handlerEnd = l then .closed
  else .plain

def Method.role (m : Method) : Label → Role := roleIn m.body.regions

section
variable {rs qs : List Region} {l : Label}

theorem roleIn_eq_handler : roleIn rs l = .handler ↔ ∃ r ∈ rs, r.handlerStart = l := by
  unfold roleIn
  split
  · next h => simp [h]
  · next h => split <;> simpa using h

/-- Only ranges that a label belongs to say something about its role. -/
theorem roleIn_congr (h : ∀ r, l ∈ r.labels → (r ∈ rs ↔ r ∈ qs)) : roleIn rs l = roleIn qs l := by
  have hstart : (∃ r ∈ rs, r.handlerStart = l) ↔ ∃ r ∈ qs, r.handlerStart = l :=
    exists_congr fun r => and_congr_left fun hl => h r (by simp [Region.labels, hl])
  have hend : (∃ r ∈ rs, r.tryEnd = l ∨ r.handlerEnd = l) ↔ ∃ r ∈ qs, r.tryEnd = l ∨
      r.handlerEnd = l :=
    exists_congr fun r =>
      and_congr_left fun hl => h r (by rcases hl with hl | hl <;> simp [Region.labels, hl])
  simp only [roleIn, hstart, hend]

theorem roleIn_eq_plain (h : ∀ r ∈ rs, l ∉ r.labels) : roleIn rs l = .plain :=
  roleIn_congr fun r hl => ⟨fun hr => absurd hl (h r hr), fun hr => absurd hr List.not_mem_nil⟩

end

/-- How many values an operation has put on the stack when control goes on behind it. -/
def Op.results (p : Program) : Op → Nat
  | .call i _ =>
    match p.methods[i]? with
    | some m => if m.type.ret.isVoid then 0 else 1
    | none => 0
  | .callIndirect _ returns => if returns then 1 else 0
  | op => op.gives

/-- Whether control never goes on behind an operation. -/
def Op.isFinal : Op → Bool
  | .branch _ | .switchValue _ _ | .leave _ | .ret | .throw | .unreachable => true
  | _ => false

/-- Whether control comes from above and only ever goes on behind an operation. -/
def Op.passes : Op → Bool
  | .label _ | .branchTrue _ | .branchFalse _ => false
  | op => !op.isFinal

section
variable (p : Program) (m : Method)

/-- The height behind an operation that is reached with the given one. -/
def Op.after (h : Option Nat) : Op → Option Nat
  | .label l => (m.role l).height
  | op => if op.isFinal then none else h.map fun n => n - op.takes m + op.results p

/-- An operation finds its operands, and only jumps with an empty stack to where that is
expected. -/
def Op.Fits (h : Option Nat) : Op → Prop
  | .label l => h = none ∨ h = some 0 ∧ m.role l = .plain
  | op => (∀ l ∈ op.targets, m.role l = .plain) ∧
      ∀ n, h = some n → op.takes m ≤ n ∧ ∀ l ∈ op.targets, n = op.takes m ∨ op = .leave l

/-- The heights along a piece of code. -/
def Heights : Option Nat → List Op → Option Nat → Prop
  | h, [], h' => h = h'
  | h, op :: ops, h' => op.Fits m h ∧ Heights (op.after p m h) ops h'

end

variable {p : Program} {m : Method} {h h₁ h₂ : Option Nat} {a b : List Op} {op : Op} {n : Nat}

theorem Op.of_passes (h : op.passes = true) :
    (∀ l, op ≠ .label l) ∧ op.targets = [] ∧ op.isFinal = false := by
  cases op with
  | label | branch | branchTrue | branchFalse | switchValue | leave | ret | throw | unreachable =>
    cases h
  | _ => exact ⟨by simp, rfl, rfl⟩

theorem Heights.append (ha : Heights p m h a h₁) (hb : Heights p m h₁ b h₂) :
    Heights p m h (a ++ b) h₂ := by
  induction a generalizing h with
  | nil =>
    cases ha
    exact hb
  | cons op a ih => exact ⟨ha.1, ih ha.2⟩

section
variable (hlabel : ∀ l, op ≠ .label l)
include hlabel

theorem Op.after_of_ne : op.after p m h = if op.isFinal then none else h.map fun n =>
    n - op.takes m + op.results p := by
  cases op with
  | label l => exact absurd rfl (hlabel l)
  | _ => rfl

theorem Op.fits_of_ne :
    op.Fits m h ↔ (∀ l ∈ op.targets, m.role l = .plain) ∧
      ∀ n, h = some n → op.takes m ≤ n ∧ ∀ l ∈ op.targets, n = op.takes m ∨ op = .leave l := by
  cases op with
  | label l => exact absurd rfl (hlabel l)
  | _ => rfl

end

/-- An operation that control goes on behind takes its operands off `k` other values. -/
theorem Heights.cons {k : Nat} (htakes : n = k + op.takes m)
    (ha : Heights p m (some (k + op.results p)) a h₂) (hop : op.passes = true := by rfl) :
    Heights p m (some n) (op :: a) h₂ := by
  obtain ⟨hlabel, htargets, hfinal⟩ := Op.of_passes hop
  refine ⟨(Op.fits_of_ne hlabel).mpr ⟨by simp [htargets], ?_⟩, ?_⟩
  · rintro _ ⟨⟩
    exact ⟨by omega, by simp [htargets]⟩
  · rw [Op.after_of_ne hlabel]
    simpa [hfinal, htakes] using ha

theorem Heights.label {l : Label} (hl : m.role l = .plain) (ha : Heights p m (some 0) a h₂)
    (hh : h = none ∨ h = some 0) : Heights p m h (.label l :: a) h₂ := by
  refine ⟨hh.imp_right fun hh => ⟨hh, hl⟩, ?_⟩
  rwa [Op.after, hl]

/-- A label that control does not come to from above. -/
theorem Heights.behind {l : Label} (ha : Heights p m (m.role l).height a h₂) :
    Heights p m none (.label l :: a) h₂ := ⟨.inl rfl, ha⟩

/-- An operation that takes all there is on the stack and may jump. -/
theorem Heights.jump (hlabel : ∀ l, op ≠ .label l) (htargets : ∀ l ∈ op.targets, m.role l = .plain)
    (htakes : op.takes m = n) (ha : Heights p m (op.after p m (some n)) a h₂) :
    Heights p m (some n) (op :: a) h₂ := by
  refine ⟨(Op.fits_of_ne hlabel).mpr ⟨htargets, ?_⟩, ha⟩
  rintro _ ⟨⟩
  exact ⟨Nat.le_of_eq htakes, fun l _ => .inl htakes.symm⟩

/-- A jump that empties the stack. -/
theorem Heights.leave {l : Label} (hl : m.role l = .plain) (ha : Heights p m none a h₂) :
    Heights p m h (.leave l :: a) h₂ := by
  refine ⟨⟨by simpa [Op.targets] using hl, fun _ _ => ⟨Nat.zero_le _, ?_⟩⟩, ha⟩
  simp [Op.targets]

/-- An operation behind which control does not go on. -/
theorem Heights.stop (hlabel : ∀ l, op ≠ .label l) (hfinal : op.isFinal = true)
    (htargets : op.targets = []) (htakes : op.takes m ≤ n) : Heights p m (some n) [op] none := by
  refine ⟨(Op.fits_of_ne hlabel).mpr ⟨by simp [htargets], ?_⟩, ?_⟩
  · rintro _ ⟨⟩
    exact ⟨htakes, by simp [htargets]⟩
  · rw [Op.after_of_ne hlabel, if_pos hfinal]
    rfl

end Stackify.Code

namespace Stackify.Lower

open Code (Op Const Label Program Method Heights)
open Stackify.Flow (Node NodeId Ref Kind)
open Ssa (BlockId FunctionType)
open List

namespace Context

/-! ## Operands -/

variable {p : Program} {m : Method} {c : Context} {pool : List Const} {n : Node} {r : Ref}
  {ops : List Op} {h k : Nat} {id : NodeId}

theorem Pushes.heights (hp : Pushes c pool r ops) (hs : ∀ j, ¬ Stacked c r j) :
    Heights p m (some h) ops (some (h + 1)) := by
  cases hp with
  | stacked hparam hr hslot => exact absurd ⟨hparam, hr, hslot⟩ (hs _)
  | _ => exact .cons rfl rfl

theorem Pushes.eq_nil (hp : Pushes c pool r ops) {j : NodeId} (hs : Stacked c r j) : ops = [] := by
  obtain ⟨hparam, hr, hslot⟩ := hs
  cases hp with
  | argument h => rw [hparam] at h; cases h
  | address _ hr' hslot' =>
    cases hr.symm.trans hr'
    rw [hslot] at hslot'
    cases hslot'
  | value _ hr' hslot' =>
    cases hr.symm.trans hr'
    rw [hslot] at hslot'
    cases hslot'
  | stacked => rfl
  | constant => cases hr
  | static => cases hr
  | method => cases hr

/-- Only its first operand is on the stack before a node. -/
theorem Ready.rest (hready : Ready c n h) {rest : List Ref} (ho : n.operands = r :: rest) :
    ∀ r ∈ rest, ∀ j, ¬ Stacked c r j := by
  cases hready with
  | empty hs => exact fun r' hr => hs r' (by simp [ho, hr])
  | first _ ho' _ hrest =>
    rw [ho'] at ho
    cases ho
    exact hrest

/-- After its first operand a node has one value on the stack. -/
theorem Ready.first_heights (hready : Ready c n h) {rest : List Ref} (ho : n.operands = r :: rest)
    (hp : Pushes c pool r ops) : Heights p m (some h) ops (some 1) := by
  cases hready with
  | empty hs => exact hp.heights (hs r (by simp [ho]))
  | first _ ho' hs =>
    rw [ho'] at ho
    cases ho
    rw [hp.eq_nil hs]
    rfl

theorem Ready.eq_zero (hready : Ready c n h) (hf : n.kind.firstOperand? = none) :
    h = 0 ∧ ∀ r ∈ n.operands, ∀ j, ¬ Stacked c r j := by
  cases hready with
  | empty hs => exact ⟨rfl, hs⟩
  | first hf' => rw [hf] at hf'; cases hf'

theorem pushAll_heights {rs : List Ref} (hp : Concat (Pushes c pool) rs ops)
    (hs : ∀ r ∈ rs, ∀ j, ¬ Stacked c r j) : Heights p m (some h) ops (some (h + rs.length)) := by
  induction hp generalizing h with
  | nil => rfl
  | @cons r rs _ _ hr _ ih =>
    have hlen : h + (r :: rs).length = h + 1 + rs.length := by rw [length_cons]; omega
    rw [hlen]
    exact (hr.heights (hs _ (by simp))).append (ih fun r hr => hs r (by simp [hr]))

theorem storeCode_heights :
    Heights p m (some (h + 1)) (c.storeCode id) (some (h + c.leaves id)) := by
  unfold storeCode leaves
  split
  · next hs =>
    rw [hs]
    exact .cons rfl rfl
  · next hs =>
    rw [hs]
    rfl
  · next hs =>
    rw [hs]
    exact .cons rfl rfl

/-! ## Edges -/

/-- What the heights in the code of a graph rest on, apart from the roles of labels. -/
structure Fitting (p : Program) (m : Method) (c : Context) : Prop where
  ret : c.graph.function.isVoid = true → m.type.ret.isVoid = true
  calls : ∀ l r e, c.declared.callTarget l r = .ok (.method e) → ∃ m, p.methods[e.index]? = some m ∧
    m.type = e.type
  phis : ∀ target, ∀ phi ∈ c.phis target, ∀ e ∈ phi.2, ∀ j, ¬ Stacked c e.2 j
  steps : ∀ (id : NodeId) (n : Node), c.graph.node? id = some n →
    ∀ path ty, n.kind = .getElementPtr path ty → ∀ step ∈ path, ∀ i, step.index? = some i →
      i ∈ n.operands

/-- Blocks and the trampolines that are waiting are entered with an empty stack. -/
structure Plain (c : Context) (z : Surround) (m : Method) : Prop where
  blocks : ∀ i < c.graph.blocks.length, m.role i = .plain
  trampolines : ∀ t ∈ z.trampolines, m.role t.label = .plain

variable {z : Surround} {source target : Nat}

theorem LeadsTo.plain {id : BlockId} {label : Label} (hl : LeadsTo c z source id label)
    (hz : Plain c z m) : m.role label = .plain := by
  obtain ⟨target, ht, ⟨-, rfl⟩ | hmem⟩ := hl
  · exact hz.blocks _ (blockIndex?_lt ht)
  · exact hz.trampolines _ hmem

theorem Incoming.heights {phis : List (NodeId × List (Nat × Ref))} {locals : List Nat}
    (hi : Incoming c pool source phis locals ops)
    (hs : ∀ phi ∈ phis, ∀ e ∈ phi.2, ∀ j, ¬ Stacked c e.2 j) :
    Heights p m (some h) ops (some (h + locals.length)) := by
  induction hi generalizing h with
  | nil => rfl
  | @cons id i j incoming r rest locals p q hr _ hp _ ih =>
    have hlen : h + (i :: locals).length = h + 1 + locals.length := by rw [length_cons]; omega
    rw [hlen]
    refine (hp.heights ?_).append (ih fun phi hphi => hs phi (by simp [hphi]))
    exact hs (id, incoming) (by simp) (j, r) (mem_of_find?_eq_some hr)

theorem storeAll_heights (locals : List Nat) :
    Heights p m (some (h + locals.length)) (locals.map .storeLocal) (some h) := by
  induction locals with
  | nil => rfl
  | cons i locals ih =>
    exact .cons rfl ih

theorem CopyCode.heights (hc : CopyCode c pool source target ops) (hfit : Fitting p m c) :
    Heights p m (some 0) ops (some 0) := by
  obtain ⟨locals, q, hq, rfl⟩ := hc
  have hstore := storeAll_heights (p := p) (m := m) (h := 0) locals.reverse
  rw [length_reverse] at hstore
  exact (hq.heights (hfit.phis target)).append hstore

theorem JumpCode.heights {id : BlockId} (hj : JumpCode c pool source id ops) (hfit : Fitting p m c)
    (hz : Plain c z m) : Heights p m (some 0) ops none := by
  obtain ⟨target, q, ht, hq, rfl⟩ := hj
  refine (hq.heights hfit).append (.jump (by simp) ?_ rfl rfl)
  simpa [Op.targets] using hz.blocks target (blockIndex?_lt ht)

/-! ## Calls -/

variable {args : List Ref}

theorem ArgumentCode.heights {fixed : Nat} {variadic : Bool}
    (ha : ArgumentCode c pool args fixed variadic ops) (hfixed : fixed ≤ args.length)
    (hs : ∀ r ∈ args, ∀ j, ¬ Stacked c r j) :
    Heights p m (some h) ops (some (h + fixed + variadic.toNat)) := by
  have htake {q : List Op} (hq : Concat (Pushes c pool) (args.take fixed) q) :
      Heights p m (some h) q (some (h + fixed)) := by
    have hlen : (args.take fixed).length = fixed := by rw [length_take, Nat.min_eq_left hfixed]
    exact hlen ▸ pushAll_heights hq fun r hr => hs r (mem_of_mem_take hr)
  cases ha with
  | exact _ hq => exact htake hq
  | packed hq hmore =>
    refine (htake hq).append
      ((pushAll_heights hmore fun r hr => hs r (mem_of_mem_drop hr)).append ?_)
    exact .cons (by rw [length_drop]; rfl) rfl

theorem serviceArguments_length {s : Code.Service} (h : acceptsArguments s args.length) :
    (args.take s.arity).length = s.arity := by
  simp only [acceptsArguments, Bool.or_eq_true, Bool.and_eq_true, decide_eq_true_eq] at h
  rw [length_take]
  rcases h with (h | ⟨-, h⟩) | rfl
  · omega
  · omega
  · exact Nat.min_eq_left (Nat.zero_le _)

/-- What a call leaves on the stack, given that its result is only expected if it has one. -/
theorem CallCode.heights {type : FunctionType} {callee : Ref} {target : CallTarget}
    (hc : CallCode c pool id n type callee args target ops) (hfit : Fitting p m c)
    (htarget : ∃ l r, c.declared.callTarget l r = .ok target)
    (hs : ∀ r ∈ args, ∀ j, ¬ Stacked c r j) (hcallee : ∀ j, ¬ Stacked c callee j)
    (hresult : n.resultType = none → c.leaves id = 0)
    (hva : target = .route .vaStart ∨ target = .route .vaEnd → c.leaves id = 0)
    (hvoid : type.ret.isVoid = true → c.leaves id = 0) :
    Heights p m (some 0) ops (some (c.leaves id)) := by
  have hservice {s : Code.Service} {q : List Op} (ha : acceptsArguments s args.length)
      (hq : Concat (Pushes c pool) (args.take s.arity) q) : Heights p m (some 0) q
        (some (0 + s.arity)) :=
    serviceArguments_length ha ▸ pushAll_heights hq fun r hr => hs r (mem_of_mem_take hr)
  have hstore : Heights p m (some 1) (c.storeCode id) (some (c.leaves id)) :=
    Nat.zero_add (c.leaves id) ▸ storeCode_heights
  cases hc with
  | @method e q hargs hret hq =>
    obtain ⟨l, r, ht⟩ := htarget
    obtain ⟨m', hm', htype⟩ := hfit.calls l r e ht
    have hresults : (Op.call e.index e.type.argSlots).results p = if e.type.ret.isVoid then
        0 else 1 := by
      simp only [Op.results, hm', htype]
    refine (hq.heights hargs hs).append (.cons (Nat.add_assoc _ _ _) ?_)
    rw [hresults]
    cases hv : e.type.ret.isVoid with
    | true =>
      have hnone : n.resultType = none := by simpa [hv] using hret
      simp [Heights, hresult hnone]
    | false => exact hstore
  | service ha hv hq =>
    refine (hservice ha hq).append (.cons rfl ?_)
    simpa [Op.results, Op.gives, hv] using hstore
  | procedure ha hv hnone hq =>
    refine (hservice ha hq).append (.cons rfl ?_)
    simp [Op.results, Op.gives, hv, Heights, hresult hnone]
  | @memory s target rest q q' ha hv _ ht hq hr =>
    refine (hservice ha hq).append (.cons rfl ?_)
    have hpush : Heights p m (some 0) q' (some 1) := hr.heights (hs target (by simp [ht]))
    simpa [Op.results, Op.gives, hv] using hpush.append hstore
  | @vaStart list i q ht _ hq =>
    rw [hva (.inl rfl)]
    have hpush : Heights p m (some 0) q (some 1) := hq.heights (hs list (by simp [ht]))
    exact hpush.append (.cons rfl (.cons rfl rfl))
  | vaEnd hq =>
    rw [hva (.inr rfl)]
    clear hva hservice
    induction hq with
    | nil => rfl
    | cons ha _ ih =>
      obtain ⟨q, hq, rfl⟩ := ha
      have hpush : Heights p m (some 0) q (some 1) := hq.heights (hs _ (by simp))
      have hpop : Heights p m (some 1) [.pop] (some 0) := .cons rfl rfl
      exact (hpush.append hpop).append (ih fun r hr => hs r (by simp [hr]))
  | @indirect q q' hargs hq hr =>
    have hcall : 0 + type.params.length + type.variadic.toNat + 1 =
        0 + (Op.callIndirect (type.params.length + type.variadic.toNat) (!type.ret.isVoid)).takes
          m := by
      rw [Op.takes]
      omega
    refine (hq.heights hargs hs).append ((hr.heights hcallee).append (.cons hcall ?_))
    cases hv : type.ret.isVoid with
    | true => simp [Op.results, Heights, hvoid hv]
    | false => exact hstore

/-! ## Results -/

variable {left right : Ref} {kind : Code.NumKind} {negated : Bool} {pr : Flow.FloatPredicate}

/-- A comparison whose first operand may be on the stack already. -/
theorem CompareCode.heights {op : Code.CompareOp}
    (hc : CompareCode c pool kind left right op negated ops) (hleft : ∀ q, Pushes c pool left q →
      Heights p m (some h) q (some (k + 1))) (hright : ∀ j, ¬ Stacked c right j) :
    Heights p m (some h) ops (some (k + 1)) := by
  obtain ⟨q, q', hq, hq', rfl⟩ := hc
  refine (hleft q hq).append ((hq'.heights hright).append (.cons (Nat.add_assoc k 1 1) ?_))
  cases negated with
  | true => exact .cons rfl rfl
  | false => rfl

theorem twoComparisons?_operands {a b a' b' : Ref} {first second : Code.CompareOp}
    {op : Code.BinaryOp}
    (h : twoComparisons? left right pr = some ((a, b, first), (a', b', second), op, negated)) :
    (Kind.floatCompare pr).firstOperand? = none ∧ ∀ r ∈ [a, b, a', b'], r ∈ [left, right] := by
  cases pr with
  | one | ueq | ord | uno =>
    cases h
    exact ⟨rfl, by simp⟩
  | _ => cases h

theorem FloatCode.heights (hc : FloatCode c pool kind left right pr ops) (hready : Ready c n h)
    (hk : n.kind = .floatCompare pr) (ho : n.operands = [left, right]) :
    Heights p m (some h) ops (some 1) := by
  cases hc with
  | once _ hcmp =>
    exact hcmp.heights (fun q hq => hready.first_heights ho hq) (hready.rest ho right (by simp))
  | @twice a b a' b' first second op negated q q' htwo hq hq' =>
    obtain ⟨hf, hmem⟩ := twoComparisons?_operands htwo
    obtain ⟨rfl, hno⟩ := hready.eq_zero (hk ▸ hf)
    have hall : ∀ r ∈ [a, b, a', b'], ∀ j, ¬ Stacked c r j := fun r hr => hno r (ho ▸ hmem r hr)
    simp only [forall_mem_cons] at hall
    obtain ⟨ha, hb, ha', hb', -⟩ := hall
    refine (hq.heights (fun _ hq => hq.heights ha) hb).append
      ((hq'.heights (fun _ hq => hq.heights ha') hb').append (.cons (k := 0) rfl ?_))
    cases negated with
    | true => exact .cons rfl rfl
    | false => rfl
  | known hpr =>
    have hf : n.kind.firstOperand? = none := by
      rw [hk]
      rcases hpr with rfl | rfl <;> rfl
    obtain ⟨rfl, -⟩ := hready.eq_zero hf
    exact .cons rfl rfl

theorem StepCode.heights {s : Flow.AddressStep} (hc : StepCode c pool s ops)
    (hs : ∀ r, s.index? = some r → ∀ j, ¬ Stacked c r j) : Heights p m (some 1) ops (some 1) := by
  cases hc with
  | stay => rfl
  | stride _ hq | element hq =>
    exact (hq.heights (hs _ rfl)).append (.cons rfl rfl)
  | field => exact .cons rfl rfl

theorem ResultCode.heights (hc : ResultCode c pool n ops) (hfit : Fitting p m c)
    (hn : c.graph.node? id = some n) (hready : Ready c n h) :
    Heights p m (some h) ops (some 1) := by
  have hunary {r : Ref} {q : List Op} {op : Op} (ho : n.operands = [r]) (hq : Pushes c pool r q)
      (hop : Heights p m (some 1) [op] (some 1)) : Heights p m (some h) (q ++ [op]) (some 1) :=
    (hready.first_heights ho hq).append hop
  cases hc with
  | whole hk =>
    obtain ⟨rfl, -⟩ := hready.eq_zero (by rw [hk]; rfl)
    exact .cons rfl rfl
  | load _ ho _ _ hq => exact hunary ho hq (.cons rfl rfl)
  | unary _ ho _ hq => exact hunary ho hq (.cons rfl rfl)
  | @binary _ left right _ q q' _ ho _ hq hq' =>
    have hright : Heights p m (some 1) q' (some 2) := hq'.heights (hready.rest ho right (by simp))
    exact (hready.first_heights ho hq).append (hright.append (.cons (k := 0) rfl rfl))
  | @intCompare _ left right _ _ _ ho _ hcmp =>
    exact hcmp.heights (fun q hq => hready.first_heights ho hq) (hready.rest ho right (by simp))
  | floatCompare hk ho _ hcmp => exact hcmp.heights hready hk ho
  | convert _ ho _ _ _ hq => exact hunary ho hq (.cons rfl rfl)
  | same _ ho hq => exact hready.first_heights ho hq
  | vaArg _ ho _ hq => exact hunary ho hq (.cons rfl rfl)
  | @address path target base rest q q' hk ho hq hsteps =>
    refine (hready.first_heights ho hq).append ?_
    obtain ⟨-, hno⟩ := hready.eq_zero (by rw [hk]; rfl)
    have hindex := hfit.steps id n hn path target hk
    clear hk
    induction hsteps with
    | nil => rfl
    | cons hstep _ ih =>
      refine (hstep.heights fun r hr => hno r (hindex _ (by simp) r hr)).append ?_
      exact ih fun s hs => hindex s (by simp [hs])

end Context

end Stackify.Lower
