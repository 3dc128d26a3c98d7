import Stackify.Proofs.BlockMeaning
import Stackify.Proofs.Execution
import Stackify.Proofs.Heights
import Stackify.Proofs.Lowered
import Stackify.Proofs.Resolution

/-!
Runs of the code of nodes that compute with words.

`Holds c args ν locals` says that arguments and locals hold the words of a valuation. Besides that,
the word of a node may be on the stack for the next one (`leftover`). The code of a node keeps both
up to date:

- `Pushes.does`: the code of an operand pushes its word;
- `NodeCode.does`: the code of a node that gives a word puts it where it belongs;
- `NodesCode.does`: the code of nodes one after the other.
-/

namespace Stackify.Lower

open Code (Op Const Label NumKind Method Program)
open Machine (Value State Data Does CodeAt constValue)
open Stackify.Flow (Node NodeId Ref Key Valuation Shape Evals Kind)
open Ssa (Function IntTy Word storage)
open Resolve (Denotes)
open List Option

/-- A method is the code of a function. -/
structure Translated (p : Program) (m : Method) (c : Context) (f : Function) : Prop where
  regular : f.Regular
  shape : ∃ s blocks nodes moved, Shape s f c.graph blocks nodes moved
  body : BodyCode c p.consts m.body
  denotes : ∀ ty s, c.declared.resolver.lookup? ty = some s → Denotes ty s

variable {p : Program} {m : Method} {c : Context} {f : Function} {ty : Ssa.Ty} {t : IntTy} {i : Nat}
  {id : NodeId} {n : Node}

/-! ## Types and constants -/

/-- The type of the machine for integers is that of the words in which they are kept. -/
theorem Translated.lookup_int (h : Translated p m c f) {bits : Nat} {s : Code.Ty}
    (hs : c.declared.resolver.lookup? (.int bits) = some s) :
    storage bits = .i1 ∧ s = .bool ∨ ∃ w, (storage bits).kind = .int w ∧ s = .int w := by
  have hd := h.denotes _ _ hs
  rw [Denotes] at hd
  split at hd
  · next hone => exact .inl ⟨by rw [hone]; rfl, hd⟩
  · next hone =>
    obtain ⟨w, hw, rfl⟩ := hd
    exact .inr ⟨w, Ssa.storage_kind hone hw, rfl⟩

theorem Translated.numKind (h : Translated p m c f) (hty : ty.storage? = some t) {k : NumKind}
    (hk : c.numKind? ty = some k) : k = t.kind := by
  obtain ⟨s, hs, hk⟩ := bind_eq_some_iff.mp hk
  cases ty with
  | int bits =>
    cases hty
    rcases h.lookup_int hs with ⟨ht, rfl⟩ | ⟨w, hw, rfl⟩
    · cases hk
      rw [ht]
      rfl
    · cases hk
      exact hw.symm
  | _ => cases hty

/-- The constant of the machine for an integer is the word. -/
theorem Translated.constant (h : Translated p m c f) (hty : ty.storage? = some t)
    {n : Int} {k : Const} (hk : c.constant? (.int ty n) = some k) (hi : Pooled p.consts i k) :
    ∃ k', p.consts[i]? = some k' ∧ constValue p.records k' = (Word.ofInt t n).value := by
  obtain ⟨k', hk', hsame⟩ := hi
  refine ⟨k', hk', ?_⟩
  rw [Context.constant?] at hk
  cases ty with
  | int bits =>
    cases hty
    cases hs : c.declared.resolver.lookup? (.int bits) with
    | none => simp [hs] at hk
    | some s =>
      rcases h.lookup_int hs with ⟨ht, rfl⟩ | ⟨w, hw, rfl⟩
      · rw [hs] at hk
        cases hk
        have heq : k' = .bool (n % 2 ≠ 0) := by
          rcases hsame with h | h
          · exact h
          · cases k' <;> simp_all [Const.same]
        rw [heq, ht, Ssa.value_ofInt_bit]
        rfl
      · rw [hs] at hk
        cases hk
        have heq : k' = .int w (w.wrap n) := by
          rcases hsame with h | h
          · exact h
          · cases k' <;> simp_all [Const.same]
        rw [heq, Ssa.value_ofInt_wide hw]
        exact congrArg (Value.int w) (Int.bmod_bmod ..)
  | _ => cases hty

/-! ## Names and slots -/

section
variable (h : Translated p m c f)
include h

theorem Translated.keys : (c.graph.nodes.map (·.key)).Nodup := by
  obtain ⟨_, _, _, _, hshape⟩ := h.shape
  exact hshape.keys_nodup h.regular

theorem Translated.resolve (hn : c.graph.node? id = some n) :
    c.graph.resolve? (.key n.key) = some id :=
  Flow.resolve?_key h.keys hn

/-- Parameters have numbers of their own. -/
theorem Translated.param_ne (hn : c.graph.node? id = some n) {q : Ssa.Param}
    (hq : q ∈ c.graph.function.params) : n.key ≠ .value q.id := by
  obtain ⟨_, _, _, _, hshape⟩ := h.shape
  intro hk
  have hnone := hshape.not_param h.regular (hk ▸ h.resolve hn)
  have hfalse := Flow.lastIndex?_eq_none.mp hnone q hq
  simp at hfalse

theorem Translated.slot_inj {id id' : Nat} (hs : c.slot id = .inLocal i)
    (hs' : c.slot id' = .inLocal i) : id = id' := by
  obtain ⟨_, hslots, -⟩ := h.body.slots
  exact c.slot_inj hslots hs hs'

theorem Translated.slot_lt {id : Nat} (hs : c.slot id = .inLocal i) : i < m.body.locals.length := by
  obtain ⟨locals, hslots, hprefix⟩ := h.body.slots
  exact Nat.lt_of_lt_of_le (c.slot_lt hslots hs) hprefix.length_le

end

namespace Context

/-! ## Words in frames -/

/-- Arguments and locals hold the words of a valuation. -/
structure Holds (c : Context) (args : List Value) (ν : Valuation) (locals : List Value) : Prop where
  params : ∀ (i : Nat) (q : Ssa.Param) (w : Word), c.graph.function.params[i]? = some q →
    ν.values q.id = some w → q.ty.storage? = some w.ty ∧ args[i]? = some w.value
  nodes : ∀ (id : NodeId) (n : Node) (w : Word), c.graph.node? id = some n → ν.word n.key = some w →
    n.Stores w ∧ (∀ ty, n.kind ≠ .alloca ty) ∧
      ∀ i, c.slot id = .inLocal i → locals[i]? = some w.value
  room : ∀ id i, c.slot id = .inLocal i → i < locals.length

/-- What the node before has left on the stack. -/
def leftover (c : Context) (ν : Valuation) : Option NodeId → List Value
  | some id =>
    if c.slot id = .onStack then
      ((c.graph.node? id).bind fun n => ν.word n.key).toList.map Word.value else []
  | none => []

section
variable {p : Program} {m : Method} {c : Context} {f : Function} {s : State} {ν : Valuation}
  {locals : List Value} {r : Ref} {ops : List Op} {w : Word} {stack : List Value}
  {args : List Value} {sources : List Ssa.BlockId} {incoming : List (Nat × Ref)}

theorem param?_eq_some (h : c.param? r = some i) :
    ∃ q, c.graph.function.params[i]? = some q ∧ r = .key (.value q.id) := by
  match r with
  | .key (.value v) =>
    obtain ⟨q, hq, hqv, -⟩ := Flow.lastIndex?_eq_some h
    exact ⟨q, hq, by rw [of_decide_eq_true hqv]⟩
  | .key (.synthesized _) | .const _ | .block _ | .global _ | .function _ => cases h

/-- The code of an operand pushes its word. -/
theorem Pushes.does (h : Translated p m c f) (hm : p.methods[s.current.method]? = some m)
    (hp : Pushes c p.consts r ops) (hh : Holds c s.current.args ν locals) (hr : ν.read r = some w)
    (hs : ∀ j, ¬ Stacked c r j) : Does p m s ops ⟨locals, stack⟩ ⟨locals, w.value :: stack⟩ := by
  cases hp with
  | argument hi =>
    obtain ⟨q, hq, rfl⟩ := param?_eq_some hi
    exact Machine.does_loadArg hm (hh.params _ q w hq hr).2
  | address _ hres _ hkind =>
    obtain ⟨_, n, heq, hn, rfl⟩ := Flow.resolve?_eq_some hres
    cases heq
    have hn : c.graph.node? _ = some n := hn
    rw [hn] at hkind
    exact absurd (some.inj hkind) ((hh.nodes _ n w hn hr).2.1 _)
  | @value k id i _ hres hslot _ =>
    obtain ⟨_, n, heq, hn, rfl⟩ := Flow.resolve?_eq_some hres
    cases heq
    exact Machine.does_loadLocal hm ((hh.nodes id n w hn hr).2.2 i hslot)
  | stacked hpar hres hslot => exact absurd ⟨hpar, hres, hslot⟩ (hs _)
  | @constant k k' i hk hi =>
    cases k with
    | int ty n =>
      obtain ⟨t, ht, rfl⟩ := map_eq_some_iff.mp hr
      obtain ⟨k'', hk'', hv⟩ := h.constant ht hk hi
      rw [← hv]
      exact Machine.does_loadConst hm hk''
    | _ => cases hr
  | static => cases hr
  | method => cases hr

/-- An operand with a word is of a type that is kept in such words. -/
theorem Pushes.operandType (hp : Pushes c p.consts r ops) (hh : Holds c s.current.args ν locals)
    (hr : ν.read r = some w) : (c.operandType r).storage? = some w.ty := by
  have node {k : Key} {id : NodeId} (hpar : c.param? (.key k) = none)
      (hres : c.graph.resolve? (.key k) = some id) (hr : ν.read (.key k) = some w) : (c.operandType
        (.key k)).storage? = some w.ty := by
    obtain ⟨_, n, heq, hn, rfl⟩ := Flow.resolve?_eq_some hres
    cases heq
    have hn' : c.graph.node? id = some n := hn
    obtain ⟨ty, hty, hstorage⟩ := (hh.nodes id n w hn' hr).1
    rw [Context.operandType, hpar, hres]
    simp only [bind_none, bind_some, hn', hty, getD_some, hstorage]
  cases hp with
  | argument hi =>
    obtain ⟨q, hq, rfl⟩ := param?_eq_some hi
    rw [Context.operandType, hi]
    simp only [bind_some, hq]
    exact (hh.params _ q w hq hr).1
  | address hpar hres => exact node hpar hres hr
  | value hpar hres => exact node hpar hres hr
  | stacked hpar hres => exact node hpar hres hr
  | @constant k =>
    cases k with
    | int ty n =>
      obtain ⟨t, ht, rfl⟩ := map_eq_some_iff.mp hr
      exact ht
    | _ => cases hr
  | static => cases hr
  | method => cases hr

/-! ## Results -/

theorem Holds.set (h : Translated p m c f) (hh : Holds c args ν locals)
    (hn : c.graph.node? id = some n) (hty : n.Stores w) (hk : ∀ ty, n.kind ≠ .alloca ty)
    {locals' : List Value} (hlen : locals'.length = locals.length)
    (hnew : ∀ i, c.slot id = .inLocal i → locals'[i]? = some w.value)
    (hold : ∀ i, c.slot id ≠ .inLocal i → locals'[i]? = locals[i]?) :
    Holds c args (ν.set w n.key) locals' where
  params i q w' hq hw := by
    have hne := h.param_ne hn (mem_of_getElem? hq)
    have hword : (ν.set w n.key).word (.value q.id) = ν.word (.value q.id) := by
      rw [Valuation.word_set, if_neg hne.symm]
    exact hh.params i q w' hq (hword.symm.trans hw)
  nodes id' n' w' hn' hw := by
    rw [Valuation.word_set] at hw
    split at hw
    · next hkey =>
      cases hw
      have hid : id' = id := some.inj ((h.resolve hn').symm.trans (hkey ▸ h.resolve hn))
      subst hid
      cases hn.symm.trans hn'
      exact ⟨hty, hk, hnew⟩
    · next hkey =>
      obtain ⟨hty', hk', hlocal⟩ := hh.nodes id' n' w' hn' hw
      refine ⟨hty', hk', fun i hi => ?_⟩
      rw [hold i fun hs => hkey ?_, hlocal i hi]
      have hid := h.slot_inj hi hs
      subst hid
      cases hn.symm.trans hn'
      rfl
  room id' i hi := hlen ▸ hh.room id' i hi

/-- A word in the local of its node. -/
theorem Holds.store (h : Translated p m c f) (hh : Holds c args ν locals)
    (hn : c.graph.node? id = some n) (hty : n.Stores w) (hk : ∀ ty, n.kind ≠ .alloca ty)
    (hs : c.slot id = .inLocal i) : Holds c args (ν.set w n.key) (locals.set i w.value) := by
  refine hh.set h hn hty hk length_set (fun j hj => ?_) fun j hj => ?_
  · rw [hs] at hj
    cases hj
    exact getElem?_set_self (hh.room id i hs)
  · rw [hs] at hj
    exact getElem?_set_ne fun hij => hj (by rw [hij])

/-- The word of a node is put where it belongs. -/
theorem storeCode_does (h : Translated p m c f) (hm : p.methods[s.current.method]? = some m)
    (hh : Holds c s.current.args ν locals) (hn : c.graph.node? id = some n) (hty : n.Stores w)
    (hk : ∀ ty, n.kind ≠ .alloca ty) :
    ∃ locals', Does p m s
      (c.storeCode id) ⟨locals, [w.value]⟩ ⟨locals', c.leftover (ν.set w n.key) (some id)⟩ ∧
        Holds c s.current.args (ν.set w n.key) locals' := by
  have hword : (ν.set w n.key).word n.key = some w := by rw [Valuation.word_set, if_pos rfl]
  cases hs : c.slot id with
  | nowhere =>
    refine ⟨locals, ?_, hh.set h hn hty hk rfl (by simp [hs]) fun _ _ => rfl⟩
    simp only [storeCode, leftover, hs, reduceCtorEq, if_false]
    exact Machine.does_pop hm
  | onStack =>
    refine ⟨locals, ?_, hh.set h hn hty hk rfl (by simp [hs]) fun _ _ => rfl⟩
    simp only [storeCode, leftover, hs, if_true, hn, bind_some, hword, toList_some,
      map_cons, map_nil]
    exact .nil _
  | inLocal i =>
    refine ⟨locals.set i w.value, ?_, hh.store h hn hty hk hs⟩
    simp only [storeCode, leftover, hs, reduceCtorEq, if_false]
    exact Machine.does_storeLocal hm (hh.room id i hs)

/-! ## Operands -/

/-- A node behind another one: what is on the stack for it was left there by that one. -/
structure Follows (c : Context) (previous : Option NodeId) (n : Node) : Prop where
  ready : Ready c n (previous.elim 0 c.leaves)
  previous : ∀ r ∈ n.operands, ∀ j, Stacked c r j → previous = some j

variable {previous : Option NodeId} {n : Node} {rest : List Ref}

theorem leftover_of_empty (h : previous.elim 0 c.leaves = 0) : c.leftover ν previous = [] := by
  cases previous with
  | none => rfl
  | some id =>
    have hs : c.slot id ≠ .onStack := by
      intro hs
      simp [leaves, hs] at h
    simp [leftover, hs]

/-- The first operand is pushed, or was left on the stack. -/
theorem Follows.first_does (hf : Follows c previous n) (h : Translated p m c f)
    (hm : p.methods[s.current.method]? = some m) (ho : n.operands = r :: rest)
    (hp : Pushes c p.consts r ops) (hh : Holds c s.current.args ν locals) (hr : ν.read r = some w) :
    Does p m s ops ⟨locals, c.leftover ν previous⟩ ⟨locals, [w.value]⟩ := by
  have hempty (he : previous.elim 0 c.leaves = 0) (hs : ∀ j, ¬ Stacked c r j) :
      Does p m s ops ⟨locals, c.leftover ν previous⟩ ⟨locals, [w.value]⟩ := by
    rw [leftover_of_empty he]
    exact hp.does h hm hh hr hs
  have hready := hf.ready
  generalize hlen : previous.elim 0 c.leaves = len at hready
  cases hready with
  | empty hs => exact hempty hlen (hs r (by simp [ho]))
  | first _ ho' hs =>
    rw [ho'] at ho
    cases ho
    obtain ⟨k, n', rfl, hn', rfl⟩ := Flow.resolve?_eq_some hs.2.1
    have hn' : c.graph.node? _ = some n' := hn'
    have hr : ν.word n'.key = some w := hr
    have hleft : c.leftover ν previous = [w.value] := by
      rw [hf.previous _ (by simp [ho']) _ hs, leftover, if_pos hs.2.2, hn']
      simp [hr]
    rw [hp.eq_nil hs, hleft]
    exact .nil _

/-- Nodes that do not begin with their first operand find the stack empty. -/
theorem Follows.leftover_eq_nil (hf : Follows c previous n) (hk : n.kind.firstOperand? = none) :
    c.leftover ν previous = [] ∧ ∀ r ∈ n.operands, ∀ j, ¬ Stacked c r j := by
  obtain ⟨hzero, hs⟩ := hf.ready.eq_zero hk
  exact ⟨leftover_of_empty hzero, hs⟩

/-! ## Nodes -/

variable {ws : List Word} {id : NodeId} {z : Surround} {rs : List Code.Region}

theorem does_logicalNot (hm : p.methods[s.current.method]? = some m) (b : Bool) :
    Does p m s [logicalNot] ⟨locals, .bool b :: stack⟩ ⟨locals, .bool (!b) :: stack⟩ :=
  .unary hm (fun _ => rfl) rfl

/-- A comparison, and the negation of its result. -/
theorem compare_does (hm : p.methods[s.current.method]? = some m) {op : Code.CompareOp}
    {kind : NumKind} {left right : Value} {b : Bool}
    (hb : Machine.compare op kind left right = .ok b) (negated : Bool) :
    Does p m s (.compare op kind :: if negated then [logicalNot] else []) ⟨locals,
      right :: left :: stack⟩ ⟨locals, .bool (b ^^ negated) :: stack⟩ := by
  have hcompare : Does p m s [.compare op kind] ⟨locals, right :: left :: stack⟩ ⟨locals,
      .bool b :: stack⟩ :=
    .binary hm (fun _ => rfl) (by rw [hb]; rfl)
  refine hcompare.cons ?_
  cases negated with
  | true =>
    rw [Bool.xor_true]
    exact does_logicalNot hm b
  | false =>
    rw [Bool.xor_false]
    exact .nil _

theorem CompareCode.does (h : Translated p m c f) (hm : p.methods[s.current.method]? = some m)
    (hf : Follows c previous n) (hh : Holds c s.current.args ν locals) {x y : BitVec t.bits}
    {pr : Flow.IntPredicate} {left right : Ref} (ho : n.operands = [left, right])
    (hl : ν.read left = some ⟨t, x⟩) (hr : ν.read right = some ⟨t, y⟩)
    (hc : CompareCode c p.consts t.kind left right pr.comparison.1 pr.comparison.2 ops) :
    Does p m s ops ⟨locals, c.leftover ν previous⟩ ⟨locals,
      [Word.value ⟨.i1, .ofBool (pr.holds x y)⟩]⟩ := by
  obtain ⟨a, b, ha, hb, rfl⟩ := hc
  obtain ⟨v, hv, heq⟩ := Ssa.compare_value x y pr
  have hvalue : Word.value ⟨.i1, .ofBool (pr.holds x y)⟩ = .bool (v ^^ pr.comparison.2) := by
    rw [heq]
    cases pr.holds x y <;> rfl
  rw [hvalue]
  refine (hf.first_does h hm ho ha hh hl).append
    ((hb.does h hm hh hr (hf.ready.rest ho right (by simp))).append ?_)
  exact compare_does hm hv pr.comparison.2

/-- The code of a result leaves the word that the node gives. -/
theorem ResultCode.does (h : Translated p m c f) (hm : p.methods[s.current.method]? = some m)
    (hf : Follows c previous n) (hh : Holds c s.current.args ν locals)
    (hr : Forall₂ (fun r w => ν.read r = some w) n.operands ws) (hg : n.kind.Gives ws w)
    (hty : n.Stores w) (hc : ResultCode c p.consts n ops) :
    Does p m s ops ⟨locals, c.leftover ν previous⟩ ⟨locals, [w.value]⟩ := by
  cases hc with
  | binary hk ho hkind ha hb =>
    rw [hk] at hg
    rw [ho] at hr
    obtain _ | ⟨hl, _ | ⟨hr, _ | _⟩⟩ := hr
    cases hg with
    | binary hop hbits =>
      rw [h.numKind (ha.operandType hh hl) hkind]
      refine (hf.first_does h hm ho ha hh hl).append
        ((hb.does h hm hh hr (hf.ready.rest ho _ (by simp))).append ?_)
      exact .binary hm (fun _ => rfl) (Ssa.binary_value hop hbits)
  | intCompare hk ho hkind hc =>
    rw [hk] at hg
    rw [ho] at hr
    obtain _ | ⟨hl, _ | ⟨hr, _ | _⟩⟩ := hr
    cases hg with
    | compare =>
      have ⟨_, _, ha, _⟩ := hc
      rw [h.numKind (ha.operandType hh hl) hkind] at hc
      exact hc.does h hm hf hh ho hl hr
  | convert hk ho hres hsource htarget ha =>
    rw [hk] at hg
    rw [ho] at hr
    obtain _ | ⟨hl, _ | _⟩ := hr
    cases hg with
    | convert =>
      obtain ⟨ty, hresult, hstorage⟩ := hty
      cases hresult.symm.trans hres
      rw [h.numKind (ha.operandType hh hl) hsource, h.numKind hstorage htarget]
      exact (hf.first_does h hm ho ha hh hl).append
        (.unary hm (fun _ => rfl) (Ssa.convert_resize _ _))
  | same hk ho ha =>
    rw [ho] at hr
    obtain _ | ⟨hl, _ | _⟩ := hr
    rcases hk with hk | hk <;> rw [hk] at hg <;> cases hg
    exact hf.first_does h hm ho ha hh hl
  | whole hk | load hk | unary hk | floatCompare hk | vaArg hk | address hk =>
    rw [hk] at hg
    cases hg

/-- The code of a node that gives a word puts it where it belongs. -/
theorem NodeCode.does (h : Translated p m c f) (hm : p.methods[s.current.method]? = some m)
    (hf : Follows c previous n) (hh : Holds c s.current.args ν locals)
    (hn : c.graph.node? id = some n)
    (hr : Forall₂ (fun r w => ν.read r = some w) n.operands ws) (hg : n.kind.Gives ws w)
    (hty : n.Stores w) (hz : z.consts = p.consts) (hc : NodeCode c z id n ops rs) :
    ∃ locals', Does p m s ops ⟨locals, c.leftover ν previous⟩ ⟨locals', c.leftover (ν.set w n.key)
      (some id)⟩ ∧ Holds c s.current.args (ν.set w n.key) locals' := by
  obtain ⟨locals', hstore, hholds⟩ := storeCode_does h hm hh hn hty fun ty hk => by
    rw [hk] at hg; cases hg
  refine ⟨locals', ?_, hholds⟩
  cases hc with
  | result hc => exact (ResultCode.does h hm hf hh hr hg hty (hz ▸ hc)).append hstore
  | select hk ho hp hq hq' =>
    rw [hk] at hg
    have hlater := hf.ready.rest ho
    have hfirst := hr
    rw [ho] at hfirst
    obtain _ | ⟨hb, _ | ⟨hx, _ | ⟨hy, _ | _⟩⟩⟩ := hfirst
    cases hg with
    | @select b t x y =>
      rw [hz] at hp hq hq'
      have hcond : (Word.value ⟨.i1, b⟩).truth? = some (b == 1#1) := rfl
      rw [← append_assoc _ (c.storeCode id), ← append_assoc _ (c.storeCode id)]
      refine .choose hm h.body.labels hcond (hf.first_does h hm ho hp hh hb) (fun hb => ?_)
        fun hb => ?_
      · rw [if_pos (show b = 1 from eq_of_beq hb)] at hstore ⊢
        exact (hq.does h hm hh hx (hlater _ (by simp))).append hstore
      · rw [if_neg (show b ≠ 1 from ne_of_beq_false hb)] at hstore ⊢
        exact (hq'.does h hm hh hy (hlater _ (by simp))).append hstore
  | jump hk =>
    cases hk <;> rw [‹n.kind = _›] at hg <;> cases hg
  | pad hk =>
    rcases hk with hk | hk | hk <;> rw [hk] at hg <;> cases hg
  | rethrow hk =>
    rcases hk with hk | hk <;> rw [hk] at hg <;> cases hg
  | _ =>
    rw [‹n.kind = _›] at hg
    cases hg

/-- Phis have no code of their own. -/
theorem NodeCode.eq_nil (hk : n.kind = .phi sources incoming) (hc : NodeCode c z id n ops rs) :
    ops = [] := by
  cases hc with
  | phi => rfl
  | result hc => cases hc <;> simp_all
  | jump hj => cases hj <;> simp_all
  | _ => simp_all

/-! ## Nodes one after the other -/

variable {i : Nat} {b : Flow.Block} {before ids after : List NodeId}

theorem follows (h : Translated p m c f) (hb : c.graph.blocks[i]? = some b)
    (hi : b.instructions = before ++ id :: after) (hn : c.graph.node? id = some n) :
    Follows c before.getLast? n := by
  obtain ⟨_, _, _, _, hshape⟩ := h.shape
  obtain ⟨_, hslots, -⟩ := h.body.slots
  exact ⟨Context.ready hshape h.regular hslots hb hi hn, fun _ hr _ hs =>
    hs.previous hshape hslots hb hi hn hr⟩

theorem leftover_phi (h : Translated p m c f) (hn : c.graph.node? id = some n)
    (hk : n.kind = .phi sources incoming) : c.leftover ν (some id) = [] := by
  obtain ⟨_, hslots, -⟩ := h.body.slots
  have hs : c.slot id ≠ .onStack := by
    intro hs
    obtain ⟨_, _, hstays⟩ := Context.staysFor hslots hn hs
    exact hstays.kind.2.1 _ _ hk
  exact if_neg hs

/-- The code of nodes, one after the other, gives them their words. -/
theorem NodesCode.does (h : Translated p m c f) (hm : p.methods[s.current.method]? = some m)
    (hz : z.consts = p.consts) (hb : c.graph.blocks[i]? = some b)
    (hi : b.instructions = before ++ (ids ++ after)) {ν' : Valuation} (he : Evals c.graph ν ids ν')
    (hh : Holds c s.current.args ν locals) (hc : NodesCode c z ids ops rs) :
    ∃ locals', Does p m s ops ⟨locals, c.leftover ν before.getLast?⟩
      ⟨locals', c.leftover ν' (before ++ ids).getLast?⟩ ∧ Holds c s.current.args ν' locals' := by
  induction he generalizing before locals ops rs with
  | nil =>
    cases hc
    rw [append_nil]
    exact ⟨locals, .nil _, hh⟩
  | @phi ν ν' id n ids hn hop he ih =>
    obtain _ | ⟨hn', -⟩ | ⟨hn', hcode, hrest⟩ := hc
    · cases hn.symm.trans hn'
    · cases hn.symm.trans hn'
      obtain ⟨_, _, _, _, hshape⟩ := h.shape
      obtain ⟨x, -, hcomp⟩ := hshape.computes hn
      obtain ⟨sources, incoming, -, -, hk⟩ := hcomp.kind_phi (hcomp.opcode.symm.trans hop)
      have hempty := (follows h hb hi hn).leftover_eq_nil (ν := ν) (by rw [hk]; rfl)
      have hi' : b.instructions = before ++ [id] ++ (ids ++ after) := by simp [hi]
      obtain ⟨locals', hdoes, hholds⟩ := ih hi' hh hrest
      rw [getLast?_concat, leftover_phi h hn hk, ← List.append_cons] at hdoes
      rw [hcode.eq_nil hk, nil_append, hempty.1]
      exact ⟨locals', hdoes, hholds⟩
  | @cons ν ν' id n ids ws w hn hr hg hty he ih =>
    obtain _ | ⟨hn', -⟩ | ⟨hn', hcode, hrest⟩ := hc
    · cases hn.symm.trans hn'
    · cases hn.symm.trans hn'
      obtain ⟨locals₁, hdoes₁, hholds₁⟩ := hcode.does h hm (follows h hb hi hn) hh hn hr hg hty hz
      have hi' : b.instructions = before ++ [id] ++ (ids ++ after) := by simp [hi]
      obtain ⟨locals', hdoes, hholds⟩ := ih hi' hholds₁ hrest
      rw [getLast?_concat, ← List.append_cons] at hdoes
      exact ⟨locals', hdoes₁.append hdoes, hholds⟩

end

end Context

end Stackify.Lower
