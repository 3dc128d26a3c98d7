import Stackify.Proofs.Labels
import Stackify.Proofs.Steps

/-!
Runs of pieces of code.

Code that calls nothing works on the locals and the evaluation stack of one frame (`Data`). `Does p
m s ops a b` says that `ops`, wherever they stand in the method, lead from one behind their end and
turn `a` into `b`; all else of the state `s` stays as it is. Pieces run one after the other
(`Does.append`); jumps are single steps (`jump_steps`).
-/

namespace Stackify.Machine

open Code (Op Label Method Program position?)
open List

/-! ## Places of code -/

/-- A piece of code stands at a position of a method. -/
def CodeAt (m : Method) (pc : Nat) (ops : List Op) : Prop := ops <+: m.body.ops.drop pc

variable {m : Method} {pc : Nat} {a b ops : List Op} {op : Op}

theorem CodeAt.left (h : CodeAt m pc (a ++ b)) : CodeAt m pc a := (prefix_append a b).trans h

theorem CodeAt.right (h : CodeAt m pc (a ++ b)) : CodeAt m (pc + a.length) b := by
  obtain ⟨rest, h⟩ := h
  refine ⟨rest, ?_⟩
  rw [← drop_drop, ← h, append_assoc, drop_left]

theorem CodeAt.head (h : CodeAt m pc (op :: ops)) : m.body.ops[pc]? = some op := by
  obtain ⟨rest, h⟩ := h
  rw [← Nat.add_zero pc, ← getElem?_drop, ← h]
  rfl

theorem CodeAt.tail (h : CodeAt m pc (op :: ops)) : CodeAt m (pc + 1) ops :=
  CodeAt.right (a := [op]) h

/-- A label in a piece of code is where its mark is, if no label is marked twice. -/
theorem CodeAt.position {l : Label} (h : CodeAt m pc (.label l :: ops))
    (hl : (Code.markedLabels m.body.ops).Nodup) : position? m.body.ops l = some pc :=
  Code.position?_of_getElem? h.head hl

/-! ## Data of a frame -/

/-- What code works on as long as it calls nothing. -/
structure Data where
  locals : List Value
  stack : List Value

/-- The state whose current frame has the given data and is at the given position. -/
def State.at (s : State) (d : Data) (pc : Nat) : State :=
  { s with current := { s.current with locals := d.locals, stack := d.stack, pc } }

variable {s : State} {d : Data} {i : Nat} {v : Value}

theorem State.at_depth : (s.at d pc).depth = s.depth := rfl

theorem State.local?_at (h : d.locals[i]? = some v) : (s.at d pc).local? s.depth i = .ok v := by
  have hframe : (s.at d pc).frame? s.depth = some (s.at d pc).current := by
    simp [State.frame?, State.depth, State.at]
  have hlocal : (s.at d pc).current.locals[i]? = some v := h
  rw [State.local?, hframe, Option.bind_some, hlocal]

theorem State.setLocal_at (h : i < d.locals.length) :
    (s.at d pc).setLocal s.depth i v = .ok (s.at ⟨d.locals.set i v, d.stack⟩ pc) := by
  have hframe : (s.at d pc).frame? s.depth = some (s.at d pc).current := by
    simp [State.frame?, State.depth, State.at]
  rw [State.setLocal, hframe]
  show (if i < d.locals.length then _ else _) = _
  rw [if_pos h, State.setFrame, if_pos State.at_depth.symm]
  rfl

/-! ## Pieces of code -/

/-- A piece of code, wherever it stands, turns the data of the current frame into other data. -/
def Does (p : Program) (m : Method) (s : State) (ops : List Op) (a b : Data) : Prop :=
  ∀ pc, CodeAt m pc ops → Steps p (s.at a pc) (s.at b (pc + ops.length))

variable {p : Program} {ops' : List Op} {a b c : Data} {pc' : Nat} {locals stack : List Value}

theorem Does.nil (a : Data) : Does p m s [] a a := fun pc _ => Steps.refl p (s.at a pc)

theorem Does.append (h : Does p m s ops a b) (h' : Does p m s ops' b c) :
    Does p m s (ops ++ ops') a c := by
  intro pc hat
  rw [length_append, ← Nat.add_assoc]
  exact (h pc hat.left).trans (h' _ hat.right)

theorem Does.cons (h : Does p m s [op] a b) (h' : Does p m s ops b c) :
    Does p m s (op :: ops) a c := h.append h'

section
variable (hm : p.methods[s.current.method]? = some m)
include hm

theorem step_at (ho : m.body.ops[pc]? = some op) :
    step p (s.at a pc) = (execute p m (s.at a pc) op).outcome p m := by
  have hm' : p.methods[(s.at a pc).current.method]? = some m := hm
  have ho' : m.body.ops[(s.at a pc).current.pc]? = some op := ho
  rw [step, hm']
  dsimp only
  rw [ho']

theorem next_steps (ho : m.body.ops[pc]? = some op)
    (h : execute p m (s.at a pc) op = .next (s.at b pc)) :
    Steps p (s.at a pc) (s.at b (pc + 1)) := by
  refine Steps.one ?_
  rw [step_at hm ho, h]
  rfl

theorem Does.one (h : ∀ pc, execute p m (s.at a pc) op = .next (s.at b pc)) : Does p m s [op] a b :=
  fun pc hat => next_steps hm hat.head (h pc)

/-- A jump to a label that is marked. -/
theorem jump_steps {l : Label} (ho : m.body.ops[pc]? = some op)
    (h : execute p m (s.at a pc) op = .jump (s.at b pc) l)
    (hl : position? m.body.ops l = some pc') : Steps p (s.at a pc) (s.at b pc') := by
  refine Steps.one ?_
  rw [step_at hm ho, h, Action.outcome, State.jumpTo, hl]
  rfl

end

/-! ## Operations -/

theorem does_label (hm : p.methods[s.current.method]? = some m) (l : Label) :
    Does p m s [.label l] a a :=
  .one hm fun _ => rfl

/-- An operation that only puts a value on the stack. -/
theorem Does.push (hm : p.methods[s.current.method]? = some m)
    (h : ∀ pc, execute p m (s.at ⟨locals, stack⟩ pc) op =
      .next ((s.at ⟨locals, stack⟩ pc).push v)) :
    Does p m s [op] ⟨locals, stack⟩ ⟨locals, v :: stack⟩ :=
  .one hm h

theorem operand_eq_ok {α : Type} {l : List α} {a : α} {f : Fault} (h : l[i]? = some a) :
    operand l i f = .ok a := by
  rw [operand, h]

section
variable (hm : p.methods[s.current.method]? = some m)
include hm

theorem does_loadConst {k : Code.Const} (hk : p.consts[i]? = some k) :
    Does p m s [.loadConst i] ⟨locals, stack⟩ ⟨locals, constValue p.records k :: stack⟩ := by
  refine .push hm fun pc => ?_
  show State.deliver _ ((operand p.consts i (.missingConst i)).map (constValue p.records)) = _
  rw [operand_eq_ok hk]
  rfl

theorem does_loadArg (hv : s.current.args[i]? = some v) :
    Does p m s [.loadArg i] ⟨locals, stack⟩ ⟨locals, v :: stack⟩ := by
  refine .push hm fun pc => ?_
  show State.deliver _ (operand s.current.args i (.missingArgument i)) = _
  rw [operand_eq_ok hv]
  rfl

theorem does_loadLocal (hv : locals[i]? = some v) :
    Does p m s [.loadLocal i] ⟨locals, stack⟩ ⟨locals, v :: stack⟩ := by
  refine .push hm fun pc => ?_
  show State.deliver _ ((s.at ⟨locals, stack⟩ pc).local? s.depth i) = _
  rw [State.local?_at hv]
  rfl

theorem does_storeLocal (hi : i < locals.length) :
    Does p m s [.storeLocal i] ⟨locals, v :: stack⟩ ⟨locals.set i v, stack⟩ := by
  refine .one hm fun pc => ?_
  have hset : (s.at ⟨locals, stack⟩ pc).setLocal (s.at ⟨locals, stack⟩ pc).depth i v =
      .ok (s.at ⟨locals.set i v, stack⟩ pc) := by rw [State.at_depth, State.setLocal_at hi]
  have hstack : ((s.at ⟨locals, v :: stack⟩ pc).withStack stack) = s.at ⟨locals, stack⟩ pc := rfl
  rw [execute, State.pop_cons rfl, hstack, hset]

theorem does_pop : Does p m s [.pop] ⟨locals, v :: stack⟩ ⟨locals, stack⟩ :=
  .one hm fun _ => rfl

/-- The top of the stack becomes another value. -/
theorem Does.unary {w : Value} {f : Value → Except Fault Value}
    (hop : ∀ t : State, execute p m t op = t.pop fun t v => t.deliver (f v)) (h : f v = .ok w) :
    Does p m s [op] ⟨locals, v :: stack⟩ ⟨locals, w :: stack⟩ := by
  refine .one hm fun pc => ?_
  rw [hop]
  show (s.at ⟨locals, stack⟩ pc).deliver (f v) = _
  rw [h]
  rfl

/-- The two values on top of the stack become one. -/
theorem Does.binary {u w : Value} {f : Value → Value → Except Fault Value}
    (hop : ∀ t : State, execute p m t op = t.pop2 fun t u v => t.deliver (f u v))
    (h : f u v = .ok w) : Does p m s [op] ⟨locals, v :: u :: stack⟩ ⟨locals, w :: stack⟩ := by
  refine .one hm fun pc => ?_
  rw [hop]
  show (s.at ⟨locals, stack⟩ pc).deliver (f u v) = _
  rw [h]
  rfl

end

/-! ## Choices -/

theorem branchIf_at {t : Bool} (hv : v.truth? = some t) (truth : Bool) (l : Label) :
    branchIf (s.at ⟨locals, v :: stack⟩ pc) truth l =
      if t = truth then .jump (s.at ⟨locals, stack⟩ pc) l else .next (s.at ⟨locals, stack⟩ pc) := by
  rw [branchIf, State.pop_cons rfl, hv]
  rfl

/-- Two pieces of code of which a condition chooses one. -/
theorem Does.choose (hm : p.methods[s.current.method]? = some m)
    (hlabels : (Code.markedLabels m.body.ops).Nodup) {otherwise done : Label} {yes no : List Op}
    {t : Bool} (hv : v.truth? = some t) (h : Does p m s ops a ⟨locals, v :: stack⟩)
    (hyes : t = true → Does p m s yes ⟨locals, stack⟩ b)
    (hno : t = false → Does p m s no ⟨locals, stack⟩ b) :
    Does p m s (ops ++ .branchFalse otherwise :: (yes ++ .branch done :: .label otherwise ::
      (no ++ [.label done]))) a b := by
  intro pc hat
  refine (h pc hat.left).trans ?_
  have hbranch := hat.right
  have hjump := hbranch.tail.right
  have hother := hjump.tail
  have hdone := hother.tail.right
  have hend := does_label (a := b) hm done _ hdone
  rw [length_singleton] at hend
  simp only [length_append, length_cons, length_nil, Nat.zero_add]
  rw [show pc + (ops.length + (yes.length + (no.length + 1 + 1 + 1) + 1)) =
    pc + ops.length + 1 + yes.length + 1 + 1 + no.length + 1 by omega]
  refine Steps.trans ?_ hend
  cases t with
  | true =>
    exact (next_steps hm hbranch.head (branchIf_at hv false otherwise)).trans
      ((hyes rfl _ hbranch.tail.left).trans (jump_steps hm hjump.head rfl (hdone.position hlabels)))
  | false =>
    have hlabel := does_label (a := ⟨locals, stack⟩) hm otherwise _ (CodeAt.left (a := [_]) hother)
    exact (jump_steps hm hbranch.head (branchIf_at hv false otherwise)
      (hother.position hlabels)).trans (hlabel.trans (hno rfl _ hother.tail.left))

end Stackify.Machine
