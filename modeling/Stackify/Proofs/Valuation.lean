import Stackify.Proofs.Placement
import Stackify.Proofs.Words

/-!
What the nodes of a graph compute, as far as they compute with words.

A `Valuation` gives words to values and expressions. A node takes the words of its operands to a
word (`Kind.Gives`), and nodes one after the other take a valuation to another one (`Evals`). Nodes
do what the source says:

- `evaluates_followed`: the node of an operation gives what the operation evaluates to, from the
  words of its operands;
- `Built.evals`: the nodes of operands give the words of these operands. This goes for any
  evaluation that nodes follow.
-/

namespace Stackify.Ssa

/-- On bits, an operation is one that the machine offers there. -/
def Operation.FitsBits (x : Operation) : Prop := x.ty = .int 1 → x.opcode.dividesOrShifts = false

instance (x : Operation) : Decidable x.FitsBits := inferInstanceAs (Decidable (_ → _))

end Stackify.Ssa

namespace Stackify.Flow

open Ssa (Word IntTy Env Opcode BlockId ValueId Info Operand Operation Instruction Exit Evaluation
  Evaluates evaluate evaluateAll operate conversion? arithmetic? comparison? resize)
open Resolve (Resolver)
open List Option

/-! ## Valuations -/

/-- The words of values and of expressions. -/
structure Valuation where
  values : Env
  expressions : Nat → Option Word

namespace Valuation

def word (ν : Valuation) : Key → Option Word
  | .value id => ν.values id
  | .synthesized k => ν.expressions k

def read (ν : Valuation) : Ref → Option Word
  | .key k => ν.word k
  | .const (.int ty n) => ty.storage?.map fun t => .ofInt t n
  | .const _ | .block _ | .global _ | .function _ => none

def set (ν : Valuation) (w : Word) : Key → Valuation
  | .value id => { ν with values := ν.values.assign [(id, w)] }
  | .synthesized k => { ν with expressions := fun j => if j = k then some w else ν.expressions j }

variable {ν ν' : Valuation} {w : Word} {k k' : Nat} {o : Operand} {r : Ref}

theorem word_set {k k' : Key} : (ν.set w k).word k' = if k' = k then some w else ν.word k' := by
  cases k <;> cases k' <;> simp only [set, word, Env.assign, lookup_cons, lookup_nil,
    Key.value.injEq, Key.synthesized.injEq, reduceCtorEq, if_false]
  next id id' => by_cases h : id' = id <;> simp [h, beq_false_of_ne]

/-- The valuation after values have been assigned, all at once. -/
def assign (ν : Valuation) (values : List (ValueId × Word)) : Valuation :=
  { ν with values := ν.values.assign values }

theorem assign_cons (ν : Valuation) (v : ValueId × Word) (values : List (ValueId × Word)) :
    ν.assign (v :: values) = (ν.assign values).set v.2 (.value v.1) := by
  have hvalues : ν.values.assign (v :: values) = (ν.values.assign values).assign [v] := by
    obtain ⟨key, w⟩ := v
    funext id
    simp only [Env.assign, lookup_cons, lookup_nil]
    cases id == key <;> rfl
  exact congrArg (fun ρ => { ν with values := ρ }) hvalues

/-- The second valuation differs only in expressions with a count from `k` to `k'`. -/
structure Extends (ν : Valuation) (k k' : Nat) (ν' : Valuation) : Prop where
  values : ν'.values = ν.values
  expressions : ∀ j, j < k ∨ k' ≤ j → ν'.expressions j = ν.expressions j

theorem Extends.refl (ν : Valuation) (k k' : Nat) : ν.Extends k k' ν := ⟨rfl, fun _ _ => rfl⟩

theorem Extends.trans {ν₁ ν₂ : Valuation} {k₁ k₂ : Nat} (h : ν.Extends k k₁ ν₁)
    (h' : ν₁.Extends k₂ k' ν₂) (hk : k ≤ k₂) (hk' : k₁ ≤ k') : ν.Extends k k' ν₂ :=
  ⟨h'.values.trans h.values, fun j hj => (h'.expressions j (by omega)).trans
    (h.expressions j (by omega))⟩

theorem extends_set (ν : Valuation) (w : Word) (k : Nat) :
    ν.Extends k (k + 1) (ν.set w (.synthesized k)) :=
  ⟨rfl, fun j hj => if_neg (by omega)⟩

theorem read_leaf (h : leaf? o = some r) (hw : evaluate ν.values o = some w) :
    ν.read r = some w := by
  cases o with
  | const c =>
    cases h
    cases c with
    | int ty n =>
      rw [evaluate] at hw
      obtain ⟨t, ht, rfl⟩ := map_eq_some_iff.mp hw
      rw [read, Ssa.Ty.storage?_of_int? ht, map_some]
    | _ => simp [evaluate] at hw
  | value id =>
    cases h
    rw [evaluate] at hw
    exact hw
  | expr _ _ _ _ => cases h
  | block _ | global _ | function _ => simp [evaluate] at hw

theorem read_congr (h : ∀ k, r = .key k → ν'.word k = ν.word k) : ν'.read r = ν.read r := by
  cases r with
  | key k => exact h k rfl
  | const c => cases c <;> rfl
  | _ => rfl

variable {E : Evaluation}

/-- References read as the operands that they stand for. -/
def Reads (E : Evaluation) (ν : Valuation) (o : Operand) (r : Ref) : Prop :=
  ∀ w, E ν.values o w → ν.read r = some w

theorem Extends.reads (h : ν.Extends k k' ν') (hr : ∀ j, r = .key (.synthesized j) → j < k ∨ k' ≤ j)
    (ho : ν.Reads E o r) : ν'.Reads E o r := by
  intro w hw
  rw [h.values] at hw
  rw [← ho w hw]
  refine read_congr fun k hk => ?_
  cases k with
  | value id => exact congrFun h.values id
  | synthesized j => exact h.expressions j (hr j hk)

theorem reads_congr {os : List Operand} {rs : List Ref} (h : Forall₂ (ν.Reads E) os rs)
    (hv : ν'.values = ν.values) (hr : ∀ r ∈ rs, ν'.read r = ν.read r) :
    Forall₂ (ν'.Reads E) os rs := by
  induction h with
  | nil => exact .nil
  | @cons o r os rs ho _ ih =>
    rw [forall_mem_cons] at hr
    refine .cons (fun w hw => ?_) (ih hr.2)
    rw [hv] at hw
    rw [hr.1, ho w hw]

end Valuation

/-! ## Nodes -/

/-- The word that a node of some kind gives for the words of its operands. -/
inductive Kind.Gives : Kind → List Word → Word → Prop
  | binary {opcode : Opcode} {t : IntTy} {x y b : BitVec t.bits} : arithmetic? x y opcode = some b →
      (t = .i1 → opcode.dividesOrShifts = false) → Gives (.binary opcode) [⟨t, x⟩, ⟨t, y⟩] ⟨t, b⟩
  | compare {p : IntPredicate} {t : IntTy} {x y : BitVec t.bits} :
      Gives (.intCompare p) [⟨t, x⟩, ⟨t, y⟩] ⟨.i1, .ofBool (p.holds x y)⟩
  | convert {opcode : Opcode} {x : Word} {t : IntTy} :
      Gives (.convert opcode) [x] (resize (Lower.isSigned opcode) x.val t)
  | freeze {x : Word} : Gives .freeze [x] x
  | select {b : BitVec 1} {t : IntTy} {x y : BitVec t.bits} :
      Gives .select [⟨.i1, b⟩, ⟨t, x⟩, ⟨t, y⟩] ⟨t, if b = 1 then x else y⟩

/-- Kinds in which nothing is recorded. -/
theorem Kind.eq_of_erased {k k' : Kind} (h : k'.erased = k)
    (hk : ∀ o, k.opcode? = some o → o ≠ .load ∧ o ≠ .store ∧ o ≠ .phi) : k' = k := by
  subst h
  cases k' with
  | load | store | phi => simp [erased, opcode?] at hk
  | _ => rfl

variable {r : Resolver} {n : Node} {x : Operation} {t : IntTy} {ws : List Word} {b : BitVec t.bits}
  {opcode : Opcode} {ν : Valuation} {w : Word}

theorem conversion?_opcode {y : Word} (h : conversion? y t opcode = some b) :
    opcode ∈ [Opcode.trunc, .zext, .sext, .freeze] := by
  unfold conversion? at h
  split at h <;> simp_all

theorem arithmetic?_opcode {w : Nat} {x y z : BitVec w} (h : arithmetic? x y opcode = some z) :
    opcode ∈ [Opcode.add, .sub, .mul, .udiv, .sdiv, .urem, .srem, .shl, .lshr, .ashr, .and,
      .or, .xor] := by
  unfold arithmetic? at h
  split at h <;> simp_all

section
variable (hc : n.Computes r x)
include hc

theorem Node.Computes.kind_eq {k : Kind} {a : Nat}
    (hmake : Kind.make r x.opcode x.ty n.operands x.info = (do exactly a n.operands; return k))
    (hk : ∀ o, k.opcode? = some o → o ≠ .load ∧ o ≠ .store ∧ o ≠ .phi) : n.kind = k := by
  obtain ⟨_, -, hkind⟩ := bind_eq_ok.mp (hmake.symm.trans hc.kind)
  exact Kind.eq_of_erased (pure_eq_ok.mp hkind).symm hk

theorem Node.Computes.kind_convert (hop : x.opcode ∈ [Opcode.trunc, .zext, .sext]) :
    n.kind = .convert x.opcode := by
  simp only [mem_cons, not_mem_nil, or_false] at hop
  rcases hop with hop | hop | hop
  all_goals exact hc.kind_eq (a := 1) (by rw [hop]; rfl) (by simp [hop, Kind.opcode?])

theorem Node.Computes.kind_binary
    (hop : x.opcode ∈ [Opcode.add, .sub, .mul, .udiv, .sdiv, .urem, .srem, .shl, .lshr, .ashr, .and,
      .or, .xor]) :
    n.kind = .binary x.opcode := by
  simp only [mem_cons, not_mem_nil, or_false] at hop
  rcases hop with hop | hop | hop | hop | hop | hop | hop | hop | hop | hop | hop | hop | hop
  all_goals exact hc.kind_eq (a := 2) (by rw [hop]; rfl) (by simp [hop, Kind.opcode?])

theorem Node.Computes.kind_intCompare {p : IntPredicate} (hop : x.opcode = .icmp)
    (hp : comparison? x.info = some p) : n.kind = .intCompare p := by
  unfold comparison? at hp
  split at hp
  · next code hinfo =>
    refine hc.kind_eq (a := 2) ?_ (by simp [Kind.opcode?])
    rw [hop, hinfo]
    simp only [Kind.make, predicateCode, bind, Except.bind, hp]
  · cases hp

/-- The node of an operation gives what the operation evaluates to. -/
theorem Node.Computes.gives (ht : x.ty.int? = some t) (hb : operate x.opcode x.info t ws = some b)
    (hx : x.FitsBits) : n.kind.Gives ws ⟨t, b⟩ := by
  have ht := Ssa.Ty.int?_eq_some.mp ht
  match ws with
  | [] => cases hb
  | [y] =>
    have hb : conversion? y t x.opcode = some b := hb
    have hop := conversion?_opcode hb
    by_cases hf : x.opcode = .freeze
    · rw [hc.kind_eq (k := .freeze) (a := 1) (by rw [hf]; rfl) (by simp [Kind.opcode?])]
      rw [hf] at hb
      rw [Ssa.Word.as_eq_some.mp hb]
      exact .freeze
    · rw [hc.kind_convert (by simp_all), Ssa.conversion?_eq_resize hb hf]
      exact .convert
  | [y, y'] =>
    rw [operate] at hb
    split at hb
    · next hop =>
      cases t with
      | i1 =>
        obtain ⟨a, ha, hb⟩ := bind_eq_some_iff.mp hb
        obtain ⟨p, hp, hb⟩ := bind_eq_some_iff.mp hb
        cases hb
        rw [hc.kind_intCompare hop hp, Ssa.Word.as_eq_some.mp ha]
        exact .compare
      | _ => cases hb
    · obtain ⟨a, ha, hb⟩ := bind_eq_some_iff.mp hb
      obtain ⟨a', ha', hb⟩ := bind_eq_some_iff.mp hb
      rw [hc.kind_binary (arithmetic?_opcode hb), Ssa.Word.as_eq_some.mp ha,
        Ssa.Word.as_eq_some.mp ha']
      exact .binary hb fun hbit => hx (by rw [ht, hbit]; rfl)
  | [c, y, y'] =>
    rw [operate] at hb
    split at hb
    · next hop =>
      obtain ⟨b', hb', hb⟩ := bind_eq_some_iff.mp hb
      obtain ⟨a, ha, hb⟩ := bind_eq_some_iff.mp hb
      obtain ⟨a', ha', hb⟩ := bind_eq_some_iff.mp hb
      cases hb
      rw [hc.kind_eq (k := .select) (a := 3) (by rw [hop]; rfl) (by simp [Kind.opcode?]),
        Ssa.Word.as_eq_some.mp hb', Ssa.Word.as_eq_some.mp ha, Ssa.Word.as_eq_some.mp ha']
      exact .select
    · cases hb
  | _ :: _ :: _ :: _ :: _ => cases hb

end

/-! ## Lists of nodes -/

/-- The result of a node is of a type that is kept in words like this one. -/
def Node.Stores (n : Node) (w : Word) : Prop :=
  ∃ ty, n.resultType = some ty ∧ ty.storage? = some w.ty

/-- Nodes one after the other give words to their keys; phis have theirs already. -/
inductive Evals (g : Graph) : Valuation → List NodeId → Valuation → Prop
  | nil {ν : Valuation} : Evals g ν [] ν
  | phi {ν ν' : Valuation} {id : NodeId} {n : Node} {ids : List NodeId} :
      g.node? id = some n → n.opcode = .phi → Evals g ν ids ν' → Evals g ν (id :: ids) ν'
  | cons {ν ν' : Valuation} {id : NodeId} {n : Node} {ids : List NodeId} {ws : List Word}
      {w : Word} : g.node? id = some n → Forall₂ (fun r w => ν.read r = some w) n.operands ws →
        n.kind.Gives ws w →
      n.Stores w → Evals g (ν.set w n.key) ids ν' → Evals g ν (id :: ids) ν'

section
variable {g : Graph} {ν ν₁ ν' : Valuation} {ids ids' : List NodeId}

theorem Evals.append (h : Evals g ν ids ν₁) (h' : Evals g ν₁ ids' ν') :
    Evals g ν (ids ++ ids') ν' := by
  induction h with
  | nil => exact h'
  | phi hn hk _ ih => exact .phi hn hk (ih h')
  | cons hn hr hg ht _ ih => exact .cons hn hr hg ht (ih h')

/-- Only the keys of the nodes get other words. -/
theorem Evals.word_eq (h : Evals g ν ids ν') {k : Key} (hk : ∀ id ∈ ids, ∀ n, g.node? id = some n →
    n.key ≠ k) : ν'.word k = ν.word k := by
  induction h with
  | nil => rfl
  | phi _ _ _ ih => exact ih fun id hid => hk id (mem_cons_of_mem _ hid)
  | @cons ν ν' id n ids ws w hn _ _ _ _ ih =>
    have hne := hk id mem_cons_self n hn
    rw [ih fun id hid => hk id (mem_cons_of_mem _ hid), Valuation.word_set, if_neg hne.symm]

end

/-- The graph has the drafted nodes that are numbered from `first` on. -/
def Graph.Has (g : Graph) (first : Nat) (new : List Node) : Prop :=
  ∀ j n, Numbered first new j n → ∃ n', g.node? j = some n' ∧ n'.Refines n

variable {g : Graph} {first : Nat} {new more : List Node}

theorem Graph.Has.left (h : g.Has first (new ++ more)) : g.Has first new := fun j n hn =>
  h j n hn.append_left

theorem Graph.Has.right (h : g.Has first (new ++ more)) : g.Has (first + new.length) more :=
  fun j n hn => h j n hn.append_right

theorem Graph.Has.head (h : g.Has first (n :: more)) :
    ∃ n', g.node? first = some n' ∧ n'.Refines n :=
  h first n ⟨Nat.le_refl first, by simp⟩

theorem Graph.Has.tail (h : g.Has first (n :: more)) : g.Has (first + 1) more :=
  have h' : g.Has first ([n] ++ more) := h
  h'.right

/-! ## Operands -/

variable {E : Evaluation} {os : List Operand} {ws : List Word} {ρ : Env}

theorem reads_all {rs : List Ref} (h : Forall₂ (ν.Reads E) os rs)
    (hws : Forall₂ (E ν.values) os ws) :
    Forall₂ (fun r w => ν.read r = some w) rs ws := by
  induction h generalizing ws with
  | nil =>
    cases hws
    exact .nil
  | cons ho _ ih =>
    obtain _ | ⟨hw, hws⟩ := hws
    exact .cons (ho _ hw) (ih hws)

theorem evaluates_all (h : evaluateAll ρ os = some ws) : Forall₂ (Evaluates ρ) os ws := by
  induction os generalizing ws with
  | nil =>
    cases h
    exact .nil
  | cons o os ih =>
    obtain ⟨w, hw, h⟩ := bind_eq_some_iff.mp h
    obtain ⟨ws', hws', heq⟩ := bind_eq_some_iff.mp h
    cases heq
    exact .cons hw (ih hws')

/-- An operand that is no expression, or an expression that has a word. -/
def Settled (E : Evaluation) (ρ : Env) (o : Operand) : Prop :=
  (leaf? o).isSome = true ∨ ∃ w, E ρ o w

theorem settled_all (h : Forall₂ (E ρ) os ws) : ∀ o ∈ os, Settled E ρ o := by
  intro o ho
  obtain ⟨i, hi⟩ := getElem?_of_mem ho
  obtain ⟨w, -, hw⟩ := forall₂_some_left h hi
  exact .inr ⟨w, hw⟩

theorem evaluate_expr {ty : Ssa.Ty} {operands : List Operand} {info : Info}
    (h : evaluate ρ (.expr opcode ty operands info) = some w) :
    ∃ t ws b, ty.int? = some t ∧ evaluateAll ρ operands = some ws ∧
      operate opcode info t ws = some b ∧ w = ⟨t, b⟩ := by
  rw [evaluate] at h
  obtain ⟨t, ht, h⟩ := bind_eq_some_iff.mp h
  obtain ⟨ws, hws, h⟩ := bind_eq_some_iff.mp h
  obtain ⟨b, hb, h⟩ := bind_eq_some_iff.mp h
  cases h
  exact ⟨t, ws, b, ht, hws, hb, rfl⟩

/-- Nodes follow an evaluation: references read as what they stand for, and the node of an operation
with a word gives this word for the words of its operands. -/
structure Followed (E : Evaluation) : Prop where
  unique : ∀ {ρ : Env} {o : Operand} {w w' : Word}, E ρ o w → E ρ o w' → w = w'
  leaf : ∀ {ν : Valuation} {o : Operand} {r : Ref} {w : Word}, leaf? o = some r → E ν.values o w →
    ν.read r = some w
  node : ∀ {ρ : Env} {x : Operation} {w : Word}, x.FitsBits → E ρ x.operand w →
    ∃ ws, Forall₂ (E ρ) x.operands ws ∧ x.ty.storage? = some w.ty ∧ ∀ {r : Resolver}
      {n : Node}, n.Computes r x → n.kind.Gives ws w

theorem evaluates_followed : Followed Evaluates where
  unique hw hw' := some.inj (hw.symm.trans hw')
  leaf := Valuation.read_leaf
  node hx hw := by
    obtain ⟨t, ws, b, ht, hws, hb, rfl⟩ := evaluate_expr hw
    exact ⟨ws, evaluates_all hws, Ssa.Ty.storage?_of_int? ht, fun hc => hc.gives ht hb hx⟩

variable {s : Setting} {block k : Nat} {rs : List Ref}

/-- The expressions among built operands are counted from `k` on. -/
theorem Built.synthesized_mem (h : Built s block k os rs new) :
    ∀ j, .key (.synthesized j) ∈ rs → k ≤ j ∧ j < k + new.length := by
  induction h with
  | nil => simp
  | @leaf k o r os rs new ho _ ih =>
    intro j hj
    rcases mem_cons.mp hj with rfl | hj
    · cases o <;> cases ho
    · exact ih j hj
  | @expr k _ _ _ _ _ _ rs inner new n _ _ _ _ ih =>
    intro j hj
    rw [length_append, length_cons]
    rcases mem_cons.mp hj with hj | hj
    · cases hj
      omega
    · have := ih j hj
      omega

/-- The node of an operation, for operands with words. -/
theorem Evals.one (hE : Followed E) {id : NodeId} (hn : g.node? id = some n)
    (hc : n.Computes s.resolver x) (hr : Forall₂ (ν.Reads E) x.operands n.operands)
    (hw : E ν.values x.operand w) (hx : x.FitsBits) : Evals g ν [id] (ν.set w n.key) := by
  obtain ⟨ws, hws, hty, hgives⟩ := hE.node hx hw
  refine .cons hn (reads_all hr hws) (hgives hc) ⟨x.ty, ?_, hty⟩ .nil
  rw [hc.resultType]
  cases hxty : x.ty with
  | int => rfl
  | _ =>
    rw [hxty] at hty
    cases hty

/-- The nodes of operands give the words of these operands. -/
theorem Built.evals (hE : Followed E) (h : Built s block k os rs new) (hg : g.Has first new)
    (hos : ∀ o ∈ os, Settled E ν.values o) (hbits : ∀ x ∈ Operand.allExpressions os, x.FitsBits) :
    ∃ ν', Evals g ν (range' first new.length) ν' ∧ ν.Extends k (k + new.length) ν' ∧
      Forall₂ (ν'.Reads E) os rs := by
  induction h generalizing first ν with
  | nil => exact ⟨ν, .nil, .refl _ _ _, .nil⟩
  | @leaf k o r os rs new ho _ ih =>
    rw [forall_mem_cons] at hos
    obtain ⟨ν', he, hx, hr⟩ := ih hg hos.2 fun x hx =>
        hbits x (by simp [Operand.allExpressions, hx])
    exact ⟨ν', he, hx, .cons (fun w hw => hE.leaf ho hw) hr⟩
  | @expr k opcode ty operands os info refs rs inner new n hb hn _ ih ih' =>
    rw [forall_mem_cons] at hos
    simp only [Operand.allExpressions, Operand.expressions, mem_append, mem_singleton] at hbits
    -- The operands of the expression come first, then the expression itself, then the other
    -- operands.
    obtain ⟨w, hw⟩ : ∃ w, E ν.values (.expr opcode ty operands info) w := by
      rcases hos.1 with h | h
      · cases h
      · exact h
    have hfits := hbits ⟨opcode, ty, operands, info⟩ (.inl (.inr rfl))
    obtain ⟨ws, hws, -, -⟩ := hE.node hfits hw
    obtain ⟨ν₁, he₁, hx₁, hr₁⟩ := ih hg.left (settled_all hws) fun x hx => hbits x (.inl (.inl hx))
    obtain ⟨n', hn', hrefines⟩ := hg.right.head
    have hc := hrefines.computes (Node.computes_of_make hn hb.refersTo)
    have hkey : n'.key = .synthesized (k + inner.length) := by
      obtain ⟨_, _, rfl⟩ := Node.make_eq_ok hn
      exact hrefines.key
    have hops : n'.operands = refs := by
      obtain ⟨_, _, rfl⟩ := Node.make_eq_ok hn
      exact hrefines.operands
    have hw₁ : E ν₁.values (Operation.operand ⟨opcode, ty, operands, info⟩) w := hx₁.values ▸ hw
    have he₂ := Evals.one hE hn' hc (hops ▸ hr₁) hw₁ hfits
    rw [hkey] at he₂
    have hx₂ := ν₁.extends_set w (k + inner.length)
    have hvalues : (ν₁.set w (.synthesized (k + inner.length))).values = ν.values :=
      hx₂.values.trans hx₁.values
    obtain ⟨ν', he', hx', hr'⟩ := ih' hg.right.tail (hvalues ▸ hos.2) fun x hx => hbits x (.inr hx)
    have hlen : (inner ++ n :: new).length = inner.length + (1 + new.length) := by
      simp [Nat.add_comm]
    refine ⟨ν', ?_, ?_, .cons (fun w' hw' => ?_) hr'⟩
    · rw [hlen, ← range'_append_1, ← range'_append_1]
      exact he₁.append (he₂.append he')
    · rw [hlen, show k + (inner.length + (1 + new.length)) = k + inner.length + 1 +
        new.length by omega]
      refine hx₁.trans (hx₂.trans hx' ?_ ?_) ?_ ?_ <;> omega
    · have hkept := hx'.expressions (k + inner.length) (.inl (by omega))
      rw [hx'.values, hvalues] at hw'
      cases hE.unique hw hw'
      exact hkept.trans (if_pos rfl)

end Stackify.Flow
