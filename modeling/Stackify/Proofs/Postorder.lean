import Stackify.Proofs.Lookups

/-!
The nodes of one instruction. The stack of waiting expressions makes what the recursion
`postorderAll` makes, flaws included, and the recursion has a closed form: the expressions of the
operands in post-order, each with its count, become nodes from left to right up to the limit
(`postorderAll_eq`). From it follow which nodes there are and when the limit is the flaw that is
found (`addInstruction_postorder`).
-/

namespace Stackify.Flow

open Ssa (Opcode Info Operand Operation Instruction BlockId)
open Resolve (Resolver)
open List

variable {s : Setting} {consumer : Location} {block : Nat} {x : Operation × Nat}
  {n : Node} {e : Flaw}

/-! ## Flaws of single nodes -/

/-- The limit on expressions is no flaw of a node. -/
theorem Node.make_within_limit {r : Resolver} {function : Location} {key : Key} {opcode : Opcode}
    {ty : Ssa.Ty} {operands : List Ref} {info : Info}
    (h : Node.make r function block key opcode ty operands info = .error e) (limit : Nat) :
    e.defect ≠ .constantExpressionLimit limit := by
  have hwalk : Walkable (fun d => ∀ n, d ≠ .constantExpressionLimit n) (fun _ => True) r r :=
    { other := by rintro _ h n rfl; cases h
      element := fun _ _ _ => trivial
      aggregate := fun t _ _ => by
        cases r.aggregate? t with
        | none => exact .inr ⟨rfl, by simp⟩
        | some a => exact .inl ⟨a, rfl, rfl, fun _ _ => trivial⟩ }
  exact (Node.make_mirrors hwalk fun _ _ _ => trivial).of_error h limit

/-- What the node of an expression is known by and what it takes. -/
theorem nodeOf_eq_ok (h : nodeOf s block x = .ok n) :
    (n.key, n.opcode, n.operands) = (.synthesized x.2, x.1.opcode,
      operandRefs (x.2 - (Operand.allExpressions x.1.operands).length) x.1.operands) := by
  obtain ⟨_, _, rfl⟩ := Node.make_eq_ok h
  rfl

/-! ## Results up to a limit -/

section
variable {ε α β : Type} {e e' : ε} {budget : Nat} {x : Except ε α} {F : α → Except ε β} {l : List α}
  {made : List β}

theorem bind_eq_error : (x >>= F) = .error e ↔ x = .error e ∨ ∃ a, x = .ok a ∧ F a = .error e := by
  cases x <;> simp [bind, Except.bind]

theorem map_eq_error {G : α → β} : x.map G = .error e ↔ x = .error e := by
  cases x <;> simp [Except.map]

theorem mapM_eq_error (h : l.mapM F = .error e) : ∃ a ∈ l, F a = .error e := by
  induction l with
  | nil => cases h
  | cons a l ih =>
    rw [mapM_cons] at h
    rcases bind_eq_error.mp h with h | ⟨b, -, h⟩
    · exact ⟨a, mem_cons_self, h⟩
    · rcases bind_eq_error.mp h with h | ⟨_, _, h⟩
      · obtain ⟨a', ha', he⟩ := ih h
        exact ⟨a', mem_cons_of_mem _ ha', he⟩
      · cases h

/-- An error that no element has is that of the limit. It says that all within the limit are made,
and that there are more. -/
theorem upTo_eq_error_iff (he : ∀ a ∈ l, F a ≠ .error e') :
    upTo e budget F l = .error e' ↔ e' = e ∧ budget < l.length ∧
      ∀ a ∈ l.take budget, ∃ b, F a = .ok b := by
  have hmade {l' : List α} (hl : l' ⊆ l) : l'.mapM F ≠ .error e' := fun h => by
    obtain ⟨a, ha, h⟩ := mapM_eq_error h
    exact he a (hl ha) h
  unfold upTo
  split
  · next h => exact ⟨fun h => absurd h (hmade (Subset.refl _)), fun hm => absurd hm.2.1 (by omega)⟩
  · next h =>
    rw [bind_eq_error, or_iff_right (hmade (take_subset budget l))]
    constructor
    · rintro ⟨bs, hbs, hlimit⟩
      cases hlimit
      refine ⟨rfl, by omega, fun a ha => ?_⟩
      obtain ⟨j, hj⟩ := mem_iff_getElem?.mp ha
      obtain ⟨b, -, hb⟩ := forall₂_some_left (mapM_eq_ok.mp hbs) hj
      exact ⟨b, hb⟩
    · rintro ⟨rfl, -, hall⟩
      cases hm : (l.take budget).mapM F with
      | ok bs => exact ⟨bs, rfl, rfl⟩
      | error e =>
        obtain ⟨a, ha, hfail⟩ := mapM_eq_error hm
        obtain ⟨b, hb⟩ := hall a ha
        rw [hfail] at hb
        cases hb

end

/-! ## Instructions -/

/-- Two computations that agree up to views of their results fail alike or succeed with results that
look alike. -/
theorem map_eq_map_cases {ε α β γ : Type} {x : Except ε α} {y : Except ε β} {F : α → γ} {G : β → γ}
    (h : x.map F = y.map G) :
    (∃ e, x = .error e ∧ y = .error e) ∨ ∃ a b, x = .ok a ∧ y = .ok b ∧ F a = G b := by
  cases x with
  | error e =>
    cases y with
    | error _ => exact .inl ⟨e, rfl, congrArg _ (Except.error.inj h).symm⟩
    | ok _ => cases h
  | ok a =>
    cases y with
    | error _ => cases h
    | ok b => exact .inr ⟨a, b, rfl, rfl, Except.ok.inj h⟩

/-- All operands together: the references, the nodes in order, and the count of expressions. -/
theorem flattenOperands_eq_postorderAll (l : List (Operand × Option BlockId)) (f : Flattening) :
    ((flattenOperands s consumer block l f).map fun r =>
      (r.1, r.2.draft.nodes, r.2.draft.synthesized)) =
        (postorderAll s consumer block f.budget f.draft.synthesized (l.map Prod.fst)).map fun r =>
        (r.1, f.draft.nodes ++ r.2, f.draft.synthesized + r.2.length) := by
  induction l generalizing f with
  | nil => simp [flattenOperands, postorderAll, Except.map, pure, Except.pure]
  | cons first rest ih =>
    rw [flattenOperands_cons, map_cons, postorderAll]
    cases postorder s consumer block f.budget f.draft.synthesized first.1 with
    | error e => rfl
    | ok own =>
      have hsettle : (f.settle first.2 own.2).budget = f.budget - own.2.length ∧
          (f.settle first.2 own.2).draft.nodes = f.draft.nodes ++ own.2 ∧
          (f.settle first.2 own.2).draft.synthesized = f.draft.synthesized + own.2.length := by
        cases first.2 <;> exact ⟨rfl, rfl, rfl⟩
      have ih := ih (f.settle first.2 own.2)
      rw [hsettle.1, hsettle.2.1, hsettle.2.2] at ih
      rcases map_eq_map_cases ih with ⟨e, hx, hy⟩ | ⟨a, b, hx, hy, hab⟩
      · simp only [bind, Except.bind, hx, hy, Except.map]
      · simp only [Prod.mk.injEq] at hab
        simp only [bind, Except.bind, hx, hy, Except.map, pure, Except.pure, hab, append_assoc,
          Nat.add_assoc, length_append]

theorem addInstruction_eq_postorderAll (s : Setting) (block : Nat) (d : Draft) (i : Instruction) :
    ((addInstruction s block d i).map fun r => (r.2.nodes, r.2.synthesized)) = (do
      let r ← postorderAll s (s.location.node (.value i.id) i.opcode) block s.limit
        d.synthesized i.operands
      let n ← Node.make s.resolver s.location block (.value i.id) i.opcode i.ty r.1 i.info
      return (d.nodes ++ r.2 ++ [n], d.synthesized + r.2.length)) := by
  have hall := @flattenOperands_eq_postorderAll s (s.location.node (.value i.id) i.opcode) block
    (i.operands.zip (operandSources i)) { budget := s.limit, draft := d }
  rw [map_fst_operandSources] at hall
  unfold addInstruction
  extract_lets key sources
  change (flattenOperands s (s.location.node key i.opcode) block (i.operands.zip sources) _).map
    _ = _ at hall
  rcases map_eq_map_cases hall with ⟨e, hx, hy⟩ | ⟨a, b, hx, hy, hab⟩
  · simp only [bind, Except.bind, hx, hy, Except.map]
  · simp only [Prod.mk.injEq] at hab
    simp only [bind, Except.bind, hx, hy, hab]
    cases Node.make s.resolver s.location block key i.opcode i.ty b.1 i.info with
    | error e => rfl
    | ok n => simp only [Except.map, pure, Except.pure, Draft.append, hab]

/-- The stack makes what the recursion makes, first flaw included. The nodes are those of the
expressions in post-order, counted one after the other, and each takes the keys of the expressions
among its operands. The limit is the flaw exactly if there are more expressions and none of those
within the limit has a flaw of its own. -/
theorem addInstruction_postorder (s : Setting) (block : Nat) (d : Draft) (i : Instruction) :
    let counted := (Operand.allExpressions i.operands).zipIdx d.synthesized
    ((addInstruction s block d i).map fun r => (r.2.nodes, r.2.synthesized)) = (do
      let r ← postorderAll s (s.location.node (.value i.id) i.opcode) block s.limit
          d.synthesized i.operands
      let n ← Node.make s.resolver s.location block (.value i.id) i.opcode i.ty r.1 i.info
      return (d.nodes ++ r.2 ++ [n], d.synthesized + r.2.length)) ∧
    (∀ ids d', addInstruction s block d i = .ok (ids, d') → ∃ new n, d'.nodes = d.nodes ++
      new ++ [n] ∧ d'.synthesized = d.synthesized + (Operand.allExpressions i.operands).length ∧
      n.operands = operandRefs d.synthesized i.operands ∧
      new.map (fun n => (n.key, n.opcode, n.operands)) = counted.map fun x =>
        (Key.synthesized x.2, x.1.opcode,
          operandRefs (x.2 - (Operand.allExpressions x.1.operands).length) x.1.operands)) ∧
    ((∃ l, addInstruction s block d i = .error ⟨l, .constantExpressionLimit s.limit⟩) ↔
      s.limit < (Operand.allExpressions i.operands).length ∧ ∀ x ∈ counted.take s.limit, ∃ n,
        nodeOf s block x = .ok n) := by
  intro counted
  have heq := addInstruction_eq_postorderAll s block d i
  refine ⟨heq, fun ids d' h => ?_, ?_⟩
  · rw [h] at heq
    obtain ⟨r, hr, heq⟩ := bind_eq_ok.mp heq.symm
    obtain ⟨n, hn, heq⟩ := bind_eq_ok.mp heq
    simp only [pure_eq_ok, Prod.mk.injEq] at heq
    rw [postorderAll_eq] at hr
    obtain ⟨new, hnew, rfl⟩ := map_eq_ok.mp hr
    obtain ⟨_, _, rfl⟩ := Node.make_eq_ok hn
    have hmade := mapM_eq_ok.mp (upTo_eq_ok hnew)
    refine ⟨new, _, heq.1.symm, ?_, rfl, forall₂_map_eq hmade fun _ _ hx => nodeOf_eq_ok hx⟩
    rw [← heq.2, ← hmade.length_eq, length_zipIdx]
  · have hnode : ∀ l, ∀ x ∈ counted,
        nodeOf s block x ≠ .error ⟨l, .constantExpressionLimit s.limit⟩ :=
      fun _ _ _ hx => Node.make_within_limit hx s.limit rfl
    -- The node of the instruction has no such flaw either, so that it comes from the expressions.
    have hlimit (l : Location) :
        addInstruction s block d i = .error ⟨l, .constantExpressionLimit s.limit⟩ ↔
          postorderAll s (s.location.node (.value i.id) i.opcode) block s.limit d.synthesized
            i.operands = .error ⟨l, .constantExpressionLimit s.limit⟩ := by
      rw [← map_eq_error, heq, bind_eq_error]
      refine or_iff_left ?_
      rintro ⟨r, -, h⟩
      rcases bind_eq_error.mp h with h | ⟨_, _, h⟩
      · exact Node.make_within_limit h s.limit rfl
      · cases h
    simp only [hlimit, postorderAll_eq, map_eq_error, upTo_eq_error_iff (hnode _), counted,
      length_zipIdx, Flaw.mk.injEq, and_true, exists_eq_left]

end Stackify.Flow
