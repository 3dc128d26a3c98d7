import Stackify.Proofs.Lowered
import Stackify.Proofs.Resolution

/-!
What a function takes from the rest of its module. For its graph, these are the aggregates that
address computations go through, and the function that its personality names; for its code, the
counterparts of types, the numbers of statics, and the methods that it names.

`Mirrors E x y` compares two computations that may fail: the second one gives what the first one
gives, unless the first one fails, with an error of which `E` holds. Of the same function, two
modules make the same graph if the second one has the aggregates and the personality that the first
one has:

    Walkable D P r₁ r₂ → Mirrors (D ·.defect) (Graph.make m₁ ⟨r₁, ..⟩ f) (Graph.make m₂ ⟨r₂, ..⟩ f)

If the second module has what the function finds in the first one (`Alike`), then its code is the
same in both (`lowerGraph_mirrors`). With two different modules this says that nothing changes; with
one and the same, how lowering can fail.
-/

namespace Stackify

/-- The second computation gives what the first one gives, unless that fails with an error of which
`E` holds. -/
def Mirrors {ε α : Type} (E : ε → Prop) (x y : Except ε α) : Prop :=
  (∃ a, x = .ok a ∧ y = .ok a) ∨ ∃ e, x = .error e ∧ E e

namespace Mirrors

variable {ε α β : Type} {E : ε → Prop} {a : α} {e : ε} {y x : Except ε α} {f g : α → Except ε β}

theorem ok : Mirrors E (.ok a) (.ok a) := .inl ⟨a, rfl, rfl⟩

theorem error (h : E e) : Mirrors E (.error e) y := .inr ⟨e, rfl, h⟩

theorem bind (h : Mirrors E x y) (hf : ∀ a, x = .ok a → Mirrors E (f a) (g a)) :
    Mirrors E (x >>= f) (y >>= g) := by
  rcases h with ⟨a, rfl, rfl⟩ | ⟨e, rfl, he⟩
  · exact hf a rfl
  · exact error he

theorem of_ok (h : Mirrors E x y) (hx : x = .ok a) : y = .ok a := by
  rcases h with ⟨b, hb, hy⟩ | ⟨e, he, -⟩
  · rw [hb] at hx
    cases hx
    exact hy
  · rw [he] at hx
    cases hx

theorem of_error (h : Mirrors E x y) (hx : x = .error e) : E e := by
  rcases h with ⟨b, hb, -⟩ | ⟨e', he, hE⟩
  · rw [hb] at hx
    cases hx
  · rw [he] at hx
    cases hx
    exact hE

theorem mapM {as : List α} (h : ∀ a ∈ as, Mirrors E (f a) (g a)) :
    Mirrors E (as.mapM f) (as.mapM g) := by
  induction as with
  | nil => exact ok
  | cons a as ih =>
    rw [List.mapM_cons, List.mapM_cons]
    rw [List.forall_mem_cons] at h
    exact h.1.bind fun b _ => (ih h.2).bind fun bs _ => ok

theorem foldlM {as : List α} {f g : β → α → Except ε β}
    (h : ∀ b a, Mirrors E (f b a) (g b a)) (b : β) : Mirrors E (as.foldlM f b) (as.foldlM g b) := by
  induction as generalizing b with
  | nil => exact ok
  | cons a as ih =>
    rw [List.foldlM_cons, List.foldlM_cons]
    exact (h b a).bind fun b _ => ih b

theorem map (h : Mirrors E x y) (f : α → β) : Mirrors E (x.map f) (y.map f) := by
  rcases h with ⟨a, rfl, rfl⟩ | ⟨e, rfl, he⟩
  · exact ok
  · exact error he

end Mirrors

end Stackify

namespace Stackify.Flow

open Ssa (Opcode BlockId Info Operand Instruction Function Module Ty)
open Resolve (Resolver Aggregate hasFields)
open List

/-! ## Addresses -/

/-- Whether a defect is neither that of an aggregate that is not known nor that of an expression
which is too large. -/
def Defect.isOther : Defect → Bool
  | .unregisteredType _ | .constantExpressionLimit _ => false
  | _ => true

/-- Addresses may go through the types of which `P` holds. If the first resolver has an aggregate,
then the second one has the same. -/
structure Walkable (D : Defect → Prop) (P : Ty → Prop) (r₁ r₂ : Resolver) : Prop where
  other : ∀ {d : Defect}, d.isOther = true → D d
  element : ∀ e n, P (.array e n) ∨ P (.vector e n) → P e
  aggregate : ∀ t, P t → hasFields t = true →
    (∃ a, r₁.aggregate? t = some a ∧ r₂.aggregate? t = some a ∧ ∀ u ∈ a.fields, P u) ∨
      r₁.aggregate? t = none ∧ D (.unregisteredType t)

variable {D : Defect → Prop} {P : Ty → Prop} {r₁ r₂ : Resolver} {ty target : Ty}
  {path : List AddressStep} {opcode : Opcode} {operands : List Ref} {info : Info} {o : Operand}
  {os : List Operand} {m₁ m₂ : Module} {f : Function}

section
variable (h : Walkable D P r₁ r₂)
include h

theorem descend_mirrors (hty : P ty) (index : Ref) :
    Mirrors D (descend r₁ ty index) (descend r₂ ty index) := by
  cases ty with
  | struct _ | literal _ _ =>
    unfold descend
    dsimp only
    rcases h.aggregate _ hty rfl with ⟨a, ha₁, ha₂, -⟩ | ⟨ha, hD⟩
    · rw [ha₁, ha₂]
      dsimp only
      split
      · exact .error (h.other rfl)
      · split
        · exact .ok
        · exact .error (h.other rfl)
    · rw [ha]
      exact .error hD
  | array _ _ | vector _ _ => exact .ok
  | _ => exact .error (h.other rfl)

/-- A step leads from an admissible type to an admissible one. -/
theorem descend_admissible (hty : P ty) {index : Ref} {step : AddressStep} {part : Ty}
    (hstep : descend r₁ ty index = .ok (step, part)) :
    P part ∧ ∀ e, step.element? = some e → P e := by
  cases ty with
  | struct _ | literal _ _ =>
    unfold descend at hstep
    dsimp only at hstep
    rcases h.aggregate _ hty rfl with ⟨a, ha, -, hfields⟩ | ⟨ha, -⟩
    · rw [ha] at hstep
      dsimp only at hstep
      split at hstep
      · cases hstep
      · next n _ =>
        split at hstep
        · next field hfield =>
          cases hstep
          refine ⟨hfields _ ?_, fun e he => by cases he⟩
          split at hfield
          · cases hfield
          · exact mem_of_getElem? hfield
        · cases hstep
    · rw [ha] at hstep
      cases hstep
  | array e n =>
    cases hstep
    have he := h.element part n (.inl hty)
    exact ⟨he, fun _ h => Option.some.inj h ▸ he⟩
  | vector e n =>
    cases hstep
    have he := h.element part n (.inr hty)
    exact ⟨he, fun _ h => Option.some.inj h ▸ he⟩
  | _ => cases hstep

theorem descendAll_mirrors (hty : P ty) (indices : List Ref) :
    Mirrors D (descendAll r₁ ty indices) (descendAll r₂ ty indices) := by
  induction indices generalizing ty with
  | nil => exact .ok
  | cons i rest ih =>
    exact (descend_mirrors h hty i).bind fun a ha =>
      (ih (descend_admissible h hty ha).1).bind fun _ _ => .ok

theorem addressPath_mirrors (hty : P ty) (indices : List Ref) :
    Mirrors D (addressPath r₁ ty indices) (addressPath r₂ ty indices) := by
  cases indices with
  | nil => exact .ok
  | cons first rest => exact (descendAll_mirrors h hty rest).bind fun _ _ => .ok

theorem addressPath_admissible (hty : P ty) {indices : List Ref}
    (hpath : addressPath r₁ ty indices = .ok (path, target)) :
    P target ∧ ∀ step ∈ path, ∀ e, step.element? = some e → P e := by
  have hall {rest : List Ref} {ty : Ty} {path : List AddressStep} (hty : P ty)
      (hpath : descendAll r₁ ty rest = .ok (path, target)) :
      P target ∧ ∀ step ∈ path, ∀ e, step.element? = some e → P e := by
    induction rest generalizing ty path with
    | nil =>
      cases hpath
      exact ⟨hty, by simp⟩
    | cons i rest ih =>
      obtain ⟨⟨step, part⟩, hstep, hpath⟩ := bind_eq_ok.mp hpath
      obtain ⟨⟨steps, _⟩, hsteps, hpath⟩ := bind_eq_ok.mp hpath
      cases hpath
      obtain ⟨hpart, helement⟩ := descend_admissible h hty hstep
      obtain ⟨htarget, hrest⟩ := ih hpart hsteps
      exact ⟨htarget, forall_mem_cons.mpr ⟨helement, hrest⟩⟩
  cases indices with
  | nil =>
    cases hpath
    exact ⟨hty, by simp⟩
  | cons first rest =>
    obtain ⟨⟨steps, _⟩, hsteps, hpath⟩ := bind_eq_ok.mp hpath
    cases hpath
    obtain ⟨htarget, hrest⟩ := hall hty hsteps
    exact ⟨htarget, forall_mem_cons.mpr ⟨fun e he => Option.some.inj he ▸ hty, hrest⟩⟩

end

/-! ## Nodes -/

/-- An address computation starts from an object of an admissible type. -/
def Sourced (P : Ty → Prop) (info : Info) : Prop :=
  ∀ source inbounds, info = .gep source inbounds → P source

/-- The checks of operands and of the facts beside them fail with defects of their own. -/
theorem checks_mirror (hD : ∀ {d : Defect}, d.isOther = true → D d) (opcode : Opcode)
    (operands : List Ref) (info : Info) :
    (∀ n, Mirrors D (exactly n operands) (exactly n operands)) ∧
      (∀ n, Mirrors D (atLeast n operands) (atLeast n operands)) ∧
        (∀ i, Mirrors D (blockOperand opcode operands i) (blockOperand opcode operands i)) ∧
      Mirrors D (predicateCode info) (predicateCode info) ∧ Mirrors D (callType info)
        (callType info) := by
  refine ⟨fun n => ?_, fun n => ?_, fun i => ?_, ?_, ?_⟩
  · unfold exactly
    split
    · exact .ok
    · exact .error (hD rfl)
  · unfold atLeast
    split
    · exact .ok
    · exact .error (hD rfl)
  · unfold blockOperand
    split
    · exact .ok
    · exact .error (hD rfl)
  · unfold predicateCode
    split
    · exact .ok
    · exact .error (hD rfl)
  · unfold callType
    split
    · exact .ok
    · exact .error (hD rfl)

theorem switchCases_mirrors (hD : ∀ {d : Defect}, d.isOther = true → D d) (opcode : Opcode)
    (operands : List Ref) (i : Nat) (values : List Ref) :
    Mirrors D (switchCases opcode operands i values) (switchCases opcode operands i values) := by
  fun_induction switchCases opcode operands i values with
  | case1 => exact .error (hD rfl)
  | case2 i value _ rest n _ ih =>
    exact ((checks_mirror hD opcode operands .plain).2.2.1 _).bind fun _ _ => ih.bind fun _ _ => .ok
  | case3 => exact .ok

theorem Kind.make_mirrors (h : Walkable D P r₁ r₂) (hinfo : Sourced P info) :
    Mirrors D (Kind.make r₁ opcode ty operands info) (Kind.make r₂ opcode ty operands info) := by
  obtain ⟨hexactly, hatLeast, hblock, hcode, htype⟩ := checks_mirror h.other opcode operands info
  unfold Kind.make
  extract_lets block count
  clear_value count
  split
  -- For most operations there is only the number of operands to check.
  all_goals try exact .ok
  all_goals try exact (hexactly _).bind fun _ _ => .ok
  case h_1 | h_40 | h_41 => (repeat' split) <;> first | exact .ok | exact .error (h.other rfl)
  case h_23 | h_24 =>
    refine (hexactly 2).bind fun _ _ => hcode.bind fun code _ => ?_
    split
    · exact .ok
    · exact .error (h.other rfl)
  case h_38 =>
    split
    · exact (hblock 0).bind fun _ _ => .ok
    · exact (hblock 1).bind fun _ _ => (hblock 2).bind fun _ _ => .ok
    · exact .error (h.other rfl)
  case h_39 =>
    split
    · exact .error (h.other rfl)
    · exact (switchCases_mirrors h.other _ _ 2 _).bind fun _ _ => (hblock 1).bind fun _ _ => .ok
  case h_42 =>
    refine (hatLeast 1).bind fun _ _ => ?_
    split
    · exact (addressPath_mirrors h (hinfo _ _ rfl) _).bind fun _ _ => .ok
    · exact .error (h.other rfl)
  case h_45 => exact (hatLeast 1).bind fun _ _ => htype.bind fun _ _ => .ok
  case h_46 =>
    exact (hatLeast 3).bind fun _ _ =>
      htype.bind fun _ _ => (hblock _).bind fun _ _ => (hblock _).bind fun _ _ => .ok
  case h_47 =>
    exact (hatLeast 2).bind fun _ _ => (Mirrors.mapM fun i _ => hblock i).bind fun _ _ => .ok
  case h_51 => exact (hexactly 2).bind fun _ _ => (hblock 1).bind fun _ _ => .ok
  case h_52 =>
    split
    · exact .ok
    · exact (hblock 1).bind fun _ _ => .ok
    · exact .error (h.other rfl)

theorem Node.make_mirrors (h : Walkable D P r₁ r₂) {location : Location} {block : Nat} {key : Key}
    (hinfo : Sourced P info) :
    Mirrors (D ·.defect) (Node.make r₁ location block key opcode ty operands info)
      (Node.make r₂ location block key opcode ty operands info) := by
  unfold Node.make
  have hkind : Mirrors D (Kind.make r₁ opcode ty operands info)
      (Kind.make r₂ opcode ty operands info) :=
    Kind.make_mirrors h hinfo
  rcases hkind with ⟨kind, h₁, h₂⟩ | ⟨d, h₁, hd⟩
  · rw [h₁, h₂]
    exact .ok
  · rw [h₁]
    exact .error hd

/-! ## Expressions and instructions -/

/-- All address computations in operands start from admissible types. -/
def AllSourced (P : Ty → Prop) (operands : List Operand) : Prop :=
  ∀ x ∈ Operand.allExpressions operands, Sourced P x.info

theorem AllSourced.of_mem (h : AllSourced P os) (ho : o ∈ os) : AllSourced P [o] := by
  induction os with
  | nil => cases ho
  | cons first os ih =>
    rcases mem_cons.mp ho with rfl | ho
    · exact fun x hx => h x (mem_append_left _ (by simpa [Operand.allExpressions] using hx))
    · exact ih (fun x hx => h x (mem_append_right _ hx)) ho

variable {limit : Nat} {location consumer : Location} {block : Nat}

section
variable (h : Walkable D P r₁ r₂) (hlimit : ∀ n, D (.constantExpressionLimit n))
include h hlimit

theorem postorder_mirrors {budget k : Nat} (ho : AllSourced P [o]) :
    Mirrors (D ·.defect) (postorder ⟨r₁, limit, location⟩ consumer block budget k o)
      (postorder ⟨r₂, limit, location⟩ consumer block budget k o) := by
  have hnode : ∀ x ∈ o.expressions.zipIdx k,
      Mirrors (D ·.defect) (nodeOf ⟨r₁, limit, location⟩ block x)
        (nodeOf ⟨r₂, limit, location⟩ block x) :=
    fun x hx =>
      Node.make_mirrors h (ho x.1
        (by simpa [Operand.allExpressions] using fst_mem_of_mem_zipIdx hx))
  rw [postorder_eq, postorder_eq]
  refine Mirrors.map ?_ _
  unfold upTo
  split
  · exact .mapM hnode
  · exact (Mirrors.mapM fun x hx => hnode x (mem_of_mem_take hx)).bind fun _ _ => .error (hlimit _)

theorem flattenOperands_mirrors {l : List (Operand × Option BlockId)} (f : Flattening)
    (hl : ∀ e ∈ l, AllSourced P [e.1]) :
    Mirrors (D ·.defect) (flattenOperands ⟨r₁, limit, location⟩ consumer block l f)
      (flattenOperands ⟨r₂, limit, location⟩ consumer block l f) := by
  induction l generalizing f with
  | nil => exact .ok
  | cons first rest ih =>
    rw [forall_mem_cons] at hl
    rw [flattenOperands_cons, flattenOperands_cons]
    exact (postorder_mirrors h hlimit hl.1).bind fun a _ => (ih _ hl.2).bind fun _ _ => .ok

theorem addInstruction_mirrors {i : Instruction} (d : Draft) (hi : Sourced P i.info)
    (ho : AllSourced P i.operands) :
    Mirrors (D ·.defect) (addInstruction ⟨r₁, limit, location⟩ block d i)
      (addInstruction ⟨r₂, limit, location⟩ block d i) := by
  refine (flattenOperands_mirrors h hlimit _ fun e he => ho.of_mem (of_mem_zip he).1).bind
    fun _ _ => ?_
  exact (Node.make_mirrors h hi).bind fun _ _ => .ok

/-- All address computations of a function start from admissible types. -/
def FunctionSourced (P : Ty → Prop) (is : List Instruction) : Prop :=
  ∀ i ∈ is, Sourced P i.info ∧ AllSourced P i.operands

theorem addInstructions_mirrors {is : List Instruction} (d : Draft) (his : FunctionSourced P is) :
    Mirrors (D ·.defect) (addInstructions ⟨r₁, limit, location⟩ block is d)
      (addInstructions ⟨r₂, limit, location⟩ block is d) := by
  induction is generalizing d with
  | nil => exact .ok
  | cons i is ih =>
    obtain ⟨hi, his⟩ := forall_mem_cons.mp his
    exact (addInstruction_mirrors h hlimit d hi.1 hi.2).bind fun a _ =>
      (ih a.2 his).bind fun _ _ => .ok

theorem addBlocks_mirrors {bs : List Ssa.Block} (position : Nat) (d : Draft)
    (hbs : FunctionSourced P (bs.flatMap (·.instructions))) :
    Mirrors (D ·.defect) (addBlocks ⟨r₁, limit, location⟩ position bs d)
      (addBlocks ⟨r₂, limit, location⟩ position bs d) := by
  induction bs generalizing position d with
  | nil => exact .ok
  | cons b bs ih =>
    rw [FunctionSourced, flatMap_cons, forall_mem_append] at hbs
    exact (addInstructions_mirrors h hlimit d hbs.1).bind fun a _ =>
      (ih (position + 1) a.2 hbs.2).bind fun _ _ => .ok

end

/-! ## Graphs -/

section
variable (hD : ∀ {d : Defect}, d.isOther = true → D d)
include hD

/-- What is done to blocks and nodes once they are made fails with defects of its own. -/
theorem placeHoisted_mirrors (moved : List (BlockId × NodeId)) (blocks : List Block)
    (nodes : List Node) :
    Mirrors (D ·.defect) (placeHoisted location moved blocks nodes)
      (placeHoisted location moved blocks nodes) := by
  fun_induction placeHoisted location moved blocks nodes with
  | case1 => exact .ok
  | case2 => exact .error (hD rfl)
  | case3 _ _ _ _ _ _ _ ih => exact ih

theorem linkBlocks_mirrors (blocks : List Block) (nodes : List Node) :
    Mirrors (D ·.defect) (linkBlocks location blocks nodes) (linkBlocks location blocks nodes) := by
  have htargets (location : Location) (i : Nat) (ids : List BlockId) (blocks : List Block) :
      Mirrors (D ·.defect) (linkTargets location i ids blocks)
        (linkTargets location i ids blocks) := by
    fun_induction linkTargets location i ids blocks with
    | case1 => exact .ok
    | case2 _ _ _ _ _ ih => exact ih
    | case3 => exact .error (hD rfl)
  refine Mirrors.foldlM (fun blocks i => ?_) blocks
  unfold linkBlock
  split
  · exact .ok
  · split
    · exact .error (hD rfl)
    · split
      · exact htargets ..
      · exact .error (hD rfl)

theorem analyzeDataFlow_mirrors (blocks : List Block) (nodes : List Node) :
    Mirrors (D ·.defect) (analyzeDataFlow location blocks nodes)
      (analyzeDataFlow location blocks nodes) := by
  refine (Mirrors.mapM fun n _ => ?_).bind fun _ _ => .ok
  unfold completeKind
  split
  · exact .ok
  · exact .ok
  · refine Mirrors.map (Mirrors.mapM fun i _ => ?_) _
    dsimp only
    split
    · exact .ok
    · exact .error (hD rfl)
  · exact .ok

theorem personalityOf_mirrors
    (hm : ∀ name p, f.personality = some name → m₁.function? name = some p →
      m₂.function? name = some p) (nodes : List Node) :
    Mirrors (D ·.defect) (personalityOf location m₁ f nodes)
      (personalityOf location m₂ f nodes) := by
  unfold personalityOf
  cases hp : f.personality with
  | none =>
    dsimp only
    split
    · exact .error (hD rfl)
    · exact .ok
  | some name =>
    dsimp only
    cases hfound : m₁.function? name with
    | none => exact .error (hD rfl)
    | some p =>
      rw [hm name p hp hfound]
      exact .ok

end

/-- The graph of a function is the same in two modules, unless it fails to be made in the first
one. -/
theorem Graph.make_mirrors (h : Walkable D P r₁ r₂) (hlimit : ∀ n, D (.constantExpressionLimit n))
    (hm : ∀ name p, f.personality = some name → m₁.function? name = some p →
      m₂.function? name = some p)
    (hf : FunctionSourced P f.instructions) :
    Mirrors (D ·.defect) (Graph.make m₁ ⟨r₁, limit, location⟩ f)
      (Graph.make m₂ ⟨r₂, limit, location⟩ f) := by
  refine (addBlocks_mirrors h hlimit 0 {} hf).bind fun a _ => ?_
  refine (placeHoisted_mirrors h.other _ _ _).bind fun b _ => ?_
  refine (linkBlocks_mirrors h.other _ _).bind fun blocks _ => ?_
  refine (analyzeDataFlow_mirrors h.other _ _).bind fun nodes _ => ?_
  exact (personalityOf_mirrors h.other hm _).bind fun _ _ => .ok

end Stackify.Flow

namespace Stackify.Lower

open Code (Const)
open Stackify.Flow (Graph Node NodeId)
open List

/-! ## Code -/

variable {E : Error → Prop} {d₁ d₂ : Declared} {g : Graph}

theorem localType_mirrors {n : Node}
    (h : ∀ ty ∈ kindTypes n ++ n.resultType.toList, d₁.Finds E d₂ (n.location g.location) ty) :
    Mirrors (fun f => E (.structural f)) (localType d₁ g n) (localType d₂ g n) := by
  unfold localType
  extract_lets resolved₁ resolved₂
  have hresolved (ty : Ssa.Ty) (hty : ty ∈ kindTypes n ++ n.resultType.toList) :
      Mirrors (fun f => E (.structural f)) (resolved₁ ty) (resolved₂ ty) := by
    unfold resolved₁ resolved₂
    rcases h ty hty with ⟨s, h₁, h₂⟩ | ⟨h₁, hE⟩
    · rw [h₁, h₂]
      exact .ok
    · rw [h₁]
      exact .error hE
  split
  · next hk => exact hresolved _ (by simp [kindTypes, hk])
  · next hk => exact (hresolved _ (by simp [kindTypes, hk])).map _
  · next hty _ _ => exact hresolved _ (by simp [hty])
  · exact .ok

theorem assignFrom_mirrors {id : NodeId} {locals : List Code.Ty} {nodes : List Node}
    (h : ∀ n ∈ nodes, ∀ ty ∈ kindTypes n ++ n.resultType.toList,
      d₁.Finds E d₂ (n.location g.location) ty) :
    Mirrors (fun f => E (.structural f)) (assignFrom d₁ g id locals nodes)
      (assignFrom d₂ g id locals nodes) := by
  induction nodes generalizing id locals with
  | nil => exact .ok
  | cons n nodes ih =>
    rw [forall_mem_cons] at h
    unfold assignFrom
    split
    · exact (ih h.2).bind fun _ _ => .ok
    · exact (localType_mirrors h.1).bind fun _ _ => (ih h.2).bind fun _ _ => .ok

/-- In the graph of a function, operands are all that phis take and addresses are made of. -/
theorem Context.Alike.of_shape {c : Context} {d : Declared} {s : Flow.Setting} {f : Ssa.Function}
    {blocks : List Flow.Block} {nodes : List Node} {moved : List (Ssa.BlockId × NodeId)}
    (hshape : Flow.Shape s f c.graph blocks nodes moved)
    (hoperands : ∀ n ∈ c.graph.nodes, ∀ r ∈ n.operands,
      c.Known E d r ∧ c.declared.Finds E d (n.location c.graph.location) (c.operandType r))
    (htypes : ∀ n ∈ c.graph.nodes, ∀ ty ∈ kindTypes n ++ n.resultType.toList,
      c.declared.Finds E d (n.location c.graph.location) ty) : c.Alike E d := by
  refine ⟨hoperands, htypes, fun i phi hphi e he => ?_,
    fun n hn path target hk step hstep r hr => ?_⟩
  · obtain ⟨n, sources, hn, hk⟩ := Context.mem_phis hphi
    exact (hoperands n (mem_of_getElem? hn) e.2 (phi_operand hshape hn hk e he)).1
  · obtain ⟨j, hj⟩ := getElem?_of_mem hn
    obtain ⟨x, -, hc⟩ := hshape.computes hj
    exact (hoperands n hn r (hc.address_operand hk step hstep r hr)).1

/-- The code of a function is the same in another module that has all that the function finds in its
own. -/
theorem lowerGraph_mirrors
    (hE : ∀ err, (∀ l ty, err ≠ .structural ⟨l, .unregisteredType ty⟩) → E err)
    (h : ∀ slots, Context.Alike E ⟨d₁, g, slots⟩ d₂) (consts : List Const) :
    (∃ b, (lowerGraph d₁ consts g).result = .ok b ∧
      lowerGraph d₂ consts g = lowerGraph d₁ consts g) ∨ ∃ e, (lowerGraph d₁ consts g).result =
        .error e ∧ E e := by
  unfold lowerGraph
  rcases assignFrom_mirrors (h []).types with ⟨⟨slots, locals⟩, h₁, h₂⟩ | ⟨e, h₁, hE⟩
  · rw [assignSlots, h₁, assignSlots, h₂]
    let start : Emission := { body := { locals, labelCount := g.blocks.length }, consts }
    let bounds : Bounds :=
      ⟨fun _ => False, E, fun {err} herr => hE err (by rintro l ty rfl; cases herr)⟩
    have hemits : EmitsFrom _ start _ (Context.lowerBlocks ⟨d₁, g, slots⟩)
        (Context.lowerBlocks ⟨d₂, g, slots⟩) _ :=
      Context.lowerBlocks_emits (b := bounds) (h slots) rfl
    rcases hemits with ⟨_, s, _, _, ⟨hrun, hrun'⟩, -⟩ | ⟨e, s, hrun, hE⟩
    · dsimp only [start, EStateM.run, Context.within] at hrun hrun' ⊢
      rw [hrun, hrun']
      dsimp only
      cases s.body.finish with
      | ok body => exact .inl ⟨body, rfl, rfl⟩
      | error f => exact .inr ⟨_, rfl, hE _ (by simp)⟩
    · dsimp only [start, EStateM.run] at hrun ⊢
      rw [hrun]
      exact .inr ⟨e, rfl, hE⟩
  · rw [assignSlots, h₁]
    exact .inr ⟨_, rfl, hE⟩

end Stackify.Lower
