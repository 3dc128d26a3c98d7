import Stackify.Proofs.Confinement

/-!
The heights of the evaluation stack in whole bodies.

Blocks, trampolines and the labels inside of nodes are entered with an empty stack, handlers with
the exception, and the ends of protected ranges and of handlers not at all. With these roles of
labels the code of a graph keeps to its heights from its first operation to its last one:

    BodyCode c pool m.body → … → ∃ h, Heights p m (some 0) m.body.ops h           (BodyCode.heights)
-/

namespace Stackify.Lower

open Code (Op Const Label Program Method Heights Region Stretches markedLabels roleIn)
open Stackify.Flow (Node NodeId Ref Kind)
open List

namespace Context

/-! ## Nodes -/

/-- What a node is like whose result stays on the stack. -/
structure Yields (c : Context) (n : Node) : Prop where
  result : n.resultType ≠ none
  used : n.isUsed = true
  inside : n.opcode.isTerminator = false
  kind : match n.kind with
    | .alloca _ | .phi _ _ | .select | .store _ | .catchPad | .cleanupPad | .landingPad => False
    | .call type => type.ret.isVoid = false ∧ ∀ target,
        c.declared.callTarget (n.location c.graph.location) (callee n) = .ok target →
        target ≠ .route .vaStart ∧ target ≠ .route .vaEnd
    | _ => True

/-- A piece of code with its protected ranges: these say what the roles of its labels are in the
whole method. -/
def Owns (m : Method) (ops : List Op) (rs : List Region) : Prop :=
  ∀ l ∈ markedLabels ops, m.role l = roleIn rs l

variable {p : Program} {m : Method} {c : Context} {z : Surround} {id : NodeId} {n : Node}
  {ops : List Op} {rs qs : List Region} {h : Nat} {pool : List Const} {a b : List Op}

theorem Owns.append (h : Owns m (a ++ b) (rs ++ qs)) (hl : (markedLabels (a ++ b)).Nodup)
    (ha : Stretches a rs) (hb : Stretches b qs) : Owns m a rs ∧ Owns m b qs := by
  rw [Code.markedLabels_append] at hl
  obtain ⟨-, -, hapart⟩ := nodup_append.mp hl
  refine ⟨fun l hmem => ?_, fun l hmem => ?_⟩
  all_goals
    refine (h l (by simp [hmem])).trans (Code.roleIn_congr fun r hr => ?_)
    rw [mem_append]
  · exact ⟨fun hr' => hr'.resolve_right fun hq => hapart l hmem l (hb.labels r hq hr) rfl, .inl⟩
  · exact ⟨fun hr' => hr'.resolve_left fun hq => hapart l (ha.labels r hq hr) l hmem rfl, .inr⟩

theorem CaseLabels.plain {source : Nat} {kind : Code.NumKind} {cases : List (Int × Ssa.BlockId)}
    {labels : List (Int × Label)} (hc : CaseLabels c z source kind cases labels)
    (hz : Plain c z m) : ∀ l ∈ labels.map Prod.snd, m.role l = .plain := by
  induction hc with
  | nil => simp
  | cons hl _ ih => simpa using ⟨hl.plain hz, by simpa using ih⟩

/-- Both ways through a choice put the value where it belongs. -/
theorem select_heights {condition left right : Ref} {otherwise done : Label} {d : List Op}
    (ha : Pushes c pool condition a) (hb : Pushes c pool left b) (hd : Pushes c pool right d)
    (hs : ∀ r ∈ [condition, left, right], ∀ j, ¬ Stacked c r j) (hzero : c.leaves id = 0)
    (hotherwise : m.role otherwise = .plain) (hdone : m.role done = .plain) :
    Heights p m (some 0) (a ++ .branchFalse otherwise :: (b ++ (c.storeCode id ++ .branch done ::
      .label otherwise :: (d ++ (c.storeCode id ++ [.label done]))))) (some 0) := by
  simp only [forall_mem_cons] at hs
  obtain ⟨hca, hcb, hcd, -⟩ := hs
  have hstore : Heights p m (some 1) (c.storeCode id) (some 0) := by
    have hstore : Heights p m (some (0 + 1)) (c.storeCode id) (some (0 + c.leaves id)) :=
      storeCode_heights
    rwa [hzero] at hstore
  refine (ha.heights hca).append (.jump (by simp) (by simpa [Op.targets] using hotherwise) rfl ?_)
  refine Heights.append (hb.heights hcb)
    (hstore.append (.jump (by simp) (by simpa [Op.targets] using hdone) rfl ?_))
  refine .label hotherwise ((hd.heights hcd).append (hstore.append ?_)) (.inl rfl)
  exact .label hdone rfl (.inr rfl)

/-- A protected call and its handler. No way leads to the labels behind the call, and the handler
begins with the exception on the stack. -/
theorem guarded_heights {label tryStart tryEnd handlerStart handlerEnd : Label} {u x k : Nat}
    (hown : Owns m (a ++ .label tryStart ::
      (b ++ [.leave label, .label tryEnd, .label handlerStart, .storeLocal x, .leave u,
        .label handlerEnd])) [⟨tryStart, tryEnd, handlerStart, handlerEnd⟩])
    (hl : [tryStart, tryEnd, handlerStart, handlerEnd].Nodup)
    (hcopy : Heights p m (some 0) a (some 0)) (hcall : Heights p m (some 0) b (some k))
    (hlabel : m.role label = .plain) (hu : m.role u = .plain) :
    Heights p m (some 0)
      (a ++ .label tryStart ::
        (b ++ [.leave label, .label tryEnd, .label handlerStart, .storeLocal x, .leave u,
          .label handlerEnd])) none := by
  have hroles : m.role tryStart = .plain ∧ m.role tryEnd = .closed ∧
      m.role handlerStart = .handler ∧ m.role handlerEnd = .closed := by
    simp only [nodup_cons, mem_cons, not_or, not_mem_nil, not_false_eq_true, and_true] at hl
    refine ⟨?_, ?_, ?_, ?_⟩ <;> rw [hown _ (by simp)] <;>
      simp [roleIn, hl, Ne.symm hl.1.1, Ne.symm hl.1.2.1, Ne.symm hl.1.2.2, Ne.symm hl.2.1.1]
  obtain ⟨htry, hend, hstart, hdone⟩ := hroles
  refine hcopy.append (.label htry (hcall.append (.leave hlabel (.behind ?_))) (.inr rfl))
  rw [hend]
  refine .behind ?_
  rw [hstart]
  refine .cons (k := 0) rfl (.leave hu (.behind ?_))
  rw [hdone]
  rfl

theorem callee_not_stacked (hno : ∀ r ∈ n.operands, ∀ j, ¬ Stacked c r j) (j : NodeId) :
    ¬ Stacked c (callee n) j := by
  unfold callee
  cases ho : n.operands.getLast? with
  | none => rw [getLastD_eq_getLast?, ho]; exact fun hs => by cases hs.2.1
  | some r => rw [getLastD_eq_getLast?, ho]; exact hno r (mem_of_getLast? ho) j

/-- A node that stands behind others keeps the stack as expected, and ends with its own result on it
or ends the block. -/
theorem NodeCode.heights (hc : NodeCode c z id n ops rs) (hfit : Fitting p m c) (hz : Plain c z m)
    (hown : Owns m ops rs) (hl : (markedLabels ops).Nodup) (hn : c.graph.node? id = some n)
    (hready : Ready c n h) (hyields : c.leaves id ≠ 0 → c.Yields n)
    (hopcode : ∀ o, n.kind.opcode? = some o → n.opcode = o) : ∃ h', Heights p m (some h) ops h' ∧
      (h' = some (c.leaves id) ∨ n.opcode.isTerminator = true ∧ h' = none) := by
  have zero (hno : ¬ c.Yields n) : c.leaves id = 0 := by_contra fun hl => hno (hyields hl)
  have ended {o : Ssa.Opcode} (ho : n.kind.opcode? = some o) (ht : o.isTerminator = true) :
      n.opcode.isTerminator = true := by rw [hopcode o ho, ht]
  have stops {o : Ssa.Opcode} (ho : n.kind.opcode? = some o) (ht : o.isTerminator = true)
      (hh : Heights p m (some h) ops none) : ∃ h', Heights p m (some h) ops h' ∧
        (h' = some (c.leaves id) ∨ n.opcode.isTerminator = true ∧ h' = none) :=
    ⟨none, hh, .inr ⟨ended ho ht, rfl⟩⟩
  -- A node without a result finds the stack empty, unless it begins with an operand that is there,
  -- and leaves it so.
  have idle (hf : n.kind.firstOperand? = none) (hno : ¬ c.Yields n)
      (hh : (∀ r ∈ n.operands, ∀ j, ¬ Stacked c r j) → Heights p m (some 0) ops (some 0)) :
      ∃ h', Heights p m (some h) ops h' ∧ (h' = some (c.leaves id) ∨ n.opcode.isTerminator = true ∧
        h' = none) := by
    obtain ⟨rfl, hnone⟩ := hready.eq_zero hf
    exact ⟨some 0, hh hnone, .inl (by rw [zero hno])⟩
  have invoked {type : Ssa.FunctionType} {normal unwind : Ssa.BlockId} {target : CallTarget}
      {q : List Op} (hk : n.kind = .invoke type normal unwind)
      (ht : c.declared.callTarget (n.location c.graph.location) (callee n) = .ok target)
      (hno : ∀ r ∈ n.operands, ∀ j, ¬ Stacked c r j)
      (hq : CallCode c z.consts id n type (callee n)
        (n.operands.take (n.operands.length - 3)) target q) :
      Heights p m (some 0) q (some 0) := by
    have hend : n.opcode.isTerminator = true := ended (by rw [hk]; rfl) rfl
    have hzero : c.leaves id = 0 := zero fun hy => by simpa [hend] using hy.inside
    have hcall : Heights p m (some 0) q (some (c.leaves id)) := hq.heights hfit ⟨_, _, ht⟩
      (fun r hr => hno r (mem_of_mem_take hr)) (callee_not_stacked hno) (fun _ => hzero) (fun _ =>
        hzero) fun _ => hzero
    rwa [hzero] at hcall
  cases hc with
  | @result q hq =>
    refine ⟨_, (hq.heights hfit hn hready).append ?_, .inl rfl⟩
    exact Nat.zero_add (c.leaves id) ▸ storeCode_heights
  | alloca hk =>
    exact idle (by rw [hk]; rfl) (fun hy => by simpa [hk] using hy.kind) fun _ =>
      .cons (k := 0) rfl rfl
  | noLocal hk | phi hk =>
    exact idle (by rw [hk]; rfl) (fun hy => by simpa [hk] using hy.kind) fun _ => rfl
  | storeWhole hk ho _ hq =>
    refine ⟨some 0, (hready.first_heights ho hq).append (.cons (k := 0) rfl rfl), .inl ?_⟩
    rw [zero fun hy => by simpa [hk] using hy.kind]
  | @store _ v address _ q q' hk ho _ _ hq hq' =>
    refine idle (by rw [hk]; rfl) (fun hy => by simpa [hk] using hy.kind) fun hno => ?_
    refine (hq.heights (hno address (by simp [ho]))).append
      ((hq'.heights (hno v (by simp [ho]))).append ?_)
    exact .cons (k := 0) rfl rfl
  | select hk ho hq hq' hq'' =>
    have hnone : ¬ c.Yields n := fun hy => by simpa [hk] using hy.kind
    exact idle (by rw [hk]; rfl) hnone fun hno =>
      select_heights hq hq' hq'' (ho ▸ hno) (zero hnone) (hown _ (by simp)) (hown _ (by simp))
  | @call type target q hk ht hq =>
    obtain ⟨rfl, hno⟩ := hready.eq_zero (by rw [hk]; rfl)
    refine ⟨_, hq.heights hfit ⟨_, _, ht⟩ (fun r hr =>
      hno r (mem_of_mem_take (dropLast_eq_take ▸ hr))) (callee_not_stacked hno) (fun hr =>
        zero fun hy => hy.result hr) (fun hva => zero fun hy => ?_) fun hv => zero fun hy =>
          ?_, .inl rfl⟩
    · have hkind := hy.kind
      rw [hk] at hkind
      exact hva.elim (hkind.2 target ht).1 (hkind.2 target ht).2
    · have hkind := hy.kind
      rw [hk] at hkind
      rw [hkind.1] at hv
      cases hv
  | invoke hk ht hm hq hq' =>
    obtain ⟨rfl, hno⟩ := hready.eq_zero (by rw [hk]; rfl)
    exact stops (by rw [hk]; rfl) rfl ((invoked hk ht hno hq).append (hq'.heights hfit hz))
  | guarded hk ht hm hu hq hlabel hx hq' =>
    obtain ⟨rfl, hno⟩ := hready.eq_zero (by rw [hk]; rfl)
    refine stops (by rw [hk]; rfl) rfl (guarded_heights hown ?_ (hq.heights hfit)
      (invoked hk ht hno hq') (hlabel.plain hz) (hz.blocks _ (blockIndex?_lt hu)))
    exact hl.sublist (by simp)
  | @jump target q hk hq =>
    obtain ⟨o, ho, ht, hf⟩ : ∃ o, n.kind.opcode? = some o ∧ o.isTerminator = true ∧
        n.kind.firstOperand? = none := by
      cases hk with
      | branch hk | catchRet hk | cleanupRet hk | catchSwitch hk =>
        exact ⟨_, by rw [hk]; rfl, rfl, by rw [hk]; rfl⟩
    obtain ⟨rfl, -⟩ := hready.eq_zero hf
    exact stops ho ht (hq.heights hfit hz)
  | condBranch hk ho hq hlabel hq' =>
    refine stops (by rw [hk]; rfl) rfl ((hready.first_heights ho hq).append
      (.jump (by simp) ?_ rfl (hq'.heights hfit hz)))
    simpa [Op.targets] using hlabel.plain hz
  | switch hk ho _ hq hcases hlabel =>
    refine stops (by rw [hk]; rfl) rfl ((hready.first_heights ho hq).append
      (.jump (by simp) ?_ rfl rfl))
    exact forall_mem_append.mpr ⟨hcases.plain hz, forall_mem_singleton.mpr (hlabel.plain hz)⟩
  | ret hk ho hq =>
    refine stops (by rw [hk]; rfl) rfl ((hready.first_heights ho hq).append
      (.stop (by simp) rfl rfl ?_))
    rw [Op.takes]
    split <;> omega
  | retVoid hk ho hv =>
    refine stops (by rw [hk]; rfl) rfl (.stop (by simp) rfl rfl ?_)
    rw [Op.takes, if_pos (hfit.ret hv)]
    exact Nat.zero_le _
  | pad hk =>
    refine idle (by rcases hk with hk | hk | hk <;> rw [hk] <;> rfl) (fun hy => ?_) fun _ =>
      .cons (k := 0) rfl rfl
    rcases hk with hk | hk | hk <;> simpa [hk] using hy.kind
  | rethrow hk hx =>
    obtain ⟨o, ho, ht, hf⟩ : ∃ o, n.kind.opcode? = some o ∧ o.isTerminator = true ∧
        n.kind.firstOperand? = none := by
      rcases hk with hk | hk <;> exact ⟨_, by rw [hk]; rfl, rfl, by rw [hk]; rfl⟩
    obtain ⟨rfl, -⟩ := hready.eq_zero hf
    exact stops ho ht (.cons (k := 0) rfl (.stop (by simp) rfl rfl (Nat.le_refl _)))
  | unreachable hk => exact stops (by rw [hk]; rfl) rfl (.stop (by simp) rfl rfl (Nat.zero_le _))
  | generic hk hu =>
    exact idle (by rw [hk]; rfl) (fun hy => by simpa [hu] using hy.used) fun _ =>
      .cons (k := 0) rfl rfl

/-! ## Blocks -/

/-- A graph of a function in which results that stay on the stack are there. -/
structure Stacking (p : Program) (m : Method) (c : Context) (s : Flow.Setting) (f : Ssa.Function) :
    Prop where
  shape : ∃ blocks nodes moved, Flow.Shape s f c.graph blocks nodes moved
  regular : f.Regular
  slots : ∃ locals, assignSlots c.declared c.graph = .ok (c.slots, locals)
  fitting : Fitting p m c
  yields : ∀ (id : NodeId) (n : Node), c.graph.node? id = some n → c.leaves id ≠ 0 → c.Yields n

variable {s : Flow.Setting} {f : Ssa.Function} {h : Option Nat} {block : Flow.Block} {i : Nat}
  {waiting : List Trampoline} {code : List Op}

/-- The nodes of a block from one of them on. -/
theorem NodesCode.heights (hs : Stacking p m c s f) (hz : Plain c z m)
    (hb : c.graph.blocks[i]? = some block) {before ids : List NodeId}
    (hi : block.instructions = before ++ ids) (hne : ids ≠ []) (hc : NodesCode c z ids ops rs)
    (hown : Owns m ops rs) (hl : (markedLabels ops).Nodup) :
    ∃ h, Heights p m (some (before.getLast?.elim 0 c.leaves)) ops h ∧ (h = none ∨ h = some 0) := by
  obtain ⟨blocks, nodes, moved, hshape⟩ := hs.shape
  obtain ⟨locals, hslots⟩ := hs.slots
  induction hc generalizing before with
  | nil => exact absurd rfl hne
  | @skip id ids _ _ hn =>
    obtain ⟨n, hn', -⟩ := hshape.placed hb (j := id) (by simp [hi])
    rw [show c.graph.node? id = some n from hn'] at hn
    cases hn
  | @cons id n ids q q' qs qs' hn hq hq' ih =>
    have hready := Context.ready hshape hs.regular hslots hb hi hn
    obtain ⟨x, -, hx⟩ := hshape.computes hn
    obtain ⟨hown, hown'⟩ := hown.append hl hq.stretches hq'.stretches
    rw [Code.markedLabels_append] at hl
    obtain ⟨hl, hl', -⟩ := nodup_append.mp hl
    obtain ⟨h₁, hnode, hends⟩ :=
      hq.heights hs.fitting hz hown hl hn hready (hs.yields id n hn) fun o ho =>
      hx.opcode.trans (hx.opcode_of_kind rfl ho)
    cases ids with
    | nil =>
      cases hq'
      rw [append_nil]
      refine ⟨h₁, hnode, hends.symm.imp And.right fun hh => ?_⟩
      obtain ⟨-, ⟨last, n', hlast, hn', ht, -⟩, -⟩ := hshape.successors i block hb
      rw [hi, getLast?_concat, Option.some.injEq] at hlast
      subst hlast
      cases hn.symm.trans hn'
      have hzero : c.leaves id = 0 := by_contra fun hl => by
        simpa [ht] using (hs.yields id n hn hl).inside
      rw [hh, hzero]
    | cons next ids =>
      have hinside : n.opcode.isTerminator = false := by
        cases ht : n.opcode.isTerminator with
        | false => rfl
        | true =>
          have hnodup := hshape.nodup hb
          have hlast := hshape.eq_last hs.regular hb (by simp [hi]) hn ht
          rw [hi, getLast?_append, getLast?_cons_cons, Option.or_of_isSome (by simp)] at hlast
          rw [hi] at hnodup
          have hnot := (nodup_cons.mp (nodup_append.mp hnodup).2.1).1
          exact absurd (mem_of_getLast? hlast) hnot
      obtain ⟨h₂, hrest, hends'⟩ :=
        ih (show _ = (before ++ [id]) ++ _ by rw [hi]; simp) (by simp) hown' hl'
      rw [getLast?_concat, Option.elim_some] at hrest
      rcases hends with rfl | ⟨ht, -⟩
      · exact ⟨h₂, hnode.append hrest, hends'⟩
      · rw [hinside] at ht
        cases ht

theorem trampolines_heights (hfit : Fitting p m c) (hc : Concat (TrampolineCode c pool) waiting ops)
    (hw : ∀ t ∈ waiting, m.role t.label = .plain ∧ m.role t.target = .plain)
    (hh : h = none ∨ h = some 0) : ∃ h', Heights p m h ops h' ∧ (h' = none ∨ h' = some 0) := by
  induction hc generalizing h with
  | nil => exact ⟨h, rfl, hh⟩
  | @cons t _ _ _ ht _ ih =>
    obtain ⟨q, hq, rfl⟩ := ht
    obtain ⟨⟨hlabel, htarget⟩, hw⟩ := forall_mem_cons.mp hw
    obtain ⟨h', hrest, hh'⟩ := ih hw (.inl rfl)
    have hbranch : Heights p m (some 0) [.branch t.target] none :=
      .jump (by simp) (by simpa [Op.targets] using htarget) rfl rfl
    exact ⟨h', Heights.append (.label hlabel ((hq.heights hfit).append hbranch) hh) hrest, hh'⟩

theorem BlockCode.heights (hs : Stacking p m c s f)
    (hblocks : ∀ i < c.graph.blocks.length, m.role i = .plain)
    (hb : c.graph.blocks[i]? = some block) (hc : BlockCode c z i block ops rs)
    (hown : Owns m ops rs) (hl : (markedLabels ops).Nodup) (hh : h = none ∨ h = some 0) :
    ∃ h', Heights p m h ops h' ∧ (h' = none ∨ h' = some 0) := by
  obtain ⟨waiting, q, q', hwaiting, hq, hq', rfl⟩ := hc
  obtain ⟨_, _, _, hshape⟩ := hs.shape
  rw [← cons_append] at hown hl
  rw [← append_nil rs] at hown
  obtain ⟨hown, hown'⟩ := hown.append hl (hq.stretches.behind [.label i]) (.nil q')
  have hw : ∀ t ∈ waiting, m.role t.label = .plain ∧ m.role t.target = .plain := fun t ht =>
    ⟨hown' _ (by rw [trampolines_marked hq']; exact List.mem_map_of_mem ht),
      hblocks _ (hwaiting t ht).2.lt⟩
  rw [Code.markedLabels_append] at hl
  obtain ⟨h₁, hh₁, hends⟩ :=
    hq.heights hs ⟨hblocks, fun t ht => (hw t ht).1⟩ hb (nil_append _).symm (hshape.nonempty hb)
      (fun l hl => hown l (mem_cons_of_mem _ hl)) (nodup_cons.mp (nodup_append.mp hl).1).2
  obtain ⟨h₂, hh₂, hends⟩ := trampolines_heights hs.fitting hq' hw hends
  exact ⟨h₂, .label (hblocks i (lt_of_getElem? hb)) (hh₁.append hh₂) hh, hends⟩

theorem BlocksCode.heights (hs : Stacking p m c s f)
    (hblocks : ∀ i < c.graph.blocks.length, m.role i = .plain) {bs : List (Flow.Block × Nat)}
    (hbs : ∀ e ∈ bs, c.graph.blocks[e.2]? = some e.1) (hc : BlocksCode c z bs ops rs)
    (hown : Owns m ops rs) (hl : (markedLabels ops).Nodup) (hh : h = none ∨ h = some 0) :
    ∃ h', Heights p m h ops h' := by
  induction hc generalizing h with
  | nil => exact ⟨h, rfl⟩
  | cons hfirst hrest ih =>
    obtain ⟨hb, hbs⟩ := forall_mem_cons.mp hbs
    obtain ⟨code, rfl, hcode⟩ := hfirst.stretches
    obtain ⟨hown, hown'⟩ := hown.append hl (hcode.behind [.label _]) hrest.stretches
    rw [Code.markedLabels_append] at hl
    obtain ⟨hl, hl', -⟩ := nodup_append.mp hl
    obtain ⟨h₁, hh₁, hends⟩ := hfirst.heights hs hblocks hb hown hl hh
    obtain ⟨h₂, hh₂⟩ := ih hbs hown' hl' hends
    exact ⟨h₂, hh₁.append hh₂⟩

end Context

/-- The code of a body keeps to its heights, and its blocks are entered with an empty stack. -/
theorem BodyCode.heights {p : Program} {m : Method} {c : Context} {s : Flow.Setting}
    {f : Ssa.Function} {pool : List Const} (hc : BodyCode c pool m.body) (hs : c.Stacking p m s f) :
    (∃ h, Heights p m (some 0) m.body.ops h) ∧ ∀ i < c.graph.blocks.length, m.role i = .plain := by
  have hblocks : ∀ i < c.graph.blocks.length, m.role i = .plain := by
    obtain ⟨exception, parts, -, -, hregions, hparts⟩ := hc.parts
    refine fun i hi => Code.roleIn_eq_plain fun r hr hmem => ?_
    rw [hregions] at hr
    obtain ⟨part, hpart, hr⟩ := mem_flatMap.mp hr
    obtain ⟨k, hk⟩ := getElem?_of_mem hpart
    obtain ⟨⟨block, -, hblock⟩, hinner⟩ := hparts k part hk
    obtain ⟨_, hcode, hstretches⟩ := hblock.stretches
    cases hcode
    exact absurd (hinner i (hstretches.labels r hr hmem)) (Nat.not_le.mpr hi)
  obtain ⟨exception, -, hcode⟩ := hc.blocks
  exact ⟨hcode.heights hs hblocks (fun e he => by simpa using mk_mem_zipIdx_iff_getElem?.mp he)
    (fun _ _ => rfl) hc.labels (.inr rfl), hblocks⟩

end Stackify.Lower
