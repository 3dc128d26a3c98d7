import Stackify.Proofs.Confinement
import Stackify.Proofs.EdgeMeaning
import Stackify.Proofs.NodeRuns

/-!
Runs along the edges between blocks.

- `CopyCode.does`: the copies on an edge give phis what they take along it, all at once;
- `JumpCode.steps`, `LeadsTo.steps`: a jump, or a label, leads to the block with its phis up to
  date, be it through a trampoline;
- `NodeCode.exits`: the last node of a block goes on to a block, or out of the method.
-/

namespace Stackify.Lower

open Code (Op Label Method Program position? blockAt)
open Machine (Value State Data Does CodeAt Steps step execute jump_steps)
open Stackify.Flow (Node NodeId Ref Valuation Takes Exits Chooses)
open Ssa (Function Word BlockId ValueId Exit)
open List

namespace Context

variable {p : Program} {m : Method} {c : Context} {f : Function} {s : State} {ν : Valuation}
  {locals stack : List Value} {ops : List Op} {source target pc pc' : Nat} {id : BlockId}
  {values : List (ValueId × Word)}

/-! ## Copies -/

variable {phis : List (NodeId × List (Nat × Ref))} {into : List Nat} {rs : List Code.Region}
  {b : Flow.Block} {i : Nat} {w : Word} {k : Int} {default : BlockId} {cases : List (Int × BlockId)}
  {labels : List (Int × Label)}

theorem Incoming.does (h : Translated p m c f) (hm : p.methods[s.current.method]? = some m)
    (hi : Incoming c p.consts source phis into ops) (ht : Takes c.graph ν source phis values)
    (hh : Holds c s.current.args ν locals) :
    Does p m s ops ⟨locals, stack⟩ ⟨locals, (values.map fun v => v.2.value).reverse ++ stack⟩ := by
  induction hi generalizing values stack with
  | nil =>
    cases ht
    exact .nil _
  | @cons _ _ j _ r _ _ _ _ hr _ hp _ ih =>
    obtain _ | ⟨⟨n, sources, hn, hk, -, -, hread⟩, ht⟩ := ht
    obtain ⟨_, _, _, _, hshape⟩ := h.shape
    obtain ⟨_, hslots, -⟩ := h.body.slots
    have hs := phi_not_stacked hshape hslots hn hk (j, r) (mem_of_find?_eq_some hr)
    rw [map_cons, reverse_cons, append_assoc]
    exact (hp.does h hm hh (hread j r hr) hs).append (ih ht)

/-- What was pushed last is stored first, so that the first of the phis wins like in an
assignment. -/
theorem Incoming.stores (h : Translated p m c f) (hm : p.methods[s.current.method]? = some m)
    (hi : Incoming c p.consts source phis into ops) (ht : Takes c.graph ν source phis values)
    (hh : Holds c s.current.args ν locals) :
    ∃ locals', Holds c s.current.args (ν.assign values) locals' ∧ ∀ stack,
      Does p m s (into.reverse.map .storeLocal) ⟨locals, (values.map fun v => v.2.value).reverse ++
        stack⟩ ⟨locals', stack⟩ := by
  induction hi generalizing values with
  | nil =>
    cases ht
    exact ⟨locals, hh, fun _ => .nil _⟩
  | @cons id i _ _ _ _ _ _ _ _ hslot _ _ ih =>
    obtain _ | @⟨_, v, _, values, ⟨n, sources, hn, hk, hkey, hty, -⟩, ht⟩ := ht
    obtain ⟨locals', hholds, hdoes⟩ := ih ht
    refine ⟨locals'.set i v.2.value, ?_, fun stack => ?_⟩
    · rw [Valuation.assign_cons, ← hkey]
      exact hholds.store h hn hty (by simp [hk]) hslot
    · simp only [map_cons, map_nil, reverse_cons, map_append, append_assoc]
      exact (hdoes _).append (Machine.does_storeLocal hm (hholds.room id i hslot))

/-- The copies on an edge give phis what they take along it. -/
theorem CopyCode.does (h : Translated p m c f) (hm : p.methods[s.current.method]? = some m)
    (hc : CopyCode c p.consts source target ops)
    (ht : Takes c.graph ν source (c.phis target) values) (hh : Holds c s.current.args ν locals) :
    ∃ locals', Holds c s.current.args (ν.assign values) locals' ∧
      Does p m s ops ⟨locals, []⟩ ⟨locals', []⟩ := by
  obtain ⟨into, q, hi, rfl⟩ := hc
  obtain ⟨locals', hholds, hdoes⟩ := hi.stores h hm ht hh
  exact ⟨locals', hholds, (hi.does h hm ht hh).append (hdoes [])⟩

/-! ## Places of code -/

theorem Concat.at_mem {α : Type} {P : α → List Op → Prop} {as : List α} {a : α}
    (hc : Concat P as ops) (hat : CodeAt m pc ops) (ha : a ∈ as) :
    ∃ pc ops, CodeAt m pc ops ∧ P a ops := by
  induction hc generalizing pc with
  | nil => cases ha
  | cons hfirst _ ih =>
    rcases mem_cons.mp ha with rfl | ha
    · exact ⟨pc, _, hat.left, hfirst⟩
    · exact ih hat.right ha

theorem NodesCode.append {z : Surround} {ids ids' : List NodeId}
    (hc : NodesCode c z (ids ++ ids') ops rs) :
    ∃ q q' qs qs', NodesCode c z ids q qs ∧ NodesCode c z ids' q' qs' ∧ ops = q ++ q' := by
  induction ids generalizing ops rs with
  | nil => exact ⟨[], ops, [], rs, .nil, hc, rfl⟩
  | cons id ids ih =>
    obtain _ | ⟨hn, hrest⟩ | ⟨hn, hfirst, hrest⟩ := hc
    · obtain ⟨q, q', qs, qs', hq, hq', rfl⟩ := ih hrest
      exact ⟨q, q', qs, qs', .skip hn hq, hq', rfl⟩
    · obtain ⟨q, q', qs, qs', hq, hq', rfl⟩ := ih hrest
      exact ⟨_, q', _, qs', .cons hn hfirst hq, hq', (append_assoc _ _ _).symm⟩

/-- The code of a block stands behind its label, and that is where the block is. -/
theorem block_code (hc : BodyCode c p.consts m.body) (hb : c.graph.blocks[i]? = some b) :
    ∃ exception pc code rs, CodeAt m pc (.label i :: code) ∧
      BlockCode c ⟨p.consts, [], exception⟩ i b (.label i :: code) rs ∧
        position? m.body.ops i = some pc ∧
          ∀ k ≤ code.length, blockAt c.graph.blocks.length m.body.ops (pc + k) = some i := by
  obtain ⟨exception, parts, hlen, hops, -, hparts⟩ := hc.parts
  have hcount : i < c.graph.blocks.length := lt_of_getElem? hb
  obtain ⟨part, hi⟩ : ∃ part, parts[i]? = some part := ⟨_, getElem?_eq_getElem (hlen ▸ hcount)⟩
  obtain ⟨⟨b', hb', hcode⟩, hinner⟩ := hparts i part hi
  cases hb.symm.trans hb'
  obtain ⟨front, back, hsplit⟩ :=
    Code.joined_split (getElem?_range hcount) (show (parts.map Prod.fst)[i]? =
      some part.1 by simp [hi])
  have hat : CodeAt m front.length (.label i :: part.1) :=
    ⟨back, by rw [hops, hsplit, drop_left]; rfl⟩
  exact ⟨exception, front.length, part.1, part.2, hat, hcode, hat.position hc.labels,
    fun k hk => Code.blockAt_eq_of_split (hops.trans hsplit) hcount hinner hk⟩

/-- A method begins with its first block. -/
theorem first_at (h : Translated p m c f) (hb : c.graph.blocks[0]? = some b) :
    position? m.body.ops 0 = some 0 := by
  obtain ⟨_, parts, hlen, hops, -, -⟩ := h.body.parts
  refine Code.position?_of_getElem? ?_ h.body.labels
  rw [hops, ← hlen]
  exact Code.joined_head (hlen ▸ lt_of_getElem? hb)

/-! ## Jumps -/

theorem JumpCode.steps (h : Translated p m c f) (hm : p.methods[s.current.method]? = some m)
    (hj : JumpCode c p.consts source id ops) (hat : CodeAt m pc ops)
    (hid : c.graph.blockIndex? id = some target) (hpos : position? m.body.ops target = some pc')
    (ht : Takes c.graph ν source (c.phis target) values) (hh : Holds c s.current.args ν locals) :
    ∃ locals', Holds c s.current.args (ν.assign values) locals' ∧ Steps p (s.at ⟨locals, []⟩ pc)
      (s.at ⟨locals', []⟩ pc') := by
  obtain ⟨_, q, hid', hq, rfl⟩ := hj
  cases hid.symm.trans hid'
  obtain ⟨locals', hholds, hdoes⟩ := hq.does h hm ht hh
  exact ⟨locals', hholds, (hdoes pc hat.left).trans (jump_steps hm hat.right.head rfl hpos)⟩

/-- The trampolines that code refers to are in the method. -/
def Standing (c : Context) (p : Program) (m : Method) (z : Surround) : Prop :=
  ∀ t ∈ z.trampolines, ∃ pc ops, CodeAt m pc ops ∧ TrampolineCode c p.consts t ops

variable {z : Surround} {label : Label}

theorem LeadsTo.steps (h : Translated p m c f) (hm : p.methods[s.current.method]? = some m)
    (hz : Standing c p m z) (hl : LeadsTo c z source id label)
    (hid : c.graph.blockIndex? id = some target) (hpos : position? m.body.ops target = some pc')
    (ht : Takes c.graph ν source (c.phis target) values) (hh : Holds c s.current.args ν locals) :
    ∃ pc locals', position? m.body.ops label = some pc ∧ Holds c s.current.args
      (ν.assign values) locals' ∧ Steps p (s.at ⟨locals, []⟩ pc) (s.at ⟨locals', []⟩ pc') := by
  obtain ⟨_, hid', hl⟩ := hl
  cases hid.symm.trans hid'
  rcases hl with ⟨hempty, rfl⟩ | hmem
  · rw [List.isEmpty_iff.mp hempty] at ht
    cases ht
    exact ⟨pc', locals, hpos, hh, Steps.refl p _⟩
  · obtain ⟨pc, _, hat, q, hq, rfl⟩ := hz _ hmem
    obtain ⟨locals', hholds, hdoes⟩ := hq.does h hm ht hh
    have hlabel := Machine.does_label (a := ⟨locals, []⟩) hm label pc (CodeAt.left (a := [_]) hat)
    exact ⟨pc, locals', hat.position h.body.labels, hholds,
      hlabel.trans ((hdoes _ hat.tail.left).trans
        (jump_steps hm hat.tail.right.head rfl hpos))⟩

/-! ## Cases -/

theorem exists_toInt? (w : Word) : ∃ k, w.value.toInt? = some k := by
  obtain ⟨t, x⟩ := w
  cases t <;> exact ⟨_, rfl⟩

/-- A case is taken as a number where it is taken as a word. -/
theorem caseValue_eq_iff {n : Int} (hk : w.value.toInt? = some k)
    (hbit : w.ty = .i1 → n = 0 ∨ n = 1) : caseValue w.ty.kind n = k ↔ .ofInt w.ty n = w := by
  obtain ⟨t, x⟩ := w
  cases t with
  | i1 =>
    cases hk
    rcases hbit rfl with rfl | rfl <;> rcases BitVec.eq_zero_or_eq_one x with rfl | rfl <;> decide
  | _ =>
    cases hk
    simp only [caseValue, Ssa.IntTy.kind, Code.Width.wrap_eq, Word.ofInt, Word.mk.injEq,
      heq_eq_eq, true_and]
    exact BitVec.toInt_inj

/-- The label of the case that is taken leads to its target. -/
theorem CaseLabels.leadsTo {target : BlockId} (hc : CaseLabels c z source w.ty.kind cases labels)
    (hw : Chooses w default cases target) (hl : LeadsTo c z source default label)
    (hk : w.value.toInt? = some k) : LeadsTo c z source target ((labels.lookup k).getD label) := by
  induction hw generalizing labels with
  | default =>
    cases hc
    exact hl
  | found hbit heq =>
    obtain _ | ⟨hfirst, -⟩ := hc
    have hcase := (caseValue_eq_iff hk hbit).mpr heq
    rw [lookup_cons, beq_iff_eq.mpr hcase.symm]
    exact hfirst
  | skip hbit hne _ ih =>
    obtain _ | ⟨-, hrest⟩ := hc
    have hcase := mt (caseValue_eq_iff hk hbit).mp hne
    rw [lookup_cons, beq_eq_false_iff_ne.mpr (Ne.symm hcase)]
    exact ih hrest

/-! ## Ends of blocks -/

/-- What becomes of a run that leaves the block at a position. -/
def Reaches (p : Program) (m : Method) (c : Context) (s : State) (ν : Valuation) (source : Nat)
    (start : State) : Exit → Prop
  | .jump id =>
    ∀ target pc values, c.graph.blockIndex? id = some target →
      position? m.body.ops target = some pc → Takes c.graph ν source (c.phis target) values →
      ∃ locals, Holds c s.current.args (ν.assign values) locals ∧
        Steps p start (s.at ⟨locals, []⟩ pc)
  | .ret v => m.type.ret.isVoid = v.isNone → s.callers = [] →
      ∃ t, Steps p start t ∧ step p t = .finished s.world (.ok (v.map Word.value))

variable {n : Node} {previous : Option NodeId} {q : List Op} {r : Ref} {rest : List Ref}

theorem condBranch_reaches (h : Translated p m c f) (hm : p.methods[s.current.method]? = some m)
    (hf : Follows c previous n) (hh : Holds c s.current.args ν locals) (hz : Standing c p m z)
    {yes no : BlockId} {b : BitVec 1} (ho : n.operands = r :: rest) (hr : ν.read r = some ⟨.i1, b⟩)
    (hp : Pushes c p.consts r q) (hl : LeadsTo c z source yes label)
    (hj : JumpCode c p.consts source no ops) (hat : CodeAt m pc (q ++ .branchTrue label :: ops)) :
    Reaches p m c s ν source (s.at ⟨locals, c.leftover ν previous⟩ pc)
      (.jump (if b = 1 then yes else no)) := by
  intro target pc' values hid hpos ht
  have hpush := hf.first_does h hm ho hp hh hr pc hat.left
  have hcond : (Word.value ⟨.i1, b⟩).truth? = some (b == 1#1) := rfl
  by_cases hb : b = 1
  · rw [if_pos hb] at hid
    rw [show (b == 1#1) = true from beq_iff_eq.mpr hb] at hcond
    obtain ⟨pcl, locals', hposl, hholds, hsteps⟩ := hl.steps h hm hz hid hpos ht hh
    refine ⟨locals', hholds, hpush.trans (Steps.trans ?_ hsteps)⟩
    exact jump_steps hm hat.right.head (Machine.branchIf_at hcond true label) hposl
  · rw [if_neg hb] at hid
    rw [show (b == 1#1) = false from beq_eq_false_iff_ne.mpr hb] at hcond
    obtain ⟨locals', hholds, hsteps⟩ := hj.steps h hm hat.right.tail hid hpos ht hh
    refine ⟨locals', hholds, hpush.trans (Steps.trans ?_ hsteps)⟩
    exact Machine.next_steps hm hat.right.head (Machine.branchIf_at hcond true label)

theorem switch_reaches (h : Translated p m c f) (hm : p.methods[s.current.method]? = some m)
    (hf : Follows c previous n) (hh : Holds c s.current.args ν locals) (hz : Standing c p m z)
    (ho : n.operands = r :: rest) (hr : ν.read r = some w) (hp : Pushes c p.consts r q)
    (hc : CaseLabels c z source w.ty.kind cases labels) (hw : Chooses w default cases id)
    (hl : LeadsTo c z source default label) (hat : CodeAt m pc (q ++ [.switchValue labels label])) :
    Reaches p m c s ν source (s.at ⟨locals, c.leftover ν previous⟩ pc) (.jump id) := by
  intro target pc' values hid hpos ht
  obtain ⟨k, hk⟩ := exists_toInt? w
  obtain ⟨pcl, locals', hposl, hholds, hsteps⟩ := (hc.leadsTo hw hl hk).steps h hm hz hid hpos ht hh
  refine ⟨locals', hholds, (hf.first_does h hm ho hp hh hr pc hat.left).trans
    (Steps.trans ?_ hsteps)⟩
  refine jump_steps hm hat.right.head ?_ hposl
  rw [Machine.execute, Machine.State.pop_cons rfl, hk]
  rfl

theorem ret_step (hm : p.methods[s.current.method]? = some m) {v : Option Word}
    (ho : m.body.ops[pc]? = some .ret) (hv : m.type.ret.isVoid = v.isNone) (hs : s.callers = [])
    (hstack : ∀ w ∈ v, stack = [w.value]) :
    step p (s.at ⟨locals, stack⟩ pc) = .finished s.world (.ok (v.map Word.value)) := by
  have hs' (d : Data) : (s.at d pc).callers = [] := hs
  have hret : execute p m (s.at ⟨locals, stack⟩ pc) .ret =
      .ret (s.at ⟨locals, if v.isNone then stack else []⟩ pc) (v.map Word.value) := by
    show (if m.type.ret.isVoid then _ else _) = _
    rw [hv]
    cases v with
    | none => rfl
    | some w =>
      rw [hstack w rfl]
      rfl
  rw [Machine.step_at hm ho, hret, Machine.Action.outcome, hs']
  rfl

/-- The last node of a block goes on to a block or out of the method. -/
theorem NodeCode.exits (h : Translated p m c f) (hm : p.methods[s.current.method]? = some m)
    (hf : Follows c previous n) (hh : Holds c s.current.args ν locals)
    (hconsts : z.consts = p.consts) (hz : Standing c p m z) {id : NodeId} {e : Exit}
    (he : Exits ν n e) (hc : NodeCode c z id n ops rs) (hat : CodeAt m pc ops) :
    Reaches p m c s ν n.block (s.at ⟨locals, c.leftover ν previous⟩ pc) e := by
  have hexit := he.isExit
  cases hc with
  | jump hk hj =>
    cases hk with
    | branch hk =>
      cases he with
      | branch hk' =>
        cases hk.symm.trans hk'
        intro target pc' values hid hpos ht
        rw [(hf.leftover_eq_nil (by rw [hk]; rfl)).1]
        exact JumpCode.steps h hm (hconsts ▸ hj) hat hid hpos ht hh
      | condBranch hk' | switch hk' | ret hk' | retVoid hk' => cases hk.symm.trans hk'
    | catchRet hk | cleanupRet hk | catchSwitch hk =>
      rw [hk] at hexit
      cases hexit
  | condBranch hk ho hp hl hj =>
    cases he with
    | condBranch hk' ho' hr =>
      cases hk.symm.trans hk'
      cases ho.symm.trans ho'
      exact condBranch_reaches h hm hf hh hz ho hr (hconsts ▸ hp) hl (hconsts ▸ hj) hat
    | branch hk' | switch hk' | ret hk' | retVoid hk' => cases hk.symm.trans hk'
  | switch hk ho hkind hp hcases hl =>
    cases he with
    | switch hk' ho' hr hw =>
      cases hk.symm.trans hk'
      cases ho.symm.trans ho'
      rw [hconsts] at hp
      exact switch_reaches h hm hf hh hz ho hr hp (h.numKind (hp.operandType hh hr) hkind ▸
        hcases) hw hl hat
    | branch hk' | condBranch hk' | ret hk' | retVoid hk' => cases hk.symm.trans hk'
  | ret hk ho hp =>
    cases he with
    | ret hk' ho' hr =>
      cases ho.symm.trans ho'
      intro hv hs
      refine ⟨_, hf.first_does h hm ho (hconsts ▸ hp) hh hr pc hat.left,
        ret_step hm hat.right.head hv hs ?_⟩
      rintro _ ⟨⟩
      rfl
    | retVoid hk' ho' => cases ho.symm.trans ho'
    | branch hk' | condBranch hk' | switch hk' => cases hk.symm.trans hk'
  | retVoid hk ho =>
    cases he with
    | retVoid => exact fun hv hs => ⟨_, Steps.refl p _, ret_step hm hat.head hv hs (by simp)⟩
    | ret hk' ho' => cases ho.symm.trans ho'
    | branch hk' | condBranch hk' | switch hk' => cases hk.symm.trans hk'
  | result hc => cases hc with
    | same hk => rcases hk with hk | hk <;> rw [hk] at hexit <;> cases hexit
    | _ =>
      rw [‹n.kind = _›] at hexit
      cases hexit
  | pad hk => rcases hk with hk | hk | hk <;> rw [hk] at hexit <;> cases hexit
  | rethrow hk => rcases hk with hk | hk <;> rw [hk] at hexit <;> cases hexit
  | _ =>
    rw [‹n.kind = _›] at hexit
    cases hexit

end Context

end Stackify.Lower
