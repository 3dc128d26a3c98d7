import Stackify.Proofs.Resolution
import Stackify.Proofs.SoundEmission

/-!
Lowering emits valid code only.

All labels that were created are marked once each, so that a body can be finished when all its
blocks are lowered (`lowerBlocks_finishes`). Protected ranges stand one behind the other in it
(`Stretches`), so that they never cross. Together with the invariant of emission this makes a body
valid wherever the things that it names are those of its module, and a program valid as a whole:

    lower m o = .error err → err.isBytecode = false                         (lower_emits_valid_code)

if every function of `m` has as many parameters as its type says.
-/

namespace Stackify.Code

open List

/-! ## Protected ranges -/

/-- Regions stand one behind the other in code: each protected range with its handler right behind
it. -/
inductive Stretches : List Op → List Region → Prop
  | nil (ops : List Op) : Stretches ops []
  | cons {before body handler after : List Op} {r : Region} {rs : List Region} :
      Stretches after rs → Stretches
        (before ++ .label r.tryStart :: (body ++ .label r.tryEnd :: .label r.handlerStart ::
          (handler ++ .label r.handlerEnd :: after))) (r :: rs)

variable {ops p q : List Op} {rs qs : List Region}

theorem Stretches.behind (h : Stretches q qs) (p : List Op) : Stretches (p ++ q) qs := by
  cases h with
  | nil => exact .nil _
  | cons h =>
    rw [← append_assoc]
    exact .cons h

theorem Stretches.append (h : Stretches p rs) (h' : Stretches q qs) :
    Stretches (p ++ q) (rs ++ qs) := by
  induction h with
  | nil => exact h'.behind _
  | cons _ ih =>
    simp only [append_assoc, cons_append]
    exact .cons ih

theorem Stretches.mem {r : Region} (h : Stretches ops rs) (hr : r ∈ rs) :
    ∃ before body handler after, ops = before ++ .label r.tryStart ::
      (body ++ .label r.tryEnd :: .label r.handlerStart ::
        (handler ++ .label r.handlerEnd :: after)) := by
  induction h with
  | nil => cases hr
  | @cons before body handler _ r' _ _ ih =>
    rcases mem_cons.mp hr with rfl | hr
    · exact ⟨_, _, _, _, rfl⟩
    · obtain ⟨before', body', handler', after', rfl⟩ := ih hr
      exact ⟨before ++ .label r'.tryStart :: (body ++ .label r'.tryEnd :: .label r'.handlerStart ::
        (handler ++ .label r'.handlerEnd :: before')), body', handler', after', by simp⟩

theorem Stretches.labels (h : Stretches ops rs) : ∀ r ∈ rs, r.labels ⊆ markedLabels ops := by
  intro r hr
  obtain ⟨before, body, handler, after, rfl⟩ := h.mem hr
  simp [Region.labels]

/-- One span ends before another one begins. -/
abbrev Before (x y : Nat × Span) : Prop := x.2.2 ≤ y.2.1

theorem crossing?_eq_none {spans : List (Nat × Span)} (h : spans.Pairwise Before) :
    crossing? spans = none := by
  induction h with
  | nil => rfl
  | @cons x spans hx _ ih =>
    obtain ⟨i, a⟩ := x
    rw [crossing?]
    split
    · next j b hfind =>
      have hle : a.2 ≤ b.1 := hx _ (mem_of_find?_eq_some hfind)
      have hoverlaps : a.overlaps b = false := by
        simp only [Span.overlaps, Bool.and_eq_false_iff, decide_eq_false_iff_not]
        omega
      have hcrosses := find?_some hfind
      simp [Span.wellNested, hoverlaps] at hcrosses
    · exact ih

/-- The spans of regions come one behind the other, from a position on. -/
def Spread (code : List Op) (index start : Nat) (rs : List Region) : Prop :=
  ∃ spans, regionSpans code index rs = .ok spans ∧ spans.Pairwise Before ∧
    ∀ x ∈ spans, start ≤ x.2.1

/-- A region whose labels stand in order, in front of the others. -/
theorem Spread.cons {code : List Op} {r : Region} {index start stop s t u v : Nat}
    (hs : position? code r.tryStart = some s) (ht : position? code r.tryEnd = some t)
    (hu : position? code r.handlerStart = some u) (hv : position? code r.handlerEnd = some v)
    (horder : start ≤ s ∧ s ≤ t ∧ t ≤ u ∧ u ≤ v ∧ v ≤ stop)
    (hrest : Spread code (index + 1) stop rs) : Spread code index start (r :: rs) := by
  obtain ⟨spans, hspans, hpairwise, hfrom⟩ := hrest
  have hr : r.spans code = .ok ((s, t), (u, v)) := by
    simp [Region.spans, hs, ht, hu, hv, pure, Except.pure, bind, Except.bind]
  have hordered : (decide (t < s) || decide (v < u)) = false := by
    simp only [Bool.or_eq_false_iff, decide_eq_false_iff_not]
    omega
  have hapart : Span.overlaps (s, t) (u, v) = false := by
    simp only [Span.overlaps, Bool.and_eq_false_iff, decide_eq_false_iff_not]
    omega
  have hbefore {n : Nat} (hn : n ≤ stop) : ∀ x ∈ spans, n ≤ x.2.1 :=
    fun x hx => Nat.le_trans hn (hfrom x hx)
  refine ⟨(index, (s, t)) :: (index, (u, v)) :: spans, ?_, ?_, ?_⟩
  · simp [regionSpans, hr, hordered, hapart, hspans, pure, Except.pure, bind, Except.bind]
  · refine .cons (forall_mem_cons.mpr ⟨horder.2.2.1, hbefore ?_⟩)
      (.cons (hbefore horder.2.2.2.2) hpairwise)
    show t ≤ stop
    omega
  · refine forall_mem_cons.mpr ⟨horder.1, forall_mem_cons.mpr ⟨?_, hbefore (by omega)⟩⟩
    show start ≤ u
    omega

theorem Stretches.spread (h : Stretches ops rs) {code : List Op} (hl : (markedLabels code).Nodup)
    (pre : List Op) (hcode : code = pre ++ ops) (index : Nat) :
    Spread code index pre.length rs := by
  induction h generalizing pre index with
  | nil => exact ⟨[], rfl, .nil, forall_mem_nil _⟩
  | @cons before body handler after r rs _ ih =>
    have stands (a : List Op) (l : Label) (b : List Op) (h : code = a ++ .label l :: b) :
        position? code l = some a.length := by
      rw [h] at hl ⊢
      exact position?_eq_some hl
    have hs :=
      stands (pre ++ before) r.tryStart (body ++ .label r.tryEnd :: .label r.handlerStart ::
        (handler ++ .label r.handlerEnd :: after)) (by simp [hcode])
    have ht :=
      stands (pre ++ before ++ .label r.tryStart :: body) r.tryEnd (.label r.handlerStart ::
        (handler ++ .label r.handlerEnd :: after)) (by simp [hcode])
    have hu :=
      stands (pre ++ before ++ .label r.tryStart :: (body ++ [.label r.tryEnd])) r.handlerStart
        (handler ++ .label r.handlerEnd :: after) (by simp [hcode])
    have hv := stands (pre ++ before ++ .label r.tryStart :: (body ++ .label r.tryEnd ::
      .label r.handlerStart :: handler)) r.handlerEnd after (by simp [hcode])
    have hrest :=
      ih (pre ++ before ++ .label r.tryStart :: (body ++ .label r.tryEnd :: .label r.handlerStart ::
        (handler ++ [.label r.handlerEnd]))) (by simp [hcode]) (index + 1)
    refine .cons hs ht hu hv ?_ hrest
    simp only [length_append, length_cons, length_nil]
    omega

/-- Regions that stand one behind the other have no defect. -/
theorem Stretches.regionDefect?_eq_none {b : Body} (h : Stretches b.ops b.regions)
    (hl : (markedLabels b.ops).Nodup) : regionDefect? b = none := by
  obtain ⟨spans, hspans, hpairwise, -⟩ := h.spread hl [] rfl 0
  rw [regionDefect?, hspans]
  exact crossing?_eq_none hpairwise

end Stackify.Code

namespace Stackify.Lower

open Context (lowerBlocks Grounded)
open Code (Op Const Label Method Body Program Stretches markedLabels position?)
open Stackify.Flow (Graph Node NodeId)
open Ssa (Module Function)
open List Option

/-! ## Bodies -/

namespace Context

variable {c : Context} {z : Surround} {ops : List Op} {rs : List Code.Region}

/-- Only a protected call adds a region, and it does so around its own code. -/
theorem NodeCode.stretches {id : NodeId} {n : Node} (h : NodeCode c z id n ops rs) :
    Stretches ops rs := by
  cases h with
  | @guarded type normal unwind target u x label tryStart tryEnd handlerStart handlerEnd p q =>
    have h := @Stretches.cons p (q ++ [.leave label]) [.storeLocal x, .leave u] [] ⟨tryStart,
        tryEnd, handlerStart, handlerEnd⟩ []
      (.nil _)
    rwa [append_assoc q] at h
  | _ => exact .nil _

theorem NodesCode.stretches {ids : List NodeId} (h : NodesCode c z ids ops rs) :
    Stretches ops rs := by
  induction h with
  | nil => exact .nil _
  | skip _ _ ih => exact ih
  | cons _ hp _ ih => exact hp.stretches.append ih

theorem BlockCode.stretches {i : Nat} {b : Flow.Block} (h : BlockCode c z i b ops rs) :
    ∃ code, ops = .label i :: code ∧ Stretches code rs := by
  obtain ⟨waiting, nodes, trampolines, -, hnodes, -, rfl⟩ := h
  exact ⟨nodes ++ trampolines, rfl, by simpa using hnodes.stretches.append (.nil trampolines)⟩

theorem BlocksCode.stretches {blocks : List (Flow.Block × Nat)} (h : BlocksCode c z blocks ops rs) :
    Stretches ops rs := by
  induction h with
  | nil => exact .nil _
  | cons hb _ ih =>
    obtain ⟨code, rfl, hcode⟩ := hb.stretches
    exact (hcode.behind [.label _]).append ih

end Context

/-- A body in which everything that is named exists, with so many arguments and constants. -/
structure ValidBody (d : Declared) (args consts : Nat) (b : Body) : Prop where
  ranges : ∀ op ∈ b.ops, d.InRange args consts b.locals.length op
  once : (markedLabels b.ops).Nodup
  labels : ∀ l ∈ markedLabels b.ops, l < b.labelCount
  targets : ∀ op ∈ b.ops, op.targets ⊆ markedLabels b.ops
  regions : Code.regionDefect? b = none

variable {d : Declared} {g : Graph} {slots : List Slot} {locals : List Code.Ty}
  {consts : List Const}

/-- All labels of a body are marked once. -/
theorem Appends.finish {e : Emission} {ops : List Op} {x : Extras}
    (h : Appends (fun _ => False) (g.blocks.zipIdx.map Prod.snd)
      { body := { locals, labelCount := g.blocks.length }, consts } e ops x)
    (hblocks : Context.BlocksCode ⟨d, g, slots⟩ e.surround g.blocks.zipIdx ops x.regions) :
    e.body.finish = .ok ⟨e.body.locals, ops, x.regions, e.body.labelCount⟩ ∧
      (markedLabels ops).Nodup ∧ e.body.referenced ⊆ markedLabels ops ∧
        ∀ l ∈ markedLabels ops, l < e.body.labelCount := by
  have hops : e.body.ops = ops := h.ops
  have hregions : e.body.regions = x.regions := h.regions
  obtain ⟨k, hk, hperm⟩ := h.labels
  have hall : (markedLabels ops).Perm (range' 0 e.body.labelCount) := by
    rw [h.none_waits, map_nil, append_nil, zipIdx_map_snd] at hperm
    rw [hk, ← range'_append_1, Nat.zero_add]
    exact hperm
  have hlabel (l : Label) : l ∈ markedLabels ops ↔ l < e.body.labelCount := by
    rw [hall.mem_iff]; simp
  have honce : (markedLabels ops).Nodup := hall.nodup_iff.mpr nodup_range'
  have hreferenced : e.body.referenced ⊆ markedLabels ops := by
    intro l hl
    rw [Code.Assembly.referenced, hops, hregions] at hl
    simp only [mem_append, mem_flatMap] at hl
    obtain ⟨op, hop, hl⟩ | ⟨r, hr, hl⟩ := hl
    · refine (hblocks.targets op hop l hl).elim (fun hblock => (hlabel l).mpr ?_) id
      rw [hk]
      exact Nat.lt_add_right k hblock
    · exact hblocks.stretches.labels r hr hl
  refine ⟨?_, honce, hreferenced, fun l hl => (hlabel l).mp hl⟩
  have hrepeated : Code.Assembly.repeated? [] (markedLabels ops) = none :=
    repeated?_eq_none.mpr ⟨honce, by simp⟩
  have hmarked : (e.body.referenced.find? fun l => !e.body.marked.contains l) = none := by
    refine List.find?_eq_none.mpr fun l hl => ?_
    rw [h.marked]
    simpa using hreferenced hl
  rw [Code.Assembly.finish, hops, hrepeated, hmarked, hregions]

/-- A graph that is lowered gives a body that can be finished and is valid. -/
theorem lowerBlocks_finishes (hc : Grounded ⟨d, g, slots⟩)
    (hs : assignSlots d g = .ok (slots, locals)) {e : Emission}
    (hrun : (lowerBlocks ⟨d, g, slots⟩).run
      { body := { locals, labelCount := g.blocks.length }, consts } = .ok () e) :
    ∃ b, e.body.finish = .ok b ∧ (∀ l ∈ e.body.referenced, (markedLabels b.ops).count l = 1) ∧
      ValidBody d (Context.argSlots ⟨d, g, slots⟩) e.consts.length b := by
  obtain ⟨ops, x, happ, hcode⟩ := (Context.lowerBlocks_emits (Context.alike_own _) rfl).of_ok hrun
  have hblocks := hcode _ e.within_surround
  obtain ⟨hfinish, honce, hreferenced, hlabels⟩ := happ.finish hblocks
  have hlocals : ∀ id i, Context.slot ⟨d, g, slots⟩ id = .inLocal i → i < e.body.locals.length :=
    fun id i h => Nat.lt_of_lt_of_le (Context.slot_lt hs h) happ.locals.length_le
  have hexception : ∀ i, e.exceptionLocal = some i → i < e.body.locals.length := by
    intro i hi
    rcases happ.fresh i hi with h | h
    · cases h
    · exact h.2
  refine ⟨_, hfinish, fun l hl => count_eq_one_of_mem honce (hreferenced hl),
    hblocks.inRange hc hlocals hexception, honce, hlabels, fun op hop l hl => hreferenced ?_,
    Stretches.regionDefect?_eq_none hblocks.stretches honce⟩
  rw [Code.Assembly.referenced, show e.body.ops = ops from happ.ops]
  exact mem_append_left _ (mem_flatMap.mpr ⟨op, hop, hl⟩)

/-! ## Errors -/

/-- A computation gives a result of which `P` holds, or does not fail because of the code. -/
def Yields {α : Type} (x : Except Error α) (P : α → Prop) : Prop :=
  match x with
  | .ok a => P a
  | .error err => err.isBytecode = false

variable {α β : Type} {x : Except Error α} {f : α → Except Error β} {P Q : α → Prop} {R : β → Prop}

theorem Yields.bind (hx : Yields x P) (hf : ∀ a, x = .ok a → P a → Yields (f a) R) :
    Yields (x >>= f) R := by
  cases x with
  | ok a => exact hf a rfl hx
  | error err => exact hx

theorem Yields.mono (hx : Yields x P) (h : ∀ a, P a → Q a) : Yields x Q := by
  cases x with
  | ok a => exact h a hx
  | error err => exact hx

theorem Yields.mapM {g : α → Except Error β} {as : List α} (h : ∀ a ∈ as, Yields (g a) R) :
    Yields (as.mapM g) fun bs => ∀ b ∈ bs, R b := by
  induction as with
  | nil => exact forall_mem_nil _
  | cons a as ih =>
    obtain ⟨ha, has⟩ := forall_mem_cons.mp h
    rw [mapM_cons]
    exact ha.bind fun b _ hb => (ih has).bind fun bs _ hbs => forall_mem_cons.mpr ⟨hb, hbs⟩

theorem lowerGraph_yields (hc : ∀ slots, Grounded ⟨d, g, slots⟩) (consts : List Const) :
    Yields (lowerGraph d consts g).result fun b =>
      ValidBody d (g.function.params.length + g.function.type.variadic.toNat)
        (lowerGraph d consts g).consts.length b := by
  unfold lowerGraph
  split
  · rfl
  · next slots locals hs =>
    extract_lets start
    cases hrun : (lowerBlocks ⟨d, g, slots⟩).run start with
    | error err e => exact (Context.lowerBlocks_emits (Context.alike_own _) rfl).of_error hrun
    | ok a e =>
      obtain ⟨b, hfinish, -, hvalid⟩ := lowerBlocks_finishes (hc slots) hs hrun
      dsimp only
      rw [hfinish]
      exact hvalid

/-! ## Methods -/

theorem ValidBody.mono {args consts consts' : Nat} {b : Body} (h : ValidBody d args consts b)
    (hle : consts ≤ consts') : ValidBody d args consts' b :=
  ⟨fun op hop => (h.ranges op hop).mono hle, h.once, h.labels, h.targets, h.regions⟩

/-- A method with the type of a declared function and a valid body. -/
structure ValidMethod (d : Declared) (consts : Nat) (e : MethodEntry) (m : Method) : Prop where
  type : m.type = e.type
  body : ValidBody d e.type.argSlots consts m.body

/-- A declared function whose graph can be lowered: what it names exists, and it has as many
parameters as its type. -/
structure Declared.Fit (d : Declared) (e : MethodEntry) : Prop where
  grounded : ∀ g, d.graph e = .ok g → ∀ slots, Grounded ⟨d, g, slots⟩
  slots : ∀ g, d.graph e = .ok g →
    e.type.argSlots = g.function.params.length + g.function.type.variadic.toNat

variable {d : Declared} {e : MethodEntry} {consts : List Const}

theorem graph_yields : Yields (d.graph e) fun _ => True := by
  unfold Declared.graph
  extract_lets s
  split
  · trivial
  · rfl

theorem lowerMethod_yields (hd : d.Fit e) :
    Yields (lowerMethod d consts e) fun r =>
      consts.length ≤ r.2.length ∧ ValidMethod d r.2.length e r.1 := by
  refine graph_yields.bind fun g hg _ =>
    (lowerGraph_yields (hd.grounded g hg) consts).bind fun b hb hvalid => ?_
  rw [← hd.slots g hg] at hvalid
  exact ⟨(lowerGraph_code hb).1.isPrefix.length_le, rfl, hvalid⟩

theorem lowerMethods_yields {es : List MethodEntry} (hd : ∀ e ∈ es, d.Fit e) :
    Yields (lowerMethods d consts es) fun r => consts.length ≤ r.2.length ∧
      Forall₂ (ValidMethod d r.2.length) es r.1 := by
  induction es generalizing consts with
  | nil => exact ⟨Nat.le_refl _, .nil⟩
  | cons e es ih =>
    obtain ⟨he, hes⟩ := forall_mem_cons.mp hd
    refine (lowerMethod_yields he).bind fun (m, consts₁) _ hm =>
      (ih hes).bind fun (ms, consts₂) _ hms => ?_
    exact ⟨Nat.le_trans hm.1 hms.1, .cons ⟨hm.2.type, hm.2.body.mono hms.1⟩ hms.2⟩

/-! ## Programs -/

/-- A program has what was declared. -/
structure Hosts (d : Declared) (p : Program) : Prop where
  records : p.records = d.resolver.records
  statics : p.statics = d.statics
  methods : ∀ (i : Nat) (e : MethodEntry), d.methods[i]? = some e → ∃ m, p.methods[i]? = some m ∧
    m.type = e.type

theorem below_eq_none {i n : Nat} {f : Code.Defect} (h : i < n) :
    Code.below i n f = none := if_pos h

variable {p : Program} {m : Method} {op : Op} {source : Module} {o : Options}

/-- What an operation may name exists in the program. -/
theorem Hosts.operandDefect?_eq_none (hp : Hosts d p)
    (h : d.InRange m.type.argSlots p.consts.length m.body.locals.length op) :
    op.operandDefect? p m = none := by
  cases op with
  | loadConst i => exact below_eq_none h
  | loadLocal i | storeLocal i | loadLocalAddress i | initLocal i => exact below_eq_none h
  | loadArg i => exact below_eq_none h
  | loadStaticAddress i => exact below_eq_none (hp.statics ▸ h)
  | loadMethodPointer i =>
    obtain ⟨callee, hcallee, -⟩ := hp.methods i _ (getElem?_eq_getElem h)
    exact below_eq_none (lt_of_getElem? hcallee)
  | fieldAddress id f =>
    obtain ⟨r, hr, hf⟩ := h
    rw [Op.operandDefect?, hp.records, hr]
    exact below_eq_none hf
  | call i n =>
    obtain ⟨e, he, hn⟩ := h
    obtain ⟨callee, hcallee, htype⟩ := hp.methods i e he
    rw [Op.operandDefect?, hcallee]
    exact if_pos (htype ▸ hn)
  | callService s n => exact if_pos h
  | _ => rfl

theorem position?_isSome {ops : List Op} {l : Label} (hl : (markedLabels ops).Nodup)
    (h : l ∈ markedLabels ops) : (position? ops l).isSome := by
  obtain ⟨i, hi⟩ := getElem?_of_mem (Code.mem_markedLabels.mp h)
  rw [Code.position?_of_getElem? hi hl]
  rfl

theorem Hosts.opDefect?_eq_none (hp : Hosts d p)
    (h : ValidBody d m.type.argSlots p.consts.length m.body) (hop : op ∈ m.body.ops) :
    op.defect? p m = none := by
  unfold Op.defect?
  extract_lets outOfRange
  have hlabel : outOfRange = none := by
    unfold outOfRange
    split
    · next l => exact below_eq_none (h.labels l (Code.mem_markedLabels.mpr hop))
    · rfl
  have htargets : (op.targets.find? fun l => (position? m.body.ops l).isNone) = none := by
    refine List.find?_eq_none.mpr fun l hl => ?_
    have hsome := position?_isSome h.once (h.targets op hop hl)
    simpa [isSome_iff_ne_none] using hsome
  rw [hlabel, htargets]
  exact hp.operandDefect?_eq_none (h.ranges op hop)

theorem Hosts.method_defect?_eq_none (hp : Hosts d p)
    (h : ValidBody d m.type.argSlots p.consts.length m.body) : m.defect? p = none := by
  have hops : m.body.ops.findSome? (Op.defect? p m) = none :=
    findSome?_eq_none_iff.mpr fun op hop => hp.opDefect?_eq_none h hop
  rw [Method.defect?, hops]
  exact h.regions

/-- A method that returns a result through a place for it names its arguments, its one local and the
method that it wraps. -/
theorem wrapperMethod_yields (he : d.methods[e.index]? = some e) (consts : Nat) :
    Yields (wrapperMethod d e) fun m => ValidBody d m.type.argSlots consts m.body := by
  unfold wrapperMethod
  split
  · rfl
  · next ret hret =>
    have hops (n : Nat) (op : Op) (hop : op ∈ [Op.initLocal 0, .loadLocalAddress 0] ++
        (List.range n).map Op.loadArg ++ [Op.call e.index e.type.argSlots, .loadLocal 0, .ret]) :
        (∀ l, op ≠ .label l) ∧ op.targets = [] ∧ d.InRange n consts 1 op := by
      simp only [mem_append, mem_cons, not_mem_nil, or_false, List.mem_map, mem_range] at hop
      rcases hop with ((rfl | rfl) | ⟨i, hi, rfl⟩) | rfl | rfl | rfl
      · exact ⟨by simp, rfl, Nat.one_pos⟩
      · exact ⟨by simp, rfl, Nat.one_pos⟩
      · exact ⟨by simp, rfl, hi⟩
      · exact ⟨by simp, rfl, e, he, rfl⟩
      · exact ⟨by simp, rfl, Nat.one_pos⟩
      · exact ⟨by simp, rfl, trivial⟩
    have hmarked (n : Nat) := Code.markedLabels_eq_nil fun op hop => (hops n op hop).1
    refine ⟨fun op hop => (hops _ op hop).2.2, ?_, ?_, fun op hop => ?_, rfl⟩
    · exact hmarked _ ▸ nodup_nil
    · exact hmarked _ ▸ forall_mem_nil _
    · rw [(hops _ op hop).2.1]
      exact nil_subset _

theorem Declaration.at_index (hd : Declaration source o d) (he : e ∈ d.methods) :
    d.methods[e.index]? = some e := by
  obtain ⟨i, hi⟩ := getElem?_of_mem he
  rw [(hd.index hi).1, hi]

/-- The methods of all declared functions, with the wrappers behind them, make up a valid
program. -/
theorem defect?_eq_none_of_fit (hd : Declaration source o d) (hfit : ∀ e ∈ d.methods, d.Fit e)
    {ms wrappers : List Method} (hms : lowerMethods d [] d.methods = .ok (ms, consts))
    (hwrappers : (d.methods.filter (·.wrapper.isSome)).mapM (wrapperMethod d) = .ok wrappers) :
    Program.defect? { name := d.options.moduleName, consts, records :=
                        d.resolver.records, statics := d.statics,
                      methods := ms ++ wrappers } = none := by
  have hyields : Yields (lowerMethods d [] d.methods) _ := lowerMethods_yields hfit
  rw [hms] at hyields
  have hvalid : Forall₂ (ValidMethod d consts.length) d.methods ms := hyields.2
  have hosts : Hosts d { name := d.options.moduleName, consts, records := d.resolver.records,
                         statics := d.statics, methods := ms ++ wrappers } := by
    refine ⟨rfl, rfl, fun i e he => ?_⟩
    obtain ⟨m, hm, hmethod⟩ := forall₂_some_left hvalid he
    exact ⟨m, by rw [getElem?_append_left (lt_of_getElem? hm), hm], hmethod.type⟩
  refine findSome?_eq_none_iff.mpr fun m hm => map_eq_none_iff.mpr ?_
  rcases mem_append.mp hm with hm | hm
  · obtain ⟨i, hi⟩ := getElem?_of_mem hm
    obtain ⟨e, -, hmethod⟩ := forall₂_some_right hvalid hi
    exact hosts.method_defect?_eq_none (hmethod.type ▸ hmethod.body)
  · obtain ⟨i, hi⟩ := getElem?_of_mem hm
    obtain ⟨e, he, hwrapper⟩ := forall₂_some_right (mapM_eq_ok.mp hwrappers) hi
    have hdeclared := (mem_filter.mp (mem_of_getElem? he)).1
    have hyields := wrapperMethod_yields (hd.at_index hdeclared) consts.length
    rw [hwrapper] at hyields
    exact hosts.method_defect?_eq_none hyields

/-! ## Declarations -/

variable {m : Module} {r : Resolve.Resolver} {scope : Name.Scope}

theorem declareStatics_yields {gs : List Ssa.Global} :
    Yields (declareStatics r scope gs) fun statics => statics.length = gs.length := by
  induction gs generalizing scope with
  | nil => rfl
  | cons g gs ih =>
    rw [declareStatics]
    split
    · rfl
    · exact ih.bind fun rest _ hrest => congrArg Nat.succ hrest

theorem declareMethods_yields {index wrapper : Nat} {fs : List Function} :
    Yields (declareMethods o r index wrapper scope fs) fun _ => True := by
  induction fs generalizing index wrapper scope with
  | nil => trivial
  | cons f fs ih =>
    rw [declareMethods]
    split
    · rfl
    · rfl
    · exact ih.bind fun _ _ _ => trivial

theorem declare_yields : Yields (declare m o) fun d => d.statics.length = m.globals.length := by
  unfold declare
  split
  · rfl
  · exact declareStatics_yields.bind fun statics _ hlen =>
      declareMethods_yields.bind fun _ _ _ => hlen

/-- The type of a declared function has a slot for each of its parameters, if the function has as
many as its type. -/
theorem Declaration.argSlots (hd : Declaration m o d) (he : e ∈ d.methods)
    (hm : ∀ f ∈ m.functions, f.params.length = f.type.params.length) :
    e.type.argSlots = e.function.params.length + e.function.type.variadic.toNat := by
  obtain ⟨i, hi⟩ := getElem?_of_mem he
  obtain ⟨f, -, hentry⟩ := forall₂_some_right hd.entries hi
  obtain ⟨hparams, -, hvariadic⟩ :=
    Resolve.Resolver.lookupSignature?_eq_some (hentry.function ▸ hentry.type)
  rw [Code.MethodType.argSlots, ← (forall₂_of_mapM hparams).length_eq, hvariadic,
    hm _ (hd.index hi).2]

/-- What the graphs of a declared module name is there. -/
theorem Declaration.fit (hd : Declaration m o d) (hstatics : d.statics.length = m.globals.length)
    (hm : ∀ f ∈ m.functions, f.params.length = f.type.params.length) (he : e ∈ d.methods) :
    d.Fit e where
  grounded g hg slots := by
    obtain ⟨blocks, nodes, moved, hshape⟩ := Declared.graph_shape hg
    refine ⟨fun name i hi => ?_, fun name e' he' => hd.method he',
      fun id n hn path ty hk record i hfield => ?_⟩
    · obtain ⟨_, hglobal, -⟩ := Flow.lastIndex?_eq_some hi
      rw [hd.source] at hglobal
      exact hstatics ▸ lt_of_getElem? hglobal
    · obtain ⟨x, -, hcomputes⟩ := hshape.computes hn
      obtain ⟨source, -, -, hpath⟩ := hcomputes.address_source hk
      cases Flow.addressPath_selects hpath _ hfield with
      | field ha hi => exact (resolveModule_complete hd.resolved).field ha hi
  slots g hg := by
    obtain ⟨blocks, nodes, moved, hshape⟩ := Declared.graph_shape hg
    rw [hshape.function]
    exact hd.argSlots he hm

/-! ## Modules -/

theorem lowerDeclared_yields (hd : Declaration m o d) (hfit : ∀ e ∈ d.methods, d.Fit e) :
    Yields (lowerDeclared d) fun _ => True := by
  refine (lowerMethods_yields hfit).bind fun (ms, consts) hms _ => ?_
  have hwrappers : Yields ((d.methods.filter (·.wrapper.isSome)).mapM (wrapperMethod d)) fun _ =>
      True := by
    refine (Yields.mapM (R := fun _ => True) fun e he => ?_).mono fun _ _ => trivial
    have hdeclared := (mem_filter.mp he).1
    exact (wrapperMethod_yields (hd.at_index hdeclared) 0).mono fun _ _ => trivial
  refine hwrappers.bind fun wrappers hws _ => ?_
  dsimp only
  rw [defect?_eq_none_of_fit hd hfit hms hws]
  trivial

theorem lower_yields (hm : ∀ f ∈ m.functions, f.params.length = f.type.params.length) :
    Yields (lower m o) fun _ => True := by
  unfold lower
  split
  · rfl
  · refine declare_yields.bind fun d hd hstatics => ?_
    have hd := declare_declaration hd
    exact lowerDeclared_yields hd fun e he => hd.fit hstatics hm he

/-- Lowering never fails because of the code that it emits: if a graph is lowered, then its body can
be finished, and every label that an operation or a region refers to is marked exactly once; if all
of them are, then the program is valid. -/
theorem lower_emits_valid_code (m : Module) (o : Options)
    (hm : ∀ f ∈ m.functions, f.params.length = f.type.params.length) :
    (∀ err, lower m o = .error err → err.isBytecode = false) ∧
      ∀ d, declare m o = .ok d →
        (∀ e ∈ d.methods, ∀ g, d.graph e = .ok g →
          ∀ slots locals, assignSlots d g = .ok (slots, locals) →
            ∀ consts s, (lowerBlocks ⟨d, g, slots⟩).run
              { body := { locals, labelCount := g.blocks.length }, consts } = .ok () s →
          ∃ b, s.body.finish = .ok b ∧ ∀ l ∈ s.body.referenced, (markedLabels b.ops).count l = 1) ∧
        ∀ ms consts wrappers, lowerMethods d [] d.methods = .ok (ms, consts) →
          (d.methods.filter (·.wrapper.isSome)).mapM (wrapperMethod d) = .ok wrappers →
          Program.defect? { name := d.options.moduleName, consts, records := d.resolver.records,
                            statics := d.statics, methods := ms ++ wrappers } = none := by
  refine ⟨fun err herr => ?_, fun d hdeclare => ?_⟩
  · have hyields := lower_yields (o := o) hm
    rw [herr] at hyields
    exact hyields
  · have hd := declare_declaration hdeclare
    have hstatics := declare_yields (m := m) (o := o)
    rw [hdeclare] at hstatics
    have hfit : ∀ e ∈ d.methods, d.Fit e := fun e he => hd.fit hstatics hm he
    refine ⟨fun e he g hg slots locals hs consts s hrun => ?_, fun ms consts wrappers hms hws => ?_⟩
    · obtain ⟨b, hfinish, honce, -⟩ :=
        lowerBlocks_finishes ((hfit e he).grounded g hg slots) hs hrun
      exact ⟨b, hfinish, honce⟩
    · exact defect?_eq_none_of_fit hd hfit hms hws

/-- `make` writes its argument into a field of its result, and into a global; `f` chooses an
argument for it, calls it under protection, and joins the ways without an exception in a phi, one of
them through a trampoline. -/
def guardedPair : Module where
  structs := [⟨"Pair", [.int 32, .int 32], false⟩]
  globals := [{ name := "last", ty := .int 32 }]
  functions :=
    let int (n : Int) : Ssa.Operand := .const (.int (.int 32) n)
    let type : Ssa.FunctionType := ⟨.void, [.pointer, .int 32], false⟩
    [{ name := "make", type,
       params := [{ id := 0, ty := .pointer, attributes := [.structRet (.struct "Pair")] },
         { id := 1, ty := .int 32 }],
       blocks := [{ id := 0, instructions :=
         [{ id := 2, opcode := .getElementPtr, ty := .pointer, operands := [.value 0, int 0, int 1],
            info := .gep (.struct "Pair") true },
          { id := 3, opcode := .store, ty := .void, operands := [.value 1, .value 2] },
          { id := 4, opcode := .store, ty := .void, operands := [.value 1, .global "last"] },
          { id := 5, opcode := .call, ty := .void,
            operands := [.const .null, .const .null, .value 1, .function "_wassert"],
            info := .call ⟨.void, [.pointer, .pointer, .int 32], false⟩ },
          { id := 6, opcode := .ret, ty := .void, operands := [] }] }] },
     { name := "f", type := ⟨.int 32, [.int 32], false⟩, params := [{ id := 0, ty := .int 32 }],
       personality := some "make", blocks :=
       [{ id := 0, instructions :=
          [{ id := 1, opcode := .alloca, ty := .pointer, operands := [], info :=
               .alloca (.struct "Pair") },
           { id := 2, opcode := .icmp, ty := .int 1, operands := [.value 0, int 0], info :=
               .predicate 32 },
           { id := 3, opcode := .select, ty := .int 32, operands := [.value 2, int 5, .value 0] },
           { id := 4, opcode := .br, ty := .void, operands := [.value 2, .block 3, .block 1] }] },
        { id := 1, instructions :=
          [{ id := 5, opcode := .invoke, ty := .void,
             operands := [.value 1, .value 3, .block 2, .block 4, .function "make"], info :=
               .call type }] },
        { id := 2, instructions :=
            [{ id := 6, opcode := .br, ty := .void, operands := [.block 3] }] },
        { id := 3, instructions :=
          [{ id := 7, opcode := .phi, ty := .int 32, operands := [.value 0, .value 3], info :=
               .phi [0, 2] },
           { id := 8, opcode := .ret, ty := .void, operands := [.value 7] }] },
        { id := 4, instructions :=
          [{ id := 9, opcode := .landingPad, ty := .token, operands := [] },
           { id := 10, opcode := .ret, ty := .void, operands := [int 9] }] }] }]

theorem guardedPair_emits_valid_code :
    (∀ f ∈ guardedPair.functions, f.params.length = f.type.params.length) ∧
      (∀ err, lower guardedPair {} = .error err → err.isBytecode = false) ∧
      ∃ d, declare guardedPair {} = .ok d ∧
        (∃ e ∈ d.methods, ∃ g slots locals s b, d.graph e = .ok g ∧
          assignSlots d g = .ok (slots, locals) ∧ (lowerBlocks ⟨d, g, slots⟩).run
            { body := { locals, labelCount := g.blocks.length }, consts := [] } = .ok () s ∧
          s.body.referenced = [5, 6, 7, 1, 3, 2, 4, 3, 8, 9, 10, 11] ∧ s.body.finish = .ok b ∧
          ∀ l ∈ s.body.referenced, (markedLabels b.ops).count l = 1) ∧
        ∃ ms consts wrappers, lowerMethods d [] d.methods = .ok (ms, consts) ∧
          (d.methods.filter (·.wrapper.isSome)).mapM (wrapperMethod d) = .ok wrappers ∧
            wrappers.length = 1 ∧
          Program.defect? { name := d.options.moduleName, consts, records := d.resolver.records,
                            statics := d.statics, methods := ms ++ wrappers } = none := by
  have hm : ∀ f ∈ guardedPair.functions, f.params.length = f.type.params.length := by decide +kernel
  obtain ⟨herrors, hvalid⟩ := lower_emits_valid_code guardedPair {} hm
  obtain ⟨d, hd, hparts⟩ :=
    toOption_map_eq_some.mp (show (declare guardedPair {}).toOption.map (fun d =>
    ((do
        let e ← d.methods[1]?
        let g ← (d.graph e).toOption
        let a ← (assignSlots d g).toOption
        match (lowerBlocks ⟨d, g, a.1⟩).run
          { body := { locals := a.2, labelCount := g.blocks.length }, consts := [] } with
        | .ok _ s => some s.body.referenced
        | .error _ _ => none : Option (List Label)),
      (lowerMethods d [] d.methods).toOption.map fun _ => (),
      ((d.methods.filter (·.wrapper.isSome)).mapM (wrapperMethod d)).toOption.map List.length)) =
        some (some [5, 6, 7, 1, 3, 2, 4, 3, 8, 9, 10, 11], some (), some 1) by decide +kernel)
  obtain ⟨hbody, hrest⟩ := Prod.mk.inj hparts
  obtain ⟨hmethods, hwrappers⟩ := Prod.mk.inj hrest
  obtain ⟨hbodies, hprogram⟩ := hvalid d hd
  refine ⟨hm, herrors, d, hd, ?_, ?_⟩
  · obtain ⟨e, he, hbody⟩ := bind_eq_some_iff.mp hbody
    obtain ⟨g, hg, hbody⟩ := bind_eq_some_iff.mp hbody
    obtain ⟨⟨slots, locals⟩, hs, hbody⟩ := bind_eq_some_iff.mp hbody
    have hg := toOption_eq_some.mp hg
    have hs := toOption_eq_some.mp hs
    have he := mem_of_getElem? he
    dsimp only at hbody
    split at hbody
    · next s hrun =>
      obtain ⟨b, hfinish, honce⟩ := hbodies e he g hg slots locals hs [] s hrun
      exact ⟨e, he, g, slots, locals, s, b, hg, hs, hrun, some.inj hbody, hfinish, honce⟩
    · cases hbody
  · obtain ⟨⟨ms, consts⟩, hms, -⟩ := toOption_map_eq_some.mp hmethods
    obtain ⟨wrappers, hws, hlength⟩ := toOption_map_eq_some.mp hwrappers
    exact ⟨ms, consts, wrappers, hms, hws, hlength, hprogram ms consts wrappers hms hws⟩

end Stackify.Lower
