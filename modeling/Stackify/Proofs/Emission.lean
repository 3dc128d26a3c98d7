import Stackify.Lower.Program
import Stackify.Proofs.Labels
import Stackify.Proofs.Success
import Mathlib.Data.List.Perm.Basic

/-!
Emission as a relation between what is lowered and the code that comes out of it.

`Emits b opened x x' Q` says that `x` either fails with an error that `b` admits, or only adds to
what was emitted before, and that `Q` holds of the code it adds. The code refers to things that
later code may still add to, namely constants, trampolines and the local for exceptions. They are
gathered in a `Surround`, and `Q` has to hold for every one that includes what there was when `x`
finished. In that way specifications of parts hold of the finished body.

Unless `x` fails, `x'` does the same. As a rule, they lower the same thing for a function in its own
module and in another one that has all that the function finds in its own (`Alike`): what a function
becomes depends on nothing else.

Labels are accounted for on the way. Those that `x` creates are marked once each, in its code or by
the trampolines it leaves behind, and so are the `opened` ones, which were created before for `x` to
mark.

- `Emits.bind`: the code of a sequence is the code of its parts, one after the other;
- `pushOperand_emits`, `storeResult_emits`: how operands reach the stack and where results go;
- `edgeLabel_bind`, `copiesInto_emits`, `jump_emits`: how control moves along an edge.
-/

namespace Stackify.Flow

/-- The operand that a step of an address computation reads. -/
def AddressStep.index? : AddressStep → Option Ref
  | .stride _ index | .element _ index => some index
  | .field _ _ => none

/-- The type over whose objects a step moves. -/
def AddressStep.element? : AddressStep → Option Ssa.Ty
  | .stride ty _ | .element ty _ => some ty
  | .field _ _ => none

end Stackify.Flow

namespace Stackify.Lower

open Code (Op Const Label NumKind markedLabels intern)
open Stackify.Flow (Node NodeId Ref Key Location)
open Ssa (BlockId Constant Ty)
open List

/-- Whether an error is about the code that was emitted. -/
def Error.isBytecode : Error → Bool
  | .labels _ | .invalid _ _ => true
  | _ => false

/-- Whether an error is neither about the code nor about a type without a counterpart. -/
def Error.isOther : Error → Bool
  | .labels _ | .invalid _ _ | .structural ⟨_, .unregisteredType _⟩ => false
  | _ => true

/-- Where trampolines may lead, and which errors may occur. -/
structure Bounds where
  aims : Nat → Prop
  fails : Error → Prop
  other : ∀ {err : Error}, err.isOther = true → fails err

/-- All errors may occur but those about the code, and no trampoline is left. -/
def Bounds.own : Bounds where
  aims _ := False
  fails err := err.isBytecode = false
  other {err} h := by
    cases err with
    | labels | invalid => cases h
    | _ => rfl

def Bounds.aiming (b : Bounds) (aim : Nat → Prop) : Bounds := { b with aims := aim }

/-! ## Growth -/

/-- The second pool comes from the first one by interning constants. -/
def Grows : List Const → List Const → Prop := Relation.ReflTransGen fun pool pool' =>
    ∃ k, pool' = (intern pool k).2

theorem intern_grows (pool : List Const) (k : Const) : Grows pool (intern pool k).2 :=
  .single ⟨k, rfl⟩

/-- Interning finds an equal constant, or appends. -/
theorem intern_cases (pool : List Const) (k : Const) :
    (∃ i k', intern pool k = (i, pool) ∧ pool[i]? = some k' ∧ k'.same k = true) ∨
      intern pool k = (pool.length, pool ++ [k]) ∧ ∀ k' ∈ pool, k'.same k = false := by
  unfold intern
  cases h : pool.findIdx? (·.same k) with
  | none => exact .inr ⟨rfl, findIdx?_eq_none_iff.mp h⟩
  | some i =>
    obtain ⟨hi, hs, -⟩ := findIdx?_eq_some_iff_getElem.mp h
    exact .inl ⟨i, pool[i], rfl, getElem?_eq_getElem hi, hs⟩

theorem intern_prefix (pool : List Const) (k : Const) : pool <+: (intern pool k).2 := by
  obtain ⟨i, k', h, -⟩ | ⟨h, -⟩ := intern_cases pool k
  · simp [h]
  · simp [h]

theorem Grows.isPrefix {pool pool' : List Const} (h : Grows pool pool') : pool <+: pool' := by
  induction h with
  | refl => exact prefix_rfl
  | tail _ hstep ih =>
    obtain ⟨k, rfl⟩ := hstep
    exact ih.trans <| intern_prefix _ k

/-- What code refers to outside itself. -/
structure Surround where
  consts : List Const
  trampolines : List Trampoline
  exception : Option Nat

structure Emission.Within (e : Emission) (z : Surround) : Prop where
  consts : e.consts <+: z.consts
  trampolines : e.trampolines <+: z.trampolines
  exception : ∀ i, e.exceptionLocal = some i → z.exception = some i

def Emission.surround (e : Emission) : Surround := ⟨e.consts, e.trampolines, e.exceptionLocal⟩

theorem Emission.within_surround (e : Emission) : e.Within e.surround :=
  ⟨prefix_rfl, prefix_rfl, fun _ h => h⟩

/-- What comes with operations: ranges that they protect, and trampolines to be placed behind the
block. -/
structure Extras where
  regions : List Code.Region := []
  trampolines : List Trampoline := []

instance : Append Extras := ⟨fun x y => ⟨x.regions ++ y.regions, x.trampolines ++ y.trampolines⟩⟩

/-- The second emission is the first one with more code at its end. New trampolines lead to blocks
that `aim` says. -/
structure Appends (aim : Nat → Prop) (opened : List Label) (e e' : Emission) (p : List Op)
    (x : Extras) : Prop where
  ops : e'.body.ops = e.body.ops ++ p
  regions : e'.body.regions = e.body.regions ++ x.regions
  trampolines : e'.trampolines = e.trampolines ++ x.trampolines
  aims : ∀ t ∈ x.trampolines, aim t.target
  locals : e.body.locals <+: e'.body.locals
  consts : Grows e.consts e'.consts
  exception : ∀ i, e.exceptionLocal = some i → e'.exceptionLocal = some i
  /-- A new local for exceptions stands behind the locals that were there. -/
  fresh : ∀ i, e'.exceptionLocal = some i →
    e.exceptionLocal = some i ∨ e.body.locals.length ≤ i ∧ i < e'.body.locals.length
  marked : e'.body.marked = (markedLabels p).reverse ++ e.body.marked
  /-- What is marked, now or by trampolines, are the labels that were opened and those that are
  new. -/
  labels : ∃ k, e'.body.labelCount = e.body.labelCount + k ∧
    (markedLabels p ++ x.trampolines.map Trampoline.label).Perm
    (opened ++ range' e.body.labelCount k)

variable {aim : Nat → Prop} {opened opened' : List Label} {e e₀ e₁ e₂ : Emission} {p q : List Op}
  {x y : Extras}

theorem Appends.trans (h : Appends aim opened e₀ e₁ p x) (h' : Appends aim opened' e₁ e₂ q y) :
    Appends aim (opened ++ opened') e₀ e₂ (p ++ q) (x ++ y) where
  ops := by rw [h'.ops, h.ops, append_assoc]
  regions := by rw [h'.regions, h.regions, append_assoc]; rfl
  trampolines := by rw [h'.trampolines, h.trampolines, append_assoc]; rfl
  aims := forall_mem_append.mpr ⟨h.aims, h'.aims⟩
  locals := h.locals.trans h'.locals
  consts := h.consts.trans h'.consts
  exception i hi := h'.exception i (h.exception i hi)
  fresh i hi := by
    have hlocals := h.locals.length_le
    have hlocals' := h'.locals.length_le
    rcases h'.fresh i hi with hi | hi
    · exact (h.fresh i hi).imp_right fun hi => ⟨hi.1, by omega⟩
    · exact .inr ⟨by omega, hi.2⟩
  marked := by rw [h'.marked, h.marked, Code.markedLabels_append, reverse_append, append_assoc]
  labels := by
    obtain ⟨k, hk, hperm⟩ := h.labels
    obtain ⟨k', hk', hperm'⟩ := h'.labels
    refine ⟨k + k', by omega, perm_iff_count.mpr fun l => ?_⟩
    have hcount := hperm.count_eq l
    have hcount' := hperm'.count_eq l
    rw [hk] at hcount'
    show List.count l (markedLabels (p ++ q) ++ (x.trampolines ++ y.trampolines).map
      Trampoline.label) = _
    rw [← range'_append_1]
    simp only [count_append, Code.markedLabels_append, map_append] at hcount hcount' ⊢
    omega

theorem Appends.within {z : Surround} (h : Appends aim opened e₀ e₁ p x) (hz : e₁.Within z) :
    e₀.Within z where
  consts := h.consts.isPrefix.trans hz.consts
  trampolines := IsPrefix.trans ⟨_, h.trampolines.symm⟩ hz.trampolines
  exception i hi := hz.exception i (h.exception i hi)

theorem Appends.none_waits (h : Appends (fun _ => False) opened e₀ e₁ p x) : x.trampolines = [] :=
  eq_nil_iff_forall_not_mem.mpr h.aims

/-- Trampolines that wait are taken and placed. -/
theorem Appends.place (h : Appends aim opened e₀ e₁ p x) (he : e₀.trampolines = [])
    (h' : Appends aim (x.trampolines.map Trampoline.label) { e₁ with trampolines := [] } e₂ q {}) :
    Appends (fun _ => False) opened e₀ e₂ (p ++ q) { x with trampolines := [] } := by
  have hplaced : Appends aim (x.trampolines.map Trampoline.label) e₁
      { e₂ with trampolines := e₁.trampolines } q {} :=
    ⟨h'.ops, h'.regions, (append_nil _).symm, h'.aims, h'.locals, h'.consts, h'.exception,
      h'.fresh, h'.marked, h'.labels⟩
  have hall := h.trans hplaced
  have hnone : e₂.trampolines = [] := h'.trampolines
  obtain ⟨k, hk, hperm⟩ := hall.labels
  refine ⟨hall.ops, by rw [hall.regions]; exact congrArg _ (append_nil _), by simp [hnone, he],
    forall_mem_nil _, hall.locals, hall.consts, hall.exception, hall.fresh, hall.marked, k, hk,
      perm_iff_count.mpr fun l => ?_⟩
  have hcount := hperm.count_eq l
  change List.count l (markedLabels (p ++ q) ++ (x.trampolines ++ []).map Trampoline.label) =
    _ at hcount
  simp only [count_append, map_append, map_nil, count_nil] at hcount ⊢
  omega

theorem Appends.of_ops {body : Code.Assembly} (ho : body.ops = e.body.ops ++ p)
    (hr : body.regions = e.body.regions) (hl : body.locals = e.body.locals)
    (hc : body.labelCount = e.body.labelCount)
    (hm : body.marked = (markedLabels p).reverse ++ e.body.marked) :
    Appends aim (markedLabels p) e { e with body } p {} :=
  ⟨ho, by simp [hr], by simp, forall_mem_nil _, hl ▸ prefix_rfl, .refl, fun _ h => h,
    fun _ h => .inl h, hm, 0, hc, by simp⟩

theorem Appends.refl (e : Emission) : Appends aim [] e e [] {} :=
  .of_ops (p := []) (append_nil _).symm rfl rfl rfl rfl

/-! ## Specifications -/

section
variable {α β : Type} {b : Bounds} {opened opened' : List Label} {x x' : Emit α}
  {Q : Surround → α → List Op → Extras → Prop} {e e' : Emission} {f f' : α → Emit β}
  {R : Surround → β → List Op → Extras → Prop} {as : List α}

/-- From `e` on, `x` and `x'` append the same code, of which `Q` holds, or `x` fails with an error
that may occur. -/
def EmitsFrom (b : Bounds) (e : Emission) (opened : List Label) (x x' : Emit α)
    (Q : Surround → α → List Op → Extras → Prop) : Prop :=
  (∃ a e' p y, (x e = .ok a e' ∧ x' e = .ok a e') ∧ Appends b.aims opened e e' p y ∧
    ∀ z, e'.Within z → Q z a p y) ∨ ∃ err e', x e = .error err e' ∧ b.fails err

/-- The same from all emissions on. -/
def Emits (b : Bounds) (opened : List Label) (x x' : Emit α) (Q : Surround → α → List Op → Extras →
    Prop) : Prop :=
  ∀ e, EmitsFrom b e opened x x' Q

/-- The same for computations that bring nothing but operations. -/
abbrev EmitsPlain (b : Bounds) (x x' : Emit α) (Q : Surround → α → List Op → Prop) : Prop :=
  Emits b [] x x' fun z a p y => y = {} ∧ Q z a p

theorem EmitsFrom.of_ok (hx : EmitsFrom b e opened x x' Q) {a : α} (h : x e = .ok a e') :
    ∃ p y, Appends b.aims opened e e' p y ∧ ∀ z, e'.Within z → Q z a p y := by
  obtain ⟨a', e₁, p, y, hok, hp⟩ | ⟨err, e₁, herr, -⟩ := hx
  · cases hok.1.symm.trans h
    exact ⟨p, y, hp⟩
  · cases herr.symm.trans h

theorem EmitsFrom.of_error (hx : EmitsFrom b e opened x x' Q) {err : Error}
    (h : x e = .error err e') : b.fails err := by
  obtain ⟨_, _, _, _, hok, -⟩ | ⟨err', _, herr, hb⟩ := hx
  · cases hok.1.symm.trans h
  · cases herr.symm.trans h
    exact hb

theorem EmitsFrom.bind (hx : EmitsFrom b e opened x x' Q)
    (hf : ∀ a e' p y, Appends b.aims opened e e' p y →
      EmitsFrom b e' opened' (f a) (f' a) fun z b q w => Q z a p y → R z b (p ++ q) (y ++ w)) :
    EmitsFrom b e (opened ++ opened') (x >>= f) (x' >>= f') R := by
  obtain ⟨a, e', p, y, ⟨ha, ha'⟩, hp, hQ⟩ | ⟨err, e', herr, hb⟩ := hx
  · obtain ⟨b, e'', q, w, ⟨hb, hb'⟩, hq, hR⟩ | ⟨err, e'', herr, hb⟩ := hf a e' p y hp
    · exact .inl ⟨b, e'', p ++ q, y ++ w,
        ⟨(run_bind_of_ok ha).trans hb, (run_bind_of_ok ha').trans hb'⟩, hp.trans hq, fun z hz =>
          hR z hz (hQ z (hq.within hz))⟩
    · exact .inr ⟨err, e'', (run_bind_of_ok ha).trans herr, hb⟩
  · exact .inr ⟨err, e', run_bind_of_error herr, hb⟩

theorem Emits.bind (hx : Emits b opened x x' Q)
    (hf : ∀ a p y, Emits b opened' (f a) (f' a) fun z b q w => Q z a p y →
      R z b (p ++ q) (y ++ w)) :
    Emits b (opened ++ opened') (x >>= f) (x' >>= f') R :=
  fun e => (hx e).bind fun a e' p y _ => hf a p y e'

theorem EmitsFrom.get_bind {f f' : Emission → Emit β} (h : EmitsFrom b e opened (f e) (f' e) R) :
    EmitsFrom b e opened (get >>= f) (get >>= f') R := h

theorem EmitsFrom.mono {R : Surround → α → List Op → Extras → Prop}
    (hx : EmitsFrom b e opened x x' Q) (h : ∀ z a p y, Q z a p y → R z a p y) :
    EmitsFrom b e opened x x' R := by
  obtain ⟨a, e', p, y, ha, hp, hQ⟩ | herr := hx
  · exact .inl ⟨a, e', p, y, ha, hp, fun z hz => h z a p y (hQ z hz)⟩
  · exact .inr herr

theorem Emits.mono {R : Surround → α → List Op → Extras → Prop} (hx : Emits b opened x x' Q)
    (h : ∀ z a p y, Q z a p y → R z a p y) : Emits b opened x x' R := fun e => (hx e).mono h

variable {Q : Surround → α → List Op → Prop} {err : Error} {S : Surround → α → List Op → Extras →
  Prop} {y : Emit β}

theorem EmitsPlain.mono (hx : EmitsPlain b x x' Q) (h : ∀ z a p, Q z a p → S z a p {}) :
    Emits b [] x x' S :=
  Emits.mono hx fun z a p y hq => by rw [hq.1]; exact h z a p hq.2

theorem EmitsPlain.bind (hx : EmitsPlain b x x' Q)
    (hf : ∀ a p, Emits b opened (f a) (f' a) fun z b q w => Q z a p → R z b (p ++ q) w) :
    Emits b opened (x >>= f) (x' >>= f') R := by
  refine Emits.bind hx fun a p y => (hf a p).mono fun z b q w h hq => ?_
  rw [hq.1]
  exact h hq.2

theorem Emits.pure {a : α} (h : ∀ z, S z a [] {}) : Emits b [] (Pure.pure a) (Pure.pure a) S :=
  fun e => .inl ⟨a, e, [], {}, ⟨rfl, rfl⟩, .refl e, fun z _ => h z⟩

theorem Emits.fail (h : err.isOther = true) : Emits b opened (throw err) x' S :=
  fun s => .inr ⟨err, s, rfl, b.other h⟩

theorem Emits.fail_bind (h : err.isOther = true) :
    Emits b opened ((throw err : Emit α) >>= f) y R :=
  fun s => .inr ⟨err, s, rfl, b.other h⟩

/-- Pieces of code one after the other, one for each element of a list. -/
inductive Concat (P : α → List Op → Prop) : List α → List Op → Prop
  | nil : Concat P [] []
  | cons {a : α} {as : List α} {p q : List Op} : P a p → Concat P as q → Concat P (a :: as) (p ++ q)

theorem Concat.forall_op {P : α → List Op → Prop} {Q : Op → Prop} {ops : List Op}
    (h : Concat P as ops) (hP : ∀ a ∈ as, ∀ p, P a p → ∀ op ∈ p, Q op) : ∀ op ∈ ops, Q op := by
  induction h with
  | nil => simp
  | cons ha _ ih =>
    obtain ⟨hfirst, hrest⟩ := forall_mem_cons.mp hP
    exact forall_mem_append.mpr ⟨hfirst _ ha, ih hrest⟩

theorem EmitsPlain.forM {f f' : α → Emit PUnit} {Q : α → Surround → List Op → Prop}
    (h : ∀ a ∈ as, EmitsPlain b (f a) (f' a) fun z _ p => Q a z p) :
    EmitsPlain b (as.forM f) (as.forM f') fun z _ p => Concat (fun a q => Q a z q) as p := by
  induction as with
  | nil => exact .pure fun _ => ⟨rfl, .nil⟩
  | cons a as ih =>
    obtain ⟨ha, has⟩ := forall_mem_cons.mp h
    exact ha.bind fun _ _ => (ih has).mono fun _ _ _ hq hp => ⟨rfl, .cons hp hq⟩

end

/-! ## Operations -/

variable {α : Type} {b : Bounds} {op : Op} {l : Label} {f f' : Unit → Emit α}
  {R : Surround → α → List Op → Extras → Prop} {S : Surround → Unit → List Op → Extras → Prop}
  {pool : List Const} {i : Nat} {k : Const}

theorem emit_emits (h : ∀ z, S z () [op] {}) (hop : markedLabels [op] = [] := by rfl) :
    Emits b [] (emit op) (emit op) S := by
  have happends (e : Emission) :
      Appends b.aims (markedLabels [op]) e { e with body := e.body.emit [op] } [op] {} :=
    .of_ops rfl rfl rfl rfl (by rw [hop]; rfl)
  rw [hop] at happends
  exact fun e => .inl ⟨(), _, [op], {}, ⟨rfl, rfl⟩, happends e, fun z _ => h z⟩

theorem emit_bind (h : Emits b opened (f ()) (f' ()) fun z a p w => R z a (op :: p) w)
    (hop : markedLabels [op] = [] := by rfl) : Emits b opened (emit op >>= f) (emit op >>= f') R :=
  EmitsPlain.bind (Q := fun _ _ p => p = [op]) (emit_emits (fun _ => ⟨rfl, rfl⟩) hop) fun _ _ =>
    h.mono fun _ _ _ _ hr hp => by rw [hp]; exact hr

theorem markLabel_emits (h : ∀ z, S z () [.label l] {}) :
    Emits b [l] (markLabel l) (markLabel l) S :=
  fun _ => .inl ⟨(), _, [.label l], {}, ⟨rfl, rfl⟩, .of_ops (p := [.label l]) rfl rfl rfl rfl rfl,
    fun z _ => h z⟩

theorem markLabel_bind (h : Emits b opened (f ()) (f' ()) fun z a p w => R z a (.label l :: p) w) :
    Emits b (l :: opened) (markLabel l >>= f) (markLabel l >>= f') R :=
  Emits.bind (markLabel_emits (S := fun _ _ p y => p = [.label l] ∧ y = {}) fun _ => ⟨rfl, rfl⟩)
    fun _ _ _ =>
    h.mono fun _ _ _ _ hr hp => by rw [hp.1, hp.2]; exact hr

theorem newLabel_bind {f f' : Label → Emit α} (h : ∀ l, Emits b (opened ++ [l]) (f l) (f' l) R) :
    Emits b opened (newLabel >>= f) (newLabel >>= f') R := by
  intro e
  obtain ⟨a, e', p, y, ha, hp, hR⟩ | herr :=
    h e.body.labelCount { e with body := e.body.newLabel.2 }
  · obtain ⟨k, hk, hperm⟩ := hp.labels
    refine .inl ⟨a, e', p, y, ha, ⟨hp.ops, hp.regions, hp.trampolines, hp.aims, hp.locals,
      hp.consts, hp.exception, hp.fresh, hp.marked, k + 1, ?_, ?_⟩, hR⟩
    · rw [hk, Nat.add_comm k, ← Nat.add_assoc]
      rfl
    · rwa [append_assoc] at hperm
  · exact .inr herr

theorem addRegion_emits {r : Code.Region} (h : ∀ z, S z () [] { regions := [r] }) :
    Emits b [] (addRegion r) (addRegion r) S := by
  have happends (e : Emission) : Appends b.aims [] e { e with body := e.body.addRegion r } []
      { regions := [r] } :=
    ⟨by simp [Code.Assembly.addRegion], rfl, by simp, forall_mem_nil _, prefix_rfl, .refl,
      fun _ h => h, fun _ h => .inl h, rfl, 0, rfl, by simp⟩
  exact fun e => .inl ⟨(), _, [], _, ⟨rfl, rfl⟩, happends e, fun z _ => h z⟩

/-- A constant stands in a pool, up to equality as numbers. -/
def Pooled (pool : List Const) (i : Nat) (k : Const) : Prop :=
  ∃ k', pool[i]? = some k' ∧ (k' = k ∨ k'.same k = true)

theorem Pooled.mono {pool' : List Const} (h : Pooled pool i k) (hp : pool <+: pool') :
    Pooled pool' i k := by
  obtain ⟨k', hk, hs⟩ := h
  obtain ⟨more, rfl⟩ := hp
  exact ⟨k', by rw [getElem?_append_left (lt_of_getElem? hk), hk], hs⟩

theorem Pooled.lt (h : Pooled pool i k) : i < pool.length := by
  obtain ⟨_, hk, -⟩ := h
  exact lt_of_getElem? hk

theorem intern_pooled (pool : List Const) (k : Const) :
    Pooled (intern pool k).2 (intern pool k).1 k := by
  obtain ⟨i, k', h, hi, hs⟩ | ⟨h, -⟩ := intern_cases pool k
  · rw [h]
    exact ⟨k', hi, .inr hs⟩
  · rw [h]
    exact ⟨k, getElem?_concat_length, .inl rfl⟩

theorem loadConst_emits (h : ∀ z i, Pooled z.consts i k → S z () [.loadConst i] {}) :
    Emits b [] (loadConst k) (loadConst k) S := by
  refine fun e => .inl ⟨(), _, [.loadConst (intern e.consts k).1], {}, ⟨rfl, rfl⟩,
    ⟨rfl, by simp [Code.Assembly.emit], by simp, forall_mem_nil _, prefix_rfl, intern_grows _ _,
      fun _ h => h, fun _ h => .inl h, rfl, 0, rfl,
    by simp⟩, fun z hz => h z _ ?_⟩
  exact (intern_pooled e.consts k).mono hz.consts

theorem exceptionLocal_bind {f f' : Nat → Emit α}
    (h : ∀ i, Emits b opened (f i) (f' i) fun z a p w => z.exception = some i → R z a p w) :
    Emits b opened (exceptionLocal >>= f) (exceptionLocal >>= f') R := by
  have hx : EmitsPlain b exceptionLocal exceptionLocal fun z i p =>
      z.exception = some i ∧ p = [] := by
    intro e
    refine .get_bind ?_
    cases hx : e.exceptionLocal with
    | some i =>
      exact .inl ⟨i, e, [], {}, ⟨rfl, rfl⟩, .refl e, fun z hz => ⟨rfl, hz.exception _ hx, rfl⟩⟩
    | none =>
      refine .inl ⟨_, _, [], {}, ⟨rfl, rfl⟩, ⟨by simp, by simp, by simp,
        forall_mem_nil _, prefix_append _ _, .refl, by simp [hx], ?_, rfl, 0, rfl, by simp⟩,
        fun z hz => ⟨rfl, hz.exception _ rfl, rfl⟩⟩
      rintro _ ⟨⟩
      exact .inr ⟨Nat.le_refl _, by simp⟩
  refine hx.bind fun i _ => (h i).mono fun z a p w hr hq => ?_
  rw [hq.2]
  exact hr hq.1

/-! ## Two modules -/

/-- Two entries for a method that differ in the number of its wrapper at most. -/
structure MethodEntry.Same (e e' : MethodEntry) : Prop where
  eq : e' = { e with wrapper := e'.wrapper }
  wraps : e'.wrapper.isSome = e.wrapper.isSome

/-- The second module has the counterpart that a type has in the first one. If it has none there,
that may fail as `E` says. -/
def Declared.Finds (E : Error → Prop) (d₁ d₂ : Declared) (l : Location) (ty : Ty) : Prop :=
  (∃ s, d₁.resolver.lookup? ty = some s ∧ d₂.resolver.lookup? ty = some s) ∨
    d₁.resolver.lookup? ty = none ∧ E (.structural ⟨l, .unregisteredType ty⟩)

/-- The types that an operation of a node names. A cast without a result is taken for one to
nothing. -/
def kindTypes (n : Node) : List Ty :=
  match n.kind with
  | .alloca ty | .load ty _ | .vaArg ty => [ty]
  | .getElementPtr path target => target :: path.filterMap Flow.AddressStep.element?
  | .bitCast => [n.resultType.getD .void]
  | _ => []

namespace Context

/-- The same function in another module. -/
def within (c : Context) (d : Declared) : Context := { c with declared := d }

/-- What an operand names is the same in another module. -/
def Known (E : Error → Prop) (c : Context) (d : Declared) : Ref → Prop
  | .const (.int ty _) | .const (.float ty _) | .const (.undef ty) | .const (.poison ty)
  | .const (.zero ty) =>
    ∀ l, c.declared.Finds E d l ty
  | .global name => d.staticIndex? name = c.declared.staticIndex? name
  | .function name => Option.Rel MethodEntry.Same (c.declared.method? name) (d.method? name)
  | _ => True

/-- Another module has all that a function finds in its own module. -/
structure Alike (E : Error → Prop) (c : Context) (d : Declared) : Prop where
  operands : ∀ n ∈ c.graph.nodes, ∀ r ∈ n.operands,
    c.Known E d r ∧ c.declared.Finds E d (n.location c.graph.location) (c.operandType r)
  types : ∀ n ∈ c.graph.nodes, ∀ ty ∈ kindTypes n ++ n.resultType.toList,
    c.declared.Finds E d (n.location c.graph.location) ty
  phis : ∀ i, ∀ phi ∈ c.phis i, ∀ e ∈ phi.2, c.Known E d e.2
  steps : ∀ n ∈ c.graph.nodes, ∀ path target, n.kind = .getElementPtr path target →
    ∀ step ∈ path, ∀ r, step.index? = some r → c.Known E d r

theorem known_const {E : Error → Prop} {c : Context} {d : Declared} {k : Constant}
    (h : ∀ l, c.declared.Finds E d l k.ty) : c.Known E d (.const k) := by
  cases k with
  | null | noneToken => trivial
  | _ => exact h

/-! A module has what it has. -/

theorem finds_own (d : Declared) (l : Location) (ty : Ty) :
    d.Finds Bounds.own.fails d l ty := by
  cases h : d.resolver.lookup? ty with
  | none => exact .inr ⟨h, rfl⟩
  | some s => exact .inl ⟨s, h, h⟩

theorem sameMethods (x : Option MethodEntry) : Option.Rel MethodEntry.Same x x := by
  cases x with
  | none => exact .none
  | some e => exact .some ⟨rfl, rfl⟩

theorem known_own (c : Context) (r : Ref) : c.Known Bounds.own.fails c.declared r := by
  cases r with
  | const k => exact known_const fun l => finds_own c.declared l _
  | global => rfl
  | function name => exact sameMethods (c.declared.method? name)
  | key | block => trivial

theorem alike_own (c : Context) : c.Alike Bounds.own.fails c.declared :=
  ⟨fun _ _ r _ => ⟨c.known_own r, finds_own c.declared _ _⟩, fun _ _ _ _ =>
    finds_own c.declared _ _, fun _ _ _ e _ =>
      c.known_own e.2, fun _ _ _ _ _ _ _ r _ => c.known_own r⟩

/-- What is emitted for a function, in its own module and in another one. -/
abbrev Lowers (c : Context) (d : Declared) (b : Bounds) (opened : List Label) (x : Context → Emit α)
    (Q : Surround → α → List Op → Extras → Prop) : Prop :=
  Emits b opened (x c) (x (c.within d)) Q

/-- The same if it brings nothing but operations. -/
abbrev LowersPlain (c : Context) (d : Declared) (b : Bounds) (x : Context → Emit α)
    (Q : Surround → α → List Op → Prop) : Prop :=
  EmitsPlain b (x c) (x (c.within d)) Q

/-! ## Types -/

variable {c : Context} {d : Declared} {l : Location} {ty : Ty}

def numKind? (c : Context) (ty : Ty) : Option NumKind :=
  (c.declared.resolver.lookup? ty).bind Code.Ty.numKind?

theorem resolved_bind {f f' : Code.Ty → Emit α} (hty : c.declared.Finds b.fails d l ty)
    (h : ∀ s, c.declared.resolver.lookup? ty = some s → Emits b opened (f s) (f' s) R) :
    Emits b opened (c.resolved l ty >>= f) ((c.within d).resolved l ty >>= f') R := by
  unfold resolved within
  rcases hty with ⟨s, h₁, h₂⟩ | ⟨h₁, herr⟩
  · rw [h₁, h₂]
    exact h s h₁
  · rw [h₁]
    exact fun e => .inr ⟨_, e, rfl, herr⟩

theorem numKind_bind {f f' : NumKind → Emit α} (hty : c.declared.Finds b.fails d l ty)
    (h : ∀ k, c.numKind? ty = some k → Emits b opened (f k) (f' k) R) :
    Emits b opened (c.numKind l ty >>= f) ((c.within d).numKind l ty >>= f') R := by
  rw [numKind, numKind, bind_assoc, bind_assoc]
  refine resolved_bind hty fun s hs => ?_
  split
  · next k hk => exact h k (by rw [numKind?, hs]; exact hk)
  · exact .fail_bind rfl

/-! ## Operands and results -/

/-- The constant that a source constant becomes. -/
def constant? (c : Context) : Constant → Option Const
  | .int ty n =>
    match c.declared.resolver.lookup? ty with
    | some .bool => some (.bool (n % 2 ≠ 0))
    | some (.int w) => some (.int w (w.wrap n))
    | _ => none
  | .float ty x =>
    match c.numKind? ty with
    | some (.float k) => some (.float k x)
    | _ => none
  | .null | .noneToken => some .null
  | .undef ty | .poison ty | .zero ty =>
    match c.declared.resolver.lookup? ty with
    | some .void => some .null
    | some s => some (.default s)
    | none => none

/-- The code that takes an operand to the stack. -/
inductive Pushes (c : Context) (pool : List Const) : Ref → List Op → Prop
  | argument {r : Ref} {i : Nat} : c.param? r = some i → Pushes c pool r [.loadArg i]
  | address {k : Key} {id i : Nat} {ty : Ty} :
      c.param? (.key k) = none → c.graph.resolve? (.key k) = some id → c.slot id = .inLocal i →
        (c.graph.node? id).map Node.kind = some (.alloca ty) →
      Pushes c pool (.key k) [.loadLocalAddress i]
  | value {k : Key} {id i : Nat} : c.param? (.key k) = none → c.graph.resolve? (.key k) = some id →
      c.slot id = .inLocal i → (∀ ty, (c.graph.node? id).map Node.kind ≠ some (.alloca ty)) →
      Pushes c pool (.key k) [.loadLocal i]
  /-- The operand was left on the stack by the node before. -/
  | stacked {k : Key} {id : Nat} : c.param? (.key k) = none → c.graph.resolve? (.key k) = some id →
      c.slot id = .onStack → Pushes c pool (.key k) []
  | constant {k : Constant} {k' : Const} {i : Nat} : c.constant? k = some k' → Pooled pool i k' →
      Pushes c pool (.const k) [.loadConst i]
  | static {name : String} {i : Nat} : c.declared.staticIndex? name = some i →
      Pushes c pool (.global name) [.loadStaticAddress i]
  | method {name : String} {e : MethodEntry} : c.declared.method? name = some e →
      Pushes c pool (.function name) [.loadMethodPointer e.index]

/-- The code that puts the top of the stack where the result of a node belongs. -/
def storeCode (c : Context) (id : NodeId) : List Op :=
  match c.slot id with
  | .inLocal i => [.storeLocal i]
  | .onStack => []
  | .nowhere => [.pop]

theorem constant_bind {k : Constant} {f f' : Const → Emit α} (hk : c.Known b.fails d (.const k))
    (h : ∀ k', c.constant? k = some k' → Emits b opened (f k') (f' k') R) :
    Emits b opened (c.constant l k >>= f) ((c.within d).constant l k >>= f') R := by
  have ofType {ty : Ty} (hty : c.declared.Finds b.fails d l ty)
      (h : ∀ k', (match c.declared.resolver.lookup? ty with
      | some .void => some Const.null
      | some s => some (.default s)
      | none => none) = some k' → Emits b opened (f k') (f' k') R) :
      Emits b opened (constant.ofType c l ty >>= f)
        (constant.ofType (c.within d) l ty >>= f') R := by
    rw [constant.ofType, constant.ofType, bind_assoc, bind_assoc]
    refine resolved_bind hty fun s hs => ?_
    rw [hs] at h
    cases s
    case void => exact h _ rfl
    all_goals exact h _ rfl
  cases k with
  | int ty n =>
    rw [constant, constant, bind_assoc, bind_assoc]
    refine resolved_bind (hk l) fun s hs => ?_
    simp only [constant?, hs] at h
    cases s
    case bool => exact h _ rfl
    case int w => exact h _ rfl
    all_goals exact .fail_bind rfl
  | float ty x =>
    rw [constant, constant, bind_assoc, bind_assoc]
    refine resolved_bind (hk l) fun s hs => ?_
    simp only [constant?, numKind?, hs, Option.bind_some] at h
    split
    · next k hk => exact h _ (by rw [hk])
    · exact .fail_bind rfl
  | null => exact h _ rfl
  | noneToken => exact h _ rfl
  | undef ty | poison ty | zero ty => exact ofType (hk l) h

theorem pushOperand_emits {r : Ref} (hr : c.Known b.fails d r) :
    c.LowersPlain d b (·.pushOperand l r) fun z _ p => Pushes c z.consts r p := by
  cases r with
  | key k =>
    change EmitsPlain b (c.pushOperand l (.key k)) (c.pushOperand l (.key k)) _
    rw [pushOperand]
    split
    · next i hi => exact emit_emits fun _ => ⟨rfl, .argument hi⟩
    · next id hp hr =>
      rw [pushNode]
      split
      · next i ty hs hk => exact emit_emits fun _ => ⟨rfl, .address hp hr hs hk⟩
      · next i hs hk => exact emit_emits fun _ => ⟨rfl, .value hp hr hs hk⟩
      · next hs => exact .pure fun _ => ⟨rfl, .stacked hp hr hs⟩
      · exact .fail rfl
    · exact .fail rfl
  | const k =>
    exact constant_bind hr fun k' hk => loadConst_emits fun z i hi => ⟨rfl, .constant hk hi⟩
  | global name =>
    dsimp only [LowersPlain, pushOperand, within]
    rw [show d.staticIndex? name = _ from hr]
    split
    · next i hi => exact emit_emits fun _ => ⟨rfl, .static hi⟩
    · exact .fail rfl
  | function name =>
    dsimp only [LowersPlain, pushOperand, within]
    change Option.Rel MethodEntry.Same (c.declared.method? name) (d.method? name) at hr
    generalize he : c.declared.method? name = e₁ at hr ⊢
    generalize d.method? name = e₂ at hr ⊢
    cases hr with
    | none => exact .fail rfl
    | some hsame =>
      rw [hsame.eq]
      exact emit_emits fun _ => ⟨rfl, .method he⟩
  | block id => exact .fail rfl

theorem storeResult_emits {id : NodeId} {R : Surround → Unit → List Op → Extras → Prop}
    (h : ∀ z, R z () (c.storeCode id) {}) : c.Lowers d b [] (·.storeResult id) R := by
  change Emits b [] (c.storeResult id) (c.storeResult id) R
  rw [storeResult]
  rw [storeCode] at h
  cases hs : c.slot id <;> rw [hs] at h
  · exact emit_emits h
  · exact .pure h
  · exact emit_emits h

theorem storeResult_bind {id : NodeId}
    (h : Emits b opened (f ()) (f' ()) fun z a p w => R z a (c.storeCode id ++ p) w) :
    Emits b opened (c.storeResult id >>= f) ((c.within d).storeResult id >>= f') R :=
  EmitsPlain.bind (Q := fun _ _ p => p = c.storeCode id) (storeResult_emits fun _ =>
    ⟨rfl, rfl⟩) fun _ _ =>
    h.mono fun _ _ _ _ hr hp => by rw [hp]; exact hr

/-! ## Edges -/

/-- The code that pushes what phis take from a predecessor, with the locals of the phis. -/
inductive Incoming (c : Context) (pool : List Const) (source : Nat) :
    List (NodeId × List (Nat × Ref)) → List Nat → List Op → Prop
  | nil : Incoming c pool source [] [] []
  | cons {id i j : Nat} {incoming : List (Nat × Ref)} {r : Ref}
      {rest : List (NodeId × List (Nat × Ref))} {locals : List Nat} {p q : List Op} :
      (incoming.find? fun e => e.1 = source) = some (j, r) → c.slot id = .inLocal i →
        Pushes c pool r p → Incoming c pool source rest locals q →
      Incoming c pool source ((id, incoming) :: rest) (i :: locals) (p ++ q)

/-- The copies on an edge between blocks at two positions. -/
def CopyCode (c : Context) (pool : List Const) (source target : Nat) (ops : List Op) : Prop :=
  ∃ locals p, Incoming c pool source (c.phis target) locals p ∧
    ops = p ++ locals.reverse.map .storeLocal

/-- The copies on an edge and the jump behind them. -/
def JumpCode (c : Context) (pool : List Const) (source : Nat) (id : BlockId) (ops : List Op) :
    Prop :=
  ∃ target p, c.graph.blockIndex? id = some target ∧ CopyCode c pool source target p ∧
    ops = p ++ [.branch target]

/-- A label leads to a block, through a trampoline if there is something to copy. -/
def LeadsTo (c : Context) (z : Surround) (source : Nat) (id : BlockId) (label : Label) : Prop :=
  ∃ target, c.graph.blockIndex? id = some target ∧
    ((c.phis target).isEmpty = true ∧ label = target ∨ ⟨label, source, target⟩ ∈ z.trampolines)

variable {source : Nat} {id : BlockId}

theorem blockPosition_bind {f f' : Nat → Emit α}
    (h : ∀ i, c.graph.blockIndex? id = some i → Emits b opened (f i) (f' i) R) :
    Emits b opened (c.blockPosition l id >>= f) ((c.within d).blockPosition l id >>= f') R := by
  change Emits b opened (c.blockPosition l id >>= f) (c.blockPosition l id >>= f') R
  rw [blockPosition]
  split
  · next i hi => exact h i hi
  · exact .fail_bind rfl

theorem pushIncoming_emits {phis : List (NodeId × List (Nat × Ref))}
    (h : ∀ phi ∈ phis, ∀ e ∈ phi.2, c.Known b.fails d e.2) :
    c.LowersPlain d b (·.pushIncoming l source phis) fun z locals p =>
      Incoming c z.consts source phis locals p := by
  induction phis with
  | nil => exact .pure fun _ => ⟨rfl, .nil⟩
  | cons phi rest ih =>
    obtain ⟨id, incoming⟩ := phi
    obtain ⟨hfirst, hrest⟩ := forall_mem_cons.mp h
    dsimp only [LowersPlain, pushIncoming]
    rw [show (c.within d).slot id = c.slot id from rfl]
    split
    · exact .fail rfl
    · next j r i hr hs =>
      refine (pushOperand_emits (hfirst _ (mem_of_find?_eq_some hr))).bind fun _ p =>
        (ih hrest).bind fun locals q =>
        .pure fun z hq hp => ?_
      rw [append_nil]
      exact ⟨rfl, .cons hr hs hp hq⟩
    · exact .fail rfl

theorem storeAll_emits {locals : List Nat} {R : Surround → Unit → List Op → Extras → Prop}
    (h : ∀ z, R z () (locals.map .storeLocal) {}) :
    Emits b [] (locals.forM fun i => emit (.storeLocal i))
      (locals.forM fun i => emit (.storeLocal i)) R := by
  induction locals generalizing R with
  | nil => exact .pure h
  | cons i locals ih => exact emit_bind (ih h)

section
variable (h : c.Alike b.fails d)
include h

theorem copiesInto_emits {target : Nat} :
    c.LowersPlain d b (·.copiesInto l source target) fun z _ p =>
      CopyCode c z.consts source target p :=
  (pushIncoming_emits (h.phis target)).bind fun locals p =>
    storeAll_emits fun _ h => ⟨rfl, locals, p, h, rfl⟩

theorem edgeCopies_emits :
    c.LowersPlain d b (·.edgeCopies l source id) fun z _ p =>
      ∃ target, c.graph.blockIndex? id = some target ∧ CopyCode c z.consts source target p :=
  blockPosition_bind fun target ht => (copiesInto_emits h).mono fun _ _ _ h => ⟨rfl, target, ht, h⟩

theorem jump_emits : c.LowersPlain d b (·.jump l source id) fun z _ p =>
    JumpCode c z.consts source id p := by
  refine (edgeCopies_emits h).bind fun _ p =>
    blockPosition_bind fun target ht => emit_emits fun z h => ?_
  obtain ⟨target', ht', h⟩ := h
  rw [ht] at ht'
  cases ht'
  exact ⟨rfl, target, p, ht, h, rfl⟩

end

theorem edgeLabel_bind {f f' : Label → Emit α}
    (haim : ∀ target, c.graph.blockIndex? id = some target → (c.phis target).isEmpty = false →
      b.aims target)
    (h : ∀ label new, Emits b opened (f label) (f' label) fun z a p w =>
      LeadsTo c z source id label → R z a p ({ trampolines := new } ++ w)) :
    Emits b opened (c.edgeLabel l source id >>= f)
      ((c.within d).edgeLabel l source id >>= f') R := by
  have hx : c.Lowers d b [] (·.edgeLabel l source id) fun z label p y =>
      LeadsTo c z source id label ∧ p = [] ∧ y.regions = [] := by
    refine blockPosition_bind fun target ht => ?_
    rw [show (c.within d).phis target = c.phis target from rfl]
    split
    · next hp => exact .pure fun _ => ⟨⟨target, ht, .inl ⟨hp, rfl⟩⟩, rfl, rfl⟩
    · next hphis =>
      intro e
      refine .get_bind ?_
      cases hf : e.trampolines.find? fun t => t.source = source && t.target = target with
      | some t =>
        have ht' := find?_some hf
        simp only [Bool.and_eq_true, decide_eq_true_eq] at ht'
        obtain ⟨rfl, rfl⟩ := ht'
        exact .inl ⟨_, e, [], {}, ⟨rfl, rfl⟩, .refl e, fun z hz =>
          ⟨⟨_, ht, .inr (hz.trampolines.subset (mem_of_find?_eq_some hf))⟩, rfl, rfl⟩⟩
      | none =>
        refine .inl ⟨_, _, [], { trampolines := [⟨e.body.labelCount, source, target⟩] }, ⟨rfl, rfl⟩,
          ⟨(append_nil _).symm, (append_nil _).symm, rfl,
            forall_mem_singleton.mpr (haim target ht (by simpa using hphis)), prefix_rfl, .refl,
              fun _ h => h,
          fun _ h => .inl h, rfl, 1, rfl, .refl _⟩, fun z hz =>
            ⟨⟨_, ht, .inr (hz.trampolines.subset (by simp))⟩, rfl, rfl⟩⟩
  refine hx.bind fun label p y => (h label y.trampolines).mono fun z a q w hr hq => ?_
  obtain ⟨hl, rfl, hy⟩ := hq
  have hy : y = { trampolines := y.trampolines } := by rw [← hy]
  rw [hy]
  exact hr hl

end Context

end Stackify.Lower
