import Stackify.Lower.Program
import Stackify.Proofs.LocalStorage

/-!
Which values loads give.

`Value.OfType` says when a value has the shape of a type. Memory gives values of the type that is
asked for, whatever was stored (`load_ofType`). A local gives the part that its address leads to and
does not look at the type, so a load is right if the type is the declared one of that part
(`State.Typed.load`). Runs that store values of the declared types keep all locals and references in
shape (`AptSteps.typed`), and their loads at the declared type give values of it
(`loadIndirect_ofType`). At another type, such as that of the first element of an array, a load
through the address of a local gives the whole (`load_ignores_type`).
-/

namespace Stackify.Machine

open Code (Op Ty Method Program Service RecordId Record Field)
open List Option

/-! ## Values of a type -/

/-- Scalars with the shape of a type. -/
def Value.Shaped : Ty → Value → Prop
  | .void, .null => True
  | .bool, .bool _ => True
  | .int w, .int w' n => w' = w ∧ w.wrap n = n
  | .float k, .float k' _ => k' = k
  | .pointer _, v | .varArgs, v => v.isReference = true
  | _, _ => False

/-- Values with the shape of a type: normalised integers, numbers of the right kind, references, and
arrays and records of as many parts as there are. -/
abbrev Value.OfType (records : List Record) (t : Ty) (v : Value) : Prop :=
  v.Fits records Value.Shaped t

variable {records : List Record} {t : Ty} {v w : Value} {vs : List Value} {b : Block} {offset : Nat}
  {d i : Nat} {op : Op} {f : Frame}

theorem record_ofType (h : (Value.record vs).OfType records t) :
    ∃ id r, t = .record id ∧ records[id]? = some r ∧ vs.length = r.fields.length ∧
      ∀ (i : Nat) f v, r.fields[i]? = some f → vs[i]? = some v → v.OfType records f.ty := by
  cases h with
  | scalar _ h => cases t <;> cases h
  | record hr hlen hall => exact ⟨_, _, rfl, hr, hlen, hall⟩

theorem array_ofType (h : (Value.array vs).OfType records t) :
    ∃ e, t = .array e vs.length ∧ ∀ v ∈ vs, v.OfType records e := by
  cases h with
  | scalar _ h => cases t <;> cases h
  | array hlen hall => exact ⟨_, by rw [hlen], hall⟩

theorem ofType_hereditary (records : List Record) : Hereditary records fun t v =>
    v.OfType records t where
  array h := by
    obtain ⟨e, he, hall⟩ := array_ofType h
    cases he
    exact hall
  record hr h := by
    obtain ⟨id, r, hid, hr', -, hall⟩ := record_ofType h
    cases hid
    cases hr.symm.trans hr'
    exact hall

theorem defaultValue_ofType (h : t.Nests records (fun _ => true) d) :
    (defaultValue records t).OfType records t := by
  induction h with
  | @scalar _ t hs _ =>
    refine .scalar hs ?_
    cases t with
    | array | record => cases hs
    | int w => exact ⟨rfl, Int.zero_bmod⟩
    | void | bool => exact trivial
    | float | pointer | varArgs => exact rfl
  | array _ ih =>
    refine .array length_replicate fun v hv => ?_
    rw [eq_of_mem_replicate hv]
    exact ih
  | @record d id r hr hf ih =>
    rw [defaultValue_record (Ty.Nests.record hr hf).grounded hr]
    refine .record hr (length_map ..) fun i f v hi hv => ?_
    rw [getElem?_map, hi, map_some, some.injEq] at hv
    exact hv ▸ ih f (mem_of_getElem? hi)

/-! ## Loads from memory -/

/-- What stands beside octets is a reference. -/
def Block.Proper (b : Block) : Prop := ∀ r ∈ b.references, r.2.isReference = true

theorem Block.proper_iff : b.Proper ↔ b.All fun v => v.isReference = true := Iff.rfl

theorem Block.Proper.kept (records : List Record) :
    KeptByAll (fun t v => v.OfType records t) Block.Proper := by
  refine Block.All.kept (Q := fun v => v.isReference = true) (fun t v h => ?_) fun v h => ?_
  · cases h with
    | scalar _ hv => exact hv
  · cases h with
    | scalar _ hv => exact hv

theorem loadWith_ofType {load : RecordId → Nat → Except Fault Value} (hb : b.Proper)
    (hload : ∀ id offset v, load id offset = .ok v → v.OfType records (.record id))
    (h : loadWith records b load t offset = .ok v) : v.OfType records t := by
  induction t generalizing offset v with
  | void => cases h
  | bool =>
    obtain ⟨bs, -, rfl⟩ := map_eq_ok.mp h
    exact .scalar rfl trivial
  | int w =>
    obtain ⟨bs, -, rfl⟩ := map_eq_ok.mp h
    exact .scalar rfl ⟨rfl, Int.bmod_bmod⟩
  | float kind =>
    cases kind with
    | half => cases h
    | single | double =>
      obtain ⟨bs, -, rfl⟩ := map_eq_ok.mp h
      exact .scalar rfl rfl
  | pointer | varArgs =>
    obtain ⟨bs, -, rfl⟩ := map_eq_ok.mp h
    exact .scalar rfl ((Block.proper_iff.mp hb).reference rfl offset)
  | array e n ih =>
    obtain ⟨vs, hvs, rfl⟩ := map_eq_ok.mp h
    rw [loadItems_eq_mapM, mapM_eq_ok] at hvs
    refine .array (by simpa using hvs.length_eq.symm) fun v hv => ?_
    obtain ⟨i, hi⟩ := mem_iff_getElem?.mp hv
    obtain ⟨j, -, hload⟩ := forall₂_some_right hvs hi
    exact ih hload
  | record id => exact hload id offset v h

theorem loadRecord_ofType {depth : Nat} {id : RecordId} (hb : b.Proper)
    (h : loadRecord records b depth id offset = .ok v) : v.OfType records (.record id) := by
  induction depth generalizing id offset v with
  | zero => cases h
  | succ depth ih =>
    rw [loadRecord] at h
    cases hr : records[id]? with
    | none =>
      rw [hr] at h
      cases h
    | some r =>
      rw [hr] at h
      obtain ⟨vs, hvs, rfl⟩ := map_eq_ok.mp h
      have hall := mapM_eq_ok.mp hvs
      have hlen := hall.length_eq
      rw [length_zip, Code.layout_offsets_length, Nat.min_self] at hlen
      refine .record hr hlen.symm fun i f v hf hv => ?_
      obtain ⟨a, ha, hload⟩ := forall₂_some_right hall hv
      obtain ⟨hf', -⟩ := getElem?_zip_eq_some.mp ha
      cases hf.symm.trans hf'
      exact loadWith_ofType hb (fun id o v h => ih h) hload

/-- Memory gives values of the type that is asked for. -/
theorem load_ofType (hb : b.Proper) (h : b.load records t offset = .ok v) : v.OfType records t :=
  loadWith_ofType hb (fun _ _ _ h => loadRecord_ofType hb h) h

/-! ## Parts of values of a type -/

variable {p : Program} {frame index : Nat} {T : Ty} {x : Value} {path : List PathStep}

/-- A part of a value of a type has a type too, and stays of it. -/
theorem part_ofType (frame index : Nat) {step : PathStep} (hw : w.OfType p.records T)
    (hx : Value.part? step w = some x) :
    ∃ t, (∀ path, State.typeAlong p frame index T (step :: path) = State.typeAlong p frame
      index t path) ∧ x.OfType p.records t ∧ ∀ y : Value, y.OfType p.records t →
        (Value.setPart step w y).OfType p.records T := by
  cases step with
  | field i =>
    cases w with
    | record vs =>
      obtain ⟨id, r, rfl, hr, hlen, hall⟩ := record_ofType hw
      have hx : vs[i]? = some x := hx
      have hi : i < r.fields.length := hlen ▸ lt_of_getElem? hx
      have hf := getElem?_eq_getElem hi
      refine ⟨r.fields[i].ty, fun path => ?_, hall i _ x hf hx, fun y hy => ?_⟩
      · have hfield : (p.records[id]?).bind (·.fields[i]?) = some r.fields[i] := by
          rw [hr, bind_some, hf]
        simp only [State.typeAlong, hfield]
      · refine .record hr (by rw [length_set, hlen]) fun j f z hj hz => ?_
        rw [getElem?_set] at hz
        by_cases hij : i = j
        · subst hij
          rw [if_pos rfl, if_pos (by omega)] at hz
          cases hz
          cases hf.symm.trans hj
          exact hy
        · rw [if_neg hij] at hz
          exact hall j f z hj hz
    | _ => cases hx
  | element i =>
    cases w with
    | array vs =>
      obtain ⟨e, rfl, hall⟩ := array_ofType hw
      have hx : vs[i.toNat]? = some x := by
        simp only [Value.part?] at hx
        split at hx
        · cases hx
        · exact hx
      refine ⟨e, fun path => rfl, hall x (mem_of_getElem? hx), fun y hy => ?_⟩
      refine .array length_set fun z hz => ?_
      rcases mem_or_eq_of_mem_set hz with hz | rfl
      · exact hall z hz
      · exact hy
    | _ => cases hx

theorem follow_ofType (hw : w.OfType p.records T) (h : w.follow path = .ok v) :
    ∃ t, State.typeAlong p frame index T path = .ok t ∧ v.OfType p.records t := by
  induction path generalizing w T with
  | nil =>
    cases h
    exact ⟨T, rfl, hw⟩
  | cons step path ih =>
    rw [Value.follow] at h
    cases hx : Value.part? step w with
    | none =>
      rw [hx] at h
      cases h
    | some x =>
      rw [hx] at h
      obtain ⟨u, htype, hx, -⟩ := part_ofType frame index hw hx
      obtain ⟨t, ht, hv⟩ := ih hx h
      exact ⟨t, (htype path).trans ht, hv⟩

theorem replace_ofType (hw : w.OfType p.records T)
    (hv : ∀ t, State.typeAlong p frame index T path = .ok t → v.OfType p.records t)
    (h : w.replace v path = .ok x) : x.OfType p.records T := by
  induction path generalizing w T x with
  | nil =>
    cases h
    exact hv T rfl
  | cons step path ih =>
    rw [Value.replace] at h
    cases hy : Value.part? step w with
    | none =>
      rw [hy] at h
      cases h
    | some y =>
      rw [hy] at h
      obtain ⟨z, hz, rfl⟩ := map_eq_ok.mp h
      obtain ⟨u, htype, hy, hset⟩ := part_ofType frame index hw hy
      exact hset z (ih hy (fun t ht => hv t ((htype path).trans ht)) hz)

theorem typeAlong_nests {leaf : Ty → Bool} (h : T.Nests p.records leaf d)
    (ht : State.typeAlong p frame index T path = .ok t) :
    t.Nests p.records leaf p.records.length := by
  induction path generalizing T d with
  | nil =>
    cases ht
    exact h.bounded
  | cons step path ih =>
    rw [State.typeAlong.eq_def] at ht
    cases step with
    | field i =>
      cases T with
      | record id =>
        dsimp only at ht
        split at ht
        · next f hf =>
          obtain ⟨r, k, -, hr, hall⟩ := h.fields
          rw [hr, bind_some] at hf
          exact ih (hall f (mem_of_getElem? hf)) ht
        · cases ht
      | _ => cases ht
    | element i =>
      cases T with
      | array e n => exact ih h.element ht
      | _ => cases ht

/-! ## States -/

/-- The locals of a frame have their declared types. -/
def Frame.Typed (p : Program) (f : Frame) : Prop :=
  ∃ m, p.methods[f.method]? = some m ∧
    Forall₂ (fun T v => Value.OfType p.records T v) m.body.locals f.locals

/-- All locals have their declared types, and memory keeps references beside octets. -/
structure State.Typed (p : Program) (s : State) : Prop where
  frames : ∀ f ∈ s.frames, f.Typed p
  memory : s.world.memory.Each Block.Proper

/-- A local address is one of a part with a given declared type. -/
def Aimed (p : Program) (s : State) (address : Value) (ty : Ty) : Prop :=
  ∀ frame index path, address = .pointer (.ofLocal frame index path) →
    s.localType p frame index path = .ok ty

namespace State.Typed

variable {p : Program} {s t : State} {frame index : Nat} {v w a : Value} {ty T : Ty}

section
variable (h : s.Typed p)
include h

theorem withCurrent {f : Frame} (hm : f.method = s.current.method)
    (hl : f.locals = s.current.locals) : State.Typed p { s with current := f } := by
  refine ⟨fun g hg => ?_, h.memory⟩
  rcases mem_append.mp hg with hg | hg
  · exact h.frames g (mem_append_left _ hg)
  · cases mem_singleton.mp hg
    obtain ⟨m, hm', hall⟩ := h.frames s.current (mem_append_right _ (mem_singleton.mpr rfl))
    exact ⟨m, hm ▸ hm', hl ▸ hall⟩

theorem withStack (stack : List Value) : (s.withStack stack).Typed p := h.withCurrent rfl rfl

theorem goTo (pc : Nat) : (s.goTo pc).Typed p := h.withCurrent rfl rfl

/-- The value of a local, with its declared type. -/
theorem exists_type (hv : s.local? frame index = .ok v) :
    ∃ T, HasLocal p s frame index T v ∧ v.OfType p.records T := by
  unfold State.local? at hv
  split at hv
  · next u hu =>
    cases hv
    obtain ⟨f, hf, hget⟩ := bind_eq_some_iff.mp hu
    have hmem : f ∈ s.frames := mem_of_getElem? (by rw [← State.frame?_eq, hf])
    obtain ⟨m, hm, hall⟩ := h.frames f hmem
    obtain ⟨T, hT, hv⟩ := forall₂_some_right hall hget
    refine ⟨T, ⟨?_, hu⟩, hv⟩
    rw [hf, bind_some, hm, bind_some, hT]
  · cases hv

theorem setLocal (hT : ∀ T u, HasLocal p s frame index T u → w.OfType p.records T)
    (ht : s.setLocal frame index w = .ok t) : t.Typed p := by
  obtain ⟨f, hget, hi, hframes, hworld⟩ := State.setLocal_eq_ok ht
  have hf : s.frame? frame = some f := by rw [State.frame?_eq, hget]
  obtain ⟨m, hm, hall⟩ := h.frames f (mem_of_getElem? hget)
  obtain ⟨T, hdecl, -⟩ := forall₂_some_right hall (getElem?_eq_getElem hi)
  have hw : w.OfType p.records T := by
    refine hT T f.locals[index] ⟨?_, ?_⟩
    · rw [hf, bind_some, hm, bind_some, hdecl]
    · rw [hf, bind_some, getElem?_eq_getElem hi]
  refine ⟨fun g hg => ?_, hworld ▸ h.memory⟩
  rw [hframes] at hg
  rcases mem_or_eq_of_mem_set hg with hg | rfl
  · exact h.frames g hg
  · exact ⟨m, hm, forall₂_set_right hall hdecl hw⟩

/-- Loads at the declared type give values of it. -/
theorem load (ha : Aimed p s a ty) (hv : s.load p a ty = .ok v) : v.OfType p.records ty := by
  unfold State.load at hv
  split at hv
  · next frame index path =>
    obtain ⟨u, hu, hv⟩ := bind_eq_ok.mp hv
    obtain ⟨T, hlocal, hT⟩ := h.exists_type hu
    obtain ⟨t, ht, hv⟩ := follow_ofType (p := p) hT hv
    have htype := ha frame index path rfl
    rw [hlocal.localType, ht] at htype
    cases htype
    exact hv
  · next r offset =>
    obtain ⟨b, hb, hv⟩ := bind_eq_ok.mp hv
    exact load_ofType (h.memory r b hb) hv
  · cases hv

/-- Stores of values of the declared type keep locals in shape. -/
theorem store {f : Option Fault}
    (hlocal : ∀ frame index path t, a = .pointer (.ofLocal frame index path) →
      s.localType p frame index path = .ok t → v.OfType p.records t) (hmemory :
      ∀ r offset, a = .pointer (.ofMemory r offset) → v.OfType p.records ty)
    (ht : s.store p a ty v = (t, f)) : t.Typed p := by
  unfold State.store at ht
  split at ht
  · next frame index path =>
    split at ht
    · next hu =>
      cases ht
      obtain ⟨u, hu, ht⟩ := bind_eq_ok.mp hu
      obtain ⟨x, hx, ht⟩ := bind_eq_ok.mp ht
      refine h.setLocal (fun T w hw => ?_) ht
      obtain ⟨T', hdecl, hT⟩ := h.exists_type hu
      cases hdecl.declared.symm.trans hw.declared
      exact replace_ofType hT (fun t ht =>
        hlocal frame index path t rfl ((hw.localType path).trans ht)) hx
    · cases ht
      exact h
  · next r offset =>
    cases ht
    exact ⟨h.frames, h.memory.store (ofType_hereditary p.records) (Block.Proper.kept p.records)
      (hmemory r offset rfl)⟩
  · cases ht
    exact h

theorem store_aimed {f : Option Fault} (ha : Aimed p s a ty) (hv : v.OfType p.records ty)
    (ht : s.store p a ty v = (t, f)) : t.Typed p := by
  refine h.store (fun frame index path t he ht => ?_) (fun _ _ _ => hv) ht
  cases (ha frame index path he).symm.trans ht
  exact hv

end

end State.Typed

/-! ## Services -/

/-- No local holds a record that holds itself. -/
def LocalsNest (p : Program) : Prop :=
  ∀ m ∈ p.methods, ∀ T ∈ m.body.locals, ∃ d, T.Nests p.records (fun _ => true) d

/-- A service that copies objects finds them at the type it copies them at. -/
def ServeApt (p : Program) (s : State) (args : List Value) : Service → Prop
  | .memCopy | .memMove => ∀ target source ty, args[0]? = some target → args[1]? = some source →
      (s.pointeeType? p target).or (s.pointeeType? p source) = some ty → Aimed p s target ty ∧
        Aimed p s source ty
  | .vaCopy => ∀ target source, args[0]? = some target → args[1]? = some source →
      Aimed p s target .varArgs ∧ Aimed p s source .varArgs
  | _ => True

variable {m : Method} {s t : State} {a : Value} {ty : Ty} {target : Value} {size : Nat}
  {service : Service} {args : List Value}

theorem localType_nests (hp : LocalsNest p) (h : s.localType p frame index path = .ok ty) :
    ∃ d, ty.Nests p.records (fun _ => true) d := by
  unfold State.localType at h
  split at h
  · next T hT =>
    obtain ⟨f, -, hf⟩ := bind_eq_some_iff.mp hT
    obtain ⟨m, hm, hT⟩ := bind_eq_some_iff.mp hf
    obtain ⟨d, hd⟩ := hp m (mem_of_getElem? hm) T (mem_of_getElem? hT)
    exact ⟨_, typeAlong_nests hd h⟩
  · cases h

theorem Serves.typed (hp : LocalsNest p) (h : s.Typed p) (hs : ServeApt p s args service)
    {r : Option Value} (hr : Serves p s args service t r) : t.Typed p := by
  cases hr with
  | quiet hc hcs hm =>
    refine ⟨fun f hf => h.frames f ?_, hm _ _ (Block.Proper.kept p.records) h.memory⟩
    rwa [State.frames, hc, hcs] at hf
  | @copies _ target source _ ty _ htarget hsource hty hv ht =>
    have haimed : Aimed p s target ty ∧ Aimed p s source ty := by
      obtain ⟨rfl, rfl⟩ | ⟨rfl | rfl, hty⟩ := hty
      · exact hs _ _ htarget hsource
      · exact hs _ _ _ htarget hsource hty
      · exact hs _ _ _ htarget hsource hty
    exact h.store_aimed haimed.1 (h.load haimed.2 hv) ht
  | clears _ hty ht =>
    refine h.store (fun frame index path t he ht => ?_) (fun r offset he => by cases he) ht
    have hpointee : s.pointeeType? p (.pointer (.ofLocal frame index path)) = some t :=
      toOption_eq_some.mpr ht
    cases he
    rw [hty, hpointee, getD_some]
    obtain ⟨d, hd⟩ := localType_nests hp ht
    exact defaultValue_ofType hd

/-! ## Steps -/

/-- An operation that writes to a local finds it at the declared type and has a value of that type
for it. -/
def Apt (p : Program) (s : State) : Op → Prop
  | .storeLocal i =>
    ∀ v rest, s.current.stack = v :: rest → ∀ T u, HasLocal p s s.depth i T u → v.OfType p.records T
  | .storeIndirect ty =>
    ∀ v a rest, s.current.stack = v :: a :: rest → Aimed p s a ty ∧ v.OfType p.records ty
  | .nextVarArg _ => ∀ a rest, s.current.stack = a :: rest → Aimed p s a .varArgs
  | .callService service n =>
    ServeApt p (s.withStack (s.current.stack.drop n)) (s.current.stack.take n).reverse service
  | _ => True

theorem Aimed.withStack (h : Aimed p s a ty) (stack : List Value) :
    Aimed p (s.withStack stack) a ty := by
  intro frame index path he
  rw [← h frame index path he, State.localType, State.localType,
    bind_frame_withStack fun _ _ => rfl]

theorem HasLocal.of_withStack {stack : List Value} {u : Value}
    (h : HasLocal p (s.withStack stack) frame index T u) : HasLocal p s frame index T u :=
  h.withStack s.current.stack

/-- Operations keep states in shape if what they write to locals has the declared type. -/
theorem Acts.typed (hp : LocalsNest p) (h : s.Typed p) (hm : p.methods[s.current.method]? = some m)
    (hop : Apt p s op) (ha : Acts p m s op t) : t.Typed p := by
  cases ha with
  | none => exact h.withStack _
  | storeLocal hs ht =>
    exact (h.withStack _).setLocal (fun T u hT => hop _ _ hs T u hT.of_withStack) ht
  | initLocal ht =>
    refine h.setLocal (fun T u hT => ?_) ht
    have hdecl := hT.declared
    rw [State.frame?_eq, State.frames_depth, bind_some, hm, bind_some] at hdecl
    obtain ⟨d, hd⟩ := hp m (mem_of_getElem? hm) T (mem_of_getElem? hdecl)
    rw [getD_eq_getElem?_getD, hdecl, getD_some]
    exact defaultValue_ofType hd
  | storeIndirect hs ht =>
    obtain ⟨ha, hv⟩ := hop _ _ _ hs
    exact (h.withStack _).store_aimed (ha.withStack _) hv ht
  | @nextVarArg _ _ _ vs n _ hs ht =>
    have hv : (Value.varArgs vs n).OfType p.records .varArgs := .scalar rfl rfl
    exact (h.withStack _).store_aimed ((hop _ _ hs).withStack _) hv ht
  | callService hr => exact hr.typed hp (h.withStack _) hop

theorem enter_typed (hp : LocalsNest p) {frames method : Nat} {use : ResultUse}
    (h : enter p frames method args use = .ok f) : f.Typed p := by
  obtain ⟨m, hm, -, -, rfl⟩ := enter_eq_ok.mp h
  refine ⟨m, hm, forall₂_map_right_iff.mpr (forall₂_same.mpr fun T hT => ?_)⟩
  obtain ⟨d, hd⟩ := hp m (mem_of_getElem? hm) T hT
  exact defaultValue_ofType hd

theorem State.typed_iff :
    s.Typed p ↔ (∀ f ∈ s.current :: s.callers, f.Typed p) ∧ s.world.memory.Each Block.Proper := by
  refine ⟨fun h => ⟨fun f hf => h.frames f ?_, h.memory⟩, fun h => ⟨fun f hf => h.1 f ?_, h.2⟩⟩
  · rwa [State.frames_eq_reverse, mem_reverse]
  · rwa [State.frames_eq_reverse, mem_reverse] at hf

theorem Goes.typed (hp : LocalsNest p) (h : s.Typed p) (hm : p.methods[s.current.method]? = some m)
    (hop : Apt p s op) {S : Scope} (ht : Goes S p m s op (.running t)) : t.Typed p := by
  have hall := (State.typed_iff.mp h).1
  cases ht with
  | next vs ha => exact ((ha.typed hp h hm hop).withStack _).goTo _
  | jump => exact (h.withStack _).goTo _
  | call _ _ hf =>
    have hrest := State.typed_iff.mp (h.withStack (s.current.stack.drop (op.takes m)))
    exact State.typed_iff.mpr ⟨forall_mem_cons.mpr ⟨enter_typed hp hf, hrest.1⟩, h.memory⟩
  | returns _ _ _ hc hf =>
    obtain ⟨vs, -, rfl⟩ := resume_eq_ok hf
    rw [hc] at hall
    obtain ⟨hcaller, hrest⟩ := forall_mem_cons.mp (forall_mem_cons.mp hall).2
    exact State.typed_iff.mpr ⟨forall_mem_cons.mpr ⟨hcaller, hrest⟩, h.memory⟩
  | catches _ _ _ hsplit =>
    rw [hsplit] at hall
    obtain ⟨hf, houter⟩ := forall_mem_cons.mp (forall_mem_append.mp hall).2
    exact State.typed_iff.mpr ⟨forall_mem_cons.mpr ⟨hf, houter⟩, h.memory⟩

/-- Steps in which operations find locals at their declared types. -/
inductive AptSteps (p : Program) (s : State) : State → Prop
  | refl : AptSteps p s s
  | step {t u : State} : AptSteps p s t →
      (∀ m op, p.methods[t.current.method]? = some m → m.body.ops[t.current.pc]? = some op →
        Apt p t op) →
      Machine.step p t = .running u → AptSteps p s u

theorem AptSteps.typed (hp : LocalsNest p) (hs : s.Typed p) (h : AptSteps p s t) : t.Typed p := by
  induction h with
  | refl => exact hs
  | step _ hop hstep ih =>
    obtain ⟨m, op, hm, ho, hgoes⟩ := step_running hstep
    exact hgoes.typed hp ih hm (hop m op hm ho)

/-- In a run that writes to locals at their declared types, a load gives a value of the type it asks
for: from memory always, and from a local if that is the declared type of what the address leads
to. -/
theorem loadIndirect_ofType (hp : LocalsNest p) {method : Nat} {args rest : List Value}
    {f : Frame} {w : World} (hf : enter p 0 method args .pushed = .ok f)
    (hw : w.memory.Each Block.Proper) (hrun : AptSteps p ⟨f, [], w⟩ s)
    (hs : s.current.stack = a :: rest) (ha : Aimed p s a ty)
    (h : execute p m s (.loadIndirect ty) = .next t) :
    ∃ v, t.current.stack = v :: rest ∧ v.OfType p.records ty := by
  have hstart : State.Typed p ⟨f, [], w⟩ := by
    refine ⟨fun g hg => ?_, hw⟩
    cases mem_singleton.mp hg
    exact enter_typed hp hf
  have htyped := (hrun.typed hp hstart).withStack rest
  have hexec : execute p m s (.loadIndirect ty) = (s.withStack rest).deliver
      ((s.withStack rest).load p a ty) := by
    rw [execute, State.pop, hs]
  rw [hexec] at h
  cases hv : (s.withStack rest).load p a ty with
  | error f =>
    rw [hv] at h
    cases h
  | ok v =>
    rw [hv] at h
    cases h
    exact ⟨v, rfl, htyped.load (ha.withStack rest) hv⟩

theorem AptSteps.next {u : State} (h : AptSteps p s t) (hm : p.methods[t.current.method]? = some m)
    (ho : m.body.ops[t.current.pc]? = some op) (hop : Apt p t op)
    (hu : execute p m t op = .next u) : AptSteps p s (u.goTo (u.current.pc + 1)) := by
  refine .step h (fun m' op' hm' ho' => ?_) ?_
  · cases hm.symm.trans hm'
    cases ho.symm.trans ho'
    exact hop
  · unfold Machine.step
    simp only [hm, ho, hu, Action.outcome]

/-- Sets an element of a local array and loads it again. -/
def cells : Program where
  consts := [.int .w64 1, .int .w32 7]
  methods := [⟨"main", "main", .exported, ⟨[], .int .w32, false⟩, [],
    { locals := [.array (.int .w32) 2]
      ops := [.loadLocalAddress 0, .loadConst 0, .elementAddress (.int .w32), .loadConst 1,
        .storeIndirect (.int .w32), .loadLocalAddress 0, .loadConst 0, .elementAddress (.int .w32),
          .loadIndirect (.int .w32), .ret] }⟩]

/-- The method at a position, with an element set to `n`. -/
def cellsAt (n : Int) (stack : List Value) (pc : Nat) : State where
  current := { method := 0, args := [], locals := [.array [.int .w32 0, .int .w32 n]], stack, pc }
  world := .ofProgram cells

theorem cells_loadIndirect_ofType :
    ∃ f s t v, enter cells 0 0 [] .pushed = .ok f ∧ AptSteps cells ⟨f, [], .ofProgram cells⟩ s ∧
      execute cells cells.methods[0] s (.loadIndirect (.int .w32)) = .next t ∧
        t.current.stack = [v] ∧
      v.OfType cells.records (.int .w32) := by
  have hnest : LocalsNest cells := by
    intro m hm T hT
    cases mem_singleton.mp hm
    cases mem_singleton.mp hT
    exact ⟨0, .array (.scalar rfl rfl)⟩
  have hmemory : (World.ofProgram cells).memory.Each Block.Proper :=
    .ofStatics (Block.Proper.kept cells.records) []
  have hf : enter cells 0 0 [] .pushed = .ok (cellsAt 0 [] 0).current := rfl
  let array : Value := .pointer (.ofLocal 0 0 [])
  let element : Value := .pointer (.ofLocal 0 0 [.element 1])
  have haimed (n : Int) (stack : List Value) (pc : Nat) :
      Aimed cells (cellsAt n stack pc) element (.int .w32) := by
    intro frame index path he
    have he : Value.pointer (.ofLocal 0 0 [.element 1]) = .pointer (.ofLocal frame index path) := he
    cases he
    rfl
  have hapt : Apt cells (cellsAt 0 [.int .w32 7, element] 4) (.storeIndirect (.int .w32)) := by
    intro v a rest hs
    cases hs
    exact ⟨haimed 0 _ 4, .scalar rfl ⟨rfl, by decide⟩⟩
  have h₀ : AptSteps cells (cellsAt 0 [] 0) (cellsAt 0 [] 0) := .refl
  have h₁ : AptSteps cells _ (cellsAt 0 [array] 1) := h₀.next rfl rfl trivial rfl
  have h₂ : AptSteps cells _ (cellsAt 0 [.int .w64 1, array] 2) := h₁.next rfl rfl trivial rfl
  have h₃ : AptSteps cells _ (cellsAt 0 [element] 3) := h₂.next rfl rfl trivial rfl
  have h₄ : AptSteps cells _ (cellsAt 0 [.int .w32 7, element] 4) := h₃.next rfl rfl trivial rfl
  have h₅ : AptSteps cells _ (cellsAt 7 [] 5) := h₄.next rfl rfl hapt rfl
  have h₆ : AptSteps cells _ (cellsAt 7 [array] 6) := h₅.next rfl rfl trivial rfl
  have h₇ : AptSteps cells _ (cellsAt 7 [.int .w64 1, array] 7) := h₆.next rfl rfl trivial rfl
  have h₈ : AptSteps cells _ (cellsAt 7 [element] 8) := h₇.next rfl rfl trivial rfl
  have hload : execute cells cells.methods[0] (cellsAt 7 [element] 8) (.loadIndirect (.int .w32)) =
      .next (cellsAt 7 [.int .w32 7] 8) := rfl
  obtain ⟨v, hv, htype⟩ := loadIndirect_ofType hnest hf hmemory h₈ rfl (haimed 7 _ 8) hload
  exact ⟨_, _, _, v, hf, h₈, hload, hv, htype⟩

/-- Loads the first element of an array through the address of the array. -/
def firstElement : Ssa.Module where
  functions :=
    let int (bits : Nat) (n : Int) : Ssa.Operand := .const (.int (.int bits) n)
    [{ name := "f", type := ⟨.int 32, [], false⟩, params := [],
       blocks := [{ id := 0, instructions :=
         [{ id := 1, opcode := .alloca, ty := .pointer, operands := [], info :=
              .alloca (.array (.int 32) 2) },
          { id := 2, opcode := .getElementPtr, ty := .pointer, operands :=
              [.value 1, int 64 0, int 64 0],
            info := .gep (.array (.int 32) 2) true },
          { id := 3, opcode := .store, ty := .void, operands := [int 32 7, .value 2] },
          { id := 4, opcode := .load, ty := .int 32, operands := [.value 1] },
          { id := 5, opcode := .ret, ty := .void, operands := [.value 4] }] }] }]

/-- Its code. -/
def firstElementCode : Program where
  name := "Translated"
  consts := [.int .w64 0, .int .w32 7]
  methods := [⟨"f", "f", .exported, ⟨[], .int .w32, false⟩, [],
    { locals := [.array (.int .w32) 2, .pointer (.int .w32)]
      ops :=
        [.label 0, .initLocal 0, .loadLocalAddress 0, .loadConst 0, .elementAddress (.int .w32),
          .storeLocal 1, .loadLocal 1, .loadConst 1, .storeIndirect (.int .w32),
            .loadLocalAddress 0, .loadIndirect (.int .w32), .ret]
      labelCount := 1 }⟩]

/-- A load through the address of a local gives the whole of it, whatever type it asks for. -/
theorem load_ignores_type :
    Lower.lower firstElement {} = .ok firstElementCode ∧ LocalsNest firstElementCode ∧
      ∃ w, callMethod firstElementCode 20 (.ofProgram firstElementCode) 0 [] =
        some (w, .ok (some (.array [.int .w32 7, .int .w32 0]))) ∧
      ¬ (Value.array [.int .w32 7, .int .w32 0]).OfType firstElementCode.records (.int .w32) := by
  have hlower : (Lower.lower firstElement {}).toOption = some firstElementCode := by decide +kernel
  refine ⟨toOption_eq_some.mp hlower, ?_, World.ofProgram firstElementCode, rfl, ?_⟩
  · intro m hm T hT
    cases mem_singleton.mp hm
    rcases mem_cons.mp hT with rfl | hT
    · exact ⟨0, .array (.scalar rfl rfl)⟩
    · cases mem_singleton.mp hT
      exact ⟨0, .scalar rfl rfl⟩
  · intro h
    obtain ⟨e, he, -⟩ := array_ofType h
    cases he

end Stackify.Machine
