import Stackify.Machine.Arith
import Stackify.Machine.Serve
import Stackify.Proofs.References

/-!
What a program can get hold of.

A `Scope` says which values may occur, which blocks may be addressed and which faults may be
reported. Arithmetic, memory, addresses and services stay within a scope:

    S.Gives S.Holds (binary op kind a b)
    s.Within S → S.Holds address → S.Gives S.Holds (s.load p address ty)

In the scope of everything (`Scope.all`) this says that none of them reports a fault of control.
-/

namespace Stackify.Machine

open Code (Ty Program Record Service RecordId)
open List

/-- Values without parts that mention no block and no method. -/
def Value.isPlain : Value → Bool
  | .bool _ | .int _ _ | .float _ _ | .null | .exception _ | .pointer (.ofLocal _ _ _) => true
  | _ => false

/-- Values, blocks and faults that may occur, and frames by their method and their numbers of
arguments and locals. -/
structure Scope where
  Holds : Value → Prop
  Reaches : Region → Prop
  Reports : Fault → Prop
  Fits : Nat → Nat → Nat → Prop
  ordinary : ∀ {f : Fault}, f.isOrdinary = true → Reports f
  plain : ∀ {v : Value}, v.isPlain = true → Holds v
  heap : ∀ i, Reaches (.heap i)
  address : ∀ {r o}, Holds (.pointer (.ofMemory r o)) ↔ Reaches r
  record : ∀ {vs}, Holds (.record vs) ↔ ∀ v ∈ vs, Holds v
  array : ∀ {vs}, Holds (.array vs) ↔ ∀ v ∈ vs, Holds v
  varArgs : ∀ {vs n}, Holds (.varArgs vs n) ↔ ∀ v ∈ vs, Holds v

/-- Everything may occur but faults of control. -/
def Scope.all : Scope where
  Holds _ := True
  Reaches _ := True
  Reports f := f.isControl = false
  Fits _ _ _ := True
  ordinary h := by simpa using (Bool.and_eq_true_iff.mp h).1
  plain _ := trivial
  heap _ := trivial
  address := Iff.rfl
  record := by simp
  array := by simp
  varArgs := by simp

/-- A result with a property, or a fault that may be reported. -/
def Scope.Gives (S : Scope) {α : Type} (P : α → Prop) : Except Fault α → Prop
  | .ok a => P a
  | .error f => S.Reports f

namespace Scope.Gives

variable {S : Scope} {α β : Type} {P : α → Prop} {Q : β → Prop} {x : Except Fault α}
  {f : α → Except Fault β} {l : List α}

theorem of_ok (h : S.Gives P x) {a : α} (hx : x = .ok a) : P a := by
  subst hx
  exact h

theorem of_error (h : S.Gives P x) {f : Fault} (hx : x = .error f) : S.Reports f := by
  subst hx
  exact h

theorem of_ordinary (hx : Ordinary x) (h : ∀ a, x = .ok a → P a) : S.Gives P x := by
  cases x with
  | ok a => exact h a rfl
  | error f => exact S.ordinary (hx f rfl)

theorem bind (hx : S.Gives P x) (hf : ∀ a, P a → S.Gives Q (f a)) : S.Gives Q (x >>= f) := by
  cases x with
  | ok a => exact hf a hx
  | error e => exact hx

/-- The property may use where the result comes from. -/
theorem with_eq (h : S.Gives P x) : S.Gives (fun a => x = .ok a ∧ P a) x := by
  cases x with
  | ok a => exact ⟨rfl, h⟩
  | error f => exact h

theorem map {f : α → β} (hx : S.Gives P x) (hf : ∀ a, P a → Q (f a)) : S.Gives Q (x.map f) := by
  cases x with
  | ok a => exact hf a hx
  | error e => exact hx

theorem of_mem (hx : S.Gives (· ∈ l) x) (h : ∀ a ∈ l, P a) : S.Gives P x := by
  cases x with
  | ok a => exact h a hx
  | error f => exact hx

theorem mapM (h : ∀ a ∈ l, S.Gives Q (f a)) : S.Gives (fun bs => ∀ b ∈ bs, Q b) (l.mapM f) := by
  induction l with
  | nil =>
    rintro b ⟨⟩
  | cons a l ih =>
    rw [mapM_cons]
    refine bind (h a mem_cons_self) fun b hb => ?_
    exact bind (ih fun c hc => h c (mem_cons_of_mem _ hc)) fun bs hbs =>
      forall_mem_cons.mpr ⟨hb, hbs⟩

end Scope.Gives

section
variable {S : Scope}

/-! ## Arithmetic -/

theorem intOperand_gives (name : String) (v : Value) :
    S.Gives (fun _ => True) (intOperand name v) := by
  unfold intOperand
  split
  · trivial
  · exact S.ordinary rfl

theorem floatOperand_gives (name : String) (v : Value) :
    S.Gives (fun _ => True) (floatOperand name v) := by
  unfold floatOperand
  split
  · trivial
  · exact S.ordinary rfl

theorem boolOperand_gives (name : String) (v : Value) :
    S.Gives (fun _ => True) (boolOperand name v) := by
  unfold boolOperand
  split
  · trivial
  · trivial
  · exact S.ordinary rfl

theorem binary_gives (op : Code.BinaryOp) (kind : Code.NumKind) (a b : Value) :
    S.Gives S.Holds (binary op kind a b) := by
  cases kind with
  | int w =>
    refine (intOperand_gives _ a).bind fun x _ => (intOperand_gives _ b).bind fun y _ => ?_
    split
    · exact S.plain rfl
    · exact S.ordinary rfl
  | bool =>
    refine (boolOperand_gives _ a).bind fun x _ => (boolOperand_gives _ b).bind fun y _ => ?_
    split
    · exact S.plain rfl
    · exact S.ordinary rfl
  | float k =>
    refine (floatOperand_gives _ a).bind fun x _ => (floatOperand_gives _ b).bind fun y _ => ?_
    split
    · exact S.plain rfl
    · exact S.ordinary rfl
  | pointer => exact S.ordinary rfl

theorem unary_gives (op : Code.UnaryOp) (kind : Code.NumKind) (v : Value) :
    S.Gives S.Holds (unary op kind v) := by
  unfold unary
  split
  any_goals exact (intOperand_gives _ v).map fun _ _ => S.plain rfl
  any_goals exact (boolOperand_gives _ v).map fun _ _ => S.plain rfl
  · split
    · exact S.plain rfl
    · exact S.ordinary rfl
  · exact (floatOperand_gives _ v).map fun _ _ => S.plain rfl
  · exact S.ordinary rfl

theorem compare_gives (op : Code.CompareOp) (kind : Code.NumKind) (a b : Value) :
    S.Gives (fun _ => True) (compare op kind a b) := by
  cases kind with
  | int w =>
    exact (intOperand_gives _ a).bind fun _ _ => (intOperand_gives _ b).bind fun _ _ => trivial
  | bool =>
    exact (boolOperand_gives _ a).bind fun _ _ => (boolOperand_gives _ b).bind fun _ _ => trivial
  | float k =>
    exact (floatOperand_gives _ a).bind fun _ _ => (floatOperand_gives _ b).bind fun _ _ => trivial
  | pointer =>
    show S.Gives _ (comparePointers op a b)
    unfold comparePointers
    split
    · trivial
    · split
      · trivial
      · exact S.ordinary rfl
    · exact S.ordinary rfl

theorem convert_gives (source target : Code.NumKind) (signed : Bool) {v : Value} (hv : S.Holds v) :
    S.Gives S.Holds (convert source target signed v) := by
  unfold convert
  split
  any_goals exact (intOperand_gives _ v).map fun _ _ => S.plain rfl
  any_goals exact (boolOperand_gives _ v).map fun _ _ => S.plain rfl
  any_goals exact (floatOperand_gives _ v).map fun _ _ => S.plain rfl
  · exact hv
  · split
    · exact S.plain rfl
    · exact S.ordinary rfl
  · refine (intOperand_gives _ v).bind fun n _ => ?_
    split
    · exact S.plain rfl
    · exact S.ordinary rfl
  · exact S.ordinary rfl

/-! ## Defaults and constants -/

theorem defaultWith_holds {ofRecord : RecordId → Value}
    (h : ∀ id, S.Holds (ofRecord id)) (ty : Ty) : S.Holds (defaultWith ofRecord ty) := by
  induction ty with
  | array e n ih =>
    refine S.array.mpr fun v hv => ?_
    rw [eq_of_mem_replicate hv]
    exact ih
  | record id => exact h id
  | varArgs => exact S.varArgs.mpr (by simp)
  | _ => exact S.plain rfl

theorem defaultRecord_holds (records : List Record) (depth : Nat) (id : RecordId) :
    S.Holds (defaultRecord records depth id) := by
  induction depth generalizing id with
  | zero => exact S.record.mpr (by simp)
  | succ depth ih =>
    rw [defaultRecord]
    split
    · exact S.record.mpr (by simp)
    · refine S.record.mpr fun v hv => ?_
      obtain ⟨f, -, rfl⟩ := List.mem_map.mp hv
      exact defaultWith_holds ih f.ty

theorem defaultValue_holds (records : List Record) (ty : Ty) : S.Holds (defaultValue records ty) :=
  defaultWith_holds (defaultRecord_holds records records.length) ty

theorem constValue_holds (records : List Record) (c : Code.Const) :
    S.Holds (constValue records c) := by
  cases c with
  | default ty => exact defaultValue_holds records ty
  | _ => exact S.plain rfl

/-! ## Memory -/

theorem Scope.kept (S : Scope) : KeptByAll (fun _ v => S.Holds v) (Block.All S.Holds) :=
  Block.All.kept (fun _ _ h => h) fun _ h => h

theorem Scope.hereditary (S : Scope) (records : List Record) : Hereditary records fun _ v =>
    S.Holds v where
  array h := S.array.mp h
  record _ h _ _ v _ hv := S.record.mp h v (mem_of_getElem? hv)

variable {b : Block}

theorem loadWith_gives (records : List Record) (hb : b.All S.Holds)
    {loadRecord : RecordId → Nat → Except Fault Value}
    (h : ∀ id o, S.Gives S.Holds (loadRecord id o)) (ty : Ty) (offset : Nat) :
    S.Gives S.Holds (loadWith records b loadRecord ty offset) := by
  induction ty generalizing offset with
  | void => exact S.ordinary rfl
  | bool | int w =>
    exact .of_ordinary Block.read_ordinary.map fun v hv =>
      (map_eq_ok.mp hv).elim fun _ h => h.2 ▸ S.plain rfl
  | float k =>
    cases k with
    | half => exact S.ordinary rfl
    | single | double =>
      exact .of_ordinary Block.read_ordinary.map fun v hv =>
        (map_eq_ok.mp hv).elim fun _ h => h.2 ▸ S.plain rfl
  | pointer | varArgs =>
    exact .of_ordinary Block.read_ordinary.map fun v hv =>
      (map_eq_ok.mp hv).elim fun _ h => h.2 ▸ hb.reference (S.plain rfl) offset
  | array e n ih =>
    rw [loadWith, loadItems_eq_mapM]
    exact (Scope.Gives.mapM fun _ _ => ih _).map fun vs hvs => S.array.mpr hvs
  | record id => exact h id offset

theorem loadRecord_gives (records : List Record) (hb : b.All S.Holds) (depth : Nat)
    (id : RecordId) (offset : Nat) :
    S.Gives S.Holds (loadRecord records b depth id offset) := by
  induction depth generalizing id offset with
  | zero => exact S.ordinary rfl
  | succ depth ih =>
    rw [loadRecord]
    split
    · exact S.ordinary rfl
    · exact (Scope.Gives.mapM fun f _ => loadWith_gives records hb ih _ _).map fun vs hvs =>
        S.record.mpr hvs

/-- References are in scope, and so is the fault of a static that has no block. -/
structure Memory.Within (S : Scope) (m : Memory) : Prop where
  blocks : m.Each (Block.All S.Holds)
  statics : ∀ i, S.Reaches (.static i) → i < m.statics.length ∨ S.Reports (.dangling (.static i))

namespace Memory

variable {m : Memory} {r : Region} {offset size : Nat}

theorem block_error {f : Fault} (h : m.block r = .error f) : f = .dangling r := by
  unfold block at h
  dsimp only at h
  split at h
  · cases h
  · cases h
    rfl

theorem free_ordinary : Ordinary (m.free r) := by
  cases r with
  | static i => exact ordinary_error rfl
  | heap i =>
    rw [free]
    split
    · exact ordinary_ok _
    · exact ordinary_error rfl

section
variable (hm : m.Within S)
include hm

theorem Within.block (hr : S.Reaches r) : S.Gives (Block.All S.Holds) (m.block r) := by
  cases hb : m.block r with
  | ok b => exact hm.blocks r b hb
  | error f =>
    cases block_error hb
    cases r with
    | heap i => exact S.ordinary rfl
    | static i =>
      rcases hm.statics i hr with hlt | hf
      · cases (block_static.mpr (getElem?_eq_getElem hlt)).symm.trans hb
      · exact hf

theorem Within.setBlock (hb : b.All S.Holds) : (m.setBlock r b).Within S := by
  refine ⟨hm.blocks.setBlock hb, ?_⟩
  cases r with
  | static i => simpa [Memory.setBlock] using hm.statics
  | heap i => exact hm.statics

theorem Within.allocate (size : Nat) : (m.allocate size).2.Within S :=
  ⟨hm.blocks.allocate S.kept size, hm.statics⟩

theorem Within.free : S.Gives (Memory.Within S) (m.free r) := by
  refine .of_ordinary free_ordinary fun m' h => ⟨hm.blocks.free h, ?_⟩
  cases r with
  | static i => cases h
  | heap i =>
    rw [Memory.free] at h
    split at h
    · cases h
      exact hm.statics
    · cases h

theorem Within.resize (hr : S.Reaches r) : S.Gives (Memory.Within S) (m.resize r size) :=
  (hm.block hr).map fun _ hb => hm.setBlock (S.kept.resize size hb)

theorem Within.load (hr : S.Reaches r) (records : List Record) (ty : Ty) :
    S.Gives S.Holds (m.load records r offset ty) :=
  (hm.block hr).bind fun _ hb => loadWith_gives records hb (loadRecord_gives records hb _) ty offset

theorem Within.store (hr : S.Reaches r) (records : List Record) (offset : Nat) (ty : Ty) {v : Value}
    (hv : S.Holds v) : (m.store records r offset ty v).1.Within S ∧
      ∀ f, (m.store records r offset ty v).2 = some f → S.Reports f := by
  have hb := hm.block hr
  unfold Memory.store
  split
  · next f h => exact ⟨hm, by simpa using hb.of_error h⟩
  · next b h =>
    have hs : (b.store records ty offset v).Keeps (Block.All S.Holds) :=
      store_keeps (S.hereditary records) S.kept.toKeptByWrites hv (hb.of_ok h)
    exact ⟨hm.setBlock hs.1, fun f hf => S.ordinary (hs.2 f hf)⟩

theorem Within.copy {q : Region} (hr : S.Reaches r) (hq : S.Reaches q) (i j size : Nat) :
    (m.copy r i q j size).1.Within S ∧ ∀ f, (m.copy r i q j size).2 = some f → S.Reports f := by
  have hslice : S.Gives (Block.All S.Holds) ((m.block q).bind (·.slice j size)) :=
    (hm.block hq).bind fun b hb =>
      .of_ordinary Block.read_ordinary.map fun part h => S.kept.slice h hb
  have hb := hm.block hr
  unfold Memory.copy
  split
  · next part b hpart hblock =>
    obtain ⟨f, hf, hpaste⟩ | ⟨b₁, -, hpaste⟩ := b.paste_cases part i
    · rw [hpaste]
      refine ⟨hm.setBlock (hb.of_ok hblock), ?_⟩
      rintro _ ⟨⟩
      exact S.ordinary (Block.write_ordinary _ hf)
    · rw [hpaste]
      exact ⟨hm.setBlock (S.kept.paste hpaste (hslice.of_ok hpart) (hb.of_ok hblock)), nofun⟩
  · next h => exact ⟨hm, by simpa using hslice.of_error h⟩
  · next h => exact ⟨hm, by simpa using hb.of_error h⟩

theorem Within.fill (hr : S.Reaches r) (offset : Nat) (octet : UInt8) (size : Nat) :
    S.Gives (Memory.Within S) (m.fill r offset octet size) := by
  refine (hm.block hr).bind fun b hb => ?_
  refine Scope.Gives.bind (P := Block.All S.Holds) (.of_ordinary Block.fill_ordinary fun c h => ?_)
    fun c hc => hm.setBlock hc
  unfold Block.fill at h
  split at h
  · exact S.kept.write h hb
  · cases h

end

end Memory

/-! ## States -/

structure Frame.Within (S : Scope) (f : Frame) : Prop where
  fits : S.Fits f.method f.args.length f.locals.length
  args : ∀ v ∈ f.args, S.Holds v
  locals : ∀ v ∈ f.locals, S.Holds v
  stack : ∀ v ∈ f.stack, S.Holds v

structure State.Within (S : Scope) (s : State) : Prop where
  current : s.current.Within S
  callers : ∀ f ∈ s.callers, f.Within S
  memory : s.world.memory.Within S

theorem State.within_all (s : State) : s.Within .all :=
  ⟨⟨trivial, fun _ _ => trivial, fun _ _ => trivial, fun _ _ => trivial⟩,
    fun _ _ => ⟨trivial, fun _ _ => trivial, fun _ _ => trivial, fun _ _ => trivial⟩,
    fun _ _ _ _ _ => trivial, fun _ _ => .inr rfl⟩

/-- A state after a change of it, with a property unless a fault ended the change. -/
def Scope.Leaves (S : Scope) (P : State → Prop) (x : State × Option Fault) : Prop :=
  x.1.Within S ∧ (∀ f, x.2 = some f → S.Reports f) ∧ (x.2 = none → P x.1)

namespace Scope.Leaves

variable {P Q : State → Prop} {s : State} {x : State × Option Fault}

theorem fault {f : Fault} (hs : s.Within S) (hf : S.Reports f) : S.Leaves P (s, some f) :=
  ⟨hs, by simpa using hf, nofun⟩

theorem done (hs : s.Within S) (h : P s) : S.Leaves P (s, none) := ⟨hs, nofun, fun _ => h⟩

theorem mono (hx : S.Leaves P x) (h : ∀ t, x = (t, none) → P t → Q t) : S.Leaves Q x :=
  ⟨hx.1, hx.2.1, fun hn => h x.1 (Prod.ext rfl hn) (hx.2.2 hn)⟩

end Scope.Leaves

namespace State.Within

variable {s : State}

section
variable (hs : s.Within S)
include hs

theorem withMemory {m : Memory} (hm : m.Within S) : (s.withMemory m).Within S :=
  ⟨hs.current, hs.callers, hm⟩

theorem write (text : String) : (s.write text).Within S := ⟨hs.current, hs.callers, hs.memory⟩

theorem goTo (pc : Nat) : (s.goTo pc).Within S :=
  ⟨⟨hs.current.fits, hs.current.args, hs.current.locals, hs.current.stack⟩, hs.callers, hs.memory⟩

theorem withStack (stack : List Value) (h : ∀ v ∈ stack, S.Holds v) :
    (s.withStack stack).Within S :=
  ⟨⟨hs.current.fits, hs.current.args, hs.current.locals, h⟩, hs.callers, hs.memory⟩

theorem push {v : Value} (hv : S.Holds v) : (s.push v).Within S :=
  hs.withStack (v :: s.current.stack) (forall_mem_cons.mpr ⟨hv, hs.current.stack⟩)

theorem frame {i : Nat} {f : Frame} (h : s.frame? i = some f) : f.Within S := by
  unfold State.frame? at h
  split at h
  · rcases mem_cons.mp (mem_of_getElem? h) with rfl | hf
    · exact hs.current
    · exact hs.callers f hf
  · cases h

theorem setLocal (frame index : Nat) {v : Value} (hv : S.Holds v) :
    S.Gives (State.Within S) (s.setLocal frame index v) := by
  unfold State.setLocal
  split
  · exact S.ordinary rfl
  · next f hf =>
    split
    · have hF := hs.frame hf
      have hnew : Frame.Within S { f with locals := f.locals.set index v } := by
        refine ⟨?_, hF.args, fun u hu => ?_, hF.stack⟩
        · simpa using hF.fits
        · rcases mem_or_eq_of_mem_set hu with hu | rfl
          · exact hF.locals u hu
          · exact hv
      show (s.setFrame frame _).Within S
      unfold State.setFrame
      split
      · exact ⟨hnew, hs.callers, hs.memory⟩
      · refine ⟨hs.current, fun g hg => ?_, hs.memory⟩
        rcases mem_or_eq_of_mem_set hg with hg | rfl
        · exact hs.callers g hg
        · exact hnew
    · exact S.ordinary rfl

end

end State.Within

theorem State.Within.local {s : State} (hs : s.Within S) (frame index : Nat) :
    S.Gives S.Holds (s.local? frame index) := by
  unfold State.local?
  split
  · next v h =>
    obtain ⟨f, hf, hv⟩ := Option.bind_eq_some_iff.mp h
    exact (hs.frame hf).locals v (mem_of_getElem? hv)
  · exact S.ordinary rfl

/-! ## Addresses -/

variable {p : Program} {s : State} {v w address target : Value} {args : List Value}

theorem badAddress_ordinary (v : Value) : (badAddress v).isOrdinary = true := by
  unfold badAddress
  split <;> rfl

theorem part?_holds {step : PathStep} (hv : S.Holds v) (h : Value.part? step v = some w) :
    S.Holds w := by
  unfold Value.part? at h
  split at h
  · exact S.record.mp hv w (mem_of_getElem? h)
  · split at h
    · cases h
    · exact S.array.mp hv w (mem_of_getElem? h)
  · cases h

theorem setPart_holds (step : PathStep) (hv : S.Holds v) (hw : S.Holds w) :
    S.Holds (Value.setPart step v w) := by
  have hset (vs : List Value) (i : Nat) (hvs : ∀ u ∈ vs, S.Holds u) :
      ∀ u ∈ vs.set i w, S.Holds u := by
    intro u hu
    rcases mem_or_eq_of_mem_set hu with hu | rfl
    · exact hvs u hu
    · exact hw
  unfold Value.setPart
  split
  · exact S.record.mpr (hset _ _ (S.record.mp hv))
  · exact S.array.mpr (hset _ _ (S.array.mp hv))
  · exact hv

theorem follow_gives (hv : S.Holds v) (path : List PathStep) : S.Gives S.Holds (v.follow path) := by
  induction path generalizing v with
  | nil => exact hv
  | cons step path ih =>
    rw [Value.follow]
    split
    · next w h => exact ih (part?_holds hv h)
    · exact S.ordinary rfl

theorem replace_gives {new : Value} (hv : S.Holds v) (hn : S.Holds new) (path : List PathStep) :
    S.Gives S.Holds (v.replace new path) := by
  induction path generalizing v with
  | nil => exact hn
  | cons step path ih =>
    rw [Value.replace]
    split
    · next w h => exact (ih (part?_holds hv h)).map fun u hu => setPart_holds step hv hu
    · exact S.ordinary rfl

theorem typeAlong_gives (frame index : Nat) (ty : Ty) (path : List PathStep) :
    S.Gives (fun _ => True) (State.typeAlong p frame index ty path) := by
  induction path generalizing ty with
  | nil =>
    rw [State.typeAlong]
    trivial
  | cons step path ih =>
    cases step <;> cases ty <;> simp only [State.typeAlong]
    case field.record =>
      split
      · exact ih _
      · exact S.ordinary rfl
    case element.array => exact ih _
    all_goals exact S.ordinary rfl

theorem localType_gives (frame index : Nat) (path : List PathStep) :
    S.Gives (fun _ => True) (s.localType p frame index path) := by
  unfold State.localType
  split
  · exact typeAlong_gives _ _ _ _
  · exact S.ordinary rfl

theorem State.Within.load (hs : s.Within S) (ha : S.Holds address) (ty : Ty) :
    S.Gives S.Holds (s.load p address ty) := by
  unfold State.load
  split
  · exact (hs.local _ _).bind fun v hv => follow_gives hv _
  · exact hs.memory.load (S.address.mp ha) p.records ty
  · exact S.ordinary (badAddress_ordinary _)

theorem State.Within.store (hs : s.Within S) (ha : S.Holds address) (ty : Ty) (hv : S.Holds v) :
    S.Leaves (fun _ => True) (s.store p address ty v) := by
  unfold State.store
  split
  · next frame index path =>
    have h : S.Gives (State.Within S)
        (do s.setLocal frame index (← (← s.local? frame index).replace v path)) :=
      (hs.local _ _).bind fun u hu =>
        (replace_gives hu hv path).bind fun x hx => hs.setLocal frame index hx
    split
    · next ht => exact .done (h.of_ok ht) trivial
    · next hf => exact .fault hs (h.of_error hf)
  · next r offset =>
    have h := hs.memory.store (S.address.mp ha) p.records offset ty hv
    exact ⟨hs.withMemory h.1, h.2, fun _ => trivial⟩
  · exact .fault hs (S.ordinary (badAddress_ordinary _))

theorem elementAddress_gives (ha : S.Holds address) (ty : Ty) (i : Int) :
    S.Gives S.Holds (elementAddress p s address ty i) := by
  unfold elementAddress
  split
  · split
    · exact S.ordinary rfl
    · refine (localType_gives _ _ _).bind fun whole _ => ?_
      extract_lets descends
      split
      · exact S.plain rfl
      · split
        · exact S.plain rfl
        · exact S.ordinary rfl
  · extract_lets target
    split
    · exact S.address.mpr (S.address.mp ha)
    · exact S.ordinary rfl
  · exact S.ordinary (badAddress_ordinary _)

theorem fieldAddress_gives (ha : S.Holds address) (id : RecordId) (field : Nat) :
    S.Gives S.Holds (fieldAddress p address id field) := by
  unfold fieldAddress
  split
  · exact S.plain rfl
  · split
    · exact S.ordinary rfl
    · split
      · exact S.address.mpr (S.address.mp ha)
      · exact S.ordinary rfl
  · exact S.ordinary (badAddress_ordinary _)

/-! ## Services -/

/-- Arguments that a service may be passed. -/
structure Scope.Passes (S : Scope) (service : Service) (args : List Value) : Prop where
  holds : ∀ v ∈ args, S.Holds v
  enough : args.length = service.arity ∨ S.Reports (.serviceArguments service)

variable {service : Service} {i : Nat} {t : State} {source : Value}

/-- What a service does when it succeeds, and what it gives. -/
inductive Serves (p : Program) (s : State) (args : List Value) :
    Service → State → Option Value → Prop
  -- No local is written to, and blocks keep what all that happens to memory keeps.
  | quiet {service : Service} {t : State} {v : Option Value} (hc : t.current = s.current)
      (hcs : t.callers = s.callers) (hm : ∀ R P, KeptByAll R P → s.world.memory.Each P →
        t.world.memory.Each P)
      (hv : v.isSome = !service.returns.isVoid) : Serves p s args service t v
  | copies {service : Service} {target source v : Value} {ty : Ty} {t : State}
      (htarget : args[0]? = some target) (hsource : args[1]? = some source)
      (hty : service = .vaCopy ∧ ty = .varArgs ∨ (service = .memCopy ∨ service = .memMove) ∧
        (s.pointeeType? p target).or (s.pointeeType? p source) = some ty)
      (hv : s.load p source ty = .ok v) (ht : s.store p target ty v = (t, none)) :
      Serves p s args service t none
  | clears {frame index : Nat} {path : List PathStep} {ty : Ty} {t : State}
      (htarget : args[0]? = some (.pointer (.ofLocal frame index path)))
      (hty : ty = (s.pointeeType? p (.pointer (.ofLocal frame index path))).getD .void)
      (ht : s.store p (.pointer (.ofLocal frame index path)) ty (defaultValue p.records ty) =
        (t, none)) :
      Serves p s args .memSet t none

theorem Serves.unchanged {v : Option Value} (hv : v.isSome = !service.returns.isVoid) :
    Serves p s args service s v :=
  .quiet rfl rfl (fun _ _ _ h => h) hv

theorem argument_gives (h : S.Passes service args) (hi : i < service.arity) :
    S.Gives (fun v => args[i]? = some v ∧ S.Holds v) (argument service args i) := by
  unfold argument
  split
  · next v hv => exact ⟨hv, h.holds v (mem_of_getElem? hv)⟩
  · next hnone =>
    rw [List.getElem?_eq_none_iff] at hnone
    rcases h.enough with hlen | hf
    · omega
    · exact hf

theorem sizeArgument_gives (h : S.Passes service args) (hi : i < service.arity) :
    S.Gives (fun _ => True) (sizeArgument service args i) := by
  refine (argument_gives h hi).bind fun v _ => ?_
  split
  · split
    · trivial
    · exact S.ordinary rfl
  · exact S.ordinary rfl

/-- The target, the source and the size of a copy. -/
theorem copyArguments_gives (h : S.Passes service args) (hthree : service.arity = 3) :
    S.Gives (fun r => (args[0]? = some r.1 ∧ S.Holds r.1) ∧ args[1]? = some r.2.1 ∧ S.Holds r.2.1)
      (do
      let size ← sizeArgument service args 2
      return (← argument service args 0, ← argument service args 1, size)) := by
  refine (sizeArgument_gives h (by omega)).bind fun size _ =>
    (argument_gives h (by omega)).bind fun a ha => ?_
  exact (argument_gives h (by omega)).bind fun b hb => ⟨ha, hb⟩

theorem wholeObject_gives (ty : Ty) (size : Nat) :
    S.Gives (fun _ => True) (State.wholeObject p ty size) := by
  unfold State.wholeObject
  extract_lets expected
  split
  · trivial
  · exact S.ordinary rfl

theorem State.Within.copyMemory (hs : s.Within S) (ht : args[0]? = some target ∧ S.Holds target)
    (hv : args[1]? = some source ∧ S.Holds source)
    (hservice : service = .memCopy ∨ service = .memMove) (size : Nat) :
    S.Leaves (Serves p s args service · none) (s.copyMemory p target source size) := by
  have hvoid : (none : Option Value).isSome = !service.returns.isVoid := by
    rcases hservice with rfl | rfl <;> rfl
  unfold State.copyMemory
  split
  · exact .done hs (.unchanged hvoid)
  · split
    · next r i q j =>
      obtain ⟨hmemory, hfault⟩ := hs.memory.copy (S.address.mp ht.2) (S.address.mp hv.2) i j size
      exact ⟨hs.withMemory hmemory, hfault, fun _ =>
        .quiet rfl rfl (fun _ _ hP hm => hm.copy hP r i q j size) hvoid⟩
    · split
      · exact .fault hs (S.ordinary rfl)
      · next ty hty =>
        have hl : S.Gives (fun v => s.load p source ty = .ok v ∧ S.Holds v)
            (do State.wholeObject p ty size; s.load p source ty) :=
          (wholeObject_gives ty size).bind fun _ _ => (hs.load hv.2 ty).with_eq
        split
        · next h =>
          exact (hs.store ht.2 ty (hl.of_ok h).2).mono fun t hst _ =>
            .copies ht.1 hv.1 (.inr ⟨hservice, hty⟩) (hl.of_ok h).1 hst
        · next h => exact .fault hs (hl.of_error h)

theorem State.Within.fillMemory (hs : s.Within S) (ht : args[0]? = some target ∧ S.Holds target)
    (octet : UInt8) (size : Nat) :
    S.Leaves (Serves p s args .memSet · none) (s.fillMemory p target octet size) := by
  unfold State.fillMemory
  split
  · next r i =>
    have hc := hs.memory.fill (S.address.mp ht.2) i octet size
    split
    · next h =>
      exact .done (hs.withMemory (hc.of_ok h)) (.quiet rfl rfl (fun _ _ hP hm => hm.fill hP h) rfl)
    · next h => exact .fault hs (hc.of_error h)
  · extract_lets ty
    split
    · next h => exact .fault hs ((wholeObject_gives ty size).of_error h)
    · split
      · exact (hs.store ht.2 ty (defaultValue_holds _ _)).mono fun t hst _ => .clears ht.1 rfl hst
      · exact .fault hs (S.ordinary rfl)
  · exact .fault hs (S.ordinary rfl)

theorem State.Within.readString (hs : s.Within S) (ha : S.Holds address) (unit : Nat) :
    S.Gives (fun _ => True) (s.readString address unit) := by
  unfold State.readString
  split
  · trivial
  · exact (hs.memory.block (S.address.mp ha)).map fun _ _ => trivial
  · refine (hs.local _ _).bind fun v hv => (follow_gives hv _).bind fun w _ => ?_
    split <;> trivial
  · exact S.ordinary rfl

theorem State.Within.assertionText (hs : s.Within S) (h : S.Passes .assertFailure args) :
    S.Gives (fun _ => True) (assertionText s args) := by
  have text {v : Value} (hv : S.Holds v) : S.Gives (fun _ => True) (s.readWideText v) :=
    (hs.readString hv 2).bind fun _ _ => trivial
  refine (argument_gives h (by decide)).bind fun a ha => (text ha.2).bind fun _ _ => ?_
  refine (argument_gives h (by decide)).bind fun b hb => (text hb.2).bind fun _ _ => ?_
  exact (argument_gives h (by decide)).bind fun _ _ => trivial

/-- What a service may leave behind: only a failed assertion raises an exception. -/
def Served.Within (S : Scope) (p : Program) (s : State) (service : Service) (args : List Value)
    (r : Served) : Prop :=
  r.1.Within S ∧
    match r.2 with
    | .ok v => (∀ u, v = some u → S.Holds u) ∧ Serves p s args service r.1 v
    | .error (.fault f) => S.Reports f
    | .error (.exception v) => S.Holds v ∧ service = .assertFailure ∧ r.1 = s

theorem Served.Within.pure (hs : s.Within S) {x : Except Fault (State × Option Value)}
    (hx : S.Gives (fun r => (r.1.Within S ∧ ∀ u, r.2 = some u → S.Holds u) ∧
      Serves p s args service r.1 r.2) x) :
    (Served.pure s x).Within S p s service args := by
  cases x with
  | ok r => exact ⟨hx.1.1, hx.1.2, hx.2⟩
  | error f => exact ⟨hs, hx⟩

theorem Served.Within.effect {r : State × Option Fault}
    (h : S.Leaves (Serves p s args service · none) r) :
    (Served.effect r).Within S p s service args := by
  obtain ⟨t, f⟩ := r
  cases f with
  | none => exact ⟨h.1, nofun, h.2.2 rfl⟩
  | some f => exact ⟨h.1, h.2.1 f rfl⟩

theorem State.Within.allocate (hs : s.Within S) (size : Nat) (hv : service.returns.isVoid = false) :
    ((s.allocate size).1.Within S ∧ ∀ u, some (s.allocate size).2 = some u → S.Holds u) ∧
      Serves p s args service (s.allocate size).1 (some (s.allocate size).2) := by
  refine ⟨⟨hs.withMemory (hs.memory.allocate size), ?_⟩,
    .quiet rfl rfl (fun _ _ hP hm => hm.allocate hP size) (by simp [hv])⟩
  rintro u ⟨⟩
  exact S.address.mpr (S.heap _)

theorem State.Within.serve (hs : s.Within S) (h : S.Passes service args) :
    (serve p s service args).Within S p s service args := by
  cases service with
  | alloc =>
    exact .pure hs ((sizeArgument_gives h (by decide)).bind fun size _ => hs.allocate size rfl)
  | reAlloc =>
    refine .pure hs ((sizeArgument_gives h (by decide)).bind fun size _ =>
      (argument_gives h (by decide)).bind fun v hv => ?_)
    split
    · exact hs.allocate size rfl
    · refine (hs.memory.resize (S.address.mp hv.2)).with_eq.bind fun m hm =>
        ⟨⟨hs.withMemory hm.2, ?_⟩, .quiet rfl rfl (fun _ _ hP hb => hb.resize hP hm.1) rfl⟩
      rintro u ⟨⟩
      exact hv.2
    · exact S.ordinary rfl
  | free =>
    refine .pure hs ((argument_gives h (by decide)).bind fun v hv => ?_)
    split
    · exact ⟨⟨hs, nofun⟩, .unchanged rfl⟩
    · exact hs.memory.free.with_eq.bind fun m hm =>
        ⟨⟨hs.withMemory hm.2, nofun⟩, .quiet rfl rfl (fun _ _ _ hb => hb.free hm.1) rfl⟩
    · exact S.ordinary rfl
  | expand =>
    refine ⟨hs, ?_, .unchanged rfl⟩
    rintro u ⟨⟩
    exact S.plain rfl
  | memCopy | memMove =>
    have hx := copyArguments_gives h rfl
    dsimp only [Machine.serve]
    split
    · next heq => exact .effect (hs.copyMemory (hx.of_ok heq).1 (hx.of_ok heq).2 (by simp) _)
    · next heq => exact ⟨hs, hx.of_error heq⟩
  | memSet =>
    have hx : S.Gives (fun r => args[0]? = some r.1 ∧ S.Holds r.1) (do
        let octet ← argument .memSet args 1
        let size ← sizeArgument .memSet args 2
        return (← argument .memSet args 0, (octet.toInt?.getD 0), size)) := by
      refine (argument_gives h (by decide)).bind fun octet _ =>
        (sizeArgument_gives h (by decide)).bind fun size _ => ?_
      exact (argument_gives h (by decide)).bind fun a ha => ha
    dsimp only [Machine.serve]
    split
    · next heq => exact .effect (hs.fillMemory (hx.of_ok heq) _ _)
    · next heq => exact ⟨hs, hx.of_error heq⟩
  | vaCopy =>
    have hx : S.Gives (fun r => (args[0]? = some r.1 ∧ S.Holds r.1) ∧ S.Holds r.2 ∧
        ∃ a, args[1]? = some a ∧ s.load p a .varArgs = .ok r.2) (do
        let v ← s.load p (← argument .vaCopy args 1) .varArgs
        return (← argument .vaCopy args 0, v)) := by
      refine (argument_gives h (by decide)).bind fun a ha =>
        (hs.load ha.2 .varArgs).with_eq.bind fun v hv => ?_
      exact (argument_gives h (by decide)).bind fun b hb => ⟨hb, hv.2, a, ha.1, hv.1⟩
    dsimp only [Machine.serve]
    split
    · next heq =>
      obtain ⟨htarget, hv, a, ha, hload⟩ := hx.of_ok heq
      exact .effect ((hs.store htarget.2 .varArgs hv).mono fun t ht _ =>
        .copies htarget.1 ha (.inl ⟨rfl, rfl⟩) hload ht)
    · next heq => exact ⟨hs, hx.of_error heq⟩
  | putString =>
    refine .pure hs ((argument_gives h (by decide)).bind fun v hv =>
      (hs.readString hv.2 1).bind fun units _ => ?_)
    refine ⟨⟨hs.write _, ?_⟩, .quiet rfl rfl (fun _ _ _ h => h) rfl⟩
    rintro u ⟨⟩
    exact S.plain rfl
  | assertFailure =>
    dsimp only [Machine.serve]
    split
    · exact ⟨hs, S.plain rfl, rfl, rfl⟩
    · next heq => exact ⟨hs, (hs.assertionText h).of_error heq⟩
  | terminate => exact ⟨hs, S.ordinary rfl⟩

end

end Stackify.Machine
