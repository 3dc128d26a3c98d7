import Stackify.Proofs.FrameSteps

/-!
A local keeps an object as a value in parts, a block of memory keeps it as octets. Seen through
typed accesses they are the same storage: `local_refines_memory` runs one sequence of accesses on
both and finds the same loaded values.

`Located` ties the two together: it says at which path of the local and at which offset of the block
a part of an object lies, and of what type the part is. Forming an address keeps to located parts
(`Move.Leads.follows`), loads of a located part agree (`Located.follow`), and a store to it keeps
the whole in agreement (`Located.replace`).
-/

namespace Stackify.Machine

open Code (Op Ty Method Program RecordId Record Field lastOffset)
open List Option

/-! ## Values along a path -/

variable {v w : Value} {path : List PathStep}

theorem follow_snoc (h : v.follow path = .ok w) (step : PathStep) :
    v.follow (path ++ [step]) = w.follow [step] := by
  induction path generalizing v with
  | nil =>
    cases h
    rfl
  | cons s path ih =>
    rw [cons_append, Value.follow]
    rw [Value.follow] at h
    cases hs : Value.part? s v with
    | none =>
      rw [hs] at h
      cases h
    | some x =>
      rw [hs] at h
      exact ih h

/-- To replace a part of a part is to replace the outer one by a changed one. -/
theorem replace_snoc {x : Value} {step : PathStep} (h : v.follow path = .ok w)
    (hpart : Value.part? step w = some x) (new : Value) :
    v.replace new (path ++ [step]) = v.replace (Value.setPart step w new) path := by
  induction path generalizing v with
  | nil =>
    cases h
    simp [Value.replace, hpart, Except.map]
  | cons s path ih =>
    rw [cons_append, Value.replace, Value.replace]
    rw [Value.follow] at h
    cases hs : Value.part? s v with
    | none => rfl
    | some y =>
      rw [hs] at h
      simp only [ih h]

theorem typeAlong_snoc {p : Program} {frame index : Nat} {T t : Ty}
    (h : State.typeAlong p frame index T path = .ok t) (step : PathStep) :
    State.typeAlong p frame index T (path ++ [step]) = State.typeAlong p frame index t [step] := by
  induction path generalizing T with
  | nil =>
    cases h
    rfl
  | cons s path ih =>
    rw [cons_append, State.typeAlong.eq_def]
    rw [State.typeAlong.eq_def] at h
    cases s with
    | field i =>
      cases T with
      | record id =>
        dsimp only at h ⊢
        split at h
        · next f hf => exact ih h
        · cases h
      | _ => cases h
    | element i =>
      cases T with
      | array e n => exact ih h
      | _ => cases h

/-- The step from an object to a part of it. -/
def partStep : Ty → Nat → PathStep
  | .array _ _, i => .element i
  | _, i => .field i

namespace Consists

variable {records : List Record} {t u : Ty} {make : List Value → Value} {ps : List (Ty × Nat)}
  {i start o : Nat} {b b' : Block} {x : Value} {vs : List Value}

section
variable (h : Consists records t make ps)
include h

theorem part? : Value.part? (partStep t i) (make vs) = vs[i]? := by
  cases h with
  | array => simp [Value.part?, partStep]
  | record => rfl

theorem setPart : Value.setPart (partStep t i) (make vs) x = make (vs.set i x) := by
  cases h with
  | array => simp [Value.setPart, partStep]
  | record => rfl

theorem before {j start' : Nat} {u' : Ty} (hi : ps[i]? = some (u, start))
    (hj : ps[j]? = some (u', start')) (hij : i < j) (hsize : t.sizeIn records < lastOffset) :
    start + u.sizeIn records ≤ start' := by
  have hfits := h.fits (mem_of_getElem? hj) hsize
  obtain ⟨hi, hget⟩ := List.getElem?_eq_some_iff.mp hi
  obtain ⟨hj, hget'⟩ := List.getElem?_eq_some_iff.mp hj
  have hpair := pairwise_iff_getElem.mp h.ordered i j hi hj hij
  simp only [hget, hget'] at hpair
  omega

/-- What a path leads to and what the octets at an offset mean have the same parts. -/
theorem follow (hi : ps[i]? = some (u, start)) (hv : v.follow path = .ok w)
    (hw : b.load records t o = .ok w) :
    ∃ x, v.follow (path ++ [partStep t i]) = .ok x ∧ b.load records u (o + start) = .ok x := by
  obtain ⟨ws, hws, rfl⟩ := h.load_eq_ok.mp hw
  obtain ⟨x, hx, hload⟩ := forall₂_some_left hws hi
  refine ⟨x, ?_, hload⟩
  rw [follow_snoc hv]
  simp only [Value.follow, h.part?, hx]

/-- A part changes when its octets do. The other parts lie before or behind it. -/
theorem replace (hi : ps[i]? = some (u, start)) (hsize : t.sizeIn records < lastOffset)
    (hv : v.follow path = .ok w) (hw : b.load records t o = .ok w)
    (hb : b.Agrees b' (outside (o + start) (o + start + u.sizeIn records)))
    (hx : b'.load records u (o + start) = .ok x) :
    ∃ w', v.replace x (path ++ [partStep t i]) = v.replace w' path ∧
      b'.load records t o = .ok w' := by
  obtain ⟨ws, hws, rfl⟩ := h.load_eq_ok.mp hw
  obtain ⟨y, hy, -⟩ := forall₂_some_left hws hi
  refine ⟨make (ws.set i x), by rw [replace_snoc hv (h.part?.trans hy), h.setPart],
    h.load_eq_ok.mpr ⟨_, ?_, rfl⟩⟩
  refine forall₂_iff_get.mpr ⟨by rw [length_set, hws.length_eq], fun j hj hj' => ?_⟩
  have hget := getElem?_eq_getElem hj
  have hload := hws.get hj (by simpa using hj')
  simp only [get_eq_getElem, getElem_set] at hload ⊢
  generalize ps[j] = q at hget hload ⊢
  obtain ⟨u', start'⟩ := q
  split
  · next hij =>
    subst hij
    cases hi.symm.trans hget
    exact hx
  · next hij =>
    have hmem := mem_of_getElem? hget
    refine (load_congr (h.grounded hmem) (h.fits hmem hsize).2 (hb.apart ?_)).trans hload
    dsimp only
    rcases Nat.lt_or_gt_of_ne hij with hlt | hlt
    · have := h.before hi hget hlt hsize
      omega
    · have := h.before hget hi hlt hsize
      omega

end

theorem element_getElem? {e : Ty} {n : Nat} (hi : i < n) :
    ((List.range n).map fun i => (e, i * e.sizeIn records))[i]? =
      some (e, i * e.sizeIn records) := by
  simp [hi]

end Consists

/-! ## Located parts -/

/-- A part of an object of type `T`: the path to it in a value, its type, its number among how many
if it is an element of an array, and its offset in memory. -/
inductive Located (records : List Record) (T : Ty) :
    List PathStep → Ty → Option (Nat × Nat) → Nat → Prop
  | whole : Located records T [] T none 0
  | field {path : List PathStep} {id : RecordId} {a : Option (Nat × Nat)} {o : Nat} {r : Record}
      {i : Nat} {f : Field} {start : Nat} :
      Located records T path (.record id) a o → records[id]? = some r → r.Places records i f start →
        Located records T (path ++ [.field i]) f.ty none (o + start)
  | element {path : List PathStep} {e : Ty} {n : Nat} {a : Option (Nat × Nat)} {o i : Nat} :
      Located records T path (.array e n) a o → i < n →
      Located records T (path ++ [.element i]) e (some (i, n)) (o + i * e.sizeIn records)

namespace Located

variable {records : List Record} {leaf : Ty → Bool} {T t : Ty} {path : List PathStep}
  {a : Option (Nat × Nat)} {o d : Nat} {b b' : Block} {v w : Value}

theorem nests (h : Located records T path t a o) (hT : T.Nests records leaf d) :
    t.Nests records leaf records.length := by
  induction h with
  | whole => exact hT.bounded
  | field _ hr hp ih =>
    exact (Consists.record ih.grounded hr).nests ih (mem_of_getElem? hp.getElem?)
  | element _ _ ih => exact ih.element

theorem within (h : Located records T path t a o) (hT : T.Nests records leaf d)
    (hsize : T.sizeIn records < lastOffset) : o + t.sizeIn records ≤ T.sizeIn records := by
  induction h with
  | whole => omega
  | field h hr hp ih =>
    have hin :=
      (Consists.record (h.nests hT).grounded hr).fits (mem_of_getElem? hp.getElem?) (by omega)
    omega
  | element h hi ih =>
    have hin :=
      (Consists.array (h.nests hT).grounded).fits (mem_of_getElem? (Consists.element_getElem? hi))
        (by omega)
    omega

theorem typeAlong {p : Program} {frame index : Nat} (h : Located p.records T path t a o) :
    State.typeAlong p frame index T path = .ok t := by
  induction h with
  | whole => rfl
  | @field _ id _ _ r i f _ _ hr hp ih =>
    have hfield : (p.records[id]?).bind (·.fields[i]?) = some f := by rw [hr, bind_some, hp.field]
    rw [typeAlong_snoc ih]
    simp only [State.typeAlong, hfield]
  | element _ _ ih => rw [typeAlong_snoc ih, State.typeAlong, State.typeAlong]

/-- What the path leads to is what the octets at the offset mean. -/
theorem follow (h : Located records T path t a o) (hT : T.Nests records leaf d)
    (hv : b.load records T 0 = .ok v) :
    ∃ w, v.follow path = .ok w ∧ b.load records t o = .ok w := by
  induction h with
  | whole => exact ⟨v, rfl, hv⟩
  | field h hr hp ih =>
    obtain ⟨w, hfollow, hload⟩ := ih
    exact (Consists.record (h.nests hT).grounded hr).follow hp.getElem? hfollow hload
  | element h hi ih =>
    obtain ⟨w, hfollow, hload⟩ := ih
    exact (Consists.array (h.nests hT).grounded).follow (Consists.element_getElem? hi) hfollow hload

/-- Replacing a part of the value has the effect of overwriting its octets. -/
theorem replace (h : Located records T path t a o) (hT : T.Nests records leaf d)
    (hsize : T.sizeIn records < lastOffset) (hv : b.load records T 0 = .ok v)
    (hb : b.Agrees b' (outside o (o + t.sizeIn records))) (hw : b'.load records t o = .ok w) :
    ∃ v', v.replace w path = .ok v' ∧ b'.load records T 0 = .ok v' := by
  induction h generalizing w with
  | whole => exact ⟨w, rfl, hw⟩
  | field h hr hp ih =>
    have hc := Consists.record (h.nests hT).grounded hr
    have hwithin := h.within hT hsize
    have hin := hc.fits (mem_of_getElem? hp.getElem?) (by omega)
    obtain ⟨x, hfollow, hload⟩ := h.follow hT hv
    obtain ⟨y, hreplace, hy⟩ := hc.replace hp.getElem? (by omega) hfollow hload hb hw
    exact hreplace ▸ ih (hb.widen (by omega) (by omega)) hy
  | element h hi ih =>
    have hc := Consists.array (h.nests hT).grounded
    have hwithin := h.within hT hsize
    have hin := hc.fits (mem_of_getElem? (Consists.element_getElem? hi)) (by omega)
    obtain ⟨x, hfollow, hload⟩ := h.follow hT hv
    obtain ⟨y, hreplace, hy⟩ :=
      hc.replace (Consists.element_getElem? hi) (by omega) hfollow hload hb hw
    exact hreplace ▸ ih (hb.widen (by omega) (by omega)) hy

end Located

/-! ## Typed accesses -/

/-- An operation of an access, or an operand that lies on the stack for it. -/
inductive Instr where
  | push (v : Value)
  | exec (op : Op)

def Instr.run? (p : Program) (m : Method) (s : State) : Instr → Option State
  | .push v => some (s.push v)
  | .exec op =>
    match execute p m s op with
    | .next s => some s
    | _ => none

/-- Runs instructions in order; `none` if one of them does not go on with the next. -/
def runAll (p : Program) (m : Method) : State → List Instr → Option State
  | s, [] => some s
  | s, x :: code => (x.run? p m s).bind fun s => runAll p m s code

/-- A step in forming an address. -/
inductive Move where
  | field (id : RecordId) (field : Nat)
  | element (ty : Ty) (index : Value)

def Move.code : Move → List Instr
  | .field id i => [.exec (.fieldAddress id i)]
  | .element ty i => [.push i, .exec (.elementAddress ty)]

/-- A move from a part of one type to a part of another. It follows the structure of the object, or
strides over the elements of the array around the part; what is no element has itself for its only
sibling. -/
inductive Move.Leads (records : List Record) :
    Ty → Option (Nat × Nat) → Move → Ty → Option (Nat × Nat) → Prop
  | field {id : RecordId} {a : Option (Nat × Nat)} {r : Record} {i : Nat} {f : Field} :
      records[id]? = some r → r.fields[i]? = some f → Leads records (.record id) a
        (.field id i) f.ty none
  | element {e : Ty} {n : Nat} {a : Option (Nat × Nat)} {v : Value} {i : Nat} :
      v.toInt? = some (i : Int) → i < n → Number.fitsSigned 64 i = true → Leads records
        (.array e n) a (.element e v) e (some (i, n))
  | sibling {t : Ty} {v : Value} {i j n : Nat} {distance : Int} : v.toInt? = some distance →
      (i : Int) + distance = j → j < n → Number.fitsSigned 64 distance = true →
      Leads records t (some (i, n)) (.element t v) t (some (j, n))
  | stay {t : Ty} {v : Value} : v.toInt? = some 0 → Leads records t none (.element t v) t none

inductive Access where
  | load (moves : List Move) (ty : Ty)
  | store (moves : List Move) (ty : Ty) (v : Value)

def Access.code (base : Value) : Access → List Instr
  | .load moves ty => .push base :: moves.flatMap Move.code ++ [.exec (.loadIndirect ty)]
  | .store moves ty v =>
    .push base :: moves.flatMap Move.code ++ [.push v, .exec (.storeIndirect ty)]

def Access.isLoad : Access → Bool
  | .load _ _ => true
  | .store _ _ _ => false

/-- Moves that lead one from the next. -/
inductive Moves (records : List Record) : Ty → Option (Nat × Nat) → List Move → Ty → Prop
  | nil {t : Ty} {a : Option (Nat × Nat)} : Moves records t a [] t
  | cons {t t' u : Ty} {a a' : Option (Nat × Nat)} {x : Move} {xs : List Move} :
      x.Leads records t a t' a' → Moves records t' a' xs u → Moves records t a (x :: xs) u

/-- An access to a part of an object of type `T` at exactly the type of the part. -/
inductive Access.Typed (records : List Record) (T : Ty) : Access → Prop
  | load {moves : List Move} {t : Ty} :
      Moves records T none moves t → Typed records T (.load moves t)
  | store {moves : List Move} {t : Ty} {v : Value} :
      Moves records T none moves t → v.Fits records Value.Exact t → Typed records T
        (.store moves t v)

/-! ## Running accesses -/

variable {p : Program} {m : Method} {s t : State} {frame index : Nat} {T : Ty} {a a' : Value}
  {stack : List Value} {ty t' : Ty} {n i : Int} {o : Nat} {region : Region} {b : Block}

theorem runAll_append (code code' : List Instr) :
    runAll p m s (code ++ code') = (runAll p m s code).bind fun s => runAll p m s code' := by
  induction code generalizing s with
  | nil => rfl
  | cons x code ih =>
    rw [cons_append, runAll, runAll, bind_assoc]
    exact congrArg _ (funext fun s => ih)

theorem bind_frame_withStack {α : Type} {g : Frame → Option α}
    (hg : ∀ (f : Frame) stack, g { f with stack } = g f) (stack : List Value) :
    ((s.withStack stack).frame? frame).bind g = (s.frame? frame).bind g := by
  rw [State.frame?_eq, State.frame?_eq, State.frames_withStack, getElem?_set]
  by_cases hd : s.depth = frame
  · subst hd
    rw [if_pos rfl, if_pos (by rw [State.length_frames]; omega), State.frames_depth]
    exact hg s.current stack
  · rw [if_neg hd]

/-- A local of a declared type with its value. -/
structure HasLocal (p : Program) (s : State) (frame index : Nat) (T : Ty) (v : Value) : Prop where
  declared :
    (s.frame? frame).bind (fun f => (p.methods[f.method]?).bind (·.body.locals[index]?)) = some T
  value : (s.frame? frame).bind (·.locals[index]?) = some v

namespace HasLocal

section
variable (h : HasLocal p s frame index T v)
include h

theorem withStack (stack : List Value) : HasLocal p (s.withStack stack) frame index T v := by
  refine ⟨?_, ?_⟩
  · rw [bind_frame_withStack fun _ _ => rfl]
    exact h.declared
  · rw [bind_frame_withStack fun _ _ => rfl]
    exact h.value

theorem local? : s.local? frame index = .ok v := by
  rw [State.local?, h.value]

theorem localType (path : List PathStep) :
    s.localType p frame index path = State.typeAlong p frame index T path := by
  rw [State.localType, h.declared]

theorem setLocal (w : Value) :
    ∃ s', s.setLocal frame index w = .ok s' ∧ HasLocal p s' frame index T w ∧
      s'.current.stack = s.current.stack ∧ s'.world = s.world := by
  obtain ⟨f, hf, hv⟩ := bind_eq_some_iff.mp h.value
  have hframe : s.frames[frame]? = some f := by rw [← State.frame?_eq, hf]
  obtain ⟨s', hset⟩ := State.exists_setLocal hframe (lt_of_getElem? hv) w
  obtain ⟨f', hf', hi, hframes, hworld⟩ := State.setLocal_eq_ok hset
  cases hframe.symm.trans hf'
  have hnew : s'.frame? frame = some { f with locals := f.locals.set index w } := by
    rw [State.frame?_eq, hframes, getElem?_set_self (lt_of_getElem? hframe)]
  refine ⟨s', hset, ⟨?_, ?_⟩, (Alters.setLocal (W := fun _ _ => True) hset trivial).stack, hworld⟩
  · have hdeclared := h.declared
    rw [hf] at hdeclared
    rw [hnew]
    exact hdeclared
  · rw [hnew]
    exact getElem?_set_self hi

end

end HasLocal

/-! ## Forming addresses -/

theorem run_field {id : RecordId} {i : Nat} (h : fieldAddress p a id i = .ok a') :
    runAll p m (s.withStack (a :: stack))
      (Move.field id i).code = some (s.withStack (a' :: stack)) := by
  have hexec : execute p m (s.withStack (a :: stack)) (.fieldAddress id i) =
      (s.withStack stack).deliver (fieldAddress p a id i) := rfl
  rw [Move.code, runAll, Instr.run?, hexec, h]
  rfl

theorem run_element (hv : v.toInt? = some n)
    (h : elementAddress p (s.withStack stack) a ty n = .ok a') :
    runAll p m (s.withStack (a :: stack))
      (Move.element ty v).code = some (s.withStack (a' :: stack)) := by
  have hexec : execute p m (s.withStack (v :: a :: stack)) (.elementAddress ty) =
      (s.withStack stack).deliver (elementAddress p (s.withStack stack) a ty n) := by
    rw [execute, State.pop_cons rfl, hv]
    rfl
  show ((Instr.exec (.elementAddress ty)).run? p m (s.withStack (v :: a :: stack))).bind _ = _
  rw [Instr.run?, hexec, h]
  rfl

theorem ne_array_self (e : Ty) (n : Nat) : (e == Ty.array e n) = false := by
  refine beq_eq_false_iff_ne.mpr fun h => ?_
  have hsize := congrArg sizeOf h
  rw [Ty.array.sizeOf_spec] at hsize
  omega

theorem slidePath?_element (path : List PathStep) (i distance : Int) :
    slidePath? (path ++ [.element i]) distance = some (path ++ [.element (i + distance)]) := by
  simp [slidePath?]

/-- Moves over elements in memory. -/
theorem elementAddress_memory {r : Region} {o' : Nat}
    (ho : (o : Int) + n * (ty.sizeIn p.records : Nat) = o') (hle : o' ≤ lastOffset) :
    elementAddress p s (.pointer (.ofMemory r o)) ty n = .ok (.pointer (.ofMemory r o')) := by
  have hfits : Number.fitsUnsigned 64 (o' : Int) = true := by
    have hlast : lastOffset < Number.pow2 64 := by decide
    have hpow : (o' : Int) < (Number.pow2 64 : Nat) := Int.ofNat_lt.mpr (by omega)
    simp only [Number.fitsUnsigned, Bool.and_eq_true, decide_eq_true_eq]
    exact ⟨Int.natCast_nonneg o', hpow⟩
  simp only [elementAddress, ho, hfits, if_true, Int.toNat_natCast]

theorem elementAddress_descends {e : Ty} {n : Nat}
    (hs : s.localType p frame index path = .ok (.array e n)) (hi : Number.fitsSigned 64 i = true) :
    elementAddress p s (.pointer (.ofLocal frame index path)) e i =
      .ok (.pointer (.ofLocal frame index (path ++ [.element i]))) := by
  simp only [elementAddress, hi, hs, Bool.not_true, Bool.false_eq_true, if_false, bind, Except.bind,
    BEq.rfl, if_true]
  rfl

/-- Where the type indexed by is that of the part itself, the address moves over siblings. -/
theorem elementAddress_slides {path' : List PathStep} {t : Ty}
    (hs : s.localType p frame index path = .ok t) (hi : Number.fitsSigned 64 i = true)
    (hslide : slidePath? path i = some path') :
    elementAddress p s (.pointer (.ofLocal frame index path)) t i =
      .ok (.pointer (.ofLocal frame index path')) := by
  simp only [elementAddress, hi, hs, Bool.not_true, Bool.false_eq_true, if_false, bind,
    Except.bind, hslide]
  cases t with
  | array e n =>
    simp only [ne_array_self, Bool.false_eq_true, if_false]
    rfl
  | _ => rfl

variable {leaf : Ty → Bool} {d : Nat}

/-- What is no element stays where it is. -/
theorem Located.slidePath?_zero {t : Ty} {records : List Record}
    (h : Located records T path t none o) : slidePath? path 0 = some path := by
  cases h with
  | whole => rfl
  | field => simp [slidePath?]

theorem Move.Leads.follows {x : Move} {t : Ty} {a a' : Option (Nat × Nat)}
    (hT : T.Nests p.records leaf d) (hsize : T.sizeIn p.records < lastOffset)
    (hs : HasLocal p s frame index T v) (h : Located p.records T path t a o)
    (hx : x.Leads p.records t a t' a') (region : Region) (u : State) (stack stack' : List Value) :
    ∃ path' o', Located p.records T path' t' a' o' ∧
      runAll p m (s.withStack (.pointer (.ofLocal frame index path) :: stack)) x.code =
        some (s.withStack (.pointer (.ofLocal frame index path') :: stack)) ∧
      runAll p m (u.withStack (.pointer (.ofMemory region o) :: stack')) x.code =
        some (u.withStack (.pointer (.ofMemory region o') :: stack')) := by
  have htype : (s.withStack stack).localType p frame index path = .ok t := by
    rw [(hs.withStack stack).localType, h.typeAlong]
  cases hx with
  | @field id _ r i f hr hf =>
    obtain ⟨start, hp⟩ := Record.exists_places hf
    refine ⟨_, _, .field h hr hp, run_field rfl, run_field ?_⟩
    simp only [fieldAddress, hr, hp.offset]
  | @element e n _ _ i hv hi hfits =>
    have hloc := Located.element h hi
    have hin := hloc.within hT hsize
    refine ⟨_, _, hloc, run_element hv (elementAddress_descends htype hfits), run_element hv ?_⟩
    exact elementAddress_memory (by push_cast; rfl) (by omega)
  | @sibling _ _ i j n distance hv hj hlt hfits =>
    cases h with
    | @element path _ _ a o _ h hi =>
      have hloc := Located.element h hlt
      have hin := hloc.within hT hsize
      refine ⟨_, _, hloc, run_element hv (elementAddress_slides htype hfits ?_), run_element hv ?_⟩
      · rw [slidePath?_element, hj]
      · refine elementAddress_memory ?_ (by omega)
        push_cast
        rw [← hj, Int.add_mul, Int.add_assoc]
  | stay hv =>
    have hin := h.within hT hsize
    refine ⟨path, o, h, run_element hv ?_, run_element hv ?_⟩
    · exact elementAddress_slides htype (by decide) h.slidePath?_zero
    · exact elementAddress_memory (by rw [Int.zero_mul, Int.add_zero]) (by omega)

theorem Moves.follows {xs : List Move} {t : Ty} {a : Option (Nat × Nat)}
    (hT : T.Nests p.records leaf d) (hsize : T.sizeIn p.records < lastOffset)
    (hs : HasLocal p s frame index T v) (h : Located p.records T path t a o)
    (hxs : Moves p.records t a xs t') (region : Region) (u : State) (stack stack' : List Value) :
    ∃ path' a' o', Located p.records T path' t' a' o' ∧
      runAll p m (s.withStack (.pointer (.ofLocal frame index path) :: stack))
        (xs.flatMap Move.code) =
          some (s.withStack (.pointer (.ofLocal frame index path') :: stack)) ∧
      runAll p m (u.withStack (.pointer (.ofMemory region o) :: stack')) (xs.flatMap Move.code) =
        some (u.withStack (.pointer (.ofMemory region o') :: stack')) := by
  induction hxs generalizing path o with
  | nil => exact ⟨path, _, o, h, rfl, rfl⟩
  | cons hx _ ih =>
    obtain ⟨path₁, o₁, h₁, hrun, hrun'⟩ := hx.follows hT hsize hs h region u stack stack'
    obtain ⟨path₂, a₂, o₂, h₂, hrest, hrest'⟩ := ih h₁
    refine ⟨path₂, a₂, o₂, h₂, ?_, ?_⟩
    · rw [flatMap_cons, runAll_append, hrun, bind_some, hrest]
    · rw [flatMap_cons, runAll_append, hrun', bind_some, hrest']

/-! ## The two storages -/

/-- The local of one state holds what the block of another means. -/
structure Twins (p : Program) (T : Ty) (frame index : Nat) (region : Region) (s t : State)
    (v : Value) (b : Block) : Prop where
  value : HasLocal p s frame index T v
  block : t.world.memory.block region = .ok b
  size : b.size = T.sizeIn p.records
  load : b.load p.records T 0 = .ok v

theorem run_load (h : (s.withStack stack).load p a ty = .ok w) :
    runAll p m (s.withStack (a :: stack))
      [.exec (.loadIndirect ty)] = some (s.withStack (w :: stack)) := by
  have hexec : execute p m (s.withStack (a :: stack)) (.loadIndirect ty) =
      (s.withStack stack).deliver ((s.withStack stack).load p a ty) := rfl
  rw [runAll, Instr.run?, hexec, h]
  rfl

theorem run_store (h : (s.withStack stack).store p a ty w = (t, none)) :
    runAll p m (s.withStack (a :: stack)) [.push w, .exec (.storeIndirect ty)] = some t := by
  have hexec : execute p m (s.withStack (w :: a :: stack)) (.storeIndirect ty) =
      State.settle ((s.withStack stack).store p a ty w) := rfl
  show ((Instr.exec (.storeIndirect ty)).run? p m (s.withStack (w :: a :: stack))).bind _ = _
  rw [Instr.run?, hexec, h]
  rfl

/-- An access runs on both storages and keeps them alike; what it loads is the same. -/
theorem Access.Typed.runs {a : Access} (ha : a.Typed p.records T)
    (hT : T.Nests p.records Ty.startsZero d) (hsize : T.sizeIn p.records < lastOffset)
    (h : Twins p T frame index region s t v b) :
    ∃ s' t' v' b' vs, Twins p T frame index region s' t' v' b' ∧
      runAll p m s (a.code (.pointer (.ofLocal frame index []))) = some s' ∧
      runAll p m t (a.code (.pointer (.ofMemory region 0))) = some t' ∧
      s'.current.stack = vs ++ s.current.stack ∧ t'.current.stack = vs ++ t.current.stack ∧
      vs.length = if a.isLoad then 1 else 0 := by
  cases ha with
  | @load moves ty hmoves =>
    obtain ⟨path, a, o, hloc, hrun, hrun'⟩ :=
      hmoves.follows (m := m) hT hsize h.value .whole region t s.current.stack t.current.stack
    obtain ⟨w, hfollow, hload⟩ := hloc.follow hT h.load
    have hlocal : s.load p (.pointer (.ofLocal frame index path)) ty = .ok w := by
      simp only [State.load, h.value.local?, bind, Except.bind, hfollow]
    have hmemory : t.load p (.pointer (.ofMemory region o)) ty = .ok w := by
      simp only [State.load, Memory.load, h.block, bind, Except.bind, hload]
    refine ⟨s.withStack (w :: s.current.stack), t.withStack (w :: t.current.stack), v, b, [w],
      ⟨h.value.withStack _, h.block, h.size, h.load⟩, ?_, ?_, rfl, rfl, rfl⟩
    · rw [Access.code, runAll_append]
      exact (congrArg (Option.bind · _) hrun).trans (run_load hlocal)
    · rw [Access.code, runAll_append]
      exact (congrArg (Option.bind · _) hrun').trans (run_load hmemory)
  | @store moves ty w hmoves hw =>
    obtain ⟨path, a, o, hloc, hrun, hrun'⟩ :=
      hmoves.follows (m := m) hT hsize h.value .whole region t s.current.stack t.current.stack
    have hwithin := hloc.within hT hsize
    -- The store to memory succeeds, and what it changes is the part that the path leads to.
    obtain ⟨b', hb'⟩ := exists_stores (hloc.nests hT) (by omega) hw (by rw [h.size]; exact hwithin)
    obtain ⟨v', hreplace, hload⟩ :=
      hloc.replace hT hsize h.load (hb'.agrees.mono fun _ => .inl) hb'.load
    obtain ⟨s', hset, hs', hstack, -⟩ := h.value.setLocal v'
    have hlocal : s.store p (.pointer (.ofLocal frame index path)) ty w = (s', none) := by
      simp only [State.store, h.value.local?, bind, Except.bind, hreplace, hset]
    have hmemory : t.store p (.pointer (.ofMemory region o)) ty w =
        (t.withMemory (t.world.memory.setBlock region b'), none) := by
      simp only [State.store, Memory.store, h.block, hb'.store]
    refine ⟨s', t.withMemory (t.world.memory.setBlock region b'), v', b', [],
      ⟨hs', Memory.block_setBlock h.block b', hb'.agrees.size.trans h.size, hload⟩, ?_, ?_,
        hstack, rfl, rfl⟩
    · rw [Access.code, runAll_append]
      exact (congrArg (Option.bind · _) hrun).trans (run_store hlocal)
    · rw [Access.code, runAll_append]
      exact (congrArg (Option.bind · _) hrun').trans (run_store hmemory)

theorem Twins.runs {accesses : List Access} (ha : ∀ a ∈ accesses, a.Typed p.records T)
    (hT : T.Nests p.records Ty.startsZero d) (hsize : T.sizeIn p.records < lastOffset)
    (h : Twins p T frame index region s t v b) :
    ∃ s' t' vs, runAll p m s
      (accesses.flatMap (·.code (.pointer (.ofLocal frame index [])))) = some s' ∧ runAll p m t
      (accesses.flatMap (·.code (.pointer (.ofMemory region 0)))) = some t' ∧
        s'.current.stack = vs ++ s.current.stack ∧ t'.current.stack = vs ++ t.current.stack ∧
      vs.length = accesses.countP Access.isLoad := by
  induction accesses generalizing s t v b with
  | nil => exact ⟨s, t, [], rfl, rfl, rfl, rfl, rfl⟩
  | cons a accesses ih =>
    obtain ⟨s₁, t₁, v₁, b₁, ws, h₁, hrun, hrun', hstack, hstack', hlen⟩ :=
      (ha a mem_cons_self).runs (m := m) hT hsize h
    obtain ⟨s₂, t₂, vs, hrest, hrest', hs₂, ht₂, hcount⟩ :=
      ih (fun a h => ha a (mem_cons_of_mem _ h)) h₁
    refine ⟨s₂, t₂, vs ++ ws, ?_, ?_, ?_, ?_, ?_⟩
    · rw [flatMap_cons, runAll_append, hrun, bind_some, hrest]
    · rw [flatMap_cons, runAll_append, hrun', bind_some, hrest']
    · rw [hs₂, hstack, append_assoc]
    · rw [ht₂, hstack', append_assoc]
    · rw [length_append, hcount, hlen, countP_cons]

/-- A local and a zeroed block of one type are the same storage for typed accesses: every sequence
of them runs on both, and the loads leave the same values on the stack, one for each. -/
theorem local_refines_memory (p : Program) (m : Method) {T : Ty} {depth : Nat}
    (hT : T.Nests p.records Ty.startsZero depth) (hsize : T.sizeIn p.records < lastOffset)
    {s t : State} {frame index : Nat} {region : Region}
    (hs : HasLocal p s frame index T (defaultValue p.records T))
    (ht : t.world.memory.block region = .ok (.zeroed (T.sizeIn p.records))) {accesses : List Access}
    (ha : ∀ a ∈ accesses, a.Typed p.records T) :
    ∃ s' t' vs, runAll p m s
      (accesses.flatMap (·.code (.pointer (.ofLocal frame index [])))) = some s' ∧ runAll p m t
      (accesses.flatMap (·.code (.pointer (.ofMemory region 0)))) = some t' ∧
        s'.current.stack = vs ++ s.current.stack ∧ t'.current.stack = vs ++ t.current.stack ∧
      vs.length = accesses.countP Access.isLoad := by
  have hload : (Block.zeroed (T.sizeIn p.records)).load p.records T 0 =
      .ok (defaultValue p.records T) :=
    load_zeroed hT hsize (by omega)
  have htwins : Twins p T frame index region s t (defaultValue p.records T)
      (.zeroed (T.sizeIn p.records)) :=
    ⟨hs, ht, length_replicate, hload⟩
  exact htwins.runs ha hT hsize

/-- A method with a local of two rows, each with three cells and a pointer. -/
def rows : Program where
  records :=
    [⟨"row", "row", [⟨"flag", .bool⟩, ⟨"cells", .array (.int .w16) 3⟩, ⟨"next", .pointer .void⟩],
      false⟩]
  methods :=
    [⟨"main", "main", .exported, ⟨[], .void, false⟩, [],
      { locals := [.array (.record 0) 2], ops := [.ret] }⟩]

/-- The method at its start, with room for its rows on the heap too. -/
def rowsState : State where
  current :=
    { method := 0, args := [], locals := [defaultValue rows.records (.array (.record 0) 2)] }
  world := { memory := { heap := [some (.zeroed ((Ty.array (.record 0) 2).sizeIn rows.records))] } }

/-- Sets the last cell of the second row by way of the first one, points the row to itself and loads
it. -/
def rowsAccesses : List Access :=
  let second : List Move := [.element (.record 0) (.int .w64 0), .element (.record 0) (.int .w64 1)]
  [.store (second ++ [.field 0 1, .element (.int .w16) (.int .w32 0),
    .element (.int .w16) (.int .w8 2)]) (.int .w16) (.int .w16 (-3)),
   .store (second ++ [.field 0 2]) (.pointer .void) (.pointer (.ofLocal 0 0 [.element 1])),
   .load second (.record 0)]

theorem rows_local_refines_memory :
    ∃ s t vs, runAll rows rows.methods[0] rowsState
        (rowsAccesses.flatMap (·.code (.pointer (.ofLocal 0 0 [])))) = some s ∧
      runAll rows rows.methods[0] rowsState
        (rowsAccesses.flatMap (·.code (.pointer (.ofMemory (.heap 0) 0)))) = some t ∧
      s.current.stack = vs ++ [] ∧ t.current.stack = vs ++ [] ∧ vs.length = 1 := by
  have hrow (d : Nat) : (Ty.record 0).Nests rows.records Ty.startsZero (d + 1) := by
    refine .record rfl fun f hf => ?_
    rcases mem_cons.mp hf with rfl | hf
    · exact .scalar rfl rfl
    · rcases mem_cons.mp hf with rfl | hf
      · exact .array (.scalar rfl rfl)
      · cases mem_singleton.mp hf
        exact .scalar rfl rfl
  have hsecond {xs : List Move} {t : Ty} (hxs : Moves rows.records (.record 0) (some (1, 2)) xs t) :
      Moves rows.records (.array (.record 0) 2) none
        (.element (.record 0) (.int .w64 0) :: .element (.record 0) (.int .w64 1) :: xs) t :=
    .cons (.element (i := 0) rfl (by decide) (by decide))
      (.cons (.sibling (j := 1) rfl (by decide) (by decide) (by decide)) hxs)
  refine local_refines_memory rows rows.methods[0] (.array (hrow 0)) (by decide) ⟨rfl, rfl⟩ rfl ?_
  intro a ha
  rcases mem_cons.mp ha with rfl | ha
  · refine .store (hsecond
      (.cons (.field rfl rfl) (.cons (.element (i := 0) rfl (by decide) (by decide))
        (.cons (.sibling (j := 2) rfl (by decide) (by decide) (by decide)) .nil)))) ?_
    exact .scalar rfl ⟨rfl, by decide⟩
  · rcases mem_cons.mp ha with rfl | ha
    · exact .store (hsecond (.cons (.field rfl rfl) .nil)) (.scalar rfl rfl)
    · cases mem_singleton.mp ha
      exact .load (hsecond .nil)

end Stackify.Machine
