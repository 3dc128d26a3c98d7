import Stackify.Proofs.Codec

/-!
The binary form of programs is faithful and canonical. A program can be written if every number in
it fits its field.

    p.Writable → decode (encode p ++ t) = p, or the defect of p
    no constant is NaN → (decode bs = p ↔ p.Writable, p is valid and encode p <+: bs)
-/

namespace Stackify.Code

open Binary (Listed)

/-! ## What fits -/

/-- Every number in a type fits its field. -/
def Ty.Writable : Ty → Prop
  | .pointer t => t.Writable
  | .array e n => e.Writable ∧ n < Number.pow2 64
  | .record id => id < Number.pow2 32
  | _ => True

instance Ty.decidableWritable : DecidablePred Ty.Writable
  | .pointer t => Ty.decidableWritable t
  | .array e n => @instDecidableAnd _ _ (Ty.decidableWritable e) (Nat.decLt n (Number.pow2 64))
  | .record id => Nat.decLt id (Number.pow2 32)
  | .void | .bool | .int _ | .float _ | .varArgs => .isTrue trivial

def Const.Writable : Const → Prop
  | .int _ n => Number.fitsSigned 128 n = true
  | .default t => t.Writable
  | _ => True

instance : DecidablePred Const.Writable
  | .int _ n => inferInstanceAs (Decidable (Number.fitsSigned 128 n = true))
  | .default t => inferInstanceAs (Decidable t.Writable)
  | .bool _ | .float _ _ | .null => .isTrue trivial

/-- Whether a constant is a floating-point value that is no number. -/
def Const.isNaN : Const → Bool
  | .float _ x => x.isNaN
  | _ => false

def Op.Writable : Op → Prop
  | .label i | .loadConst i | .loadArg i | .loadLocal i | .storeLocal i | .loadLocalAddress i
  | .initLocal i
  | .loadStaticAddress i | .loadMethodPointer i | .callIndirect i _ | .callService _ i
  | .packVarArgs i | .branch i
  | .branchTrue i | .branchFalse i | .leave i => i < Number.pow2 32
  | .fieldAddress i j | .call i j => i < Number.pow2 32 ∧ j < Number.pow2 32
  | .loadIndirect t | .storeIndirect t | .elementAddress t | .nextVarArg t => t.Writable
  | .switchValue cases d =>
    Listed (fun c => Number.fitsSigned 128 c.1 = true ∧ c.2 < Number.pow2 32) cases ∧
      d < Number.pow2 32
  | .nop | .binary _ _ | .unary _ _ | .compare _ _ | .convert _ _ _ | .dup | .pop | .ret | .throw
  | .unreachable => True

instance : DecidablePred Op.Writable
  | .label i | .loadConst i | .loadArg i | .loadLocal i | .storeLocal i | .loadLocalAddress i
  | .initLocal i
  | .loadStaticAddress i | .loadMethodPointer i | .callIndirect i _ | .callService _ i
  | .packVarArgs i | .branch i
  | .branchTrue i | .branchFalse i | .leave i => Nat.decLt i (Number.pow2 32)
  | .fieldAddress i j | .call i j =>
    inferInstanceAs (Decidable (i < Number.pow2 32 ∧ j < Number.pow2 32))
  | .loadIndirect t | .storeIndirect t | .elementAddress t | .nextVarArg t =>
    inferInstanceAs (Decidable t.Writable)
  | .switchValue cases d => inferInstanceAs (Decidable
      (Listed (fun c => Number.fitsSigned 128 c.1 = true ∧ c.2 < Number.pow2 32) cases ∧
        d < Number.pow2 32))
  | .nop | .binary _ _ | .unary _ _ | .compare _ _ | .convert _ _ _ | .dup | .pop | .ret | .throw
  | .unreachable =>
    .isTrue trivial

@[mk_iff]
structure Field.Writable (f : Field) : Prop where
  name : f.name.utf8ByteSize < Number.pow2 64
  ty : f.ty.Writable

instance : DecidablePred Field.Writable := fun _ => decidable_of_iff' _ (Field.writable_iff _)

@[mk_iff]
structure Record.Writable (r : Record) : Prop where
  name : r.name.utf8ByteSize < Number.pow2 64
  symbol : r.symbol.utf8ByteSize < Number.pow2 64
  fields : Listed Field.Writable r.fields

instance : DecidablePred Record.Writable := fun _ => decidable_of_iff' _ (Record.writable_iff _)

@[mk_iff]
structure Static.Writable (s : Static) : Prop where
  name : s.name.utf8ByteSize < Number.pow2 64
  ty : s.ty.Writable
  init : ∀ octets ∈ s.init, octets.length < Number.pow2 64

instance : DecidablePred Static.Writable := fun _ => decidable_of_iff' _ (Static.writable_iff _)

@[mk_iff]
structure MethodType.Writable (t : MethodType) : Prop where
  params : Listed Ty.Writable t.params
  ret : t.ret.Writable

instance : DecidablePred MethodType.Writable :=
  fun _ => decidable_of_iff' _ (MethodType.writable_iff _)

@[mk_iff]
structure Region.Writable (r : Region) : Prop where
  tryStart : r.tryStart < Number.pow2 32
  tryEnd : r.tryEnd < Number.pow2 32
  handlerStart : r.handlerStart < Number.pow2 32
  handlerEnd : r.handlerEnd < Number.pow2 32

instance : DecidablePred Region.Writable := fun _ => decidable_of_iff' _ (Region.writable_iff _)

@[mk_iff]
structure Body.Writable (b : Body) : Prop where
  locals : Listed Ty.Writable b.locals
  ops : Listed Op.Writable b.ops
  regions : Listed Region.Writable b.regions
  labelCount : b.labelCount < Number.pow2 32

instance : DecidablePred Body.Writable := fun _ => decidable_of_iff' _ (Body.writable_iff _)

@[mk_iff]
structure Method.Writable (m : Method) : Prop where
  name : m.name.utf8ByteSize < Number.pow2 64
  symbol : m.symbol.utf8ByteSize < Number.pow2 64
  type : m.type.Writable
  paramNames : Listed (fun s => s.utf8ByteSize < Number.pow2 64) m.paramNames
  body : m.body.Writable

instance : DecidablePred Method.Writable := fun _ => decidable_of_iff' _ (Method.writable_iff _)

/-- Every number in a program fits the field that it is written to: 32 bits for indices, labels and
counts, 64 for lengths, and 128 with sign for integer constants and cases. -/
@[mk_iff]
structure Program.Writable (p : Program) : Prop where
  name : p.name.utf8ByteSize < Number.pow2 64
  consts : Listed Const.Writable p.consts
  records : Listed Record.Writable p.records
  statics : Listed Static.Writable p.statics
  methods : Listed Method.Writable p.methods

instance : DecidablePred Program.Writable := fun _ => decidable_of_iff' _ (Program.writable_iff _)

end Stackify.Code

namespace Stackify.Code.Binary

open List Option

/-! ## Types -/

theorem length_encode32 (v : Nat) : (encode32 v).length = 4 := rfl

attribute [local simp] encodeBoth decodeBoth Option.map_bind Option.bind_assoc

variable {t : Ty} {depth : Nat} {bs rest : Octets} {c : Const} {op : Op} {p : Program}

/-- Each level of a type has octets of its own, so that their number bounds the nesting. -/
theorem depth_of_encodeTy (h : (encodeTy t).length ≤ depth) : ∃ d, depth = d + 1 := by
  refine Nat.exists_eq_succ_of_ne_zero fun hzero => ?_
  rw [hzero] at h
  cases t with
  | float k => cases k <;> cases h
  | _ => simp [encodeTy, length_encode32] at h

theorem tyWithin_restores (ht : t.Writable) (hdepth : (encodeTy t).length ≤ depth) (rest : Octets) :
    decodeTyWithin depth (encodeTy t ++ rest) = some (t, rest) := by
  induction t generalizing depth rest
  all_goals obtain ⟨depth, rfl⟩ := depth_of_encodeTy hdepth
  case void | bool | varArgs => rfl
  case float k => cases k <;> rfl
  case int w =>
    rw [encodeTy, append_assoc, decodeTyWithin, codec32.restores (by decide)]
    simp only [widthCodec.restores trivial, map_some]
  case record id =>
    rw [encodeTy, append_assoc, decodeTyWithin, codec32.restores (by decide)]
    simp only [codec32.restores ht, map_some]
  case pointer t ih =>
    have hbelow : (encodeTy t).length ≤ depth := by
      simp only [encodeTy, length_append, length_encode32] at hdepth
      omega
    rw [encodeTy, append_assoc, decodeTyWithin, codec32.restores (by decide)]
    simp only [ih ht hbelow, map_some]
  case array e n ih =>
    have hbelow : (encodeTy e).length ≤ depth := by
      simp only [encodeTy, length_append, length_encode32] at hdepth
      omega
    rw [encodeTy, append_assoc, append_assoc, decodeTyWithin, codec32.restores (by decide)]
    simp only [ih ht.1 hbelow, codec64.restores ht.2, map_some]

theorem of_tyWithin (h : decodeTyWithin depth bs = some (t, rest)) :
    t.Writable ∧ bs = encodeTy t ++ rest := by
  induction depth generalizing bs rest t with
  | zero => cases h
  | succ depth ih =>
    unfold decodeTyWithin at h
    split at h
    case h_1 | h_2 | h_4 | h_5 | h_6 | h_10 =>
      next htag =>
        obtain ⟨-, rfl⟩ := codec32.reads htag
        cases h
        exact ⟨trivial, rfl⟩
    case h_3 =>
      next htag =>
        obtain ⟨-, rfl⟩ := codec32.reads htag
        obtain ⟨w, -, rfl, rfl⟩ := widthCodec.of_map h
        exact ⟨trivial, rfl⟩
    case h_7 =>
      next htag =>
        obtain ⟨-, rfl⟩ := codec32.reads htag
        obtain ⟨⟨e, rest'⟩, he, hpair⟩ := map_eq_some_iff.mp h
        cases hpair
        obtain ⟨hfits, rfl⟩ := ih he
        exact ⟨hfits, rfl⟩
    case h_8 =>
      next htag =>
        obtain ⟨-, rfl⟩ := codec32.reads htag
        split at h
        · next he =>
          obtain ⟨hfits, rfl⟩ := ih he
          obtain ⟨n, hn, rfl, rfl⟩ := codec64.of_map h
          exact ⟨⟨hfits, hn⟩, by simp only [encodeTy, append_assoc]⟩
        · cases h
    case h_9 =>
      next htag =>
        obtain ⟨-, rfl⟩ := codec32.reads htag
        obtain ⟨id, hid, rfl, rfl⟩ := codec32.of_map h
        exact ⟨hid, rfl⟩
    case h_11 => cases h

theorem tyCodec : StrictCodec encodeTy decodeTy Ty.Writable :=
  .intro (fun ht rest => tyWithin_restores ht (by rw [length_append]; omega) rest) of_tyWithin

theorem kindCodec : StrictCodec encodeKind decodeKind fun _ => True := by
  refine .intro (fun {k} _ rest => ?_) (fun {bs k rest} h => ⟨trivial, ?_⟩)
  · cases k with
    | bool | pointer => rfl
    | int w =>
      rw [encodeKind, append_assoc, decodeKind, codec32.restores (by decide)]
      simp only [widthCodec.restores trivial, map_some]
    | float k =>
      rw [encodeKind, append_assoc, decodeKind, codec32.restores (by decide)]
      simp only [floatKindCodec.restores trivial, map_some]
  · unfold decodeKind at h
    split at h
    case h_1 | h_4 =>
      next htag =>
        obtain ⟨-, rfl⟩ := codec32.reads htag
        cases h
        rfl
    case h_2 =>
      next htag =>
        obtain ⟨-, rfl⟩ := codec32.reads htag
        obtain ⟨w, -, rfl, rfl⟩ := widthCodec.of_map h
        rfl
    case h_3 =>
      next htag =>
        obtain ⟨-, rfl⟩ := codec32.reads htag
        obtain ⟨k, -, rfl, rfl⟩ := floatKindCodec.of_map h
        rfl
    case h_5 => cases h

theorem const_restores (hc : c.Writable) (rest : Octets) :
    decodeConst (encodeConst c ++ rest) = some (c, rest) := by
  unfold decodeConst
  cases c with
  | bool b =>
    rw [encodeConst, append_assoc, codec32.restores (by decide)]
    exact boolCodec.bind_restores trivial rest _
  | int w n =>
    rw [encodeConst, append_assoc, append_assoc, codec32.restores (by decide)]
    exact (widthCodec.bind_restores trivial _ _).trans (intCodec.bind_restores hc rest _)
  | float k x =>
    rw [encodeConst, append_assoc, append_assoc, codec32.restores (by decide)]
    exact (floatKindCodec.bind_restores trivial _ _).trans (floatCodec.bind_restores trivial rest _)
  | null => rfl
  | default t =>
    rw [encodeConst, append_assoc, codec32.restores (by decide)]
    exact tyCodec.bind_restores hc rest _

theorem of_const (h : decodeConst bs = some (c, rest)) :
    c.Writable ∧ (c.isNaN = false → bs = encodeConst c ++ rest) := by
  unfold decodeConst at h
  obtain ⟨tag, payload, -, rfl, h₁⟩ := codec32.of_bind h
  clear h
  dsimp only at h₁
  split at h₁
  · obtain ⟨b, _, -, rfl, h₂⟩ := boolCodec.of_bind h₁
    cases h₂
    exact ⟨trivial, fun _ => rfl⟩
  · obtain ⟨w, _, -, rfl, h₂⟩ := widthCodec.of_bind h₁
    obtain ⟨n, _, hn, rfl, h₃⟩ := intCodec.of_bind h₂
    cases h₃
    exact ⟨hn, fun _ => by simp only [encodeConst, append_assoc]⟩
  · obtain ⟨k, number, -, rfl, h₂⟩ := floatKindCodec.of_bind h₁
    obtain ⟨x, behind, -, hx, h₃⟩ := Codec.of_bind floatCodec h₂
    cases h₃
    refine ⟨trivial, fun hnan => ?_⟩
    have hform : number = encodeFloat x ++ behind := hx hnan
    simp only [hform, encodeConst, append_assoc]
  · cases h₁
    exact ⟨trivial, fun _ => rfl⟩
  · obtain ⟨t, _, ht, rfl, h₂⟩ := tyCodec.of_bind h₁
    cases h₂
    exact ⟨ht, fun _ => rfl⟩
  · cases h₁

theorem constCodec : Codec encodeConst decodeConst Const.Writable (·.isNaN = false) :=
  ⟨const_restores, fun h => (of_const h).1, fun h => (of_const h).2⟩

/-! ## Operations -/

theorem caseCodec : StrictCodec encodeCase decodeCase
    fun c => Number.fitsSigned 128 c.1 = true ∧ c.2 < Number.pow2 32 :=
  (intCodec.both codec32).of_parts id Function.injective_id (fun _ => rfl)
    (fun bs => by simp [decodeCase]) (fun _ => .rfl) (by simp)

section
variable {α β : Type} {encode : α → Octets} {decode : Decoder α} {Fits : α → Prop}
  {encode' : β → Octets} {decode' : Decoder β} {Fits' : β → Prop} {a : α}

theorem StrictCodec.with_restores (c : StrictCodec encode decode Fits) (f : α → Op) (ha : Fits a)
    (rest : Octets) : decodeWith decode f (encode a ++ rest) = some (f a, rest) := by
  rw [decodeWith, c.restores ha, map_some]

theorem StrictCodec.with2_restores (c : StrictCodec encode decode Fits)
    (c' : StrictCodec encode' decode' Fits') (f : α → β → Op) (ha : Fits a) {b : β} (hb : Fits' b)
    (rest : Octets) :
    decodeWith2 decode decode' f (encode a ++ (encode' b ++ rest)) = some (f a b, rest) := by
  rw [decodeWith2, c.restores ha]
  simp only [c'.restores hb, map_some]

theorem StrictCodec.of_with (c : StrictCodec encode decode Fits) {f : α → Op}
    (h : decodeWith decode f bs = some (op, rest)) :
    ∃ a, Fits a ∧ bs = encode a ++ rest ∧ f a = op :=
  c.of_map h

theorem StrictCodec.of_with2 (c : StrictCodec encode decode Fits)
    (c' : StrictCodec encode' decode' Fits') {f : α → β → Op}
    (h : decodeWith2 decode decode' f bs = some (op, rest)) :
    ∃ a b, Fits a ∧ Fits' b ∧ bs = encode a ++ (encode' b ++ rest) ∧ f a b = op := by
  unfold decodeWith2 at h
  split at h
  · next a rest' ha =>
    obtain ⟨hfits, rfl⟩ := c.reads ha
    obtain ⟨b, hb, rfl, rfl⟩ := c'.of_map h
    exact ⟨a, b, hfits, hb, rfl, rfl⟩
  · cases h

end

theorem convert_restores (s t : NumKind) (signed : Bool) (rest : Octets) :
    decodeConvert (encodeKind s ++ (encodeKind t ++ (encodeBool signed ++ rest))) =
      some (.convert s t signed, rest) := by
  unfold decodeConvert
  exact (kindCodec.bind_restores trivial _ _).trans
    ((kindCodec.bind_restores trivial _ _).trans (boolCodec.bind_restores trivial rest _))

theorem of_convert (h : decodeConvert bs = some (op, rest)) :
    ∃ s t signed, bs = encodeKind s ++ (encodeKind t ++ (encodeBool signed ++ rest)) ∧
      op = .convert s t signed := by
  unfold decodeConvert at h
  obtain ⟨s, _, -, rfl, h₁⟩ := kindCodec.of_bind h
  obtain ⟨t, _, -, rfl, h₂⟩ := kindCodec.of_bind h₁
  obtain ⟨signed, _, -, rfl, h₃⟩ := boolCodec.of_bind h₂
  cases h₃
  exact ⟨s, t, signed, rfl, rfl⟩

theorem op_restores (hop : op.Writable) (rest : Octets) :
    decodeOp (encodeOp op ++ rest) = some (op, rest) := by
  unfold decodeOp
  cases op with
  | nop | dup | pop | ret | throw | unreachable => rfl
  | label | loadConst | loadArg | loadLocal | storeLocal | loadLocalAddress | initLocal
  | loadStaticAddress
  | loadMethodPointer | packVarArgs | branch | branchTrue | branchFalse | leave =>
    rw [encodeOp, append_assoc, codec32.restores (by decide)]
    exact codec32.with_restores _ hop rest
  | loadIndirect | storeIndirect | elementAddress | nextVarArg =>
    rw [encodeOp, append_assoc, codec32.restores (by decide)]
    exact tyCodec.with_restores _ hop rest
  | fieldAddress | call =>
    rw [encodeOp, append_assoc, append_assoc, codec32.restores (by decide)]
    exact codec32.with2_restores codec32 _ hop.1 hop.2 rest
  | binary =>
    rw [encodeOp, append_assoc, append_assoc, codec32.restores (by decide)]
    exact binaryOpCodec.with2_restores kindCodec _ trivial trivial rest
  | unary =>
    rw [encodeOp, append_assoc, append_assoc, codec32.restores (by decide)]
    exact unaryOpCodec.with2_restores kindCodec _ trivial trivial rest
  | compare =>
    rw [encodeOp, append_assoc, append_assoc, codec32.restores (by decide)]
    exact compareOpCodec.with2_restores kindCodec _ trivial trivial rest
  | convert =>
    rw [encodeOp, append_assoc, append_assoc, append_assoc, codec32.restores (by decide)]
    exact convert_restores _ _ _ rest
  | callIndirect =>
    rw [encodeOp, append_assoc, append_assoc, codec32.restores (by decide)]
    exact codec32.with2_restores boolCodec _ hop trivial rest
  | callService =>
    rw [encodeOp, append_assoc, append_assoc, codec32.restores (by decide)]
    exact serviceCodec.with2_restores codec32 _ trivial hop rest
  | switchValue =>
    rw [encodeOp, append_assoc, append_assoc, codec32.restores (by decide)]
    exact caseCodec.list.with2_restores codec32 .switchValue hop.1 hop.2 rest

/-- What follows the number of an operation is what is written for its operands. -/
theorem of_operands {tag : Nat} (h : decodeOperands tag bs = some (op, rest)) :
    op.Writable ∧ encode32 tag ++ bs = encodeOp op ++ rest := by
  unfold decodeOperands at h
  split at h
  case h_1 | h_3 | h_4 | h_5 | h_6 | h_7 | h_8 | h_9 | h_10 | h_22 | h_26 | h_27 | h_28 | h_30 =>
    obtain ⟨i, hi, rfl, rfl⟩ := codec32.of_with h
    exact ⟨hi, rfl⟩
  case h_2 | h_24 | h_25 | h_31 | h_32 | h_33 =>
    cases h
    exact ⟨trivial, rfl⟩
  case h_11 | h_12 | h_14 | h_23 =>
    obtain ⟨t, ht, rfl, rfl⟩ := tyCodec.of_with h
    exact ⟨ht, rfl⟩
  case h_13 | h_19 =>
    obtain ⟨i, j, hi, hj, rfl, rfl⟩ := codec32.of_with2 codec32 h
    exact ⟨⟨hi, hj⟩, by simp only [encodeOp, append_assoc]⟩
  case h_15 =>
    obtain ⟨o, k, -, -, rfl, rfl⟩ := binaryOpCodec.of_with2 kindCodec h
    exact ⟨trivial, by simp only [encodeOp, append_assoc]⟩
  case h_16 =>
    obtain ⟨o, k, -, -, rfl, rfl⟩ := unaryOpCodec.of_with2 kindCodec h
    exact ⟨trivial, by simp only [encodeOp, append_assoc]⟩
  case h_17 =>
    obtain ⟨o, k, -, -, rfl, rfl⟩ := compareOpCodec.of_with2 kindCodec h
    exact ⟨trivial, by simp only [encodeOp, append_assoc]⟩
  case h_18 =>
    obtain ⟨s, t, signed, rfl, rfl⟩ := of_convert h
    exact ⟨trivial, by simp only [encodeOp, append_assoc]⟩
  case h_20 =>
    obtain ⟨n, returns, hn, -, rfl, rfl⟩ := codec32.of_with2 boolCodec h
    exact ⟨hn, by simp only [encodeOp, append_assoc]⟩
  case h_21 =>
    obtain ⟨s, n, -, hn, rfl, rfl⟩ := serviceCodec.of_with2 codec32 h
    exact ⟨hn, by simp only [encodeOp, append_assoc]⟩
  case h_29 =>
    obtain ⟨cases', d, hcases, hd, rfl, rfl⟩ := caseCodec.list.of_with2 codec32 h
    exact ⟨⟨hcases, hd⟩, by simp only [encodeOp, append_assoc]⟩
  case h_34 => cases h

theorem opCodec : StrictCodec encodeOp decodeOp Op.Writable := by
  refine .intro op_restores (fun {bs op rest} h => ?_)
  unfold decodeOp at h
  split at h
  · next tag payload htag =>
    obtain ⟨-, rfl⟩ := codec32.reads htag
    exact of_operands h
  · cases h

/-! ## Definitions -/

theorem fieldCodec : StrictCodec encodeField decodeField Field.Writable :=
  (textCodec.both tyCodec).of_parts (fun f => (f.name, f.ty)) (by rintro ⟨⟩ ⟨⟩ ⟨⟩; rfl)
    (fun f => rfl) (fun bs => by simp [decodeField]) Field.writable_iff (by simp)

theorem recordCodec : StrictCodec encodeRecord decodeRecord Record.Writable :=
  (textCodec.both (textCodec.both (fieldCodec.list.both boolCodec))).of_parts (fun r =>
    (r.name, r.symbol, r.fields, r.packed)) (by rintro ⟨⟩ ⟨⟩ ⟨⟩; rfl) (fun r => by
      simp [encodeRecord])
    (fun bs => by simp [decodeRecord]) (fun r => by simp [Record.writable_iff]) (by simp)

theorem staticCodec : StrictCodec encodeStatic decodeStatic Static.Writable :=
  (textCodec.both (tyCodec.both (optionCodec octetCodec.list))).of_parts (fun s =>
    (s.name, s.ty, s.init)) (by rintro ⟨⟩ ⟨⟩ ⟨⟩; rfl) (fun s => by simp [encodeStatic])
    (fun bs => by simp [decodeStatic]) (fun s => by simp [Static.writable_iff, Listed]) (by simp)

theorem methodTypeCodec : StrictCodec encodeMethodType decodeMethodType MethodType.Writable :=
  (tyCodec.list.both (tyCodec.both boolCodec)).of_parts (fun t => (t.params, t.ret, t.variadic))
    (by rintro ⟨⟩ ⟨⟩ ⟨⟩; rfl) (fun t => by simp [encodeMethodType])
    (fun bs => by simp [decodeMethodType]) (fun t => by simp [MethodType.writable_iff]) (by simp)

/-- The number of the only kind of handler. -/
theorem zeroCodec : StrictCodec (fun _ => encode32 0)
    (fun bs => (decode32 bs).bind fun x => if x.1 = 0 then some ((), x.2) else none) fun _ =>
      True := by
  refine .intro (fun _ rest => codec32.bind_restores (by decide) rest _) (fun {bs a rest} h =>
    ⟨trivial, ?_⟩)
  obtain ⟨kind, _, -, rfl, h₁⟩ := codec32.of_bind h
  dsimp only at h₁
  split at h₁ <;> cases h₁
  next hkind => rw [hkind]

theorem regionCodec : StrictCodec encodeRegion decodeRegion Region.Writable :=
  (codec32.both (codec32.both (codec32.both (codec32.both zeroCodec)))).of_parts
    (fun r => (r.tryStart, r.tryEnd, r.handlerStart, r.handlerEnd, ())) (by rintro ⟨⟩ ⟨⟩ ⟨⟩; rfl)
    (fun r => by simp [encodeRegion])
    (fun bs => by
      simp [decodeRegion, apply_ite]
      congr! with a b c d e
      split <;> rfl)
    (fun r => by simp [Region.writable_iff]) (by simp)

theorem bodyCodec : StrictCodec encodeBody decodeBody Body.Writable :=
  (tyCodec.list.both (opCodec.list.both (regionCodec.list.both codec32))).of_parts
    (fun b => (b.locals, b.ops, b.regions, b.labelCount)) (by rintro ⟨⟩ ⟨⟩ ⟨⟩; rfl)
    (fun b => by simp [encodeBody]) (fun bs => by simp [decodeBody])
    (fun b => by simp [Body.writable_iff]) (by simp)

theorem methodCodec : StrictCodec encodeMethod decodeMethod Method.Writable :=
  (textCodec.both (textCodec.both
    (visibilityCodec.both (methodTypeCodec.both (textCodec.list.both bodyCodec))))).of_parts
      (fun m => (m.name, m.symbol, m.visibility, m.type, m.paramNames, m.body))
        (by rintro ⟨⟩ ⟨⟩ ⟨⟩; rfl)
    (fun m => by simp [encodeMethod]) (fun bs => by simp [decodeMethod])
    (fun m => by simp [Method.writable_iff]) (by simp)

theorem programCodec :
    Codec encodeProgram decodeProgram Program.Writable fun p => ∀ c ∈ p.consts, c.isNaN = false :=
  (textCodec.both (constCodec.list.both
    (recordCodec.list.both (staticCodec.list.both methodCodec.list)))).of_parts (fun p =>
      (p.name, p.consts, p.records, p.statics, p.methods)) (by rintro ⟨⟩ ⟨⟩ ⟨⟩; rfl)
    (fun p => by simp [encodeProgram]) (fun bs => by simp [decodeProgram])
    Program.writable_iff (by simp)

/-! ## Files -/

/-- Reading of a file that starts as it should and holds a program. -/
theorem decode_file {payload : Octets} (h : decodeProgram payload = some (p, rest)) :
    decode (mark ++ encode32 version ++ encode32 version ++ payload) =
      match p.defect? with
      | some (m, d) => .error (.invalid m d)
      | none => .ok p := by
  have hlength : ¬ (mark ++ encode32 version ++ encode32 version ++ payload).length < 8 := by
    simp only [length_append, mark, encode32, Number.octets, length_cons, length_nil]
    omega
  have hdrop : (mark ++ encode32 version ++ encode32 version ++ payload).drop 4 =
      encode32 version ++ (encode32 version ++ payload) := by
    simp only [append_assoc]
    rfl
  have htake : (mark ++ encode32 version ++ encode32 version ++ payload).take 4 = mark := rfl
  have hversion : version < Number.pow2 32 := by decide
  rw [decode, if_neg hlength, if_neg (not_not.mpr htake), hdrop, codec32.restores hversion]
  dsimp only
  rw [if_neg (not_not.mpr rfl), codec32.restores hversion]
  dsimp only
  rw [h]
  dsimp only
  exact (if_neg (not_not.mpr rfl)).trans (by cases p.defect? <;> rfl)

/-- A file that is accepted has the mark, twice the version, and a valid program. -/
theorem of_decode (h : decode bs = .ok p) :
    ∃ payload rest, bs = mark ++ encode32 version ++ encode32 version ++ payload ∧
      decodeProgram payload = some (p, rest) ∧ p.defect? = none := by
  unfold decode at h
  split at h
  · cases h
  split at h
  · cases h
  next hmark =>
  split at h
  · cases h
  next found payload hfound =>
  split at h
  · cases h
  next hversion =>
  split at h
  · cases h
  next inner payload' hinner =>
  split at h
  · cases h
  next q rest hq =>
  split at h
  · cases h
  next hinnerVersion =>
  split at h
  · cases h
  next hvalid =>
  cases h
  obtain ⟨-, hdrop⟩ := codec32.reads hfound
  obtain ⟨-, rfl⟩ := codec32.reads hinner
  refine ⟨payload', rest, ?_, hq, hvalid⟩
  rw [not_not] at hmark hversion hinnerVersion
  rw [hversion, hinnerVersion] at hdrop
  rw [← take_append_drop 4 bs, hmark, hdrop, append_assoc, append_assoc]

/-- Decoding gives a written program back whatever octets follow it, or says what is wrong with
it. -/
theorem decode_encode_append (p : Program) (hp : p.Writable) (t : Octets) :
    decode (encode p ++ t) =
      match p.defect? with
      | some (m, d) => .error (.invalid m d)
      | none => .ok p := by
  rw [encode, append_assoc]
  exact decode_file (programCodec.restores hp t)

/-- A program with a case that needs 128 bits, a zero with a sign, and a name beyond ASCII. -/
def classifier : Program where
  name := "Classifier"
  consts := [.float .double (Float.ofBits 0x8000000000000000), .int .w128 (-1)]
  records := [⟨"Pair", "struct.pair", [⟨"f0", .array (.pointer .void) 3⟩], true⟩]
  statics := [⟨"größe", .record 0, some [1, 255]⟩]
  methods := [
    { name := "classify", symbol := "classify", visibility := .internal, type :=
        ⟨[.int .w128], .float .double, false⟩,
      paramNames := ["n"],
      body :=
        { locals := [.pointer (.record 0)]
          ops :=
            [.loadArg 0, .switchValue [(-1, 0), (Number.pow2 100, 1)] 1, .label 0, .loadConst 1,
              .convert (.int .w128) (.float .double) true, .ret, .label 1, .loadConst 0, .ret]
          labelCount := 2 } }]

theorem classifier_decode_encode_append :
    classifier.Writable ∧ decode (encode classifier ++ [7]) = .ok classifier := by
  have hwritable : classifier.Writable := by decide
  exact ⟨hwritable, decode_encode_append classifier hwritable [7]⟩

/-- The files of a program without NaN are those that begin with its encoding: a program has one
form, up to what follows it. -/
theorem decode_eq_ok_iff (bs : Octets) (p : Program) (hp : ∀ c ∈ p.consts, c.isNaN = false) :
    decode bs = .ok p ↔ p.Writable ∧ p.defect? = none ∧ encode p <+: bs := by
  constructor
  · intro h
    obtain ⟨payload, rest, rfl, hpayload, hvalid⟩ := of_decode h
    refine ⟨programCodec.fits hpayload, hvalid, rest, ?_⟩
    rw [programCodec.canonical hpayload hp, encode, append_assoc]
  · rintro ⟨hwritable, hvalid, rest, rfl⟩
    rw [encode, append_assoc, decode_file (programCodec.restores hwritable rest), hvalid]

theorem classifier_decode_eq_ok_iff :
    .int .w128 (-1) ∈ classifier.consts ∧ (∀ c ∈ classifier.consts, c.isNaN = false) ∧
      (decode (encode classifier ++ [7]) = .ok classifier ↔
        classifier.Writable ∧ classifier.defect? = none ∧
          encode classifier <+: encode classifier ++ [7]) := by
  have hplain : ∀ c ∈ classifier.consts, c.isNaN = false := by
    simp only [classifier, forall_mem_cons]
    exact ⟨by decide, rfl, by simp⟩
  exact ⟨by simp [classifier], hplain, decode_eq_ok_iff _ classifier hplain⟩

end Stackify.Code.Binary
