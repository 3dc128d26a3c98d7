import Stackify.Code.Binary
import Mathlib

/-!
Codecs: how values are written as octets and read back.

    Fits a → decode (encode a ++ rest) = some (a, rest)
    decode bs = some (a, rest) → Fits a ∧ (Plain a → bs = encode a ++ rest)

Numbers, choices, lists and texts have one form each, and so has everything that is made of them.
Only floating-point numbers have more: what is not a number is read from many octets, so that
`Plain` is needed.
-/

namespace Stackify.Code.Binary

open List Option

/-! ## Codecs -/

/-- How values are written and read: those that fit are read back, what is read fits, and what is
plain is read from no other octets than those that are written for it. -/
structure Codec {α : Type} (encode : α → Octets) (decode : Decoder α) (Fits Plain : α → Prop) :
    Prop where
  restores : ∀ {a : α}, Fits a → ∀ rest, decode (encode a ++ rest) = some (a, rest)
  fits : ∀ {bs : Octets} {a : α} {rest : Octets}, decode bs = some (a, rest) → Fits a
  canonical : ∀ {bs : Octets} {a : α} {rest : Octets}, decode bs = some (a, rest) → Plain a →
    bs = encode a ++ rest

/-- A codec in which every value has one form only. -/
abbrev StrictCodec {α : Type} (encode : α → Octets) (decode : Decoder α) (Fits : α → Prop) : Prop :=
  Codec encode decode Fits fun _ => True

section
variable {α β : Type} {encode : α → Octets} {decode : Decoder α} {Fits Plain : α → Prop}
  {bs rest : Octets} {a : α} {k : α × Octets → Option β} {b : β}

theorem StrictCodec.intro
    (restores : ∀ {a}, Fits a → ∀ rest, decode (encode a ++ rest) = some (a, rest))
    (reads : ∀ {bs a rest}, decode bs = some (a, rest) → Fits a ∧ bs = encode a ++ rest) :
    StrictCodec encode decode Fits :=
  ⟨restores, fun h => (reads h).1, fun h _ => (reads h).2⟩

theorem StrictCodec.reads (c : StrictCodec encode decode Fits) (h : decode bs = some (a, rest)) :
    Fits a ∧ bs = encode a ++ rest :=
  ⟨c.fits h, c.canonical h trivial⟩

theorem Codec.bind_restores (c : Codec encode decode Fits Plain) (ha : Fits a) (rest : Octets)
    (k : α × Octets → Option β) : (decode (encode a ++ rest)).bind k = k (a, rest) := by
  rw [c.restores ha, bind_some]

/-- What is read first was written first. -/
theorem Codec.of_bind (c : Codec encode decode Fits Plain) (h : (decode bs).bind k = some b) :
    ∃ a rest, Fits a ∧ (Plain a → bs = encode a ++ rest) ∧ k (a, rest) = some b := by
  obtain ⟨⟨a, rest⟩, ha, hk⟩ := bind_eq_some_iff.mp h
  exact ⟨a, rest, c.fits ha, c.canonical ha, hk⟩

theorem StrictCodec.of_bind (c : StrictCodec encode decode Fits) (h : (decode bs).bind k = some b) :
    ∃ a rest, Fits a ∧ bs = encode a ++ rest ∧ k (a, rest) = some b := by
  obtain ⟨a, rest, ha, hform, hk⟩ := Codec.of_bind c h
  exact ⟨a, rest, ha, hform trivial, hk⟩

theorem StrictCodec.of_map (c : StrictCodec encode decode Fits) {f : α → β}
    (h : (decode bs).map (fun (a, rest) => (f a, rest)) = some (b, rest)) :
    ∃ a, Fits a ∧ bs = encode a ++ rest ∧ f a = b := by
  obtain ⟨⟨a, rest'⟩, ha, hb⟩ := map_eq_some_iff.mp h
  cases hb
  exact ⟨a, c.fits ha, c.canonical ha trivial, rfl⟩

end

/-! ## Parts -/

section
variable {α β : Type} {encode : α → Octets} {decode : Decoder α} {Fits Plain : α → Prop}
  {encode' : β → Octets} {decode' : Decoder β} {Fits' Plain' : β → Prop}

def encodeBoth (encode : α → Octets) (encode' : β → Octets) (x : α × β) : Octets :=
  encode x.1 ++ encode' x.2

def decodeBoth (decode : Decoder α) (decode' : Decoder β) : Decoder (α × β) := fun bs =>
  (decode bs).bind fun x => (decode' x.2).bind fun y => some ((x.1, y.1), y.2)

/-- Two values, one behind the other. -/
theorem Codec.both (c : Codec encode decode Fits Plain) (c' : Codec encode' decode' Fits' Plain') :
    Codec (encodeBoth encode encode') (decodeBoth decode decode') (fun x => Fits x.1 ∧ Fits' x.2)
      fun x => Plain x.1 ∧ Plain' x.2 := by
  have hreads {bs x rest} (h : decodeBoth decode decode' bs = some (x, rest)) :
      (Fits x.1 ∧ Fits' x.2) ∧
        (Plain x.1 ∧ Plain' x.2 → bs = encodeBoth encode encode' x ++ rest) := by
    obtain ⟨a, _, ha, hform, h₁⟩ := Codec.of_bind c h
    obtain ⟨b, _, hb, hform', h₂⟩ := Codec.of_bind c' h₁
    cases h₂
    dsimp only at hform'
    exact ⟨⟨ha, hb⟩,
      fun hplain => by rw [hform hplain.1, hform' hplain.2, encodeBoth, append_assoc]⟩
  refine ⟨fun {x} hx rest => ?_, fun h => (hreads h).1, fun h => (hreads h).2⟩
  rw [encodeBoth, append_assoc, decodeBoth, c.bind_restores hx.1, c'.bind_restores hx.2]

/-- What is written as its parts are. -/
theorem Codec.of_parts (c : Codec encode decode Fits Plain) (parts : β → α)
    (hparts : Function.Injective parts) (hencode : ∀ b, encode' b = encode (parts b))
    (hdecode : ∀ bs, (decode' bs).map (fun x => (parts x.1, x.2)) = decode bs)
    (hfits : ∀ b, Fits' b ↔ Fits (parts b)) (hplain : ∀ b, Plain' b → Plain (parts b)) :
    Codec encode' decode' Fits' Plain' := by
  have hreads {bs b rest} (h : decode' bs = some (b, rest)) : decode bs = some (parts b, rest) := by
    rw [← hdecode, h, map_some]
  refine ⟨fun {b} hb rest => ?_, fun h => (hfits _).mpr (c.fits (hreads h)), fun h hb => ?_⟩
  · have hread := c.restores ((hfits b).mp hb) rest
    rw [← hencode, ← hdecode] at hread
    obtain ⟨⟨b', rest⟩, hb', hpair⟩ := map_eq_some_iff.mp hread
    cases hparts (congrArg Prod.fst hpair)
    cases hpair
    exact hb'
  · rw [hencode]
    exact c.canonical (hreads h) (hplain _ hb)

end

/-! ## Numbers -/

theorem decodeNat_octets (n v : Nat) (h : v < 256 ^ n) (rest : Octets) :
    decodeNat n (Number.octets n v ++ rest) = some (v, rest) := by
  induction n generalizing v with
  | zero =>
    obtain rfl : v = 0 := by simpa using h
    rfl
  | succ n ih =>
    have hdiv : v / 256 < 256 ^ n := Nat.div_lt_of_lt_mul (by rw [← Nat.pow_succ']; exact h)
    have hlow : (UInt8.ofNat (v % 256)).toNat = v % 256 :=
      UInt8.toNat_ofNat_of_lt' (Nat.mod_lt v (by decide))
    rw [Number.octets, cons_append, decodeNat, ih _ hdiv, map_some, hlow]
    exact congrArg (fun v => some (v, rest)) (Nat.mod_add_div v 256)

theorem of_decodeNat {n v : Nat} {bs rest : Octets} (h : decodeNat n bs = some (v, rest)) :
    v < 256 ^ n ∧ bs = Number.octets n v ++ rest := by
  fun_induction decodeNat n bs generalizing v with
  | case1 bs =>
    cases h
    exact ⟨by decide, rfl⟩
  | case2 => cases h
  | case3 n b bs ih =>
    obtain ⟨⟨u, rest'⟩, hu, hv⟩ := map_eq_some_iff.mp h
    cases hv
    obtain ⟨hlt, rfl⟩ := ih hu
    have hb : b.toNat < 256 := b.toNat_lt
    have hmod : (b.toNat + 256 * u) % 256 = b.toNat := by omega
    have hdiv : (b.toNat + 256 * u) / 256 = u := by omega
    refine ⟨by rw [Nat.pow_succ']; omega, ?_⟩
    rw [Number.octets, hmod, hdiv, UInt8.ofNat_toNat, cons_append]

/-- Numbers of `n` octets. -/
theorem natCodec (n : Nat) : StrictCodec (Number.octets n) (decodeNat n) (· < 256 ^ n) :=
  .intro (decodeNat_octets n _) of_decodeNat

theorem codec32 : StrictCodec encode32 decode32 (· < Number.pow2 32) := natCodec 4

theorem codec64 : StrictCodec encode64 decode64 (· < Number.pow2 64) := natCodec 8

section
variable {m : Nat} (hm : 0 < m)

theorem bmod_toNat_emod {n : Int} (hlow : -(m : Int) ≤ n) (hhigh : n < m) :
    (((n % (2 * m : Nat)).toNat : Nat) : Int).bmod (2 * m) = n := by
  rw [Int.toNat_of_nonneg (Int.emod_nonneg n (by omega)), Int.emod_bmod]
  exact Int.bmod_eq_of_le_mul_two (by omega) (by omega)

include hm in
theorem bmod_mem (v : Int) : -(m : Int) ≤ v.bmod (2 * m) ∧ v.bmod (2 * m) < m := by
  have hlow := Int.le_bmod (x := v) (m := 2 * m) (by omega)
  have hhigh := Int.bmod_lt (x := v) (m := 2 * m) (by omega)
  constructor <;> omega

theorem toNat_bmod_emod {v : Nat} (h : v < 2 * m) :
    (((v : Int).bmod (2 * m)) % (2 * m : Nat)).toNat = v := by
  rw [Int.bmod_emod, Int.emod_eq_of_lt (Int.natCast_nonneg v) (Int.ofNat_lt.mpr h),
    Int.toNat_natCast]

end

theorem fitsSigned_iff {n : Int} :
    Number.fitsSigned 128 n = true ↔ -((Number.pow2 127 : Nat) : Int) ≤ n ∧ n <
      (Number.pow2 127 : Nat) := by
  simp only [Number.fitsSigned, Bool.and_eq_true, decide_eq_true_eq]

theorem pow2_128 : Number.pow2 128 = 2 * Number.pow2 127 := rfl

/-- Signed numbers of 128 bits. -/
theorem intCodec : StrictCodec encodeInt decodeInt (Number.fitsSigned 128 · = true) := by
  refine .intro (fun {n} h rest => ?_) (fun {bs n rest} h => ?_)
  · obtain ⟨hlow, hhigh⟩ := fitsSigned_iff.mp h
    have hlt : (n % Number.pow2 128).toNat < 256 ^ 16 := by
      have hpos : (0 : Int) < Number.pow2 128 := by decide
      rw [Int.toNat_lt (Int.emod_nonneg n (by decide))]
      exact Int.emod_lt_of_pos n hpos
    have hread := bmod_toNat_emod hlow hhigh
    rw [← pow2_128] at hread
    rw [encodeInt, decodeInt, (natCodec 16).restores hlt, map_some]
    exact congrArg (fun n => some (n, rest)) hread
  · obtain ⟨v, hv, rfl, rfl⟩ :=
      (natCodec 16).of_map (f := fun v => (v : Int).bmod (Number.pow2 128)) h
    refine ⟨fitsSigned_iff.mpr (bmod_mem (Nat.two_pow_pos 127) _), ?_⟩
    rw [encodeInt, pow2_128, toNat_bmod_emod hv]

open Float.Model UnpackedFloat in
/-- Only what is not a number loses its bits. -/
theorem toBits_ofBits {b : UInt64} (h : (Float.ofBits b).isNaN = false) :
    (Float.ofBits b).toBits = b := by
  let bits : BitVec Format.binary64.numBits := b.toBitVec
  have hpack : (Float.ofBits b).toBits.toBitVec = if isNaNBits bits = true then
      packedNaN _ else bits :=
    pack_unpack bits
  split at hpack
  · have hnan : (Float.ofBits b).isNaN = true :=
      (isNaN_unpack_iff_of_valid (Float.ofBits b).toModel.valid).mpr hpack
    rw [h] at hnan
    cases hnan
  · exact UInt64.toBitVec_inj.mp hpack

/-- Floating-point numbers, by their bits. -/
theorem floatCodec : Codec encodeFloat decodeFloat (fun _ => True) (·.isNaN = false) := by
  refine ⟨fun {x} _ rest => ?_, fun _ => trivial, fun {bs x rest} h hx => ?_⟩
  · rw [encodeFloat, decodeFloat, codec64.restores x.toBits.toNat_lt, map_some]
    show some (Float.ofBits (UInt64.ofNat x.toBits.toNat), rest) = _
    rw [UInt64.ofNat_toNat, Float.ofBits_toBits]
  · obtain ⟨v, hv, rfl, rfl⟩ := codec64.of_map (f := fun v => Float.ofBits (UInt64.ofNat v)) h
    rw [encodeFloat, toBits_ofBits hx, UInt64.toNat_ofNat_of_lt' hv]

/-! ## Small choices -/

theorem boolCodec : StrictCodec encodeBool decodeBool fun _ => True := by
  refine .intro (fun {b} _ rest => ?_) (fun {bs b rest} h => ⟨trivial, ?_⟩)
  · cases b <;> rfl
  · unfold decodeBool at h
    split at h <;> cases h <;> rfl

theorem optionCodec {α : Type} {encode : α → Octets} {decode : Decoder α} {Fits : α → Prop}
    (c : StrictCodec encode decode Fits) :
    StrictCodec (encodeOption encode) (decodeOption decode) fun o => ∀ a ∈ o, Fits a := by
  refine .intro (fun {o} ho rest => ?_) (fun {bs o rest} h => ?_)
  · cases o with
    | none => rfl
    | some a =>
      rw [encodeOption, cons_append, decodeOption, c.restores (ho a rfl), map_some]
  · unfold decodeOption at h
    split at h
    · cases h
      exact ⟨by simp, rfl⟩
    · obtain ⟨a, ha, rfl, rfl⟩ := c.of_map h
      exact ⟨by simpa using ha, rfl⟩
    · cases h

/-- The place in a list that names everything once. -/
theorem tagCodec {α : Type} [DecidableEq α] {all : List α} (hall : ∀ a, a ∈ all)
    (hnodup : all.Nodup) (hlength : all.length ≤ Number.pow2 32) :
    StrictCodec (encodeTag all) (decodeTag all) fun _ => True := by
  refine .intro (fun {a} _ rest => ?_) (fun {bs a rest} h => ⟨trivial, ?_⟩)
  · have hlt := idxOf_lt_length_of_mem (hall a)
    rw [encodeTag, decodeTag, codec32.restores (hlt.trans_le hlength)]
    simp [hlt]
  · unfold decodeTag at h
    split at h
    · next i rest' hi =>
      obtain ⟨-, rfl⟩ := codec32.reads hi
      obtain ⟨b, hb, hpair⟩ := map_eq_some_iff.mp h
      cases hpair
      obtain ⟨hlt, rfl⟩ := List.getElem?_eq_some_iff.mp hb
      rw [encodeTag, hnodup.idxOf_getElem]
    · cases h

theorem widthCodec : StrictCodec (encodeTag Width.all) (decodeTag Width.all) fun _ => True :=
  tagCodec (by intro a; cases a <;> decide) (by decide) (by decide)

theorem floatKindCodec : StrictCodec (encodeTag FloatKind.all) (decodeTag FloatKind.all) fun _ =>
    True :=
  tagCodec (by intro a; cases a <;> decide) (by decide) (by decide)

theorem binaryOpCodec : StrictCodec (encodeTag BinaryOp.all) (decodeTag BinaryOp.all) fun _ =>
    True :=
  tagCodec (by intro a; cases a <;> decide) (by decide) (by decide)

theorem unaryOpCodec : StrictCodec (encodeTag UnaryOp.all) (decodeTag UnaryOp.all) fun _ => True :=
  tagCodec (by intro a; cases a <;> decide) (by decide) (by decide)

theorem compareOpCodec : StrictCodec (encodeTag CompareOp.all) (decodeTag CompareOp.all) fun _ =>
    True :=
  tagCodec (by intro a; cases a <;> decide) (by decide) (by decide)

theorem serviceCodec : StrictCodec (encodeTag Service.all) (decodeTag Service.all) fun _ => True :=
  tagCodec (by intro a; cases a <;> decide) (by decide) (by decide)

theorem visibilityCodec : StrictCodec (encodeTag visibilities) (decodeTag visibilities) fun _ =>
    True :=
  tagCodec (by intro a; cases a <;> decide) (by decide) (by decide)

/-! ## Lists and texts -/

/-- The length of a list fits its field, and what holds of the elements is given. -/
def Listed {α : Type} (Fits : α → Prop) (l : List α) : Prop :=
  l.length < Number.pow2 64 ∧ ∀ a ∈ l, Fits a

instance {α : Type} (Fits : α → Prop) [DecidablePred Fits] : DecidablePred (Listed Fits) := fun l =>
  inferInstanceAs (Decidable (l.length < Number.pow2 64 ∧ ∀ a ∈ l, Fits a))

section
variable {α : Type} {encode : α → Octets} {decode : Decoder α} {Fits Plain : α → Prop} {l : List α}
  {bs rest : Octets}

theorem Codec.items_restores (c : Codec encode decode Fits Plain) (h : ∀ a ∈ l, Fits a)
    (rest : Octets) : decodeItems decode l.length (l.flatMap encode ++ rest) = some (l, rest) := by
  induction l with
  | nil => rfl
  | cons a l ih =>
    rw [length_cons, flatMap_cons, append_assoc, decodeItems, c.restores (h a (by simp))]
    simp only [ih fun b hb => h b (mem_cons_of_mem a hb), map_some]

theorem Codec.of_items (c : Codec encode decode Fits Plain) {n : Nat}
    (h : decodeItems decode n bs = some (l, rest)) :
    l.length = n ∧ (∀ a ∈ l, Fits a) ∧ ((∀ a ∈ l, Plain a) → bs = l.flatMap encode ++ rest) := by
  fun_induction decodeItems decode n bs generalizing l with
  | case1 bs =>
    cases h
    exact ⟨rfl, by simp, fun _ => rfl⟩
  | case2 n bs a rest' ha ih =>
    obtain ⟨⟨l', rest''⟩, hl, hpair⟩ := map_eq_some_iff.mp h
    cases hpair
    obtain ⟨hlength, hfits, hform⟩ := ih hl
    refine ⟨by rw [length_cons, hlength], by simpa using ⟨c.fits ha, hfits⟩, fun hplain => ?_⟩
    rw [forall_mem_cons] at hplain
    rw [c.canonical ha hplain.1, hform hplain.2, flatMap_cons, append_assoc]
  | case3 => cases h

theorem Codec.of_list (c : Codec encode decode Fits Plain)
    (h : decodeList decode bs = some (l, rest)) :
    Listed Fits l ∧ ((∀ a ∈ l, Plain a) → bs = encodeList encode l ++ rest) := by
  unfold decodeList at h
  split at h
  · next n rest' hn =>
    obtain ⟨hlt, rfl⟩ := codec64.reads hn
    obtain ⟨rfl, hfits, hform⟩ := c.of_items h
    exact ⟨⟨hlt, hfits⟩, fun hplain => by rw [encodeList, hform hplain, append_assoc]⟩
  · cases h

theorem Codec.list (c : Codec encode decode Fits Plain) :
    Codec (encodeList encode) (decodeList decode) (Listed Fits) fun l => ∀ a ∈ l, Plain a := by
  refine ⟨fun {l} hl rest => ?_, fun h => (c.of_list h).1, fun h => (c.of_list h).2⟩
  rw [encodeList, append_assoc, decodeList, codec64.restores hl.1]
  exact c.items_restores hl.2 rest

theorem StrictCodec.list (c : StrictCodec encode decode Fits) :
    StrictCodec (encodeList encode) (decodeList decode) (Listed Fits) :=
  ⟨(Codec.list c).restores, (Codec.list c).fits, fun h _ =>
    (Codec.list c).canonical h fun _ _ => trivial⟩

end

theorem octetCodec : StrictCodec encodeOctet decodeOctet fun _ => True := by
  refine .intro (fun _ _ => rfl) (fun {bs b rest} h => ⟨trivial, ?_⟩)
  cases bs with
  | nil => cases h
  | cons => cases h; rfl

theorem textCodec : StrictCodec encodeText decodeText fun s => s.utf8ByteSize < Number.pow2 64 := by
  refine .intro (fun {s} hs rest => ?_) (fun {bs s rest} h => ?_)
  · have hread : String.fromUTF8? ⟨s.toUTF8.data.toList.toArray⟩ = some s := dif_pos s.isValidUTF8
    have hlisted : Listed (fun _ => True) s.toUTF8.data.toList := ⟨hs, fun _ _ => trivial⟩
    rw [encodeText, decodeText, octetCodec.list.restores hlisted]
    simp only [hread, map_some]
  · unfold decodeText at h
    split at h
    · next octets rest' ho =>
      obtain ⟨hlisted, rfl⟩ := octetCodec.list.reads ho
      obtain ⟨t, ht, hpair⟩ := map_eq_some_iff.mp h
      cases hpair
      unfold String.fromUTF8? at ht
      split at ht <;> cases ht
      exact ⟨hlisted.1, rfl⟩
    · cases h

end Stackify.Code.Binary
