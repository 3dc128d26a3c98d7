import Stackify.Machine.Memory
import Stackify.Proofs.Layout
import Mathlib

/-!
Typed access to the octets of a block.

A load depends only on the octets and references in the range of its type (`load_congr`), and on
where they are only relative to its start (`load_alike`). A store that succeeds changes nothing
outside that range, and what was stored is loaded again (`storable`); a store of a value that fits
its type succeeds wherever there is room (`exists_stores`). All go by the structure of the type:
arrays and records are loaded part by part (`load_array_eq_ok`, `load_record_eq_ok`), and their
parts do not overlap.
-/

namespace Stackify

open List Option

namespace Number

@[simp] theorem length_octets (n v : Nat) : (octets n v).length = n := by
  induction n generalizing v with
  | zero => rfl
  | succ n ih => simp [octets, ih]

theorem ofOctets_octets {n v : Nat} (h : v < 256 ^ n) : ofOctets (octets n v) = v := by
  induction n generalizing v with
  | zero =>
    obtain rfl : v = 0 := by simpa using h
    rfl
  | succ n ih =>
    have hdiv : v / 256 < 256 ^ n := Nat.div_lt_of_lt_mul (by rw [← Nat.pow_succ']; exact h)
    have hlow : (UInt8.ofNat (v % 256)).toNat = v % 256 :=
      UInt8.toNat_ofNat_of_lt' (Nat.mod_lt v (by decide))
    rw [octets, ofOctets, ih hdiv, hlow]
    exact Nat.mod_add_div v 256

@[simp] theorem ofOctets_replicate_zero (n : Nat) : ofOctets (replicate n 0) = 0 := by
  induction n with
  | zero => rfl
  | succ n ih => simp [replicate_succ, ofOctets, ih]

theorem Format.round_le_infinity (f : Format) (num den : Nat) : f.round num den ≤ f.infinity := by
  unfold Format.round
  split
  · exact Nat.zero_le _
  · exact Nat.min_le_right _ _

theorem toSingleBits_lt (x : Float) : toSingleBits x < pow2 31 + pow2 31 := by
  have hinf : Format.single.infinity < pow2 31 := by decide
  have hnan : 0x7fc00000 < pow2 31 := by decide
  have hround (num den : Nat) : Format.single.round num den < pow2 31 :=
    Nat.lt_of_le_of_lt (Format.single.round_le_infinity num den) hinf
  have hsign (b : Bool) : (if b then pow2 31 else 0) ≤ pow2 31 := by
    split <;> omega
  unfold toSingleBits
  dsimp only
  split
  · exact Nat.lt_add_left _ hnan
  · split
    · exact Nat.add_lt_add_of_le_of_lt (hsign _) hinf
    · exact Nat.add_lt_add_of_le_of_lt (hsign _) (hround _ _)

end Number

/-- Scalars that memory holds and whose default is all zeros. -/
def Code.Ty.startsZero : Code.Ty → Bool
  | .bool | .int _ | .float .single | .float .double | .pointer _ => true
  | _ => false

/-- Scalars that memory holds. -/
def Code.Ty.inMemory (t : Code.Ty) : Bool := t.startsZero || t == .varArgs

namespace Machine

open Code (Ty Width FloatKind RecordId Record Field lastOffset)

/-! ## Reading and writing -/

/-- The offsets from `start` to `stop`. -/
def inside (start stop i : Nat) : Prop := start ≤ i ∧ i < stop

def outside (start stop i : Nat) : Prop := i < start ∨ stop ≤ i

namespace Block

variable {b b' b'' : Block} {P Q : Nat → Prop} {offset size : Nat} {data : List UInt8} {v : Value}
  {start stop start' stop' i : Nat} {bs : List UInt8}

/-- Two blocks of one size that hold the same at all offsets with a property. -/
structure Agrees (b b' : Block) (P : Nat → Prop) : Prop where
  size : b'.size = b.size
  octets : ∀ i, P i → b'.octets[i]? = b.octets[i]?
  references : ∀ i, P i → b'.reference? i = b.reference? i

theorem Agrees.refl (b : Block) (P : Nat → Prop) : b.Agrees b P :=
  ⟨rfl, fun _ _ => rfl, fun _ _ => rfl⟩

theorem Agrees.trans (h : b.Agrees b' P) (h' : b'.Agrees b'' P) : b.Agrees b'' P :=
  ⟨h'.size.trans h.size, fun i hi => (h'.octets i hi).trans (h.octets i hi),
    fun i hi => (h'.references i hi).trans (h.references i hi)⟩

theorem Agrees.mono (h : b.Agrees b' P) (hQ : ∀ i, Q i → P i) : b.Agrees b' Q :=
  ⟨h.size, fun i hi => h.octets i (hQ i hi), fun i hi => h.references i (hQ i hi)⟩

theorem Agrees.widen (h : b.Agrees b' (outside start stop)) (hstart : start' ≤ start)
    (hstop : stop ≤ stop') : b.Agrees b' (outside start' stop') := by
  refine h.mono ?_
  rintro i (hi | hi)
  · exact .inl (by omega)
  · exact .inr (by omega)

/-- A change of one range is none of another. -/
theorem Agrees.apart (h : b.Agrees b' (outside start stop))
    (hapart : stop' ≤ start ∨ stop ≤ start') : b.Agrees b' (inside start' stop') := by
  refine h.mono ?_
  rintro i ⟨hlow, hhigh⟩
  rcases hapart with ha | ha
  · exact .inl (by omega)
  · exact .inr (by omega)

theorem read_eq_ok :
    b.read offset size = .ok bs ↔ offset + size ≤ b.size ∧
      (b.octets.drop offset).take size = bs := by
  unfold read
  by_cases h : offset + size ≤ b.size <;> simp [h]

theorem read_congr (h : b.Agrees b' (inside offset (offset + size))) :
    b'.read offset size = b.read offset size := by
  have hocts : (b'.octets.drop offset).take size = (b.octets.drop offset).take size := by
    refine ext_getElem? fun i => ?_
    by_cases hi : i < size
    · rw [getElem?_take_of_lt hi, getElem?_take_of_lt hi, getElem?_drop, getElem?_drop]
      exact h.octets _ ⟨by omega, by omega⟩
    · rw [getElem?_take_eq_none (by omega), getElem?_take_eq_none (by omega)]
  unfold read
  rw [h.size, hocts]

theorem lookup_filter {β : Type} (l : List (Nat × β)) (P : Nat → Bool) (k : Nat) :
    (l.filter fun r => P r.1).lookup k = if P k then l.lookup k else none := by
  induction l with
  | nil => simp
  | cons r l ih =>
    obtain ⟨j, w⟩ := r
    by_cases hk : k = j
    · subst hk
      by_cases hP : P k = true
      · simp [hP]
      · simp [hP, ih]
    · have hne : (k == j) = false := by simpa using hk
      by_cases hP : P j = true <;> simp [hP, ih, lookup_cons, hne]

/-- What a write leaves behind. -/
structure Wrote (b : Block) (offset : Nat) (data : List UInt8) (b' : Block) : Prop where
  agrees : b.Agrees b' (outside offset (offset + data.length))
  read : b'.read offset data.length = .ok data
  references : b'.references = b.references.filter fun r =>
    r.1 < offset || offset + data.length ≤ r.1

theorem exists_write (h : offset + data.length ≤ b.size) :
    ∃ b', b.write offset data = .ok b' ∧ b.Wrote offset data b' := by
  have hlen : (b.octets.take offset).length = offset := by
    rw [length_take]
    exact Nat.min_eq_left (Nat.le_trans (Nat.le_add_right _ _) h)
  have hsize : (b.octets.take offset ++ data ++ b.octets.drop (offset + data.length)).length =
      b.size := by
    rw [length_append, length_append, hlen, length_drop]
    exact Nat.add_sub_cancel' h
  unfold write
  rw [if_pos h]
  refine ⟨_, rfl, ⟨hsize, ?_, ?_⟩, ?_, rfl⟩
  · rintro i (hi | hi)
    · rw [append_assoc, getElem?_append_left (by omega), getElem?_take_of_lt hi]
    · rw [getElem?_append_right (by rw [length_append]; omega), getElem?_drop, length_append, hlen,
        Nat.add_sub_cancel' hi]
  · intro i hi
    unfold reference?
    rw [lookup_filter _ fun k => k < offset || offset + data.length ≤ k, if_pos]
    simpa [outside] using hi
  · refine read_eq_ok.mpr ⟨h.trans_eq hsize.symm, ?_⟩
    rw [append_assoc, drop_left' hlen, take_left]

theorem wrote_of_write (h : b.write offset data = .ok b') :
    offset + data.length ≤ b.size ∧ b.Wrote offset data b' := by
  by_cases hroom : offset + data.length ≤ b.size
  · obtain ⟨b'', hw, hb⟩ := exists_write hroom
    cases h.symm.trans hw
    exact ⟨hroom, hb⟩
  · rw [write, if_neg hroom] at h
    cases h

/-- A write forgets the references that start in its range. -/
theorem Wrote.forgets (h : b.Wrote offset data b') (hi : inside offset (offset + data.length) i) :
    b'.reference? i = none := by
  unfold reference?
  rw [h.references, lookup_filter _ fun k => k < offset || offset + data.length ≤ k, if_neg]
  simpa [inside] using hi

theorem octet_of_read (h : b.read offset size = .ok bs) (hi : i < size) :
    b.octets[offset + i]? = bs[i]? := by
  obtain ⟨-, rfl⟩ := read_eq_ok.mp h
  rw [getElem?_take_of_lt hi, getElem?_drop]

theorem reference?_setReference (b : Block) (offset i : Nat) (v : Value) :
    (b.setReference offset v).reference? i = if i = offset then some v else b.reference? i := by
  unfold setReference reference?
  by_cases hi : i = offset
  · simp [hi]
  · have hne : (i == offset) = false := by simpa using hi
    rw [lookup_cons, hne, lookup_filter _ fun k => decide (k ≠ offset)]
    simp [hi]

theorem exists_writeReference (v : Value) (h : offset + 8 ≤ b.size) :
    ∃ b', b.writeReference offset v = .ok b' ∧ b.Agrees b' (outside offset (offset + 8)) ∧
      (b'.reference? offset).getD .null = v := by
  have hroom : offset + (replicate 8 (0 : UInt8)).length ≤ b.size := h
  obtain ⟨b', hw, hb⟩ := exists_write hroom
  have hnone : b'.reference? offset = none := hb.forgets ⟨Nat.le_refl _, by simp⟩
  unfold writeReference
  rw [hw]
  by_cases hv : v = .null
  · subst hv
    exact ⟨b', rfl, hb.agrees, by rw [hnone, getD_none]⟩
  · refine ⟨b'.setReference offset v, ?_, hb.agrees.trans ⟨rfl, fun _ _ => rfl, ?_⟩, ?_⟩
    · cases v with
      | null => exact absurd rfl hv
      | _ => rfl
    · intro i hi
      have hne : i ≠ offset := by
        rcases hi with hi | hi <;> rw [length_replicate] at * <;> omega
      rw [reference?_setReference, if_neg hne]
    · rw [reference?_setReference, if_pos rfl, getD_some]

end Block

/-! ## Records at any sufficient depth -/

variable {records : List Record} {leaf : Ty → Bool} {d k m offset : Nat} {t e : Ty} {id : RecordId}
  {r : Record} {b b' : Block} {v : Value} {vs : List Value} {load : Nat → Except Fault Value}
  {stride n offset' size start size' i : Nat}

theorem loadWith_eq (h : t.Ends records d) (hk : d ≤ k) (hm : d ≤ m) :
    loadWith records b (loadRecord records b k) t offset = loadWith records b
      (loadRecord records b m) t offset := by
  induction h generalizing k m offset with
  | @scalar _ t hs =>
    cases t with
    | float kind => cases kind <;> rfl
    | array | record => cases hs
    | void | bool | int | pointer | varArgs => rfl
  | @array _ e _ _ ih =>
    have hfun : loadWith records b (loadRecord records b k) e = loadWith records b
        (loadRecord records b m) e :=
      funext fun _ => ih hk hm
    simp only [loadWith, hfun]
  | unknown hr => cases k <;> cases m <;> simp only [loadWith, loadRecord, hr]
  | @record _ _ r hr _ ih =>
    obtain ⟨k, rfl⟩ : ∃ j, k = j + 1 := ⟨k - 1, by omega⟩
    obtain ⟨m, rfl⟩ : ∃ j, m = j + 1 := ⟨m - 1, by omega⟩
    simp only [loadWith, loadRecord, hr]
    congr 1
    exact mapM_congr fun f hf => ih f.1 (of_mem_zip hf).1 (by omega) (by omega)

theorem storeFields_congr {s s' : Ty → Block → Nat → Value → Stored} {l : List (Ty × Nat × Value)}
    (h : ∀ a ∈ l, s a.1 = s' a.1) : storeFields s offset b l = storeFields s' offset b l := by
  induction l generalizing b with
  | nil => rfl
  | cons a l ih =>
    obtain ⟨ty, start, v⟩ := a
    have hs : s ty = s' ty := h _ mem_cons_self
    rw [storeFields, storeFields, hs]
    obtain ⟨b', _ | f⟩ := s' ty b (offset + start) v
    · exact ih fun a ha => h a (mem_cons_of_mem _ ha)
    · rfl

theorem storeWith_eq (h : t.Ends records d) (hk : d ≤ k) (hm : d ≤ m) :
    storeWith records (storeRecord records k) t = storeWith records (storeRecord records m) t := by
  induction h generalizing k m with
  | @scalar _ t hs =>
    funext b offset v
    cases t with
    | float kind => cases kind <;> cases v <;> rfl
    | array | record => cases hs
    | void | bool | int | pointer | varArgs => rfl
  | array _ ih =>
    funext b offset v
    cases v with
    | array vs => simp only [storeWith, ih hk hm]
    | _ => rfl
  | unknown hr =>
    funext b offset v
    cases v with
    | record vs => cases k <;> cases m <;> simp only [storeWith, storeRecord, hr]
    | _ => rfl
  | @record _ _ r hr _ ih =>
    obtain ⟨k, rfl⟩ : ∃ j, k = j + 1 := ⟨k - 1, by omega⟩
    obtain ⟨m, rfl⟩ : ∃ j, m = j + 1 := ⟨m - 1, by omega⟩
    funext b offset v
    cases v with
    | record vs =>
      simp only [storeWith, storeRecord, hr]
      refine storeFields_congr fun a ha => ?_
      obtain ⟨f, hf, hty⟩ := List.mem_map.mp (of_mem_zip ha).1
      rw [← hty]
      exact ih f hf (by omega) (by omega)
    | _ => rfl

theorem defaultWith_eq (h : t.Ends records d) (hk : d ≤ k) (hm : d ≤ m) :
    defaultWith (defaultRecord records k) t = defaultWith (defaultRecord records m) t := by
  induction h generalizing k m with
  | @scalar _ t hs =>
    cases t with
    | array | record => cases hs
    | void | bool | int | float | pointer | varArgs => rfl
  | array _ ih => simp only [defaultWith, ih hk hm]
  | unknown hr => cases k <;> cases m <;> simp only [defaultWith, defaultRecord, hr]
  | @record _ _ r hr _ ih =>
    obtain ⟨k, rfl⟩ : ∃ j, k = j + 1 := ⟨k - 1, by omega⟩
    obtain ⟨m, rfl⟩ : ∃ j, m = j + 1 := ⟨m - 1, by omega⟩
    simp only [defaultWith, defaultRecord, hr]
    congr 1
    exact map_congr_left fun f hf => ih f hf (by omega) (by omega)

section
variable (h : (Ty.record id).Grounded records)
include h

theorem load_record (hr : records[id]? = some r) :
    b.load records (.record id) offset = ((r.fields.zip (r.layout records).offsets).mapM fun f =>
      b.load records f.1.ty (offset + f.2)).map .record := by
  obtain ⟨k, hk, hf⟩ := Ty.Ends.fields h hr
  rw [Block.load, loadWith, hk, loadRecord, hr]
  dsimp only
  congr 1
  refine mapM_congr fun f hm => ?_
  rw [loadWith_eq (hf f.1 (of_mem_zip hm).1) (Nat.le_refl k) (Nat.le_add_right k 1), ← hk]
  rfl

theorem defaultValue_record (hr : records[id]? = some r) :
    defaultValue records (.record id) = .record
      (r.fields.map fun f => defaultValue records f.ty) := by
  obtain ⟨k, hk, hf⟩ := Ty.Ends.fields h hr
  rw [defaultValue, defaultWith, hk, defaultRecord, hr]
  dsimp only
  congr 1
  refine map_congr_left fun f hm => ?_
  rw [defaultWith_eq (hf f hm) (Nat.le_refl k) (Nat.le_add_right k 1), ← hk]
  rfl

theorem store_record (hr : records[id]? = some r) :
    b.store records (.record id) offset (.record vs) =
      storeFields (fun t b offset v => b.store records t offset v) offset b
        ((r.fields.map (·.ty)).zip ((r.layout records).offsets.zip vs)) := by
  obtain ⟨k, hk, hf⟩ := Ty.Ends.fields h hr
  rw [Block.store, storeWith, hk, storeRecord, hr]
  dsimp only
  refine storeFields_congr fun a ha => ?_
  obtain ⟨f, hfm, hty⟩ := List.mem_map.mp (of_mem_zip ha).1
  rw [← hty, storeWith_eq (hf f hfm) (Nat.le_refl k) (Nat.le_add_right k 1), ← hk]
  rfl

end

/-! ## Objects by parts -/

theorem loadItems_eq_mapM (load : Nat → Except Fault Value) (stride n offset : Nat) :
    loadItems load stride n offset = (List.range n).mapM fun i => load (offset + i * stride) := by
  induction n generalizing offset with
  | zero => rfl
  | succ n ih =>
    rw [loadItems, ih, range_succ_eq_map, mapM_cons, mapM_map]
    simp only [Function.comp_def, Nat.zero_mul, Nat.add_zero, Nat.succ_mul, Nat.add_assoc,
      Nat.add_comm stride]

theorem load_pointer (h : offset + 8 ≤ b.size) :
    b.load records (.pointer t) offset = .ok ((b.reference? offset).getD .null) := by
  have hread := Block.read_eq_ok.mpr ⟨h, rfl⟩
  show (b.read offset 8).map _ = _
  rw [hread, Except.map]

theorem load_unknown (hr : records[id]? = none) :
    b.load records (.record id) offset = .error (.unknownRecord id) := by
  show loadRecord records b records.length id offset = _
  cases records.length with
  | zero => rfl
  | succ n => simp only [loadRecord, hr]

/-- The types and offsets of the parts of an object, and how a value of it is made of theirs. -/
inductive Consists (records : List Record) : Ty → (List Value → Value) → List (Ty × Nat) → Prop
  | array {e : Ty} {n : Nat} : (Ty.array e n).Grounded records →
      Consists records (.array e n) .array ((List.range n).map fun i => (e, i * e.sizeIn records))
  | record {id : RecordId} {r : Record} : (Ty.record id).Grounded records → records[id]? = some r →
      Consists records (.record id) .record ((r.fields.map (·.ty)).zip (r.layout records).offsets)

namespace Consists

variable {make : List Value → Value} {ps : List (Ty × Nat)} {a : Ty × Nat}

section
variable (h : Consists records t make ps)
include h

theorem load_parts :
    b.load records t offset = (ps.mapM fun a => b.load records a.1 (offset + a.2)).map make := by
  cases h with
  | array =>
    rw [mapM_map]
    exact congrArg _ (loadItems_eq_mapM ..)
  | record h hr =>
    rw [load_record h hr, zip_map_left, mapM_map]
    rfl

theorem load_eq_ok : b.load records t offset = .ok v ↔
    ∃ vs, Forall₂ (fun a w => b.load records a.1 (offset + a.2) = .ok w) ps vs ∧
      make vs = v := by
  rw [h.load_parts, map_eq_ok]
  simp only [mapM_eq_ok]

theorem defaultValue_eq :
    defaultValue records t = make (ps.map fun a => defaultValue records a.1) := by
  cases h with
  | @array e n => simp [defaultValue, defaultWith, Function.comp_def]
  | @record id r h hr =>
    have hlen : (r.fields.map (·.ty)).length ≤ (r.layout records).offsets.length := by
      rw [length_map, Code.layout_offsets_length]
    have hmap := congrArg (List.map (defaultValue records)) (map_fst_zip hlen)
    rw [List.map_map, List.map_map] at hmap
    rw [defaultValue_record h hr]
    exact congrArg Value.record hmap.symm

theorem within (ha : a ∈ ps) : min (a.2 + a.1.sizeIn records) lastOffset ≤ t.sizeIn records := by
  cases h with
  | array =>
    obtain ⟨i, hi, rfl⟩ := List.mem_map.mp ha
    exact Nat.le_trans (Nat.min_le_left _ _) (Code.item_within _ (mem_range.mp hi))
  | @record _ r h hr =>
    rw [h.sizeIn_record hr]
    exact (r.layout_ordered records).1 a ha

theorem ordered : ps.Pairwise fun a a' => min (a.2 + a.1.sizeIn records) lastOffset ≤ a'.2 := by
  cases h with
  | @array e n =>
    refine pairwise_map.mpr (pairwise_lt_range.imp fun {i j} hij => ?_)
    have hle := Nat.mul_le_mul_right (e.sizeIn records) (Nat.succ_le_of_lt hij)
    rw [Nat.succ_mul] at hle
    dsimp only
    omega
  | @record _ r => exact (r.layout_ordered records).2

theorem grounded (ha : a ∈ ps) : a.1.Grounded records := by
  cases h with
  | array h =>
    obtain ⟨i, -, rfl⟩ := List.mem_map.mp ha
    exact h.element
  | record h hr =>
    obtain ⟨f, hf, hty⟩ := List.mem_map.mp (of_mem_zip ha).1
    exact hty ▸ h.field hr hf

theorem nests (ht : t.Nests records leaf d) (ha : a ∈ ps) :
    a.1.Nests records leaf records.length := by
  cases h with
  | array =>
    obtain ⟨i, -, rfl⟩ := List.mem_map.mp ha
    exact ht.element.bounded
  | record _ hr =>
    obtain ⟨f, hf, hty⟩ := List.mem_map.mp (of_mem_zip ha).1
    obtain ⟨r', k, -, hr', hfields⟩ := ht.fields
    cases hr.symm.trans hr'
    exact hty ▸ (hfields f hf).bounded

/-- An object that does not reach the greatest offset has all its parts within it. -/
theorem fits {u : Ty} (ha : (u, start) ∈ ps) (hsize : t.sizeIn records < lastOffset) :
    start + u.sizeIn records ≤ t.sizeIn records ∧ u.sizeIn records < lastOffset := by
  have : min (start + u.sizeIn records) lastOffset ≤ t.sizeIn records := h.within ha
  omega

end

end Consists

/-- Induction on the parts of an object. -/
@[elab_as_elim]
theorem Ty.Grounded.induct {motive : (t : Ty) → t.Grounded records → Prop}
    (scalar : ∀ {t} (h : t.Grounded records), t.isScalar = true → motive t h)
    (unknown : ∀ {id} (h : (Ty.record id).Grounded records), records[id]? = none →
      motive (.record id) h)
    (parts : ∀ {t make ps} (h : t.Grounded records) (hc : Consists records t make ps),
      (∀ a (ha : a ∈ ps), motive a.1 (hc.grounded ha)) → motive t h) (h :
      t.Grounded records) : motive t h := by
  have hall : ∀ {d t}, t.Ends records d → ∀ h : t.Grounded records, motive t h := by
    intro d t hd
    induction hd with
    | scalar hs => exact fun h => scalar h hs
    | unknown hr => exact fun h => unknown h hr
    | array _ ih =>
      refine fun h => parts h (.array h) fun a ha => ?_
      obtain ⟨i, -, rfl⟩ := List.mem_map.mp ha
      exact ih _
    | record hr _ ih =>
      refine fun h => parts h (.record h hr) fun a ha => ?_
      obtain ⟨f, hf, hty⟩ := List.mem_map.mp (of_mem_zip ha).1
      obtain ⟨t, start⟩ := a
      cases hty
      exact ih f hf _
  exact hall h h

/-! ## What a load depends on -/

/-- Two ranges of blocks in which the same is read. A range up to the greatest offset has no end. -/
structure Block.Alike (b : Block) (offset : Nat) (b' : Block) (offset' size : Nat) : Prop where
  read : ∀ k n, k + n ≤ size ∨ lastOffset ≤ size → b'.read (offset' + k) n = b.read (offset + k) n
  reference : ∀ k, k < size ∨ lastOffset ≤ size → offset + k < b.size →
    b'.reference? (offset' + k) = b.reference? (offset + k)

theorem Block.Alike.part (h : b.Alike offset b' offset' size)
    (hin : min (start + size') lastOffset ≤ size) :
    b.Alike (offset + start) b' (offset' + start) size' := by
  refine ⟨fun k n hk => ?_, fun k hk hlt => ?_⟩
  · rw [Nat.add_assoc, Nat.add_assoc]
    exact h.read (start + k) n (by omega)
  · rw [Nat.add_assoc] at hlt
    rw [Nat.add_assoc, Nat.add_assoc]
    exact h.reference (start + k) (by omega) hlt

theorem load_scalar_alike (hs : t.isScalar = true)
    (hb : b.Alike offset b' offset' (t.sizeIn records)) :
    b'.load records t offset' = b.load records t offset := by
  have hread : b'.read offset' (t.sizeIn records) = b.read offset (t.sizeIn records) :=
    hb.read 0 _ (.inl (Nat.zero_add _).le)
  cases t with
  | pointer | varArgs =>
    show (b'.read offset' 8).map _ = (b.read offset 8).map _
    rw [show b'.read offset' 8 = b.read offset 8 from hread]
    cases hok : b.read offset 8 with
    | error f => rfl
    | ok bs =>
      have hroom := (Block.read_eq_ok.mp hok).1
      have href : b'.reference? offset' = b.reference? offset :=
        hb.reference 0 (.inl (by decide : 0 < 8)) (by omega)
      rw [Except.map, Except.map, href]
  | float kind =>
    cases kind with
    | half => rfl
    | single | double => exact congrArg (Except.map _) hread
  | bool | int => exact congrArg (Except.map _) hread
  | void => rfl
  | array | record => cases hs

/-- The same object is loaded where the same is read. -/
theorem load_alike (h : t.Grounded records) (hb : b.Alike offset b' offset' (t.sizeIn records)) :
    b'.load records t offset' = b.load records t offset := by
  induction h using Ty.Grounded.induct generalizing offset offset' with
  | scalar _ hs => exact load_scalar_alike hs hb
  | unknown _ hr => rw [load_unknown hr, load_unknown hr]
  | parts _ hc ih =>
    rw [hc.load_parts, hc.load_parts]
    congr 1
    exact mapM_congr fun a ha => ih a ha (hb.part (hc.within ha))

/-- Offsets of 64 bits tell the parts of an object apart if they do not run out in it or in its
block. -/
def Block.Addresses (b : Block) (size : Nat) : Prop := size < lastOffset ∨ b.size ≤ lastOffset

theorem Block.Addresses.part (h : b.Addresses size) (hin : min (start + size') lastOffset ≤ size) :
    b.Addresses size' := by
  unfold Addresses at *
  omega

/-- The offsets outside of a range of a block. -/
def Block.elsewhere (b : Block) (start stop i : Nat) : Prop := outside start stop i ∨ b.size ≤ i

theorem Block.Agrees.alike {stop : Nat} (h : b.Agrees b' (b.elsewhere start stop))
    (hb : b.Addresses size) (hin : ∀ i, inside offset (offset + size) i →
      b.elsewhere start stop i) : b.Alike offset b' offset size := by
  -- Where the range has no end, it leads to the end of the block.
  have hall (k : Nat) (hk : k < size ∨ lastOffset ≤ size) :
      b.elsewhere start stop (offset + k) := by
    by_cases hlt : k < size
    · exact hin _ ⟨Nat.le_add_right _ _, by omega⟩
    · refine .inr ?_
      unfold Addresses at hb
      omega
  refine ⟨fun k n hk => read_congr (h.mono ?_), fun k hk _ => h.references _ (hall k hk)⟩
  rintro i ⟨hlow, hhigh⟩
  obtain ⟨j, rfl⟩ : ∃ j, i = offset + j := ⟨i - offset, by omega⟩
  exact hall j (by omega)

/-- Blocks that agree in the range of an object hold the same object there. -/
theorem load_congr (h : t.Grounded records) (hsize : t.sizeIn records < lastOffset)
    (hb : b.Agrees b' (inside offset (offset + t.sizeIn records))) :
    b'.load records t offset = b.load records t offset := by
  refine load_alike h ⟨fun k n hk => Block.read_congr (hb.mono ?_), fun k hk _ =>
    hb.references _ ⟨?_, ?_⟩⟩
  · rintro i ⟨hlow, hhigh⟩
    exact ⟨by omega, by omega⟩
  · omega
  · omega

/-! ## Values that fit a type -/

/-- What a pointer or a list of arguments is. -/
def Value.isReference : Value → Bool
  | .null | .pointer _ | .method _ | .varArgs _ _ | .exception _ => true
  | _ => false

/-- Values made of scalars of the right types in the shape of a type. -/
inductive Value.Fits (records : List Record) (scalar : Ty → Value → Prop) : Ty → Value → Prop
  | scalar {t : Ty} {v : Value} : t.isScalar = true → scalar t v → Fits records scalar t v
  | array {e : Ty} {n : Nat} {vs : List Value} :
      vs.length = n → (∀ v ∈ vs, Fits records scalar e v) → Fits records scalar
        (.array e n) (.array vs)
  | record {id : RecordId} {r : Record} {vs : List Value} :
      records[id]? = some r → vs.length = r.fields.length →
        (∀ (i : Nat) f v, r.fields[i]? = some f → vs[i]? = some v → Fits records scalar f.ty v) →
      Fits records scalar (.record id) (.record vs)

/-- Scalars that keep their value in memory: numbers within the range and the precision of their
type. -/
def Value.Exact : Ty → Value → Prop
  | .bool, .bool _ => True
  | .int w, .int w' n => w' = w ∧ w.wrap n = n
  | .float k, .float k' x => k' = k ∧ roundTo k x = x
  | .pointer _, v => v.isReference = true
  | _, _ => False

/-- The same with lists of arguments for scalars of their own. -/
def Value.Kept : Ty → Value → Prop
  | .varArgs, v => v.isReference = true
  | t, v => v.Exact t

variable {stop : Nat} {data : List UInt8} {store : Block → Nat → Value → Stored}
  {l : List (Ty × Nat × Value)} {a : Ty × Nat × Value}

theorem Value.Fits.imp {p q : Ty → Value → Prop} (hpq : ∀ t v, p t v → q t v)
    (h : v.Fits records p t) : v.Fits records q t := by
  induction h with
  | scalar hs hv => exact .scalar hs (hpq _ _ hv)
  | array hlen _ ih => exact .array hlen ih
  | record hr hlen _ ih => exact .record hr hlen ih

theorem Value.Exact.kept (t : Ty) (v : Value) (h : v.Exact t) : v.Kept t := by
  cases t with
  | varArgs => cases v <;> exact h.elim
  | _ => exact h

theorem Consists.values {make : List Value → Value} {ps : List (Ty × Nat)} {p : Ty → Value → Prop}
    (h : Consists records t make ps) (hv : v.Fits records p t) :
    ∃ vs, Forall₂ (fun a w => w.Fits records p a.1) ps vs ∧ make vs = v := by
  cases h with
  | array =>
    cases hv with
    | scalar hs => cases hs
    | @array _ _ vs hlen hvs =>
      refine ⟨vs, forall₂_iff_get.mpr ⟨by simp [hlen], fun i hi hi' => ?_⟩, rfl⟩
      simpa using hvs _ (getElem_mem hi')
  | record _ hr =>
    cases hv with
    | scalar hs => cases hs
    | @record _ _ vs hr' hlen hvs =>
      cases hr.symm.trans hr'
      refine ⟨vs, forall₂_iff_get.mpr ⟨by simp [hlen, Code.layout_offsets_length],
        fun i hi hi' => ?_⟩, rfl⟩
      have hf : i < _ := hlen ▸ hi'
      simpa using hvs i _ _ (getElem?_eq_getElem hf) (getElem?_eq_getElem hi')

/-- A store that succeeds, keeps what is elsewhere and can be undone by a load. -/
structure Block.Stores (records : List Record) (t : Ty) (offset : Nat) (v : Value) (b b' : Block) :
    Prop where
  store : b.store records t offset v = (b', none)
  agrees : b.Agrees b' (b.elsewhere offset (offset + t.sizeIn records))
  load : b'.load records t offset = .ok v

/-! ## Scalars -/

theorem elsewhere_of_within (hroom : stop ≤ b.size) (hi : b.elsewhere start stop i) :
    outside start stop i :=
  hi.elim id fun hsize => .inr (hroom.trans hsize)

theorem stores_of_write (hdata : data.length = t.sizeIn records)
    (hroom : offset + t.sizeIn records ≤ b.size)
    (hstore : b.store records t offset v = .ofWrite b (b.write offset data))
    (hload : ∀ b' : Block, b'.read offset (t.sizeIn records) = .ok data →
      b'.load records t offset = .ok v) : ∃ b', b.Stores records t offset v b' := by
  rw [← hdata] at hroom
  obtain ⟨b', hw, hb⟩ := Block.exists_write hroom
  refine ⟨b', ?_, (hdata ▸ hb.agrees).mono fun i => elsewhere_of_within (hdata ▸ hroom),
    hload b' (hdata ▸ hb.read)⟩
  rw [hstore, hw, Stored.ofWrite]

theorem unsigned_lt (w : Width) (n : Int) : (w.unsigned n).toNat < 256 ^ w.bytes := by
  have hpow : 256 ^ w.bytes = Number.pow2 w.bits := by cases w <;> rfl
  have hpos : 0 < Number.pow2 w.bits := Nat.two_pow_pos _
  have hlt : n % (Number.pow2 w.bits : Int) < Number.pow2 w.bits := Int.emod_lt_of_pos n (by omega)
  rw [hpow, Width.unsigned]
  omega

theorem wrap_unsigned (w : Width) (n : Int) : w.wrap (w.unsigned n).toNat = w.wrap n := by
  have hpos : 0 < Number.pow2 w.bits := Nat.two_pow_pos _
  rw [Width.wrap, Width.unsigned, Int.toNat_of_nonneg (Int.emod_nonneg n (by omega)), Int.emod_bmod]
  rfl

theorem reference_stores (hroom : offset + 8 ≤ b.size) :
    ∃ b', Stored.ofWrite b (b.writeReference offset v) = (b', none) ∧
      b.Agrees b' (b.elsewhere offset (offset + 8)) ∧
      ((b'.read offset 8).map fun _ => (b'.reference? offset).getD .null) = .ok v := by
  obtain ⟨b', hw, hagree, href⟩ := Block.exists_writeReference v hroom
  have hread := Block.read_eq_ok.mpr ⟨hroom.trans_eq hagree.size.symm, rfl⟩
  refine ⟨b', by rw [hw, Stored.ofWrite], hagree.mono fun i => elsewhere_of_within hroom, ?_⟩
  rw [hread, Except.map, href]

theorem scalar_stores (ht : t.inMemory = true) (hv : v.Kept t)
    (hroom : offset + t.sizeIn records ≤ b.size) : ∃ b', b.Stores records t offset v b' := by
  cases t with
  | void | array | record => cases ht
  | pointer | varArgs =>
    obtain ⟨b', hstore, hagree, hload⟩ := reference_stores (v := v) hroom
    exact ⟨b', hstore, hagree, hload⟩
  | bool =>
    cases v with
    | bool x =>
      refine stores_of_write rfl hroom rfl fun b' hread => ?_
      show (b'.read offset 1).map _ = _
      rw [show b'.read offset 1 = _ from hread]
      cases x <;> rfl
    | _ => exact hv.elim
  | int w =>
    cases v with
    | int w' n =>
      obtain ⟨rfl, hn⟩ := hv
      refine stores_of_write (Number.length_octets w'.bytes _) hroom rfl fun b' hread => ?_
      show (b'.read offset w'.bytes).map _ = _
      rw [show b'.read offset w'.bytes = .ok (Number.octets w'.bytes _) from hread, Except.map,
        Number.ofOctets_octets (unsigned_lt w' n), Value.ofInt, wrap_unsigned, hn]
    | _ => exact hv.elim
  | float kind =>
    cases v with
    | float kind' x =>
      obtain ⟨rfl, hx⟩ := hv
      cases kind' with
      | half => cases ht
      | single =>
        have hbits : Number.toSingleBits x < 256 ^ 4 := Number.toSingleBits_lt x
        refine stores_of_write (Number.length_octets 4 _) hroom rfl fun b' hread => ?_
        show (b'.read offset 4).map _ = _
        rw [show b'.read offset 4 = .ok (Number.octets 4 _) from hread, Except.map,
          Number.ofOctets_octets hbits]
        exact congrArg (fun y => Except.ok (Value.float .single y)) hx
      | double =>
        have hbits : x.toBits.toNat < 256 ^ 8 := x.toBits.toNat_lt
        refine stores_of_write (Number.length_octets 8 _) hroom rfl fun b' hread => ?_
        show (b'.read offset 8).map _ = _
        rw [show b'.read offset 8 = .ok (Number.octets 8 _) from hread, Except.map, roundTo,
          Number.ofOctets_octets hbits, UInt64.ofNat_toNat, Float.ofBits_toBits]
    | _ => exact hv.elim

theorem room_of_write (h : Stored.ofWrite b (b.write offset data) = (b', none)) :
    offset + data.length ≤ b.size := by
  cases hw : b.write offset data with
  | ok b₁ => exact (Block.wrote_of_write hw).1
  | error f =>
    rw [hw] at h
    cases h

theorem room_of_writeReference (h : Stored.ofWrite b (b.writeReference offset v) = (b', none)) :
    offset + 8 ≤ b.size := by
  unfold Block.writeReference at h
  cases hw : b.write offset (replicate 8 0) with
  | ok b₁ => exact (Block.wrote_of_write hw).1
  | error f =>
    rw [hw] at h
    cases v <;> cases h

/-- Only what there is room for is stored. -/
theorem room_of_scalar_store (hs : t.isScalar = true)
    (h : b.store records t offset v = (b', none)) :
    t.inMemory = true ∧ offset + t.sizeIn records ≤ b.size := by
  unfold Block.store at h
  cases t with
  | array | record => cases hs
  | void => cases h
  | bool => exact ⟨rfl, room_of_write h⟩
  | int w =>
    rw [storeWith] at h
    cases hn : v.toInt? with
    | none =>
      rw [hn] at h
      cases h
    | some n =>
      rw [hn] at h
      have hroom := room_of_write h
      rw [Number.length_octets] at hroom
      exact ⟨rfl, hroom⟩
  | float kind =>
    cases v with
    | float _ x =>
      cases kind with
      | half => cases h
      | single | double => exact ⟨rfl, room_of_write h⟩
    | _ => cases kind <;> cases h
  | pointer | varArgs => exact ⟨rfl, room_of_writeReference h⟩

/-! ## Arrays and records -/

/-- A value that is loaded as an object of a type wherever it was stored as one, and stored wherever
there is room. -/
structure Storable (records : List Record) (t : Ty) (v : Value) : Prop where
  grounded : t.Grounded records
  stores : ∀ {b b' : Block} {offset : Nat}, b.Addresses (t.sizeIn records) →
    b.store records t offset v = (b', none) → b.Stores records t offset v b'
  succeeds : ∀ {b : Block} {offset d : Nat}, t.Nests records Ty.startsZero d →
    t.sizeIn records < lastOffset → offset + t.sizeIn records ≤ b.size →
      ∃ b', b.store records t offset v = (b', none)

/-- A later change elsewhere keeps what was stored. -/
theorem Block.Stores.load_of_agrees {b'' : Block} (h : b.Stores records t offset v b')
    (ht : t.Grounded records) (hb : b.Addresses (t.sizeIn records))
    (hagree : b'.Agrees b'' (b'.elsewhere start stop))
    (hin : ∀ i, inside offset (offset + t.sizeIn records) i → b.elsewhere start stop i) :
    b''.load records t offset = .ok v := by
  unfold elsewhere Addresses at *
  rw [← h.agrees.size] at hb hin
  exact (load_alike ht (hagree.alike hb hin)).trans h.load

/-- The elements of an array with the offsets they are stored at, from the one with number `k`
on. -/
def items (e : Ty) (stride k : Nat) (vs : List Value) : List (Ty × Nat × Value) :=
  (vs.zipIdx k).map fun a => (e, a.2 * stride, a.1)

/-- Elements are stored as fields are. -/
theorem storeItems_eq_storeFields (store : Ty → Block → Nat → Value → Stored) (e : Ty)
    (stride k offset : Nat) (b : Block) (vs : List Value) :
    storeItems (store e) stride b (offset + k * stride) vs = storeFields store offset b
      (items e stride k vs) := by
  induction vs generalizing b k with
  | nil => rfl
  | cons v vs ih =>
    rw [storeItems, items, zipIdx_cons, map_cons, storeFields, Nat.add_assoc, ← Nat.succ_mul]
    simp only [ih]
    rfl

theorem mem_items (ha : a ∈ items e stride k vs) : a.1 = e ∧ a.2.2 ∈ vs := by
  obtain ⟨x, hx, rfl⟩ := List.mem_map.mp ha
  exact ⟨rfl, fst_mem_of_mem_zipIdx hx⟩

/-- The parts of a value are stored one after the other. -/
theorem Consists.store_parts {make : List Value → Value} {ps : List (Ty × Nat)}
    (h : Consists records t make ps) (hlen : ps.length = vs.length) :
    ∃ l : List (Ty × Nat × Value), l.map (fun a => (a.1, a.2.1)) = ps ∧ l.map (·.2.2) = vs ∧
      ∀ b offset, b.store records t offset (make vs) =
        storeFields (fun t b offset v => b.store records t offset v) offset b l := by
  cases h with
  | @array e n =>
    refine ⟨items e (e.sizeIn records) 0 vs, ?_, ?_, fun b offset => ?_⟩
    · refine ext_getElem? fun i => ?_
      simp only [items, getElem?_map, getElem?_zipIdx]
      grind
    · simp [items, Function.comp_def]
    · rw [← storeItems_eq_storeFields, Nat.zero_mul]
      rfl
  | @record id r h hr =>
    have hoffsets := Code.layout_offsets_length records r
    rw [length_zip, length_map, hoffsets, Nat.min_self] at hlen
    refine ⟨(r.fields.map (·.ty)).zip ((r.layout records).offsets.zip vs), ?_, ?_, fun b offset =>
      store_record h hr⟩
    · have hfst : ((r.layout records).offsets.zip vs).map Prod.fst = (r.layout records).offsets :=
        map_fst_zip (by omega)
      conv_rhs => rw [← hfst]
      rw [zip_map_right]
      rfl
    · change List.map (Prod.snd ∘ Prod.snd) _ = vs
      rw [← List.map_map, map_snd_zip (by simp; omega), map_snd_zip (by omega)]

theorem storeFields_cons_eq {store : Ty → Block → Nat → Value → Stored}
    (h : storeFields store offset b ((t, start, v) :: l) = (b', none)) :
    ∃ b₁, store t b (offset + start) v = (b₁, none) ∧
      storeFields store offset b₁ l = (b', none) := by
  rw [storeFields] at h
  generalize store t b (offset + start) v = x at h
  obtain ⟨b₁, _ | f⟩ := x
  · exact ⟨b₁, rfl, h⟩
  · cases h

theorem storeFields_stores (hb : b.Addresses size) (hl : ∀ a ∈ l, Storable records a.1 a.2.2)
    (hin : ∀ a ∈ l, start ≤ a.2.1 ∧ min (a.2.1 + a.1.sizeIn records) lastOffset ≤ size)
    (hpair : l.Pairwise fun a a' => min (a.2.1 + a.1.sizeIn records) lastOffset ≤ a'.2.1)
    (h : storeFields (fun t b o v => b.store records t o v) offset b l = (b', none)) :
    b.Agrees b' (b.elsewhere (offset + start) (offset + size)) ∧
      ∀ a ∈ l, b'.load records a.1 (offset + a.2.1) = .ok a.2.2 := by
  induction l generalizing b start with
  | nil =>
    cases h
    exact ⟨.refl _ _, by simp⟩
  | cons a l ih =>
    obtain ⟨t, first, v⟩ := a
    obtain ⟨hfirst, hlast⟩ := hin _ mem_cons_self
    have hv : Storable records t v := hl _ mem_cons_self
    obtain ⟨hbehind, hpair⟩ := pairwise_cons.mp hpair
    obtain ⟨b₁, hstore, hrest⟩ := storeFields_cons_eq h
    have hb₁ := hv.stores (hb.part hlast) hstore
    have hsize : b₁.size = b.size := hb₁.agrees.size
    have haddr : b₁.Addresses size := by rwa [Block.Addresses, hsize]
    have hin' : ∀ x ∈ l, min (first + t.sizeIn records) lastOffset ≤ x.2.1 ∧
        min (x.2.1 + x.1.sizeIn records) lastOffset ≤ size :=
      fun x hx => ⟨hbehind x hx, (hin x (mem_cons_of_mem _ hx)).2⟩
    obtain ⟨hagree, hload⟩ := ih haddr (fun x hx => hl x (mem_cons_of_mem _ hx)) hin' hpair hrest
    refine ⟨?_, ?_⟩
    · refine (hb₁.agrees.mono ?_).trans (hagree.mono ?_) <;> intro i hi <;>
        unfold Block.elsewhere outside Block.Addresses at * <;> dsimp only at * <;> omega
    · intro x hx
      rcases mem_cons.mp hx with rfl | hx
      · refine hb₁.load_of_agrees hv.grounded (hb.part hlast) hagree fun i hi => ?_
        unfold Block.elsewhere outside inside Block.Addresses at *
        dsimp only at *
        omega
      · exact hload x hx

theorem storeFields_succeeds (hl : ∀ a ∈ l, Storable records a.1 a.2.2)
    (hn : ∀ a ∈ l, a.1.Nests records Ty.startsZero d)
    (hin : ∀ a ∈ l, a.2.1 + a.1.sizeIn records ≤ size ∧ a.1.sizeIn records < lastOffset)
    (hroom : offset + size ≤ b.size) :
    ∃ b', storeFields (fun t b o v => b.store records t o v) offset b l = (b', none) := by
  induction l generalizing b with
  | nil => exact ⟨b, rfl⟩
  | cons a l ih =>
    obtain ⟨t, start, v⟩ := a
    obtain ⟨hlast, hsize⟩ : start + t.sizeIn records ≤ size ∧ t.sizeIn records < lastOffset :=
      hin _ mem_cons_self
    have hv : Storable records t v := hl _ mem_cons_self
    have hfits : offset + start + t.sizeIn records ≤ b.size := by omega
    obtain ⟨b₁, hfirst⟩ := hv.succeeds (hn _ mem_cons_self) hsize hfits
    have hb₁ := (hv.stores (.inl hsize) hfirst).agrees.size
    rw [storeFields, hfirst]
    exact ih (fun x hx => hl x (mem_cons_of_mem _ hx)) (fun x hx => hn x (mem_cons_of_mem _ hx))
      (fun x hx => hin x (mem_cons_of_mem _ hx)) (by omega)

/-- What was stored as an object of its type is loaded again. -/
theorem storable (h : t.Grounded records) (hv : v.Fits records Value.Kept t) :
    Storable records t v := by
  induction h using Ty.Grounded.induct generalizing v with
  | scalar h hs =>
    cases hv with
    | scalar _ hv =>
      refine ⟨h, fun {b b' offset} _ hstore => ?_, fun ht _ hroom => ?_⟩
      · obtain ⟨ht, hroom⟩ := room_of_scalar_store hs hstore
        obtain ⟨b'', hb''⟩ := scalar_stores ht hv hroom
        cases hstore.symm.trans hb''.store
        exact hb''
      · cases ht with
        | scalar _ ht =>
          obtain ⟨b', hb'⟩ := scalar_stores (by rw [Ty.inMemory, ht, Bool.true_or]) hv hroom
          exact ⟨b', hb'.store⟩
        | array | record => cases hs
    | array | record => cases hs
  | unknown h hr =>
    cases hv with
    | scalar hs _ => cases hs
    | record hr' _ _ => cases hr.symm.trans hr'
  | parts h hc ih =>
    obtain ⟨vs, hvs, rfl⟩ := hc.values hv
    obtain ⟨l, rfl, rfl, hfields⟩ := hc.store_parts hvs.length_eq
    rw [forall₂_map_left_iff, forall₂_map_right_iff, forall₂_same] at hvs
    have hl : ∀ a ∈ l, Storable records a.1 a.2.2 := fun a ha => ih _ (mem_map_of_mem ha) (hvs a ha)
    refine ⟨h, fun {b b' offset} hb hstore => ?_, fun {b offset d} ht hsize hroom => ?_⟩
    · rw [hfields] at hstore
      obtain ⟨hagree, hload⟩ := storeFields_stores hb hl
        (fun a ha => ⟨Nat.zero_le _, hc.within (mem_map_of_mem ha)⟩)
          (pairwise_map.mp hc.ordered) hstore
      refine ⟨(hfields b offset).trans hstore, hagree, hc.load_eq_ok.mpr ⟨_, ?_, rfl⟩⟩
      rwa [forall₂_map_left_iff, forall₂_map_right_iff, forall₂_same]
    · rw [hfields]
      exact storeFields_succeeds hl (fun a ha => hc.nests ht (mem_map_of_mem ha))
        (fun a ha => hc.fits (mem_map_of_mem ha) hsize) hroom

theorem exists_stores (h : t.Nests records Ty.startsZero d) (hsize : t.sizeIn records < lastOffset)
    (hv : v.Fits records Value.Exact t) (hroom : offset + t.sizeIn records ≤ b.size) :
    ∃ b', b.Stores records t offset v b' := by
  have hv := storable h.grounded (hv.imp Value.Exact.kept)
  obtain ⟨b', hstore⟩ := hv.succeeds h hsize hroom
  exact ⟨b', hv.stores (.inl hsize) hstore⟩

/-! ## Zeroed blocks -/

theorem read_zeroed (h : offset + size ≤ n) :
    (Block.zeroed n).read offset size = .ok (replicate size 0) := by
  refine Block.read_eq_ok.mpr ⟨by simpa [Block.zeroed, Block.size] using h, ?_⟩
  rw [Block.zeroed, drop_replicate, take_replicate]
  congr 1
  omega

/-- A zeroed block holds the default of every type. -/
theorem load_zeroed (h : t.Nests records Ty.startsZero d) (hsize : t.sizeIn records < lastOffset)
    (hroom : offset + t.sizeIn records ≤ n) :
    (Block.zeroed n).load records t offset = .ok (defaultValue records t) := by
  induction h.grounded using Ty.Grounded.induct generalizing offset d with
  | @scalar t _ hs =>
    have ht : t.startsZero = true := by
      cases h with
      | scalar _ ht => exact ht
      | array | record => cases hs
    have hread := read_zeroed hroom
    cases t with
    | void | varArgs | array | record => cases ht
    | pointer =>
      show ((Block.zeroed n).read offset 8).map _ = _
      rw [show (Block.zeroed n).read offset 8 = _ from hread]
      rfl
    | bool =>
      show ((Block.zeroed n).read offset 1).map _ = _
      rw [show (Block.zeroed n).read offset 1 = _ from hread]
      rfl
    | int w =>
      show ((Block.zeroed n).read offset w.bytes).map _ = _
      rw [show (Block.zeroed n).read offset w.bytes = _ from hread, Except.map,
        Number.ofOctets_replicate_zero]
      exact congrArg (fun n => Except.ok (Value.int w n)) Int.zero_bmod
    | float kind =>
      cases kind with
      | half => cases ht
      | single =>
        show ((Block.zeroed n).read offset 4).map _ = _
        rw [show (Block.zeroed n).read offset 4 = _ from hread, Except.map,
          Number.ofOctets_replicate_zero]
        exact congrArg (fun x => Except.ok (Value.float .single x))
          (by decide : Number.ofSingleBits 0 = 0.0)
      | double =>
        show ((Block.zeroed n).read offset 8).map _ = _
        rw [show (Block.zeroed n).read offset 8 = _ from hread, Except.map,
          Number.ofOctets_replicate_zero]
        exact congrArg (fun x => Except.ok (Value.float .double x))
          (by decide : Float.ofBits 0 = 0.0)
  | unknown _ hr =>
    cases h with
    | scalar hs => cases hs
    | record hr' => cases hr.symm.trans hr'
  | parts _ hc ih =>
    refine hc.load_eq_ok.mpr ⟨_, ?_, hc.defaultValue_eq.symm⟩
    rw [forall₂_map_right_iff, forall₂_same]
    intro a ha
    obtain ⟨hin, hlt⟩ := hc.fits ha hsize
    exact ih a ha (hc.nests h ha) hlt (by omega)

/-! ## Blocks of a memory -/

namespace Memory

variable {m : Memory} {r : Region} {b : Block} {i : Nat}

theorem block_static : m.block (.static i) = .ok b ↔ m.statics[i]? = some b := by
  unfold block
  dsimp only
  cases m.statics[i]? <;> simp

theorem block_heap : m.block (.heap i) = .ok b ↔ m.heap[i]? = some (some b) := by
  unfold block
  dsimp only
  cases h : m.heap[i]? with
  | none => simp
  | some o => cases o <;> simp

theorem block_setBlock (h : m.block r = .ok b) (b' : Block) :
    (m.setBlock r b').block r = .ok b' := by
  cases r with
  | static i =>
    have hi := lt_of_getElem? (block_static.mp h)
    exact block_static.mpr (getElem?_set_self hi)
  | heap i =>
    have hi := lt_of_getElem? (block_heap.mp h)
    exact block_heap.mpr (getElem?_set_self hi)

end Memory

end Machine

end Stackify
