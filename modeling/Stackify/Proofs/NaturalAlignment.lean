import Mathlib
import Stackify.Proofs.Layout

/-!
Natural alignment. Whatever records nest, alignments are powers of two and divide sizes
(`Ty.extent_aligned`), so the elements of an array are aligned if the array is. Placing fields is
followed by how far they reach (`Record.reach`): a field begins at the least offset that suits it
and is not before the end of the fields in front of it (`Places.start_eq`), and moves that end to
its own (`Places.reach_succ`). The main statement is `layout_natural`. Words of 64 bits compute the
same, as long as no record reaches the last of them (`Ty.wordExtent_eq`).
-/

namespace Stackify.Code

open List

variable {records : List Record} {r : Record} {x : Extent} {n : Nat} {xs : List Extent}

/-! ## Rounding up -/

theorem alignUp_isLeast (n : Nat) {a : Nat} (ha : 0 < a) :
    IsLeast {k | n ≤ k ∧ a ∣ k} (alignUp n a) := by
  unfold alignUp
  by_cases hone : a ≤ 1
  · obtain rfl : a = 1 := by omega
    exact ⟨⟨Nat.le_refl n, Nat.one_dvd n⟩, fun k hk => hk.1⟩
  rw [if_neg hone]
  by_cases hmod : n % a = 0
  · rw [if_pos hmod]
    exact ⟨⟨Nat.le_refl n, Nat.dvd_of_mod_eq_zero hmod⟩, fun k hk => hk.1⟩
  rw [if_neg hmod]
  have hlt := Nat.mod_lt n ha
  have hsplit := Nat.div_add_mod n a
  refine ⟨⟨by omega, n / a + 1, by rw [Nat.mul_succ]; omega⟩, ?_⟩
  rintro k ⟨hle, q, rfl⟩
  have hq : n / a < q := by
    by_contra hge
    have := Nat.mul_le_mul_left a (Nat.le_of_not_lt hge)
    omega
  have hnext := Nat.mul_le_mul_left a hq
  rw [Nat.mul_succ] at hnext
  omega

/-! ## Extents -/

/-- The alignment is a power of two, and the size is a multiple of it. -/
structure Extent.Aligned (x : Extent) : Prop where
  power : x.align.isPowerOfTwo
  divides : x.align ∣ x.size

theorem Extent.Aligned.pos (h : x.Aligned) : 0 < x.align := Nat.pos_of_isPowerOfTwo h.power

theorem Extent.Aligned.scalar (h : n.isPowerOfTwo) : Extent.Aligned ⟨n, n⟩ := ⟨h, Nat.dvd_refl n⟩

theorem Extent.Aligned.loose (size : Nat) : Extent.Aligned ⟨size, 1⟩ :=
  ⟨Nat.isPowerOfTwo_one, Nat.one_dvd _⟩

theorem Ty.extentWith_aligned {f : RecordId → Extent} (hf : ∀ id, (f id).Aligned) (t : Ty) :
    (t.extentWith f).Aligned := by
  induction t with
  | void => exact .loose 0
  | bool => exact .loose 1
  | int w =>
    cases w with
    | w8 => exact .scalar ⟨0, rfl⟩
    | w16 => exact .scalar ⟨1, rfl⟩
    | w32 => exact .scalar ⟨2, rfl⟩
    | w64 => exact .scalar ⟨3, rfl⟩
    | w128 => exact .scalar ⟨4, rfl⟩
  | float k =>
    cases k with
    | half => exact .scalar ⟨1, rfl⟩
    | single => exact .scalar ⟨2, rfl⟩
    | double => exact .scalar ⟨3, rfl⟩
  | pointer | varArgs => exact .scalar ⟨3, rfl⟩
  | array e n ih => exact ⟨ih.power, Nat.dvd_mul_right_of_dvd ih.divides n⟩
  | record id => exact hf id

/-- The strictest alignment is that of a field, or none is asked for. -/
theorem foldl_align_isGreatest (xs : List Extent) (a : Nat) :
    IsGreatest {n | n = a ∨ ∃ x ∈ xs, x.align = n} (xs.foldl (fun a x => max a x.align) a) := by
  induction xs generalizing a with
  | nil => exact ⟨.inl rfl, by rintro n (rfl | ⟨x, hx, -⟩) <;> simp_all⟩
  | cons x xs ih =>
    obtain ⟨hmem, hup⟩ := ih (max a x.align)
    have hle : max a x.align ≤ xs.foldl (fun a x => max a x.align) (max a x.align) := hup (.inl rfl)
    rw [foldl_cons]
    constructor
    · rcases hmem with hmax | ⟨y, hy, heq⟩
      · rw [hmax]
        rcases Nat.le_total a x.align with h | h
        · exact .inr ⟨x, mem_cons_self, (Nat.max_eq_right h).symm⟩
        · exact .inl (Nat.max_eq_left h)
      · exact .inr ⟨y, mem_cons_of_mem _ hy, heq⟩
    · rintro n (rfl | ⟨y, hy, rfl⟩)
      · omega
      · rcases mem_cons.mp hy with rfl | hy
        · omega
        · exact hup (.inr ⟨y, hy, rfl⟩)

theorem Layout.ofExtents_aligned (packed : Bool) (hxs : ∀ x ∈ xs, x.Aligned) :
    Extent.Aligned ⟨(Layout.ofExtents packed xs).size, (Layout.ofExtents packed xs).align⟩ := by
  unfold Layout.ofExtents
  dsimp only
  split
  · exact .loose _
  · have hpower : (xs.foldl (fun a (x : Extent) => max a x.align) 1).isPowerOfTwo := by
      rcases (foldl_align_isGreatest xs 1).1 with h | ⟨x, hx, h⟩
      · rw [h]
        exact Nat.isPowerOfTwo_one
      · rw [← h]
        exact (hxs x hx).power
    exact ⟨hpower, (alignUp_isLeast _ (Nat.pos_of_isPowerOfTwo hpower)).1.2⟩

theorem recordExtent_aligned (records : List Record) (depth : Nat) (id : RecordId) :
    (recordExtent records depth id).Aligned := by
  induction depth generalizing id with
  | zero => exact .loose 0
  | succ depth ih =>
    rw [recordExtent]
    split
    · exact .loose 0
    · refine Layout.ofExtents_aligned _ (List.forall_mem_map.mpr fun f _ => ?_)
      exact Ty.extentWith_aligned ih f.ty

theorem Ty.extent_aligned (records : List Record) (t : Ty) : (t.extent records).Aligned :=
  Ty.extentWith_aligned (recordExtent_aligned records _) t

/-! ## Placing fields -/

/-- A field begins where those in front of it end, rounded up unless it is packed; and then they end
with it. -/
theorem placeFields_getElem? {packed : Bool} {offset i start : Nat} (hx : xs[i]? = some x)
    (hstart : (placeFields packed offset xs).1[i]? = some start) :
    start = (if packed then (placeFields packed offset (xs.take i)).2
        else alignUp (placeFields packed offset (xs.take i)).2 x.align) ∧
      (placeFields packed offset (xs.take (i + 1))).2 = min (start + x.size) lastOffset := by
  induction xs generalizing offset i with
  | nil => cases hx
  | cons y xs ih =>
    cases i with
    | zero =>
      cases hx
      cases hstart
      exact ⟨rfl, rfl⟩
    | succ i => exact ih hx hstart

/-- How far the fields in front of a position reach. -/
def Record.reach (records : List Record) (r : Record) (i : Nat) : Nat :=
  (placeFields r.packed 0 ((r.fields.map fun f => f.ty.extent records).take i)).2

/-- The fields end at offsets of 64 bits, so that none is cut off. -/
def Record.Fits (records : List Record) (r : Record) : Prop :=
  ∀ i f start, r.Places records i f start → start + f.ty.sizeIn records < Number.pow2 64

theorem Record.fits_of_size_lt (h : (r.layout records).size < lastOffset) : r.Fits records := by
  intro i f start hplaces
  have hlast : lastOffset = Number.pow2 64 - 1 := rfl
  have hwithin := hplaces.within h
  omega

theorem Layout.ofExtents_offsets (packed : Bool) (xs : List Extent) :
    (Layout.ofExtents packed xs).offsets = (placeFields packed 0 xs).1 := by
  unfold Layout.ofExtents
  dsimp only
  split <;> rfl

theorem Record.reach_length (records : List Record) (r : Record) : r.reach records r.fields.length =
    (placeFields r.packed 0 (r.fields.map fun f => f.ty.extent records)).2 := by
  rw [reach, take_of_length_le (Nat.le_of_eq (length_map _))]

theorem Record.layout_size (records : List Record) (r : Record) : (r.layout records).size =
    if r.packed then r.reach records r.fields.length else alignUp (r.reach records r.fields.length)
      (r.layout records).align := by
  rw [reach_length, layout, Layout.ofExtents]
  dsimp only
  split <;> rfl

variable {i start : Nat} {f : Field}

theorem Record.Places.start_eq (h : r.Places records i f start) :
    start = if r.packed then r.reach records i else alignUp (r.reach records i)
      (f.ty.alignIn records) := by
  have hoffset := h.offset
  rw [Record.layout, Layout.ofExtents_offsets] at hoffset
  exact (placeFields_getElem? (by rw [getElem?_map, h.field, Option.map_some]) hoffset).1

theorem Record.Places.reach_succ (h : r.Places records i f start) (hr : r.Fits records) :
    r.reach records (i + 1) = start + f.ty.sizeIn records := by
  have hoffset := h.offset
  rw [Record.layout, Layout.ofExtents_offsets] at hoffset
  have hreach := (placeFields_getElem? (by rw [getElem?_map, h.field, Option.map_some]) hoffset).2
  have hfits := hr i f start h
  have hlast : lastOffset = Number.pow2 64 - 1 := rfl
  exact hreach.trans (Nat.min_eq_left (show start + f.ty.sizeIn records ≤ lastOffset by omega))

/-- The field before a position, if there is one, ends at an offset or before it. -/
def Record.EndsBy (records : List Record) (r : Record) (i n : Nat) : Prop :=
  ∀ j f start, i = j + 1 → r.Places records j f start → start + f.ty.sizeIn records ≤ n

theorem Record.Fits.endsBy_iff (hr : r.Fits records) (hi : i ≤ r.fields.length) :
    r.EndsBy records i n ↔ r.reach records i ≤ n := by
  cases i with
  | zero =>
    refine iff_of_true ?_ (Nat.zero_le n)
    rintro j f start ⟨⟩
  | succ j =>
    obtain ⟨start, hplaces⟩ : ∃ start, r.Places records j _ start :=
      Record.exists_places (getElem?_eq_getElem hi)
    rw [hplaces.reach_succ hr]
    constructor
    · exact fun h => h j _ start rfl hplaces
    · rintro hle k g s ⟨⟩ h
      cases hplaces.field.symm.trans h.field
      cases hplaces.offset.symm.trans h.offset
      exact hle

/-! ## Layouts -/

/-- Fields at the least offsets that suit their alignments, in order, and a size that suits the
strictest of them. -/
structure Record.Natural (records : List Record) (r : Record) : Prop where
  starts : ∀ i f start, r.Places records i f start →
    IsLeast {n | r.EndsBy records i n ∧ f.ty.alignIn records ∣ n} start
  ordered : ∀ i j f g start start', r.Places records i f start →
    r.Places records j g start' → i < j → start + f.ty.sizeIn records ≤ start'
  within : ∀ i f start, r.Places records i f start →
    start + f.ty.sizeIn records ≤ (r.layout records).size
  align : IsGreatest {a | a = 1 ∨ ∃ f ∈ r.fields, f.ty.alignIn records = a} (r.layout records).align
  size : IsLeast {n | r.EndsBy records r.fields.length n ∧ (r.layout records).align ∣ n}
    (r.layout records).size

/-- Fields one behind the other without gaps. -/
structure Record.Tight (records : List Record) (r : Record) : Prop where
  starts : ∀ i f start, r.Places records i f start →
    start = ((r.fields.take i).map fun f => f.ty.sizeIn records).sum
  size : (r.layout records).size = (r.fields.map fun f => f.ty.sizeIn records).sum
  align : (r.layout records).align = 1

theorem Record.Fits.natural (hr : r.Fits records) (hpacked : r.packed = false) :
    r.Natural records where
  starts i f start h := by
    have hi : i ≤ r.fields.length := Nat.le_of_lt (lt_of_getElem? h.field)
    have hstart := h.start_eq
    rw [hpacked, if_neg Bool.false_ne_true] at hstart
    rw [hstart]
    simp only [hr.endsBy_iff hi]
    exact alignUp_isLeast _ (f.ty.extent_aligned records).pos
  ordered i j f g start start' h h' hij := by
    have hfits := hr i f start h
    have hbefore := h.before_or_last h' hij
    have hlast : lastOffset = Number.pow2 64 - 1 := rfl
    omega
  within i f start h := by
    have hfits := hr i f start h
    have hwithin := h.within_or_last
    have hlast : lastOffset = Number.pow2 64 - 1 := rfl
    omega
  align := by
    have halign : (r.layout records).align =
        (r.fields.map fun f => f.ty.extent records).foldl (fun a x => max a x.align) 1 := by
      rw [Record.layout, Layout.ofExtents, hpacked]
      rfl
    rw [halign]
    have hgreatest := foldl_align_isGreatest (r.fields.map fun f => f.ty.extent records) 1
    simp only [List.mem_map, exists_exists_and_eq_and] at hgreatest
    exact hgreatest
  size := by
    have haligned : Extent.Aligned ⟨(r.layout records).size, (r.layout records).align⟩ :=
      Layout.ofExtents_aligned _ (List.forall_mem_map.mpr fun f _ => f.ty.extent_aligned records)
    have hsize := r.layout_size records
    rw [hpacked, if_neg Bool.false_ne_true] at hsize
    rw [hsize]
    simp only [hr.endsBy_iff (Nat.le_refl _)]
    exact alignUp_isLeast _ haligned.pos

theorem Record.Fits.reach_packed (hr : r.Fits records) (hpacked : r.packed = true)
    (hi : i ≤ r.fields.length) :
    r.reach records i = ((r.fields.take i).map fun f => f.ty.sizeIn records).sum := by
  induction i with
  | zero => rfl
  | succ i ih =>
    obtain ⟨start, hplaces⟩ : ∃ start, r.Places records i _ start :=
      Record.exists_places (getElem?_eq_getElem hi)
    have hstart := hplaces.start_eq
    rw [hpacked, if_pos rfl, ih (Nat.le_of_lt hi)] at hstart
    rw [hplaces.reach_succ hr, hstart, take_succ_eq_append_getElem hi, map_append, sum_append]
    rfl

theorem Record.Fits.tight (hr : r.Fits records) (hpacked : r.packed = true) : r.Tight records where
  starts i f start h := by
    have hi := lt_of_getElem? h.field
    have hstart := h.start_eq
    rwa [hpacked, if_pos rfl, hr.reach_packed hpacked (Nat.le_of_lt hi)] at hstart
  size := by
    have hsize := r.layout_size records
    rwa [hpacked, if_pos rfl, hr.reach_packed hpacked (Nat.le_refl _), take_length] at hsize
  align := by
    rw [Record.layout, Layout.ofExtents, hpacked]
    rfl

/-- Alignments are powers of two and divide sizes. If no record holds itself, a record type takes
what the layout of its record says, and fields that end at offsets of 64 bits are laid out
naturally, or one behind the other in a packed record. -/
theorem layout_natural (hrecords : ∀ id, ¬ Relation.TransGen (Holds records) id id) :
    (∀ t : Ty, (t.alignIn records).isPowerOfTwo ∧ t.alignIn records ∣ t.sizeIn records) ∧
      (∀ id r, records[id]? = some r →
        (Ty.record id).extent records = ⟨(r.layout records).size, (r.layout records).align⟩) ∧
      ∀ r : Record, r.Fits records → if r.packed then r.Tight records else r.Natural records := by
  refine ⟨fun t => ⟨(t.extent_aligned records).power, (t.extent_aligned records).divides⟩,
    fun id r hr => ?_, fun r hr => ?_⟩
  · have hgrounded : (Ty.record id).Grounded records :=
      Ty.Nonrecursive.grounded fun _ id _ _ => hrecords id
    exact hgrounded.extent_record hr
  · split
    · next hpacked => exact hr.tight hpacked
    · next hpacked => exact hr.natural (by simpa using hpacked)

/-- A record with gaps, a packed one around it, and one with three of these at odd offsets. -/
def gapped : List Record := [
  ⟨"Pair", "pair", [⟨"field_0", .int .w8⟩, ⟨"field_1", .int .w32⟩], false⟩,
  ⟨"Packed", "packed", [⟨"field_0", .bool⟩, ⟨"field_1", .record 0⟩], true⟩,
  ⟨"Mixed", "mixed", [⟨"field_0", .array (.record 1) 3⟩, ⟨"field_1", .float .half⟩,
    ⟨"field_2", .int .w128⟩, ⟨"field_3", .bool⟩], false⟩]

theorem gapped_natural : (∀ id, ¬ Relation.TransGen (Holds gapped) id id) ∧
    gapped.map (fun r => (r.layout gapped).offsets) = [[0, 4], [0, 1], [0, 28, 32, 48]] ∧
    ∀ r ∈ gapped, if r.packed then r.Tight gapped else r.Natural gapped := by
  have hrecords : ∀ id, ¬ Relation.TransGen (Holds gapped) id id :=
    irreflexive_of_earlier (by decide)
  have hsmall : ∀ r ∈ gapped, (r.layout gapped).size < lastOffset := by decide
  exact ⟨hrecords, by decide, fun r hr =>
    (layout_natural hrecords).2.2 r (Record.fits_of_size_lt (hsmall r hr))⟩

/-! ## Words of 64 bits

Extents are numbers without bound here. Computed in words of 64 bits, in which products and offsets
that are rounded up wrap around, they are the same as long as no record reaches the last offset
(`Ty.wordExtent_eq`). -/

def word (n : Nat) : Nat := n % Number.pow2 64

theorem word_eq (h : n ≤ lastOffset) : word n = n :=
  Nat.mod_eq_of_lt (Nat.lt_of_le_of_lt h (by decide))

/-- The extent of a type in words, given that of each record. -/
def Ty.wordExtentWith (recordExtent : RecordId → Extent) : Ty → Extent
  | .array e n =>
    let x := e.wordExtentWith recordExtent
    ⟨word (x.size * n), x.align⟩
  | t => t.extentWith recordExtent

def placeFieldsInWords (packed : Bool) (offset : Nat) : List Extent → List Nat × Nat
  | [] => ([], offset)
  | x :: rest =>
    let at' := if packed then offset else word (alignUp offset x.align)
    let (offsets, stop) := placeFieldsInWords packed (min (at' + x.size) lastOffset) rest
    (at' :: offsets, stop)

def Layout.ofWordExtents (packed : Bool) (extents : List Extent) : Layout :=
  let (offsets, stop) := placeFieldsInWords packed 0 extents
  if packed then ⟨stop, 1, offsets⟩
  else
    let align := extents.foldl (fun a x => max a x.align) 1
    ⟨word (alignUp stop align), align, offsets⟩

def recordWordExtent (records : List Record) : Nat → RecordId → Extent
  | 0, _ => ⟨0, 1⟩
  | depth + 1, id =>
    match records[id]? with
    | none => ⟨0, 1⟩
    | some r =>
      let l :=
        Layout.ofWordExtents r.packed (r.fields.map fun f =>
          f.ty.wordExtentWith (recordWordExtent records depth))
      ⟨l.size, l.align⟩

def Ty.wordExtent (records : List Record) (t : Ty) : Extent :=
  t.wordExtentWith (recordWordExtent records records.length)

def Extent.inWords (x : Extent) : Extent := ⟨word x.size, x.align⟩

theorem Ty.wordExtentWith_eq {f : RecordId → Extent}
    (hf : ∀ id, (f id).size < lastOffset) (t : Ty) :
    t.wordExtentWith f = (t.extentWith f).inWords := by
  induction t with
  | array e n ih =>
    rw [wordExtentWith, ih]
    exact congrArg (Extent.mk · _) (Nat.mod_mul_mod _ _ _)
  | record id => exact congrArg (Extent.mk · _) (word_eq (Nat.le_of_lt (hf id))).symm
  | int w => cases w <;> rfl
  | float k => cases k <;> rfl
  | void | bool | pointer | varArgs => rfl

theorem placeFieldsInWords_eq {packed : Bool} {offset : Nat}
    (h : (placeFields packed offset xs).2 < lastOffset) :
    placeFieldsInWords packed offset (xs.map Extent.inWords) = placeFields packed offset xs := by
  induction xs generalizing offset with
  | nil => rfl
  | cons x xs ih =>
    simp only [map_cons, placeFieldsInWords, placeFields] at h ⊢
    generalize hstart : (if packed then offset else alignUp offset x.align) = start at h ⊢
    have hstop := (placeFields_ordered packed (min (start + x.size) lastOffset) xs).1
    have hstart' : (if packed then offset else word (alignUp offset x.inWords.align)) = start := by
      rw [← hstart]
      split
      · rfl
      · next hpacked =>
        rw [if_neg hpacked] at hstart
        exact word_eq (show alignUp offset x.align ≤ lastOffset by omega)
    have hsize : x.inWords.size = x.size := word_eq (by omega)
    rw [hstart', hsize, ih h]

theorem Layout.ofWordExtents_eq {packed : Bool}
    (h : (Layout.ofExtents packed xs).size < lastOffset) :
    Layout.ofWordExtents packed (xs.map Extent.inWords) = Layout.ofExtents packed xs := by
  unfold Layout.ofExtents at h ⊢
  unfold Layout.ofWordExtents
  dsimp only at h ⊢
  rw [foldl_map]
  split at h
  · next hpacked =>
    rw [if_pos hpacked, if_pos hpacked, placeFieldsInWords_eq h]
  · next hpacked =>
    have hup := Nat.lt_of_le_of_lt (le_alignUp _ _) h
    rw [if_neg hpacked, if_neg hpacked, placeFieldsInWords_eq hup]
    exact congrArg (Layout.mk · _ _) (word_eq (Nat.le_of_lt h))

theorem recordWordExtent_eq (h : ∀ depth id, (recordExtent records depth id).size < lastOffset)
    (depth : Nat) : recordWordExtent records depth = recordExtent records depth := by
  induction depth with
  | zero => rfl
  | succ depth ih =>
    funext id
    have hid := h (depth + 1) id
    rw [recordExtent] at hid
    rw [recordWordExtent, recordExtent, ih]
    cases hr : records[id]? with
    | none => rfl
    | some r =>
      rw [hr] at hid
      have hfields : (r.fields.map fun f => f.ty.wordExtentWith (recordExtent records depth)) =
          (r.fields.map fun f => f.ty.extentWith (recordExtent records depth)).map
            Extent.inWords := by
        rw [map_map]
        exact map_congr_left fun f _ => f.ty.wordExtentWith_eq (h depth)
      simp only [hfields]
      rw [Layout.ofWordExtents_eq hid]

/-- Words are enough for a type whose size is one, if no record reaches the last offset. -/
theorem Ty.wordExtent_eq (h : ∀ depth id, (recordExtent records depth id).size < lastOffset)
    {t : Ty} (ht : t.sizeIn records ≤ lastOffset) : t.wordExtent records = t.extent records := by
  rw [wordExtent, recordWordExtent_eq h, t.wordExtentWith_eq (h _)]
  exact congrArg (Extent.mk · _) (word_eq ht)

end Stackify.Code
