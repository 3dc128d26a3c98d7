import Stackify.Proofs.Success
import Stackify.Code.Layout
import Mathlib.Data.List.Perm.Subperm
import Mathlib.Data.Nat.Find
import Mathlib.Logic.Relation

/-!
Layout of types whose records do not hold themselves.

`T.Nests records leaf d` says that `T` is made of scalars by arrays and records, at most `d` records
deep. A record that holds itself by value nests at no depth. `T.Grounded records` asks for less:
records that are not in the table may occur. The main statements are

- `Nests.bounded`, `Nonrecursive.grounded`: no more records nest in each other than there are, so
  the depth that a layout is computed to is deep enough (`Grounded.extent_record`);
- `placeFields_ordered`, `Record.layout_ordered`: fields follow each other without overlap;
- `Record.Places.within`, `item_within`: parts of an object lie within it;
- `Record.Places.within_or_last`, `Record.Places.before_or_last`: the same up to the greatest
  offset, which objects too large for 64 bits reach.
-/

namespace Stackify.Code

open List

variable {records : List Record} {leaf : Ty → Bool} {d k : Nat} {t : Ty} {id : RecordId}
  {r : Record}

/-! ## Nesting -/

/-- Types without parts. -/
def Ty.isScalar : Ty → Bool
  | .array _ _ | .record _ => false
  | _ => true

/-- Types made of scalars that `leaf` admits, in which at most so many records are nested. -/
inductive Ty.Nests (records : List Record) (leaf : Ty → Bool) : Nat → Ty → Prop
  | scalar {d : Nat} {t : Ty} : t.isScalar = true → leaf t = true → Nests records leaf d t
  | array {d : Nat} {e : Ty} {n : Nat} : Nests records leaf d e → Nests records leaf d (.array e n)
  | record {d : Nat} {id : RecordId} {r : Record} : records[id]? = some r →
      (∀ f ∈ r.fields, Nests records leaf d f.ty) → Nests records leaf (d + 1) (.record id)

namespace Ty.Nests

theorem element {e : Ty} {n : Nat} (h : (Ty.array e n).Nests records leaf d) :
    e.Nests records leaf d := by
  cases h with
  | scalar hs _ => cases hs
  | array h => exact h

theorem fields (h : (Ty.record id).Nests records leaf d) :
    ∃ r k, d = k + 1 ∧ records[id]? = some r ∧ ∀ f ∈ r.fields, f.ty.Nests records leaf k := by
  cases h with
  | scalar hs _ => cases hs
  | record hr hf => exact ⟨_, _, rfl, hr, hf⟩

theorem mono (h : t.Nests records leaf d) (hk : d ≤ k) : t.Nests records leaf k := by
  induction h generalizing k with
  | scalar hs hl => exact .scalar hs hl
  | array _ ih => exact .array (ih hk)
  | record hr _ ih =>
    obtain ⟨k, rfl⟩ : ∃ m, k = m + 1 := ⟨k - 1, by omega⟩
    exact .record hr fun f hf => ih f hf (by omega)

/-- Distinct numbers of records are no more than there are records. -/
theorem length_le_of_nodup {ids : List RecordId} (hn : ids.Nodup)
    (hlt : ∀ i ∈ ids, i < records.length) : ids.length ≤ records.length := by
  have hsub : ids ⊆ List.range records.length := fun i hi => mem_range.mpr (hlt i hi)
  simpa using (subperm_of_subset hn hsub).length_le

/-- Records on the way to a type are different from those inside it, so that each takes one from
what is left. -/
theorem of_unseen (h : t.Nests records leaf k) {n : Nat} {seen : List RecordId} (hn : seen.Nodup)
    (hlt : ∀ i ∈ seen, i < records.length) (hlen : n + seen.length = records.length)
    (hout : ∀ i ∈ seen, ¬ (Ty.record i).Nests records leaf k) : t.Nests records leaf n := by
  induction k using Nat.strongRecOn generalizing t n seen with
  | ind k ih =>
  induction t with
  | array e m ihe => exact .array (ihe h.element)
  | record id =>
    -- The least depth at which the record nests keeps it apart from its own parts.
    classical
    have hex : ∃ j, (Ty.record id).Nests records leaf j := ⟨k, h⟩
    have hle : Nat.find hex ≤ k := Nat.find_min' hex h
    obtain ⟨r, j, hj, hr, hf⟩ := (Nat.find_spec hex).fields
    have hself : ¬ (Ty.record id).Nests records leaf j := Nat.find_min hex (by omega)
    have hid : id ∉ seen := fun hmem => hout id hmem h
    have hn' : (id :: seen).Nodup := nodup_cons.mpr ⟨hid, hn⟩
    have hlt' : ∀ i ∈ id :: seen, i < records.length :=
      forall_mem_cons.mpr ⟨lt_of_getElem? hr, hlt⟩
    have hroom := length_le_of_nodup hn' hlt'
    rw [length_cons] at hroom
    obtain ⟨n, rfl⟩ : ∃ m, n = m + 1 := ⟨n - 1, by omega⟩
    refine .record hr fun f hfm =>
      ih j (by omega) (hf f hfm) hn' hlt' (by rw [length_cons]; omega) ?_
    exact forall_mem_cons.mpr ⟨hself, fun i hi hnest => hout i hi (hnest.mono (by omega))⟩
  | void | bool | int | float | pointer | varArgs =>
    cases h with
    | scalar hs hl => exact .scalar hs hl

/-- No more records nest in each other than there are. -/
theorem bounded (h : t.Nests records leaf k) : t.Nests records leaf records.length :=
  h.of_unseen nodup_nil (by simp) (by simp) (by simp)

end Ty.Nests

/-! ## Records that hold themselves -/

/-- The record that an object of a type is or is an array of. -/
def Ty.held? : Ty → Option RecordId
  | .array e _ => e.held?
  | .record id => some id
  | _ => none

/-- One record has a field with objects of another in it. -/
def Holds (records : List Record) (id id' : RecordId) : Prop :=
  ∃ r f, records[id]? = some r ∧ f ∈ r.fields ∧ f.ty.held? = some id'

/-- Types without a record in them, however deep, that holds itself. -/
def Ty.Nonrecursive (records : List Record) (t : Ty) : Prop :=
  ∀ id id', t.held? = some id → Relation.ReflTransGen (Holds records) id id' →
    ¬ Relation.TransGen (Holds records) id' id'

/-- Records that hold only records in front of them do not hold themselves. -/
theorem irreflexive_of_earlier (h : ∀ x ∈ records.zipIdx, ∀ f ∈ x.1.fields, ∀ id ∈ f.ty.held?,
    id < x.2) (id : RecordId) : ¬ Relation.TransGen (Holds records) id id := by
  have hstep {id id' : RecordId} (hholds : Holds records id id') : id' < id := by
    obtain ⟨r, f, hr, hf, hheld⟩ := hholds
    exact h (r, id) (mem_zipIdx_iff_getElem?.mpr hr) f hf id' hheld
  have hpath {id id' : RecordId} (hholds : Relation.TransGen (Holds records) id id') :
      id' < id := by
    induction hholds with
    | single hlast => exact hstep hlast
    | tail _ hlast ih => exact Nat.lt_trans (hstep hlast) ih
  exact fun hself => Nat.lt_irrefl id (hpath hself)

/-- Types in which at most so many records are nested. A record that is not in the table has no
fields. -/
inductive Ty.Ends (records : List Record) : Nat → Ty → Prop
  | scalar {d : Nat} {t : Ty} : t.isScalar = true → Ends records d t
  | array {d : Nat} {e : Ty} {n : Nat} : Ends records d e → Ends records d (.array e n)
  | unknown {d : Nat} {id : RecordId} : records[id]? = none → Ends records d (.record id)
  | record {d : Nat} {id : RecordId} {r : Record} : records[id]? = some r →
      (∀ f ∈ r.fields, Ends records d f.ty) → Ends records (d + 1) (.record id)

/-- Types whose records do not hold themselves. The number of records bounds how deep they nest. -/
def Ty.Grounded (records : List Record) (t : Ty) : Prop := t.Ends records records.length

namespace Ty.Ends

theorem mono (h : t.Ends records d) (hk : d ≤ k) : t.Ends records k := by
  induction h generalizing k with
  | scalar hs => exact .scalar hs
  | array _ ih => exact .array (ih hk)
  | unknown hr => exact .unknown hr
  | record hr _ ih =>
    obtain ⟨k, rfl⟩ : ∃ m, k = m + 1 := ⟨k - 1, by omega⟩
    exact .record hr fun f hf => ih f hf (by omega)

theorem element {e : Ty} {n : Nat} (h : (Ty.array e n).Ends records d) : e.Ends records d := by
  cases h with
  | scalar hs => cases hs
  | array h => exact h

theorem fields (h : (Ty.record id).Ends records d) (hr : records[id]? = some r) :
    ∃ k, d = k + 1 ∧ ∀ f ∈ r.fields, f.ty.Ends records k := by
  cases h with
  | scalar hs => cases hs
  | unknown hr' => cases hr.symm.trans hr'
  | record hr' hf =>
    cases hr.symm.trans hr'
    exact ⟨_, rfl, hf⟩

/-- Beyond the depth of a type, its extent does not depend on how deep records are looked into. -/
theorem extentWith_eq {m : Nat} (h : t.Ends records d) (hk : d ≤ k) (hm : d ≤ m) :
    t.extentWith (recordExtent records k) = t.extentWith (recordExtent records m) := by
  induction h generalizing k m with
  | @scalar _ t hs =>
    cases t with
    | float kind => cases kind <;> rfl
    | array | record => cases hs
    | void | bool | int | pointer | varArgs => rfl
  | array _ ih => simp only [Ty.extentWith, ih hk hm]
  | unknown hr => cases k <;> cases m <;> simp only [Ty.extentWith, recordExtent, hr]
  | @record _ _ r hr _ ih =>
    obtain ⟨k, rfl⟩ : ∃ j, k = j + 1 := ⟨k - 1, by omega⟩
    obtain ⟨m, rfl⟩ : ∃ j, m = j + 1 := ⟨m - 1, by omega⟩
    have hmap : (r.fields.map fun f => f.ty.extentWith (recordExtent records k)) =
        r.fields.map fun f => f.ty.extentWith (recordExtent records m) :=
      map_congr_left fun f hf => ih f hf (by omega) (by omega)
    simp only [Ty.extentWith, recordExtent, hr, hmap]

/-- Each record on the way to a type leads back to none before it, and so takes one from what is
left. -/
theorem of_nonrecursive {n : Nat} {seen : List RecordId} (hn : seen.Nodup)
    (hlt : ∀ i ∈ seen, i < records.length) (hlen : n + seen.length = records.length)
    (ht : t.Nonrecursive records) (hseen : ∀ i ∈ seen, ∀ id, t.held? = some id →
      Relation.TransGen (Holds records) i id) : t.Ends records n := by
  induction n using Nat.strongRecOn generalizing t seen with
  | ind n ih =>
  induction t with
  | array e m ihe => exact .array (ihe ht hseen)
  | record id =>
    cases hr : records[id]? with
    | none => exact .unknown hr
    | some r =>
      have hid : id ∉ seen := fun hmem => ht id id rfl .refl (hseen id hmem id rfl)
      have hn' : (id :: seen).Nodup := nodup_cons.mpr ⟨hid, hn⟩
      have hlt' : ∀ i ∈ id :: seen, i < records.length :=
        forall_mem_cons.mpr ⟨lt_of_getElem? hr, hlt⟩
      have hroom := Nests.length_le_of_nodup hn' hlt'
      rw [length_cons] at hroom
      obtain ⟨n, rfl⟩ : ∃ m, n = m + 1 := ⟨n - 1, by omega⟩
      refine .record hr fun f hf =>
        ih n (Nat.lt_succ_self n) hn' hlt' (by rw [length_cons]; omega) ?_ ?_
      · intro id' id'' hheld hreach
        exact ht id id'' rfl (.head ⟨r, f, hr, hf, hheld⟩ hreach)
      · intro i hi id' hheld
        have hstep : Holds records id id' := ⟨r, f, hr, hf, hheld⟩
        rcases mem_cons.mp hi with rfl | hi
        · exact .single hstep
        · exact (hseen i hi id rfl).tail hstep
  | void | bool | int | float | pointer | varArgs => exact .scalar rfl

end Ty.Ends

theorem Ty.Nonrecursive.grounded (h : t.Nonrecursive records) : t.Grounded records :=
  .of_nonrecursive nodup_nil (by simp) (by simp) h (by simp)

theorem Ty.Nests.ends (h : t.Nests records leaf d) : t.Ends records d := by
  induction h with
  | scalar hs _ => exact .scalar hs
  | array _ ih => exact .array ih
  | record hr _ ih => exact .record hr ih

theorem Ty.Nests.grounded (h : t.Nests records leaf d) : t.Grounded records := h.bounded.ends

namespace Ty.Grounded

theorem element {e : Ty} {n : Nat} (h : (Ty.array e n).Grounded records) : e.Grounded records :=
  Ends.element h

section
variable (h : (Ty.record id).Grounded records)
include h

theorem field {f : Field} (hr : records[id]? = some r) (hf : f ∈ r.fields) :
    f.ty.Grounded records := by
  obtain ⟨k, hk, hfields⟩ := Ends.fields h hr
  exact (hfields f hf).mono (by omega)

theorem extent_record (hr : records[id]? = some r) :
    (Ty.record id).extent records = ⟨(r.layout records).size, (r.layout records).align⟩ := by
  obtain ⟨k, hk, hf⟩ := Ends.fields h hr
  have hmap : (r.fields.map fun f => f.ty.extentWith (recordExtent records k)) =
      r.fields.map fun f => f.ty.extent records :=
    map_congr_left fun f hfm => (hf f hfm).extentWith_eq (Nat.le_refl k) (by omega)
  rw [Ty.extent, Ty.extentWith, hk, recordExtent, hr]
  simp only [hmap, Record.layout]

theorem sizeIn_record (hr : records[id]? = some r) :
    (Ty.record id).sizeIn records = (r.layout records).size := by
  rw [Ty.sizeIn, h.extent_record hr]

end

end Ty.Grounded

/-! ## Placing fields -/

theorem le_alignUp (n a : Nat) : n ≤ alignUp n a := by
  unfold alignUp
  split
  · omega
  · split <;> omega

/-- Placing fields gives each of them an offset. -/
theorem placeFields_length (packed : Bool) (offset : Nat) (xs : List Extent) :
    (placeFields packed offset xs).1.length = xs.length := by
  induction xs generalizing offset with
  | nil => rfl
  | cons x xs ih => simp [placeFields, ih]

theorem layout_offsets_length (records : List Record) (r : Record) :
    (r.layout records).offsets.length = r.fields.length := by
  unfold Record.layout Layout.ofExtents
  dsimp only
  split <;> simp [placeFields_length]

/-- Fields are placed one behind the other, up to the greatest offset. -/
theorem placeFields_ordered (packed : Bool) (offset : Nat) (xs : List Extent) :
    min offset lastOffset ≤ (placeFields packed offset xs).2 ∧
      (∀ a ∈ xs.zip (placeFields packed offset xs).1,
        min offset lastOffset ≤ a.2 ∧ min (a.2 + a.1.size) lastOffset ≤
          (placeFields packed offset xs).2) ∧
      (xs.zip (placeFields packed offset xs).1).Pairwise fun a b =>
        min (a.2 + a.1.size) lastOffset ≤ b.2 := by
  induction xs generalizing offset with
  | nil => exact ⟨Nat.min_le_left _ _, by simp, by simp⟩
  | cons x xs ih =>
    simp only [placeFields]
    generalize hstart : (if packed = true then offset else alignUp offset x.align) = start
    have hle : offset ≤ start := by
      rw [← hstart]
      split
      · exact Nat.le_refl offset
      · exact le_alignUp offset x.align
    obtain ⟨hstop, hall, hpair⟩ := ih (min (start + x.size) lastOffset)
    refine ⟨by omega, ?_, ?_⟩
    · intro a ha
      rcases mem_cons.mp ha with rfl | ha
      · dsimp only
        omega
      · have := hall a ha
        omega
    · refine pairwise_cons.mpr ⟨fun a ha => ?_, hpair⟩
      have := (hall a ha).1
      dsimp only
      omega

/-! ## Parts of objects -/

/-- The field at a position, with its offset. -/
structure Record.Places (records : List Record) (r : Record) (i : Nat) (f : Field) (start : Nat) :
    Prop where
  field : r.fields[i]? = some f
  offset : (r.layout records).offsets[i]? = some start

theorem Record.exists_places {i : Nat} {f : Field} (hf : r.fields[i]? = some f) :
    ∃ start, r.Places records i f start := by
  have hi : i < (r.layout records).offsets.length := by
    rw [layout_offsets_length]
    exact lt_of_getElem? hf
  exact ⟨_, hf, getElem?_eq_getElem hi⟩

/-- The fields of a record with their offsets lie one behind the other within its size, up to the
greatest offset. -/
theorem Record.layout_ordered (records : List Record) (r : Record) :
    (∀ a ∈ (r.fields.map (·.ty)).zip (r.layout records).offsets,
      min (a.2 + a.1.sizeIn records) lastOffset ≤ (r.layout records).size) ∧
    ((r.fields.map (·.ty)).zip (r.layout records).offsets).Pairwise
      fun a b => min (a.2 + a.1.sizeIn records) lastOffset ≤ b.2 := by
  unfold Record.layout Layout.ofExtents
  dsimp only
  generalize hxs : (r.fields.map fun f => f.ty.extent records) = xs
  have hzip (os : List Nat) : ((r.fields.map (·.ty)).zip os).map (Prod.map (·.extent records) id) =
      xs.zip os := by
    rw [← zip_map_left, List.map_map, ← hxs]
    rfl
  obtain ⟨-, hall, hpair⟩ := placeFields_ordered r.packed 0 xs
  rw [← hzip] at hall hpair
  have hall := List.forall_mem_map.mp hall
  have hpair := pairwise_map.mp hpair
  split
  · exact ⟨fun a ha => (hall a ha).2, hpair⟩
  · have hup := le_alignUp (placeFields r.packed 0 xs).2 (xs.foldl (fun a x => max a x.align) 1)
    exact ⟨fun a ha => Nat.le_trans (hall a ha).2 hup, hpair⟩

namespace Record.Places

variable {i j start start' : Nat} {f f' : Field}

section
variable (h : r.Places records i f start)
include h

theorem getElem? :
    ((r.fields.map (·.ty)).zip (r.layout records).offsets)[i]? = some (f.ty, start) := by
  rw [getElem?_zip_eq_some]
  exact ⟨by rw [getElem?_map, h.field, Option.map_some], h.offset⟩

theorem within_or_last : min (start + f.ty.sizeIn records) lastOffset ≤ (r.layout records).size :=
  (Record.layout_ordered records r).1 _ (mem_of_getElem? h.getElem?)

theorem within (hsize : (r.layout records).size < lastOffset) :
    start + f.ty.sizeIn records ≤ (r.layout records).size := by
  have := h.within_or_last
  omega

end

theorem before_or_last (h : r.Places records i f start) (h' : r.Places records j f' start')
    (hij : i < j) : min (start + f.ty.sizeIn records) lastOffset ≤ start' := by
  have hpair := pairwise_iff_getElem.mp (Record.layout_ordered records r).2
  obtain ⟨hi, hgi⟩ := List.getElem?_eq_some_iff.mp h.getElem?
  obtain ⟨hj, hgj⟩ := List.getElem?_eq_some_iff.mp h'.getElem?
  have := hpair i j hi hj hij
  rw [hgi, hgj] at this
  exact this

end Record.Places

/-- An element of an array lies within it. -/
theorem item_within (size : Nat) {i n : Nat} (hi : i < n) : i * size + size ≤ size * n := by
  rw [← Nat.succ_mul, Nat.mul_comm size n]
  exact Nat.mul_le_mul_right size hi

end Stackify.Code
