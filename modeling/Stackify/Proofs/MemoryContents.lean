import Stackify.Proofs.References

/-!
What memory holds after a store and after a copy.

A store that goes well is undone by a load of its type at its place, and is seen in no range apart
from its own (`load_after_store`). A copy moves what can be loaded: at the target there is
afterwards what was at the source before, also where the two overlap, and what lies apart from the
target stays (`load_after_copy`).

The first rests on `storable`, the second on `paste_slice_alike`: octets and references are cut out
and put back at the same distance from the start.
-/

namespace Stackify.Machine

open Code (Ty RecordId Record Field Holds lastOffset)
open List

/-! ## Parts of blocks -/

namespace Block

variable {b b' b'' part : Block} {offset size k n : Nat} {rs : List (Nat × Value)} {offset' : Nat}

theorem read_part {data : List UInt8} (h : b.read offset size = .ok data) (hk : k + n ≤ size) :
    b.read (offset + k) n = .ok ((data.drop k).take n) := by
  obtain ⟨hroom, rfl⟩ := read_eq_ok.mp h
  refine read_eq_ok.mpr ⟨by omega, ?_⟩
  rw [drop_take, take_take, drop_drop, Nat.min_eq_left (by omega)]

theorem read_beyond (h : b.size < offset + n) :
    b.read offset n = .error (.outsideBlock n offset b.size) :=
  if_neg (Nat.not_le.mpr h)

theorem lookup_shift {β : Type} {l : List (Nat × β)} (h : ∀ r ∈ l, offset ≤ r.1) :
    (l.map fun r => (r.1 - offset, r.2)).lookup k = l.lookup (offset + k) := by
  induction l with
  | nil => rfl
  | cons r l ih =>
    have hr : offset ≤ r.1 := h r mem_cons_self
    have hkey : (k == r.1 - offset) = (offset + k == r.1) := by
      rw [Bool.eq_iff_iff, beq_iff_eq, beq_iff_eq]
      omega
    rw [map_cons, lookup_cons, lookup_cons, hkey, ih fun q hq => h q (mem_cons_of_mem _ hq)]

theorem reference?_slice (h : b.slice offset size = .ok part) (hk : k < size) :
    part.reference? k = b.reference? (offset + k) := by
  obtain ⟨octets, -, rfl⟩ := map_eq_ok.mp h
  unfold reference?
  dsimp only
  rw [lookup_shift, lookup_filter _ fun i => offset ≤ i && i < offset + size, if_pos]
  · simpa using hk
  · intro r hr
    have hbounds : offset ≤ r.1 ∧ r.1 < offset + size := by simpa using (mem_filter.mp hr).2
    exact hbounds.1

theorem octets_setReferences (rs : List (Nat × Value)) :
    (b.setReferences offset rs).octets = b.octets := by
  induction rs generalizing b with
  | nil => rfl
  | cons r rs ih => exact ih

theorem reference?_setReferences_of_ne {i : Nat} (h : ∀ r ∈ rs, i ≠ offset + r.1) :
    (b.setReferences offset rs).reference? i = b.reference? i := by
  induction rs generalizing b with
  | nil => rfl
  | cons r rs ih =>
    refine (ih fun q hq => h q (mem_cons_of_mem _ hq)).trans ?_
    rw [reference?_setReference, if_neg (h r mem_cons_self)]

theorem reference?_setReferences (h : (rs.map (·.1)).Nodup) :
    (b.setReferences offset rs).reference? (offset + k) = (rs.lookup k).or
    (b.reference? (offset + k)) := by
  induction rs generalizing b with
  | nil => rfl
  | cons r rs ih =>
    obtain ⟨hnot, h⟩ := nodup_cons.mp h
    rw [lookup_cons]
    by_cases hk : k = r.1
    · -- The keys are distinct, so that no later one takes the place of this one.
      have hlater : ∀ q ∈ rs, offset + k ≠ offset + q.1 := by
        intro q hq heq
        exact hnot (List.mem_map.mpr ⟨q, hq, (Nat.add_left_cancel heq).symm.trans hk⟩)
      rw [beq_iff_eq.mpr hk]
      refine (reference?_setReferences_of_ne hlater).trans ?_
      rw [reference?_setReference, if_pos (by rw [hk])]
      rfl
    · rw [beq_eq_false_iff_ne.mpr hk]
      refine (ih h).trans ?_
      rw [reference?_setReference, if_neg (by omega)]

/-- What putting a part in leaves behind. -/
theorem pasted (h : b.paste offset part = (b', none)) : ∃ b₁, offset + part.size ≤ b.size ∧
    b.Wrote offset part.octets b₁ ∧ b' = b₁.setReferences offset part.references := by
  obtain ⟨b₁, hw, rfl⟩ := paste_eq_none h
  obtain ⟨hroom, hb⟩ := wrote_of_write hw
  exact ⟨b₁, hroom, hb, rfl⟩

theorem size_slice (h : b.slice offset size = .ok part) :
    offset + size ≤ b.size ∧ part.size = size := by
  obtain ⟨octets, hread, rfl⟩ := map_eq_ok.mp h
  obtain ⟨hroom, rfl⟩ := read_eq_ok.mp hread
  have hroom' : offset + size ≤ b.octets.length := hroom
  refine ⟨hroom, ?_⟩
  show ((b.octets.drop offset).take size).length = size
  rw [length_take, length_drop]
  omega

theorem paste_agrees (h : b.paste offset part = (b', none))
    (hpart : ∀ r ∈ part.references, r.1 < part.size) :
    b.Agrees b' (b.elsewhere offset (offset + part.size)) := by
  obtain ⟨b₁, hroom, hb, rfl⟩ := pasted h
  have hset : b₁.Agrees (b₁.setReferences offset part.references)
      (outside offset (offset + part.size)) := by
    refine ⟨?_, ?_, ?_⟩
    · rw [Block.size, octets_setReferences, Block.size]
    · intro i _
      rw [octets_setReferences]
    · intro i hi
      refine reference?_setReferences_of_ne fun r hr heq => ?_
      have := hpart r hr
      unfold outside at hi
      omega
  exact (hb.agrees.trans hset).mono fun i => elsewhere_of_within hroom

theorem lt_size_of_slice (h : b.slice offset size = .ok part) :
    ∀ r ∈ part.references, r.1 < part.size := by
  intro r hr
  rw [(size_slice h).2]
  exact (mem_slice h hr).2

theorem read_paste_slice (hs : b.slice offset size = .ok part)
    (hp : b'.paste offset' part = (b'', none)) (hk : k + n ≤ size) :
    b''.read (offset' + k) n = b.read (offset + k) n := by
  obtain ⟨b₁, -, hb, rfl⟩ := pasted hp
  have hlen : part.octets.length = size := (size_slice hs).2
  have hread : b.read offset size = .ok part.octets := by
    obtain ⟨octets, hread, rfl⟩ := map_eq_ok.mp hs
    exact hread
  have hread' : (b₁.setReferences offset' part.references).read offset' size = .ok part.octets := by
    unfold read Block.size
    rw [octets_setReferences]
    exact hlen ▸ hb.read
  rw [read_part hread hk, read_part hread' hk]

theorem reference?_paste_slice (hd : (b.references.map (·.1)).Nodup)
    (hs : b.slice offset size = .ok part) (hp : b'.paste offset' part = (b'', none))
    (hk : k < size) : b''.reference? (offset' + k) = b.reference? (offset + k) := by
  obtain ⟨b₁, -, hb, rfl⟩ := pasted hp
  have hlen : part.octets.length = size := (size_slice hs).2
  have hforgot : b₁.reference? (offset' + k) = none := hb.forgets ⟨by omega, by omega⟩
  rw [reference?_setReferences (distinct_slice hs hd), hforgot, Option.or_none]
  exact reference?_slice hs hk

/-- What is read in a part that was cut out and put in somewhere is what was read there before. -/
theorem paste_slice_alike {d : Nat} (hd : (b.references.map (·.1)).Nodup) (hb : b.size ≤ lastOffset)
    (hb' : b'.size ≤ lastOffset) (hs : b.slice offset size = .ok part)
    (hp : b'.paste offset' part = (b'', none)) (hn : d + n ≤ size) :
    b.Alike (offset + d) b'' (offset' + d) n := by
  obtain ⟨hroom, hsize⟩ := size_slice hs
  have hroom' : offset' + size ≤ b'.size := by
    obtain ⟨_, hroom', -, -⟩ := pasted hp
    omega
  have hsize' : b''.size = b'.size := (paste_agrees hp (lt_size_of_slice hs)).size
  refine ⟨fun k j hk => ?_, fun k hk hlt => ?_⟩
  · rw [Nat.add_assoc, Nat.add_assoc]
    by_cases hin : d + k + j ≤ size
    · exact read_paste_slice hs hp hin
    · -- A part without an end is both blocks as a whole.
      rw [read_beyond (by omega), read_beyond (by omega)]
      have hoffset : offset' + (d + k) = offset + (d + k) := by omega
      rw [hoffset, hsize', show b'.size = b.size by omega]
  · rw [Nat.add_assoc] at hlt
    rw [Nat.add_assoc, Nat.add_assoc]
    exact reference?_paste_slice hd hs hp (by omega)

end Block

/-! ## Stores and copies in memory -/

namespace Memory

variable {records : List Record} {m m' : Memory} {r q : Region} {b : Block} {offset : Nat}
  {t : Ty} {v : Value}

theorem block_setBlock_of_ne (h : q ≠ r) (b : Block) : (m.setBlock r b).block q = m.block q := by
  cases r with
  | static i =>
    cases q with
    | static j =>
      have hij : i ≠ j := fun hij => h (by rw [hij])
      simp only [setBlock, block, getElem?_set_ne hij]
    | heap j => rfl
  | heap i =>
    cases q with
    | static j => rfl
    | heap j =>
      have hij : i ≠ j := fun hij => h (by rw [hij])
      simp only [setBlock, block, getElem?_set_ne hij]

theorem load_eq (h : m.block r = .ok b) : m.load records r offset t = b.load records t offset := by
  rw [load, h]
  rfl

theorem load_setBlock_of_ne (h : q ≠ r) (b : Block) :
    (m.setBlock r b).load records q offset t = m.load records q offset t := by
  rw [load, load, block_setBlock_of_ne h]

theorem store_eq_none (h : m.store records r offset t v = (m', none)) :
    ∃ b b', m.block r = .ok b ∧ b.store records t offset v = (b', none) ∧ m' = m.setBlock r b' := by
  unfold store at h
  cases hb : m.block r with
  | error f =>
    rw [hb] at h
    cases h
  | ok b =>
    rw [hb] at h
    obtain ⟨hm, hf⟩ := Prod.mk.inj h
    exact ⟨b, (b.store records t offset v).1, rfl, Prod.ext rfl hf, hm.symm⟩

/-- Sizes are words of 64 bits. -/
def Sized (m : Memory) : Prop := m.Each fun b => b.size < Number.pow2 64

theorem Sized.size_le (h : m.Sized) (hb : m.block r = .ok b) : b.size ≤ lastOffset :=
  Nat.le_sub_one_of_lt (h r b hb)

/-- A change of a range of a block is seen in no load of a range apart from it. -/
theorem load_of_agrees {b' : Block} {start stop : Nat} (hm : m.Sized) (ht : t.Grounded records)
    (hb : m.block r = .ok b) (h : b.Agrees b' (b.elsewhere start stop))
    (hapart : ∀ i, inside offset (offset + t.sizeIn records) i → outside start stop i) :
    (m.setBlock r b').load records r offset t = m.load records r offset t := by
  rw [load_eq (block_setBlock hb b'), load_eq hb]
  exact load_alike ht (h.alike (.inr (hm.size_le hb)) fun i hi => .inl (hapart i hi))

/-- What was stored is loaded again, and nothing else has changed. Here no record holds itself, and
a value fits its type if its numbers are within the range and the precision of theirs. -/
theorem load_after_store (hrecords : ∀ id, ¬ Relation.TransGen (Holds records) id id) (hm : m.Sized)
    (hv : v.Fits records Value.Kept t) (hstore : m.store records r offset t v = (m', none)) :
    m'.load records r offset t = .ok v ∧
      (∀ offset' t', (∀ i, inside offset' (offset' + t'.sizeIn records) i →
          outside offset (offset + t.sizeIn records) i) →
        m'.load records r offset' t' = m.load records r offset' t') ∧
      ∀ q, q ≠ r → ∀ offset' t', m'.load records q offset' t' = m.load records q offset' t' := by
  have hgrounded (t : Ty) : t.Grounded records :=
    Ty.Nonrecursive.grounded fun _ id _ _ => hrecords id
  obtain ⟨b, b', hb, hs, rfl⟩ := store_eq_none hstore
  have hstores := (storable (hgrounded t) hv).stores (.inr (hm.size_le hb)) hs
  refine ⟨?_, ?_, ?_⟩
  · rw [load_eq (block_setBlock hb b')]
    exact hstores.load
  · intro offset' t' hapart
    exact load_of_agrees hm (hgrounded t') hb hstores.agrees hapart
  · intro q hq offset' t'
    exact load_setBlock_of_ne hq b'

/-- A pointer with a flag behind it, which is padded to 16 octets. -/
def flagged : Record := ⟨"flagged", "flagged", [⟨"next", .pointer .void⟩, ⟨"flag", .bool⟩], false⟩

/-- A memory of one block. -/
def ofBlock (b : Block) : Memory := { heap := [some b] }

theorem each_ofBlock {P : Block → Prop} (h : P b) : (ofBlock b).Each P := by
  intro q b' hq
  cases q with
  | static i => cases block_static.mp hq
  | heap i =>
    cases mem_singleton.mp (mem_of_getElem? (block_heap.mp hq))
    exact h

theorem flagged_irreflexive (id : RecordId) : ¬ Relation.TransGen (Holds [flagged]) id id :=
  Code.irreflexive_of_earlier (by decide) id

/-- Stored at the end of a block, where there is no room for the padding. -/
theorem flagged_load_after_store :
    ∃ m', (ofBlock (.zeroed 13)).store [flagged] (.heap 0) 4 (.record 0)
      (.record [.method 3, .bool true]) = (m', none) ∧ m'.load [flagged] (.heap 0) 4
      (.record 0) = .ok (.record [.method 3, .bool true]) ∧ m'.load [flagged]
      (.heap 0) 3 .bool = .ok (.bool false) := by
  have hv : (Value.record [.method 3, .bool true]).Fits [flagged] Value.Kept (.record 0) := by
    refine .record rfl rfl fun i f v hf hv => ?_
    rcases i with _ | _ | i
    · cases hf
      cases hv
      exact .scalar rfl rfl
    · cases hf
      cases hv
      exact .scalar rfl trivial
    · cases hf
  have hstore : (ofBlock (.zeroed 13)).store [flagged] (.heap 0) 4 (.record 0)
      (.record [.method 3, .bool true]) = (_, none) := rfl
  have hsized : (ofBlock (.zeroed 13)).Sized := each_ofBlock (by decide)
  obtain ⟨hload, hapart, -⟩ := load_after_store flagged_irreflexive hsized hv hstore
  refine ⟨_, hstore, hload, ?_⟩
  rw [hapart 3 .bool fun i hi => .inl hi.2]
  rfl

/-- A copy moves what can be loaded. In a range of the target there is afterwards what was in the
same range of the source before, faults included; what lies apart from the target stays, and a copy
that fails changes nothing. Here an offset has at most one reference, and the loaded types do not
hold themselves. -/
theorem load_after_copy (records : List Record) (hm : m.Sized)
    (hdistinct : m.Each fun b => (b.references.map (·.1)).Nodup) (target : Region) (i : Nat)
    (source : Region) (j size : Nat) :
    (∀ m', m.copy target i source j size = (m', none) → ∀ t, t.Nonrecursive records →
      (∀ d, d + t.sizeIn records ≤ size →
        m'.load records target (i + d) t = m.load records source (j + d) t) ∧
      ∀ r offset, (r = target → ∀ k, inside offset (offset + t.sizeIn records) k →
        outside i (i + size) k) → m'.load records r offset t = m.load records r offset t) ∧
    ∀ f, (m.copy target i source j size).2 = some f → (m.copy target i source j size).1 = m := by
  obtain ⟨f, hf⟩ | ⟨b, part, b', b'', hb, hslice, hb', hpaste, heq⟩ :=
    m.copy_cases target source i j size
  · rw [hf]
    exact ⟨fun m' hcopy => (by cases hcopy), fun _ _ => rfl⟩
  rw [heq]
  refine ⟨?_, nofun⟩
  rintro m' ⟨⟩ t ht
  have hagrees := Block.paste_agrees hpaste (Block.lt_size_of_slice hslice)
  rw [(Block.size_slice hslice).2] at hagrees
  refine ⟨?_, ?_⟩
  · intro d hd
    rw [load_eq (block_setBlock hb' b''), load_eq hb]
    exact load_alike ht.grounded
      (Block.paste_slice_alike (hdistinct _ b hb) (hm.size_le hb) (hm.size_le hb') hslice hpaste hd)
  · intro r offset hapart
    by_cases hr : r = target
    · subst hr
      exact load_of_agrees hm ht.grounded hb' hagrees (hapart rfl)
    · exact load_setBlock_of_ne hr b''

/-- Moved by half its size, so that the pointer is copied over and to the place of the flag. -/
theorem flagged_load_after_copy :
    ∃ m m', (ofBlock (.zeroed 24)).store [flagged] (.heap 0) 0 (.record 0)
      (.record [.method 3, .bool true]) = (m, none) ∧ m.copy (.heap 0) 8
      (.heap 0) 0 16 = (m', none) ∧ m'.load [flagged] (.heap 0) 8
      (.record 0) = .ok (.record [.method 3, .bool true]) ∧ m'.load [flagged] (.heap 0) 0
      (.pointer .void) = .ok (.method 3) := by
  let b : Block := { octets := (replicate 24 0).set 8 1, references := [(0, .method 3)] }
  have hcopy : (ofBlock b).copy (.heap 0) 8 (.heap 0) 0 16 = (_, none) := rfl
  have hnonrecursive (t : Ty) : t.Nonrecursive [flagged] := fun _ id _ _ => flagged_irreflexive id
  have hsized : (ofBlock b).Sized := each_ofBlock (by decide)
  have hdistinct : (ofBlock b).Each fun b => (b.references.map (·.1)).Nodup :=
    each_ofBlock (by decide)
  have h := (load_after_copy [flagged] hsized hdistinct (.heap 0) 8 (.heap 0) 0 16).1 _ hcopy
  refine ⟨ofBlock b, _, rfl, hcopy, ?_, ?_⟩
  · exact (h (.record 0) (hnonrecursive _)).1 0 (by decide)
  · rw [(h (.pointer .void) (hnonrecursive _)).2 (.heap 0) 0 fun _ i hi => .inl hi.2]
    rfl

end Memory

end Stackify.Machine
