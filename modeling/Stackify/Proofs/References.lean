import Stackify.Proofs.Faults
import Stackify.Proofs.Storage

/-!
References beside the octets of a block.

`Block.Tidy` holds of every block that memory can come to by its operations
(`Memory.Reachable.tidy`): references lie at distinct offsets of the block, the first octet under
each is zero, and none is null. A write over the first octet of a reference therefore forgets it
(`references_of_reachable`). The other seven octets give no such warrant: they can be overwritten,
shared with a second reference or cut off, and the reference stays (`references_survive`).
-/

namespace Stackify.Machine

open Code (Ty Static RecordId Record Field)
open List

/-! ## What stores are made of -/

/-- A relation of values to types that passes on to the parts of arrays and records. -/
structure Hereditary (records : List Record) (R : Ty → Value → Prop) : Prop where
  array : ∀ {e : Ty} {n : Nat} {vs : List Value}, R (.array e n) (.array vs) → ∀ v ∈ vs, R e v
  record : ∀ {id : RecordId} {r : Record} {vs : List Value}, records[id]? = some r →
    R (.record id) (.record vs) → ∀ (i : Nat) f v, r.fields[i]? = some f →
      vs[i]? = some v → R f.ty v

/-- What writes of octets and of references keep. -/
structure KeptByWrites (R : Ty → Value → Prop) (P : Block → Prop) : Prop where
  write : ∀ {b b' : Block} {offset : Nat} {data : List UInt8}, b.write offset data = .ok b' → P b →
    P b'
  pointer : ∀ {b b' : Block} {offset : Nat} {t : Ty} {v : Value}, b.writeReference offset v =
    .ok b' → R (.pointer t) v → P b → P b'
  varArgs : ∀ {b b' : Block} {offset : Nat} {v : Value}, b.writeReference offset v = .ok b' →
    R .varArgs v → P b → P b'

variable {records : List Record} {R : Ty → Value → Prop} {P : Block → Prop} {b : Block}
  {offset : Nat} {t : Ty} {v : Value}

/-- What a store leaves behind has a property, and only an ordinary fault ends it. -/
def Stored.Keeps (P : Block → Prop) (x : Stored) : Prop :=
  P x.1 ∧ ∀ f, x.2 = some f → f.isOrdinary = true

theorem Stored.Keeps.fault {f : Fault} (h : P b) (hf : f.isOrdinary = true) :
    Stored.Keeps P (b, some f) :=
  ⟨h, by simpa using hf⟩

theorem ofWrite_keeps {x : Except Fault Block} (h : P b) (hf : Ordinary x)
    (hx : ∀ b', x = .ok b' → P b') : (Stored.ofWrite b x).Keeps P := by
  cases x with
  | ok b' => exact ⟨hx b' rfl, by simp [Stored.ofWrite]⟩
  | error f => exact .fault h (hf f rfl)

theorem storeFields_keeps {store : Ty → Block → Nat → Value → Stored} {l : List (Ty × Nat × Value)}
    (hstore : ∀ a ∈ l, ∀ b offset, P b → (store a.1 b offset a.2.2).Keeps P) (h : P b) :
    (storeFields store offset b l).Keeps P := by
  induction l generalizing b with
  | nil => exact ⟨h, by simp [storeFields]⟩
  | cons a l ih =>
    obtain ⟨ty, start, v⟩ := a
    have hv : (store ty b (offset + start) v).Keeps P := hstore _ mem_cons_self b (offset + start) h
    rw [storeFields]
    generalize store ty b (offset + start) v = x at hv
    obtain ⟨b', _ | f⟩ := x
    · exact ih (fun a ha => hstore a (mem_cons_of_mem _ ha)) hv.1
    · exact hv

theorem storeWith_keeps (hR : Hereditary records R) (hP : KeptByWrites R P)
    {storeRecord : RecordId → Block → Nat → List Value → Stored}
    (hrecord : ∀ id b offset vs, R (.record id) (.record vs) → P b →
      (storeRecord id b offset vs).Keeps P)
    (hv : R t v) (h : P b) : (storeWith records storeRecord t b offset v).Keeps P := by
  induction t generalizing b offset v with
  | void => exact .fault h rfl
  | bool => exact ofWrite_keeps h Block.write_ordinary fun b' hb => hP.write hb h
  | int w =>
    rw [storeWith]
    cases v.toInt? with
    | none => exact .fault h rfl
    | some n => exact ofWrite_keeps h Block.write_ordinary fun b' hb => hP.write hb h
  | float kind =>
    cases v with
    | float _ x =>
      cases kind with
      | half => exact .fault h rfl
      | single | double => exact ofWrite_keeps h Block.write_ordinary fun b' hb => hP.write hb h
    | _ => cases kind <;> exact .fault h rfl
  | pointer => exact ofWrite_keeps h Block.writeReference_ordinary fun b' hb => hP.pointer hb hv h
  | varArgs => exact ofWrite_keeps h Block.writeReference_ordinary fun b' hb => hP.varArgs hb hv h
  | array e n ih =>
    cases v with
    | array vs =>
      have hitems :=
        storeItems_eq_storeFields (storeWith records storeRecord) e (e.sizeIn records) 0 offset b vs
      rw [Nat.zero_mul, Nat.add_zero] at hitems
      rw [storeWith, hitems]
      refine storeFields_keeps (fun a ha b o hb => ?_) h
      obtain ⟨hty, hmem⟩ := mem_items ha
      exact hty ▸ ih (hR.array hv _ hmem) hb
    | _ => exact .fault h rfl
  | record id =>
    cases v with
    | record vs => exact hrecord id b offset vs hv h
    | _ => exact .fault h rfl

theorem storeRecord_keeps (hR : Hereditary records R) (hP : KeptByWrites R P) {depth : Nat}
    {id : RecordId} {vs : List Value} (hv : R (.record id) (.record vs)) (h : P b) :
    (storeRecord records depth id b offset vs).Keeps P := by
  induction depth generalizing b offset id vs with
  | zero => exact .fault h rfl
  | succ depth ih =>
    rw [storeRecord]
    cases hr : records[id]? with
    | none => exact .fault h rfl
    | some r =>
      refine storeFields_keeps (fun a ha b o hb => ?_) h
      obtain ⟨i, hi⟩ := mem_iff_getElem?.mp ha
      obtain ⟨hfield, hrest⟩ := getElem?_zip_eq_some.mp hi
      rw [getElem?_map] at hfield
      obtain ⟨f, hf, hty⟩ := Option.map_eq_some_iff.mp hfield
      refine storeWith_keeps hR hP (fun id b o vs hv hb => ih hv hb) ?_ hb
      exact hty ▸ hR.record hr hv i f _ hf (getElem?_zip_eq_some.mp hrest).2

/-- What single writes keep is kept by every store, one that fails halfway included. -/
theorem store_keeps (hR : Hereditary records R) (hP : KeptByWrites R P) (hv : R t v) (h : P b) :
    (b.store records t offset v).Keeps P :=
  storeWith_keeps hR hP (fun _ _ _ _ hv hb => storeRecord_keeps hR hP hv hb) hv h

/-! ## References -/

theorem writeReference_eq_ok {b' : Block} (h : b.writeReference offset v = .ok b') :
    ∃ b₁, b.write offset (replicate 8 0) = .ok b₁ ∧
      (v = .null ∧ b' = b₁ ∨ v ≠ .null ∧ b' = b₁.setReference offset v) := by
  unfold Block.writeReference at h
  cases hb : b.write offset (replicate 8 0) with
  | error f =>
    rw [hb] at h
    cases v <;> cases h
  | ok b₁ =>
    rw [hb] at h
    refine ⟨b₁, rfl, ?_⟩
    cases v with
    | null =>
      cases h
      exact .inl ⟨rfl, rfl⟩
    | _ =>
      cases h
      exact .inr ⟨by simp, rfl⟩

/-- The references of a part that was cut out are those that start in its range. -/
theorem Block.mem_slice {part : Block} {size : Nat} {r : Nat × Value}
    (hs : b.slice offset size = .ok part) (hr : r ∈ part.references) :
    (r.1 + offset, r.2) ∈ b.references ∧ r.1 < size := by
  obtain ⟨octets, -, rfl⟩ := map_eq_ok.mp hs
  obtain ⟨q, hq, rfl⟩ := List.mem_map.mp hr
  obtain ⟨hq, hin⟩ := mem_filter.mp hq
  have hbounds : offset ≤ q.1 ∧ q.1 < offset + size := by simpa using hin
  exact ⟨by rw [Nat.sub_add_cancel hbounds.1]; exact hq, by omega⟩

/-- The block with references set one after the other. -/
def Block.setReferences (b : Block) (offset : Nat) (rs : List (Nat × Value)) : Block :=
  rs.foldl (fun b r => b.setReference (offset + r.1) r.2) b

/-- A part is put in as a whole, or nothing is written. -/
theorem Block.paste_cases (b part : Block) (offset : Nat) :
    (∃ f, b.write offset part.octets = .error f ∧ b.paste offset part = (b, some f)) ∨
      ∃ b₁, b.write offset part.octets = .ok b₁ ∧
        b.paste offset part = (b₁.setReferences offset part.references, none) := by
  unfold paste
  cases b.write offset part.octets with
  | error f => exact .inl ⟨f, rfl, rfl⟩
  | ok b₁ => exact .inr ⟨b₁, rfl, rfl⟩

theorem Block.paste_eq_none {part : Block} (h : b.paste offset part = (b', none)) :
    ∃ b₁, b.write offset part.octets = .ok b₁ ∧ b' = b₁.setReferences offset part.references := by
  obtain ⟨f, -, hf⟩ | ⟨b₁, hw, hb⟩ := b.paste_cases part offset
  · cases hf.symm.trans h
  · cases hb.symm.trans h
    exact ⟨b₁, hw, rfl⟩

/-- What all operations on blocks keep. -/
structure KeptByAll (R : Ty → Value → Prop) (P : Block → Prop) : Prop extends KeptByWrites R P where
  fresh : ∀ octets, P { octets }
  slice : ∀ {b part : Block} {offset size : Nat}, b.slice offset size = .ok part → P b → P part
  paste : ∀ {b b' part : Block} {offset : Nat}, b.paste offset part = (b', none) →
    P part → P b → P b'
  resize : ∀ {b : Block} (size : Nat), P b → P (b.resize size)

/-- All references of a block have a property. -/
def Block.All (Q : Value → Prop) (b : Block) : Prop := ∀ r ∈ b.references, Q r.2

namespace Block.All

variable {Q : Value → Prop} {b b' : Block} {offset : Nat} {v : Value}

theorem reference (h : b.All Q) (hnull : Q .null) (offset : Nat) :
    Q ((b.reference? offset).getD .null) := by
  unfold Block.reference?
  cases hl : b.references.lookup offset with
  | none => exact hnull
  | some v =>
    obtain ⟨l₁, l₂, hsplit, -⟩ := lookup_eq_some_iff.mp hl
    exact h (offset, v) (by simp [hsplit])

theorem setReference (h : b.All Q) (offset : Nat) (hv : Q v) : (b.setReference offset v).All Q := by
  intro r hr
  rcases mem_cons.mp hr with rfl | hr
  · exact hv
  · exact h r (mem_filter.mp hr).1

theorem setReferences {rs : List (Nat × Value)} (h : b.All Q) (hrs : ∀ r ∈ rs, Q r.2) :
    (b.setReferences offset rs).All Q := by
  induction rs generalizing b with
  | nil => exact h
  | cons r rs ih =>
    exact ih (h.setReference _ (hrs r mem_cons_self)) fun q hq => hrs q (mem_cons_of_mem _ hq)

theorem write {data : List UInt8} (hw : b.write offset data = .ok b') (h : b.All Q) : b'.All Q := by
  intro r hr
  rw [(Block.wrote_of_write hw).2.references] at hr
  exact h r (mem_filter.mp hr).1

theorem writeReference (hw : b.writeReference offset v = .ok b') (hv : Q v) (h : b.All Q) :
    b'.All Q := by
  obtain ⟨b₁, hb, ⟨-, rfl⟩ | ⟨-, rfl⟩⟩ := writeReference_eq_ok hw
  · exact h.write hb
  · exact (h.write hb).setReference offset hv

/-- A property of all values that are stored as references holds of all references. -/
theorem kept (hpointer : ∀ t v, R (.pointer t) v → Q v) (hlist : ∀ v, R .varArgs v → Q v) :
    KeptByAll R (Block.All Q) where
  write hw h := h.write hw
  pointer hw hv h := h.writeReference hw (hpointer _ _ hv)
  varArgs hw hv h := h.writeReference hw (hlist _ hv)
  fresh octets := by
    rintro r ⟨⟩
  slice hs h := fun r hr => h (r.1 + _, r.2) (Block.mem_slice hs hr).1
  paste hp hpart h := by
    obtain ⟨b₁, hw, rfl⟩ := Block.paste_eq_none hp
    exact (h.write hw).setReferences hpart
  resize size h := fun r hr => h r (mem_filter.mp hr).1

end Block.All

/-! ## Tidy blocks -/

theorem Block.distinct_slice {part : Block} {size : Nat} (hs : b.slice offset size = .ok part)
    (h : (b.references.map (·.1)).Nodup) : (part.references.map (·.1)).Nodup := by
  obtain ⟨octets, -, rfl⟩ := map_eq_ok.mp hs
  have hkeys : ((b.references.filter fun r => offset ≤ r.1 && r.1 < offset + size).map
      (·.1)).Nodup :=
    h.sublist (filter_sublist.map _)
  have hshift : ((b.references.filter fun r => offset ≤ r.1 && r.1 < offset + size).map
      fun r => (r.1 - offset, r.2)).map (·.1) =
        ((b.references.filter fun r => offset ≤ r.1 && r.1 < offset + size).map (·.1)).map
          (· - offset) := by
    simp only [List.map_map, Function.comp_def]
  rw [hshift]
  refine hkeys.map_on fun k hk j hj hkj => ?_
  have hle {i : Nat} (hi : i ∈ (b.references.filter fun r =>
      offset ≤ r.1 && r.1 < offset + size).map (·.1)) : offset ≤ i := by
    obtain ⟨q, hq, rfl⟩ := List.mem_map.mp hi
    have hbounds : offset ≤ q.1 ∧ q.1 < offset + size := by simpa using (mem_filter.mp hq).2
    exact hbounds.1
  have := hle hk
  have := hle hj
  omega

/-- References lie at distinct offsets, each over a zero octet, and none is null. -/
structure Block.Tidy (b : Block) : Prop where
  distinct : (b.references.map (·.1)).Nodup
  zero : ∀ r ∈ b.references, b.octets[r.1]? = some 0
  proper : b.All (· ≠ .null)

namespace Block.Tidy

variable {b b' part : Block} {offset size : Nat} {data : List UInt8} {v : Value}

theorem keeps_proper : KeptByAll (fun _ v => v ≠ .null) (Block.All (· ≠ .null)) :=
  Block.All.kept (fun _ _ h => h) fun _ h => h

theorem of_octets (octets : List UInt8) : Tidy { octets } :=
  ⟨nodup_nil, by simp, keeps_proper.fresh octets⟩

theorem write (hw : b.write offset data = .ok b') (h : b.Tidy) : b'.Tidy := by
  obtain ⟨-, hb⟩ := Block.wrote_of_write hw
  refine ⟨?_, ?_, h.proper.write hw⟩
  · rw [hb.references]
    exact h.distinct.sublist (filter_sublist.map _)
  · intro r hr
    rw [hb.references, mem_filter] at hr
    have hout : outside offset (offset + data.length) r.1 := by simpa [outside] using hr.2
    rw [hb.agrees.octets r.1 hout]
    exact h.zero r hr.1

theorem setReference (hzero : b.octets[offset]? = some 0) (hv : v ≠ .null) (h : b.Tidy) :
    (b.setReference offset v).Tidy := by
  refine ⟨?_, ?_, h.proper.setReference offset hv⟩
  · refine nodup_cons.mpr ⟨?_, h.distinct.sublist (filter_sublist.map _)⟩
    simp
  · intro r hr
    rcases mem_cons.mp hr with rfl | hr
    · exact hzero
    · exact h.zero r (mem_filter.mp hr).1

theorem writeReference (hw : b.writeReference offset v = .ok b') (h : b.Tidy) : b'.Tidy := by
  obtain ⟨b₁, hb, hcases⟩ := writeReference_eq_ok hw
  have h₁ := h.write hb
  rcases hcases with ⟨-, rfl⟩ | ⟨hv, rfl⟩
  · exact h₁
  · have hread := (Block.wrote_of_write hb).2.read
    exact h₁.setReference (Block.octet_of_read hread (by decide : 0 < 8)) hv

theorem slice (hs : b.slice offset size = .ok part) (h : b.Tidy) : part.Tidy := by
  refine ⟨distinct_slice hs h.distinct, fun r hr => ?_, keeps_proper.slice hs h.proper⟩
  obtain ⟨hq, hlt⟩ := Block.mem_slice hs hr
  obtain ⟨octets, hread, rfl⟩ := map_eq_ok.mp hs
  rw [← Block.octet_of_read hread hlt, Nat.add_comm]
  exact h.zero _ hq

theorem setReferences {rs : List (Nat × Value)} (hzero : ∀ r ∈ rs, b.octets[offset + r.1]? = some 0)
    (hproper : ∀ r ∈ rs, r.2 ≠ .null) (h : b.Tidy) : (b.setReferences offset rs).Tidy := by
  induction rs generalizing b with
  | nil => exact h
  | cons r rs ih =>
    refine ih ?_ (fun q hq => hproper q (mem_cons_of_mem _ hq)) ?_
    · exact fun q hq => hzero q (mem_cons_of_mem _ hq)
    · exact h.setReference (hzero r mem_cons_self) (hproper r mem_cons_self)

theorem paste (hp : b.paste offset part = (b', none)) (hpart : part.Tidy) (h : b.Tidy) :
    b'.Tidy := by
  obtain ⟨b₁, hw, rfl⟩ := Block.paste_eq_none hp
  refine (h.write hw).setReferences (fun r hr => ?_) hpart.proper
  have hz := hpart.zero r hr
  have hlt : r.1 < part.octets.length := lt_of_getElem? hz
  rw [Block.octet_of_read (Block.wrote_of_write hw).2.read hlt, hz]

theorem resize (size : Nat) (h : b.Tidy) : (b.resize size).Tidy := by
  refine ⟨h.distinct.sublist (filter_sublist.map _), fun r hr => ?_,
    keeps_proper.resize size h.proper⟩
  obtain ⟨hr, hlt⟩ := mem_filter.mp hr
  have hlt : r.1 < size := by simpa using hlt
  have hz := h.zero r hr
  have hin : r.1 < b.octets.length := lt_of_getElem? hz
  show (b.octets.take size ++ _)[r.1]? = _
  rw [getElem?_append_left (by rw [length_take]; omega), getElem?_take_of_lt hlt, hz]

end Block.Tidy

/-! ## Blocks of a memory -/

theorem Block.Tidy.kept : KeptByAll (fun _ _ => True) Block.Tidy where
  write hw h := h.write hw
  pointer hw _ h := h.writeReference hw
  varArgs hw _ h := h.writeReference hw
  fresh := .of_octets
  slice hs h := h.slice hs
  paste hp hpart h := .paste hp hpart h
  resize size h := h.resize size

namespace Memory

/-- All blocks have a property. -/
def Each (P : Block → Prop) (m : Memory) : Prop := ∀ r b, m.block r = .ok b → P b

variable {m m' : Memory} {r : Region} {size : Nat}

theorem block_of_setBlock {q : Region} {b' : Block} (h : (m.setBlock r b).block q = .ok b') :
    b' = b ∨ m.block q = .ok b' := by
  cases r with
  | static i =>
    cases q with
    | static j =>
      rw [block_static] at h ⊢
      simp only [setBlock, getElem?_set] at h
      grind
    | heap j => exact .inr h
  | heap i =>
    cases q with
    | static j => exact .inr h
    | heap j =>
      rw [block_heap] at h ⊢
      simp only [setBlock, getElem?_set] at h
      grind

theorem setBlock_self (h : m.block r = .ok b) : m.setBlock r b = m := by
  cases r with
  | static i =>
    obtain ⟨hi, hb⟩ := List.getElem?_eq_some_iff.mp (block_static.mp h)
    rw [setBlock, ← hb, set_getElem_self]
  | heap i =>
    obtain ⟨hi, hb⟩ := List.getElem?_eq_some_iff.mp (block_heap.mp h)
    rw [setBlock, ← hb, set_getElem_self]

/-- A copy moves the whole part, or nothing is written: a part that is cut out is not written back
before the target is known to have room for it. -/
theorem copy_cases (m : Memory) (r q : Region) (i j size : Nat) :
    (∃ f, m.copy r i q j size = (m, some f)) ∨ ∃ b part b' b'', m.block q = .ok b ∧
      b.slice j size = .ok part ∧ m.block r = .ok b' ∧ b'.paste i part = (b'', none) ∧
        m.copy r i q j size = (m.setBlock r b'', none) := by
  unfold copy
  split
  · next part b' hpart hb' =>
    obtain ⟨b, hb, hpart⟩ := bind_eq_ok.mp hpart
    obtain ⟨f, -, hf⟩ | ⟨b₁, -, hpaste⟩ := b'.paste_cases part i
    · rw [hf]
      exact .inl ⟨f, congrArg (·, some f) (setBlock_self hb')⟩
    · exact .inr ⟨b, part, b', _, hb, hpart, hb', hpaste, by rw [hpaste]⟩
  · exact .inl ⟨_, rfl⟩
  · exact .inl ⟨_, rfl⟩

namespace Each

theorem ofStatics (hP : KeptByAll R P) (statics : List Static) :
    (Memory.ofStatics records statics).Each P := by
  intro q b hq
  cases q with
  | static i =>
    rw [block_static, Memory.ofStatics, getElem?_map] at hq
    obtain ⟨s, -, rfl⟩ := Option.map_eq_some_iff.mp hq
    exact hP.fresh _
  | heap i =>
    rw [block_heap] at hq
    cases hq

theorem setBlock (h : m.Each P) (hb : P b) : (m.setBlock r b).Each P := by
  intro q b' hq
  rcases block_of_setBlock hq with rfl | hq
  · exact hb
  · exact h q b' hq

theorem allocate (hP : KeptByAll R P) (h : m.Each P) (size : Nat) : (m.allocate size).2.Each P := by
  intro q b hq
  cases q with
  | static i => exact h (.static i) b hq
  | heap i =>
    rw [block_heap] at hq
    rcases mem_append.mp (mem_of_getElem? hq) with hmem | hmem
    · obtain ⟨j, hj⟩ := mem_iff_getElem?.mp hmem
      exact h (.heap j) b (block_heap.mpr hj)
    · cases mem_singleton.mp hmem
      exact hP.fresh _

theorem free (h : m.Each P) (hm : m.free r = .ok m') : m'.Each P := by
  intro q b hq
  unfold Memory.free at hm
  cases r with
  | static i => cases hm
  | heap i =>
    dsimp only at hm
    split at hm
    · cases hm
      cases q with
      | static j => exact h (.static j) b hq
      | heap j =>
        rw [block_heap, getElem?_set] at hq
        refine h (.heap j) b (block_heap.mpr ?_)
        split at hq
        · split at hq <;> cases hq
        · exact hq
    · cases hm

theorem resize (hP : KeptByAll R P) (h : m.Each P) (hm : m.resize r size = .ok m') : m'.Each P := by
  obtain ⟨b, hb, rfl⟩ := map_eq_ok.mp hm
  exact h.setBlock (hP.resize size (h r b hb))

theorem store (hR : Hereditary records R) (hP : KeptByAll R P) (h : m.Each P) (hv : R t v) :
    (m.store records r offset t v).1.Each P := by
  unfold Memory.store
  cases hb : m.block r with
  | error f => exact h
  | ok b => exact h.setBlock (store_keeps hR hP.toKeptByWrites hv (h r b hb)).1

theorem copy (hP : KeptByAll R P) (h : m.Each P) (r : Region) (i : Nat) (q : Region)
    (j size : Nat) : (m.copy r i q j size).1.Each P := by
  obtain ⟨f, hf⟩ | ⟨b, part, b', b'', hb, hpart, hb', hpaste, heq⟩ := m.copy_cases r q i j size
  · rw [hf]
    exact h
  · rw [heq]
    exact h.setBlock (hP.paste hpaste (hP.slice hpart (h q b hb)) (h r b' hb'))

theorem write (hP : KeptByAll R P) (h : m.Each P) {data : List UInt8}
    (hm : (do return m.setBlock r (← (← m.block r).write offset data)) = Except.ok m') :
    m'.Each P := by
  obtain ⟨b, hb, hm⟩ := bind_eq_ok.mp hm
  obtain ⟨b', hb', hm⟩ := bind_eq_ok.mp hm
  cases hm
  exact h.setBlock (hP.write hb' (h r b hb))

theorem fill (hP : KeptByAll R P) (h : m.Each P) {octet : UInt8}
    (hm : m.fill r offset octet size = .ok m') : m'.Each P := by
  obtain ⟨b, hb, hm⟩ := bind_eq_ok.mp hm
  obtain ⟨b', hb', hm⟩ := bind_eq_ok.mp hm
  cases hm
  unfold Block.fill at hb'
  split at hb'
  · exact h.setBlock (hP.write hb' (h r b hb))
  · cases hb'

end Each

/-! ## Reachable memories -/

/-- An operation on memory. -/
inductive Change where
  | allocate (size : Nat)
  | free (r : Region)
  | store (r : Region) (offset : Nat) (ty : Ty) (v : Value)
  | copy (target : Region) (targetOffset : Nat) (source : Region) (sourceOffset size : Nat)
  | fill (r : Region) (offset : Nat) (octet : UInt8) (size : Nat)
  | write (r : Region) (offset : Nat) (data : List UInt8)
  | resize (r : Region) (size : Nat)

/-- The memory after an operation. Only a store that fails may have changed something. -/
def change (records : List Record) (m : Memory) : Change → Memory
  | .allocate size => (m.allocate size).2
  | .free r => (m.free r).toOption.getD m
  | .store r offset ty v => (m.store records r offset ty v).1
  | .copy target i source j size => (m.copy target i source j size).1
  | .fill r offset octet size => (m.fill r offset octet size).toOption.getD m
  | .write r offset data =>
    (do return m.setBlock r (← (← m.block r).write offset data)).toOption.getD m
  | .resize r size => (m.resize r size).toOption.getD m

/-- Memories that operations lead to from the initial one of a program. -/
inductive Reachable (records : List Record) (statics : List Static) : Memory → Prop
  | start : Reachable records statics (.ofStatics records statics)
  | step {m : Memory} (c : Change) :
      Reachable records statics m → Reachable records statics (m.change records c)

variable {records : List Record} {statics : List Static} {m : Memory} {r : Region} {b : Block}

theorem Each.getD {x : Except Fault Memory} (h : m.Each P) (hx : ∀ m', x = .ok m' → m'.Each P) :
    (x.toOption.getD m).Each P := by
  cases x with
  | ok m' => exact hx m' rfl
  | error => exact h

theorem Each.change (c : Change) (h : m.Each Block.Tidy) :
    (m.change records c).Each Block.Tidy := by
  cases c with
  | allocate size => exact h.allocate Block.Tidy.kept size
  | free r => exact h.getD fun m' hm => h.free hm
  | store r offset ty v =>
    exact h.store ⟨fun _ _ _ => trivial, fun _ _ _ _ _ _ _ => trivial⟩ Block.Tidy.kept trivial
  | copy target i source j size => exact h.copy Block.Tidy.kept target i source j size
  | fill r offset octet size => exact h.getD fun m' hm => h.fill Block.Tidy.kept hm
  | write r offset data => exact h.getD fun m' hm => h.write Block.Tidy.kept hm
  | resize r size => exact h.getD fun m' hm => h.resize Block.Tidy.kept hm

theorem Reachable.tidy (h : Reachable records statics m) : m.Each Block.Tidy := by
  induction h with
  | start => exact .ofStatics Block.Tidy.kept statics
  | step c _ ih => exact ih.change c

theorem lookup_of_mem {β : Type} {l : List (Nat × β)} (hl : (l.map (·.1)).Nodup) {k : Nat} {v : β}
    (h : (k, v) ∈ l) : l.lookup k = some v := by
  induction l with
  | nil => cases h
  | cons a l ih =>
    obtain ⟨hnot, hl⟩ := nodup_cons.mp hl
    rcases mem_cons.mp h with rfl | h
    · simp
    · have hne : (k == a.1) = false := by
        refine beq_eq_false_iff_ne.mpr fun he => hnot ?_
        exact List.mem_map.mpr ⟨(k, v), h, he⟩
      rw [lookup_cons, hne]
      exact ih hl h

/-- In every memory that operations can lead to, references lie at distinct offsets of their block,
none is null, and the first octet under each is zero. Where the block has room for it a pointer is
loaded there, and a write over its first octet makes that null. -/
theorem references_of_reachable (h : Reachable records statics m) (hb : m.block r = .ok b) :
    (b.references.map (·.1)).Nodup ∧ ∀ k v, (k, v) ∈ b.references →
      v ≠ .null ∧ b.octets[k]? = some 0 ∧
        (k + 8 ≤ b.size → ∀ t, m.load records r k (.pointer t) = .ok v ∧ ∀ offset data, offset ≤ k →
          k < offset + data.length → offset + data.length ≤ b.size →
            (m.change records (.write r offset data)).load records r k
            (.pointer t) = .ok .null) := by
  have htidy := h.tidy r b hb
  refine ⟨htidy.distinct, fun k v hkv => ⟨htidy.proper _ hkv, htidy.zero _ hkv,
    fun hroom t => ⟨?_, ?_⟩⟩⟩
  · have href : b.reference? k = some v := lookup_of_mem htidy.distinct hkv
    simp only [Memory.load, hb, bind, Except.bind]
    rw [load_pointer hroom, href, Option.getD_some]
  · intro offset data hlow hhigh hfits
    obtain ⟨b', hw, hwrote⟩ := Block.exists_write hfits
    have hchange : m.change records (.write r offset data) = m.setBlock r b' := by
      simp only [change, hb, hw, bind, Except.bind]
      rfl
    have hforgot : b'.reference? k = none := hwrote.forgets ⟨hlow, hhigh⟩
    simp only [Memory.load, hchange, block_setBlock hb, bind, Except.bind]
    rw [load_pointer (hroom.trans_eq hwrote.agrees.size.symm), hforgot, Option.getD_none]

/-- A block of 16 octets with a pointer to a method at some offset. -/
def withPointer (offset : Nat) : Memory :=
  ((ofStatics [] []).change [] (.allocate 16)).change [] (.store (.heap 0) offset (.pointer .void)
    (.method 3))

theorem withPointer_reachable (offset : Nat) : Reachable [] [] (withPointer offset) :=
  .step _ (.step _ .start)

theorem withPointer_references :
    ∃ b, (withPointer 8).block (.heap 0) = .ok b ∧ (8, .method 3) ∈ b.references ∧
      b.octets[8]? = some 0 ∧ (withPointer 8).load [] (.heap 0) 8
        (.pointer .void) = .ok (.method 3) ∧
      ((withPointer 8).change [] (.write (.heap 0) 5 [1, 2, 3, 4])).load [] (.heap 0) 8
      (.pointer .void) = .ok .null := by
  let b : Block := { octets := replicate 16 0, references := [(8, .method 3)] }
  have hb : (withPointer 8).block (.heap 0) = .ok b := rfl
  have hmem : (8, .method 3) ∈ b.references := mem_singleton.mpr rfl
  obtain ⟨-, hzero, hloads⟩ :=
    (references_of_reachable (withPointer_reachable 8) hb).2 8 (.method 3) hmem
  obtain ⟨hload, hwrite⟩ := hloads (by decide) .void
  exact ⟨b, hb, hmem, hzero, hload, hwrite 5 [1, 2, 3, 4] (by decide) (by decide) (by decide)⟩

/-- A reference outlasts a write to its later octets, a second reference over them and the loss of
some of them. -/
theorem references_survive :
    (∃ m b, Reachable [] [] m ∧ m.block (.heap 0) = .ok b ∧ (0, .method 3) ∈ b.references ∧
      b.octets[4]? = some 255 ∧ m.load [] (.heap 0) 0 (.pointer .void) = .ok (.method 3)) ∧
    (∃ m b, Reachable [] [] m ∧ m.block (.heap 0) = .ok b ∧ (0, .method 3) ∈ b.references ∧
      (4, .method 4) ∈ b.references) ∧
    ∃ m b, Reachable [] [] m ∧ m.block (.heap 0) = .ok b ∧ (8, .method 3) ∈ b.references ∧
      b.size = 12 := by
  refine ⟨⟨(withPointer 0).change [] (.write (.heap 0) 4 [255]), _,
    .step _ (withPointer_reachable 0), rfl, ?_, rfl, rfl⟩,
      ⟨(withPointer 0).change [] (.store (.heap 0) 4 (.pointer .void) (.method 4)), _,
        .step _ (withPointer_reachable 0), rfl, ?_, ?_⟩,
    ⟨(withPointer 8).change [] (.resize (.heap 0) 12), _, .step _ (withPointer_reachable 8),
      rfl, ?_, rfl⟩⟩
  · exact mem_cons_self
  · exact mem_cons_of_mem _ mem_cons_self
  · exact mem_cons_self
  · exact mem_cons_self

end Memory

end Stackify.Machine
