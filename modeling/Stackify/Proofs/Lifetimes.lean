import Stackify.Proofs.MemoryContents

/-!
Lifetimes of blocks.

A block is handed out once, is freed at most once and is gone for good afterwards: no sequence of
uses of memory brings it back, and every later use of it fails (`freed_stays_freed`).

What one operation can do to the blocks is said once (`Changes`). From it follow the two facts that
carry over from step to step: places of the heap never go away (`length_heap_after`), and a place
that was freed stays empty (`Gone.after`).
-/

namespace Stackify.Machine.Memory

open Code (Ty Record Static)
open List

/-! ## Uses of memory -/

/-- An operation that may change memory, or one that only looks at it. -/
inductive Use where
  | change (c : Change)
  | block (r : Region)
  | load (r : Region) (offset : Nat) (ty : Ty)

/-- The regions that an operation accesses. -/
def Change.regions : Change → List Region
  | .allocate _ => []
  | .copy target _ source _ _ => [target, source]
  | .free r | .store r _ _ _ | .fill r _ _ _ | .write r _ _ | .resize r _ => [r]

def Use.regions : Use → List Region
  | .change c => c.regions
  | .block r | .load r _ _ => [r]

def Use.Fails (records : List Record) (m : Memory) : Use → Prop
  | .change (.allocate _) => False
  | .change (.free r) => ∃ f, m.free r = .error f
  | .change (.store r offset ty v) => ∃ f, (m.store records r offset ty v).2 = some f
  | .change (.copy target i source j size) => ∃ f, (m.copy target i source j size).2 = some f
  | .change (.fill r offset octet size) => ∃ f, m.fill r offset octet size = .error f
  | .change (.write r offset data) =>
    ∃ f, (do return m.setBlock r (← (← m.block r).write offset data)) = Except.error f
  | .change (.resize r size) => ∃ f, m.resize r size = .error f
  | .block r => ∃ f, m.block r = .error f
  | .load r offset ty => ∃ f, m.load records r offset ty = .error f

/-- The memory after a use. -/
def use (records : List Record) (m : Memory) : Use → Memory
  | .change c => m.change records c
  | .block _ | .load _ _ _ => m

/-- The memory after a sequence of uses. -/
def after (records : List Record) (m : Memory) (uses : List Use) : Memory :=
  uses.foldl (use records) m

/-- The region that a use hands out. -/
def Use.region? (m : Memory) : Use → Option Region
  | .change (.allocate size) => some (m.allocate size).1
  | _ => none

/-- The regions that a sequence of uses hands out. -/
def handedOut (records : List Record) : Memory → List Use → List Region
  | _, [] => []
  | m, u :: uses => (u.region? m).toList ++ handedOut records (m.use records u) uses

variable {records : List Record} {m m' : Memory} {r : Region} {i : Nat}

theorem after_cons (u : Use) (uses : List Use) :
    m.after records (u :: uses) = (m.use records u).after records uses := rfl

/-! ## What an operation does to the blocks -/

/-- One memory comes from another by one operation: nothing changes, a block is added or taken away,
or one that is there is replaced. -/
inductive Changes (m : Memory) : Memory → Prop
  | nothing : Changes m m
  | added (size : Nat) : Changes m { m with heap := m.heap ++ [some (.zeroed size)] }
  | removed {i : Nat} {b : Block} :
      m.block (.heap i) = .ok b → Changes m { m with heap := m.heap.set i none }
  | replaced {r : Region} {b : Block} (b' : Block) : m.block r = .ok b → Changes m (m.setBlock r b')

theorem Changes.of_ok {x : Except Fault Memory} (h : ∀ m', x = .ok m' → m.Changes m') :
    m.Changes (x.toOption.getD m) := by
  cases x with
  | error f => exact .nothing
  | ok m' => exact h m' rfl

theorem changes (records : List Record) (m : Memory) (c : Change) :
    m.Changes (m.change records c) := by
  cases c with
  | allocate size => exact .added size
  | free r =>
    refine .of_ok fun m' hm' => ?_
    cases r with
    | static i => cases hm'
    | heap i =>
      rw [free] at hm'
      split at hm'
      · next b hb =>
        cases hm'
        exact .removed (block_heap.mpr (Option.join_eq_some_iff.mp hb))
      · cases hm'
  | store r offset ty v =>
    rw [change, store]
    cases hb : m.block r with
    | error f => exact .nothing
    | ok b => exact .replaced _ hb
  | copy target i source j size =>
    rw [change]
    obtain ⟨f, hf⟩ | ⟨-, -, b', b'', -, -, hb', -, heq⟩ := m.copy_cases target source i j size
    · rw [hf]
      exact .nothing
    · rw [heq]
      exact .replaced b'' hb'
  | fill r offset octet size =>
    refine .of_ok fun m' hm' => ?_
    obtain ⟨b, hb, hm'⟩ := bind_eq_ok.mp hm'
    obtain ⟨b', -, hm'⟩ := bind_eq_ok.mp hm'
    cases pure_eq_ok.mp hm'
    exact .replaced b' hb
  | write r offset data =>
    refine .of_ok fun m' hm' => ?_
    obtain ⟨b, hb, hm'⟩ := bind_eq_ok.mp hm'
    obtain ⟨b', -, hm'⟩ := bind_eq_ok.mp hm'
    cases pure_eq_ok.mp hm'
    exact .replaced b' hb
  | resize r size =>
    refine .of_ok fun m' hm' => ?_
    obtain ⟨b, hb, rfl⟩ := map_eq_ok.mp hm'
    exact .replaced _ hb

theorem length_heap_setBlock (m : Memory) (r : Region) (b : Block) :
    (m.setBlock r b).heap.length = m.heap.length := by
  cases r with
  | static i => rfl
  | heap i => exact length_set

theorem Changes.length_heap (h : m.Changes m') :
    m.heap.length ≤ m'.heap.length ∧ m'.heap.length ≤ m.heap.length + 1 := by
  cases h with
  | nothing => omega
  | added size =>
    rw [length_append, length_singleton]
    omega
  | removed _ =>
    rw [length_set]
    omega
  | replaced b' _ =>
    rw [length_heap_setBlock]
    omega

theorem changes_use (records : List Record) (m : Memory) (u : Use) :
    m.Changes (m.use records u) := by
  cases u with
  | change c => exact changes records m c
  | block r => exact .nothing
  | load r offset ty => exact .nothing

theorem length_heap_after (records : List Record) (m : Memory) (uses : List Use) :
    m.heap.length ≤ (m.after records uses).heap.length ∧
      (m.after records uses).heap.length ≤ m.heap.length + uses.length := by
  induction uses generalizing m with
  | nil => exact ⟨Nat.le_refl _, Nat.le_refl _⟩
  | cons u uses ih =>
    have hstep := (changes_use records m u).length_heap
    have hrest := ih (m.use records u)
    rw [after_cons, length_cons]
    omega

/-! ## Regions are handed out once -/

theorem region?_eq_some (records : List Record) {u : Use} (h : u.region? m = some r) :
    r = .heap m.heap.length ∧ (m.use records u).heap.length = m.heap.length + 1 := by
  cases u with
  | block _ => cases h
  | load _ _ _ => cases h
  | change c =>
    cases c with
    | allocate size =>
      cases h
      refine ⟨rfl, ?_⟩
      show (m.heap ++ [some (Block.zeroed size)]).length = _
      rw [length_append, length_singleton]
    | _ => cases h

theorem lt_of_handedOut {uses : List Use} (h : r ∈ handedOut records m uses) :
    ∃ i, r = .heap i ∧ i < (m.after records uses).heap.length := by
  induction uses generalizing m with
  | nil => cases h
  | cons u uses ih =>
    rcases mem_append.mp h with h | h
    · obtain ⟨rfl, hnew⟩ := region?_eq_some records (Option.mem_toList.mp h)
      refine ⟨m.heap.length, rfl, ?_⟩
      have hrest := (length_heap_after records (m.use records u) uses).1
      rw [after_cons]
      omega
    · exact ih h

/-- A new block is empty, and the others are as before. -/
theorem allocate_block (m : Memory) (size : Nat) :
    (m.allocate size).2.block (.heap m.heap.length) = .ok (.zeroed size) ∧
      ∀ r, r ≠ .heap m.heap.length → (m.allocate size).2.block r = m.block r := by
  refine ⟨block_heap.mpr ?_, ?_⟩
  · show (m.heap ++ [some (.zeroed size)])[m.heap.length]? = _
    rw [getElem?_append_right (Nat.le_refl _), Nat.sub_self]
    rfl
  · intro r hr
    cases r with
    | static j => rfl
    | heap j =>
      have hj : j ≠ m.heap.length := fun hj => hr (by rw [hj])
      have hget : (m.heap ++ [some (.zeroed size)])[j]? = m.heap[j]? := by
        by_cases hlt : j < m.heap.length
        · exact getElem?_append_left hlt
        · rw [List.getElem?_eq_none_iff.mpr, List.getElem?_eq_none_iff.mpr]
          · omega
          · rw [length_append, length_singleton]
            omega
      show block { m with heap := m.heap ++ [some (.zeroed size)] } _ = _
      simp only [block, hget]

/-! ## Freed blocks -/

/-- A place of the heap whose block was freed. -/
def Gone (m : Memory) (i : Nat) : Prop := m.heap[i]? = some none

theorem free_eq_ok (h : m.free (.heap i) = .ok m') :
    m'.Gone i ∧ ∀ r, r ≠ .heap i → m'.block r = m.block r := by
  rw [free] at h
  split at h
  · next b hb =>
    cases h
    refine ⟨?_, ?_⟩
    · refine getElem?_set_self ?_
      exact lt_of_getElem? (Option.join_eq_some_iff.mp hb)
    · intro r hr
      cases r with
      | static j => rfl
      | heap j =>
        have hij : i ≠ j := fun hij => hr (by rw [hij])
        simp only [block, getElem?_set_ne hij]
  · cases h

namespace Gone

theorem ne_of_block {b : Block} (h : m.Gone i) (hb : m.block r = .ok b) : r ≠ .heap i := by
  rintro rfl
  cases h.symm.trans (block_heap.mp hb)

theorem changes (h : m.Gone i) (hm : m.Changes m') : m'.Gone i := by
  cases hm with
  | nothing => exact h
  | added size =>
    have hlt : i < m.heap.length := lt_of_getElem? h
    exact (getElem?_append_left hlt).trans h
  | @removed j b hb =>
    have hij : j ≠ i := fun hij => h.ne_of_block hb (by rw [hij])
    exact (getElem?_set_ne hij).trans h
  | @replaced r b b' hb =>
    cases r with
    | static j => exact h
    | heap j =>
      have hij : j ≠ i := fun hij => h.ne_of_block hb (by rw [hij])
      exact (getElem?_set_ne hij).trans h

theorem after (h : m.Gone i) (uses : List Use) : (m.after records uses).Gone i := by
  induction uses generalizing m with
  | nil => exact h
  | cons u uses ih => exact ih (h.changes (changes_use records m u))

/-- What cannot succeed without the block fails. -/
theorem error_of {α : Type} {x : Except Fault α} (h : m.Gone i)
    (hx : ∀ a, x = .ok a → ∃ b, m.block (.heap i) = .ok b) : ∃ f, x = .error f := by
  cases x with
  | error f => exact ⟨f, rfl⟩
  | ok a =>
    obtain ⟨b, hb⟩ := hx a rfl
    exact absurd rfl (h.ne_of_block hb)

/-- Every use of the block fails. -/
theorem fails (h : m.Gone i) {u : Use} (hu : .heap i ∈ u.regions) : u.Fails records m := by
  cases u with
  | block r =>
    cases mem_singleton.mp hu
    exact h.error_of fun b hb => ⟨b, hb⟩
  | load r offset ty =>
    cases mem_singleton.mp hu
    refine h.error_of fun v hv => ?_
    obtain ⟨b, hb, -⟩ := bind_eq_ok.mp hv
    exact ⟨b, hb⟩
  | change c =>
    cases c with
    | allocate size => cases hu
    | free r =>
      cases mem_singleton.mp hu
      refine ⟨.doubleFree i, ?_⟩
      rw [free, h]
      rfl
    | store r offset ty v =>
      cases mem_singleton.mp hu
      obtain ⟨f, hf⟩ : ∃ f, m.block (.heap i) = .error f := h.error_of fun b hb => ⟨b, hb⟩
      refine ⟨f, ?_⟩
      rw [store, hf]
    | copy target j source k size =>
      obtain ⟨f, hf⟩ | ⟨b, -, b', -, hb, -, hb', -, -⟩ := m.copy_cases target source j k size
      · exact ⟨f, congrArg Prod.snd hf⟩
      · rcases mem_cons.mp hu with htarget | hsource
        · exact absurd htarget.symm (h.ne_of_block hb')
        · exact absurd (mem_singleton.mp hsource).symm (h.ne_of_block hb)
    | fill r offset octet size =>
      cases mem_singleton.mp hu
      refine h.error_of fun m' hm' => ?_
      obtain ⟨b, hb, -⟩ := bind_eq_ok.mp hm'
      exact ⟨b, hb⟩
    | write r offset data =>
      cases mem_singleton.mp hu
      refine h.error_of fun m' hm' => ?_
      obtain ⟨b, hb, -⟩ := bind_eq_ok.mp hm'
      exact ⟨b, hb⟩
    | resize r size =>
      cases mem_singleton.mp hu
      refine h.error_of fun m' hm' => ?_
      obtain ⟨b, hb, -⟩ := map_eq_ok.mp hm'
      exact ⟨b, hb⟩

end Gone

/-- Freed memory stays freed. After every sequence of fewer than 2³² uses of the initial memory of a
program, a new block is one that was never handed out before, is all zeros without references, and
has a number of 32 bits; statics cannot be freed; and once a block is freed, all uses of it fail,
whatever came in between. Neither touches other blocks. -/
theorem freed_stays_freed (records : List Record) (statics : List Static) {uses : List Use}
    (huses : uses.length < Number.pow2 32)
    (hm : m = (ofStatics records statics).after records uses) :
    (∀ size, ∃ i b, (m.allocate size).1 = .heap i ∧ i < Number.pow2 32 ∧
      .heap i ∉ handedOut records (ofStatics records statics) uses ∧
      (m.allocate size).2.block (.heap i) = .ok b ∧ b.octets = replicate size 0 ∧
        b.references = [] ∧
      ∀ r, r ≠ .heap i → (m.allocate size).2.block r = m.block r) ∧
    (∀ i, ∃ f, m.free (.static i) = .error f) ∧
    ∀ i m', m.free (.heap i) = .ok m' →
      (∀ r, r ≠ .heap i → m'.block r = m.block r) ∧
      ∀ (later : List Use) (u : Use), .heap i ∈ u.regions → u.Fails records
        (m'.after records later) := by
  refine ⟨?_, ?_, ?_⟩
  · intro size
    obtain ⟨hnew, hothers⟩ := allocate_block m size
    have hlength : m.heap.length ≤ uses.length := by
      have := (length_heap_after records (ofStatics records statics) uses).2
      rw [← hm] at this
      exact this.trans_eq (Nat.zero_add _)
    refine ⟨m.heap.length, .zeroed size, rfl, by omega, ?_, hnew, rfl, rfl, hothers⟩
    intro hold
    obtain ⟨i, hi, hlt⟩ := lt_of_handedOut hold
    cases hi
    rw [← hm] at hlt
    omega
  · exact fun i => ⟨.freeOfStatic i, rfl⟩
  · intro i m' hfree
    obtain ⟨hgone, hothers⟩ := free_eq_ok hfree
    exact ⟨hothers, fun later u hu => (hgone.after later).fails hu⟩

/-- A second block does not revive the first. -/
theorem reallocated_stays_freed :
    ∃ m', ((ofStatics [] []).after [] [.change (.allocate 8)]).free (.heap 0) = .ok m' ∧
      Use.Fails [] (m'.after [] [.change (.allocate 8), .change (.fill (.heap 1) 0 255 8)])
        (.change (.copy (.heap 1) 0 (.heap 0) 0 0)) := by
  have huses : [Use.change (.allocate 8)].length < Number.pow2 32 := by decide
  have hfree : ((ofStatics [] []).after [] [.change (.allocate 8)]).free (.heap 0) = .ok _ := rfl
  refine ⟨_, hfree, ?_⟩
  refine ((freed_stays_freed [] [] huses rfl).2.2 0 _ hfree).2 _ _ ?_
  exact mem_cons_of_mem _ mem_cons_self

end Stackify.Machine.Memory
