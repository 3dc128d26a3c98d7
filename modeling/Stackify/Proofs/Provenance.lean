import Stackify.Proofs.Flattening
import Stackify.Proofs.LastIndex

/-!
Where nodes come from. Every node is made from an instruction or a constant expression of the
function, and is known by a key that no other node has (`DraftedBlocks.origin`,
`DraftedBlocks.keys_nodup`); every node stands in one place (`DraftedBlocks.placed_once`).
-/

namespace Stackify.Ssa

namespace Function

/-- The constant expressions of a function. -/
def expressions (f : Function) : List Operation := f.instructions.flatMap fun i =>
    Operand.allExpressions i.operands

/-- The instructions and constant expressions of a function. -/
def operations (f : Function) : List Operation := f.instructions.map (·.operation) ++ f.expressions

end Function

end Stackify.Ssa

namespace Stackify.Flow

open Ssa (Opcode BlockId Info Operand Operation Instruction)
open Resolve (Resolver)
open List

/-! ## Nodes and operations -/

/-- The reference that an operand becomes; expressions are known by a count. -/
def RefersTo (o : Operand) (r : Ref) : Prop :=
  match leaf? o with
  | some r' => r = r'
  | none => ∃ k, r = .key (.synthesized k)

theorem RefersTo.leaf {o : Operand} {r : Ref} (h : RefersTo o r) (hr : ∀ k, r ≠ .key k) :
    leaf? o = some r := by
  unfold RefersTo at h
  split at h
  · next r' hr' => rw [hr', h]
  · obtain ⟨k, hk⟩ := h
    exact absurd hk (hr _)

/-- The kind as it was when the node was made, before data flow was recorded in it. -/
def Kind.erased : Kind → Kind
  | .load ty _ => .load ty none
  | .store _ => .store none
  | .phi sources _ => .phi sources []
  | kind => kind

/-- A node computes an operation. -/
structure Node.Computes (r : Resolver) (n : Node) (x : Operation) : Prop where
  opcode : n.opcode = x.opcode
  operands : Forall₂ RefersTo x.operands n.operands
  resultType : n.resultType = resultType? x.ty
  kind : Kind.make r x.opcode x.ty n.operands x.info = .ok n.kind.erased

variable {r : Resolver} {n : Node} {x : Operation} {info : Info} {ty : Ssa.Ty} {operands : List Ref}
  {kind : Kind}

theorem Node.Computes.leaf_mem (h : n.Computes r x) {ref : Ref} (href : ref ∈ n.operands)
    (hkey : ∀ k, ref ≠ .key k) : ∃ o ∈ x.operands, leaf? o = some ref := by
  obtain ⟨i, hi⟩ := getElem?_of_mem href
  obtain ⟨o, ho, hrefers⟩ := forall₂_some_right h.operands hi
  exact ⟨o, mem_of_getElem? ho, hrefers.leaf hkey⟩

/-- The opcode that a kind stands for; casts that keep the representation have two. -/
def Kind.opcode? : Kind → Option Opcode
  | .alloca _ => some .alloca
  | .load _ _ => some .load
  | .store _ => some .store
  | .call _ => some .call
  | .invoke _ _ _ => some .invoke
  | .intCompare _ => some .icmp
  | .floatCompare _ => some .fcmp
  | .convert opcode | .unary opcode | .binary opcode | .generic opcode => some opcode
  | .bitCast => none
  | .branch _ | .condBranch _ _ => some .br
  | .switch _ _ => some .switch
  | .ret => some .ret
  | .phi _ _ => some .phi
  | .getElementPtr _ _ => some .getElementPtr
  | .select => some .select
  | .vaArg _ => some .vaArg
  | .catchSwitch _ => some .catchSwitch
  | .catchPad => some .catchPad
  | .catchRet _ => some .catchRet
  | .cleanupPad => some .cleanupPad
  | .cleanupRet _ => some .cleanupRet
  | .landingPad => some .landingPad
  | .resume => some .resume
  | .freeze => some .freeze
  | .unreachable => some .unreachable

theorem Kind.opcode?_erased (k : Kind) : k.erased.opcode? = k.opcode? := by
  cases k <;> rfl

/-- The kinds of nodes that take control elsewhere. -/
def Kind.isTransfer : Kind → Bool
  | .branch _ | .condBranch _ _ | .switch _ _ | .ret | .invoke _ _ _ | .catchSwitch _ | .catchRet _
  | .cleanupRet _ | .resume
  | .unreachable => true
  | _ => false

/-- What a kind and the operation that it was made for say about each other. -/
structure Kind.Fits (r : Resolver) (opcode : Opcode) (ty : Ssa.Ty) (operands : List Ref)
    (info : Info) (kind : Kind) : Prop where
  of_erased : kind.erased = kind := by rfl
  of_opcode : ∀ o, kind.opcode? = some o → opcode = o := by simp [opcode?]
  of_call : ∀ type, kind = .call type ∨ (∃ normal unwind, kind = .invoke type normal unwind) →
    info = .call type := by simp
  of_rethrow : kind = .cleanupRet none → operands.length = 1 := by nofun
  of_type : (∀ t, kind = .alloca t → info = .alloca t) ∧ ∀ t, kind = .load t none ∨
    kind = .vaArg t → t = ty := by simp
  of_address : ∀ path target, kind = .getElementPtr path target →
    ∃ source inbounds, info = .gep source inbounds ∧
      addressPath r source operands.tail = .ok (path, target) := by nofun
  load : opcode = .load → operands.length = 1 ∧ kind = .load ty none := by nofun
  store : opcode = .store → operands.length = 2 ∧ kind = .store none := by nofun
  phi : opcode = .phi → ∃ sources, info = .phi sources ∧ sources.length = operands.length ∧
    kind = .phi sources [] := by nofun
  address : opcode = .getElementPtr → ∃ path target, kind = .getElementPtr path target := by nofun
  /-- A terminator is a transfer unless the machine has none for it. -/
  transfer : opcode.isTerminator = true → opcode ≠ .indirectBr → opcode ≠ .callBr →
    kind.isTransfer = true := by
    simp [Opcode.isTerminator, isTransfer]

theorem callType_eq_ok {type : Ssa.FunctionType} (h : callType info = .ok type) :
    info = .call type := by
  unfold callType at h
  split at h
  · cases h; rfl
  · cases h

theorem exactly_eq_ok {k : Nat} : exactly k operands = .ok () ↔ operands.length = k := by
  unfold exactly
  split <;> simp_all

theorem Kind.make_fits {opcode : Opcode} (h : Kind.make r opcode ty operands info = .ok kind) :
    kind.Fits r opcode ty operands info := by
  unfold Kind.make at h
  extract_lets block count at h
  have hcount : count = operands.length := rfl
  clear_value count
  split at h
  case h_1 =>
    split at h
    · cases h
    · split at h
      · cases h
        exact {}
      · cases h
  -- For most operations the number of operands is all there is to check.
  all_goals try obtain ⟨_, hlen, h⟩ := bind_eq_ok.mp h
  case h_2 | h_3 =>
    cases h
    exact { load := by simp [exactly_eq_ok.mp hlen], store := by simp [exactly_eq_ok.mp hlen] }
  case h_56 =>
    cases h
    cases opcode <;> first | contradiction | exact {}
  all_goals try
    cases h
    exact {}
  case h_23 | h_24 =>
    obtain ⟨_, _, h⟩ := bind_eq_ok.mp h
    split at h
    · cases h
      exact {}
    · cases h
  case h_38 =>
    split at h
    · obtain ⟨_, _, h⟩ := bind_eq_ok.mp h
      cases h
      exact {}
    · obtain ⟨_, _, h⟩ := bind_eq_ok.mp h
      obtain ⟨_, _, h⟩ := bind_eq_ok.mp h
      cases h
      exact {}
    · cases h
  case h_39 =>
    split at h
    · cases h
    · obtain ⟨_, _, h⟩ := bind_eq_ok.mp h
      obtain ⟨_, _, h⟩ := bind_eq_ok.mp h
      cases h
      exact {}
  case h_40 =>
    split at h
    · cases h
    · cases h
      exact {}
  case h_41 =>
    split at h
    · next sources =>
      split at h
      · cases h
      · next hlen =>
        cases h
        exact { phi := fun _ => ⟨sources, rfl, by simpa [hcount] using (not_or.mp hlen).2, rfl⟩ }
    · cases h
  case h_42 =>
    split at h
    · obtain ⟨_, hpath, h⟩ := bind_eq_ok.mp h
      cases h
      exact { of_address := by rintro _ _ ⟨⟩; exact ⟨_, _, rfl, hpath⟩, address := fun _ =>
                ⟨_, _, rfl⟩ }
    · cases h
  case h_45 =>
    obtain ⟨type, ht, h⟩ := bind_eq_ok.mp h
    cases h
    exact { of_call := by simpa using callType_eq_ok ht }
  case h_46 =>
    obtain ⟨type, ht, h⟩ := bind_eq_ok.mp h
    obtain ⟨_, _, h⟩ := bind_eq_ok.mp h
    obtain ⟨_, _, h⟩ := bind_eq_ok.mp h
    cases h
    exact { of_call := by simpa using callType_eq_ok ht }
  case h_47 | h_51 =>
    obtain ⟨_, _, h⟩ := bind_eq_ok.mp h
    cases h
    exact {}
  case h_52 =>
    split at h
    · cases h
      exact { of_rethrow := fun _ => hcount.symm }
    · obtain ⟨_, _, h⟩ := bind_eq_ok.mp h
      cases h
      exact {}
    · cases h

section
variable (hc : n.Computes r x)
include hc

theorem Node.Computes.fits : n.kind.erased.Fits r x.opcode x.ty n.operands x.info :=
  Kind.make_fits hc.kind

theorem Node.Computes.opcode_of_kind {o : Opcode} (hk : n.kind = kind)
    (ho : kind.opcode? = some o) : x.opcode = o :=
  hc.fits.of_opcode o (by rw [Kind.opcode?_erased, hk, ho])

/-- The node of a phi with the blocks that its operands come from. -/
theorem Node.Computes.kind_phi (hop : x.opcode = .phi) :
    ∃ sources incoming, x.info = .phi sources ∧ sources.length = n.operands.length ∧
      n.kind = .phi sources incoming := by
  obtain ⟨sources, hinfo, hlen, hk⟩ := hc.fits.phi hop
  cases hkind : n.kind with
  | phi sources' incoming =>
    rw [hkind] at hk
    cases hk
    exact ⟨sources, incoming, hinfo, hlen, rfl⟩
  | _ =>
    rw [hkind] at hk
    cases hk

/-- A load has one operand, its address. -/
theorem Node.Computes.kind_load (hop : x.opcode = .load) :
    ∃ address source, n.operands = [address] ∧ n.kind = .load x.ty source := by
  obtain ⟨hlen, hk⟩ := hc.fits.load hop
  obtain ⟨address, ho⟩ := length_eq_one_iff.mp hlen
  cases hkind : n.kind with
  | load ty source =>
    rw [hkind] at hk
    cases hk
    exact ⟨address, source, ho, rfl⟩
  | _ =>
    rw [hkind] at hk
    cases hk

/-- A store has two operands, a value and an address. -/
theorem Node.Computes.kind_store (hop : x.opcode = .store) :
    ∃ value address destination, n.operands = [value, address] ∧ n.kind = .store destination := by
  obtain ⟨hlen, hk⟩ := hc.fits.store hop
  obtain ⟨value, address, ho⟩ := length_eq_two.mp hlen
  cases hkind : n.kind with
  | store destination => exact ⟨value, address, destination, ho, rfl⟩
  | _ =>
    rw [hkind] at hk
    cases hk

end

section
variable {s : Setting} {block k k' first : Nat} {os : List Operand} {rs : List Ref}
  {new nodes : List Node} {function : Location} {key : Key} {opcode : Opcode}
  {l : List (Operand × Option BlockId)} {moved : List (BlockId × NodeId)}

section
variable (h : Node.make r function block key opcode ty rs info = .ok n)
include h

theorem Node.make_eq_ok :
    ∃ kind, Kind.make r opcode ty rs info = .ok kind ∧
      n = { key, block, opcode, kind, operands := rs, resultType := resultType? ty } := by
  unfold Node.make at h
  split at h
  · next kind hk =>
    cases h
    exact ⟨kind, hk, rfl⟩
  · cases h

theorem Node.computes_of_make (hrs : Forall₂ RefersTo os rs) :
    n.Computes r ⟨opcode, ty, os, info⟩ := by
  obtain ⟨kind, hk, rfl⟩ := Node.make_eq_ok h
  exact ⟨rfl, hrs, rfl, by rw [(Kind.make_fits hk).of_erased]; exact hk⟩

end

section
variable (h : Built s block k os rs new)
include h

theorem Built.refersTo : Forall₂ RefersTo os rs := by
  induction h with
  | nil => exact .nil
  | leaf ho _ ih => exact .cons (by simp [RefersTo, ho]) ih
  | expr _ _ _ _ ih => exact .cons ⟨_, rfl⟩ ih

theorem Built.keys : new.map (·.key) = (range' k new.length).map .synthesized := by
  induction h with
  | nil => rfl
  | leaf _ _ ih => exact ih
  | @expr k _ _ _ _ _ _ _ inner new n _ hn _ ih ih' =>
    obtain ⟨_, _, rfl⟩ := Node.make_eq_ok hn
    rw [map_append, map_cons, ih, ih', length_append, length_cons, ← range'_append_1,
      range'_succ]
    simp

theorem Built.origin :
    ∀ n ∈ new, n.block = block ∧ ∃ x ∈ Operand.allExpressions os, n.Computes s.resolver x := by
  induction h with
  | nil => simp
  | leaf _ _ ih =>
    intro n hn
    obtain ⟨hb, x, hx, hc⟩ := ih n hn
    exact ⟨hb, x, by simp [Operand.allExpressions, hx], hc⟩
  | expr hb hn _ ih ih' =>
    intro n' hn'
    rcases mem_append.mp hn' with h | h
    · obtain ⟨hb', x, hx, hc⟩ := ih n' h
      exact ⟨hb', x, by simp [Operand.allExpressions, Operand.expressions, hx], hc⟩
    · rcases mem_cons.mp h with rfl | h
      · refine ⟨?_, _, ?_, Node.computes_of_make hn hb.refersTo⟩
        · obtain ⟨_, _, rfl⟩ := Node.make_eq_ok hn
          rfl
        · simp [Operand.allExpressions, Operand.expressions]
      · obtain ⟨hb', x, hx, hc⟩ := ih' n' h
        exact ⟨hb', x, by simp [Operand.allExpressions, hx], hc⟩

end

theorem Operands.built {ids : List NodeId} (h : Operands s block k first l rs new ids moved) :
    Built s block k (l.map Prod.fst) rs new := by
  induction h with
  | nil => exact .nil
  | stay hb _ ih => exact hb.append ih
  | move hb _ ih => exact hb.append ih

theorem Operands.placed {ids : List NodeId} (h : Operands s block k first l rs new ids moved) :
    (ids ++ moved.map Prod.snd).Perm (range' first new.length) := by
  induction h with
  | nil => simp
  | stay _ _ ih =>
    rw [length_append, ← range'_append_1, append_assoc]
    exact ih.append_left _
  | @move k first o source r rest rs new more ids moved _ _ ih =>
    rw [length_append, ← range'_append_1, map_append, List.map_map]
    have hid : (range' first new.length).map (Prod.snd ∘ (source, ·)) = range' first
        new.length := by
      simp [Function.comp_def]
    rw [hid, ← append_assoc]
    exact (perm_append_comm.append_right _).trans (by rw [append_assoc]; exact ih.append_left _)

theorem map_fst_operandSources (i : Instruction) :
    (i.operands.zip (operandSources i)).map Prod.fst = i.operands := by
  rw [map_fst_zip]
  simp [operandSources]

/-- The count of a key that stands for an expression. -/
def Key.synthesized? : Key → Option Nat
  | value _ => none
  | synthesized n => some n

theorem Key.nodup {ks : List Key} (hv : (ks.filterMap Key.value?).Nodup)
    (hs : (ks.filterMap Key.synthesized?).Nodup) : ks.Nodup := by
  induction ks with
  | nil => exact .nil
  | cons k ks ih =>
    cases k with
    | value id =>
      rw [filterMap_cons] at hv hs
      have hv := nodup_cons.mp hv
      exact nodup_cons.mpr ⟨fun h => hv.1 (mem_filterMap.mpr ⟨_, h, rfl⟩), ih hv.2 hs⟩
    | synthesized n =>
      rw [filterMap_cons] at hv hs
      have hs := nodup_cons.mp hs
      exact nodup_cons.mpr ⟨fun h => hs.1 (mem_filterMap.mpr ⟨_, h, rfl⟩), ih hv hs.2⟩

/-- A node comes from an instruction, which it is known by, or from an expression. -/
def Node.ComesFrom (r : Resolver) (is : List Instruction) (n : Node) : Prop :=
  (∃ i ∈ is, n.key = .value i.id ∧ n.Computes r i.operation) ∨
    ∃ i ∈ is, ∃ x ∈ Operand.allExpressions i.operands, ∃ j, n.key = .synthesized j ∧ n.Computes r x

theorem Node.ComesFrom.mono {is is' : List Instruction} (h : n.ComesFrom r is) (hs : is ⊆ is') :
    n.ComesFrom r is' := by
  rcases h with ⟨i, hi, h⟩ | ⟨i, hi, h⟩
  · exact .inl ⟨i, hs hi, h⟩
  · exact .inr ⟨i, hs hi, h⟩

section
variable {is : List Instruction} {ids : List NodeId} {moved : List (BlockId × NodeId)}

section
variable (h : Drafted s block k first is k' nodes ids moved)
include h

theorem Drafted.origin : ∀ n ∈ nodes, n.block = block ∧ n.ComesFrom s.resolver is := by
  induction h with
  | nil => simp
  | @cons _ _ _ i rest refs new _ n _ _ _ _ ho hn _ ih =>
    have hb : Built s block _ i.operands refs new := map_fst_operandSources i ▸ ho.built
    intro n' hn'
    rcases mem_append.mp hn' with h | h
    · obtain ⟨hblock, x, hx, hc⟩ := hb.origin n' h
      have hk : n'.key ∈ new.map (·.key) := List.mem_map_of_mem h
      rw [hb.keys, List.mem_map] at hk
      obtain ⟨j, _, hj⟩ := hk
      exact ⟨hblock, .inr ⟨i, by simp, x, hx, j, hj.symm, hc⟩⟩
    · rcases mem_cons.mp h with rfl | h
      · have hc := Node.computes_of_make hn hb.refersTo
        obtain ⟨_, _, rfl⟩ := Node.make_eq_ok hn
        exact ⟨rfl, .inl ⟨i, by simp, rfl, hc⟩⟩
      · obtain ⟨hblock, hc⟩ := ih n' h
        exact ⟨hblock, hc.mono (by simp)⟩

theorem Drafted.values : nodes.filterMap (·.key.value?) = is.map (·.id) := by
  induction h with
  | nil => rfl
  | @cons _ _ _ i rest refs new _ n _ _ _ _ ho hn _ ih =>
    have hkeys := ho.built.keys
    obtain ⟨_, _, rfl⟩ := Node.make_eq_ok hn
    have hnew : new.filterMap (·.key.value?) = [] := by
      have : new.filterMap (·.key.value?) = (new.map (·.key)).filterMap Key.value? := by
        rw [filterMap_map]; rfl
      rw [this, hkeys]
      simp [filterMap_map, Key.value?]
    rw [filterMap_append, hnew, filterMap_cons, ih]
    rfl

theorem Drafted.synthesized :
    k ≤ k' ∧ nodes.filterMap (·.key.synthesized?) = range' k (k' - k) := by
  induction h with
  | nil => simp
  | @cons k k' _ i rest refs new _ n _ _ _ _ ho hn _ ih =>
    have hkeys := ho.built.keys
    obtain ⟨_, _, rfl⟩ := Node.make_eq_ok hn
    have hnew : new.filterMap (·.key.synthesized?) = range' k new.length := by
      have : new.filterMap (·.key.synthesized?) = (new.map (·.key)).filterMap Key.synthesized? := by
        rw [filterMap_map]; rfl
      rw [this, hkeys, filterMap_map]
      exact filterMap_some
    refine ⟨by omega, ?_⟩
    rw [filterMap_append, hnew, filterMap_cons_none (by rfl), ih.2, range'_append_1]
    congr 1
    omega

theorem Drafted.placed : (ids ++ moved.map Prod.snd).Perm (range' first nodes.length) := by
  induction h with
  | nil => simp
  | @cons _ _ first i rest refs new nodes n ids more moved moved' ho _ _ ih =>
    have hl : (new ++ n :: nodes).length = new.length + (nodes.length + 1) := by simp
    rw [hl, ← range'_append_1, range'_succ, map_append]
    have h₁ : (ids ++ (first + new.length) :: more ++
        (moved.map Prod.snd ++ moved'.map Prod.snd)).Perm ((ids ++ moved.map Prod.snd) ++
          ((first + new.length) :: (more ++ moved'.map Prod.snd))) := by
      grind
    exact h₁.trans (ho.placed.append (ih.cons _))

end

end

variable {position : Nat} {bs : List Ssa.Block} {blocks : List Block}

section
variable (h : DraftedBlocks s position k first bs blocks nodes moved)
include h

theorem DraftedBlocks.origin :
    ∀ n ∈ nodes, n.ComesFrom s.resolver (bs.flatMap (·.instructions)) := by
  induction h with
  | nil => simp
  | cons hd _ ih =>
    intro n hn
    rcases mem_append.mp hn with h | h
    · exact (hd.origin n h).2.mono (by simp)
    · exact (ih n h).mono (by simp)

theorem DraftedBlocks.ids : blocks.map (·.id) = bs.map (·.id) := by
  induction h with
  | nil => rfl
  | cons _ _ ih => rw [map_cons, map_cons, ih]

theorem DraftedBlocks.values :
    nodes.filterMap (·.key.value?) = (bs.flatMap (·.instructions)).map (·.id) := by
  induction h with
  | nil => rfl
  | cons hd _ ih => rw [filterMap_append, hd.values, ih, flatMap_cons, map_append]

theorem DraftedBlocks.synthesized :
    ∃ k', k ≤ k' ∧ nodes.filterMap (·.key.synthesized?) = range' k (k' - k) := by
  induction h with
  | nil => exact ⟨_, Nat.le_refl _, by simp⟩
  | @cons _ k k₁ _ _ _ _ _ _ _ _ _ hd _ ih =>
    obtain ⟨hle, hk⟩ := hd.synthesized
    obtain ⟨k', hle', hk'⟩ := ih
    refine ⟨k', by omega, ?_⟩
    obtain ⟨a, rfl⟩ := Nat.exists_eq_add_of_le hle
    obtain ⟨b, rfl⟩ := Nat.exists_eq_add_of_le hle'
    rw [filterMap_append, hk, hk', Nat.add_sub_cancel_left, Nat.add_sub_cancel_left, Nat.add_assoc,
      Nat.add_sub_cancel_left, range'_append_1]

/-- Every node stands in one block or belongs to one. -/
theorem DraftedBlocks.placed_once :
    (blocks.flatMap (·.instructions) ++ moved.map Prod.snd).Perm
    (range' first nodes.length) := by
  induction h with
  | nil => simp
  | @cons _ _ _ first _ _ blocks nodes more ids moved moved' hd _ ih =>
    rw [length_append, ← range'_append_1, map_append, flatMap_cons]
    have h₁ : (ids ++ blocks.flatMap (·.instructions) ++
        (moved.map Prod.snd ++ moved'.map Prod.snd)).Perm ((ids ++ moved.map Prod.snd) ++
          (blocks.flatMap (·.instructions) ++ moved'.map Prod.snd)) := by
      grind
    exact h₁.trans (hd.placed.append ih)

/-- Where no two instructions have the same number, no two nodes have the same key. -/
theorem DraftedBlocks.keys_nodup (hids : ((bs.flatMap (·.instructions)).map (·.id)).Nodup) :
    (nodes.map (·.key)).Nodup := by
  have hv : ((nodes.map (·.key)).filterMap Key.value?).Nodup := by
    rw [filterMap_map]
    exact h.values ▸ hids
  have hs : ((nodes.map (·.key)).filterMap Key.synthesized?).Nodup := by
    obtain ⟨k', -, hk⟩ := h.synthesized
    rw [filterMap_map]
    exact hk ▸ nodup_range'
  exact Key.nodup hv hs

end

end

end Stackify.Flow
