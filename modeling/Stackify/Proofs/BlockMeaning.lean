import Stackify.Proofs.Valuation

/-!
What the blocks of a graph compute, as far as they compute with words.

- `Drafted.evals`: the nodes of instructions assign what the instructions assign;
- `DraftedBlocks.evals_moved`: the nodes that were moved to the end of a block supply the phis that
  take their values from there;
- `Shape.evals_block`: the nodes of a block do all this, one after the other;
- `exits_of_exit?`: the last node of a block goes where its instruction goes (`Exits`).
-/

namespace Stackify.Flow

open Ssa (Word IntTy Env Opcode BlockId Info Operand Operation Instruction Exit Evaluation Evaluates
  Executes Function evaluate exit? caseTarget?)
open Resolve (Resolver)
open List Option

/-! ## Instructions -/

/-- The operations in an instruction are those that the machine offers on bits. -/
def FitsBits (i : Instruction) : Prop :=
  i.operation.FitsBits ∧ ∀ x ∈ Operand.allExpressions i.operands, x.FitsBits

section
variable {E : Evaluation} {s : Setting} {g : Graph} {block k k' first : Nat}
  {l : List (Operand × Option BlockId)} {refs : List Ref} {new nodes : List Node}
  {ids : List NodeId} {moved : List (BlockId × NodeId)} {is : List Instruction} {ν ν' : Valuation}
  {bound bound' a b : Nat}

theorem Operands.stayed (h : Operands s block k first l refs new ids moved)
    (hl : ∀ e ∈ l, e.2 = none) : ids = range' first new.length ∧ moved = [] := by
  induction h with
  | nil => exact ⟨rfl, rfl⟩
  | stay _ _ ih =>
    rw [forall_mem_cons] at hl
    obtain ⟨rfl, rfl⟩ := ih hl.2
    rw [length_append, ← range'_append_1]
    exact ⟨rfl, rfl⟩
  | move _ _ _ =>
    rw [forall_mem_cons] at hl
    cases hl.1

theorem Operands.all_moved (h : Operands s block k first l refs new ids moved)
    (hl : ∀ e ∈ l, e.2 ≠ none) : ids = [] := by
  induction h with
  | nil => rfl
  | stay _ _ _ =>
    rw [forall_mem_cons] at hl
    exact absurd rfl hl.1
  | move _ _ ih =>
    rw [forall_mem_cons] at hl
    exact ih hl.2

theorem operandSources_of_ne_phi {i : Instruction} (h : i.opcode ≠ .phi) :
    ∀ e ∈ i.operands.zip (operandSources i), e.2 = none := by
  have hsources : operandSources i = replicate i.operands.length none := by
    unfold operandSources incomingBlocks
    split
    · exact absurd ‹_› h
    · rfl
  rintro ⟨o, source⟩ he
  rw [hsources] at he
  exact eq_of_mem_replicate (of_mem_zip he).2

/-- Every operand of a phi comes from a block. -/
theorem operandSources_of_phi {i : Instruction} {sources : List BlockId} (hop : i.opcode = .phi)
    (hinfo : i.info = .phi sources) (hlen : sources.length = i.operands.length) :
    i.operands.zip (operandSources i) = i.operands.zip (sources.map some) := by
  have hsources : operandSources i = sources.map some ++ replicate i.operands.length none := by
    rw [operandSources, incomingBlocks, hop, hinfo]
  have hlen : i.operands.length = (sources.map some).length := by rw [length_map, hlen]
  have happ : (i.operands ++ []).zip (operandSources i) = i.operands.zip (sources.map some) ++
      [] := by
    rw [hsources, zip_append hlen, zip_nil_left]
  simpa using happ

/-- The nodes of instructions assign what the instructions assign. -/
theorem Drafted.evals (hE : Followed E) (h : Drafted s block k first is k' nodes ids moved)
    (hg : g.Has first nodes) {ρ' : Env} (hx : Executes E ν.values is ρ')
    (hbits : ∀ i ∈ is, FitsBits i) : ∃ ν', Evals g ν ids ν' ∧ ν'.values = ρ' := by
  induction h generalizing ν with
  | nil =>
    cases hx
    exact ⟨ν, .nil, rfl⟩
  | @cons k _ first i rest refs new nodes n ids more moved moved' ho hn _ ih =>
    rw [forall_mem_cons] at hbits
    obtain ⟨n', hn', hrefines⟩ := hg.right.head
    have hb : Built s block k i.operands refs new := map_fst_operandSources i ▸ ho.built
    have hc : n'.Computes s.resolver i.operation :=
      hrefines.computes (Node.computes_of_make hn hb.refersTo)
    have hkey : n'.key = .value i.id := by
      obtain ⟨_, _, rfl⟩ := Node.make_eq_ok hn
      exact hrefines.key
    have hops : n'.operands = refs := by
      obtain ⟨_, _, rfl⟩ := Node.make_eq_ok hn
      exact hrefines.operands
    cases hx with
    | phi hop hx =>
      obtain ⟨ν', he, hν'⟩ := ih hg.right.tail hx hbits.2
      obtain ⟨sources, _, hinfo, hlen, -⟩ := hc.kind_phi hop
      have hlen : sources.length = i.operands.length := by rw [hlen, hops, ← hb.refersTo.length_eq]
      have hnone : ids = [] := by
        refine ho.all_moved fun e he => ?_
        rw [operandSources_of_phi hop hinfo hlen] at he
        obtain ⟨b, -, hb⟩ := List.mem_map.mp (of_mem_zip he).2
        simp [← hb]
      refine ⟨ν', ?_, hν'⟩
      rw [hnone]
      exact .phi hn' (hc.opcode.trans hop) he
    | cons hw hx =>
      obtain ⟨ws, hws, -, hgives⟩ := hE.node hbits.1.1 hw
      have hne : i.opcode ≠ .phi := by
        intro hop
        obtain ⟨_, _, -, -, hk⟩ := hc.kind_phi hop
        have hgives := hgives hc
        rw [hk] at hgives
        cases hgives
      have hstay := (ho.stayed (operandSources_of_ne_phi hne)).1
      obtain ⟨ν₁, he₁, hx₁, hr₁⟩ := hb.evals hE hg.left (settled_all hws) hbits.1.2
      have he₂ := Evals.one hE hn' hc (hops ▸ hr₁) (hx₁.values.symm ▸ hw) hbits.1.1
      rw [hkey] at he₂
      rw [← hx₁.values] at hx
      obtain ⟨ν', he', hν'⟩ := ih (ν := ν₁.set _ (.value i.id)) hg.right.tail hx hbits.2
      refine ⟨ν', ?_, hν'⟩
      rw [hstay]
      exact he₁.append (he₂.append he')

/-! ## Moved nodes -/

/-- An operand with the block that it comes from: if that is the block at position `i`, the
reference reads as the operand, and it names no expression from `bound` on. -/
def Supplied (E : Evaluation) (blocks : List BlockId) (i bound : Nat) (ν : Valuation)
    (e : Operand × Option BlockId) (r : Ref) : Prop :=
  (∀ j, r = .key (.synthesized j) → j < bound) ∧
    ∀ source, e.2 = some source → home? blocks source = some i → ν.Reads E e.1 r

variable {blockIds : List BlockId} {i : Nat}

theorem Supplied.mono {e : Operand × Option BlockId} {r : Ref}
    (h : Supplied E blockIds i bound ν e r) (hx : ν.Extends a b ν') (ha : bound ≤ a)
    (hb : bound ≤ bound') : Supplied E blockIds i bound' ν' e r :=
  ⟨fun j hj => Nat.lt_of_lt_of_le (h.1 j hj) hb,
    fun source hs hi =>
      hx.reads (fun j hj => .inl (Nat.lt_of_lt_of_le (h.1 j hj) ha)) (h.2 source hs hi)⟩

theorem movedTo_append (moved moved' : List (BlockId × NodeId)) :
    movedTo blockIds (moved ++ moved') i = movedTo blockIds moved i ++ movedTo blockIds moved' i :=
  filterMap_append

theorem movedTo_map (source : BlockId) (ids : List NodeId) :
    movedTo blockIds (ids.map (source, ·)) i = if home? blockIds source = some i then
      ids else [] := by
  rw [movedTo, filterMap_map]
  split
  · next h => simp [h]
  · next h => simp [h]

theorem Operands.evals_moved (hE : Followed E) (h : Operands s block k first l refs new ids moved)
    (hg : g.Has first new) (hl : ∀ e ∈ l, e.2 ≠ none → Settled E ν.values e.1)
    (hbits : ∀ x ∈ Operand.allExpressions (l.map Prod.fst), x.FitsBits) :
    ∃ ν', Evals g ν (movedTo blockIds moved i) ν' ∧ ν.Extends k (k + new.length) ν' ∧
      Forall₂ (Supplied E blockIds i (k + new.length) ν') l refs := by
  induction h generalizing ν with
  | nil => exact ⟨ν, .nil, .refl _ _ _, .nil⟩
  | @stay k first o r rest rs new more ids moved hb _ ih =>
    rw [forall_mem_cons] at hl
    obtain ⟨ν', he, hx, hs⟩ := ih hg.right hl.2 fun x hx =>
        hbits x (by simp [Operand.allExpressions, hx])
    rw [length_append, ← Nat.add_assoc]
    refine ⟨ν', he, ?_, .cons ⟨fun j hj => ?_, by simp⟩ hs⟩
    · exact (Valuation.Extends.refl ν k k).trans hx (by omega) (by omega)
    · have := (hb.synthesized_mem j (by simp [hj])).2
      omega
  | @move k first o source r rest rs new more ids moved hb _ ih =>
    rw [forall_mem_cons] at hl
    rw [movedTo_append, movedTo_map, length_append, ← Nat.add_assoc]
    have hlt (j : Nat) (hj : r = .key (.synthesized j)) : j < k + new.length :=
      (hb.synthesized_mem j (by simp [hj])).2
    by_cases hi : home? blockIds source = some i
    · rw [if_pos hi]
      obtain ⟨ν₁, he₁, hx₁, hr₁⟩ :=
        hb.evals hE hg.left (by simpa using hl.1) fun x hx => hbits x (by
        simp only [Operand.allExpressions, append_nil] at hx
        simp [Operand.allExpressions, hx])
      obtain ⟨ν', he', hx', hs⟩ := ih (ν := ν₁) hg.right (hx₁.values ▸ hl.2)
        fun x hx => hbits x (by simp [Operand.allExpressions, hx])
      refine ⟨ν', he₁.append he', hx₁.trans hx' (by omega) (by omega),
        .cons ⟨fun j hj => ?_, fun _ _ _ => ?_⟩ hs⟩
      · have := hlt j hj
        omega
      · exact hx'.reads (fun j hj => .inl (hlt j hj)) (forall₂_cons.mp hr₁).1
    · rw [if_neg hi]
      obtain ⟨ν', he', hx', hs⟩ := ih hg.right hl.2 fun x hx =>
          hbits x (by simp [Operand.allExpressions, hx])
      refine ⟨ν', he', ?_, .cons ⟨fun j hj => ?_, fun source' hs' hi' => ?_⟩ hs⟩
      · exact (Valuation.Extends.refl ν k k).trans hx' (by omega) (by omega)
      · have := hlt j hj
        omega
      · cases hs'
        exact absurd hi' hi

/-- A node is that of an expression, or that of an instruction whose operands are supplied. -/
def Node.Supplied (E : Evaluation) (blocks : List BlockId) (i bound : Nat) (ν : Valuation)
    (is : List Instruction) (n : Node) : Prop :=
  n.key.value? = none ∨ ∃ x ∈ is, n.key = .value x.id ∧
    Forall₂ (Flow.Supplied E blocks i bound ν) (x.operands.zip (operandSources x)) n.operands

theorem Node.Supplied.mono {is' : List Instruction} {n : Node}
    (h : n.Supplied E blockIds i bound ν is) (hx : ν.Extends a b ν') (ha : bound ≤ a)
    (hb : bound ≤ bound') (his : is ⊆ is') : n.Supplied E blockIds i bound' ν' is' := by
  rcases h with h | ⟨x, hmem, hk, hs⟩
  · exact .inl h
  · exact .inr ⟨x, his hmem, hk, hs.imp fun _ _ h => h.mono hx ha hb⟩

theorem Drafted.evals_moved (hE : Followed E) (h : Drafted s block k first is k' nodes ids moved)
    (hg : g.Has first nodes) (hl : ∀ x ∈ is, x.opcode = .phi →
      ∀ o ∈ x.operands, Settled E ν.values o) (hbits : ∀ i ∈ is, FitsBits i) :
    ∃ ν', Evals g ν (movedTo blockIds moved i) ν' ∧ ν.Extends k k' ν' ∧
      ∀ n ∈ nodes, n.Supplied E blockIds i k' ν' is := by
  induction h generalizing ν with
  | nil => exact ⟨ν, .nil, .refl _ _ _, by simp⟩
  | @cons k k' first x rest refs new nodes n ids more moved moved' ho hn hd ih =>
    rw [forall_mem_cons] at hbits hl
    have hb : Built s block k x.operands refs new := map_fst_operandSources x ▸ ho.built
    obtain ⟨ν₁, he₁, hx₁, hs₁⟩ := ho.evals_moved hE (ν := ν) hg.left (fun e he hsome => by
        have hphi : x.opcode = .phi := by
          by_contra hne
          exact hsome (operandSources_of_ne_phi hne e he)
        exact hl.1 hphi e.1 (of_mem_zip he).1)
      (by rw [map_fst_operandSources]; exact hbits.1.2)
    have hle := hd.synthesized.1
    obtain ⟨ν', he', hx', hs'⟩ := ih (ν := ν₁) hg.right.tail (hx₁.values ▸ hl.2) hbits.2
    refine ⟨ν', ?_, hx₁.trans hx' (by omega) (by omega), fun n' hn' => ?_⟩
    · rw [movedTo_append]
      exact he₁.append he'
    · rcases mem_append.mp hn' with hnew | hn'
      · refine .inl ?_
        have hk : n'.key ∈ new.map (·.key) := List.mem_map_of_mem hnew
        rw [hb.keys, List.mem_map] at hk
        obtain ⟨j, -, hj⟩ := hk
        rw [← hj]
        rfl
      · rcases mem_cons.mp hn' with rfl | hn'
        · obtain ⟨_, _, rfl⟩ := Node.make_eq_ok hn
          exact .inr ⟨x, by simp, rfl, hs₁.imp fun _ _ h => h.mono hx' (Nat.le_refl _) hle⟩
        · exact (hs' n' hn').mono (Valuation.Extends.refl ν' k' k') (Nat.le_refl _)
            (Nat.le_refl _) (by simp)

variable (blockIds i) in
theorem DraftedBlocks.evals_moved (hE : Followed E) {position : Nat} {bs : List Ssa.Block}
    {blocks : List Block} (h : DraftedBlocks s position k first bs blocks nodes moved)
    (hg : g.Has first nodes) (hl : ∀ x ∈ bs.flatMap (·.instructions), x.opcode = .phi →
      ∀ o ∈ x.operands, Settled E ν.values o)
    (hbits : ∀ x ∈ bs.flatMap (·.instructions), FitsBits x) :
    ∃ k' ν', Evals g ν (movedTo blockIds moved i) ν' ∧ ν.Extends k k' ν' ∧ k ≤ k' ∧
      ∀ n ∈ nodes, n.Supplied E blockIds i k' ν' (bs.flatMap (·.instructions)) := by
  induction h generalizing ν with
  | @nil _ k _ => exact ⟨k, ν, .nil, .refl _ _ _, Nat.le_refl _, by simp⟩
  | @cons _ k k₁ first b rest blocks nodes more ids moved moved' hd _ ih =>
    rw [flatMap_cons, forall_mem_append] at hl hbits
    obtain ⟨ν₁, he₁, hx₁, hs₁⟩ := hd.evals_moved hE (ν := ν) hg.left hl.1 hbits.1
    have hle := hd.synthesized.1
    obtain ⟨k', ν', he', hx', hle', hs'⟩ := ih (ν := ν₁) hg.right (hx₁.values ▸ hl.2) hbits.2
    refine ⟨k', ν', ?_, hx₁.trans hx' hle hle', by omega, ?_⟩
    · rw [movedTo_append]
      exact he₁.append he'
    · refine forall_mem_append.mpr ⟨fun n hn => ?_, fun n hn => ?_⟩
      · exact (hs₁ n hn).mono hx' (Nat.le_refl _) hle' (by simp)
      · exact (hs' n hn).mono (Valuation.Extends.refl ν' k' k') (Nat.le_refl _)
          (Nat.le_refl _) (by simp)

end

/-! ## Ends of blocks -/

/-- The target of the first case that has the word. On bits, cases are zero or one. -/
inductive Chooses (w : Word) (default : BlockId) : List (Int × BlockId) → BlockId → Prop
  | default : Chooses w default [] default
  | found {n : Int} {target : BlockId} {rest : List (Int × BlockId)} :
      (w.ty = .i1 → n = 0 ∨ n = 1) → .ofInt w.ty n = w → Chooses w default
      ((n, target) :: rest) target
  | skip {n : Int} {other target : BlockId} {rest : List (Int × BlockId)} :
      (w.ty = .i1 → n = 0 ∨ n = 1) → .ofInt w.ty n ≠ w → Chooses w default rest target →
        Chooses w default ((n, other) :: rest) target

/-- Where the last node of a block goes. -/
inductive Exits (ν : Valuation) (n : Node) : Exit → Prop
  | branch {target : BlockId} : n.kind = .branch target → Exits ν n (.jump target)
  | condBranch {yes no : BlockId} {r : Ref} {rest : List Ref} {b : BitVec 1} :
      n.kind = .condBranch yes no → n.operands = r :: rest → ν.read r = some ⟨.i1, b⟩ → Exits ν n
        (.jump (if b = 1 then yes else no))
  | switch {default target : BlockId} {cases : List (Int × BlockId)} {r : Ref} {rest : List Ref}
      {w : Word} : n.kind = .switch default cases → n.operands = r :: rest → ν.read r = some w →
        Chooses w default cases target →
      Exits ν n (.jump target)
  | ret {r : Ref} {w : Word} :
      n.kind = .ret → n.operands = [r] → ν.read r = some w → Exits ν n (.ret (some w))
  | retVoid : n.kind = .ret → n.operands = [] → Exits ν n (.ret none)

/-- The kinds of nodes with which a block of integer code ends. -/
def Kind.isExit : Kind → Bool
  | .branch _ | .condBranch _ _ | .switch _ _ | .ret => true
  | _ => false

theorem Exits.isExit {ν : Valuation} {n : Node} {e : Exit} (h : Exits ν n e) :
    n.kind.isExit = true := by
  cases h with
  | branch hk | condBranch hk | switch hk | ret hk | retVoid hk => rw [hk]; rfl

/-- A case of a switch over bits is zero or one. -/
def fitsBit : Operand → Bool
  | .const (.int (.int 1) n) => n = 0 || n = 1
  | _ => true

variable {r : Resolver} {n : Node} {ν : Valuation} {target : BlockId}
  {operands refs : List Ref} {j : Nat} {cases : List (Int × BlockId)} {w : Word} {E : Evaluation}
  {ρ : Env} {o : Operand} {i : Instruction} {e : Exit}

theorem switchCases_cons {ty : Ssa.Ty} {m : Int}
    (hdrop : operands.drop j = .const (.int ty m) :: .block target :: refs)
    (h : switchCases .switch operands j (.const (.int ty m) :: .block target :: refs) = .ok cases) :
    ∃ rest, cases = (m, target) :: rest ∧ switchCases .switch operands (j + 2) refs = .ok rest ∧
      operands.drop (j + 2) = refs := by
  have hblock : operands[j + 1]? = some (.block target) := by rw [← getElem?_drop, hdrop]; rfl
  have htail : operands.drop (j + 2) = refs := by rw [← drop_drop, hdrop]; rfl
  have h : (do
      let target ← blockOperand .switch operands (j + 1)
      return (m, target) :: (← switchCases .switch operands (j + 2) refs)) = Except.ok cases := h
  obtain ⟨target', ht, h⟩ := bind_eq_ok.mp h
  obtain ⟨rest, hrest, h⟩ := bind_eq_ok.mp h
  have heq : target' = target := by
    rw [blockOperand, hblock] at ht
    cases ht
    rfl
  cases h
  exact ⟨rest, by rw [heq], hrest, htail⟩

theorem chooses_of_caseTarget? {default : BlockId} {os : List Operand}
    (h : caseTarget? w default os = some target) (hrefs : Forall₂ RefersTo os refs)
    (hdrop : operands.drop j = refs) (hcases : switchCases .switch operands j refs = .ok cases)
    (hbits : ∀ o ∈ os, fitsBit o = true) : Chooses w default cases target := by
  have bit {ty : Ssa.Ty} {m : Int} (hty : ty.int? = some w.ty)
      (hb : fitsBit (.const (.int ty m)) = true) (hw : w.ty = .i1) : m = 0 ∨ m = 1 := by
    rw [hw, Ssa.Ty.int?_eq_some] at hty
    subst hty
    simpa [fitsBit, IntTy.bits] using hb
  fun_induction caseTarget? w default os generalizing refs j cases with
  | case1 =>
    cases hrefs
    cases hcases
    cases h
    exact .default
  | case2 => cases h
  | case3 ty m target' rest hty hm =>
    cases h
    obtain _ | ⟨rfl, _ | ⟨rfl, hrefs⟩⟩ := hrefs
    obtain ⟨rest', rfl, -, -⟩ := switchCases_cons hdrop hcases
    exact .found (bit (not_not.mp hty) (hbits _ (by simp))) hm
  | case4 ty m target' rest hty hm ih =>
    obtain _ | ⟨rfl, _ | ⟨rfl, hrefs⟩⟩ := hrefs
    obtain ⟨rest', rfl, hrest, htail⟩ := switchCases_cons hdrop hcases
    refine .skip (bit (not_not.mp hty) (hbits _ (by simp))) hm
      (ih h hrefs htail hrest fun o ho => hbits o ?_)
    simp [ho]
  | case5 => cases h

/-- The cases of a switch hold integers and blocks only. -/
theorem switchCases_ne_key (h : switchCases .switch operands j refs = .ok cases)
    (hdrop : operands.drop j = refs) (heven : refs.length % 2 = 0) :
    ∀ r ∈ refs, ∀ k, r ≠ .key k := by
  induction refs using List.twoStepInduction generalizing j cases with
  | nil => simp
  | singleton => simp at heven
  | cons_cons r r' refs ih _ =>
    have hblock : operands[j + 1]? = some r' := by rw [← getElem?_drop, hdrop]; rfl
    have htail : operands.drop (j + 2) = refs := by rw [← drop_drop, hdrop]; rfl
    rw [switchCases] at h
    cases hr : r.constInt? with
    | none =>
      rw [hr] at h
      cases h
    | some m =>
      rw [hr] at h
      obtain ⟨target, ht, h⟩ := bind_eq_ok.mp h
      obtain ⟨rest, hrest, -⟩ := bind_eq_ok.mp h
      rw [blockOperand, hblock] at ht
      refine forall_mem_cons.mpr ⟨?_, forall_mem_cons.mpr ⟨?_, ih hrest htail ?_⟩⟩
      · rintro k rfl
        cases hr
      · rintro k rfl
        cases ht
      · rw [length_cons, length_cons] at heven
        omega

theorem settled_of_refersTo {r : Ref} (h : RefersTo o r) (hr : ∀ k, r ≠ .key k) : Settled E ρ o :=
  .inl (by rw [h.leaf hr]; rfl)

section
variable (hc : n.Computes r i.operation)
include hc

/-- The operands of a terminator have words, as far as they are expressions. -/
theorem settled_of_exit? (h : exit? ρ i = some e) : ∀ o ∈ i.operands, Settled Evaluates ρ o := by
  have hrefs : Forall₂ RefersTo i.operands n.operands := hc.operands
  have hkind : Kind.make r i.opcode i.ty n.operands i.info = .ok n.kind.erased := hc.kind
  have hblock (id : BlockId) : Settled Evaluates ρ (.block id) := .inl rfl
  unfold exit? at h
  split at h
  · next hops => simp [hops]
  · next o hop hops =>
    obtain ⟨w, hw, -⟩ := map_eq_some_iff.mp h
    have ho : Settled Evaluates ρ o := .inr ⟨w, hw⟩
    simpa [hops] using ho
  · next target hop hops => simpa [hops] using hblock target
  · next o yes no hop hops =>
    obtain ⟨w, hw, -⟩ := bind_eq_some_iff.mp h
    have ho : Settled Evaluates ρ o := .inr ⟨w, hw⟩
    simpa [hops] using ⟨ho, hblock yes, hblock no⟩
  · next o default cases hop hops =>
    obtain ⟨w, hw, -⟩ := bind_eq_some_iff.mp h
    have ho : Settled Evaluates ρ o := .inr ⟨w, hw⟩
    generalize n.operands = refs at hrefs hkind
    rw [hops] at hrefs ⊢
    rw [hop] at hkind
    obtain _ | ⟨-, _ | ⟨rfl, hrefs⟩⟩ := hrefs
    dsimp only [Kind.make] at hkind
    split at hkind
    · cases hkind
    · next heven =>
      obtain ⟨labels, hlabels, -⟩ := bind_eq_ok.mp hkind
      have hne := switchCases_ne_key hlabels rfl (by
        simp only [not_or, not_not, length_cons] at heven
        have := heven.2
        simp only [drop_succ_cons, drop_zero]
        omega)
      refine forall_mem_cons.mpr ⟨ho, forall_mem_cons.mpr ⟨hblock default, fun o' ho' => ?_⟩⟩
      obtain ⟨q, hq⟩ := getElem?_of_mem ho'
      obtain ⟨r', hr', href⟩ := forall₂_some_left hrefs hq
      exact settled_of_refersTo href (hne r' (mem_of_getElem? hr'))
  · cases h

/-- The node of a return returns the word of its operand. -/
theorem exits_ret (hr : Forall₂ (ν.Reads E) i.operands n.operands) (hop : i.opcode = .ret)
    (hops : i.operands = [o]) (hw : E ν.values o w) : Exits ν n (.ret (some w)) := by
  have hkind : Kind.make r i.opcode i.ty n.operands i.info = .ok n.kind.erased := hc.kind
  generalize hn : n.operands = refs at hkind hr
  rw [hops] at hr
  rw [hop] at hkind
  obtain _ | ⟨ho, _ | _⟩ := hr
  exact .ret (Kind.eq_of_erased (Except.ok.inj hkind).symm (by simp [Kind.opcode?])) hn (ho w hw)

/-- The node of a terminator goes where the terminator goes. -/
theorem exits_of_exit? (hr : Forall₂ (ν.Reads Evaluates) i.operands n.operands)
    (h : exit? ν.values i = some e)
    (hbits : i.opcode = .switch → ∀ o ∈ i.operands.drop 2, fitsBit o = true) : Exits ν n e := by
  have hrefs : Forall₂ RefersTo i.operands n.operands := hc.operands
  have hkind : Kind.make r i.opcode i.ty n.operands i.info = .ok n.kind.erased := hc.kind
  have kind_eq {k : Kind} (hk : Except.ok k = Except.ok n.kind.erased (ε := Defect))
      (hne : ∀ o, k.opcode? = some o → o ≠ .load ∧ o ≠ .store ∧ o ≠ .phi) : n.kind = k :=
    Kind.eq_of_erased (Except.ok.inj hk).symm hne
  generalize hn : n.operands = refs at hrefs hkind hr
  unfold exit? at h
  split at h
  · next hop hops =>
    cases h
    rw [hops] at hrefs
    rw [hop] at hkind
    cases hrefs
    exact .retVoid (kind_eq hkind (by simp [Kind.opcode?])) hn
  · next o hop hops =>
    obtain ⟨w, hw, rfl⟩ := map_eq_some_iff.mp h
    exact exits_ret hc (hn ▸ hr) hop hops hw
  · next target hop hops =>
    cases h
    rw [hops] at hrefs
    rw [hop] at hkind
    obtain _ | ⟨rfl, _ | _⟩ := hrefs
    exact .branch (kind_eq hkind (by simp [Kind.opcode?]))
  · next o yes no hop hops =>
    obtain ⟨w, hw, h⟩ := bind_eq_some_iff.mp h
    obtain ⟨b, hb, h⟩ := bind_eq_some_iff.mp h
    cases h
    rw [hops] at hrefs hr
    rw [hop] at hkind
    obtain _ | ⟨-, _ | ⟨rfl, _ | ⟨rfl, _ | _⟩⟩⟩ := hrefs
    obtain _ | ⟨ho, -⟩ := hr
    refine .condBranch (kind_eq hkind (by simp [Kind.opcode?])) hn ?_
    rw [ho w hw, Ssa.Word.as_eq_some.mp hb]
  · next o default cases hop hops =>
    obtain ⟨w, hw, h⟩ := bind_eq_some_iff.mp h
    obtain ⟨target, ht, h⟩ := bind_eq_some_iff.mp h
    cases h
    have hbits := hbits hop
    rw [hops] at hrefs hr hbits
    rw [hop] at hkind
    obtain _ | ⟨-, _ | ⟨rfl, hrefs⟩⟩ := hrefs
    obtain _ | ⟨ho, -⟩ := hr
    dsimp only [Kind.make] at hkind
    split at hkind
    · cases hkind
    · obtain ⟨labels, hlabels, hkind⟩ := bind_eq_ok.mp hkind
      refine .switch (kind_eq hkind (by simp [Kind.opcode?])) hn (ho w hw) ?_
      exact chooses_of_caseTarget? ht hrefs rfl hlabels hbits
  · cases h

end

end Stackify.Flow

namespace Stackify.Ssa

/-- A function whose integers the machine can compute with: values and blocks have numbers of their
own, every block ends with its only terminator and begins with its phis, expressions that phis take
are constants, and on bits there are only operations and cases that suit them. -/
structure Function.Arithmetical (f : Function) : Prop where
  regular : f.Regular
  blocks : (f.blocks.map (·.id)).Nodup
  phis : ∀ b ∈ f.blocks, ∀ i ∈ b.body, i.opcode ≠ .phi
  constants : ∀ i ∈ f.instructions, i.opcode = .phi → ∀ o ∈ i.operands,
    (Flow.leaf? o).isSome = true ∨ (constantType? o).isSome = true
  bits : ∀ x ∈ f.operations, x.FitsBits
  cases : ∀ i ∈ f.instructions, i.opcode = .switch → ∀ o ∈ i.operands.drop 2, Flow.fitsBit o = true

instance (f : Function) : Decidable f.Arithmetical :=
  decidable_of_iff (_ ∧ _ ∧ _ ∧ _ ∧ _ ∧ _) ⟨fun ⟨hr, hb, hp, hc, hx, hs⟩ =>
    ⟨hr, hb, hp, hc, hx, hs⟩, fun h => ⟨h.regular, h.blocks, h.phis, h.constants, h.bits, h.cases⟩⟩

theorem Function.fitsBits {f : Function} (h : ∀ x ∈ f.operations, x.FitsBits) :
    ∀ i ∈ f.instructions, Flow.FitsBits i :=
  fun i hi => ⟨h _ (List.mem_append_left _ (List.mem_map_of_mem hi)), fun x hx =>
    h x (List.mem_append_right _ (List.mem_flatMap.mpr ⟨i, hi, hx⟩))⟩

theorem Function.Arithmetical.settled {f : Function} (hf : f.Arithmetical) (ρ : Env) :
    ∀ i ∈ f.instructions, i.opcode = .phi → ∀ o ∈ i.operands, Flow.Settled Evaluates ρ o := by
  intro i hi hop o ho
  refine (hf.constants i hi hop o ho).imp_right fun h => ?_
  obtain ⟨t, ht⟩ := Option.isSome_iff_exists.mp h
  obtain ⟨w, hw, -⟩ := evaluate_of_constantType? (ρ := ρ) o ht
  exact ⟨w, hw⟩

end Stackify.Ssa

namespace Stackify.Flow

open Ssa (Word Env BlockId Operand Instruction Evaluation Executes Function)
open List

/-! ## Blocks -/

section
variable {s : Setting} {g : Graph} {block position k k' first : Nat} {nodes : List Node}
  {ids : List NodeId} {moved : List (BlockId × NodeId)}

/-- The nodes of the last instruction come last. -/
theorem Drafted.concat {is : List Instruction} {last : Instruction}
    (h : Drafted s block k first (is ++ [last]) k' nodes ids moved) :
    ∃ k₁ nodes₁ ids₁ moved₁ refs new n before moved₂, Drafted s block k first is k₁ nodes₁
      ids₁ moved₁ ∧ Operands s block k₁ (first + nodes₁.length)
        (last.operands.zip (operandSources last)) refs new before moved₂ ∧
      Node.make s.resolver s.location block
        (.value last.id) last.opcode last.ty refs last.info = .ok n ∧
      nodes = nodes₁ ++ (new ++ [n]) ∧
        ids = ids₁ ++ (before ++ [first + nodes₁.length + new.length]) := by
  induction is generalizing k first nodes ids moved with
  | nil =>
    obtain _ | ⟨ho, hn, hd⟩ := h
    cases hd
    exact ⟨_, _, _, _, _, _, _, _, _, .nil, ho, hn, rfl, rfl⟩
  | cons i is ih =>
    obtain _ | ⟨ho, hn, hd⟩ := h
    obtain ⟨k₁, nodes₁, ids₁, moved₁, refs, new, n, before, moved₂, hd₁, ho₁, hn₁, rfl, rfl⟩ :=
      ih hd
    refine ⟨_, _, _, _, refs, new, n, before, moved₂, .cons ho hn hd₁, ?_, hn₁, by simp, ?_⟩
    · simpa [Nat.add_assoc, Nat.add_comm 1] using ho₁
    · simp [Nat.add_assoc, Nat.add_comm 1]

end

variable {s : Setting} {f : Function} {g : Graph} {blocks : List Block} {nodes : List Node}
  {moved : List (BlockId × NodeId)} {i : Nat} {b : Block}

theorem Shape.has (h : Shape s f g blocks nodes moved) : g.Has 0 nodes := by
  rintro j n ⟨-, hn⟩
  have hj : j < g.nodes.length := h.length ▸ lt_of_getElem? hn
  obtain ⟨n₀, hn₀, hr, -⟩ := h.nodes j g.nodes[j] (getElem?_eq_getElem hj)
  cases hn.symm.trans hn₀
  exact ⟨g.nodes[j], getElem?_eq_getElem hj, hr⟩

/-- Other nodes leave alone what the nodes of operands have computed. -/
theorem Shape.read_others (h : Shape s f g blocks nodes moved) (hf : f.Regular)
    {block k first : Nat} {os : List Operand} {refs : List Ref} {new : List Node}
    (hbuilt : Built s block k os refs new) (hg : g.Has first new) {ν ν' : Valuation}
    {ids : List NodeId} (he : Evals g ν ids ν') (hvalues : ν'.values = ν.values)
    (hids : ∀ id ∈ range' first new.length, id ∉ ids) : ∀ r ∈ refs, ν'.read r = ν.read r := by
  refine fun r hr => Valuation.read_congr fun key hkey => ?_
  subst hkey
  cases key with
  | value v => exact congrFun hvalues v
  | synthesized j =>
    refine he.word_eq fun id hid n' hn' hk => ?_
    obtain ⟨hle, hlt⟩ := hbuilt.synthesized_mem j hr
    obtain ⟨_, n₀, -, hn₀, hkey, hq⟩ := hbuilt.exists_key hle hlt first
    obtain ⟨n, hn, hrefines⟩ := hg _ n₀ hn₀
    have hid' := resolve?_key (h.keys_nodup hf) hn'
    rw [hk, ← hkey, ← hrefines.key, resolve?_key (h.keys_nodup hf) hn, Option.some.injEq] at hid'
    subst hid'
    exact hids _ hq hid

/-- A block computes what its instructions compute, reads what its last one reads, and supplies the
phis that take values from it. -/
theorem Shape.evals_block {E : Evaluation} (hE : Followed E) (h : Shape s f g blocks nodes moved)
    (hf : f.Regular) (hbits : ∀ x ∈ f.instructions, FitsBits x)
    (hphis : ∀ ρ, ∀ x ∈ f.instructions, x.opcode = .phi → ∀ o ∈ x.operands, Settled E ρ o)
    (hb : g.blocks[i]? = some b) {b₀ : Ssa.Block} (hb₀ : f.blocks[i]? = some b₀)
    {is : List Instruction} {last : Instruction} (his : b₀.instructions = is ++ [last])
    (hlast : last.isTerminator = true) {ν : Valuation} {ρ' : Env} (hx : Executes E ν.values is ρ')
    (hsettled : ∀ n : Node, n.Computes s.resolver last.operation →
      ∀ o ∈ last.operands, Settled E ρ' o) :
    ∃ init j n ν' bound, b.instructions = init ++ [j] ∧ g.node? j = some n ∧ Evals g ν init ν' ∧
      ν'.values = ρ' ∧ n.Computes s.resolver last.operation ∧ Forall₂
        (ν'.Reads E) last.operands n.operands ∧
      ∀ j n, g.node? j = some n → n.Supplied E (g.blocks.map (·.id)) i bound ν' f.instructions := by
  obtain ⟨b₁, hb₁, hins⟩ := h.instructions i b hb
  obtain ⟨b₂, k, first, k', nodes₀, moved₀, hb₂, hd, hnum⟩ := h.drafted.drafted_block hb₁
  cases hb₀.symm.trans hb₂
  have hhas : g.Has first nodes₀ := fun j n hn => h.has j n (hnum j n hn)
  have hmem : ∀ x ∈ b₀.instructions, x ∈ f.instructions := fun x hx =>
    mem_flatMap.mpr ⟨b₀, mem_of_getElem? hb₀, hx⟩
  rw [his] at hd hmem
  obtain ⟨k₁, nodes₁, ids₁, moved₁, refs, new, n₀, before, moved₂, hd₁, ho, hn₀, rfl, hids⟩ :=
    hd.concat
  have hne : last.opcode ≠ .phi := by
    intro hop
    rw [Instruction.isTerminator, hop] at hlast
    cases hlast
  have hbuilt : Built s (0 + i) k₁ last.operands refs new := map_fst_operandSources last ▸ ho.built
  obtain ⟨n, hn, hrefines⟩ := hhas.right.right.head
  have hc : n.Computes s.resolver last.operation :=
    hrefines.computes (Node.computes_of_make hn₀ hbuilt.refersTo)
  have hops : n.operands = refs := by
    obtain ⟨_, _, rfl⟩ := Node.make_eq_ok hn₀
    exact hrefines.operands
  -- First the nodes of the instructions, then the expressions of the last one, then the nodes that
  -- were moved here.
  obtain ⟨ν₁, he₁, hν₁⟩ := hd₁.evals hE hhas.left hx fun x hx => hbits x (hmem x (by simp [hx]))
  subst hν₁
  obtain ⟨ν₂, he₂, hx₂, hr₂⟩ :=
    hbuilt.evals hE hhas.right.left (hsettled n hc) (hbits last (hmem last (by simp))).2
  obtain ⟨bound, ν₃, he₃, hx₃, -, hs₃⟩ :=
    h.drafted.evals_moved (blocks.map (·.id)) i hE (ν := ν₂) h.has (hphis _) hbits
  have hbefore := (ho.stayed (operandSources_of_ne_phi hne)).1
  have hins' : b.instructions = ids₁ ++ before ++ movedTo (blocks.map (·.id)) moved i ++
      [first + nodes₁.length + new.length] := by
    rw [hins, hids, ← append_assoc, insertLate_append_singleton]
  -- The moved nodes leave the expressions of the last instruction alone, since every node stands
  -- once.
  have hkept : ∀ r ∈ refs, ν₃.read r = ν₂.read r := by
    refine h.read_others hf hbuilt hhas.right.left he₃ hx₃.values fun id hid hmoved => ?_
    have hnodup := h.nodup hb
    rw [hins', hbefore, append_assoc, append_assoc, nodup_append] at hnodup
    exact (nodup_append.mp hnodup.2.1).2.2 id hid id (mem_append_left _ hmoved) rfl
  refine ⟨ids₁ ++ before ++ movedTo (blocks.map (·.id)) moved i, _, n, ν₃, bound, hins', hn, ?_,
    ?_, hc, ?_, ?_⟩
  · rw [hbefore]
    exact (he₁.append he₂).append he₃
  · rw [hx₃.values, hx₂.values]
  · exact hops ▸ Valuation.reads_congr hr₂ hx₃.values hkept
  · intro j n' hn'
    obtain ⟨n₁, hn₁, hr₁, -⟩ := h.nodes j n' hn'
    rw [h.ids, Node.Supplied, hr₁.key, hr₁.operands]
    exact hs₃ n₁ (mem_of_getElem? hn₁)

end Stackify.Flow
