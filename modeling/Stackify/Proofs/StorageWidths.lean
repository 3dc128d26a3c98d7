import Stackify.Proofs.Preservation
import Stackify.Proofs.StraightLine

/-!
Lowered functions without branches compute at the widths in which integers are kept.

Nodes follow the evaluation at these widths (`evaluatesStored_followed`), and with the nodes the
code of the machine. So for all arguments a method returns what its function computes there, unless
a divisor is zero. Where no width is rounded, this is arithmetic at the widths of the source.
-/

namespace Stackify.Ssa

open List

/-! ## Evaluation -/

/-- The words as bits. -/
def Env.bits (ρ : Env) : Assignment := fun id => (ρ id).map Word.bits

theorem Env.bits_assign (ρ : Env) (id : ValueId) (w : Word) :
    (ρ.assign [(id, w)]).bits = ρ.bits.set id w.bits := by
  funext id'
  unfold bits assign Assignment.set
  rw [lookup_cons, lookup_nil]
  by_cases hid : id' = id
  · rw [beq_iff_eq.mpr hid, if_pos hid]
    rfl
  · rw [beq_eq_false_iff_ne.mpr hid, if_neg hid]
    rfl

theorem Env.bits_arguments (ids : List ValueId) (args : List Word) :
    (Env.empty.assign (ids.zip args)).bits = fun id =>
      (ids.zip (args.map Word.bits)).lookup id := by
  funext id
  unfold bits assign Env.empty
  rw [Option.or_none]
  induction ids generalizing args with
  | nil => rfl
  | cons k ids ih =>
    cases args with
    | nil => rfl
    | cons a args =>
      rw [map_cons, zip_cons_cons, zip_cons_cons, lookup_cons, lookup_cons]
      cases id == k with
      | true => rfl
      | false => exact ih args

/-- The words that are computed at the widths in which integers are kept. -/
def EvaluatesStored : Evaluation := fun ρ o w => evaluateAt stored ρ.bits o = .ok w.bits

variable {ρ : Env}

theorem evaluateAt_word {o : Operand} {x : Bits} (h : evaluateAt stored ρ.bits o = .ok x) :
    ∃ w : Word, x = w.bits := by
  cases o with
  | value id =>
    rw [evaluateAt] at h
    split at h
    · next y hy =>
      cases h
      obtain ⟨w, -, hw⟩ := Option.map_eq_some_iff.mp hy
      exact ⟨w, hw.symm⟩
    · cases h
  | const c =>
    cases c with
    | int ty k =>
      cases ty with
      | int n =>
        cases h
        exact ⟨.ofInt (storage n) k, rfl⟩
      | _ => cases h
    | _ => cases h
  | expr opcode ty operands info =>
    cases ty with
    | int n =>
      rw [evaluateAt] at h
      obtain ⟨xs, -, h⟩ := bind_eq_ok.mp h
      obtain ⟨z, -, h⟩ := bind_eq_ok.mp h
      cases h
      exact ⟨⟨storage n, z⟩, rfl⟩
    | _ => cases h
  | block _ | global _ | function _ => cases h

theorem evaluateAllAt_words {os : List Operand} {xs : List Bits}
    (h : evaluateAllAt stored ρ.bits os = .ok xs) :
    ∃ ws, xs = ws.map Word.bits ∧ Forall₂ (EvaluatesStored ρ) os ws := by
  induction os generalizing xs with
  | nil =>
    cases h
    exact ⟨[], rfl, .nil⟩
  | cons o os ih =>
    rw [evaluateAllAt] at h
    obtain ⟨x, hx, h⟩ := bind_eq_ok.mp h
    obtain ⟨xs', hxs, h⟩ := bind_eq_ok.mp h
    cases h
    obtain ⟨w, rfl⟩ := evaluateAt_word hx
    obtain ⟨ws, rfl, hws⟩ := ih hxs
    exact ⟨w :: ws, rfl, .cons hx hws⟩

/-- The instructions of a block, and the word that the last one returns. -/
theorem executes_of_computeFrom {is : List Instruction} {x : Bits}
    (h : computeFrom stored ρ.bits is = .ok x) : ∃ front last o ρ' w, is = front ++ [last] ∧
      Executes EvaluatesStored ρ front ρ' ∧ last.opcode = .ret ∧ last.operands = [o] ∧
        EvaluatesStored ρ' o w ∧ x = w.bits := by
  induction is generalizing ρ with
  | nil => cases h
  | cons i rest ih =>
    cases rest with
    | nil =>
      unfold computeFrom at h
      split at h
      · next o hop hops =>
        obtain ⟨w, rfl⟩ := evaluateAt_word h
        exact ⟨[], i, o, ρ, w, rfl, .nil, hop, hops, h, rfl⟩
      · cases h
    | cons j rest =>
      obtain ⟨y, hy, h⟩ :=
        bind_eq_ok.mp (show (evaluateAt stored ρ.bits i.operation.operand >>= fun y =>
        computeFrom stored (ρ.bits.set i.id y) (j :: rest)) = .ok x from h)
      obtain ⟨w, rfl⟩ := evaluateAt_word hy
      rw [← Env.bits_assign] at h
      obtain ⟨front, last, o, ρ', v, hsplit, hx, hret⟩ := ih h
      exact ⟨i :: front, last, o, ρ', v, by rw [hsplit]; rfl, .cons hy hx, hret⟩

end Stackify.Ssa

namespace Stackify.Flow

open Ssa (Word IntTy Info Opcode Operand Operation EvaluatesStored operateAt stored storage resize)
open Resolve (Resolver)

/-! ## Nodes -/

variable {r : Resolver} {n : Node} {x : Operation} {t : IntTy} {ws : List Word} {b : BitVec t.bits}

theorem resize_of_conversionAt {opcode : Opcode} {w : Word}
    (h : Ssa.conversionAt w.bits t.bits opcode = .ok b) :
    opcode ∈ [Opcode.trunc, .zext, .sext] ∧ ⟨t, b⟩ = resize (Lower.isSigned opcode) w.val t := by
  unfold Ssa.conversionAt at h
  split at h
  · cases h
    exact ⟨by simp, rfl⟩
  · cases h
    exact ⟨by simp, rfl⟩
  · cases h
    exact ⟨by simp, rfl⟩
  · cases h

theorem compare_of_relationAt {info : Info} {w w' : Word}
    (h : Ssa.relationAt info w.bits w'.bits t.bits = .ok b) :
    ∃ p, Ssa.comparison? info = some p ∧ (Kind.intCompare p).Gives [w, w'] ⟨t, b⟩ := by
  unfold Ssa.relationAt at h
  split at h
  · next y p hy hp =>
    split at h
    · next hone =>
      have ht : t = .i1 := by
        rw [← Ssa.storage_bits t, hone]
        rfl
      subst ht
      cases h
      obtain ⟨s, a⟩ := w
      have hw' : w' = ⟨s, y⟩ := Ssa.Word.bits_eq_mk.mp (Ssa.Bits.as_eq_some.mp hy)
      subst hw'
      refine ⟨p, hp, ?_⟩
      show Kind.Gives _ _ ⟨.i1, (BitVec.ofBool (p.holds a y)).setWidth 1⟩
      rw [BitVec.setWidth_eq]
      exact .compare
    · cases h
  · cases h

theorem arithmetic?_of_arithmeticAt {k : Nat} {y y' z : BitVec k} {opcode : Opcode}
    (h : Ssa.arithmeticAt y y' opcode = .ok z) : Ssa.arithmetic? y y' opcode = some z := by
  unfold Ssa.arithmeticAt at h
  split at h
  · cases h
  · split at h
    · next hz =>
      cases h
      exact hz
    · cases h

/-- The node of an operation gives what the operation has for a result at the widths in which
integers are kept. -/
theorem Node.Computes.gives_stored (hc : n.Computes r x)
    (hb : operateAt x.opcode x.info t.bits (ws.map Word.bits) = .ok b)
    (hx : t = .i1 → x.opcode.dividesOrShifts = false) : n.kind.Gives ws ⟨t, b⟩ := by
  unfold operateAt at hb
  split at hb
  · next y hy =>
    obtain ⟨w, rfl, rfl⟩ := List.map_eq_singleton_iff.mp hy
    obtain ⟨hop, heq⟩ := resize_of_conversionAt hb
    rw [hc.kind_convert hop, heq]
    exact .convert
  · next y y' hy =>
    obtain ⟨w, ws', rfl, rfl, hrest⟩ := List.map_eq_cons_iff.mp hy
    obtain ⟨w', rfl, rfl⟩ := List.map_eq_singleton_iff.mp hrest
    split at hb
    · next hop =>
      obtain ⟨p, hp, hgives⟩ := compare_of_relationAt hb
      rw [hc.kind_intCompare hop hp]
      exact hgives
    · split at hb
      · next a a' ha ha' =>
        have harith := arithmetic?_of_arithmeticAt hb
        rw [hc.kind_binary (arithmetic?_opcode harith),
          Ssa.Word.bits_eq_mk.mp (Ssa.Bits.as_eq_some.mp ha),
            Ssa.Word.bits_eq_mk.mp (Ssa.Bits.as_eq_some.mp ha')]
        exact .binary harith hx
      · cases hb
  · cases hb

theorem read_leaf_stored {ν : Valuation} {o : Operand} {ref : Ref} {w : Word}
    (ho : leaf? o = some ref) (hw : EvaluatesStored ν.values o w) : ν.read ref = some w := by
  have hw : Ssa.evaluateAt stored ν.values.bits o = .ok w.bits := hw
  cases o with
  | value id =>
    cases ho
    rw [Ssa.evaluateAt] at hw
    split at hw
    · next x hx =>
      cases hw
      obtain ⟨v, hv, hbits⟩ := Option.map_eq_some_iff.mp hx
      rw [← Ssa.Word.bits_inj.mp hbits]
      exact hv
    · cases hw
  | const c =>
    cases ho
    cases c with
    | int ty k =>
      cases ty with
      | int n =>
        have hbits : (Word.ofInt (storage n) k).bits = w.bits := Except.ok.inj hw
        rw [← Ssa.Word.bits_inj.mp hbits]
        rfl
      | _ => cases hw
    | _ => cases hw
  | expr _ _ _ _ => cases ho
  | block _ | global _ | function _ => cases hw

/-- Nodes follow the evaluation at the widths in which integers are kept. -/
theorem evaluatesStored_followed : Followed EvaluatesStored where
  unique hw hw' := Ssa.Word.bits_inj.mp (Except.ok.inj (hw.symm.trans hw'))
  leaf := read_leaf_stored
  node {ρ x w} hx hw := by
    have hw : Ssa.evaluateAt stored ρ.bits x.operand = .ok w.bits := hw
    obtain ⟨opcode, ty, operands, info⟩ := x
    cases ty with
    | int n =>
      rw [Operation.operand, Ssa.evaluateAt] at hw
      obtain ⟨xs, hxs, hw⟩ := bind_eq_ok.mp hw
      obtain ⟨z, hz, hresult⟩ := bind_eq_ok.mp hw
      obtain ⟨ws, rfl, hws⟩ := Ssa.evaluateAllAt_words hxs
      obtain rfl : w = ⟨storage n, z⟩ := Ssa.Word.bits_eq_mk.mp (pure_eq_ok.mp hresult).symm
      refine ⟨ws, hws, rfl, fun hc => hc.gives_stored hz fun hbit => hx ?_⟩
      rw [Ssa.storage_eq_i1 hbit]
    | _ => cases hw

end Stackify.Flow

namespace Stackify.Lower

open Code (Program)
open Machine (Value World callMethod)
open Ssa (Module Function Param Word Bits stored)

/-! ## Calls -/

theorem width_of_storage? {ty : Ssa.Ty} {t : Ssa.IntTy} {n : Nat} (ht : ty.storage? = some t)
    (hn : ty.width? = some n) : t.bits = stored n := by
  cases ty with
  | int m =>
    cases ht
    cases hn
    rfl
  | _ => cases hn

theorem stored_arguments {ps : List Param} {args : List Word}
    (h : ps.map (·.ty.storage?) = args.map fun v => some v.ty) :
    List.Forall₂ (fun q x => ∀ n, q.ty.width? = some n → x.width = stored n) ps
      (args.map Word.bits) :=
  List.forall₂_map_right_iff.mpr ((map_eq_map_iff_forall₂.mp h).imp fun _ _ hty _ hn =>
    width_of_storage? hty hn)

variable {md : Module} {o : Options} {p : Program} {i : Nat} {f : Function} {args : List Word}

/-- A method returns what its function computes at the widths in which integers are kept. -/
theorem callMethod_of_compute (h : lower md o = .ok p)
    (hi : (md.functions.filter fun f => !f.isDeclaration)[i]? = some f) (hf : f.StraightLine)
    (hargs : f.params.map (·.ty.storage?) = args.map fun v => some v.ty) {x : Bits}
    (hx : f.compute stored (args.map Word.bits) = .ok x) (rest : List Value)
    (hrest : args.length + rest.length = f.type.params.length + f.type.variadic.toNat) (w : World) :
    ∃ v : Word, x = v.bits ∧ ∃ fuel, ∀ more,
      callMethod p (fuel + more) w i
        (args.map Word.value ++ rest) = some (w, .ok (some v.value)) := by
  obtain ⟨m, c, hm, ht, hty⟩ := translated_of_lower h hi hf.regular
  obtain ⟨b₀, n, hblocks, hret, -⟩ := hf.exists_block
  have hb₀ : f.blocks[0]? = some b₀ := by rw [hblocks]; rfl
  rw [Function.compute, hblocks] at hx
  dsimp only at hx
  rw [← Ssa.Env.bits_arguments] at hx
  obtain ⟨front, last, operand, ρ', v, hsplit, hexecutes, hop, hops, hv, rfl⟩ :=
    Ssa.executes_of_computeFrom hx
  have hlast : last.isTerminator = true := by rw [Ssa.Instruction.isTerminator, hop]; rfl
  have hsettled : ∀ operand' ∈ last.operands, Flow.Settled Ssa.EvaluatesStored ρ' operand' := by
    rw [hops]
    exact List.forall_mem_singleton.mpr (.inr ⟨v, hv⟩)
  obtain ⟨b, hb, -⟩ := Context.exists_block ht hb₀
  obtain ⟨_, _, -, -, hreaches⟩ := Context.node_reaches
    (s := ⟨⟨i, args.map Word.value ++ rest, m.body.locals.map (Machine.defaultValue p.records), [],
      0, .pushed⟩, [], w⟩)
    Flow.evaluatesStored_followed ht (Function.fitsBits hf.bits) (fun _ x hx hphi =>
      absurd hphi (hf.ne_phi x hx)) hm hb₀ hb
    hsplit hlast hexecutes (fun _ _ _ => hsettled)
    (fun _ _ _ hc hvalues hreads => Flow.exits_ret hc hreads hop hops (hvalues ▸ hv))
      (Context.first_at ht hb)
    (Context.holds_start ht rest hargs)
  have hslots : (args.map Word.value ++ rest).length = m.type.argSlots := by
    rw [List.length_append, List.length_map, hrest, Code.MethodType.argSlots, hty.params,
      hty.variadic]
  obtain ⟨t, hsteps, hfinished⟩ := hreaches (hty.isVoid_int hret) rfl
  exact ⟨v, rfl, callMethod_of_steps hm hslots hsteps hfinished⟩

/-- **Lowered functions without branches compute at the widths in which integers are kept.** For all
arguments, a call of the method of a function that is well typed returns what the function computes,
with each integer type at the smallest of 1, 8, 16, 32, 64 and 128 bits that has room for it, and
changes nothing outside; unless a divisor is zero. If all types have one of these widths, that is
what the function computes at the widths of its types. -/
theorem straightLine_returns_stored (h : lower md o = .ok p)
    (hi : (md.functions.filter fun f => !f.isDeclaration)[i]? = some f) (hf : f.StraightLine)
    (hargs : f.params.map (·.ty.storage?) = args.map fun v => some v.ty) (rest : List Value)
    (hrest : args.length + rest.length = f.type.params.length + f.type.variadic.toNat) (w : World) :
    ((∃ v : Word, f.compute stored (args.map Word.bits) = .ok v.bits ∧ ∃ fuel, ∀ more,
        callMethod p (fuel + more) w i
          (args.map Word.value ++ rest) = some (w, .ok (some v.value))) ∨
      f.compute stored (args.map Word.bits) = .error .zeroDivisor) ∧
      ((∀ n ∈ f.widths, stored n = n) →
        f.compute stored (args.map Word.bits) = f.compute id (args.map Word.bits)) := by
  refine ⟨?_, fun hwidths => f.compute_congr hwidths _⟩
  refine (hf.compute_ok_or_zeroDivisor (W := stored) rfl (stored_arguments hargs)).imp_left ?_
  rintro ⟨n, x, hx, -, -⟩
  obtain ⟨v, rfl, hcall⟩ := callMethod_of_compute h hi hf hargs hx rest hrest w
  exact ⟨v, hx, hcall⟩

/-- Arithmetic, comparison and conversion of integers with `n` bits, half as many, and 64. -/
def shifted (n : Nat) : Function where
  name := "shifted" ++ toString n
  type := ⟨.int 64, [.int n, .int n], false⟩
  params := [{ id := 0, ty := .int n }, { id := 1, ty := .int n }]
  blocks := [{ id := 0, instructions :=
    [{ id := 2, opcode := .add, ty := .int n, operands := [.value 0, .value 1] },
     { id := 3, opcode := .udiv, ty := .int n, operands := [.value 2, .value 1] },
     { id := 4, opcode := .icmp, ty := .int 1, operands := [.value 3, .value 0], info :=
         .predicate 36 },
     { id := 5, opcode := .zext, ty := .int n, operands := [.value 4] },
     { id := 6, opcode := .shl, ty := .int n, operands := [.value 3, .value 5] },
     { id := 7, opcode := .trunc, ty := .int (n / 2), operands := [.value 6] },
     { id := 8, opcode := .sext, ty := .int 64, operands := [.value 7] },
     { id := 9, opcode := .add, ty := .int 64, operands := [.value 8, .const (.int (.int 64) 1)] },
     { id := 10, opcode := .ret, ty := .void, operands := [.value 9] }] }]

/-- With 24 bits, the function computes like with 32; a sum that leaves 24 bits makes the
difference. -/
theorem shifted_returns_stored : ∃ p, lower { functions := [shifted 24, shifted 32] } {} = .ok p ∧
    (shifted 24).StraightLine ∧ (shifted 32).StraightLine ∧
      (∀ n ∈ (shifted 32).widths, stored n = n) ∧
    (shifted 24).compute id [⟨24, 16000000⟩, ⟨24, 1000000⟩] = .ok ⟨64, 1⟩ ∧
    (shifted 32).compute id [⟨32, 16000000⟩, ⟨32, 1000000⟩] = .ok ⟨64, 35⟩ ∧ ∀ w,
      (∃ fuel, ∀ more, callMethod p (fuel + more) w 0 [.int .w32 16000000, .int .w32 1000000] =
        some (w, .ok (some (.int .w64 35)))) ∧
      ∃ fuel, ∀ more, callMethod p (fuel + more) w 1 [.int .w32 16000000, .int .w32 1000000] =
        some (w, .ok (some (.int .w64 35))) := by
  obtain ⟨p, hp, -⟩ :=
    toOption_map_eq_some.mp (show (lower { functions := [shifted 24, shifted 32] } {}).toOption.map
      (fun _ => ()) = some () by decide +kernel)
  have hrounded : (shifted 24).StraightLine := by decide +kernel
  have hexact : (shifted 32).StraightLine := by decide +kernel
  have hwidths : ∀ n ∈ (shifted 32).widths, stored n = n := by decide +kernel
  have hstored : (shifted 24).compute stored [⟨32, 16000000⟩, ⟨32, 1000000⟩] =
      .ok (Word.bits ⟨.i64, 35⟩) := by decide +kernel
  have hid : (shifted 32).compute id [⟨32, 16000000⟩, ⟨32, 1000000⟩] = .ok (Word.bits ⟨.i64, 35⟩) :=
    by decide +kernel
  have hargs (n : Nat) (hn : Ssa.storage n = .i32) : (shifted n).params.map (·.ty.storage?) =
      [(⟨.i32, 16000000⟩ : Word), ⟨.i32, 1000000⟩].map fun v => some v.ty := by
        simp [shifted, Ssa.Ty.storage?, hn]
  refine ⟨p, hp, hrounded, hexact, hwidths, by decide +kernel, hid, fun w => ⟨?_, ?_⟩⟩
  · have hreturns :=
      (straightLine_returns_stored (i := 0) hp rfl hrounded (hargs 24 rfl) [] rfl w).1
    rcases hreturns with ⟨v, hv, hcall⟩ | hzero
    · cases Ssa.Word.bits_inj.mp (Except.ok.inj (hv.symm.trans hstored))
      exact hcall
    · cases hzero.symm.trans hstored
  · obtain ⟨hreturns, hsame⟩ :=
      straightLine_returns_stored (i := 1) hp rfl hexact (hargs 32 rfl) [] rfl w
    rw [hsame hwidths] at hreturns
    rcases hreturns with ⟨v, hv, hcall⟩ | hzero
    · cases Ssa.Word.bits_inj.mp (Except.ok.inj (hv.symm.trans hid))
      exact hcall
    · cases hzero.symm.trans hid

/-- The low 24 bits of a number, as the types have it. -/
def lowBits : Function where
  name := "lowBits"
  type := ⟨.int 32, [.int 32], false⟩
  params := [{ id := 0, ty := .int 32 }]
  blocks := [{ id := 0, instructions :=
    [{ id := 1, opcode := .trunc, ty := .int 24, operands := [.value 0] },
     { id := 2, opcode := .zext, ty := .int 32, operands := [.value 1] },
     { id := 3, opcode := .ret, ty := .void, operands := [.value 2] }] }]

def bitQuotient : Function where
  name := "bitQuotient"
  type := ⟨.int 1, [.int 1, .int 1], false⟩
  params := [{ id := 0, ty := .int 1 }, { id := 1, ty := .int 1 }]
  blocks := [{ id := 0, instructions :=
    [{ id := 2, opcode := .udiv, ty := .int 1, operands := [.value 0, .value 1] },
     { id := 3, opcode := .ret, ty := .void, operands := [.value 2] }] }]

/-- Methods do not return what functions compute at the widths of their types: a type whose width is
rounded does not cut off the high bits, and a machine that has no division of bits refuses one. -/
theorem lowBits_kept_bitQuotient_refused :
    (lowBits.StraightLine ∧ lowBits.compute id [⟨32, -1⟩] = .ok ⟨32, 16777215⟩ ∧
      ∃ p, lower { functions := [lowBits] } {} = .ok p ∧ ∀ w, ∃ fuel, ∀ more,
        callMethod p (fuel + more) w 0 [.int .w32 (-1)] = some (w, .ok (some (.int .w32 (-1))))) ∧
    bitQuotient.Regular ∧ bitQuotient.isStraightLine = true ∧
      bitQuotient.compute id [⟨1, 1⟩, ⟨1, 1⟩] = .ok ⟨1, 1⟩ ∧
        ∃ p, lower { functions := [bitQuotient] } {} = .ok p ∧
          ∃ fuel, (callMethod p fuel (.ofProgram p) 0 [.bool true, .bool true]).map (·.2.isOk) =
            some false := by
  obtain ⟨p, hp, -⟩ :=
    toOption_map_eq_some.mp (show (lower { functions := [lowBits] } {}).toOption.map (fun _ => ()) =
      some () by decide +kernel)
  obtain ⟨q, hq, hrefused⟩ :=
    toOption_map_eq_some.mp (show (lower { functions := [bitQuotient] } {}).toOption.map (fun q =>
      (callMethod q 10 (.ofProgram q) 0 [.bool true, .bool true]).map (·.2.isOk)) =
        some (some false) by decide +kernel)
  have hf : lowBits.StraightLine := by decide +kernel
  have hstored : lowBits.compute stored [⟨32, -1⟩] = .ok (Word.bits ⟨.i32, -1⟩) := by decide +kernel
  have hargs : lowBits.params.map (·.ty.storage?) = [(⟨.i32, -1⟩ : Word)].map fun v =>
      some v.ty := rfl
  refine ⟨⟨hf, by decide +kernel, p, hp, fun w => ?_⟩, by decide +kernel, by decide +kernel,
    by decide +kernel, q, hq, 10, hrefused⟩
  obtain ⟨v, hv, hcall⟩ := callMethod_of_compute (i := 0) hp rfl hf hargs hstored [] rfl w
  cases Ssa.Word.bits_inj.mp hv
  exact hcall

end Stackify.Lower
