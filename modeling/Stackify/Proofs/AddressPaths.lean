import Stackify.Proofs.Entries
import Stackify.Proofs.LocalStorage
import Stackify.Proofs.Registered
import Stackify.Proofs.SwitchDispatch

/-!
Address computations, from types to bytes.

`walk?` goes into a type along indices and looks at nothing but the module. The path of an address
computation is such a walk: there is one exactly if the walk succeeds, it ends at the same type
(`addressPath_target`), and it names the records of the aggregates on its way (`addressPath_leads`).
In byte memory each step moves by what its index and the layout of its type say
(`StepCode.advances`), so that the code of a path adds all of that up (`advances_all`).
-/

namespace Stackify.Flow

open Resolve (Resolver plan)
open Ssa (Module Ty)
open Code (Record)

/-! ## Walks through types -/

/-- The part that an index selects: a field of an aggregate if it is a constant, an element of an
array in any case. -/
def part? (m : Module) (t : Ty) (index : Ref) : Option Ty :=
  match t with
  | .struct _ | .literal _ _ =>
    index.constInt?.bind fun n => if n < 0 then none else (m.parts t)[n.toNat]?
  | .array e _ | .vector e _ => some e
  | _ => none

/-- The type that indices lead to, one after the other. -/
def walk? (m : Module) (t : Ty) : List Ref → Option Ty
  | [] => some t
  | index :: rest => (part? m t index).bind fun u => walk? m u rest

/-- The step from a type to a part: to a field of the record that the aggregate is, or to an
element. -/
inductive Descends (r : Resolver) (t : Ty) (index : Ref) (u : Ty) : AddressStep → Prop
  | field {id n : Nat} : r.lookup? t = some (.record id) → index.constInt? = some (n : Int) →
      Descends r t index u (.field id n)
  | array {n : Nat} : t = .array u n → Descends r t index u (.element u index)
  | vector {n : Nat} : t = .vector u n → Descends r t index u (.element u index)

/-- Steps into parts of parts, one for each index. -/
inductive Walks (m : Module) (r : Resolver) : Ty → List Ref → List AddressStep → Ty → Prop
  | here {t : Ty} : Walks m r t [] [] t
  | step {t u target : Ty} {index : Ref} {rest : List Ref} {step : AddressStep}
      {steps : List AddressStep} :
      part? m t index = some u → Descends r t index u step → Walks m r u rest steps target →
        Walks m r t (index :: rest) (step :: steps) target

/-- The steps of a list of indices: the first one moves over whole objects, the others go into
one. -/
inductive Leads (m : Module) (r : Resolver) (t : Ty) :
    List Ref → List AddressStep → Ty → Prop
  | here : Leads m r t [] [] t
  | stride {first : Ref} {rest : List Ref} {steps : List AddressStep} {target : Ty} :
      Walks m r t rest steps target → Leads m r t (first :: rest) (.stride t first :: steps) target

variable {m : Module} {r : Resolver} {t u target : Ty} {index : Ref} {rest indices : List Ref}
  {step : AddressStep} {steps path : List AddressStep}

theorem part?_mem_parts (h : part? m t index = some u) : u ∈ m.parts t := by
  cases t with
  | struct _ | literal _ _ =>
    obtain ⟨n, -, h⟩ := Option.bind_eq_some_iff.mp h
    split at h
    · cases h
    · exact List.mem_of_getElem? h
  | array _ _ | vector _ _ =>
    cases h
    exact List.mem_singleton.mpr rfl
  | _ => cases h

/-- A known aggregate is registered with the fields that the module gives it. -/
theorem aggregate?_eq_some (hr : r.Faithful m) {o : Resolve.Outline} (hp : plan m t = .aggregate o)
    {s : Code.Ty} (hs : r.lookup? t = some s) :
    ∃ a, s = .record a.record ∧ r.aggregate? t = some a ∧ a.fields = m.parts t := by
  obtain ⟨a, rfl, ha, hof⟩ := hr.entry hp hs
  refine ⟨a, rfl, ?_, hof.fields.trans (Resolve.parts_of_aggregate hp).symm⟩
  rw [Resolver.aggregate?, hs]
  exact ha

theorem descend_descends (hr : r.Faithful m) (ht : r.Knows t)
    (h : descend r t index = .ok (step, u)) :
    part? m t index = some u ∧ Descends r t index u step := by
  obtain ⟨s, hs⟩ := ht
  cases t with
  | struct _ | literal _ _ =>
    obtain ⟨a, rfl, ha, hfields⟩ := aggregate?_eq_some hr rfl hs
    simp only [descend, ha] at h
    split at h
    · cases h
    · next n hn =>
      split at h
      · next field hfield =>
        cases h
        have hpos : ¬ n < 0 := fun hneg => by simp [hneg] at hfield
        refine ⟨?_, .field hs
          (hn.trans (congrArg some (Int.toNat_of_nonneg (Int.not_lt.mp hpos)).symm))⟩
        simpa [part?, hn, hfields] using hfield
      · cases h
  | array e n =>
    cases h
    exact ⟨rfl, .array rfl⟩
  | vector e n =>
    cases h
    exact ⟨rfl, .vector rfl⟩
  | _ => cases h

theorem exists_descend (hr : r.Faithful m) (ht : r.Knows t) (h : part? m t index = some u) :
    ∃ step, descend r t index = .ok (step, u) := by
  obtain ⟨s, hs⟩ := ht
  cases t with
  | struct _ | literal _ _ =>
    obtain ⟨a, rfl, ha, hfields⟩ := aggregate?_eq_some hr rfl hs
    obtain ⟨n, hn, h⟩ := Option.bind_eq_some_iff.mp h
    rw [← hfields] at h
    exact ⟨.field a.record n.toNat, by simp only [descend, ha, hn, h]⟩
  | array _ _ | vector _ _ =>
    cases h
    exact ⟨_, rfl⟩
  | _ => cases h

theorem descendAll_walks (hr : r.Faithful m) (ht : r.Knows t)
    (h : descendAll r t rest = .ok (steps, target)) : Walks m r t rest steps target := by
  induction rest generalizing t steps with
  | nil =>
    cases h
    exact .here
  | cons index rest ih =>
    obtain ⟨⟨step, u⟩, hstep, h⟩ := bind_eq_ok.mp h
    obtain ⟨⟨steps, target'⟩, hrest, h⟩ := bind_eq_ok.mp h
    cases h
    obtain ⟨hpart, hdescends⟩ := descend_descends hr ht hstep
    exact .step hpart hdescends (ih (hr.parts ht u (part?_mem_parts hpart)) hrest)

theorem Walks.walk?_eq (h : Walks m r t rest steps target) : walk? m t rest = some target := by
  induction h with
  | here => rfl
  | step hpart _ _ ih => rw [walk?, hpart, Option.bind_some, ih]

theorem exists_descendAll (hr : r.Faithful m) (ht : r.Knows t) (h : walk? m t rest = some target) :
    ∃ steps, descendAll r t rest = .ok (steps, target) := by
  induction rest generalizing t with
  | nil =>
    cases h
    exact ⟨[], rfl⟩
  | cons index rest ih =>
    obtain ⟨u, hpart, h⟩ := Option.bind_eq_some_iff.mp h
    obtain ⟨step, hstep⟩ := exists_descend hr ht hpart
    obtain ⟨steps, hsteps⟩ := ih (hr.parts ht u (part?_mem_parts hpart)) h
    exact ⟨step :: steps, bind_eq_ok.mpr ⟨_, hstep, bind_eq_ok.mpr ⟨_, hsteps, rfl⟩⟩⟩

theorem addressPath_leads (hr : r.Faithful m) (ht : r.Knows t)
    (h : addressPath r t indices = .ok (path, target)) : Leads m r t indices path target := by
  cases indices with
  | nil =>
    cases h
    exact .here
  | cons first rest =>
    obtain ⟨⟨steps, target'⟩, hrest, h⟩ := bind_eq_ok.mp h
    cases h
    exact .stride (descendAll_walks hr ht hrest)

/-- There is a path exactly if the walk behind the first index succeeds, and both end at the same
type. -/
theorem addressPath_target (hr : r.Faithful m) (ht : r.Knows t) :
    (∃ path, addressPath r t indices = .ok (path, target)) ↔
      walk? m t indices.tail = some target := by
  constructor
  · rintro ⟨path, h⟩
    cases addressPath_leads hr ht h with
    | here => rfl
    | stride hwalks => exact hwalks.walk?_eq
  · intro h
    cases indices with
    | nil =>
      cases h
      exact ⟨[], rfl⟩
    | cons first rest =>
      obtain ⟨steps, hsteps⟩ := exists_descendAll hr ht h
      exact ⟨_, bind_eq_ok.mpr ⟨_, hsteps, rfl⟩⟩

/-! ## Bytes -/

/-- How many bytes a step moves, for integers as indices: over so many objects of a type, or to
where a field lies. -/
inductive AddressStep.Moves (r : Resolver) (records : List Record) (v : Ref → Int) :
    AddressStep → Int → Prop
  | stride {ty : Ty} {s : Code.Ty} {index : Ref} : r.lookup? ty = some s →
      Moves r records v (.stride ty index) (v index * (s.sizeIn records : Nat))
  | element {ty : Ty} {s : Code.Ty} {index : Ref} : r.lookup? ty = some s →
      Moves r records v (.element ty index) (v index * (s.sizeIn records : Nat))
  | field {id field start : Nat} {record : Record} : records[id]? = some record →
      (record.layout records).offsets[field]? = some start → Moves r records v (.field id field)
      (start : Nat)

theorem exists_moves (hcomplete : r.registry.Complete) (h : step.Selects r indices)
    (hknown : ∀ ty, step.element? = some ty → r.Knows ty) (v : Ref → Int) :
    ∃ move, step.Moves r r.records v move := by
  cases h with
  | stride _ =>
    obtain ⟨s, hs⟩ := hknown _ rfl
    exact ⟨_, .stride hs⟩
  | element _ =>
    obtain ⟨s, hs⟩ := hknown _ rfl
    exact ⟨_, .element hs⟩
  | field ha hi =>
    obtain ⟨record, hrecord, hlt⟩ := hcomplete.field ha hi
    obtain ⟨start, hstart⟩ : ∃ start, record.Places r.records _ _ start :=
      Record.exists_places (List.getElem?_eq_getElem hlt)
    exact ⟨_, .field hrecord hstart.offset⟩

theorem exists_moves_all (hcomplete : r.registry.Complete)
    (h : ∀ step ∈ path, step.Selects r indices)
    (hknown : ∀ step ∈ path, ∀ ty, step.element? = some ty → r.Knows ty) (v : Ref → Int) :
    ∃ moves, List.Forall₂ (AddressStep.Moves r r.records v) path moves := by
  induction path with
  | nil => exact ⟨[], .nil⟩
  | cons step path ih =>
    rw [List.forall_mem_cons] at h hknown
    obtain ⟨move, hmove⟩ := exists_moves hcomplete h.1 hknown.1 v
    obtain ⟨moves, hmoves⟩ := ih h.2 hknown.2
    exact ⟨move :: moves, .cons hmove hmoves⟩

/-- A node of an address computation has a path for its kind. -/
theorem Node.Computes.kind_getElementPtr {n : Node} {x : Ssa.Operation} (hc : n.Computes r x)
    (hop : x.opcode = .getElementPtr) : ∃ path target, n.kind = .getElementPtr path target := by
  obtain ⟨path, target, hk⟩ := hc.fits.address hop
  exact ⟨path, target, Kind.eq_of_erased hk (by simp [Kind.opcode?])⟩

end Stackify.Flow

namespace Stackify.Machine

open Code (Program Method Ty)

/-- The address of an element takes the place of an index and an address. -/
theorem does_elementAddress {p : Program} {m : Method} {s : State} {locals stack : List Value}
    {ty : Ty} {a a' v : Value} {n : Int} (hm : p.methods[s.current.method]? = some m)
    (hv : v.toInt? = some n) (h : ∀ t, elementAddress p t a ty n = .ok a') :
    Does p m s [.elementAddress ty] ⟨locals, v :: a :: stack⟩ ⟨locals, a' :: stack⟩ := by
  refine .one hm fun pc => ?_
  rw [execute, State.pop_cons rfl, hv]
  show (s.at ⟨locals, stack⟩ pc).deliver (elementAddress p (s.at ⟨locals, stack⟩ pc) a ty n) = _
  rw [h]
  rfl

end Stackify.Machine

namespace Stackify.Lower

open Code (Op Method Program lastOffset blockAt)
open Machine (Value State Region Does CodeAt Steps fieldAddress)
open Stackify.Flow (Node NodeId Ref AddressStep addressPath walk? Leads)
open Ssa (Module)
open List Option

namespace Context

variable {c : Context} {p : Program} {m : Method} {s : State} {locals : List Value} {ops : List Op}
  {v : Ref → Int} {step : AddressStep} {path : List AddressStep} {offset : Nat}

/-- The integer that an operand has, for a frame with the given locals. -/
def index? (c : Context) (p : Program) (s : State) (locals : List Value) (r : Ref) : Option Int :=
  (c.read? p s locals r).bind Value.toInt?

theorem index?_zero {r : Ref} (hr : r.constInt? = some 0) {n : Int}
    (hn : c.index? p s locals r = some n) : n = 0 := by
  unfold Ref.constInt? at hr
  split at hr
  · next ty k =>
    cases hr
    obtain ⟨w, hread, hw⟩ := bind_eq_some_iff.mp hn
    obtain ⟨place, hplace, hread⟩ := bind_eq_some_iff.mp hread
    obtain ⟨k', hk, rfl⟩ := map_eq_some_iff.mp hplace
    cases hread
    simp only [constant?] at hk
    split at hk
    · cases hk
      cases hw
      rfl
    · next w _ =>
      cases hk
      cases hw
      cases w <;> rfl
    · cases hk
  · cases hr

/-- The code of a step moves an address in byte memory. -/
theorem StepCode.advances (h : c.Framed p m s locals) (hc : StepCode c p.consts step ops)
    (hs : ∀ r, step.index? = some r → ∀ j, ¬ Stacked c r j)
    (hv : ∀ r, step.index? = some r → c.index? p s locals r = some (v r)) {move : Int} {stop : Nat}
    (hmove : step.Moves c.declared.resolver p.records v move) (hstop : (offset : Int) + move = stop)
    (hle : stop ≤ lastOffset) (region : Region) (stack : List Value) :
    Does p m s ops ⟨locals, .pointer (.ofMemory region offset) :: stack⟩ ⟨locals,
      .pointer (.ofMemory region stop) :: stack⟩ := by
  have moves {r : Ref} {q : List Op} {ty : Code.Ty} (hq : Pushes c p.consts r q)
      (hs : ∀ j, ¬ Stacked c r j) (hv : c.index? p s locals r = some (v r))
        (hstop : (offset : Int) + v r * (ty.sizeIn p.records : Nat) = stop) :
      Does p m s (q ++ [.elementAddress ty]) ⟨locals, .pointer (.ofMemory region offset) :: stack⟩
        ⟨locals, .pointer (.ofMemory region stop) :: stack⟩ := by
    obtain ⟨w, hread, hw⟩ := bind_eq_some_iff.mp hv
    have hfloat (k x) : w ≠ .float k x := by
      rintro rfl
      cases hw
    exact (hq.loads_read h hs hread hfloat _).append
      (Machine.does_elementAddress h.method hw fun _ => Machine.elementAddress_memory hstop hle)
  cases hmove with
  | stride hl =>
    cases hc with
    | stay hzero =>
      rw [index?_zero hzero (hv _ rfl), Int.zero_mul, Int.add_zero, Int.natCast_inj] at hstop
      rw [hstop]
      exact .nil _
    | stride _ hq hl' =>
      cases hl.symm.trans hl'
      exact moves hq (hs _ rfl) (hv _ rfl) hstop
  | element hl =>
    cases hc with
    | element hq hl' =>
      cases hl.symm.trans hl'
      exact moves hq (hs _ rfl) (hv _ rfl) hstop
  | @field id field start record hrecord hstart =>
    cases hc
    obtain rfl : offset + start = stop := by omega
    refine .unary h.method (f := fun a => fieldAddress p a id field) (fun _ => rfl) ?_
    simp only [fieldAddress, hrecord, hstart]

/-- The code of a path adds up what its steps move, as long as all addresses on the way are
words. -/
theorem advances_all (h : c.Framed p m s locals) (hc : Concat (StepCode c p.consts) path ops)
    (hs : ∀ step ∈ path, ∀ r, step.index? = some r → ∀ j, ¬ Stacked c r j)
    (hv : ∀ step ∈ path, ∀ r, step.index? = some r → c.index? p s locals r = some (v r))
    {moves : List Int}
    (hmoves : Forall₂ (AddressStep.Moves c.declared.resolver p.records v) path moves)
    (hwords : ∀ k, 0 ≤ offset + (moves.take k).sum ∧ offset + (moves.take k).sum < 2 ^ 64)
    (region : Region) (stack : List Value) : ∃ stop : Nat, (stop : Int) = offset + moves.sum ∧
      Does p m s ops ⟨locals, .pointer (.ofMemory region offset) :: stack⟩ ⟨locals,
        .pointer (.ofMemory region stop) :: stack⟩ := by
  induction hc generalizing offset moves with
  | nil =>
    cases hmoves
    exact ⟨offset, by simp, .nil _⟩
  | @cons step path q q' hstep _ ih =>
    obtain _ | ⟨hmove, hmoves⟩ := hmoves
    rename_i move moves
    rw [forall_mem_cons] at hs hv
    have hfirst := hwords 1
    simp only [take_succ_cons, take_zero, sum_cons, sum_nil, Int.add_zero] at hfirst
    obtain ⟨next, hnext⟩ := Int.eq_ofNat_of_zero_le hfirst.1
    have hle : next ≤ lastOffset := by
      have : lastOffset = 2 ^ 64 - 1 := by decide
      omega
    have hdoes := hstep.advances h hs.1 hv.1 hmove hnext hle region stack
    obtain ⟨stop, hstop, hrest⟩ := @ih next hs.2 hv.2 moves hmoves fun k => by
      have hk := hwords (k + 1)
      rwa [take_succ_cons, sum_cons, ← Int.add_assoc, hnext] at hk
    exact ⟨stop, by rw [hstop, sum_cons, ← Int.add_assoc, hnext], hdoes.append hrest⟩

/-- Code computes addresses in byte memory. It begins with the address that an operand has and moves
by each step of a path; if all addresses on the way are words, it ends with the address where they
lead. -/
def Addresses (c : Context) (p : Program) (m : Method) (base : Ref) (path : List AddressStep)
    (code : List Op) : Prop :=
  ∀ (s : State) (locals stack : List Value) (region : Region) (offset : Nat) (v : Ref → Int),
    p.methods[s.current.method]? = some m → c.graph.function.params.length ≤ s.current.args.length →
    (∀ id i, c.slot id = .inLocal i → i < locals.length) →
    c.read? p s locals base = some (.pointer (.ofMemory region offset)) →
    (∀ step ∈ path, ∀ r, step.index? = some r → c.index? p s locals r = some (v r)) →
    ∃ moves, Forall₂ (AddressStep.Moves c.declared.resolver p.records v) path moves ∧
      ((∀ k, 0 ≤ offset + (moves.take k).sum ∧ offset + (moves.take k).sum < 2 ^ 64) →
        ∃ stop : Nat, (stop : Int) = offset + moves.sum ∧
          Does p m s code ⟨locals, stack⟩ ⟨locals, .pointer (.ofMemory region stop) :: stack⟩)

theorem NodeCode.of_getElementPtr {z : Surround} {id : NodeId} {n : Node} {rs : List Code.Region}
    {target : Ssa.Ty} (hc : NodeCode c z id n ops rs) (hk : n.kind = .getElementPtr path target) :
    ∃ base rest q q', n.operands = base :: rest ∧ Pushes c z.consts base q ∧ Concat
      (StepCode c z.consts) path q' ∧ ops = (q ++ q') ++ c.storeCode id := by
  cases hc with
  | result hq =>
    cases hq with
    | address hk' ho hq hsteps =>
      cases hk.symm.trans hk'
      exact ⟨_, _, _, _, ho, hq, hsteps, rfl⟩
    | _ => simp_all
  | jump hj => cases hj <;> simp_all
  | _ => simp_all

end Context

/-! ## Declared modules -/

/-- **Address computations are exact.** There is a path for a known type and a list of indices
exactly if the walk into the type along the indices behind the first one succeeds; it then ends at
the same type, and each of its steps is the one from the type that was reached before. The code of
an address computation takes an address in byte memory by that path: its first index moves over
whole objects, further ones to fields, by their offsets, and over elements. -/
theorem addresses_exact {md : Module} {o : Options} {d : Declared}
    (hplain : ∀ t ∈ md.types, t.Plain) (hd : declare md o = .ok d) :
    (∀ ty, d.resolver.Knows ty → ∀ indices,
      (∀ target, (∃ path, addressPath d.resolver ty indices = .ok (path, target)) ↔
        walk? md ty indices.tail = some target) ∧
      ∀ path target, addressPath d.resolver ty indices = .ok (path, target) →
        Leads md d.resolver ty indices path target) ∧
    ∀ p, lower md o = .ok p → ∀ (k : Nat) (entry : MethodEntry), d.methods[k]? = some entry →
      ∀ (c : Context) (types : List Code.Ty), c.declared = d → d.graph entry = .ok c.graph →
      assignSlots d c.graph = .ok (c.slots, types) →
      ∀ (i : Nat) (b : Flow.Block), c.graph.blocks[i]? = some b →
        ∀ id ∈ b.instructions, ∀ n, c.graph.node? id = some n →
      n.opcode = .getElementPtr →
      ∃ x ∈ entry.function.operations, ∃ ty inbounds base indices path target m pc code,
        n.Computes d.resolver x ∧ x.info = .gep ty inbounds ∧ d.resolver.Knows ty ∧
          n.operands = base :: indices ∧
        addressPath d.resolver ty indices = .ok (path, target) ∧ p.methods[k]? = some m ∧
        CodeAt m pc (code ++ c.storeCode id) ∧
        (∀ j < code.length, blockAt c.graph.blocks.length m.body.ops (pc + j) = some i) ∧
          c.Addresses p m base path code := by
  have hfaithful := (declared_reached hplain hd).faithful (plainFields_of_types hplain)
  have hdeclaration := declare_declaration hd
  refine ⟨fun ty hty indices => ⟨fun target => Flow.addressPath_target hfaithful hty,
    fun path target => Flow.addressPath_leads hfaithful hty⟩, ?_⟩
  rintro p hp k entry he c types rfl hg hslots i b hb id hid n hn hop
  obtain ⟨_, hd', hcode⟩ := lower_eq_ok hp
  cases hd.symm.trans hd'
  obtain ⟨m, hm, hmethod⟩ := hcode.method he
  obtain ⟨blocks, nodes, moved, hshape⟩ := Declared.graph_shape hg
  obtain ⟨x, hx, hc⟩ := hshape.computes hn
  obtain ⟨path, target, hk⟩ := hc.kind_getElementPtr (hc.opcode.symm.trans hop)
  obtain ⟨ty, inbounds, hinfo, hpath⟩ := hc.address_source hk
  have hty : c.declared.resolver.Knows ty := by
    refine resolveModule_knows hdeclaration.resolved (hdeclaration.index he).2
      (mem_append_right _ ?_)
    exact mem_flatMap.mpr ⟨x, hx, by simp [Ssa.Operation.types, hinfo, Ssa.Info.types]⟩
  obtain ⟨z, pc, _, _, hconsts, -, hnode, hat, hin⟩ :=
    Context.node_code (hmethod.context hg hslots) hb hid hn
  obtain ⟨base, indices, q, q', ho, hq, hsteps, rfl⟩ := hnode.of_getElementPtr hk
  rw [ho, tail_cons] at hpath
  refine ⟨x, hx, ty, inbounds, base, indices, path, target, m, pc, q ++ q', hc, hinfo, hty, ho,
    hpath, hm, hat, ?_, ?_⟩
  · intro j hj
    refine hin j ?_
    rw [length_append]
    omega
  · intro s locals stack region offset v hs hargs hroom hread hv
    have hno := Context.not_stacked hshape hslots hn (by rw [hk]; rfl)
    have hadmissible :=
      Flow.addressPath_admissible (walkable (resolveModule_settled hdeclaration.resolved)) hty hpath
    obtain ⟨moves, hmoves⟩ := Flow.exists_moves_all (resolveModule_complete hdeclaration.resolved)
      (Flow.addressPath_selects hpath) hadmissible.2 v
    rw [← hcode.records] at hmoves
    refine ⟨moves, hmoves, fun hwords => ?_⟩
    rw [hconsts] at hq hsteps
    obtain ⟨stop, hstop, hdoes⟩ := Context.advances_all ⟨hs, hargs, hroom⟩ hsteps
      (fun step hstep r hr => hno r (hc.address_operand hk step hstep r hr)) hv hmoves hwords
        region stack
    have hbase := hq.loads_read ⟨hs, hargs, hroom⟩ (hno base (by simp [ho])) hread (by simp) stack
    exact ⟨stop, hstop, hbase.append hdoes⟩

/-- A cell of a row, both with indices that are arguments. The row ends with a packed aggregate. -/
def gridCell : Module where
  structs := [⟨"grid::Row", [.int 64, .literal [.int 8, .array (.int 32) 3] true], false⟩]
  functions := [{
    name := "cell"
    type := ⟨.pointer, [.pointer, .int 64, .int 32], false⟩
    params := [{ id := 0, ty := .pointer }, { id := 1, ty := .int 64 }, { id := 2, ty := .int 32 }]
    blocks := [{
      id := 0
      instructions := [
        { id := 3, opcode := .getElementPtr, ty := .pointer,
          operands :=
            [.value 0, .value 1, .const (.int (.int 32) 1), .const (.int (.int 32) 1), .value 2],
          info := .gep (.struct "grid::Row") true },
        { id := 4, opcode := .ret, ty := .void, operands := [.value 3] }] }] }]

theorem gridCell_address : ∃ (p : Program) (c : Context) (m : Method) (pc : Nat) (code : List Op),
    declare gridCell {} = .ok c.declared ∧ lower gridCell {} = .ok p ∧ p.methods[0]? = some m ∧
    CodeAt m pc (code ++ c.storeCode 0) ∧
    ∀ (s : State) (locals stack : List Value)
      (region : Region), p.methods[s.current.method]? = some m →
        s.current.args = [.pointer (.ofMemory region 100), .int .w64 2, .int .w32 (-1)] →
      (∀ id i, c.slot id = .inLocal i → i < locals.length) →
      Does p m s code ⟨locals, stack⟩ ⟨locals,
        .pointer (.ofMemory region (100 + 2 * 24 + 8 + 1 - 4)) :: stack⟩ := by
  obtain ⟨p, hp, hlayout⟩ :=
    toOption_map_eq_some.mp (show (lower gridCell {}).toOption.map (fun p =>
      ((Code.Ty.record 0).sizeIn p.records, p.records.map fun r => (r.layout p.records).offsets)) =
    some (24, [[0, 8], [0, 1]]) by decide +kernel)
  obtain ⟨d, hd, hparts⟩ :=
    toOption_map_eq_some.mp (show (declare gridCell {}).toOption.map (fun d => do
      let entry ← d.methods[0]?
      let g ← (d.graph entry).toOption
      let a ← (assignSlots d g).toOption
      let b ← g.blocks[0]?
      let n ← g.node? 0
      some <| decide <| b.instructions.head? = some 0 ∧ n.opcode = .getElementPtr ∧
        n.operands = [.key (.value 0), .key (.value 1), .const (.int (.int 32) 1),
          .const (.int (.int 32) 1), .key (.value 2)] ∧
        entry.function.operations.map (·.info.types) = [[.struct "grid::Row"], []] ∧
        g.function.params.length = 3 ∧ (∀ j < 3, g.paramIndex? j = some j) ∧
        (addressPath d.resolver (.struct "grid::Row") n.operands.tail).toOption.map Prod.fst =
          some [.stride (.struct "grid::Row") (.key (.value 1)), .field 0 1, .field 1 1,
            .element (.int 32) (.key (.value 2))] ∧
        d.resolver.lookup? (.struct "grid::Row") = some (.record 0) ∧
          d.resolver.lookup? (.int 32) = some (.int .w32)) =
    some (some true) by decide +kernel)
  obtain ⟨entry, he, hparts⟩ := bind_eq_some_iff.mp hparts
  obtain ⟨g, hg, hparts⟩ := bind_eq_some_iff.mp hparts
  obtain ⟨⟨slots, types⟩, hslots, hparts⟩ := bind_eq_some_iff.mp hparts
  obtain ⟨b, hb, hparts⟩ := bind_eq_some_iff.mp hparts
  obtain ⟨n, hn, hparts⟩ := bind_eq_some_iff.mp hparts
  obtain ⟨hid, hop, ho, htypes, hparams, hindex, hpath, hrow, hint⟩ :=
    of_decide_eq_true (some.inj hparts)
  obtain ⟨x, hx, ty, inbounds, base, indices, path, target, m, pc, code, -, hinfo, -, ho', hpath',
      hm, hat, -, hruns⟩ :=
    (@addresses_exact gridCell {} d (by decide) hd).2 p hp 0 entry he ⟨d, g, slots⟩ types rfl
      (toOption_eq_some.mp hg) (toOption_eq_some.mp hslots) 0 b hb 0 (mem_of_mem_head? hid) n hn hop
  obtain ⟨rfl, rfl⟩ := cons.inj (ho.symm.trans ho')
  obtain rfl : ty = .struct "grid::Row" := by
    have hty : x.info.types ∈ entry.function.operations.map (·.info.types) := List.mem_map_of_mem hx
    rw [htypes, hinfo] at hty
    simpa [Ssa.Info.types] using hty
  rw [ho, tail_cons, hpath'] at hpath
  cases hpath
  refine ⟨p, ⟨d, g, slots⟩, m, pc, code, hd, hp, hm, hat, ?_⟩
  intro s locals stack region hs hargs hroom
  have hread (j : Nat) (hj : j < 3) : Context.read? ⟨d, g, slots⟩ p s locals (.key (.value j)) =
      s.current.args[j]? := by
    simp [Context.read?, Context.place?, Context.param?, hindex j hj, Place.read?]
  obtain ⟨moves, hmoves, hdoes⟩ := hruns s locals stack region 100
    (fun r => if r = .key (.value 1) then 2 else -1) hs (by simp [hparams, hargs]) hroom
      (by simp [hread, hargs])
    (by simp [AddressStep.index?, Context.index?, hread, hargs, Value.toInt?])
  have hfield {id field start : Nat} {record : Code.Record} (hrecord : p.records[id]? = some record)
      (hstart : (record.layout p.records).offsets[field]? = some start) : [[0, 8], [0, 1]][id]?.bind
        (·[field]?) = some start := by
    rw [← (Prod.mk.inj hlayout).2, getElem?_map, hrecord]
    exact hstart
  obtain rfl : moves = [2 * 24, 8, 1, -1 * 4] := by
    obtain _ | ⟨hstride, _ | ⟨houter, _ | ⟨hinner, _ | ⟨helement, _ | _⟩⟩⟩⟩ := hmoves
    cases hstride with | stride hl =>
    cases houter with | field hrecord hstart =>
    cases hinner with | field hrecord' hstart' =>
    cases helement with | element hl' =>
    cases hrow.symm.trans hl
    cases hint.symm.trans hl'
    cases hfield hrecord hstart
    cases hfield hrecord' hstart'
    rw [(Prod.mk.inj hlayout).1]
    rfl
  obtain ⟨stop, hstop, hdoes⟩ := hdoes fun k => by
    rcases k with _ | _ | _ | _ | k <;> simp [List.take]
  obtain rfl : stop = 153 := Int.ofNat.inj hstop
  exact hdoes

end Stackify.Lower
