import Stackify.Proofs.NodeRuns

/-!
The copies on an edge between blocks, for values of every kind.

`place? c r` says where the value of an operand is kept, and `read?` takes it from there. The copies
on an edge give every phi of its target what its operand read before the first of them was made,
also if phis read each other, and change nothing else (`edge_copies_parallel`). The one exception
are constants: zeros of both signs share an entry of the pool, and a phi may get the other one
(`negative_zero_copied_without_sign`).
-/

namespace Stackify.Flow

/-- A node is a phi of the block at a position. -/
def Graph.PhiAt (g : Graph) (position : Nat) (id : NodeId) (n : Node) : Prop :=
  ∃ b, g.blocks[position]? = some b ∧ id ∈ b.instructions ∧ g.node? id = some n ∧ n.opcode = .phi

/-- The operand that a phi takes from the block at a position. -/
def Node.taken? (n : Node) (source : Nat) : Option Ref :=
  match n.kind with
  | .phi _ incoming => (incoming.find? fun e => e.1 = source).map (·.2)
  | _ => none

variable {s : Setting} {f : Ssa.Function} {g : Graph} {blocks : List Block} {nodes : List Node}
  {moved : List (Ssa.BlockId × NodeId)} {source target : Nat} {id : NodeId} {n : Node} {b : Block}

theorem Shape.kind_phiAt (h : Shape s f g blocks nodes moved) (hphi : g.PhiAt target id n) :
    ∃ sources incoming, n.kind = .phi sources incoming := by
  obtain ⟨_, -, -, hn, ho⟩ := hphi
  obtain ⟨x, -, hc⟩ := h.computes hn
  obtain ⟨sources, incoming, -, -, hk⟩ := hc.kind_phi (hc.opcode ▸ ho)
  exact ⟨sources, incoming, hk⟩

/-- On an edge to its block, a phi takes one of its operands. -/
theorem Shape.taken (h : Shape s f g blocks nodes moved) (hb : g.blocks[source]? = some b)
    (hedge : target ∈ b.successors) (hphi : g.PhiAt target id n) :
    ∃ r, n.taken? source = some r := by
  obtain ⟨sources, incoming, hk⟩ := h.kind_phiAt hphi
  obtain ⟨t, ht, hid, hn, -⟩ := hphi
  obtain ⟨n', hn', hblock⟩ := h.placed ht hid
  cases hn.symm.trans hn'
  have hincoming := h.incoming hn hk
  rw [hblock, ht, Option.elim_some] at hincoming
  obtain ⟨i, hi⟩ := List.getElem?_of_mem ((h.predecessors target t ht source).mpr ⟨b, hb, hedge⟩)
  obtain ⟨e, he, hsource, -⟩ := forall₂_some_left hincoming hi
  have hfind : (incoming.find? fun e => e.1 = source).isSome :=
    List.find?_isSome.mpr ⟨e, List.mem_of_getElem? he, decide_eq_true hsource⟩
  obtain ⟨e', he'⟩ := Option.isSome_iff_exists.mp hfind
  exact ⟨e'.2, by rw [Node.taken?, hk]; exact Option.map_eq_some_iff.mpr ⟨e', he', rfl⟩⟩

end Stackify.Flow

namespace Stackify.Code

/-- Constants that are equal as numbers are one, or floating-point numbers. -/
theorem Const.eq_or_float_of_same {k k' : Const} (h : k'.same k = true) :
    k' = k ∨ ∃ kind x y, k = .float kind x ∧ k' = .float kind y ∧ (y == x) = true := by
  cases k' <;> cases k <;> simp_all [Const.same]

end Stackify.Code

namespace Stackify.Machine

open Code (Op Method Program)
open List

/-- Locals after writing values to some of them; of several values for one local, the first one
stays. -/
def write : List Nat → List Value → List Value → List Value
  | i :: into, v :: values, locals => (write into values locals).set i v
  | _, _, locals => locals

variable {into : List Nat} {values locals : List Value} {i : Nat} {v : Value}

@[simp] theorem length_write : (write into values locals).length = locals.length := by
  fun_induction write into values locals with
  | case1 _ _ _ _ _ ih => rw [length_set, ih]
  | case2 => rfl

/-- What is not written stays. -/
theorem write_of_notMem (h : i ∉ into) : (write into values locals)[i]? = locals[i]? := by
  fun_induction write into values locals with
  | case1 k _ _ _ _ ih =>
    obtain ⟨hne, hi⟩ := not_or.mp (mt mem_cons.mpr h)
    rw [getElem?_set_ne (Ne.symm hne), ih hi]
  | case2 => rfl

/-- Different locals get their values independently of each other. -/
theorem write_at (hinto : into.Nodup) {k : Nat} (hi : into[k]? = some i) (hv : values[k]? = some v)
    (hroom : i < locals.length) : (write into values locals)[i]? = some v := by
  fun_induction write into values locals generalizing k with
  | case1 j into w values locals ih =>
    obtain ⟨hj, hinto⟩ := nodup_cons.mp hinto
    cases k with
    | zero =>
      cases hi
      cases hv
      exact getElem?_set_self (by rwa [length_write])
    | succ k =>
      have hne : j ≠ i := fun h => hj (h ▸ mem_of_getElem? hi)
      rw [getElem?_set_ne hne]
      exact ih hinto hi hv hroom
  | case2 into values _ hnil =>
    cases into with
    | nil => simp at hi
    | cons j into =>
      cases values with
      | nil => simp at hv
      | cons w values => exact absurd rfl (hnil j into w values rfl)

variable {p : Program} {m : Method} {s : State} {stack : List Value}

theorem does_loadLocalAddress (hm : p.methods[s.current.method]? = some m)
    (hi : i < locals.length) :
    Does p m s [.loadLocalAddress i] ⟨locals, stack⟩ ⟨locals, .pointer (.ofLocal s.depth i []) ::
      stack⟩ := by
  refine .push hm fun pc => ?_
  show State.deliver _ (((s.at ⟨locals, stack⟩ pc).local? s.depth i).map _) = _
  rw [State.local?_at (getElem?_eq_getElem hi)]
  rfl

/-- Storing takes values from the stack in the opposite order of pushing them. -/
theorem does_storeLocals (hm : p.methods[s.current.method]? = some m)
    (hlen : into.length = values.length) (hroom : ∀ i ∈ into, i < locals.length) :
    Does p m s (into.reverse.map .storeLocal) ⟨locals, values.reverse ++ stack⟩
      ⟨write into values locals, stack⟩ := by
  induction into generalizing values stack with
  | nil =>
    cases length_eq_zero_iff.mp hlen.symm
    exact .nil _
  | cons i into ih =>
    obtain ⟨v, values, rfl⟩ := exists_cons_of_length_eq_add_one hlen.symm
    obtain ⟨hi, hroom⟩ := forall_mem_cons.mp hroom
    rw [reverse_cons, map_append, reverse_cons, append_assoc]
    exact (ih (Nat.succ.inj hlen) hroom).append (does_storeLocal hm (by rwa [length_write]))

end Stackify.Machine

namespace Stackify.Lower

open Code (Op Const Method Program Ty)
open Machine (Value State Does constValue roundTo write)
open Stackify.Flow (Node NodeId Ref Location Shape Setting Block)
open Ssa (BlockId Function)
open List Option

/-- Where a value is kept. -/
inductive Place where
  | argument (i : Nat)
  | inLocal (i : Nat)
  /-- The value is the address of a local. -/
  | localAddress (i : Nat)
  | constant (k : Const)
  | static (i : Nat)
  | method (i : Nat)

/-- The value at a place, for a frame with the given locals. -/
def Place.read? (p : Program) (s : State) (locals : List Value) : Place → Option Value
  | .argument i => s.current.args[i]?
  | .inLocal i => locals[i]?
  | .localAddress i => some (.pointer (.ofLocal s.depth i []))
  | .constant k => some (constValue p.records k)
  | .static i => some (.pointer (.ofMemory (.static i) 0))
  | .method i => some (.method i)

namespace Context

/-- The place of the result of a node. -/
def nodePlace? (c : Context) (id : NodeId) : Option Place :=
  match c.slot id, (c.graph.node? id).map Node.kind with
  | .inLocal i, some (.alloca _) => some (.localAddress i)
  | .inLocal i, _ => some (.inLocal i)
  | _, _ => none

/-- Where the value of an operand is kept. -/
def place? (c : Context) : Ref → Option Place
  | .key k =>
    match c.param? (.key k) with
    | some i => some (.argument i)
    | none => (c.graph.resolve? (.key k)).bind c.nodePlace?
  | .const k => (c.constant? k).map .constant
  | .global name => (c.declared.staticIndex? name).map .static
  | .function name => (c.declared.method? name).map fun e => .method e.index
  | .block _ => none

/-- The value of an operand, for a frame with the given locals. -/
def read? (c : Context) (p : Program) (s : State) (locals : List Value) (r : Ref) : Option Value :=
  (c.place? r).bind (Place.read? p s locals)

/-- What is loaded for the value of an operand: the value itself, or for a constant a number that is
equal to it. -/
def LoadedFor (r : Ref) (v w : Value) : Prop :=
  w = v ∨ ∃ ty k x y, r = .const (.float ty x) ∧ (y == x) = true ∧ v = .float k (roundTo k x) ∧
    w = .float k (roundTo k y)

/-- A frame of the method of a function. -/
structure Framed (c : Context) (p : Program) (m : Method) (s : State) (locals : List Value) :
    Prop where
  method : p.methods[s.current.method]? = some m
  args : c.graph.function.params.length ≤ s.current.args.length
  room : ∀ id i, c.slot id = .inLocal i → i < locals.length

variable {c : Context} {p : Program} {m : Method} {s : State} {locals : List Value} {r : Ref}
  {ops : List Op} {pool : List Const} {k : Ssa.Constant} {k' : Const} {id : NodeId} {n : Node}

theorem Framed.of_slots {types : List Ty}
    (hslots : assignSlots c.declared c.graph = .ok (c.slots, types))
    (hm : p.methods[s.current.method]? = some m)
    (hargs : c.graph.function.params.length ≤ s.current.args.length)
    (hlocals : types.length ≤ locals.length) : c.Framed p m s locals :=
  ⟨hm, hargs, fun _ _ hslot => Nat.lt_of_lt_of_le (c.slot_lt hslots hslot) hlocals⟩

/-! ## Operands -/

/-- What has code of its own is kept somewhere. -/
theorem Pushes.place (hp : Pushes c pool r ops) (hs : ∀ j, ¬ Stacked c r j) :
    (c.place? r).isSome := by
  cases hp with
  | argument hi =>
    obtain ⟨q, -, rfl⟩ := param?_eq_some hi
    simp [place?, hi]
  | address hpar hres hslot hkind => simp [place?, nodePlace?, hpar, hres, hslot, hkind]
  | value hpar hres hslot hkind => simp [place?, nodePlace?, hpar, hres, hslot]
  | stacked hpar hres hslot => exact absurd ⟨hpar, hres, hslot⟩ (hs _)
  | constant hk => simp [place?, hk]
  | static hi => simp [place?, hi]
  | method he => simp [place?, he]

/-- A constant of the pool is the one that was asked for, or a number that is equal to it. -/
theorem loadedFor_of_pooled {i : Nat} (hk : c.constant? k = some k') (hi : Pooled pool i k') :
    ∃ k'', pool[i]? = some k'' ∧ LoadedFor (.const k) (constValue p.records k')
      (constValue p.records k'') := by
  obtain ⟨k'', hk'', hsame⟩ := hi
  refine ⟨k'', hk'', ?_⟩
  rcases hsame with rfl | hsame
  · exact .inl rfl
  rcases Const.eq_or_float_of_same hsame with rfl | ⟨kind, x, y, rfl, rfl, hxy⟩
  · exact .inl rfl
  cases k with
  | float ty x' =>
    simp only [constant?] at hk
    split at hk
    · cases hk
      exact .inr ⟨ty, kind, x, y, rfl, hxy, rfl, rfl⟩
    · cases hk
  | int ty n =>
    simp only [constant?] at hk
    split at hk <;> cases hk
  | null | noneToken => cases hk
  | undef ty | poison ty | zero ty =>
    simp only [constant?] at hk
    split at hk <;> cases hk

/-- The code of an operand pushes its value. -/
theorem Pushes.loads (h : c.Framed p m s locals) (hp : Pushes c p.consts r ops)
    (hs : ∀ j, ¬ Stacked c r j) : ∃ v w, c.read? p s locals r = some v ∧ LoadedFor r v w ∧
      ∀ stack, Does p m s ops ⟨locals, stack⟩ ⟨locals, w :: stack⟩ := by
  cases hp with
  | @argument _ i hi =>
    obtain ⟨q, hq, rfl⟩ := param?_eq_some hi
    have hlt : i < s.current.args.length := Nat.lt_of_lt_of_le (lt_of_getElem? hq) h.args
    have hv := getElem?_eq_getElem hlt
    exact ⟨_, _, by simp [read?, place?, hi, Place.read?, hv], .inl rfl, fun _ =>
      Machine.does_loadArg h.method hv⟩
  | @address k id i ty hpar hres hslot hkind =>
    refine ⟨_, _, by simp [read?, place?, nodePlace?, hpar, hres, hslot, hkind, Place.read?]; rfl,
      .inl rfl, fun stack => ?_⟩
    exact Machine.does_loadLocalAddress h.method (h.room id i hslot)
  | @value k id i hpar hres hslot hkind =>
    have hv := getElem?_eq_getElem (h.room id i hslot)
    exact ⟨_, _, by simp [read?, place?, nodePlace?, hpar, hres, hslot, Place.read?, hv], .inl rfl,
      fun _ => Machine.does_loadLocal h.method hv⟩
  | stacked hpar hres hslot => exact absurd ⟨hpar, hres, hslot⟩ (hs _)
  | constant hk hi =>
    obtain ⟨k'', hk'', hloaded⟩ := loadedFor_of_pooled (p := p) hk hi
    exact ⟨_, _, by simp [read?, place?, hk, Place.read?], hloaded, fun _ =>
      Machine.does_loadConst h.method hk''⟩
  | static hi =>
    exact ⟨_, _, by simp [read?, place?, hi, Place.read?], .inl rfl, fun _ =>
      .push h.method fun _ => rfl⟩
  | method he =>
    exact ⟨_, _, by simp [read?, place?, he, Place.read?], .inl rfl, fun _ =>
      .push h.method fun _ => rfl⟩

/-- The code of an operand pushes its value as it is, unless it is a floating-point number. -/
theorem Pushes.loads_read (h : c.Framed p m s locals) (hp : Pushes c p.consts r ops)
    (hs : ∀ j, ¬ Stacked c r j) {v : Value} (hread : c.read? p s locals r = some v)
    (hv : ∀ k x, v ≠ .float k x) (stack : List Value) :
    Does p m s ops ⟨locals, stack⟩ ⟨locals, v :: stack⟩ := by
  obtain ⟨v', w, hread', hloaded, hdoes⟩ := hp.loads h hs
  cases hread.symm.trans hread'
  rcases hloaded with rfl | ⟨_, _, _, _, -, -, hfloat, -⟩
  · exact hdoes stack
  · exact absurd hfloat (hv _ _)

/-! ## Emission -/

variable {l : Location} {e : Emission} {source target : Nat}
  {phis : List (NodeId × List (Nat × Ref))}

theorem resolved_eq_pure {ty : Ssa.Ty} {t : Ty} (h : c.declared.resolver.lookup? ty = some t) :
    c.resolved l ty = pure t := by
  rw [resolved, h]

theorem constant_eq_pure (h : c.constant? k = some k') : c.constant l k = pure k' := by
  cases k with
  | int ty n =>
    simp only [constant?] at h
    split at h
    · next ht =>
      cases h
      rw [constant, resolved_eq_pure ht, pure_bind]
    · next ht =>
      cases h
      rw [constant, resolved_eq_pure ht, pure_bind]
    · cases h
  | float ty x =>
    simp only [constant?] at h
    split at h
    · next ht =>
      cases h
      obtain ⟨t, ht, hkind⟩ := bind_eq_some_iff.mp ht
      rw [constant, resolved_eq_pure ht, pure_bind, hkind]
    · cases h
  | null | noneToken =>
    cases h
    rfl
  | undef ty | poison ty | zero ty =>
    simp only [constant?] at h
    split at h
    · next ht =>
      cases h
      rw [constant, constant.ofType, resolved_eq_pure ht, pure_bind]
    · next t hvoid ht =>
      cases h
      rw [constant, constant.ofType, resolved_eq_pure ht, pure_bind]
      cases t
      case void => exact absurd rfl hvoid
      all_goals rfl
    · cases h

/-- Code can be emitted for what is kept somewhere. -/
theorem pushOperand_ok (h : (c.place? r).isSome) : ∃ e', c.pushOperand l r e = .ok () e' := by
  obtain ⟨a, ha⟩ := isSome_iff_exists.mp h
  cases r with
  | key k =>
    cases hpar : c.param? (.key k) with
    | some i => exact ⟨_, by rw [pushOperand, hpar]; rfl⟩
    | none =>
      simp only [place?, hpar] at ha
      obtain ⟨id, hid, ha⟩ := bind_eq_some_iff.mp ha
      rw [pushOperand, hpar, hid]
      dsimp only [pushNode]
      unfold nodePlace? at ha
      split at ha
      · next hs hk => exact ⟨_, by rw [hs, hk]; rfl⟩
      · next hs hk => exact ⟨_, by simp only [hs]; rfl⟩
      · cases ha
  | const k =>
    obtain ⟨k', hk, -⟩ := map_eq_some_iff.mp ha
    exact ⟨_, by rw [pushOperand, constant_eq_pure hk, pure_bind]; rfl⟩
  | global name =>
    obtain ⟨i, hi, -⟩ := map_eq_some_iff.mp ha
    exact ⟨_, by rw [pushOperand, hi]; rfl⟩
  | function name =>
    obtain ⟨entry, hi, -⟩ := map_eq_some_iff.mp ha
    exact ⟨_, by rw [pushOperand, hi]; rfl⟩
  | block id => cases ha

/-- A phi has a local, and what it takes from a block is kept somewhere. -/
def Copyable (c : Context) (source : Nat) (phi : NodeId × List (Nat × Ref)) : Prop :=
  ∃ i j r, c.slot phi.1 = .inLocal i ∧ (phi.2.find? fun e => e.1 = source) = some (j, r) ∧
    (c.place? r).isSome

theorem pushIncoming_ok (h : ∀ phi ∈ phis, c.Copyable source phi) :
    ∃ into e', c.pushIncoming l source phis e = .ok into e' := by
  induction phis generalizing e with
  | nil => exact ⟨[], e, rfl⟩
  | cons phi phis ih =>
    obtain ⟨⟨i, j, r, hslot, hfind, hplace⟩, h⟩ := forall_mem_cons.mp h
    obtain ⟨e₁, hpush⟩ := c.pushOperand_ok (l := l) (e := e) hplace
    obtain ⟨into, e₂, hrest⟩ := ih (e := e₁) h
    refine ⟨i :: into, e₂, ?_⟩
    rw [pushIncoming, hfind, hslot]
    exact run_bind_eq_ok.mpr ⟨(), e₁, hpush, run_bind_eq_ok.mpr ⟨into, e₂, hrest, rfl⟩⟩

theorem storeAll_ok (into : List Nat) :
    ∃ e', (into.forM fun i => emit (.storeLocal i)) e = .ok () e' := by
  induction into generalizing e with
  | nil => exact ⟨e, rfl⟩
  | cons i into ih =>
    obtain ⟨e', h⟩ := ih
    exact ⟨e', run_bind_eq_ok.mpr ⟨(), _, rfl, h⟩⟩

theorem copiesInto_ok (h : ∀ phi ∈ c.phis target, c.Copyable source phi) :
    ∃ e', c.copiesInto l source target e = .ok () e' := by
  obtain ⟨into, e₁, hpush⟩ := pushIncoming_ok (l := l) (e := e) h
  obtain ⟨e₂, hstore⟩ := storeAll_ok (e := e₁) into.reverse
  exact ⟨e₂, run_bind_eq_ok.mpr ⟨into, e₁, hpush, hstore⟩⟩

/-! ## Copies -/

variable {into : List Nat} {types : List Ty}

section
variable (hi : Incoming c pool source phis into ops)
include hi

theorem Incoming.copyable (hs : ∀ phi ∈ phis, ∀ e ∈ phi.2, ∀ j, ¬ Stacked c e.2 j) :
    ∀ phi ∈ phis, c.Copyable source phi := by
  induction hi with
  | nil => exact forall_mem_nil _
  | @cons id i j incoming r _ _ _ _ hfind hslot hp _ ih =>
    obtain ⟨hfirst, hs⟩ := forall_mem_cons.mp hs
    have hplace := hp.place (hfirst (j, r) (mem_of_find?_eq_some hfind))
    exact forall_mem_cons.mpr ⟨⟨i, j, r, hslot, hfind, hplace⟩, ih hs⟩

theorem Incoming.forall₂_slot :
    Forall₂ (fun phi i => c.slot phi.1 = .inLocal i) phis into := by
  induction hi with
  | nil => exact .nil
  | cons _ hslot _ _ ih => exact .cons hslot ih

/-- Phis have locals of their own. -/
theorem Incoming.nodup (hslots : assignSlots c.declared c.graph = .ok (c.slots, types))
    (hphis : phis.Pairwise fun a b => a.1 ≠ b.1) : into.Nodup := by
  induction hi with
  | nil => exact .nil
  | @cons id i _ _ _ _ into _ _ _ hslot _ hrest ih =>
    obtain ⟨hfirst, hphis⟩ := pairwise_cons.mp hphis
    refine nodup_cons.mpr ⟨fun hmem => ?_, ih hphis⟩
    obtain ⟨k, hk⟩ := getElem?_of_mem hmem
    obtain ⟨phi, hphi, hslot'⟩ := forall₂_some_right hrest.forall₂_slot hk
    exact hfirst phi (mem_of_getElem? hphi) (c.slot_inj hslots hslot hslot')

end

/-- All values are pushed before a local changes. -/
theorem Incoming.loads (h : c.Framed p m s locals) (hi : Incoming c p.consts source phis into ops)
    (hs : ∀ phi ∈ phis, ∀ e ∈ phi.2, ∀ j, ¬ Stacked c e.2 j) :
    ∃ values, Forall₂
      (fun phi w => ∃ j r v, (phi.2.find? fun e => e.1 = source) = some (j, r) ∧
        c.read? p s locals r = some v ∧ LoadedFor r v w) phis values ∧
      ∀ stack, Does p m s ops ⟨locals, stack⟩ ⟨locals, values.reverse ++ stack⟩ := by
  induction hi with
  | nil => exact ⟨[], .nil, fun _ => .nil _⟩
  | @cons id i j incoming r _ _ _ _ hfind hslot hp _ ih =>
    obtain ⟨hfirst, hs⟩ := forall_mem_cons.mp hs
    obtain ⟨v, w, hv, hw, hpush⟩ := hp.loads h (hfirst (j, r) (mem_of_find?_eq_some hfind))
    obtain ⟨values, hvalues, hdoes⟩ := ih hs
    refine ⟨w :: values, .cons ⟨j, r, v, hfind, hv, hw⟩ hvalues, fun stack => ?_⟩
    rw [reverse_cons, append_assoc]
    exact (hpush stack).append (hdoes (w :: stack))

/-- The copies on an edge write to the locals of phis what their operands read before. -/
theorem CopyCode.assigns (h : c.Framed p m s locals) (hc : CopyCode c p.consts source target ops)
    (hslots : assignSlots c.declared c.graph = .ok (c.slots, types))
    (hphis : (c.phis target).Pairwise fun a b => a.1 ≠ b.1)
    (hs : ∀ phi ∈ c.phis target, ∀ e ∈ phi.2, ∀ j, ¬ Stacked c e.2 j) (stack : List Value) :
    ∃ locals', Does p m s ops ⟨locals, stack⟩ ⟨locals', stack⟩ ∧ locals'.length = locals.length ∧
      (∀ phi ∈ c.phis target, ∃ i j r v w, c.slot phi.1 = .inLocal i ∧
        (phi.2.find? fun e => e.1 = source) = some (j, r) ∧ c.read? p s locals r = some v ∧
          locals'[i]? = some w ∧ LoadedFor r v w) ∧
      ∀ i, (∀ phi ∈ c.phis target, c.slot phi.1 ≠ .inLocal i) → locals'[i]? = locals[i]? := by
  obtain ⟨into, q, hi, rfl⟩ := hc
  have hinto := hi.forall₂_slot
  obtain ⟨values, hvalues, hpush⟩ := hi.loads h hs
  have hwritten (i : Nat) (hmem : i ∈ into) : ∃ phi ∈ c.phis target, c.slot phi.1 = .inLocal i := by
    obtain ⟨k, hk⟩ := getElem?_of_mem hmem
    obtain ⟨phi, hphi, hslot⟩ := forall₂_some_right hinto hk
    exact ⟨phi, mem_of_getElem? hphi, hslot⟩
  have hstore : Does p m s (into.reverse.map .storeLocal) ⟨locals, values.reverse ++ stack⟩
      ⟨write into values locals, stack⟩ := by
    refine Machine.does_storeLocals h.method (hinto.length_eq.symm.trans hvalues.length_eq)
      fun i hmem => ?_
    obtain ⟨phi, -, hslot⟩ := hwritten i hmem
    exact h.room phi.1 i hslot
  refine ⟨write into values locals, (hpush stack).append hstore, Machine.length_write,
    fun phi hphi => ?_, fun i hother => ?_⟩
  · obtain ⟨k, hk⟩ := getElem?_of_mem hphi
    obtain ⟨i, hik, hslot⟩ := forall₂_some_left hinto hk
    obtain ⟨w, hwk, j, r, v, hfind, hv, hw⟩ := forall₂_some_left hvalues hk
    exact ⟨i, j, r, v, w, hslot, hfind, hv, Machine.write_at (hi.nodup hslots hphis) hik hwk
      (h.room phi.1 i hslot), hw⟩
  · refine Machine.write_of_notMem fun hmem => ?_
    obtain ⟨phi, hphi, hslot⟩ := hwritten i hmem
    exact hother phi hphi hslot

/-! ## Edges of graphs -/

variable {st : Setting} {f : Function} {blocks : List Block} {nodes : List Node}
  {moved : List (BlockId × NodeId)}

section
variable (hshape : Shape st f c.graph blocks nodes moved)
include hshape

theorem phis_distinct : (c.phis target).Pairwise fun a b => a.1 ≠ b.1 := by
  unfold phis
  refine pairwise_filterMap.mpr ?_
  have hnodup : (c.graph.blocks[target]?.elim [] (·.instructions)).Nodup := by
    cases hb : c.graph.blocks[target]? with
    | none => exact .nil
    | some b => exact hshape.nodup hb
  refine hnodup.imp fun {id id'} hne a ha b hb heq => hne ?_
  split at ha <;> cases ha
  split at hb <;> cases hb
  exact heq

theorem phis_not_stacked (hslots : assignSlots c.declared c.graph = .ok (c.slots, types))
    (target : Nat) : ∀ phi ∈ c.phis target, ∀ e ∈ phi.2, ∀ j, ¬ Stacked c e.2 j := by
  rintro ⟨id, incoming⟩ hphi e he
  obtain ⟨n, sources, hn, hk⟩ := mem_phis hphi
  exact phi_not_stacked hshape hslots hn hk e he

theorem phis_of_phiAt (h : c.graph.PhiAt target id n) (source : Nat) :
    ∃ incoming, (id, incoming) ∈ c.phis target ∧
      n.taken? source = (incoming.find? fun e => e.1 = source).map (·.2) := by
  obtain ⟨sources, incoming, hk⟩ := hshape.kind_phiAt h
  obtain ⟨t, ht, hid, hn, -⟩ := h
  exact ⟨incoming, mem_phis_iff.mpr ⟨t, n, sources, ht, hid, hn, hk⟩, by rw [Node.taken?, hk]⟩

theorem phiAt_of_phis {phi : NodeId × List (Nat × Ref)} (h : phi ∈ c.phis target) :
    ∃ n sources, c.graph.PhiAt target phi.1 n ∧ n.kind = .phi sources phi.2 := by
  obtain ⟨t, n, sources, ht, hid, hn, hk⟩ := mem_phis_iff.mp h
  obtain ⟨x, -, hc⟩ := hshape.computes hn
  exact ⟨n, sources, ⟨t, ht, hid, hn, hc.opcode.trans (hc.opcode_of_kind hk rfl)⟩, hk⟩

end

/-- Phis with a result have locals. -/
theorem phi_slot (hslots : assignSlots c.declared c.graph = .ok (c.slots, types))
    (hn : c.graph.node? id = some n) {sources : List BlockId} {incoming : List (Nat × Ref)}
    (hk : n.kind = .phi sources incoming) :
    (∃ i, c.slot id = .inLocal i) ↔ n.resultType ≠ none := by
  constructor
  · rintro ⟨i, hi⟩ hresult
    have hslot : slotOrLocal c.graph id n = some .nowhere := by simp [slotOrLocal, hresult]
    rcases hi ▸ slotFor hslots hn with hfor | ⟨hfor, -⟩
    · exact slotOrLocal_ne_inLocal hfor
    · rw [hslot] at hfor
      cases hfor
  · intro hresult
    have hslot : slotOrLocal c.graph id n = none := by simp [slotOrLocal, hk, hresult]
    rcases slotFor hslots hn with hfor | ⟨-, i, -, hi, -⟩
    · rw [hslot] at hfor
      cases hfor
    · exact ⟨i, hi⟩

theorem copyable_iff (hshape : Shape st f c.graph blocks nodes moved)
    (hslots : assignSlots c.declared c.graph = .ok (c.slots, types)) {b : Block}
    (hb : c.graph.blocks[source]? = some b) (hedge : target ∈ b.successors) :
    (∀ phi ∈ c.phis target, c.Copyable source phi) ↔
      ∀ id n r, c.graph.PhiAt target id n → n.taken? source = some r → n.resultType ≠ none ∧
        (c.place? r).isSome := by
  constructor
  · intro h id n r hphi hr
    obtain ⟨incoming, hmem, htaken⟩ := phis_of_phiAt hshape hphi source
    obtain ⟨i, j, r', hslot, hfind, hplace⟩ := h _ hmem
    obtain ⟨sources, _, hk⟩ := hshape.kind_phiAt hphi
    obtain ⟨_, -, -, hn, -⟩ := hphi
    rw [hr, hfind, map_some, some.injEq] at htaken
    exact ⟨(phi_slot hslots hn hk).mp ⟨i, hslot⟩, htaken ▸ hplace⟩
  · intro h phi hmem
    obtain ⟨n, sources, hphi, hk⟩ := phiAt_of_phis hshape hmem
    obtain ⟨r, hr⟩ := hshape.taken hb hedge hphi
    obtain ⟨hresult, hplace⟩ := h phi.1 n r hphi hr
    rw [Node.taken?, hk] at hr
    obtain ⟨⟨j, r'⟩, hfind, rfl⟩ := map_eq_some_iff.mp hr
    obtain ⟨_, -, -, hn, -⟩ := hphi
    obtain ⟨i, hslot⟩ := (phi_slot hslots hn hk).mpr hresult
    exact ⟨i, j, r', hslot, hfind, hplace⟩

/-- The copies on an edge in terms of the phis of its target. -/
theorem CopyCode.assigns_phis (h : c.Framed p m s locals)
    (hc : CopyCode c p.consts source target ops) (hshape : Shape st f c.graph blocks nodes moved)
    (hslots : assignSlots c.declared c.graph = .ok (c.slots, types)) (stack : List Value) :
    ∃ locals', Does p m s ops ⟨locals, stack⟩ ⟨locals', stack⟩ ∧ locals'.length = locals.length ∧
      (∀ id n r, c.graph.PhiAt target id n → n.taken? source = some r → ∃ i v w,
        c.slot id = .inLocal i ∧ c.read? p s locals r = some v ∧ locals'[i]? = some w ∧
          LoadedFor r v w) ∧
      ∀ i, (∀ id n, c.graph.PhiAt target id n → c.slot id ≠ .inLocal i) →
        locals'[i]? = locals[i]? := by
  obtain ⟨locals', hdoes, hlen, hphis, hothers⟩ :=
    hc.assigns h hslots (phis_distinct hshape) (phis_not_stacked hshape hslots target) stack
  refine ⟨locals', hdoes, hlen, fun id n r hphi hr => ?_, fun i hother =>
    hothers i fun phi hmem => ?_⟩
  · obtain ⟨incoming, hmem, htaken⟩ := phis_of_phiAt hshape hphi source
    obtain ⟨i, j, r', v, w, hslot, hfind, hv, hw, hloaded⟩ := hphis _ hmem
    rw [hr, hfind, map_some, some.injEq] at htaken
    subst htaken
    exact ⟨i, v, w, hslot, hv, hw, hloaded⟩
  · obtain ⟨n, -, hphi, -⟩ := phiAt_of_phis hshape hmem
    exact hother phi.1 n hphi

/-- **The copies on an edge are a parallel assignment.** Every phi of the target takes an operand on
the edge, and code for the copies can be emitted exactly if phis have results and what they take is
kept somewhere. In a frame with the arguments and locals of its function, that code always runs to
its end. Afterwards the local of every phi holds the value that its operand had before, whichever
phis read each other; all other locals and the stack are as they were. Only a constant may have been
replaced by one that is equal to it as a number, such as the zero of the other sign. -/
theorem edge_copies_parallel {c : Context} {entry : MethodEntry} {types : List Ty}
    (hg : c.declared.graph entry = .ok c.graph)
    (hslots : assignSlots c.declared c.graph = .ok (c.slots, types)) {source target : Nat}
    {b : Block} (hb : c.graph.blocks[source]? = some b) (hedge : target ∈ b.successors)
    (l : Location) (e : Emission) :
    (∀ id n, c.graph.PhiAt target id n → ∃ r, n.taken? source = some r) ∧
      ((∃ e', c.copiesInto l source target e = .ok () e') ↔ ∀ id n r, c.graph.PhiAt target id n →
        n.taken? source = some r → n.resultType ≠ none ∧ (c.place? r).isSome) ∧
    ∀ e', c.copiesInto l source target e = .ok () e' → ∃ ops, e'.body.ops = e.body.ops ++ ops ∧
      ∀ (p : Program) (m : Method) (s : State) (locals stack : List Value), e'.consts <+: p.consts →
        p.methods[s.current.method]? = some m →
          c.graph.function.params.length ≤ s.current.args.length →
        types.length ≤ locals.length →
        ∃ locals', Does p m s ops ⟨locals, stack⟩ ⟨locals', stack⟩ ∧
          locals'.length = locals.length ∧ (∀ id n r, c.graph.PhiAt target id n →
            n.taken? source = some r → ∃ i v w, c.slot id = .inLocal i ∧
              c.read? p s locals r = some v ∧ locals'[i]? = some w ∧ LoadedFor r v w) ∧
          ∀ i, (∀ id n, c.graph.PhiAt target id n → c.slot id ≠ .inLocal i) →
            locals'[i]? = locals[i]? := by
  obtain ⟨blocks, nodes, moved, hshape⟩ := Declared.graph_shape hg
  have hfree := phis_not_stacked hshape hslots target
  have hcode {e' : Emission} (he : c.copiesInto l source target e = .ok () e') :
      ∃ ops, e'.body.ops = e.body.ops ++ ops ∧ ∀ pool, e'.consts <+: pool →
        CopyCode c pool source target ops := by
    obtain ⟨ops, _, happ, hcode⟩ := (copiesInto_emits c.alike_own e).of_ok he
    refine ⟨ops, happ.ops, fun pool hpool => ?_⟩
    exact (hcode ⟨pool, e'.trampolines, e'.exceptionLocal⟩ ⟨hpool, prefix_rfl, fun _ h => h⟩).2
  refine ⟨fun id n hphi => hshape.taken hb hedge hphi, ?_, fun e' he => ?_⟩
  · rw [← copyable_iff hshape hslots hb hedge]
    constructor
    · rintro ⟨e', he⟩
      obtain ⟨ops, -, hcode⟩ := hcode he
      obtain ⟨into, q, hi, -⟩ := hcode e'.consts prefix_rfl
      exact hi.copyable hfree
    · exact copiesInto_ok
  · obtain ⟨ops, happ, hcode⟩ := hcode he
    refine ⟨ops, happ, fun p m s locals stack hconsts hm hargs hlocals => ?_⟩
    exact (hcode p.consts hconsts).assigns_phis (.of_slots hslots hm hargs hlocals) hshape hslots
      stack

/-- A loop that passes three numbers around. -/
def rotation : Function where
  name := "rotation"
  type := ⟨.int 32, [.int 32], false⟩
  params := [{ id := 0, ty := .int 32 }]
  blocks :=
    let int (n : Int) : Ssa.Operand := .const (.int (.int 32) n)
    [{ id := 0, instructions := [{ id := 1, opcode := .br, ty := .void, operands := [.block 1] }] },
     { id := 1, instructions :=
       [{ id := 2, opcode := .phi, ty := .int 32, operands := [int 1, .value 3], info :=
            .phi [0, 1] },
        { id := 3, opcode := .phi, ty := .int 32, operands := [int 2, .value 4], info :=
            .phi [0, 1] },
        { id := 4, opcode := .phi, ty := .int 32, operands := [int 3, .value 2], info :=
            .phi [0, 1] },
        { id := 5, opcode := .icmp, ty := .int 1, operands := [.value 2, .value 0], info :=
            .predicate 32 },
        { id := 6, opcode := .br, ty := .void, operands := [.value 5, .block 2, .block 1] }] },
     { id := 2, instructions :=
         [{ id := 7, opcode := .ret, ty := .void, operands := [.value 2] }] }]

theorem run'_eq_some {α : Type} {x : Emit α} {a : α} (h : x.run' e = some a) :
    ∃ e', x e = .ok a e' := by
  delta EStateM.run' EStateM.run at h
  split at h <;> cases h
  exact ⟨_, by assumption⟩

theorem rotation_copies_parallel :
    ∃ (c : Context) (entry : MethodEntry) (types : List Ty) (b : Block)
      (e' : Emission), c.declared.graph entry = .ok c.graph ∧
        assignSlots c.declared c.graph = .ok (c.slots, types) ∧
    c.graph.blocks[1]? = some b ∧ 1 ∈ b.successors ∧ c.copiesInto { function := "rotation" } 1 1
      {} = .ok () e' ∧
    e'.body.ops = [.loadLocal 1, .loadLocal 2, .loadLocal 0, .storeLocal 2, .storeLocal 1,
      .storeLocal 0] ∧
    ∀ (p : Program) (m : Method) (s : State) (locals stack : List Value), e'.consts <+: p.consts →
      p.methods[s.current.method]? = some m →
        c.graph.function.params.length ≤ s.current.args.length →
      types.length ≤ locals.length →
      ∃ locals', Does p m s e'.body.ops ⟨locals, stack⟩ ⟨locals', stack⟩ ∧
        ∀ id n r, c.graph.PhiAt 1 id n → n.taken? 1 = some r → ∃ i v w, c.slot id = .inLocal i ∧
          c.read? p s locals r = some v ∧ locals'[i]? = some w ∧ LoadedFor r v w := by
  obtain ⟨d, -, hparts⟩ :=
    toOption_map_eq_some.mp (show (declare { functions := [rotation] } {}).toOption.map (fun d => do
      let entry ← d.methods[0]?
      let g ← (d.graph entry).toOption
      let a ← (assignSlots d g).toOption
      let b ← g.blocks[1]?
      let ops ← (do
        Context.copiesInto ⟨d, g, a.1⟩ { function := "rotation" } 1 1
        return (← get).body.ops : Emit (List Op)).run' {}
      some (b.successors, ops)) =
    some (some ([2, 1], [.loadLocal 1, .loadLocal 2, .loadLocal 0, .storeLocal 2, .storeLocal 1,
      .storeLocal 0])) by decide +kernel)
  obtain ⟨entry, -, hparts⟩ := bind_eq_some_iff.mp hparts
  obtain ⟨g, hg, hparts⟩ := bind_eq_some_iff.mp hparts
  obtain ⟨⟨slots, types⟩, hslots, hparts⟩ := bind_eq_some_iff.mp hparts
  obtain ⟨b, hb, hparts⟩ := bind_eq_some_iff.mp hparts
  obtain ⟨ops, hops, hparts⟩ := bind_eq_some_iff.mp hparts
  obtain ⟨hsuccessors, hlist⟩ := Prod.mk.inj (some.inj hparts)
  obtain ⟨e', hrun⟩ := run'_eq_some hops
  obtain ⟨_, _, he, hrun⟩ := run_bind_eq_ok.mp hrun
  cases hrun
  have hg := toOption_eq_some.mp hg
  have hslots := toOption_eq_some.mp hslots
  have hedge : 1 ∈ b.successors := by simp [hsuccessors]
  obtain ⟨-, -, hcopies⟩ := @edge_copies_parallel ⟨d, g, slots⟩ entry types hg hslots 1 1 b hb hedge
      { function := "rotation" } {}
  obtain ⟨ops, hops, hruns⟩ := hcopies e' he
  cases hops
  refine ⟨⟨d, g, slots⟩, entry, types, b, e', hg, hslots, hb, hedge, he, hlist,
    fun p m s locals stack hconsts hm hargs hlocals => ?_⟩
  obtain ⟨locals', hdoes, -, hphis, -⟩ := hruns p m s locals stack hconsts hm hargs hlocals
  exact ⟨locals', hdoes, hphis⟩

end Context

open Machine (callMethod World)

/-- Two functions that return a zero each; the second one takes the negative zero through a phi. -/
def signedZeros : Ssa.Module where
  functions :=
    [{ name := "positive", type := ⟨.double, [], false⟩, blocks :=
       [{ id := 0, instructions :=
            [{ id := 0, opcode := .ret, ty := .void, operands := [.const (.float .double 0.0)] }] }]
              },
     { name := "negative", type := ⟨.double, [], false⟩, blocks :=
       [{ id := 0, instructions :=
            [{ id := 0, opcode := .br, ty := .void, operands := [.block 1] }] },
        { id := 1, instructions :=
          [{ id := 1, opcode := .phi, ty := .double, operands := [.const (.float .double (-0.0))],
             info := .phi [0] },
           { id := 2, opcode := .ret, ty := .void, operands := [.value 1] }] }] }]

/-- The number that a call returns. -/
def returnedFloat? : Except Machine.Fault (Option Value) → Option (Code.FloatKind × Float)
  | .ok (some (.float kind x)) => some (kind, x)
  | _ => none

theorem returnedFloat?_eq_some {r : Except Machine.Fault (Option Value)}
    {kind : Code.FloatKind} {x : Float} (h : returnedFloat? r = some (kind, x)) :
    r = .ok (some (.float kind x)) := by
  unfold returnedFloat? at h
  split at h <;> cases h
  rfl

/-- The phi takes a negative zero, but the pool has a positive one already. -/
theorem negative_zero_copied_without_sign : ∃ p w, lower signedZeros {} = .ok p ∧
    callMethod p 10 (.ofProgram p) 1 [] = some (w, .ok (some (.float .double 0.0))) ∧
    constValue p.records (.float .double (-0.0)) ≠ .float .double 0.0 := by
  obtain ⟨p, hp, hrun⟩ :=
    toOption_map_eq_some.mp (show (lower signedZeros {}).toOption.map (fun p => do
      let r ← callMethod p 10 (.ofProgram p) 1 []
      returnedFloat? r.2) = some (some (.double, 0.0)) by decide +kernel)
  obtain ⟨⟨w, result⟩, hcall, hresult⟩ := bind_eq_some_iff.mp hrun
  cases returnedFloat?_eq_some hresult
  refine ⟨p, w, hp, hcall, fun h => ?_⟩
  have hzero : roundTo .double (-0.0) ≠ 0.0 := by decide +kernel
  exact hzero (Value.float.inj h).2

end Stackify.Lower
