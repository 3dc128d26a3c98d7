import Stackify.Machine.Step
import Stackify.Proofs.Scope

/-!
What one operation does to the frames of a run, whatever the values are:

    s.Within S → op.Names S p s → Effect S p m s op (execute p m s op)        (execute_within)

It takes a fixed number of values off the stack of the current frame and puts a fixed number back;
it changes nothing else of any frame but locals that it names or that a pointer on the stack leads
to. It reports a missing operand only if there are fewer values than it takes, and it raises an
exception only if it is `throw` or reports a failed assertion. Values and faults stay within a
scope.
-/

namespace Stackify.Code

/-- How many values an operation of a method takes off the stack. -/
def Op.takes (m : Method) : Op → Nat
  | .storeLocal _ | .loadIndirect _ | .fieldAddress _ _ | .unary _ _ | .convert _ _ _
  | .nextVarArg _ | .dup
  | .pop | .branchTrue _ | .branchFalse _ | .switchValue _ _ | .throw => 1
  | .storeIndirect _ | .elementAddress _ | .binary _ _ | .compare _ _ => 2
  | .call _ n | .callService _ n | .packVarArgs n => n
  | .callIndirect n _ => n + 1
  | .ret => if m.type.ret.isVoid then 0 else 1
  | _ => 0

/-- How many values an operation puts on the stack before it goes on. -/
def Op.gives : Op → Nat
  | .loadConst _ | .loadArg _ | .loadLocal _ | .loadLocalAddress _ | .loadStaticAddress _
  | .loadMethodPointer _
  | .loadIndirect _ | .fieldAddress _ _ | .elementAddress _ | .binary _ _ | .unary _ _
  | .compare _ _
  | .convert _ _ _ | .packVarArgs _ | .nextVarArg _ => 1
  | .dup => 2
  | .callService service _ => if service.returns.isVoid then 0 else 1
  | _ => 0

/-- The operations that can raise an exception. -/
def Op.raises : Op → Bool
  | .throw => true
  | .callService service _ => service == .assertFailure
  | _ => false

/-- The local of the current frame that an operation writes to by its number. -/
def Op.written? : Op → Option Nat
  | .storeLocal i | .initLocal i => some i
  | _ => none

end Stackify.Code

namespace Stackify.Machine

open Code (Op Ty Label Method Program Service)
open List

/-! ## Frames and their locals by number -/

/-- All frames, the outermost one first. -/
def State.frames (s : State) : List Frame := s.callers.reverse ++ [s.current]

/-- The locals of all frames. -/
def State.locals (s : State) : List (List Value) :=
  s.callers.reverse.map (·.locals) ++ [s.current.locals]

variable {s t u : State} {d : Nat} {f g : Frame}

theorem State.length_frames (s : State) : s.frames.length = s.depth + 1 := by
    simp [State.frames, State.depth]

theorem State.locals_eq (s : State) : s.locals = s.frames.map (·.locals) := by
    simp [State.locals, State.frames]

theorem State.frames_eq_reverse (s : State) : s.frames = (s.current :: s.callers).reverse := by
    simp [State.frames]

theorem State.frame?_eq (s : State) (d : Nat) : s.frame? d = s.frames[d]? := by
  unfold State.frame?
  split
  · next hd =>
    rw [State.frames_eq_reverse,
      getElem?_reverse (by simpa [State.depth] using Nat.lt_succ_of_le hd)]
    simp [State.depth]
  · next hd =>
    rw [getElem?_eq_none (by rw [State.length_frames]; omega)]

theorem State.frames_depth (s : State) : s.frames[s.depth]? = some s.current := by
    simp [State.frames, State.depth]

theorem reverse_set {α : Type} {l : List α} {a : α} (h : d < l.length) :
    (l.set (l.length - 1 - d) a).reverse = l.reverse.set d a := by
  refine ext_getElem (by simp) fun k hk _ => ?_
  rw [length_reverse, length_set] at hk
  have hiff : l.length - 1 - d = l.length - 1 - k ↔ d = k := by omega
  simp only [getElem_reverse, getElem_set, length_set, hiff]

theorem State.frames_setFrame (hd : d ≤ s.depth) (f : Frame) :
    (s.setFrame d f).frames = s.frames.set d f := by
  unfold State.setFrame
  split
  · next h => simp [State.frames, h, State.depth]
  · next h =>
    have hlt : d < s.callers.length := Nat.lt_of_le_of_ne hd h
    show (s.callers.set (s.callers.length - 1 - d) f).reverse ++
      [s.current] = (s.callers.reverse ++ [s.current]).set d f
    rw [reverse_set hlt, set_append_left _ _ (by simpa using hlt)]

theorem State.setLocal_eq_ok {i : Nat} {v : Value} (h : s.setLocal d i v = .ok t) :
    ∃ f, s.frames[d]? = some f ∧ i < f.locals.length ∧ t.frames = s.frames.set d
      { f with locals := f.locals.set i v } ∧ t.world = s.world := by
  unfold State.setLocal at h
  split at h
  · cases h
  · next f hf =>
    split at h
    · next hi =>
      cases h
      rw [State.frame?_eq] at hf
      have hd := State.length_frames s ▸ lt_of_getElem? hf
      refine ⟨f, hf, hi, State.frames_setFrame (Nat.le_of_lt_succ hd) _, ?_⟩
      unfold State.setFrame
      split <;> rfl
    · cases h

theorem State.exists_setLocal {i : Nat} (hf : s.frames[d]? = some f) (hi : i < f.locals.length)
    (v : Value) : ∃ t, s.setLocal d i v = .ok t :=
  ⟨_, by rw [State.setLocal, State.frame?_eq, hf]; exact if_pos hi⟩

/-! ## Changes of locals -/

def Frame.bare (f : Frame) : Frame := { f with locals := [] }

/-- Two states with the same frames apart from locals. -/
structure SameFrames (s t : State) : Prop where
  current : t.current.bare = s.current.bare
  callers : t.callers.map Frame.bare = s.callers.map Frame.bare

namespace SameFrames

theorem of_frames (h : t.frames.map Frame.bare = s.frames.map Frame.bare) : SameFrames s t := by
  simp only [State.frames, map_append, map_cons, map_nil] at h
  obtain ⟨hcallers, hcurrent⟩ := append_inj' h rfl
  rw [map_reverse, map_reverse, reverse_inj] at hcallers
  exact ⟨(cons.inj hcurrent).1, hcallers⟩

section
variable (h : SameFrames s t)
include h

theorem stack : t.current.stack = s.current.stack := by
  simpa [Frame.bare] using congrArg Frame.stack h.current

theorem method : t.current.method = s.current.method := by
  simpa [Frame.bare] using congrArg Frame.method h.current

theorem pc : t.current.pc = s.current.pc := by
  simpa [Frame.bare] using congrArg Frame.pc h.current

theorem use : t.current.use = s.current.use := by
  simpa [Frame.bare] using congrArg Frame.use h.current

theorem depth : t.depth = s.depth := by
  simpa [State.depth] using congrArg List.length h.callers

end

end SameFrames

/-- Both states have the same frames with as many locals, and these differ at most where `W` says,
by frame and number. -/
def Writes (W : Nat → Nat → Prop) (s t : State) : Prop :=
  t.locals.length = s.locals.length ∧ ∀ d ls, s.locals[d]? = some ls →
    ∃ ls', t.locals[d]? = some ls' ∧ ls'.length = ls.length ∧ ∀ i, ¬ W d i → ls'[i]? = ls[i]?

theorem Writes.of_eq {W : Nat → Nat → Prop} (h : t.locals = s.locals) : Writes W s t := by
  rw [Writes, h]
  exact ⟨rfl, fun _ ls hls => ⟨ls, hls, rfl, fun _ _ => rfl⟩⟩

/-- One of the values points to a local, or into it. -/
def PointedTo (vs : List Value) (d i : Nat) : Prop := ∃ path, Value.pointer (.ofLocal d i path) ∈ vs

/-- Nothing of the frames differs but locals, and these at most where `W` says. -/
structure Alters (W : Nat → Nat → Prop) (s t : State) : Prop extends SameFrames s t where
  locals : Writes W s t

namespace Alters

variable {p : Program} {W V : Nat → Nat → Prop} {s t : State} {d i : Nat}

theorem of_eq (h : t.current = s.current) (h' : t.callers = s.callers) : Alters W s t :=
  ⟨⟨by rw [h], by rw [h']⟩, .of_eq (by rw [State.locals, State.locals, h, h'])⟩

theorem refl (s : State) : Alters W s s := of_eq rfl rfl

theorem mono (h : Alters W s t) (hW : ∀ d i, W d i → V d i) : Alters V s t := by
  refine ⟨h.toSameFrames, h.locals.1, fun d ls hls => ?_⟩
  obtain ⟨ls', hls', hlen, hkeep⟩ := h.locals.2 d ls hls
  exact ⟨ls', hls', hlen, fun i hi => hkeep i fun hw => hi (hW d i hw)⟩

theorem withStack (h : Alters W s t) (stack : List Value) :
    Alters W (s.withStack stack) (t.withStack stack) := by
  refine ⟨⟨?_, h.callers⟩, h.locals⟩
  have hc := h.current
  simp only [Frame.bare, Frame.mk.injEq] at hc
  simp [Frame.bare, State.withStack, hc]

theorem setLocal {v : Value} (h : s.setLocal d i v = .ok t) (hW : W d i) : Alters W s t := by
  obtain ⟨f, hf, -, hframes, -⟩ := State.setLocal_eq_ok h
  have hlocals : t.locals = s.locals.set d (f.locals.set i v) := by
    rw [State.locals_eq, State.locals_eq, hframes, map_set]
  have hls : s.locals[d]? = some f.locals := by
    rw [State.locals_eq, getElem?_map, hf, Option.map_some]
  refine ⟨.of_frames ?_, ?_⟩
  · obtain ⟨hl, rfl⟩ := List.getElem?_eq_some_iff.mp hf
    rw [hframes, map_set]
    show (s.frames.map Frame.bare).set d s.frames[d].bare = _
    rw [← getElem_map Frame.bare (h := by simpa using hl), set_getElem_self]
  · rw [Writes, hlocals]
    refine ⟨length_set, fun d' ls hls' => ?_⟩
    by_cases hdd : d = d'
    · subst hdd
      cases hls.symm.trans hls'
      refine ⟨_, getElem?_set_self (lt_of_getElem? hls), length_set, fun i' hi' => ?_⟩
      exact getElem?_set_ne fun (heq : i = i') => hi' (heq ▸ hW)
    · exact ⟨ls, by rw [getElem?_set_ne hdd, hls'], rfl, fun _ _ => rfl⟩

theorem store {a v : Value} {ty : Ty} {vs : List Value} {f : Option Fault}
    (h : s.store p a ty v = (t, f)) (ha : a ∈ vs) : Alters (PointedTo vs) s t := by
  unfold State.store at h
  split at h
  · next path =>
    split at h
    · next u hu =>
      cases h
      obtain ⟨_, -, hu⟩ := bind_eq_ok.mp hu
      obtain ⟨_, -, hu⟩ := bind_eq_ok.mp hu
      exact setLocal hu ⟨path, ha⟩
    · cases h
      exact refl s
  · cases h
    exact of_eq rfl rfl
  · cases h
    exact refl s

end Alters

section
variable {p : Program} {service : Service} {args : List Value} {r : Option Value}
  (h : Serves p s args service t r)
include h

/-- A service writes to locals only through its arguments. -/
theorem Serves.alters : Alters (PointedTo args) s t := by
  cases h with
  | quiet hc hcs => exact .of_eq hc hcs
  | copies htarget _ _ _ ht => exact .store ht (mem_of_getElem? htarget)
  | clears htarget _ ht => exact .store ht (mem_of_getElem? htarget)

theorem Serves.isSome : r.isSome = !service.returns.isVoid := by
  cases h with
  | quiet _ _ _ hv => exact hv
  | copies _ _ hty => obtain ⟨rfl, -⟩ | ⟨rfl | rfl, -⟩ := hty <;> rfl
  | clears => rfl

end

/-! ## Operations -/

/-- An operation may write to a local: it names it, or there is a pointer to it on the stack. -/
def Touches (s : State) (op : Op) (d i : Nat) : Prop :=
  d = s.depth ∧ op.written? = some i ∨ PointedTo s.current.stack d i

/-- What an operation that goes on does, apart from the values that it puts on the stack. -/
inductive Acts (p : Program) (m : Method) (s : State) : Op → State → Prop
  | none {op : Op} : Acts p m s op (s.withStack (s.current.stack.drop (op.takes m)))
  | storeLocal {i : Nat} {v : Value} {rest : List Value} {t : State}
      (hs : s.current.stack = v :: rest) (ht : (s.withStack rest).setLocal s.depth i v = .ok t) :
      Acts p m s (.storeLocal i) t
  | initLocal {i : Nat} {t : State}
      (ht : s.setLocal s.depth i (defaultValue p.records (m.body.locals.getD i .void)) = .ok t) :
      Acts p m s (.initLocal i) t
  | storeIndirect {ty : Ty} {a v : Value} {rest : List Value} {t : State}
      (hs : s.current.stack = v :: a :: rest) (ht : (s.withStack rest).store p a ty v = (t, none)) :
      Acts p m s (.storeIndirect ty) t
  | nextVarArg {ty : Ty} {a : Value} {rest vs : List Value} {n : Nat} {t : State}
      (hs : s.current.stack = a :: rest)
      (ht : (s.withStack rest).store p a .varArgs (.varArgs vs n) = (t, none)) :
      Acts p m s (.nextVarArg ty) t
  | callService {service : Service} {n : Nat} {t : State} {r : Option Value}
      (h : Serves p (s.withStack (s.current.stack.drop n)) (s.current.stack.take n).reverse
        service t r) :
      Acts p m s (.callService service n) t

theorem Acts.alters {p : Program} {m : Method} {op : Op} (h : Acts p m s op t) (vs : List Value) :
    Alters (Touches s op) (s.withStack (vs ++ s.current.stack.drop (op.takes m)))
      (t.withStack (vs ++ t.current.stack)) := by
  have hsame : Alters (Touches s op) (s.withStack (s.current.stack.drop (op.takes m))) t := by
    cases h with
    | none => exact .refl _
    | storeLocal hs ht =>
      simp only [Op.takes, hs]
      exact .setLocal ht (.inl ⟨rfl, rfl⟩)
    | initLocal ht => exact .setLocal ht (.inl ⟨rfl, rfl⟩)
    | storeIndirect hs ht | nextVarArg hs ht =>
      simp only [Op.takes, hs]
      exact (Alters.store ht (by simp [hs])).mono fun _ _ hp => .inr hp
    | callService h =>
      exact h.alters.mono fun _ _ ⟨path, hp⟩ => .inr ⟨path, mem_of_mem_take (mem_reverse.mp hp)⟩
  have hstack : t.current.stack = s.current.stack.drop (op.takes m) := hsame.stack
  rw [hstack]
  exact hsame.withStack _

/-- What an operation does, whatever the values are. -/
inductive Effect (S : Scope) (p : Program) (m : Method) (s : State) (op : Op) : Action → Prop
  | next {t : State} (vs : List Value) (h : Acts p m s op t) (hv : vs.length = op.gives)
      (ht : (t.withStack (vs ++ t.current.stack)).Within S) :
      Effect S p m s op (.next (t.withStack (vs ++ t.current.stack)))
  | jump {l : Label} (h : l ∈ op.targets) :
      Effect S p m s op (.jump (s.withStack (s.current.stack.drop (op.takes m))) l)
  | leave {l : Label} (h : op = .leave l) : Effect S p m s op (.leave s l)
  | call {i n : Nat} {args : List Value} (h : op = .call i n) (hlen : args.length = n)
      (hargs : ∀ v ∈ args, S.Holds v) :
      Effect S p m s op (.call (s.withStack (s.current.stack.drop (op.takes m))) i args .pushed)
  | callIndirect {i n : Nat} {args : List Value} {returns : Bool} (h : op = .callIndirect n returns)
      (hi : S.Holds (.method i)) (hargs : ∀ v ∈ args, S.Holds v) :
      Effect S p m s op (.call (s.withStack (s.current.stack.drop (op.takes m))) i args
        (if returns then .required else .dropped))
  | ret {r : Option Value} (h : op = .ret) (hr : r.isSome = !m.type.ret.isVoid)
      (hv : ∀ v, r = some v → S.Holds v) :
      Effect S p m s op (.ret (s.withStack (s.current.stack.drop (op.takes m))) r)
  | fault {t : State} {f : Fault} (h : S.Reports f ∨ f = .stackUnderflow ∧
      s.current.stack.length < op.takes m) (ht :
      t.Within S) : Effect S p m s op (.fail t (.fault f))
  | raise {v : Value} (h : op.raises = true) (hv : S.Holds v) :
      Effect S p m s op (.fail (s.withStack (s.current.stack.drop (op.takes m))) (.exception v))

/-- What an operation names is there, or its lack may be reported. -/
def Names (S : Scope) (p : Program) (s : State) : Op → Prop
  | .loadConst i => i < p.consts.length ∨ S.Reports (.missingConst i)
  | .loadArg i => i < s.current.args.length ∨ S.Reports (.missingArgument i)
  | .loadStaticAddress i => S.Reaches (.static i)
  | .loadMethodPointer i => S.Holds (.method i)
  | .callService service n => n = service.arity ∨ S.Reports (.serviceArguments service)
  | _ => True

namespace Effect

variable {S : Scope} {p : Program} {m : Method} {s : State} {op : Op} {t : State}
  {rest : List Value}

theorem of_fault {f : Fault} (ht : t.Within S) (h : S.Reports f) : Effect S p m s op (.fault t f) :=
  .fault (.inl h) ht

theorem pop {k : State → Value → Action} (hs : s.Within S) (ht : 1 ≤ op.takes m)
    (hk : ∀ v rest, s.current.stack = v :: rest → (s.withStack rest).Within S → S.Holds v →
      Effect S p m s op (k (s.withStack rest) v)) : Effect S p m s op (s.pop k) := by
  unfold State.pop
  split
  · next v rest h =>
    obtain ⟨hv, hrest⟩ := forall_mem_cons.mp (h ▸ hs.current.stack)
    exact hk v rest h (hs.withStack rest hrest) hv
  · next h =>
    refine .fault (.inr ⟨rfl, ?_⟩) hs
    rw [h]
    exact ht

theorem pop2 {k : State → Value → Value → Action} (hs : s.Within S) (ht : op.takes m = 2)
    (hk : ∀ a b rest, s.current.stack = b :: a :: rest → (s.withStack rest).Within S →
      S.Holds a → S.Holds b → Effect S p m s op (k (s.withStack rest) a b)) : Effect S p m s op
        (s.pop2 k) := by
  refine pop hs (by omega) fun b tail hb htail hholds => ?_
  unfold State.pop
  split
  · next a rest h =>
    have ha : tail = a :: rest := h
    obtain ⟨hv, hrest⟩ := forall_mem_cons.mp (ha ▸ htail.current.stack)
    exact hk a b rest (by rw [hb, ha]) (htail.withStack rest hrest) hv hholds
  · next h =>
    have ha : tail = [] := h
    refine .fault (.inr ⟨rfl, ?_⟩) htail
    rw [hb, ha, ht]
    exact Nat.lt_succ_self 1

theorem popMany {n : Nat} {k : State → List Value → Action} (hs : s.Within S) (ht : op.takes m = n)
    (hk : (s.current.stack.take n).reverse.length = n →
      (∀ v ∈ (s.current.stack.take n).reverse, S.Holds v) →
        (s.withStack (s.current.stack.drop n)).Within S →
      Effect S p m s op (k (s.withStack (s.current.stack.drop n))
        (s.current.stack.take n).reverse)) :
    Effect S p m s op (s.popMany n k) := by
  unfold State.popMany
  split
  · next h =>
    refine hk (by simpa using h) (fun v hv =>
      hs.current.stack v (mem_of_mem_take (mem_reverse.mp hv))) ?_
    exact hs.withStack _ fun v hv => hs.current.stack v (mem_of_mem_drop hv)
  · next h => exact .fault (.inr ⟨rfl, by omega⟩) hs

/-- Going on with the values that are left and some new ones. -/
theorem keep (vs : List Value) (hr : s.current.stack.drop (op.takes m) = rest)
    (hv : vs.length = op.gives) (hs : (s.withStack (vs ++ rest)).Within S) :
    Effect S p m s op (.next (s.withStack (vs ++ rest))) := by
  subst hr
  exact .next vs .none hv hs

theorem deliver {x : Except Fault Value} (hr : s.current.stack.drop (op.takes m) = rest)
    (hg : op.gives = 1) (hs : (s.withStack rest).Within S) (hx : S.Gives S.Holds x) :
    Effect S p m s op ((s.withStack rest).deliver x) := by
  cases x with
  | ok v => exact .keep [v] hr hg.symm (hs.push hx)
  | error f => exact of_fault hs hx

end Effect

variable {S : Scope} {p : Program} {m : Method} {op : Op} {α : Type} {i : Nat} {l : Label}
  {rest : List Value} {v : Value} {w : World} {r : Except Fault (Option Value)}

theorem operand_gives {l : List α} {missing : Fault} (h : i < l.length ∨ S.Reports missing) :
    S.Gives (· ∈ l) (operand l i missing) := by
  unfold operand
  split
  · next a ha => exact mem_of_getElem? ha
  · next hnone =>
    rw [List.getElem?_eq_none_iff] at hnone
    exact h.resolve_left (Nat.not_lt.mpr hnone)

theorem branchIf_effect {truth : Bool} (hs : s.Within S) (ht : op.takes m = 1) (hg : op.gives = 0)
    (hl : l ∈ op.targets) : Effect S p m s op (branchIf s truth l) := by
  refine Effect.pop hs (by omega) fun v rest h hs _ => ?_
  have hr : s.current.stack.drop (op.takes m) = rest := by simp [ht, h]
  split
  · split
    · rw [← hr]
      exact .jump hl
    · exact .keep [] hr hg.symm hs
  · exact .of_fault hs (S.ordinary rfl)

theorem nextVarArg_effect {address : Value} {ty : Ty} (h : s.current.stack = address :: rest)
    (hs : (s.withStack rest).Within S) (ha : S.Holds address) :
    Effect S p m s (.nextVarArg ty) (nextVarArg p (s.withStack rest) address) := by
  have hl := hs.load (p := p) ha .varArgs
  unfold nextVarArg
  split
  · next hf => exact .of_fault hs (hl.of_error hf)
  · next vs cursor hvs =>
    have hvs := S.varArgs.mp (hl.of_ok hvs)
    split
    · exact .of_fault hs (S.ordinary rfl)
    · next v hv =>
      have hst :=
        hs.store (p := p) ha .varArgs (S.varArgs.mpr hvs : S.Holds (.varArgs vs (cursor + 1)))
      split
      · next ht =>
        rw [ht] at hst
        exact .next [v] (.nextVarArg h ht) rfl (hst.1.push (hvs v (mem_of_getElem? hv)))
      · next ht =>
        rw [ht] at hst
        exact .of_fault hst.1 (hst.2.1 _ rfl)
  · exact .of_fault hs (S.ordinary rfl)

theorem setLocal_effect (hg : op.gives = 0) (hs : t.Within S) (hv : S.Holds v)
    (h : ∀ u, t.setLocal t.depth i v = .ok u → Acts p m s op u) :
    Effect S p m s op (match t.setLocal t.depth i v with
      | .ok t => .next t
      | .error f => .fault t f) := by
  have hset := hs.setLocal t.depth i hv
  split
  · next ht => exact .next [] (h _ ht) hg.symm (hset.of_ok ht)
  · next hf => exact .of_fault hs (hset.of_error hf)

theorem lookup_mem {β : Type} [BEq α] [LawfulBEq α] {l : List (α × β)} {a : α} {b : β}
    (h : l.lookup a = some b) : b ∈ l.map (·.2) := by
  obtain ⟨l₁, l₂, rfl, -⟩ := lookup_eq_some_iff.mp h
  simp

theorem execute_within (hs : s.Within S) (hop : Names S p s op) :
    Effect S p m s op (execute p m s op) := by
  have whole : s.current.stack.drop 0 = s.current.stack := rfl
  cases op with
  | label _ | nop => exact .keep [] whole rfl hs
  | loadConst i =>
    exact .deliver whole rfl hs ((operand_gives hop).map fun _ _ => constValue_holds _ _)
  | loadArg i =>
    refine .deliver whole rfl hs ?_
    exact Scope.Gives.of_mem (operand_gives hop) hs.current.args
  | loadLocal i => exact .deliver whole rfl hs (hs.local _ _)
  | storeLocal i =>
    rw [execute]
    refine .pop hs (Nat.le_refl 1) fun v rest h hs hv => ?_
    exact setLocal_effect rfl hs hv fun _ ht => .storeLocal h ht
  | initLocal i =>
    rw [execute]
    exact setLocal_effect rfl hs (defaultValue_holds _ _) fun _ ht => .initLocal ht
  | loadLocalAddress i => exact .deliver whole rfl hs ((hs.local _ _).map fun _ _ => S.plain rfl)
  | loadStaticAddress i => exact .keep [_] whole rfl (hs.push (S.address.mpr hop))
  | loadMethodPointer i => exact .keep [_] whole rfl (hs.push hop)
  | loadIndirect ty =>
    rw [execute]
    refine .pop hs (Nat.le_refl 1) fun address rest h hs ha => ?_
    exact .deliver (by simp [Op.takes, h]) rfl hs (hs.load ha ty)
  | storeIndirect ty =>
    rw [execute]
    refine .pop2 hs rfl fun address v rest h hs ha hv => ?_
    have hst := hs.store (p := p) ha ty hv
    generalize hr : (s.withStack rest).store p address ty v = r at hst
    obtain ⟨t, f⟩ := r
    cases f with
    | none => exact .next [] (.storeIndirect h hr) rfl hst.1
    | some f => exact .of_fault hst.1 (hst.2.1 f rfl)
  | fieldAddress id field =>
    rw [execute]
    refine .pop hs (Nat.le_refl 1) fun address rest h hs ha => ?_
    exact .deliver (by simp [Op.takes, h]) rfl hs (fieldAddress_gives ha id field)
  | elementAddress ty =>
    -- An index that is no integer stops the operation before the address is taken.
    rw [execute]
    refine .pop hs (by simp [Op.takes]) fun i tail hi hs _ => ?_
    split
    · exact .of_fault hs (S.ordinary rfl)
    · next n _ =>
      unfold State.pop
      split
      · next address rest h =>
        have ha : tail = address :: rest := h
        obtain ⟨hv, hrest⟩ := forall_mem_cons.mp (ha ▸ hs.current.stack)
        exact .deliver (by simp [Op.takes, hi, ha]) rfl (hs.withStack rest hrest)
          (elementAddress_gives hv ty n)
      · next h =>
        have ha : tail = [] := h
        exact .fault (.inr ⟨rfl, by simp [Op.takes, hi, ha]⟩) hs
  | binary op kind =>
    rw [execute]
    refine .pop2 hs rfl fun a b rest h hs _ _ => ?_
    exact .deliver (by simp [Op.takes, h]) rfl hs (binary_gives op kind a b)
  | unary op kind =>
    rw [execute]
    refine .pop hs (Nat.le_refl 1) fun v rest h hs _ => ?_
    exact .deliver (by simp [Op.takes, h]) rfl hs (unary_gives op kind v)
  | compare op kind =>
    rw [execute]
    refine .pop2 hs rfl fun a b rest h hs _ _ => ?_
    exact .deliver (by simp [Op.takes, h]) rfl hs ((compare_gives op kind a b).map fun _ _ =>
      S.plain rfl)
  | convert source target signed =>
    rw [execute]
    refine .pop hs (Nat.le_refl 1) fun v rest h hs hv => ?_
    exact .deliver (by simp [Op.takes, h]) rfl hs (convert_gives source target signed hv)
  | call i n =>
    rw [execute]
    exact .popMany hs rfl fun hlen hargs _ => .call rfl hlen hargs
  | callIndirect n returns =>
    rw [execute]
    refine .pop hs (by simp [Op.takes]) fun callee tail hc hs hcallee => ?_
    split
    · unfold State.popMany
      split
      · have hr : s.current.stack.drop (n + 1) = tail.drop n := by simp [hc]
        have h (i : Nat) (args : List Value) (hi : S.Holds (.method i)) (hargs : ∀ v ∈ args,
            S.Holds v) : Effect S p m s (.callIndirect n returns)
              (.call (s.withStack (s.current.stack.drop (n + 1))) i args _) :=
          .callIndirect rfl hi hargs
        rw [hr] at h
        refine h _ _ hcallee fun v hv => hs.current.stack v ?_
        exact mem_of_mem_take (mem_reverse.mp hv)
      · next h =>
        have hn : ¬ n ≤ tail.length := h
        exact .fault (.inr ⟨rfl, by simp only [Op.takes, hc, length_cons]; omega⟩) hs
    · exact .of_fault hs (S.ordinary rfl)
  | callService service n =>
    rw [execute]
    refine .popMany hs rfl fun hlen hargs hrest => ?_
    have hin := hrest.serve (p := p) ⟨hargs, hop.imp_left hlen.trans⟩
    split
    · next v h =>
      rw [h] at hin
      obtain ⟨ht, hv, hserves⟩ := hin
      exact .next [v] (.callService hserves) (by simpa [Op.gives] using hserves.isSome)
        (ht.push (hv v rfl))
    · next h =>
      rw [h] at hin
      obtain ⟨ht, -, hserves⟩ := hin
      exact .next [] (.callService hserves) (by simpa [Op.gives] using hserves.isSome) ht
    · next f h =>
      rw [h] at hin
      cases f with
      | fault f => exact .of_fault hin.1 hin.2
      | exception v =>
        obtain ⟨-, hv, rfl, rfl⟩ := hin
        exact .raise rfl hv
  | packVarArgs n =>
    rw [execute]
    exact .popMany hs rfl fun _ hvs hrest => .keep [_] rfl rfl (hrest.push (S.varArgs.mpr hvs))
  | nextVarArg ty =>
    rw [execute]
    refine .pop hs (Nat.le_refl 1) fun address rest h hs ha => ?_
    exact nextVarArg_effect h hs ha
  | dup =>
    rw [execute]
    refine .pop hs (Nat.le_refl 1) fun v rest h hs hv => ?_
    exact .keep [v, v] (show s.current.stack.drop 1 = rest by simp [h]) rfl ((hs.push hv).push hv)
  | pop =>
    rw [execute]
    refine .pop hs (Nat.le_refl 1) fun v rest h hs _ => ?_
    exact .keep [] (by simp [Op.takes, h]) rfl hs
  | branch l => exact .jump (by simp [Op.targets])
  | branchTrue l => exact branchIf_effect hs rfl rfl (by simp [Op.targets])
  | branchFalse l => exact branchIf_effect hs rfl rfl (by simp [Op.targets])
  | switchValue cases default =>
    rw [execute]
    refine .pop hs (Nat.le_refl 1) fun v rest h hs _ => ?_
    have hr : s.current.stack.drop ((Op.switchValue cases default).takes m) = rest := by
      simp [Op.takes, h]
    split
    · rw [← hr]
      refine .jump ?_
      cases hl : cases.lookup ‹_› with
      | none => simp [Op.targets]
      | some l => exact mem_append_left _ (lookup_mem hl)
    · exact .of_fault hs (S.ordinary rfl)
  | leave l => exact .leave rfl
  | ret =>
    rw [execute]
    split
    · next hv =>
      have h : Effect S p m s .ret (.ret _ none) := .ret rfl (by simp [hv]) (by simp)
      simpa [Op.takes, hv, State.withStack] using h
    · next hv =>
      refine .pop hs (by simp [Op.takes, hv]) fun v rest h _ hholds => ?_
      have hret : Effect S p m s .ret (.ret _ (some v)) :=
        .ret rfl (by simp [hv]) (by simpa using hholds)
      simpa [Op.takes, hv, h] using hret
  | throw =>
    rw [execute]
    refine .pop hs (Nat.le_refl 1) fun v rest h _ hv => ?_
    have hraise : Effect S p m s .throw (.fail _ (.exception v)) := .raise rfl hv
    simpa [Op.takes, h] using hraise
  | unreachable => exact .of_fault hs (S.ordinary rfl)

theorem names_all (p : Program) (s : State) (op : Op) : Names .all p s op := by
  cases op with
  | loadConst | loadArg | callService => exact .inr rfl
  | _ => exact trivial

/-- What an operation does in any state. -/
theorem execute_effect (p : Program) (m : Method) (s : State) (op : Op) :
    Effect .all p m s op (execute p m s op) :=
  execute_within s.within_all (names_all p s op)

/-! ## Control -/

/-- The operation that comes next raises an exception. -/
def Raises (p : Program) (s : State) (v : Value) : Prop :=
  ∃ m op t, p.methods[s.current.method]? = some m ∧ m.body.ops[s.current.pc]? = some op ∧
    execute p m s op = .fail t (.exception v)

theorem enter_eq_ok {args : List Value} {frames method : Nat} {use : ResultUse} :
    enter p frames method args use = .ok f ↔
      ∃ m, p.methods[method]? = some m ∧ args.length = m.type.argSlots ∧ frames < maxDepth ∧
        f = { method, args, locals := m.body.locals.map (defaultValue p.records), use } := by
  unfold enter
  cases p.methods[method]? with
  | none => simp
  | some m =>
    by_cases hargs : args.length = m.type.argSlots
    · by_cases hdepth : frames < maxDepth
      · simp [hargs, hdepth, Nat.not_le.mpr hdepth, eq_comm]
      · simp [hargs, hdepth, Nat.not_lt.mp hdepth]
    · simp [hargs]

theorem enter_tame {args : List Value} {frames method : Nat} {use : ResultUse} (f : Fault)
    (h : enter p frames method args use = .error f) : f.isControl = false := by
  unfold enter at h
  split at h
  · cases h
    rfl
  · split at h
    · cases h
      rfl
    · split at h
      · cases h
        rfl
      · cases h

/-- A caller goes on behind its call, maybe with the result. -/
theorem resume_eq_ok {callee caller : Frame} {r : Option Value}
    (h : resume callee caller r = .ok f) :
    ∃ vs, (∀ v ∈ vs, r = some v) ∧
      f = { caller with pc := caller.pc + 1, stack := vs ++ caller.stack } := by
  unfold resume at h
  dsimp only at h
  split at h <;> cases h
  · exact ⟨[], nofun, rfl⟩
  · exact ⟨[], nofun, rfl⟩
  · exact ⟨[_], by simp, rfl⟩

theorem resume_eq_error {callee caller : Frame} {r : Option Value} {f : Fault}
    (h : resume callee caller r = .error f) : f = .noResult callee.method := by
  unfold resume at h
  dsimp only at h
  split at h <;> cases h
  rfl

/-- An exception reaches a handler, or nothing catches it. -/
theorem unwind_cases (p : Program) (w : World) (v : Value) (fs : List Frame) :
    unwind p w v fs = .finished w (.error (.uncaught v)) ∨ ∃ inner f outer pc, fs = inner ++
      f :: outer ∧ ((p.methods[f.method]?).bind fun m => handler? m f.pc) = some pc ∧
      unwind p w v fs = .running ⟨{ f with stack := [v], pc }, outer, w⟩ := by
  induction fs with
  | nil => exact .inl rfl
  | cons f fs ih =>
    rw [unwind]
    split
    · next pc hpc => exact .inr ⟨[], f, fs, pc, rfl, hpc, rfl⟩
    · refine ih.imp_right ?_
      rintro ⟨inner, g, outer, pc, rfl, h⟩
      exact ⟨f :: inner, g, outer, pc, rfl, h⟩

/-- An operation that calls a method and uses its result as said. -/
inductive Suits (method : Nat) : ResultUse → Op → Prop
  | call {n : Nat} : Suits method .pushed (.call method n)
  | indirect {n : Nat} {returns : Bool} :
      Suits method (if returns then .required else .dropped) (.callIndirect n returns)

/-- What a step at an operation comes to. -/
inductive Goes (S : Scope) (p : Program) (m : Method) (s : State) (op : Op) : Outcome → Prop
  | next {t : State} (vs : List Value) (h : Acts p m s op t) (hv : vs.length = op.gives)
      (hx : execute p m s op = .next (t.withStack (vs ++ t.current.stack)))
      (ht : (t.withStack (vs ++ t.current.stack)).Within S) :
      Goes S p m s op (.running ((t.withStack (vs ++ t.current.stack)).goTo (s.current.pc + 1)))
  | jump {l : Label} {stack : List Value} {pc : Nat} (hl : l ∈ op.targets)
      (hs : op ≠ .leave l ∧ stack = s.current.stack.drop (op.takes m) ∨ op = .leave l ∧ stack = [])
      (hpc : Code.position? m.body.ops l = some pc) :
      Goes S p m s op (.running ((s.withStack stack).goTo pc))
  | call {i : Nat} {args : List Value} {use : ResultUse} {f : Frame} (hop : Suits i use op)
      (hargs : ∀ v ∈ args, S.Holds v) (hf : enter p (s.depth + 1) i args use = .ok f) :
      Goes S p m s op (.running ⟨f, (s.withStack (s.current.stack.drop (op.takes m))).current ::
        s.callers, s.world⟩)
  | returns {r : Option Value} {caller f : Frame} {rest : List Frame} (hop : op = .ret)
      (hr : r.isSome = !m.type.ret.isVoid) (hv : ∀ v, r = some v → S.Holds v)
      (hc : s.callers = caller :: rest) (hf : resume s.current caller r = .ok f) :
      Goes S p m s op (.running ⟨f, rest, s.world⟩)
  | catches {v : Value} {inner outer : List Frame} {f : Frame} {pc : Nat} (h : op.raises = true)
      (hr : Raises p s v) (hv : S.Holds v) (hs : s.current :: s.callers = inner ++ f :: outer)
      (hpc : ((p.methods[f.method]?).bind fun m => handler? m f.pc) = some pc) :
      Goes S p m s op (.running ⟨{ f with stack := [v], pc }, outer, s.world⟩)
  | ends {r : Option Value} (hc : s.callers = []) : Goes S p m s op (.finished s.world (.ok r))
  | uncaught {v : Value} (hr : Raises p s v) :
      Goes S p m s op (.finished s.world (.error (.uncaught v)))
  | fault {t : State} {f : Fault} (hx : execute p m s op = .fail t (.fault f))
      (h : S.Reports f ∨ f = .stackUnderflow ∧ s.current.stack.length < op.takes m)
      (ht : t.Within S) : Goes S p m s op (.finished t.world (.error f))
  | unmarked {l : Label} (hl : l ∈ op.targets) (hpc : Code.position? m.body.ops l = none) :
      Goes S p m s op (.finished s.world (.error (.unmarkedLabel l)))
  | refuses {i : Nat} {args : List Value} {use : ResultUse} {f : Fault}
      (hop : op = .call i args.length ∨ (∃ n returns, op = .callIndirect n returns) ∧
        S.Holds (.method i))
      (hf : enter p (s.depth + 1) i args use = .error f) :
      Goes S p m s op (.finished s.world (.error f))
  | noResult : Goes S p m s op (.finished s.world (.error (.noResult s.current.method)))

/-- What a step at an operation comes to in a scope. -/
theorem step_within (hs : s.Within S) (hop : Names S p s op)
    (hm : p.methods[s.current.method]? = some m) (ho : m.body.ops[s.current.pc]? = some op) :
    Goes S p m s op (step p s) := by
  have heffect : Effect S p m s op (execute p m s op) := execute_within hs hop
  have hjump {l : Label} {stack : List Value} (hl : l ∈ op.targets)
      (h : op ≠ .leave l ∧ stack = s.current.stack.drop (op.takes m) ∨ op = .leave l ∧ stack = []) :
      Goes S p m s op ((s.withStack stack).jumpTo m l) := by
    unfold State.jumpTo
    split
    · next hpc => exact .jump hl h hpc
    · next hpc => exact .unmarked hl hpc
  rw [step, hm]
  dsimp only
  rw [ho]
  dsimp only
  generalize hx : execute p m s op = action at heffect
  cases heffect with
  | @next t vs h hv ht =>
    have hpc : t.current.pc = s.current.pc := (h.alters vs).pc
    have hgoes := Goes.next vs h hv hx ht
    rwa [← hpc] at hgoes
  | jump hl =>
    refine hjump hl (.inl ⟨?_, rfl⟩)
    rintro rfl
    cases hx
  | leave hop => exact hjump (by simp [hop, Op.targets]) (.inr ⟨hop, rfl⟩)
  | call hop hlen hargs =>
    subst hop hlen
    rw [Action.outcome]
    split
    · next hf => exact .call .call hargs hf
    · next hf => exact .refuses (.inl rfl) hf
  | callIndirect hop hi hargs =>
    subst hop
    rw [Action.outcome]
    split
    · next hf => exact .call .indirect hargs hf
    · next hf => exact .refuses (.inr ⟨⟨_, _, rfl⟩, hi⟩) hf
  | ret hop hr hv =>
    rw [Action.outcome]
    split
    · next hc => exact .ends hc
    · next hc =>
      split
      · next hf => exact .returns hop hr hv hc hf
      · next hf =>
        cases resume_eq_error hf
        exact .noResult
  | fault h ht => exact .fault hx h ht
  | @raise v hraises hv =>
    -- An exception takes the stack of the frame that handles it away, so the values left on it do
    -- not matter.
    show Goes S p m s op (unwind p s.world v (s.current :: s.callers))
    have hr : Raises p s v := ⟨m, op, _, hm, ho, hx⟩
    rcases unwind_cases p s.world v (s.current :: s.callers) with h | ⟨inner, f, outer, pc,
      hsplit, hpc, h⟩
    · rw [h]
      exact .uncaught hr
    · rw [h]
      exact .catches hraises hr hv hsplit hpc

theorem step_goes (hm : p.methods[s.current.method]? = some m)
    (ho : m.body.ops[s.current.pc]? = some op) : Goes .all p m s op (step p s) :=
  step_within s.within_all (names_all p s op) hm ho

/-- A step is made at an operation, unless the method is missing or its code is at an end. -/
theorem step_cases (p : Program) (s : State) :
    (∃ f, step p s = .finished s.world (.error f) ∧
      (f.isControl = true → ∃ m, p.methods[s.current.method]? = some m ∧
        m.body.ops[s.current.pc]? = none ∧ f = .ranPastEnd m.name)) ∨
      ∃ m op, p.methods[s.current.method]? = some m ∧ m.body.ops[s.current.pc]? = some op ∧
        Goes .all p m s op (step p s) := by
  cases hm : p.methods[s.current.method]? with
  | none => exact .inl ⟨.missingMethod s.current.method, by simp [step, hm], nofun⟩
  | some m =>
    cases ho : m.body.ops[s.current.pc]? with
    | none => exact .inl ⟨.ranPastEnd m.name, by simp [step, hm, ho], fun _ => ⟨m, rfl, ho, rfl⟩⟩
    | some op => exact .inr ⟨m, op, rfl, ho, step_goes hm ho⟩

theorem step_running (h : step p s = .running t) :
    ∃ m op, p.methods[s.current.method]? = some m ∧ m.body.ops[s.current.pc]? = some op ∧
      Goes .all p m s op (.running t) := by
  rcases step_cases p s with ⟨f, hf, -⟩ | hgoes
  · cases h.symm.trans hf
  · rwa [h] at hgoes

/-- A run ends with a fault of control only if an exception is raised, an operand is missing or the
code is at an end. -/
theorem control_fault {f : Fault} (h : step p s = .finished w (.error f))
    (hf : f.isControl = true) :
    (∃ v, f = .uncaught v ∧ Raises p s v) ∨ (∃ m op, p.methods[s.current.method]? = some m ∧
      m.body.ops[s.current.pc]? = some op ∧ f = .stackUnderflow ∧
        s.current.stack.length < op.takes m) ∨
      ∃ m, p.methods[s.current.method]? = some m ∧ m.body.ops[s.current.pc]? = none ∧
        f = .ranPastEnd m.name := by
  rcases step_cases p s with ⟨f', hend, hpast⟩ | ⟨m, op, hm, ho, hgoes⟩
  · cases h.symm.trans hend
    exact .inr (.inr (hpast hf))
  · rw [h] at hgoes
    cases hgoes with
    | uncaught hr => exact .inl ⟨_, rfl, hr⟩
    | fault _ hfault =>
      exact .inr (.inl ⟨m, op, hm, ho,
        hfault.resolve_left fun (h : f.isControl = false) => by simp [hf] at h⟩)
    | unmarked | noResult => cases hf
    | refuses _ h =>
      rw [enter_tame _ h] at hf
      cases hf

end Stackify.Machine
