import Stackify.Proofs.Execution
import Stackify.Proofs.FrameSteps
import Stackify.Proofs.StackDiscipline

/-!
Exceptions that are caught and raised again.

A method keeps the exceptions that it catches in one local, which only its handlers write to
(`Method.KeepsExceptions`). So what it raises again is the exception that the same call has caught
last, whichever handler has caught it (`rethrow_raises_caughtLast`). An exception that was caught
before is lost, even if the source means that one (`resume_raises_later`).
-/

namespace Stackify.Code

/-- A method has a local for exceptions: handlers begin by writing to it, and nothing else does;
what is raised again comes from it. -/
structure Method.KeepsExceptions (m : Method) (x : Nat) : Prop where
  handlers : ∀ r ∈ m.body.regions, ∀ pc, m.body.ops[pc]? = some (.label r.handlerStart) →
    m.body.ops[pc + 1]? = some (.storeLocal x)
  stores : ∀ pc, m.body.ops[pc]? = some (.storeLocal x) →
    ∃ k, ∃ r ∈ m.body.regions, pc = k + 1 ∧ m.body.ops[k]? = some (.label r.handlerStart)
  throws : ∀ pc, m.body.ops[pc]? = some .throw → ∃ k, pc = k + 1 ∧
    m.body.ops[k]? = some (.loadLocal x)
  inits : .initLocal x ∉ m.body.ops
  addresses : .loadLocalAddress x ∉ m.body.ops

/-- What stands behind an operation that begins no handler. -/
theorem Method.KeepsExceptions.behind {m : Method} {x pc : Nat} {op : Op} (h : m.KeepsExceptions x)
    (ho : m.body.ops[pc]? = some op) (hop : ∀ r ∈ m.body.regions, op ≠ .label r.handlerStart) :
    m.body.ops[pc + 1]? ≠ some (.storeLocal x) ∧ (m.body.ops[pc + 1]? = some .throw →
      op = .loadLocal x) := by
  refine ⟨fun hstore => ?_, fun hthrow => ?_⟩
  · obtain ⟨_, r, hr, hpc, hl⟩ := h.stores _ hstore
    cases hpc
    exact hop r hr (Option.some.inj (ho.symm.trans hl))
  · obtain ⟨_, hpc, hl⟩ := h.throws _ hthrow
    cases hpc
    exact Option.some.inj (ho.symm.trans hl)

end Stackify.Code

namespace Stackify.Machine

open Code (Op Label Method Program)
open Option

/-! ## Exceptions in frames -/

/-- A pointer on the stack leads to a local whose address the method of its frame never takes: it is
older than the frame. -/
def Stray (p : Program) (s : State) (d : Nat) : Prop :=
  ∃ i f m, PointedTo s.current.stack d i ∧ s.frames[d]? = some f ∧ p.methods[f.method]? = some m ∧
    .loadLocalAddress i ∉ m.body.ops

/-- In a run, the call in frame `d` is still under way and has caught `v` last. No pointer from an
earlier call in this frame was used since. -/
inductive CaughtLast (p : Program) (start : State) (d : Nat) (v : Value) : State → Prop
  | caught {s t : State} : Steps p start s → step p s = .running t → Raises p s v → t.depth = d →
      CaughtLast p start d v t
  | later {s t : State} : CaughtLast p start d v s → step p s = .running t → d ≤ t.depth →
      (∀ w, Raises p s w → t.depth ≠ d) → ¬ Stray p s d → CaughtLast p start d v t

/-- The exception that the next operation raises. -/
def raised? (p : Program) (s : State) : Option Value := do
  let m ← p.methods[s.current.method]?
  let op ← m.body.ops[s.current.pc]?
  match execute p m s op with
  | .fail _ (.exception v) => some v
  | _ => none

/-- Takes a number of steps that are all admitted. -/
def walk (p : Program) (admits : State → State → Bool) : Nat → State → Option State
  | 0, s => some s
  | n + 1, s =>
    match step p s with
    | .running t => if admits s t then walk p admits n t else none
    | .finished _ _ => none

/-- A step after which frame `d` is there and has caught nothing, without pointers to locals on the
stack. -/
def keepsCaught (p : Program) (d : Nat) (s t : State) : Bool :=
  d ≤ t.depth && ((raised? p s).isNone || t.depth ≠ d) && s.current.stack.all fun v =>
    !(v matches .pointer (.ofLocal _ _ _))

/-- What step `k` of a run makes a frame catch, and the state `n` steps later, if the frame has
caught nothing else. -/
def caughtLast? (p : Program) (start : State) (k n : Nat) : Option (Value × State) := do
  let s ← walk p (fun _ _ => true) k start
  let v ← raised? p s
  match step p s with
  | .finished _ _ => none
  | .running t =>
    let u ← walk p (keepsCaught p t.depth) n t
    if u.depth = t.depth then some (v, u) else none

/-- Where a frame has the exception that it has caught: on the stack while its handler begins, then
in the local. -/
inductive HoldsException (m : Method) (x : Nat) (v : Value) (f : Frame) : Prop
  | handler {r : Code.Region} (hr : r ∈ m.body.regions)
      (ho : m.body.ops[f.pc]? = some (.label r.handlerStart)) (hs : f.stack = [v])
  | storing (ho : m.body.ops[f.pc]? = some (.storeLocal x)) (hs : f.stack = [v])
  | stored (hl : f.locals[x]? = some v)
      (hr : ∀ r ∈ m.body.regions, m.body.ops[f.pc]? ≠ some (.label r.handlerStart))
      (ho : m.body.ops[f.pc]? ≠ some (.storeLocal x)) (ht : m.body.ops[f.pc]? = some .throw →
        f.stack.head? = some v)

variable {p : Program} {m : Method} {x d : Nat} {v : Value} {s t : State} {f g : Frame}
  {use : ResultUse} {i n : Nat} {op : Op}

theorem Awaited.at_call {method : Nat} {fs : List Frame} (h : Awaited p method use fs) (hf : f ∈ fs)
    (hm : p.methods[f.method]? = some m) :
    ∃ i use op, m.body.ops[f.pc]? = some op ∧ Suits i use op := by
  induction h with
  | nil => cases hf
  | cons hm' ho hsuits _ _ ih =>
    rcases List.mem_cons.mp hf with rfl | hf
    · cases hm.symm.trans hm'
      exact ⟨_, _, _, ho, hsuits⟩
    · exact ih hf

/-- A frame that waits for a call has its exception in the local. -/
theorem HoldsException.at_call (h : HoldsException m x v f) (ho : m.body.ops[f.pc]? = some op)
    (hop : Suits i use op) : f.locals[x]? = some v := by
  cases h with
  | handler _ ho' => cases ho.symm.trans ho'; cases hop
  | storing ho' => cases ho.symm.trans ho'; cases hop
  | stored hl => exact hl

theorem HoldsException.of_call (hl : f.locals[x]? = some v) (ho : m.body.ops[f.pc]? = some op)
    (hop : Suits i use op) : HoldsException m x v f := by
  refine .stored hl (fun r _ hr => ?_) (fun hstore => ?_) fun hthrow => ?_
  · cases ho.symm.trans hr
    cases hop
  · cases ho.symm.trans hstore
    cases hop
  · cases ho.symm.trans hthrow
    cases hop

theorem execute_storeLocal {u : State} {rest : List Value} (hs : s.current.stack = v :: rest)
    (h : execute p m s (.storeLocal i) = .next u) : u.current.locals[i]? = some v := by
  rw [execute, State.pop_cons hs] at h
  split at h
  · next t ht =>
    cases h
    obtain ⟨f, hf, hlt, hframes, -⟩ := State.setLocal_eq_ok ht
    have hcurrent := u.frames_depth
    rw [(Alters.setLocal (W := fun _ _ => True) ht trivial).depth, hframes,
      List.getElem?_set_self (lt_of_getElem? hf)] at hcurrent
    rw [← some.inj hcurrent]
    exact List.getElem?_set_self hlt
  · cases h

theorem execute_loadLocal (hl : s.current.locals[i]? = some v) :
    execute p m s (.loadLocal i) = .next (s.push v) := by
  have hlocal : s.local? s.depth i = .ok v := by
    rw [State.local?, State.frame?_eq, State.frames_depth, bind_some, hl]
  show s.deliver (s.local? s.depth i) = _
  rw [hlocal]
  rfl

/-- A step keeps the exception that a frame has caught, unless the frame catches another one. -/
theorem HoldsException.step (hp : Steady p) (hs : InOrder p s) (h : Machine.step p s = .running t)
    (hf : s.frames[d]? = some f) (hm : p.methods[f.method]? = some m) (hx : m.KeepsExceptions x)
    (hv : HoldsException m x v f) (hd : d ≤ t.depth) (hc : ∀ w, Raises p s w → t.depth ≠ d)
    (hstray : ¬ Stray p s d) :
    ∃ g, t.frames[d]? = some g ∧ g.method = f.method ∧ HoldsException m x v g := by
  obtain ⟨m', op, hm', ho'⟩ := exists_op_of_running h
  obtain ⟨g, hg, hkept, hcontrol⟩ := step_frame hm' ho' h hf hd
  refine ⟨g, hg, hkept.method, ?_⟩
  have hcurrent (hds : d = s.depth) : f = s.current ∧ m' = m := by
    subst hds
    cases hf.symm.trans s.frames_depth
    exact ⟨rfl, some.inj (hm'.symm.trans hm)⟩
  have hcaller (hds : d < s.depth) : ∃ i use op, m.body.ops[f.pc]? = some op ∧ Suits i use op := by
    refine hs.callers.at_call ?_ hm
    rw [State.frames, List.getElem?_append_left (by simpa [State.depth] using hds)] at hf
    exact List.mem_reverse.mp (List.mem_of_getElem? hf)
  -- The local is written to by its handlers only.
  have hsame (hop : d = s.depth → op ≠ .storeLocal x) : g.locals[x]? = f.locals[x]? := by
    refine hkept.same x ?_
    rintro (⟨hds, hwritten⟩ | hpointed)
    · obtain ⟨-, rfl⟩ := hcurrent hds
      unfold Op.written? at hwritten
      split at hwritten <;> cases hwritten
      · exact hop hds rfl
      · exact hx.inits (List.mem_of_getElem? ho')
    · exact hstray ⟨x, f, m, hpointed, hf, hm, hx.addresses⟩
  -- Handlers begin only when an exception arrives.
  have hplain (hdt : d = t.depth) :
      ∀ r ∈ m.body.regions, m.body.ops[g.pc]? ≠ some (.label r.handlerStart) := by
    subst hdt
    cases hg.symm.trans t.frames_depth
    intro r hr hl
    have hmt : p.methods[t.current.method]? = some m := hkept.method ▸ hm
    obtain ⟨w, hw, -⟩ := (hs.step hp h).handled m _ hmt hl (Code.roleIn_eq_handler.mpr ⟨r, hr, rfl⟩)
    exact hc w hw rfl
  cases hcontrol with
  | waits hds hdt hbare =>
    obtain ⟨_, _, _, hcall, hsuits⟩ := hcaller hds
    have hpc : g.pc = f.pc := (congrArg Frame.pc hbare :)
    refine .of_call ?_ (hpc ▸ hcall) hsuits
    rw [hsame fun h => absurd h (Nat.ne_of_lt hds)]
    exact hv.at_call hcall hsuits
  | returns vs hds hdt hop hbare =>
    obtain ⟨_, _, _, hcall, hsuits⟩ := hcaller hds
    have hpc : g.pc = f.pc + 1 := congrArg Frame.pc hbare
    obtain ⟨hstore, hthrow⟩ := hx.behind hcall fun r _ heq => by subst heq; cases hsuits
    refine .stored ?_ (hplain hdt) (hpc ▸ hstore) fun h => ?_
    · rw [hsame fun h => absurd h (Nat.ne_of_lt hds)]
      exact hv.at_call hcall hsuits
    · cases hthrow (hpc ▸ h)
      cases hsuits
  | catches hdt hr => exact absurd hdt.symm (hc _ hr)
  | calls hds hdt hop hbare =>
    obtain ⟨rfl, rfl⟩ := hcurrent hds
    have hpc : g.pc = s.current.pc := (congrArg Frame.pc hbare :)
    obtain ⟨i, use, hsuits⟩ : ∃ i use, Suits i use op := by
      rcases hop with ⟨i, n, rfl⟩ | ⟨n, returns, rfl⟩
      · exact ⟨i, _, .call⟩
      · exact ⟨0, _, .indirect⟩
    refine .of_call ?_ (hpc ▸ ho') hsuits
    rw [hsame fun _ heq => by subst heq; cases hsuits]
    exact hv.at_call ho' hsuits
  | @goesOn u hds hdt hnext hgu =>
    obtain ⟨rfl, rfl⟩ := hcurrent hds
    have hpc : g.pc = s.current.pc + 1 := by rw [hgu]
    cases hv with
    | @handler r hr ho hstack =>
      cases ho'.symm.trans ho
      cases hnext
      refine .storing (hpc ▸ hx.handlers r hr _ ho) ?_
      rw [hgu]
      exact hstack
    | storing ho hstack =>
      cases ho'.symm.trans ho
      obtain ⟨hstore, hthrow⟩ := hx.behind ho (by simp)
      refine .stored ?_ (hplain hdt) (hpc ▸ hstore) fun h => ?_
      · rw [hgu]
        exact execute_storeLocal hstack hnext
      · cases hthrow (hpc ▸ h)
    | stored hlocal hr ho ht =>
      obtain ⟨hstore, hthrow⟩ := hx.behind ho' fun r hmem heq => hr r hmem (heq ▸ ho')
      refine .stored ?_ (hplain hdt) (hpc ▸ hstore) fun h => ?_
      · rw [hsame fun _ heq => ho (heq ▸ ho')]
        exact hlocal
      · cases hthrow (hpc ▸ h)
        rw [execute_loadLocal hlocal] at hnext
        cases hnext
        rw [hgu]
        rfl
  | jumps hds hdt hop hl =>
    obtain ⟨rfl, rfl⟩ := hcurrent hds
    cases hv with
    | handler _ ho | storing ho =>
      cases ho'.symm.trans ho
      simp [Op.targets] at hop
    | stored hlocal hr ho ht =>
      refine .stored ?_ (hplain hdt) (by simp [hl]) (by simp [hl])
      rw [hsame fun _ heq => ho (heq ▸ ho')]
      exact hlocal

/-- An exception that does not end the run arrives at a handler. -/
theorem Raises.arrives (hr : Raises p s v) (h : Machine.step p s = .running t) :
    ∃ m, p.methods[t.current.method]? = some m ∧ ∃ r ∈ m.body.regions,
      m.body.ops[t.current.pc]? = some (.label r.handlerStart) ∧ t.current.stack = [v] := by
  obtain ⟨m, op, u, hm, ho, hx⟩ := hr
  rw [Machine.step, hm] at h
  dsimp only at h
  rw [ho] at h
  dsimp only at h
  rw [hx] at h
  rcases unwind_cases p u.world v (u.current :: u.callers) with hend | ⟨_, f, _, pc, -, hpc, hrun⟩
  · cases h.symm.trans hend
  cases h.symm.trans hrun
  obtain ⟨m', hm', hhandler⟩ := bind_eq_some_iff.mp hpc
  obtain ⟨r, hmem, hl⟩ := handler?_label hhandler
  exact ⟨m', hm', r, hmem, hl, rfl⟩

theorem raised?_eq_some : raised? p s = some v ↔ Raises p s v := by
  constructor
  · intro h
    obtain ⟨m, hm, h⟩ := bind_eq_some_iff.mp h
    obtain ⟨op, ho, h⟩ := bind_eq_some_iff.mp h
    split at h
    · next u _ hx =>
      cases h
      exact ⟨m, op, u, hm, ho, hx⟩
    · cases h
  · rintro ⟨m, op, u, hm, ho, hx⟩
    simp [raised?, hm, ho, hx]

theorem walk_invariant {I : State → Prop} {admits : State → State → Bool}
    (hI : ∀ s t, I s → Machine.step p s = .running t → admits s t = true → I t) (hs : I s)
    (h : walk p admits n s = some t) : I t := by
  induction n generalizing s with
  | zero =>
    cases h
    exact hs
  | succ n ih =>
    rw [walk] at h
    split at h
    · next u hu =>
      split at h
      · next hadmits => exact ih (hI s u hs hu hadmits) h
      · cases h
    · cases h

variable {start : State} {xs : Nat → Nat}

/-- Exceptions that were caught last can be computed. -/
theorem caughtLast_of_eq_some {k : Nat} (h : caughtLast? p start k n = some (v, t)) :
    CaughtLast p start t.depth v t := by
  obtain ⟨s, hs, h⟩ := bind_eq_some_iff.mp h
  obtain ⟨v', hv, h⟩ := bind_eq_some_iff.mp h
  split at h
  · cases h
  · next u hu =>
    obtain ⟨t', ht, h⟩ := bind_eq_some_iff.mp h
    split at h
    · next hdepth =>
      cases h
      have hsteps : Steps p start s :=
        walk_invariant (fun _ _ hs h _ => hs.trans (.one h)) (Steps.refl p start) hs
      rw [hdepth]
      refine walk_invariant (fun s t hs h hadmits => ?_)
        (.caught hsteps hu (raised?_eq_some.mp hv) rfl) ht
      simp only [keepsCaught, Bool.and_eq_true, decide_eq_true_eq, Bool.or_eq_true,
        List.all_eq_true] at hadmits
      obtain ⟨⟨hle, hcaught⟩, hpointers⟩ := hadmits
      refine .later hs h hle (fun w hw heq => ?_) ?_
      · rw [raised?_eq_some.mpr hw] at hcaught
        simp [heq] at hcaught
      · rintro ⟨i, _, _, ⟨path, hmem⟩, -⟩
        simpa using hpointers _ hmem
    · cases h

/-- A frame has the exception that it has caught last. -/
theorem CaughtLast.holds (hp : Steady p) (hx : ∀ i (m : Method), p.methods[i]? = some m →
    m.KeepsExceptions (xs i)) (hstart : InOrder p start) (h : CaughtLast p start d v t) :
    InOrder p t ∧ ∃ f m, t.frames[d]? = some f ∧ p.methods[f.method]? = some m ∧
      HoldsException m (xs f.method) v f := by
  induction h with
  | @caught s t hsteps hstep hr hd =>
    subst hd
    have hs : InOrder p s := hsteps.invariant (fun _ _ hs h => (hs.step hp h).order) hstart
    obtain ⟨m, hm, r, hmem, hl, hstack⟩ := hr.arrives hstep
    exact ⟨(hs.step hp hstep).order, _, m, t.frames_depth, hm, .handler hmem hl hstack⟩
  | later _ hstep hd hc hstray ih =>
    obtain ⟨hs, f, m, hf, hm, hv⟩ := ih
    obtain ⟨g, hg, hmethod, hv⟩ := hv.step hp hs hstep hf hm (hx _ m hm) hd hc hstray
    exact ⟨(hs.step hp hstep).order, g, m, hg, hmethod ▸ hm, hmethod ▸ hv⟩

/-- What is raised again is the exception that was caught last. -/
theorem CaughtLast.rethrows (hp : Steady p)
    (hx : ∀ i (m : Method), p.methods[i]? = some m → m.KeepsExceptions (xs i))
    (hstart : InOrder p start) (h : CaughtLast p start t.depth v t)
    (hm : p.methods[t.current.method]? = some m) {y : Nat}
    (hat : CodeAt m t.current.pc [.loadLocal y, .throw]) :
    ∃ u, Machine.step p t = .running u ∧ Raises p u v := by
  obtain ⟨-, f, m', hf, hm', hv⟩ := h.holds hp hx hstart
  cases hf.symm.trans t.frames_depth
  cases hm.symm.trans hm'
  have hload := hat.head
  have hthrow := hat.tail.head
  obtain ⟨_, hpc, hload'⟩ := (hx _ m hm).throws _ hthrow
  cases hpc
  cases hload.symm.trans hload'
  cases hv with
  | handler _ ho | storing ho => cases hload.symm.trans ho
  | stored hlocal =>
    refine ⟨(t.push v).goTo (t.current.pc + 1), ?_, m, .throw, (t.goTo (t.current.pc + 1)),
      hm, hthrow, ?_⟩
    · rw [Machine.step, hm]
      dsimp only
      rw [hload]
      dsimp only
      rw [execute_loadLocal hlocal]
      rfl
    · rfl

end Stackify.Machine

namespace Stackify.Lower

open Code (Op Label Method Program Region)
open Machine (State World Value Frame Steps Raises CaughtLast CodeAt enter step)
open Stackify.Flow (Node NodeId)
open List Option

/-! ## The local for exceptions -/

/-- Code in which the local `x` is for exceptions only. -/
structure ExceptionCode (x : Nat) (ops : List Op) (rs : List Region) : Prop where
  handlers : ∀ r ∈ rs, ∃ pc, ops[pc]? = some (.label r.handlerStart) ∧
    ops[pc + 1]? = some (.storeLocal x)
  stores : ∀ pc, ops[pc]? = some (.storeLocal x) → ∃ k, ∃ r ∈ rs, pc = k + 1 ∧
    ops[k]? = some (.label r.handlerStart)
  throws : ∀ pc, ops[pc]? = some .throw → ∃ k, pc = k + 1 ∧ ops[k]? = some (.loadLocal x)
  inits : .initLocal x ∉ ops
  addresses : .loadLocalAddress x ∉ ops

variable {x : Nat} {ops ops' : List Op} {rs rs' : List Region}

theorem ExceptionCode.append (h : ExceptionCode x ops rs) (h' : ExceptionCode x ops' rs') :
    ExceptionCode x (ops ++ ops') (rs ++ rs') := by
  have left {pc : Nat} {op : Op} (ho : ops[pc]? = some op) : (ops ++ ops')[pc]? = some op := by
    rw [getElem?_append_left (lt_of_getElem? ho), ho]
  have right {pc : Nat} {op : Op} (ho : ops'[pc]? = some op) :
      (ops ++ ops')[ops.length + pc]? = some op := by
    rw [getElem?_append_right (Nat.le_add_right _ _), Nat.add_sub_cancel_left, ho]
  have either {pc : Nat} {op : Op} (ho : (ops ++ ops')[pc]? = some op) :
      ops[pc]? = some op ∨ ∃ k, pc = ops.length + k ∧ ops'[k]? = some op := by
    rcases Nat.lt_or_ge pc ops.length with hlt | hge
    · exact .inl (by rwa [getElem?_append_left hlt] at ho)
    · exact .inr ⟨pc - ops.length, by omega, by rwa [getElem?_append_right hge] at ho⟩
  refine ⟨fun r hr => ?_, fun pc ho => ?_, fun pc ho => ?_, ?_, ?_⟩
  · rcases mem_append.mp hr with hr | hr
    · obtain ⟨pc, hl, hstore⟩ := h.handlers r hr
      exact ⟨pc, left hl, left hstore⟩
    · obtain ⟨pc, hl, hstore⟩ := h'.handlers r hr
      exact ⟨ops.length + pc, right hl, right hstore⟩
  · rcases either ho with hleft | ⟨_, rfl, hright⟩
    · obtain ⟨k, r, hr, rfl, hl⟩ := h.stores pc hleft
      exact ⟨k, r, mem_append_left _ hr, rfl, left hl⟩
    · obtain ⟨k, r, hr, rfl, hl⟩ := h'.stores _ hright
      exact ⟨ops.length + k, r, mem_append_right _ hr, rfl, right hl⟩
  · rcases either ho with hleft | ⟨_, rfl, hright⟩
    · obtain ⟨k, rfl, hl⟩ := h.throws pc hleft
      exact ⟨k, rfl, left hl⟩
    · obtain ⟨k, rfl, hl⟩ := h'.throws _ hright
      exact ⟨ops.length + k, rfl, right hl⟩
  · exact fun hmem => (mem_append.mp hmem).elim h.inits h'.inits
  · exact fun hmem => (mem_append.mp hmem).elim h.addresses h'.addresses

/-- Operations that write to the local for exceptions, take its address or raise one again. -/
def handles (x : Nat) : Op → Bool
  | .storeLocal i | .initLocal i | .loadLocalAddress i => i = x
  | .throw => true
  | _ => false

theorem ExceptionCode.of_apart (h : ∀ op ∈ ops, handles x op = false) : ExceptionCode x ops [] where
  handlers := by simp
  stores _ ho := absurd (h _ (mem_of_getElem? ho)) (by simp [handles])
  throws _ ho := absurd (h _ (mem_of_getElem? ho)) (by simp [handles])
  inits hmem := absurd (h _ hmem) (by simp [handles])
  addresses hmem := absurd (h _ hmem) (by simp [handles])

namespace Context

variable {c : Context} {z : Surround} {id : NodeId} {n : Node} {x : Nat} {ops : List Op}
  {rs : List Region}

theorem Straight.apart {pool : List Code.Const} {op : Op} (h : c.Straight pool op)
    (hx : ∀ id, c.slot id ≠ .inLocal x) : handles x op = false := by
  cases op with
  | storeLocal | initLocal | loadLocalAddress =>
    exact decide_eq_false fun hi => h.names.elim (hi ▸ hx)
  | throw => cases h.straight
  | _ => rfl

theorem NodeOp.apart {labels : List Code.Label} {op : Op} (h : NodeOp c z n labels op)
    (hx : ∀ id, c.slot id ≠ .inLocal x) (hn : ¬ (n.kind = .cleanupRet none ∨ n.kind = .resume))
    (hlabels : n.kind ≠ .select → labels = []) : handles x op = false := by
  cases h with
  | straight h => exact h.apart hx
  | caught _ hsome hselect => exact absurd (hlabels hselect) hsome
  | throw hk => exact absurd hk hn
  | ends h => rcases h with rfl | rfl <;> rfl
  | @jump op h => cases op <;> first | rfl | cases h
  | _ => rfl

theorem NodeCode.eq_rethrow (h : NodeCode c z id n ops rs)
    (hn : n.kind = .cleanupRet none ∨ n.kind = .resume) :
    ∃ y, z.exception = some y ∧ ops = [.loadLocal y, .throw] ∧ rs = [] := by
  have other {k : Flow.Kind} (hk : n.kind = k) (hcleanup : k ≠ .cleanupRet none)
      (hresume : k ≠ .resume) : ∃ y, z.exception = some y ∧
        ops = [.loadLocal y, .throw] ∧ rs = [] :=
    (hn.elim (fun h => hcleanup (hk.symm.trans h)) fun h => hresume (hk.symm.trans h)).elim
  cases h with
  | rethrow _ hy => exact ⟨_, hy, rfl, rfl⟩
  | result hp =>
    cases hp with
    | same hk => rcases hk with hk | hk <;> exact other hk (by simp) (by simp)
    | whole hk | load hk | unary hk | binary hk | intCompare hk | floatCompare hk
    | convert hk | vaArg hk
    | address hk => exact other hk (by simp) (by simp)
  | jump hk =>
    cases hk with
    | branch hk | catchRet hk | cleanupRet hk | catchSwitch hk => exact other hk (by simp) (by simp)
  | pad hk => rcases hk with hk | hk | hk <;> exact other hk (by simp) (by simp)
  | alloca hk | noLocal hk | storeWhole hk | store hk | select hk | call hk | invoke hk | guarded hk
  | condBranch hk
  | switch hk | ret hk | retVoid hk | phi hk | unreachable hk | generic hk =>
    exact other hk (by simp) (by simp)

/-- The code of a node uses the local for exceptions only in its handler, or to raise one again. -/
theorem NodeCode.exceptionCode (h : NodeCode c z id n ops rs) (hn : c.graph.node? id = some n)
    (hx : ∀ id, c.slot id ≠ .inLocal x) (hz : ∀ y, z.exception = some y → y = x) :
    ExceptionCode x ops rs := by
  by_cases hk : n.kind = .cleanupRet none ∨ n.kind = .resume
  · obtain ⟨y, hy, rfl, rfl⟩ := h.eq_rethrow hk
    cases hz y hy
    refine ⟨by simp, fun pc ho => ?_, fun pc ho => ?_, by simp, by simp⟩
    · rcases pc with _ | _ | pc <;> cases ho
    · rcases pc with _ | _ | pc <;> cases ho
      exact ⟨0, rfl, rfl⟩
  by_cases hrs : rs = []
  · obtain ⟨labels, -, hnone, hops⟩ := h.nodeOps hn
    rw [hrs]
    exact .of_apart fun op hop => (hops op hop).apart hx hk fun hselect => hnone hselect hrs
  cases h with
  | @guarded _ _ _ _ u y label tryStart tryEnd handlerStart handlerEnd p q _ _ _ _ hp _ hy hq =>
    cases hz y hy
    have hcall : ∀ op ∈ q, handles x op = false :=
      hq.forall_op (fun op hop => hop.apart hx) (fun _ _ => rfl) (fun _ _ => rfl) fun _ _ _ => rfl
    have hbefore : ExceptionCode x (p ++ .label tryStart :: (q ++ [.leave label, .label tryEnd]))
        [] := by
      refine .of_apart ?_
      simp only [forall_mem_append, forall_mem_cons]
      exact ⟨fun op hop => (hp.straight op hop).apart hx, rfl, hcall, rfl, rfl, forall_mem_nil _⟩
    have hhandler : ExceptionCode x [.label handlerStart, .storeLocal x, .leave u,
        .label handlerEnd] [⟨tryStart, tryEnd, handlerStart, handlerEnd⟩] := by
      refine ⟨?_, fun pc ho => ?_, fun pc ho => ?_, by simp, by simp⟩
      · exact forall_mem_singleton.mpr ⟨0, rfl, rfl⟩
      · rcases pc with _ | _ | _ | _ | pc <;> cases ho
        exact ⟨0, _, mem_singleton.mpr rfl, rfl, rfl⟩
      · rcases pc with _ | _ | _ | _ | pc <;> cases ho
    simpa using hbefore.append hhandler
  | _ => exact absurd rfl hrs

theorem NodesCode.exceptionCode {ids : List NodeId} (h : NodesCode c z ids ops rs)
    (hx : ∀ id, c.slot id ≠ .inLocal x) (hz : ∀ y, z.exception = some y → y = x) :
    ExceptionCode x ops rs := by
  induction h with
  | nil => exact .of_apart (forall_mem_nil _)
  | skip _ _ ih => exact ih
  | cons hn hp _ ih => exact (hp.exceptionCode hn hx hz).append ih

theorem BlocksCode.exceptionCode {blocks : List (Flow.Block × Nat)}
    (h : BlocksCode c z blocks ops rs) (hx : ∀ id, c.slot id ≠ .inLocal x)
    (hz : ∀ y, z.exception = some y → y = x) : ExceptionCode x ops rs := by
  induction h with
  | nil => exact .of_apart (forall_mem_nil _)
  | @cons _ i _ _ _ rs _ hb _ ih =>
    obtain ⟨waiting, p, q, -, hp, hq, rfl⟩ := hb
    refine ExceptionCode.append ?_ ih
    have hlabel : ExceptionCode x [.label i] [] :=
      .of_apart (forall_mem_singleton.mpr rfl)
    have htrampolines : ExceptionCode x q [] := by
      refine .of_apart (hq.forall_op ?_)
      rintro t - _ ⟨p, hp, rfl⟩
      refine forall_mem_cons.mpr ⟨rfl, forall_mem_append.mpr ⟨?_, forall_mem_singleton.mpr rfl⟩⟩
      exact fun op hop => (hp.straight op hop).apart hx
    simpa using (hlabel.append (hp.exceptionCode hx hz)).append htrampolines

end Context

variable {c : Context} {m : Method} {d : Declared} {p : Program}

theorem BodyCode.keepsExceptions {pool : List Code.Const} (h : BodyCode c pool m.body) :
    ∃ x, m.KeepsExceptions x := by
  obtain ⟨locals, hslots, -⟩ := h.slots
  obtain ⟨exception, hfresh, hblocks⟩ := h.blocks
  -- A method without handlers has no local for exceptions; any other number will do.
  obtain ⟨x, hx, hz⟩ : ∃ x, (∀ id, c.slot id ≠ .inLocal x) ∧ ∀ y, exception = some y → y = x := by
    cases exception with
    | some x => exact ⟨x, hfresh x rfl, fun y hy => (some.inj hy).symm⟩
    | none =>
      exact ⟨locals.length, fun id hs => Nat.lt_irrefl _ (Context.slot_lt hslots hs),
        fun y hy => nomatch hy⟩
  have hcode := hblocks.exceptionCode hx hz
  refine ⟨x, fun r hr pc hl => ?_, hcode.stores, hcode.throws, hcode.inits, hcode.addresses⟩
  obtain ⟨pc', hl', hstore⟩ := hcode.handlers r hr
  have hpc :=
    (Code.position?_of_getElem? hl h.labels).symm.trans (Code.position?_of_getElem? hl' h.labels)
  rw [some.inj hpc]
  exact hstore

theorem wrapper_keepsExceptions {e : MethodEntry} (h : wrapperMethod d e = .ok m) :
    m.KeepsExceptions 1 := by
  have hcode : ExceptionCode 1 m.body.ops [] ∧ m.body.regions = [] := by
    unfold wrapperMethod at h
    split at h
    · cases h
    · cases h
      refine ⟨.of_apart ?_, rfl⟩
      simp only [forall_mem_append, forall_mem_cons, List.forall_mem_map]
      exact ⟨⟨⟨rfl, rfl, forall_mem_nil _⟩, fun _ _ => rfl⟩, rfl, rfl, rfl, forall_mem_nil _⟩
  refine ⟨by simp [hcode.2], fun pc ho => ?_, hcode.1.throws, hcode.1.inits, hcode.1.addresses⟩
  obtain ⟨_, _, hr, -⟩ := hcode.1.stores pc ho
  cases hr

/-- Every method of a lowered program has its own local for exceptions. -/
theorem ProgramCode.keepsExceptions (hp : ProgramCode d p) :
    ∃ xs : Nat → Nat, ∀ i (m : Method), p.methods[i]? = some m → m.KeepsExceptions (xs i) := by
  have hall (i : Nat) : ∃ x, ∀ m : Method, p.methods[i]? = some m → m.KeepsExceptions x := by
    cases hi : p.methods[i]? with
    | none => exact ⟨0, fun m hm => nomatch hm⟩
    | some m =>
      obtain ⟨x, hx⟩ : ∃ x, m.KeepsExceptions x := by
        rcases hp.origin hi with ⟨e, -, hcode⟩ | ⟨e, hwrapper⟩
        · obtain ⟨_, _, -, hbody⟩ := hcode.body
          exact hbody.keepsExceptions
        · exact ⟨1, wrapper_keepsExceptions hwrapper⟩
      exact ⟨x, fun m' hm => by cases hm; exact hx⟩
  exact ⟨fun i => (hall i).choose, fun i => (hall i).choose_spec⟩

/-! ## Rethrows -/

/-- **A rethrow raises the exception that was caught last.** When control reaches the code of a
`cleanupret` without an unwind block, or of a `resume`, in any run of any method, the next step but
one raises the exception that the same call has caught last, in whichever of its handlers, and
whatever the node names. -/
theorem rethrow_raises_caughtLast {md : Ssa.Module} {o : Options} {p : Program}
    (h : lower md o = .ok p) (hmd : Orderly md) {i : Nat} {args : List Value} {f : Frame}
    (hf : enter p 0 i args .pushed = .ok f) {w : World} {t : State} {v : Value}
    (hv : CaughtLast p ⟨f, [], w⟩ t.depth v t) {m : Method}
    (hm : p.methods[t.current.method]? = some m) {c : Context} {z : Surround} {id : NodeId}
    {n : Node} {ops : List Op} {rs : List Region} (hcode : c.NodeCode z id n ops rs)
    (hn : n.kind = .cleanupRet none ∨ n.kind = .resume) (hat : CodeAt m t.current.pc ops) :
    ∃ u, step p t = .running u ∧ Raises p u v := by
  obtain ⟨d, hd, hp⟩ := lower_eq_ok h
  obtain ⟨hsteady, -⟩ := hmd.steady (declare_declaration hd) hp
  obtain ⟨xs, hxs⟩ := hp.keepsExceptions
  have hstart := (Machine.InOrder.run hsteady hf (Steps.refl p ⟨f, [], w⟩)).1
  obtain ⟨y, -, rfl, -⟩ := hcode.eq_rethrow hn
  exact hv.rethrows hsteady hxs hstart hm hat

/-- `unwind` catches an exception of `fail`, then another one while it handles the first, and at
last resumes the first. -/
def unwinding : Ssa.Module where
  functions :=
    let int (n : Int) : Ssa.Operand := .const (.int (.int 32) n)
    let fails (id : Nat) (n : Int) (unwind : Nat) : Ssa.Instruction :=
      { id, opcode := .invoke, ty := .int 32, operands :=
          [int n, .block 3, .block unwind, .function "fail"],
        info := .call ⟨.int 32, [.int 32], false⟩ }
    let pad (id : Nat) : Ssa.Instruction :=
      { id, opcode := .landingPad, ty := .token, operands := [] }
    [{ name := "fail", type := ⟨.int 32, [.int 32], false⟩, params := [{ id := 0, ty := .int 32 }],
       blocks := [{ id := 0, instructions :=
         [{ id := 1, opcode := .call, ty := .void,
            operands := [.const .null, .const .null, .value 0, .function "_wassert"],
            info := .call ⟨.void, [.pointer, .pointer, .int 32], false⟩ },
          { id := 2, opcode := .ret, ty := .void, operands := [.value 0] }] }] },
     { name := "unwind", type := ⟨.int 32, [], false⟩, personality := some "fail", blocks :=
       [{ id := 0, instructions := [fails 1 1 1] },
        { id := 1, instructions := [pad 2, fails 3 2 2] },
        { id := 2, instructions :=
            [pad 4, { id := 5, opcode := .resume, ty := .void, operands := [.value 2] }] },
        { id := 3, instructions :=
            [{ id := 6, opcode := .ret, ty := .void, operands := [int 0] }] }] }]

/-- The message of an exception. -/
def message? : Value → Option String
  | .exception message => some message
  | _ => none

theorem message?_eq_some {v : Value} {message : String} (h : message? v = some message) :
    v = .exception message := by
  unfold message? at h
  split at h <;> cases h
  rfl

theorem unwinding_rethrow_raises_caughtLast :
    ∃ p f t u, lower unwinding {} = .ok p ∧ Orderly unwinding ∧ enter p 0 1 [] .pushed = .ok f ∧
      CaughtLast p ⟨f, [], .ofProgram p⟩ t.depth (.exception "Assertion failed:  at :2") t ∧
      step p t = .running u ∧ Raises p u (.exception "Assertion failed:  at :2") := by
  obtain ⟨p, hp, hrun⟩ :=
    toOption_map_eq_some.mp (show (lower unwinding {}).toOption.map (fun p => do
      let f ← (enter p 0 1 [] .pushed).toOption
      let (v, t) ← Machine.caughtLast? p ⟨f, [], .ofProgram p⟩ 21 5
      let m ← p.methods[t.current.method]?
      some (message? v, (m.body.ops.drop t.current.pc).take 2)) =
    some (some (some "Assertion failed:  at :2", [.loadLocal 0, .throw])) by decide +kernel)
  have horderly : Orderly unwinding := by decide +kernel
  obtain ⟨f, hf, hrun⟩ := bind_eq_some_iff.mp hrun
  obtain ⟨⟨v, t⟩, hcaught, hrun⟩ := bind_eq_some_iff.mp hrun
  obtain ⟨m, hm, hrun⟩ := bind_eq_some_iff.mp hrun
  obtain ⟨hmessage, hcode⟩ := Prod.mk.inj (some.inj hrun)
  cases message?_eq_some hmessage
  have hf := toOption_eq_some.mp hf
  have hcaught := Machine.caughtLast_of_eq_some hcaught
  have hat : CodeAt m t.current.pc [.loadLocal 0, .throw] := hcode ▸ take_prefix 2 _
  obtain ⟨d, -, hd⟩ := lower_eq_ok hp
  rcases hd.origin hm with ⟨e, -, hmethod⟩ | ⟨e, hwrapper⟩
  · obtain ⟨g, slots, -, -⟩ := hmethod.body
    have hresume : Context.NodeCode ⟨d, g, slots⟩ ⟨p.consts, [], some 0⟩ 4
        { key := .value 5, block := 2, opcode := .resume, kind := .resume, operands :=
            [.key (.value 2)], resultType := none }
        [.loadLocal 0, .throw] [] := .rethrow (.inr rfl) rfl
    obtain ⟨u, hu, hraises⟩ :=
      rethrow_raises_caughtLast hp horderly hf hcaught hm hresume (.inr rfl) hat
    exact ⟨p, f, t, u, hp, horderly, hf, hcaught, hu, hraises⟩
  · obtain ⟨_, hpc, hload⟩ := (wrapper_keepsExceptions hwrapper).throws _ hat.tail.head
    cases hpc
    cases hat.head.symm.trans hload

/-- The message of the exception that a call ends with. -/
def uncaughtMessage? : Except Machine.Fault (Option Value) → Option String
  | .error (.uncaught v) => message? v
  | _ => none

theorem uncaughtMessage?_eq_some {r : Except Machine.Fault (Option Value)} {message : String}
    (h : uncaughtMessage? r = some message) : r = .error (.uncaught (.exception message)) := by
  unfold uncaughtMessage? at h
  split at h
  · rw [message?_eq_some h]
  · cases h

/-- The first exception reaches block 1 with the pad that `resume` names, but the second one is
raised in the end. -/
theorem resume_raises_later :
    ∃ p f t w, lower unwinding {} = .ok p ∧ enter p 0 1 [] .pushed = .ok f ∧
      CaughtLast p ⟨f, [], .ofProgram p⟩ t.depth (.exception "Assertion failed:  at :1") t ∧
        t.op? p = some (.label 1) ∧
    Machine.run p 20 t = some (w, .error (.uncaught (.exception "Assertion failed:  at :2"))) := by
  obtain ⟨p, hp, hrun⟩ :=
    toOption_map_eq_some.mp (show (lower unwinding {}).toOption.map (fun p => do
      let f ← (enter p 0 1 [] .pushed).toOption
      let caught ← Machine.caughtLast? p ⟨f, [], .ofProgram p⟩ 8 3
      let r ← Machine.run p 20 caught.2
      some (message? caught.1, caught.2.op? p, uncaughtMessage? r.2)) =
    some (some (some "Assertion failed:  at :1", some (.label 1),
      some "Assertion failed:  at :2")) by decide +kernel)
  obtain ⟨f, hf, hrun⟩ := bind_eq_some_iff.mp hrun
  obtain ⟨⟨v, t⟩, hcaught, hrun⟩ := bind_eq_some_iff.mp hrun
  obtain ⟨⟨w, result⟩, hresult, hrun⟩ := bind_eq_some_iff.mp hrun
  obtain ⟨hmessage, hrun⟩ := Prod.mk.inj (some.inj hrun)
  obtain ⟨hop, hlast⟩ := Prod.mk.inj hrun
  cases message?_eq_some hmessage
  cases uncaughtMessage?_eq_some hlast
  exact ⟨p, f, t, w, hp, toOption_eq_some.mp hf, Machine.caughtLast_of_eq_some hcaught,
    hop, hresult⟩

end Stackify.Lower
