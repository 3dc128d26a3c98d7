import Stackify.Proofs.Heights
import Stackify.Proofs.Steps

/-!
Runs of code that keeps to its heights.

If every method of a program does, then the evaluation stack has the height that is expected
wherever a run comes (`InOrder.step`): operations find their operands, labels are reached with an
empty stack, and handlers with the exception that was raised (`InOrder.no_underflow`,
`InOrder.at_label`).
-/

namespace Stackify.Code

section
variable (p : Program) (m : Method)

/-- The height in front of a position, coming from above. -/
def heightAt (pc : Nat) : Option Nat :=
  (m.body.ops.take pc).foldl (fun h op => op.after p m h) (some 0)

/-- The height at a position; at a label, whatever way leads there. -/
def entryAt (pc : Nat) : Option Nat :=
  match m.body.ops[pc]? with
  | some (.label l) => (m.role l).height
  | _ => heightAt p m pc

/-- A method whose code keeps to its heights, with the exception on the stack where handlers
begin. -/
def Method.Steady : Prop := ∃ h, Heights p m (some 0) m.body.ops h

end

variable {p : Program} {m : Method} {pc n : Nat} {op : Op}

theorem Heights.fits {h h' : Option Nat} {ops : List Op} (hh : Heights p m h ops h')
    (ho : ops[pc]? = some op) : op.Fits m ((ops.take pc).foldl (fun h op => op.after p m h) h) := by
  induction ops generalizing h pc with
  | nil => simp at ho
  | cons first rest ih =>
    cases pc with
    | zero =>
      cases ho
      exact hh.1
    | succ pc => exact ih hh.2 ho

theorem heightAt_succ (ho : m.body.ops[pc]? = some op) :
    heightAt p m (pc + 1) = op.after p m (heightAt p m pc) := by
  rw [heightAt, List.take_add_one, ho]
  simp [heightAt]

theorem Method.Steady.fits (hm : m.Steady p) (ho : m.body.ops[pc]? = some op) :
    op.Fits m (heightAt p m pc) :=
  hm.elim fun _ hh => hh.fits ho

/-- Operations only jump to labels that are entered with an empty stack. -/
theorem Method.Steady.target_plain (hm : m.Steady p) (hop : op ∈ m.body.ops) {l : Label}
    (hl : l ∈ op.targets) : m.role l = .plain := by
  obtain ⟨pc, ho⟩ := List.getElem?_of_mem hop
  have hlabel : ∀ l, op ≠ .label l := by
    rintro l rfl
    simp [Op.targets] at hl
  exact ((Op.fits_of_ne hlabel).mp (hm.fits ho)).1 l hl

theorem entryAt_of_ne (ho : m.body.ops[pc]? = some op) (hlabel : ∀ l, op ≠ .label l) :
    entryAt p m pc = heightAt p m pc := by
  rw [entryAt, ho]
  split
  · next h =>
    cases h
    exact absurd rfl (hlabel _)
  · rfl

/-- Code that is reached from above, or where a method begins. -/
theorem Method.Steady.arrive (hm : m.Steady p) (hh : heightAt p m pc = some n) :
    entryAt p m pc = some n ∧ ∀ l, m.body.ops[pc]? = some (.label l) → m.role l = .plain := by
  cases ho : m.body.ops[pc]? with
  | none => exact ⟨by rw [entryAt, ho]; exact hh, by simp⟩
  | some op =>
    by_cases hlabel : ∃ l, op = .label l
    · obtain ⟨l, rfl⟩ := hlabel
      have hfits := hm.fits ho
      rw [hh] at hfits
      rcases hfits with h | ⟨h, hl⟩
      · cases h
      · refine ⟨?_, by rintro _ ⟨⟩; exact hl⟩
        rw [entryAt, ho]
        simpa [hl, Role.height] using h.symm
    · have hlabel : ∀ l, op ≠ .label l := not_exists.mp hlabel
      exact ⟨by rw [entryAt_of_ne ho hlabel, hh], fun l h => absurd (Option.some.inj h) (hlabel l)⟩

/-- An operation where a run comes finds its operands, and the stack is as expected behind it. -/
structure At (p : Program) (m : Method) (pc : Nat) (op : Op) (n : Nat) : Prop where
  takes : op.takes m ≤ n
  next : op.isFinal = false → heightAt p m (pc + 1) = some (n - op.takes m + op.results p)
  targets : ∀ l ∈ op.targets, m.role l = .plain ∧ (n = op.takes m ∨ op = .leave l)
  here : (∀ l, op ≠ .label l) → heightAt p m pc = some n

theorem Method.Steady.at (hm : m.Steady p) (ho : m.body.ops[pc]? = some op)
    (hh : entryAt p m pc = some n) : At p m pc op n := by
  have hfits := hm.fits ho
  have hnext : heightAt p m (pc + 1) = _ := heightAt_succ ho
  by_cases hlabel : ∃ l, op = .label l
  · obtain ⟨l, rfl⟩ := hlabel
    rw [entryAt, ho] at hh
    refine ⟨Nat.zero_le _, fun _ => ?_, by simp [Op.targets], fun h => absurd rfl (h l)⟩
    simpa [Op.after, Op.takes, Op.results, Op.gives, hh] using hnext
  · have hlabel : ∀ l, op ≠ .label l := not_exists.mp hlabel
    rw [entryAt_of_ne ho hlabel] at hh
    rw [hh] at hfits hnext
    obtain ⟨hplain, hfits⟩ := (Op.fits_of_ne hlabel).mp hfits
    obtain ⟨htakes, htargets⟩ := hfits n rfl
    refine ⟨htakes, fun hfinal => ?_, fun l hl => ⟨hplain l hl, htargets l hl⟩, fun _ => hh⟩
    rw [hnext, Op.after_of_ne hlabel, if_neg (by simp [hfinal])]
    rfl

end Stackify.Code

namespace Stackify.Machine

open Code (Op Label Method Program Role heightAt entryAt)
open List Option

/-! ## Frames -/

/-- The callers of a method that runs: each one is at a call, has taken the arguments off its stack
and waits for the result. -/
inductive Awaited (p : Program) : Nat → ResultUse → List Frame → Prop
  | nil {method : Nat} {use : ResultUse} : Awaited p method use []
  | cons {method : Nat} {use : ResultUse} {f : Frame} {callers : List Frame}
      {m : Method} {op : Op} :
      p.methods[f.method]? = some m → m.body.ops[f.pc]? = some op → Suits method use op →
        heightAt p m f.pc = some (f.stack.length + op.takes m) →
      Awaited p f.method f.use callers → Awaited p method use (f :: callers)

/-- All stacks have the heights that are expected. -/
structure InOrder (p : Program) (s : State) : Prop where
  current : ∃ m, p.methods[s.current.method]? = some m ∧
    entryAt p m s.current.pc = some s.current.stack.length
  callers : Awaited p s.current.method s.current.use s.callers

variable {p : Program} {method : Nat} {use : ResultUse} {s t : State} {m : Method} {op : Op}
  {fs callers : List Frame} {f : Frame} {w : World} {l : Label} {pc h i : Nat} {v : Value}
  {args : List Value} {result : Option Value}

theorem Awaited.congr {gs : List Frame} (h : Awaited p method use fs)
    (hg : gs.map Frame.bare = fs.map Frame.bare) : Awaited p method use gs := by
  induction h generalizing gs with
  | nil =>
    obtain rfl : gs = [] := by simpa using hg
    exact .nil
  | @cons _ _ f callers _ _ hm ho hsuits hh _ ih =>
    cases gs with
    | nil => simp at hg
    | cons g gs =>
      simp only [map_cons, cons.injEq, Frame.bare, Frame.mk.injEq] at hg
      obtain ⟨⟨hmethod, -, -, hstack, hpc, huse⟩, hrest⟩ := hg
      refine .cons (hmethod ▸ hm) (hpc ▸ ho) hsuits ?_ ?_
      · rw [hpc, hstack]
        exact hh
      · rw [hmethod, huse]
        exact ih hrest

/-- Operations that end or call do not simply go on. -/
theorem execute_next (h : execute p m s op = .next t) :
    op.isFinal = false ∧ op.results p = op.gives := by
  cases op with
  | branch | leave | unreachable => cases h
  | switchValue cases default =>
    simp only [execute, State.pop] at h
    split at h
    · split at h <;> cases h
    · cases h
  | ret =>
    simp only [execute] at h
    split at h
    · cases h
    · rw [State.pop] at h
      split at h <;> cases h
  | throw =>
    simp only [execute, State.pop] at h
    split at h <;> cases h
  | call i n =>
    simp only [execute, State.popMany] at h
    split at h <;> cases h
  | callIndirect n returns =>
    simp only [execute, State.pop] at h
    split at h
    · split at h
      · rw [State.popMany] at h
        split at h <;> cases h
      · cases h
    · cases h
  | _ => exact ⟨rfl, rfl⟩

/-! ## Steps -/

/-- A step leads to a state in order, and to a handler only with the exception that was raised. -/
structure Arrives (p : Program) (s t : State) : Prop where
  order : InOrder p t
  handled : ∀ m l, p.methods[t.current.method]? = some m →
    m.body.ops[t.current.pc]? = some (.label l) → m.role l = .handler → ∃ v, Raises p s v ∧
      t.current.stack = [v]

/-- All methods of a program keep to their heights. -/
def Steady (p : Program) : Prop :=
  ∀ (i : Nat) (m : Method), p.methods[i]? = some m → m.Steady p

theorem Arrives.behind (hp : Steady p) (hm : p.methods[f.method]? = some m)
    (hh : heightAt p m f.pc = some f.stack.length) (hc : Awaited p f.method f.use callers) :
    Arrives p s ⟨f, callers, w⟩ := by
  obtain ⟨hentry, hplain⟩ := (hp _ m hm).arrive hh
  refine ⟨⟨⟨m, hm, hentry⟩, hc⟩, fun m' l hm' hl hrole => ?_⟩
  cases hm.symm.trans hm'
  rw [hplain l hl] at hrole
  cases hrole

theorem Arrives.jump (hm : p.methods[s.current.method]? = some m) (hl : m.role l = .plain)
    (hc : Awaited p s.current.method s.current.use s.callers)
    (hpc : Code.position? m.body.ops l = some pc) : Arrives p s ((s.withStack []).goTo pc) := by
  have ho := Code.position?_label hpc
  refine ⟨⟨⟨m, hm, ?_⟩, hc⟩, fun m' l' hm' hl' hrole => ?_⟩
  · simp [State.goTo, State.withStack, entryAt, ho, hl, Role.height]
  · cases hm.symm.trans hm'
    simp only [State.goTo, State.withStack, ho, some.injEq, Op.label.injEq] at hl' hrole
    rw [← hl', hl] at hrole
    cases hrole

/-- A handler is the one of a protected range around the position. -/
theorem handler?_covers (hh : handler? m pc = some h) :
    ∃ r ∈ m.body.regions, ∃ start stop, Code.position? m.body.ops r.tryStart = some start ∧
      Code.position? m.body.ops r.tryEnd = some stop ∧ Code.position? m.body.ops r.handlerStart =
        some h ∧ start < pc ∧
      pc < stop := by
  have hfold (inner : Option (Nat × Nat) → Nat × Nat → Option (Nat × Nat))
      (hinner : ∀ best first r, inner best first = some r → best = some r ∨ r = first)
        (rs : List (Nat × Nat))
      (best : Option (Nat × Nat)) (r : Nat × Nat) (hr : rs.foldl inner best = some r) : best =
        some r ∨ r ∈ rs := by
    induction rs generalizing best with
    | nil => exact .inl hr
    | cons first rest ih =>
      rcases ih _ hr with h | h
      · rcases hinner best first r h with h | rfl
        · exact .inl h
        · exact .inr mem_cons_self
      · exact .inr (mem_cons_of_mem _ h)
  obtain ⟨r, hr, rfl⟩ := map_eq_some_iff.mp hh
  have hchosen : none = some r ∨ r ∈ coveringRegions m pc := by
    refine hfold _ (fun best first r h => ?_) _ _ _ hr
    cases best with
    | none =>
      cases h
      exact .inr rfl
    | some b =>
      dsimp only at h
      split at h <;> cases h <;> simp
  rcases hchosen with h | h
  · cases h
  · obtain ⟨region, hmem, h⟩ := mem_filterMap.mp h
    obtain ⟨start, hstart, h⟩ := bind_eq_some_iff.mp h
    obtain ⟨stop, hstop, h⟩ := bind_eq_some_iff.mp h
    obtain ⟨handler, hpos, h⟩ := bind_eq_some_iff.mp h
    split at h
    · next hpc =>
      cases h
      exact ⟨region, hmem, start, stop, hstart, hstop, hpos, hpc⟩
    · cases h

theorem handler?_label (hh : handler? m pc = some h) :
    ∃ r ∈ m.body.regions, m.body.ops[h]? = some (.label r.handlerStart) := by
  obtain ⟨r, hr, _, _, _, _, hpos, _⟩ := handler?_covers hh
  exact ⟨r, hr, Code.position?_label hpos⟩

theorem Arrives.handler (hr : Raises p s v)
    (hpc : ((p.methods[f.method]?).bind fun m => handler? m f.pc) = some pc)
    (hc : Awaited p f.method f.use callers) :
    Arrives p s ⟨{ f with stack := [v], pc }, callers, w⟩ := by
  obtain ⟨m, hm, hpc⟩ := bind_eq_some_iff.mp hpc
  obtain ⟨r, hmem, ho⟩ := handler?_label hpc
  have hrole : m.role r.handlerStart = .handler := Code.roleIn_eq_handler.mpr ⟨r, hmem, rfl⟩
  refine ⟨⟨⟨m, hm, ?_⟩, hc⟩, fun _ _ _ _ _ => ⟨v, hr, rfl⟩⟩
  simp [entryAt, ho, hrole, Role.height]

theorem Awaited.outer {inner outer : List Frame} {g : Frame} (hc : Awaited p g.method g.use callers)
    (h : g :: callers = inner ++ f :: outer) : Awaited p f.method f.use outer := by
  induction inner generalizing g callers with
  | nil =>
    cases h
    exact hc
  | cons _ inner ih =>
    obtain ⟨-, h⟩ := cons.inj h
    cases hc with
    | nil => simp at h
    | cons _ _ _ _ hc => exact ih hc h

theorem Suits.after (h : Suits method use op) (k : Nat) :
    op.after p m (some (k + op.takes m)) = some (k + op.results p) := by
  cases h <;> simp [Op.after, Op.isFinal]

/-- How many values a call leaves with its caller. -/
theorem resume_length {callee caller : Frame} (hm : p.methods[callee.method]? = some m)
    (hsuits : Suits callee.method callee.use op) (hr : result.isSome = !m.type.ret.isVoid)
    (h : resume callee caller result = .ok f) :
    f.stack.length = caller.stack.length + op.results p ∧
      f = { caller with pc := caller.pc + 1, stack := f.stack } := by
  unfold resume at h
  dsimp only at h
  generalize hmethod : callee.method = i at hsuits hm
  generalize callee.use = use at hsuits h
  cases hsuits with
  | call =>
    cases result with
    | none =>
      cases h
      simp [Op.results, hm, show m.type.ret.isVoid = true by simpa using hr]
    | some v =>
      cases h
      simp [Op.results, hm, show m.type.ret.isVoid = false by simpa using hr]
  | @indirect n returns =>
    cases returns with
    | true =>
      cases result with
      | none => cases h
      | some v =>
        cases h
        simp [Op.results]
    | false =>
      cases h
      simp [Op.results]

theorem InOrder.step (hp : Steady p) (hs : InOrder p s) (h : Machine.step p s = .running t) :
    Arrives p s t := by
  obtain ⟨m, hm, hentry⟩ := hs.current
  obtain ⟨m', op, hm', ho, hgoes⟩ := step_running h
  cases hm.symm.trans hm'
  have hat := (hp _ m hm).at ho hentry
  cases hgoes with
  | @next t vs hacts hv hx =>
    have hsame := hacts.alters vs
    obtain ⟨hfinal, hresults⟩ := execute_next hx
    have hmethod : t.current.method = s.current.method := hsame.method
    have huse : t.current.use = s.current.use := hsame.use
    have hstack : (t.withStack (vs ++ t.current.stack)).current.stack.length =
        s.current.stack.length - op.takes m + op.gives := by
      rw [hsame.stack, ← hv]
      simp [State.withStack, Nat.add_comm]
    refine .behind hp (m := m) (by rw [← hm]; exact congrArg (p.methods[·]?) hmethod) ?_ ?_
    · show heightAt p m (s.current.pc + 1) = _
      rw [hat.next hfinal, hresults, ← hstack]
    · show Awaited p t.current.method t.current.use t.callers
      rw [hmethod, huse]
      exact hs.callers.congr hsame.callers
  | @jump l stack pc hl hstack hpc =>
    obtain ⟨hplain, hn⟩ := hat.targets l hl
    obtain rfl : stack = [] := by
      rcases hstack with ⟨hne, rfl⟩ | ⟨-, rfl⟩
      · exact drop_eq_nil_of_le (by have := hn.resolve_right hne; omega)
      · rfl
    exact .jump hm hplain hs.callers hpc
  | call hsuits _ hf =>
    -- A call begins with an empty stack, and its caller waits for it.
    obtain ⟨callee, hcallee, -, -, rfl⟩ := enter_eq_ok.mp hf
    refine .behind hp hcallee rfl (.cons hm ho hsuits ?_ hs.callers)
    have hlabel : ∀ l, op ≠ .label l := by cases hsuits <;> simp
    simp only [State.withStack, length_drop]
    rw [hat.here hlabel, Nat.sub_add_cancel hat.takes]
  | returns hop hr _ hcallers hf =>
    have hc := hs.callers
    rw [hcallers] at hc
    cases hc with
    | cons hm' ho hsuits hh hrest =>
      obtain ⟨hlength, hframe⟩ := resume_length hm hsuits hr hf
      rw [hframe]
      refine .behind hp hm' ?_ hrest
      rw [Code.heightAt_succ ho, hh, hsuits.after, hlength]
  | catches _ hr _ hsplit hpc => exact .handler hr hpc (hs.callers.outer hsplit)

/-! ## Runs -/

/-- Operations find their operands. -/
theorem InOrder.no_underflow (hp : Steady p) (hs : InOrder p s) (w : World) :
    Machine.step p s ≠ .finished w (.error .stackUnderflow) := by
  intro h
  obtain ⟨m, hm, hentry⟩ := hs.current
  rcases control_fault h rfl with ⟨_, hv, -⟩ | ⟨m', op, hm', ho, -, hshort⟩ | ⟨_, _, _, hend⟩
  · cases hv
  · cases hm.symm.trans hm'
    have htakes := ((hp _ m hm).at ho hentry).takes
    omega
  · cases hend

theorem Awaited.ne_label (h : Awaited p method use fs) :
    ∀ f ∈ fs, ∀ (m : Method) l, p.methods[f.method]? = some m →
      m.body.ops[f.pc]? ≠ some (.label l) := by
  induction h with
  | nil => simp
  | cons hm ho hsuits _ _ ih =>
    refine forall_mem_cons.mpr ⟨fun m l hm' hl => ?_, ih⟩
    cases hm.symm.trans hm'
    cases ho.symm.trans hl
    cases hsuits

/-- A frame at a label is the current one, and its stack is as high as the label's role says. -/
theorem InOrder.at_label (hs : InOrder p s) (hf : f ∈ s.current :: s.callers)
    (hm : p.methods[f.method]? = some m) (hl : m.body.ops[f.pc]? = some (.label l)) :
    f = s.current ∧ (m.role l).height = some f.stack.length := by
  rcases mem_cons.mp hf with rfl | hf
  · obtain ⟨m', hm', hentry⟩ := hs.current
    cases hm.symm.trans hm'
    rw [entryAt, hl] at hentry
    exact ⟨rfl, hentry⟩
  · exact absurd hl (hs.callers.ne_label f hf m l hm)

/-- In a run that is called from outside, all states are in order, and handlers are reached with the
exception that was raised just before. -/
theorem InOrder.run (hp : Steady p) (hf : enter p 0 i args .pushed = .ok f)
    (ht : Steps p ⟨f, [], w⟩ t) : InOrder p t ∧ ∀ m l, p.methods[t.current.method]? = some m →
      m.body.ops[t.current.pc]? = some (.label l) → m.role l = .handler →
        ∃ u v, Steps p ⟨f, [], w⟩ u ∧ Machine.step p u = .running t ∧ Raises p u v ∧
          t.current.stack = [v] := by
  obtain ⟨m, hm, -, -, hframe⟩ := enter_eq_ok.mp hf
  obtain ⟨hentry, hplain⟩ := (hp _ m hm).arrive (show heightAt p m 0 = some 0 from rfl)
  have hstart : InOrder p ⟨f, [], w⟩ := by
    subst hframe
    exact ⟨⟨m, hm, hentry⟩, .nil⟩
  have hstep (s t : State) (hs : InOrder p s) (h : Machine.step p s = .running t) : InOrder p t :=
    (hs.step hp h).order
  refine ⟨ht.invariant hstep hstart, fun m' l hm' hl hrole => ?_⟩
  rcases Relation.ReflTransGen.cases_tail ht with rfl | ⟨u, hu, hnext⟩
  · subst hframe
    cases hm.symm.trans hm'
    rw [hplain l hl] at hrole
    cases hrole
  · obtain ⟨v, hr, hstack⟩ :=
      ((Steps.invariant hstep hu hstart).step hp hnext).handled m' l hm' hl hrole
    exact ⟨u, v, hu, hnext, hr, hstack⟩

end Stackify.Machine
