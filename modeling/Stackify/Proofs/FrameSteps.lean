import Stackify.Proofs.Effect
import Stackify.Proofs.Labels
import Stackify.Proofs.Steps

/-!
What a step does to each frame. A frame that waits for a call stays as it is, apart from what
pointers lead to, until the call returns or an exception is caught (`step_frame`).
-/

namespace Stackify.Machine

open Code (Op Label Method Program)
open List

/-! ## Steps -/

/-- A frame of the same call, whose locals stay but for some. -/
structure Kept (W : Nat → Prop) (f g : Frame) : Prop where
  method : g.method = f.method
  args : g.args = f.args
  length : g.locals.length = f.locals.length
  same : ∀ i, ¬ W i → g.locals[i]? = f.locals[i]?

/-- What a step does with a frame, apart from its locals. -/
inductive Control (p : Program) (m : Method) (op : Op) (s t : State) (d : Nat) (f g : Frame) : Prop
  /-- The frame waits for a call, before and after the step. -/
  | waits (hs : d < s.depth) (ht : d < t.depth) (h : g.bare = f.bare)
  /-- The call that it waits for returns. -/
  | returns (vs : List Value) (hs : d < s.depth) (ht : d = t.depth) (h : op = .ret)
      (hg : g.bare = { f.bare with pc := f.pc + 1, stack := vs ++ f.stack })
  /-- An exception arrives that it handles. -/
  | catches {v : Value} {pc : Nat} (ht : d = t.depth) (h : Raises p s v)
      (hpc : ((p.methods[f.method]?).bind fun m => handler? m f.pc) = some pc)
      (hg : g.bare = { f.bare with stack := [v], pc })
  /-- It calls a method. -/
  | calls (hs : d = s.depth) (ht : d < t.depth)
      (h : (∃ i n, op = .call i n) ∨ ∃ n returns, op = .callIndirect n returns)
      (hg : g.bare = { f.bare with stack := f.stack.drop (op.takes m) })
  /-- It goes on with the next operation. -/
  | goesOn {u : State} (hs : d = s.depth) (ht : d = t.depth) (h : execute p m s op = .next u)
      (hg : g = { u.current with pc := f.pc + 1 })
  /-- It jumps to a label. -/
  | jumps {l : Label} (hs : d = s.depth) (ht : d = t.depth) (h : l ∈ op.targets)
      (hl : m.body.ops[g.pc]? = some (.label l))

section
variable {p : Program} {m : Method} {s t u : State} {d : Nat} {f : Frame} {stack : List Value}
  {W : Nat → Nat → Prop}

theorem State.frames_withStack (s : State) (stack : List Value) :
    (s.withStack stack).frames = s.frames.set s.depth { s.current with stack } := by
  simp [State.frames, State.withStack, State.depth]

theorem SameFrames.frames (h : SameFrames s t) :
    t.frames.map Frame.bare = s.frames.map Frame.bare := by
  simp [State.frames, h.current, h.callers]

/-- The frames that an operation leaves, given what it does to the stack. -/
theorem frame_of_same (h : Alters W (s.withStack stack) u) (hf : s.frames[d]? = some f) :
    ∃ g, u.frames[d]? = some g ∧ g.bare = (if d = s.depth then { f with stack } else f).bare ∧ Kept
      (W d) f g := by
  have hlocals : s.locals[d]? = some f.locals := by
    rw [State.locals_eq, getElem?_map, hf, Option.map_some]
  obtain ⟨ls, hls, hlen, hkeep⟩ := h.locals.2 d _ hlocals
  rw [State.locals_eq, getElem?_map] at hls
  obtain ⟨g, hg, rfl⟩ := Option.map_eq_some_iff.mp hls
  have hbare : g.bare = (if d = s.depth then { f with stack } else f).bare := by
    have hbare := congrArg (·[d]?) h.frames
    simp only [getElem?_map, hg, State.frames_withStack, getElem?_set] at hbare
    by_cases hd : d = s.depth
    · subst hd
      cases hf.symm.trans s.frames_depth
      rw [if_pos rfl]
      simpa [State.length_frames] using hbare
    · rw [if_neg hd]
      simpa [Ne.symm hd, hf] using hbare
  have hmethod : g.method = f.method := (congrArg Frame.method hbare).trans (by split <;> rfl)
  have hargs : g.args = f.args := (congrArg Frame.args hbare).trans (by split <;> rfl)
  exact ⟨g, hg, hbare, hmethod, hargs, hlen, hkeep⟩

theorem State.frames_goTo (s : State) (pc : Nat) :
    (s.goTo pc).frames = s.frames.set s.depth { s.current with pc } := by
  simp [State.frames, State.goTo, State.depth]

/-- A step inside a frame leaves the frames that wait. -/
theorem frame_goTo (h : Alters W (s.withStack stack) u) (hf : s.frames[d]? = some f) (pc : Nat) :
    ∃ g, (u.goTo pc).frames[d]? = some g ∧ Kept (W d) f g ∧
      (d < s.depth ∧ g.bare = f.bare ∨ d = s.depth ∧ f = s.current ∧
        g = { u.current with pc }) := by
  obtain ⟨g, hg, hbare, hkept⟩ := frame_of_same h hf
  have hdepth : u.depth = s.depth := h.depth
  have hlt := lt_of_getElem? hf
  rw [State.length_frames] at hlt
  rw [State.frames_goTo, hdepth]
  by_cases hd : d = s.depth
  · subst hd
    cases hf.symm.trans s.frames_depth
    cases hg.symm.trans (hdepth ▸ u.frames_depth)
    refine ⟨{ u.current with pc }, ?_, ⟨hkept.method, hkept.args, hkept.length, hkept.same⟩,
      .inr ⟨rfl, rfl, rfl⟩⟩
    rw [getElem?_set_self (by rw [State.length_frames, hdepth]; omega)]
  · rw [if_neg hd] at hbare
    exact ⟨g, by rw [getElem?_set_ne (Ne.symm hd), hg], hkept, .inl ⟨by omega, hbare⟩⟩

/-- The frames below one that goes on are as they were. -/
theorem frame_below {w : World} {g caller : Frame} {inner outer : List Frame}
    (hs : s.current :: s.callers = inner ++ caller :: outer) (hf : s.frames[d]? = some f)
    (hd : d ≤ outer.length) : d < outer.length ∧ d < s.depth ∧
      (State.mk g outer w).frames[d]? = some f ∨ d = outer.length ∧ f = caller := by
  have hdepth : s.callers.length = inner.length + outer.length := by
    have := congrArg List.length hs
    simp only [length_cons, length_append] at this
    omega
  have hframes : s.frames = outer.reverse ++ caller :: inner.reverse := by
    rw [State.frames_eq_reverse, hs]; simp
  rw [hframes] at hf
  rcases Nat.lt_or_eq_of_le hd with hlt | rfl
  · rw [getElem?_append_left (by simpa using hlt)] at hf
    refine .inl ⟨hlt, show d < s.callers.length by omega, ?_⟩
    rw [State.frames, getElem?_append_left (by simpa using hlt), hf]
  · exact .inr ⟨rfl, by simpa [eq_comm] using hf⟩

variable {op : Op}

theorem exists_op_of_running (h : step p s = .running t) :
    ∃ m op, p.methods[s.current.method]? = some m ∧ m.body.ops[s.current.pc]? = some op := by
  obtain ⟨m, op, hm, ho, -⟩ := step_running h
  exact ⟨m, op, hm, ho⟩

/-- What a step does to a frame that is there before and after it. -/
theorem step_frame (hm : p.methods[s.current.method]? = some m)
    (ho : m.body.ops[s.current.pc]? = some op) (h : step p s = .running t)
    (hf : s.frames[d]? = some f) (hd : d ≤ t.depth) :
    ∃ g, t.frames[d]? = some g ∧ Kept (Touches s op d) f g ∧ Control p m op s t d f g := by
  have hgoes := step_goes hm ho
  rw [h] at hgoes
  cases hgoes with
  | @next u vs hacts _ hx =>
    have hsame := hacts.alters vs
    have hdepth : u.depth = s.depth := hsame.depth
    obtain ⟨g, hg, hkept, ⟨hlt, hbare⟩ | ⟨hcur, rfl, rfl⟩⟩ := frame_goTo hsame hf (s.current.pc + 1)
    · exact ⟨g, hg, hkept, .waits hlt (hdepth ▸ hlt) hbare⟩
    · exact ⟨_, hg, hkept, .goesOn hcur (hcur.trans hdepth.symm) hx rfl⟩
  | @jump l stack pc hl _ hpc =>
    obtain ⟨g, hg, hkept, ⟨hlt, hbare⟩ | ⟨hcur, rfl, rfl⟩⟩ :=
      frame_goTo (.refl (s.withStack stack)) hf pc
    · exact ⟨g, hg, hkept, .waits hlt hlt hbare⟩
    · exact ⟨_, hg, hkept, .jumps hcur hcur hl (Code.position?_label hpc)⟩
  | @call _ _ _ callee hop =>
    have hlt := lt_of_getElem? hf
    obtain ⟨g, hg, hbare, hkept⟩ :=
      frame_of_same (.refl (s.withStack (s.current.stack.drop (op.takes m)))) hf
    have hglt := lt_of_getElem? hg
    rw [State.length_frames] at hlt
    refine ⟨g, ?_, hkept, ?_⟩
    · rw [← hg]
      simp only [State.frames, reverse_cons] at hglt ⊢
      exact getElem?_append_left hglt
    · have hdepth (w : World) :
          d < State.depth ⟨callee, (s.withStack (s.current.stack.drop (op.takes m))).current ::
            s.callers, w⟩ := by
        simpa [State.depth] using hlt
      by_cases hd : d = s.depth
      · subst hd
        cases hf.symm.trans s.frames_depth
        rw [if_pos rfl] at hbare
        exact .calls rfl (hdepth _) (by cases hop <;> simp) hbare
      · rw [if_neg hd] at hbare
        exact .waits (by omega) (hdepth _) hbare
  | returns hop _ _ hc hr =>
    obtain ⟨vs, -, rfl⟩ := resume_eq_ok hr
    rcases frame_below (show _ = [s.current] ++ _ from congrArg (s.current :: ·) hc) hf hd with
      ⟨hlt, hs, hf'⟩ | ⟨rfl, rfl⟩
    · exact ⟨f, hf', ⟨rfl, rfl, rfl, fun _ _ => rfl⟩, .waits hs hlt rfl⟩
    · refine ⟨_, State.frames_depth _, ⟨rfl, rfl, rfl, fun _ _ => rfl⟩, .returns vs ?_ rfl hop rfl⟩
      simp [State.depth, hc]
  | catches _ hr _ hsplit hpc =>
    rcases frame_below hsplit hf hd with ⟨hlt, hs, hf'⟩ | ⟨rfl, rfl⟩
    · exact ⟨f, hf', ⟨rfl, rfl, rfl, fun _ _ => rfl⟩, .waits hs hlt rfl⟩
    · exact ⟨_, State.frames_depth _, ⟨rfl, rfl, rfl, fun _ _ => rfl⟩, .catches rfl hr hpc rfl⟩

end

end Stackify.Machine
