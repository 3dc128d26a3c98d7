import Mathlib.Logic.Relation
import Stackify.Machine.Step

/-!
Runs as sequences of steps. A run with enough fuel ends the way the last state that it reaches ends
(`run_of_steps`), and whatever a run ends with comes from such a state (`steps_of_run`).
-/

namespace Stackify.Machine

open Code (Op Program)

/-- One step leads from the first state to the second. -/
def Next (p : Program) (s t : State) : Prop := step p s = .running t

/-- Any number of steps leads from the first state to the second. -/
def Steps (p : Program) : State → State → Prop := Relation.ReflTransGen (Next p)

/-- The operation that comes next. -/
def State.op? (p : Program) (s : State) : Option Op :=
  (p.methods[s.current.method]?).bind fun m => m.body.ops[s.current.pc]?

variable {s t u : State} {p : Program} {w : World} {r : Except Fault (Option Value)} {fuel : Nat}

theorem State.pop_cons {v : Value} {rest : List Value} {k : State → Value → Action}
    (hs : s.current.stack = v :: rest) : s.pop k = k (s.withStack rest) v := by
  rw [State.pop, hs]

theorem Steps.refl (p : Program) (s : State) : Steps p s s := Relation.ReflTransGen.refl

theorem Steps.trans (h : Steps p s t) (k : Steps p t u) : Steps p s u :=
  Relation.ReflTransGen.trans h k

theorem Steps.cons (h : step p s = .running t) (k : Steps p t u) : Steps p s u :=
  Relation.ReflTransGen.head h k

theorem Steps.one (h : step p s = .running t) : Steps p s t :=
  Steps.cons h (Steps.refl p t)

/-- What holds at the start and is kept by every step holds of every state that is reached. -/
theorem Steps.invariant {I : State → Prop} (hI : ∀ s t, I s → step p s = .running t → I t)
    (h : Steps p s t) (hs : I s) : I t := by
  induction h with
  | refl => exact hs
  | tail _ hn ih => exact hI _ _ ih hn

theorem run_of_steps (h : Steps p s t) (ht : step p t = .finished w r) :
    ∃ fuel, run p fuel s = some (w, r) := by
  induction h using Relation.ReflTransGen.head_induction_on with
  | refl => exact ⟨1, by simp [run, ht]⟩
  | head hn _ ih =>
    obtain ⟨fuel, hf⟩ := ih
    refine ⟨fuel + 1, ?_⟩
    have hn' : step p _ = .running _ := hn
    simp [run, hn', hf]

/-- More fuel changes nothing about a run that ends. -/
theorem run_add {e : World × Except Fault (Option Value)} (h : run p fuel s = some e) (more : Nat) :
    run p (fuel + more) s = some e := by
  induction fuel generalizing s with
  | zero => cases h
  | succ fuel ih =>
    rw [Nat.succ_add, run]
    rw [run] at h
    cases hs : step p s with
    | running t =>
      rw [hs] at h
      exact ih h
    | finished w r =>
      rw [hs] at h
      exact h

theorem steps_of_run (h : run p fuel s = some (w, r)) :
    ∃ t, Steps p s t ∧ step p t = .finished w r := by
  induction fuel generalizing s with
  | zero => simp [run] at h
  | succ fuel ih =>
    rw [run] at h
    cases hs : step p s with
    | running t =>
      rw [hs] at h
      obtain ⟨u, hu, hf⟩ := ih h
      exact ⟨u, Steps.cons hs hu, hf⟩
    | finished w' r' =>
      rw [hs] at h
      simp only [Option.some.injEq, Prod.mk.injEq] at h
      obtain ⟨rfl, rfl⟩ := h
      exact ⟨s, Steps.refl p s, hs⟩

end Stackify.Machine
