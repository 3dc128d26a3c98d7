import Stackify.Code.Program

/-!
Labels in code: which ones are marked, and where. A label that is marked once is where its mark is
(`position?_eq_some`).
-/

namespace Stackify.Code

open List

variable {a b ops : List Op} {l : Label} {i pc : Nat}

@[simp] theorem markedLabels_nil : markedLabels [] = [] := rfl

@[simp] theorem markedLabels_append : markedLabels (a ++ b) = markedLabels a ++ markedLabels b :=
  filterMap_append

@[simp] theorem markedLabels_label : markedLabels (.label l :: ops) = l :: markedLabels ops := rfl

@[simp] theorem markedLabels_cons_of_ne {op : Op} (h : ∀ l, op ≠ .label l) :
    markedLabels (op :: ops) = markedLabels ops := by
  cases op with
  | label l => exact absurd rfl (h l)
  | _ => rfl

theorem markedLabels_eq_nil (h : ∀ op ∈ ops, ∀ l, op ≠ .label l) : markedLabels ops = [] := by
  refine filterMap_eq_nil_iff.mpr fun op hop => ?_
  split
  · exact absurd rfl (h _ hop _)
  · rfl

theorem mem_markedLabels : l ∈ markedLabels ops ↔ .label l ∈ ops := by
  rw [markedLabels, mem_filterMap]
  constructor
  · rintro ⟨op, hop, h⟩
    split at h
    · cases h
      exact hop
    · cases h
  · exact fun h => ⟨.label l, h, rfl⟩

/-- A label is marked in code, and not right behind a `leave`. -/
def Enters (ops : List Op) (l : Label) : Prop :=
  ∃ a op b, ops = a ++ op :: .label l :: b ∧ ∀ u, op ≠ .leave u

theorem Enters.marked (h : Enters ops l) : l ∈ markedLabels ops := by
  obtain ⟨a, op, b, rfl, -⟩ := h
  exact mem_markedLabels.mpr (by simp)

theorem Enters.append_left (h : Enters b l) (a : List Op) : Enters (a ++ b) l := by
  obtain ⟨front, op, back, rfl, hop⟩ := h
  exact ⟨a ++ front, op, back, by simp, hop⟩

theorem Enters.append_right (h : Enters a l) (b : List Op) : Enters (a ++ b) l := by
  obtain ⟨front, op, back, rfl, hop⟩ := h
  exact ⟨front, op, back ++ b, by simp, hop⟩

/-- A label behind code without a `leave`. -/
theorem Enters.of_forall {op : Op} (h : ∀ op' ∈ op :: a, ∀ u, op' ≠ .leave u) :
    Enters (op :: a ++ .label l :: b) l := by
  have hne : op :: a ≠ [] := cons_ne_nil _ _
  refine ⟨(op :: a).dropLast, (op :: a).getLast hne, b, ?_, h _ (getLast_mem hne)⟩
  rw [append_cons _ (getLast _ _), dropLast_concat_getLast]

theorem positionFrom_label (h : positionFrom l i ops = some pc) :
    i ≤ pc ∧ ops[pc - i]? = some (.label l) := by
  induction ops generalizing i with
  | nil => cases h
  | cons op ops ih =>
    rw [positionFrom] at h
    split at h
    · next j hj =>
      cases h
      obtain ⟨hle, ho⟩ := ih hj
      obtain ⟨k, rfl⟩ : ∃ k, pc = i + 1 + k := ⟨pc - (i + 1), by omega⟩
      rw [Nat.add_sub_cancel_left] at ho
      exact ⟨by omega, by rwa [show i + 1 + k - i = k + 1 by omega, getElem?_cons_succ]⟩
    · split at h
      · next hop =>
        cases h
        simp [hop]
      · cases h

/-- Where a label is, it is marked. -/
theorem position?_label (h : position? ops l = some pc) : ops[pc]? = some (.label l) :=
  (positionFrom_label h).2

theorem positionFrom_eq_none (h : l ∉ markedLabels ops) : positionFrom l i ops = none := by
  cases hp : positionFrom l i ops with
  | none => rfl
  | some pc => exact absurd (mem_markedLabels.mpr (mem_of_getElem? (positionFrom_label hp).2)) h

/-- A label that is marked once is where its mark is. -/
theorem position?_eq_some (hl : (markedLabels (a ++ .label l :: b)).Nodup) :
    position? (a ++ .label l :: b) l = some a.length := by
  suffices h : ∀ i, positionFrom l i (a ++ .label l :: b) = some (i + a.length) by
    simpa [position?] using h 0
  rw [markedLabels_append, markedLabels_label] at hl
  obtain ⟨-, hb, hab⟩ := nodup_append.mp hl
  have hafter : l ∉ markedLabels b := (nodup_cons.mp hb).1
  clear hl hab hb
  induction a with
  | nil =>
    intro i
    simp [positionFrom, positionFrom_eq_none hafter]
  | cons op a ih =>
    intro i
    rw [cons_append, positionFrom, ih]
    simp [Nat.add_assoc, Nat.add_comm 1]

theorem position?_of_getElem? (ho : ops[pc]? = some (.label l)) (hl : (markedLabels ops).Nodup) :
    position? ops l = some pc := by
  obtain ⟨hlt, ho⟩ := List.getElem?_eq_some_iff.mp ho
  have hsplit : ops.take pc ++ .label l :: ops.drop (pc + 1) = ops := by
    rw [← ho, getElem_cons_drop, take_append_drop]
  rw [← hsplit] at hl
  have hpos := position?_eq_some hl
  rwa [hsplit, length_take, Nat.min_eq_left (Nat.le_of_lt hlt)] at hpos

end Stackify.Code
