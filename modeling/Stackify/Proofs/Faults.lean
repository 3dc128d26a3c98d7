import Stackify.Machine.Memory

/-!
Kinds of faults. Three belong to control alone: code that is at its end, a missing operand on the
evaluation stack, and an exception that no frame handles. Others come from an index out of range.
What computes a value or reaches memory reports ordinary ones, so that a run which ends with one of
the others was brought there by its operations, not by their operands.
-/

namespace Stackify.Machine

/-- The faults that only control reports. -/
def Fault.isControl : Fault → Bool
  | .ranPastEnd _ | .stackUnderflow | .uncaught _ => true
  | _ => false

/-- Faults that come from an index out of range, whatever operation reports them. -/
def Fault.isStray : Fault → Bool
  | .missingConst _ | .missingArgument _ | .missingMethod _ | .unmarkedLabel _ | .serviceArguments _
  | .dangling (.static _) => true
  | _ => false

/-- Faults of operands and of memory. -/
def Fault.isOrdinary (f : Fault) : Bool := !f.isControl && !f.isStray

/-- A computation whose fault, if it ends in one, is ordinary. -/
def Ordinary {α : Type} (x : Except Fault α) : Prop := ∀ f, x = .error f → f.isOrdinary = true

variable {α β : Type} {x : Except Fault α} {f : Fault} {b : Block} {offset size : Nat}

@[simp] theorem ordinary_ok (a : α) : Ordinary (.ok a) := by simp [Ordinary]

theorem ordinary_error (h : f.isOrdinary = true) : Ordinary (.error f : Except Fault α) := by
    simpa [Ordinary] using h

theorem Ordinary.map {g : α → β} (hx : Ordinary x) : Ordinary (x.map g) := by
  cases x with
  | ok a => exact ordinary_ok (g a)
  | error f => exact ordinary_error (hx f rfl)

/-! ## Blocks -/

theorem Block.read_ordinary : Ordinary (b.read offset size) := by
  unfold read
  split
  · exact ordinary_ok _
  · exact ordinary_error rfl

theorem Block.write_ordinary {data : List UInt8} : Ordinary (b.write offset data) := by
  unfold write
  split
  · exact ordinary_ok _
  · exact ordinary_error rfl

theorem Block.fill_ordinary {octet : UInt8} : Ordinary (b.fill offset octet size) := by
  unfold fill
  split
  · exact write_ordinary
  · exact ordinary_error rfl

theorem Block.writeReference_ordinary {v : Value} : Ordinary (b.writeReference offset v) := by
  have hw : Ordinary (b.write offset (List.replicate 8 0)) := write_ordinary
  unfold writeReference
  split
  · exact ordinary_ok _
  · exact ordinary_ok _
  · next h => exact ordinary_error (hw _ h)

end Stackify.Machine
