import Stackify.Code.Program

/-!
Assembling a method body operation by operation. Labels may be used before they are marked; when the
body is finished, every label that is used has to be marked, and no label twice.
-/

namespace Stackify.Code

/-- A body under construction. `marked` holds the labels that were marked as such. -/
structure Assembly where
  locals : List Ty := []
  ops : List Op := []
  regions : List Region := []
  labelCount : Nat := 0
  marked : List Label := []

/-- Why a body cannot be finished. -/
inductive LabelDefect where
  | markedTwice (l : Label)
  | neverMarked (l : Label)
  deriving DecidableEq, Repr

def LabelDefect.message : LabelDefect → String
  | markedTwice l => "label L" ++ toString l ++ " marked twice"
  | neverMarked l => "label L" ++ toString l ++ " referenced but never marked"

namespace Assembly

def newLabel (a : Assembly) : Label × Assembly :=
  (a.labelCount, { a with labelCount := a.labelCount + 1 })

def markLabel (a : Assembly) (l : Label) : Assembly :=
  { a with ops := a.ops ++ [.label l], marked := l :: a.marked }

def addLocal (a : Assembly) (t : Ty) : Nat × Assembly :=
  (a.locals.length, { a with locals := a.locals ++ [t] })

def emit (a : Assembly) (ops : List Op) : Assembly := { a with ops := a.ops ++ ops }

def addRegion (a : Assembly) (r : Region) : Assembly := { a with regions := a.regions ++ [r] }

/-- The first label that is marked again. -/
def repeated? (seen : List Label) : List Label → Option Label
  | [] => none
  | l :: ls => if seen.contains l then some l else repeated? (l :: seen) ls

/-- All labels that operations and regions use. -/
def referenced (a : Assembly) : List Label :=
  a.ops.flatMap Op.targets ++ a.regions.flatMap Region.labels

def finish (a : Assembly) : Except LabelDefect Body :=
  match repeated? [] (markedLabels a.ops) with
  | some l => .error (.markedTwice l)
  | none =>
    match a.referenced.find? fun l => !a.marked.contains l with
    | some l => .error (.neverMarked l)
    | none => .ok ⟨a.locals, a.ops, a.regions, a.labelCount⟩

end Assembly

end Stackify.Code
