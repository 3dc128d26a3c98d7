import Stackify.Code.Op

/-!
Predicates of comparisons, and the comparison of the stack machine that computes each of them.
-/

namespace Stackify.Flow

open Code (CompareOp)

/-! ## Integers -/

/-- The letter in front tells comparisons with sign from those without. -/
inductive IntPredicate where
  | eq | ne | ugt | uge | ult | ule | sgt | sge | slt | sle
  deriving DecidableEq, Repr

namespace IntPredicate

/-- All predicates in the order of their codes, which start at 32. -/
def all : List IntPredicate := [eq, ne, ugt, uge, ult, ule, sgt, sge, slt, sle]

def ofCode? (code : Nat) : Option IntPredicate := if code < 32 then none else all[code - 32]?

def name : IntPredicate → String
  | eq => "Eq"
  | ne => "Ne"
  | ugt => "Ugt"
  | uge => "Uge"
  | ult => "Ult"
  | ule => "Ule"
  | sgt => "Sgt"
  | sge => "Sge"
  | slt => "Slt"
  | sle => "Sle"

/-- A comparison, and whether its result is negated. -/
def comparison : IntPredicate → CompareOp × Bool
  | eq => (.eq, false)
  | ne => (.eq, true)
  | ugt => (.gtUn, false)
  | uge => (.ltUn, true)
  | ult => (.ltUn, false)
  | ule => (.gtUn, true)
  | sgt => (.gt, false)
  | sge => (.lt, true)
  | slt => (.lt, false)
  | sle => (.gt, true)

end IntPredicate

/-! ## Floating-point numbers -/

/-- Predicates with an `o` in front are false of unordered numbers, those with a `u` true. -/
inductive FloatPredicate where
  | never | oeq | ogt | oge | olt | ole | one | ord | uno | ueq | ugt | uge | ult | ule |
      une | always
  deriving DecidableEq, Repr

namespace FloatPredicate

/-- All predicates in the order of their codes, which start at 0. -/
def all : List FloatPredicate :=
  [never, oeq, ogt, oge, olt, ole, one, ord, uno, ueq, ugt, uge, ult, ule, une, always]

def ofCode? (code : Nat) : Option FloatPredicate := all[code]?

def name : FloatPredicate → String
  | never => "False"
  | oeq => "Oeq"
  | ogt => "Ogt"
  | oge => "Oge"
  | olt => "Olt"
  | ole => "Ole"
  | one => "One"
  | ord => "Ord"
  | uno => "Uno"
  | ueq => "Ueq"
  | ugt => "Ugt"
  | uge => "Uge"
  | ult => "Ult"
  | ule => "Ule"
  | une => "Une"
  | always => "True"

/-- A single comparison that computes the predicate, and whether its result is negated. -/
def comparison? : FloatPredicate → Option (CompareOp × Bool)
  | oeq => some (.eq, false)
  | une => some (.eq, true)
  | ogt => some (.gt, false)
  | olt => some (.lt, false)
  | ugt => some (.gtUn, false)
  | ult => some (.ltUn, false)
  | oge => some (.ltUn, true)
  | ole => some (.gtUn, true)
  | uge => some (.lt, true)
  | ule => some (.gt, true)
  | never | one | ord | uno | ueq | always => none

/-- Whether each operand is needed once. -/
def evaluatesOnce (p : FloatPredicate) : Bool := p.comparison?.isSome

end FloatPredicate

end Stackify.Flow
