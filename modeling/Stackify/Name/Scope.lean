/-!
Names that are unique within one scope: a name that is taken gets the first free number behind it.
-/

namespace Stackify.Name

structure Scope where
  taken : List String := []

namespace Scope

def empty : Scope := {}

def isTaken (s : Scope) (name : String) : Bool := s.taken.contains name

def numbered (base : String) (n : Nat) : String := base ++ "_" ++ toString n

/-- The first number from `n` on, of at most `tries`, that makes a free name. -/
def firstFree (s : Scope) (base : String) : Nat → Nat → Nat
  | 0, n => n
  | tries + 1, n => if s.isTaken (numbered base n) then firstFree s base tries (n + 1) else n

/-- The free name nearest to `base`: itself, or with a number behind it. -/
def fresh (s : Scope) (base : String) : String :=
  if s.isTaken base then numbered base (s.firstFree base s.taken.length 1) else base

/-- Takes the fresh name for `base`. -/
def reserve (s : Scope) (base : String) : String × Scope :=
  let name := s.fresh base
  (name, ⟨name :: s.taken⟩)

end Scope

end Stackify.Name
