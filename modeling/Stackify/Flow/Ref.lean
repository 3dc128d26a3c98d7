import Stackify.Ssa.Operand

/-!
References between nodes. A constant expression inside an operand becomes a node of its own, so that
an operand of a node is always plain.
-/

namespace Stackify.Flow

open Ssa (ValueId BlockId Constant)

/-- The position of a node in its graph. -/
abbrev NodeId := Nat

/-- What a node is known by: the source value it computes, or a count for a constant expression. -/
inductive Key where
  | value (id : ValueId)
  | synthesized (n : Nat)
  deriving DecidableEq, Repr

namespace Key

def value? : Key → Option ValueId
  | value id => some id
  | synthesized _ => none

def text : Key → String
  | value id => "Value(ValueId(" ++ toString id ++ "))"
  | synthesized n => "Synthesized(" ++ toString n ++ ")"

end Key

/-- An operand of a node. -/
inductive Ref where
  | key (k : Key)
  | const (c : Constant)
  | block (id : BlockId)
  | global (name : String)
  | function (name : String)
  deriving DecidableEq

namespace Ref

def key? : Ref → Option Key
  | key k => some k
  | _ => none

def constInt? : Ref → Option Int
  | const (.int _ n) => some n
  | _ => none

def block? : Ref → Option BlockId
  | block id => some id
  | _ => none

end Ref

end Stackify.Flow
