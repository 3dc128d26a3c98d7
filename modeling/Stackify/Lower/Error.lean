import Stackify.Code.Assembly
import Stackify.Code.Validity
import Stackify.Flow.Defect
import Stackify.Options

/-!
Why a module cannot be lowered.
-/

namespace Stackify.Lower

open Stackify.Flow (Flaw Location)

inductive Error where
  | config (p : Options.Problem)
  | structural (f : Flaw)
  | unresolvedSymbol (location : Location) (symbol : String)
  | unsupportedType (ty : Ssa.Ty)
  | labels (d : Code.LabelDefect)
  | invalid (method : String) (d : Code.Defect)

def Error.message : Error → String
  | config p => "configuration error: " ++ p.message
  | structural f => f.text
  | unresolvedSymbol l symbol => l.text ++ ": unresolved symbol " ++ symbol
  | unsupportedType ty => "unsupported type " ++ ty.text
  | labels d => "bytecode format error: " ++ d.message
  | invalid m d => "invalid method " ++ m ++ ": " ++ d.message

end Stackify.Lower
