import Stackify.Code.Service
import Stackify.Flow.Ref
import Stackify.Ssa.Text

/-!
Defects of source functions, and where they are.
-/

namespace Stackify.Flow

open Ssa (ValueId BlockId Opcode)

/-! ## Places -/

/-- A function, or an instruction or constant expression in it. -/
structure Location where
  function : String
  instruction : Option ValueId := none
  opcode : Option Opcode := none
  deriving DecidableEq, Repr

namespace Location

/-- A node in the function of a location. -/
def node (l : Location) (k : Key) (opcode : Opcode) : Location :=
  { function := l.function, instruction := k.value?, opcode := some opcode }

def text (l : Location) : String :=
  "in function " ++ l.function ++
    match l.opcode, l.instruction with
    | none, _ => ""
    | some o, some id => " at %" ++ toString id ++ " (" ++ o.mnemonic ++ ")"
    | some o, none => " at synthesized " ++ o.mnemonic

end Location

/-! ## Defects -/

/-- How many operands there should be. -/
inductive Expected where
  | exactly (n : Nat)
  | atLeast (n : Nat)
  | either (a b : Nat)
  /-- A value, a default and pairs. -/
  | switchOperands
  | onePerIncoming (n : Nat)
  | arguments (n : Nat)
  | serviceArguments (n : Nat) (s : Code.Service)
  deriving DecidableEq, Repr

def Expected.text : Expected → String
  | exactly n => toString n
  | atLeast n => "at least " ++ toString n
  | either a b => toString a ++ " or " ++ toString b
  | switchOperands => "2 + 2n"
  | onePerIncoming n => toString n ++ " (one per incoming block)"
  | arguments n => toString n ++ " arguments"
  | serviceArguments n s => toString n ++ " arguments for " ++ s.symbol

/-- What is wrong with an operand or with the facts beside operands. -/
inductive Misuse where
  | notBlock (index : Nat) (opcode : Opcode)
  | noAllocatedType
  | caseNotConstant
  | noIncomingBlocks
  | noSourceType
  | noPredicate
  | noFunctionType
  | emptyBlock (id : BlockId)
  | noTerminator (id : BlockId)
  | notNumeric (ty : Ssa.Ty)
  | unknownValue (k : Key)
  | noResult (k : Key)
  | blockAsValue (id : BlockId)
  | intOfType (ty : Code.Ty)
  | floatOfType (ty : Ssa.Ty)
  | conversionToVoid
  | reinterpretingCast (source target : Ssa.Ty)
  | phiWithoutLocal
  | resultMismatch
  | noValueFrom (s : Code.Service)
  | vaStartNotVariadic
  deriving DecidableEq

def Misuse.text : Misuse → String
  | notBlock i o => "operand " ++ toString i ++ " of " ++ o.mnemonic ++ " must be a block"
  | noAllocatedType => "alloca without allocated type"
  | caseNotConstant => "switch case is not a constant"
  | noIncomingBlocks => "phi without incoming blocks"
  | noSourceType => "getelementptr without source type"
  | noPredicate => "comparison without predicate"
  | noFunctionType => "call site without function type"
  | emptyBlock id => "block " ++ Ssa.blockText id ++ " is empty"
  | noTerminator id => "block " ++ Ssa.blockText id ++ " does not end in a terminator"
  | notNumeric ty => ty.text ++ " is not a numeric type"
  | unknownValue k => "unknown value " ++ k.text
  | noResult k => "value " ++ k.text ++ " is used but produces no result"
  | blockAsValue id => "block " ++ Ssa.blockText id ++ " used as a value"
  | intOfType ty => "integer constant of non-integer type " ++ ty.text
  | floatOfType ty => "float constant of type " ++ ty.text
  | conversionToVoid => "conversion to void"
  | reinterpretingCast s t =>
    "bitcast from " ++ s.text ++ " to " ++ t.text ++ " reinterprets the representation"
  | phiWithoutLocal => "phi without a local"
  | resultMismatch => "call site result does not match the callee signature"
  | noValueFrom s => s.symbol ++ " produces no value"
  | vaStartNotVariadic => "va_start in a non-variadic function"

inductive Defect where
  | arity (expected : Expected) (found : Nat)
  | unknownPredicate (code : Nat)
  | nonConstantFieldIndex (aggregate : String)
  | fieldIndexOutOfRange (aggregate : String) (index : Int) (fields : Nat)
  | indexThroughLeaf (ty : Ssa.Ty)
  | missingBlock (id : BlockId)
  | missingPersonality
  | unknownPersonality (name : String)
  | constantExpressionLimit (limit : Nat)
  | returnWithoutValue
  | phiMismatch (predecessor : BlockId)
  | unregisteredType (ty : Ssa.Ty)
  | invalidOperand (m : Misuse)
  | unsupportedOpcode (opcode : Opcode)
  deriving DecidableEq

namespace Defect

/-- The name that reports give to the defect. -/
def name : Defect → String
  | arity _ _ => "Arity"
  | unknownPredicate _ => "UnknownPredicate"
  | nonConstantFieldIndex _ => "NonConstantFieldIndex"
  | fieldIndexOutOfRange _ _ _ => "FieldIndexOutOfRange"
  | indexThroughLeaf _ => "IndexThroughLeaf"
  | missingBlock _ => "MissingBlock"
  | missingPersonality => "MissingPersonality"
  | unknownPersonality _ => "UnknownPersonality"
  | constantExpressionLimit _ => "ConstantExpressionLimit"
  | returnWithoutValue => "ReturnWithoutValue"
  | phiMismatch _ => "PhiMismatch"
  | unregisteredType _ => "UnregisteredType"
  | invalidOperand _ => "InvalidOperand"
  | unsupportedOpcode _ => "UnsupportedOpcode"

def text : Defect → String
  | arity e n => "expected " ++ e.text ++ " operands, found " ++ toString n
  | unknownPredicate c => "unknown comparison predicate " ++ toString c
  | nonConstantFieldIndex a => "field index into " ++ a ++ " is not a constant integer"
  | fieldIndexOutOfRange a i n =>
    "field index " ++ toString i ++ " out of range for " ++ a ++ " with "
      ++ toString n ++ " fields"
  | indexThroughLeaf ty => "cannot index through non-aggregate type " ++ ty.text
  | missingBlock id => "reference to unknown block " ++ Ssa.blockText id
  | missingPersonality => "exception handling without a personality function"
  | unknownPersonality name => "unknown personality function " ++ name
  | constantExpressionLimit n => "constant expression exceeds " ++ toString n ++ " nodes"
  | returnWithoutValue => "return without a value from a non-void function"
  | phiMismatch id => "phi has no incoming value for predecessor " ++ Ssa.blockText id
  | unregisteredType ty => "type " ++ ty.text ++ " was not registered before lowering"
  | invalidOperand m => "invalid operand: " ++ m.text
  | unsupportedOpcode o => "opcode " ++ o.mnemonic ++ " produces a value but has no lowering"

end Defect

/-- A defect at a place. -/
structure Flaw where
  location : Location
  defect : Defect
  deriving DecidableEq

def Flaw.text (f : Flaw) : String := f.location.text ++ ": " ++ f.defect.text

end Stackify.Flow
