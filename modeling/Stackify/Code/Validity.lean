import Stackify.Code.Program

/-!
Validity of programs: every index is in range, every jump goes to a marked label, calls pass as many
arguments as their target takes, and protected ranges and handlers are nested in or apart from each
other.
-/

namespace Stackify.Code

/-! ## Defects -/

/-- What is wrong with a method. -/
inductive Defect where
  | labelOutOfRange (l : Label)
  | branchToUnmarked (l : Label)
  | constOutOfBounds (index : Nat)
  | localOutOfBounds (index : Nat)
  | argumentOutOfBounds (index : Nat)
  | staticOutOfBounds (index : Nat)
  | methodOutOfBounds (index : Nat)
  | recordOutOfBounds (id : RecordId)
  | noSuchField (record : String) (field : Nat)
  | callArguments (callee : String) (passed expected : Nat)
  | serviceArguments (service : Service) (passed : Nat)
  | boundaryUnmarked (l : Label)
  | invertedBounds (region : Nat)
  | handlerOverlap (region : Nat)
  | notNested (first second : Nat)
  deriving DecidableEq, Repr

def Defect.message : Defect → String
  | labelOutOfRange l => "label L" ++ toString l ++ " out of range"
  | branchToUnmarked l => "branch to unmarked label L" ++ toString l
  | constOutOfBounds i => "const id " ++ toString i ++ " out of bounds"
  | localOutOfBounds i => "local " ++ toString i ++ " out of bounds"
  | argumentOutOfBounds i => "argument " ++ toString i ++ " out of bounds"
  | staticOutOfBounds i => "static " ++ toString i ++ " out of bounds"
  | methodOutOfBounds i => "method " ++ toString i ++ " out of bounds"
  | recordOutOfBounds i => "record " ++ toString i ++ " out of bounds"
  | noSuchField r f => "record " ++ r ++ " has no field " ++ toString f
  | callArguments c p e =>
    "call to " ++ c ++ " passes " ++ toString p ++ " arguments, expected " ++ toString e
  | serviceArguments s p =>
    "runtime call " ++ s.symbol ++ " passes " ++ toString p ++ " arguments, expected " ++
      toString s.arity
  | boundaryUnmarked l => "region boundary L" ++ toString l ++ " never marked"
  | invertedBounds r => "region " ++ toString r ++ " has inverted bounds"
  | handlerOverlap r => "region " ++ toString r ++ " handler overlaps its protected range"
  | notNested a b => "regions " ++ toString a ++ " and " ++ toString b ++ " are not well nested"

/-! ## Operations -/

/-- A bound that an index has to stay below. -/
def below (index bound : Nat) (d : Defect) : Option Defect := if index < bound then none else some d

/-- What is wrong with the indices and counts of an operation. -/
def Op.operandDefect? (p : Program) (m : Method) : Op → Option Defect
  | .loadConst i => below i p.consts.length (.constOutOfBounds i)
  | .loadLocal i | .storeLocal i | .loadLocalAddress i | .initLocal i =>
    below i m.body.locals.length (.localOutOfBounds i)
  | .loadArg i => below i m.type.argSlots (.argumentOutOfBounds i)
  | .loadStaticAddress i => below i p.statics.length (.staticOutOfBounds i)
  | .loadMethodPointer i => below i p.methods.length (.methodOutOfBounds i)
  | .fieldAddress id f =>
    match p.records[id]? with
    | none => some (.recordOutOfBounds id)
    | some r => below f r.fields.length (.noSuchField r.name f)
  | .call i n =>
    match p.methods[i]? with
    | none => some (.methodOutOfBounds i)
    | some callee =>
      if callee.type.argSlots = n then
        none else some (.callArguments callee.name n callee.type.argSlots)
  | .callService s n => if s.arity = n then none else some (.serviceArguments s n)
  | _ => none

/-- What is wrong with an operation: its own label, then where it jumps, then its indices. -/
def Op.defect? (p : Program) (m : Method) (op : Op) : Option Defect :=
  let outOfRange := match op with
    | .label l => below l m.body.labelCount (.labelOutOfRange l)
    | _ => none
  match outOfRange with
  | some d => some d
  | none =>
    match op.targets.find? fun l => (position? m.body.ops l).isNone with
    | some l => some (.branchToUnmarked l)
    | none => op.operandDefect? p m

/-! ## Regions -/

/-- Positions from the first up to, but not including, the second. -/
abbrev Span := Nat × Nat

def Span.overlaps (a b : Span) : Bool := a.1 < b.2 && b.1 < a.2

def Span.contains (a b : Span) : Bool := a.1 ≤ b.1 && b.2 ≤ a.2

/-- The protected range and the handler of a region. -/
def Region.spans (ops : List Op) (r : Region) : Except Defect (Span × Span) :=
  let find := fun l : Label => match position? ops l with
    | some i => Except.ok i
    | none => .error (Defect.boundaryUnmarked l)
  do
    let tryStart ← find r.tryStart
    let tryEnd ← find r.tryEnd
    let handlerStart ← find r.handlerStart
    let handlerEnd ← find r.handlerEnd
    return ((tryStart, tryEnd), (handlerStart, handlerEnd))

/-- The spans of all regions, each with the number of its region, if every region is sound by
itself. -/
def regionSpans (ops : List Op) (index : Nat) : List Region → Except Defect (List (Nat × Span))
  | [] => .ok []
  | r :: rest => do
    let (protect, handler) ← r.spans ops
    if protect.2 < protect.1 || handler.2 < handler.1 then .error (.invertedBounds index)
    else if protect.overlaps handler then .error (.handlerOverlap index)
    else return (index, protect) :: (index, handler) :: (← regionSpans ops (index + 1) rest)

def Span.wellNested (a b : Span) : Bool := !a.overlaps b || a.contains b || b.contains a

/-- The first two spans of different regions that cross each other. -/
def crossing? : List (Nat × Span) → Option Defect
  | [] => none
  | (i, a) :: rest =>
    match rest.find? fun (j, b) => i ≠ j && !a.wellNested b with
    | some (j, _) => some (.notNested i j)
    | none => crossing? rest

def regionDefect? (b : Body) : Option Defect :=
  match regionSpans b.ops 0 b.regions with
  | .error d => some d
  | .ok spans => crossing? spans

/-! ## Methods and programs -/

def Method.defect? (p : Program) (m : Method) : Option Defect :=
  match m.body.ops.findSome? (Op.defect? p m) with
  | some d => some d
  | none => regionDefect? m.body

/-- The first method with a defect, by name, and the defect. -/
def Program.defect? (p : Program) : Option (String × Defect) :=
  p.methods.findSome? fun m => (m.defect? p).map fun d => (m.name, d)

end Stackify.Code
