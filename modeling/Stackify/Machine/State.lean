import Stackify.Machine.Memory

/-!
The state of a run: a frame for each call that is under way, byte memory and the text written so
far. Addresses of locals name a frame, counted from the outermost one, and lead into the local's
value.
-/

namespace Stackify.Machine

open Code (Ty RecordId Program)

/-! ## Frames and states -/

/-- What a caller does with the result of a call. -/
inductive ResultUse where
  /-- Pushes it if there is one. -/
  | pushed
  /-- Pushes it; a call without a result is a fault. -/
  | required
  | dropped
  deriving DecidableEq, Repr

structure Frame where
  method : Nat
  args : List Value
  locals : List Value
  /-- The evaluation stack, top first. -/
  stack : List Value := []
  pc : Nat := 0
  use : ResultUse := .pushed

/-- What outlives a run. -/
structure World where
  memory : Memory
  output : String := ""

structure State where
  current : Frame
  /-- The frames below the current one, innermost first. -/
  callers : List Frame := []
  world : World

namespace State

/-- The number of the current frame; the outermost one is 0. -/
def depth (s : State) : Nat := s.callers.length

def frame? (s : State) (i : Nat) : Option Frame :=
  if i ≤ s.depth then (s.current :: s.callers)[s.depth - i]? else none

def setFrame (s : State) (i : Nat) (f : Frame) : State :=
  if i = s.depth then { s with current := f }
  else { s with callers := s.callers.set (s.depth - 1 - i) f }

def withMemory (s : State) (m : Memory) : State := { s with world := { s.world with memory := m } }

def write (s : State) (text : String) : State :=
  { s with world := { s.world with output := s.world.output ++ text } }

def push (s : State) (v : Value) : State :=
  { s with current := { s.current with stack := v :: s.current.stack } }

def withStack (s : State) (stack : List Value) : State :=
  { s with current := { s.current with stack } }

def goTo (s : State) (pc : Nat) : State := { s with current := { s.current with pc } }

end State

/-! ## Parts of values -/

def Value.part? : PathStep → Value → Option Value
  | .field i, .record vs => vs[i]?
  | .element i, .array vs => if i < 0 then none else vs[i.toNat]?
  | _, _ => none

/-- Puts a value in the place of a part. -/
def Value.setPart : PathStep → Value → Value → Value
  | .field i, .record vs, v => .record (vs.set i v)
  | .element i, .array vs, v => .array (vs.set i.toNat v)
  | _, whole, _ => whole

def Value.follow (v : Value) : List PathStep → Except Fault Value
  | [] => .ok v
  | step :: path =>
    match Value.part? step v with
    | some w => w.follow path
    | none => .error (.outsideObject step)

def Value.replace (v new : Value) : List PathStep → Except Fault Value
  | [] => .ok new
  | step :: path =>
    match Value.part? step v with
    | some w => (w.replace new path).map (Value.setPart step v)
    | none => .error (.outsideObject step)

/-! ## Locals -/

namespace State

def local? (s : State) (frame index : Nat) : Except Fault Value :=
  match (s.frame? frame).bind (·.locals[index]?) with
  | some v => .ok v
  | none => .error (.missingLocal index frame)

def setLocal (s : State) (frame index : Nat) (v : Value) : Except Fault State :=
  match s.frame? frame with
  | none => .error (.missingLocal index frame)
  | some f =>
    if index < f.locals.length then .ok (s.setFrame frame { f with locals := f.locals.set index v })
    else .error (.missingLocal index frame)

/-- The type of the part that a path leads to. -/
def typeAlong (p : Program) (frame index : Nat) : Ty → List PathStep → Except Fault Ty
  | ty, [] => .ok ty
  | ty, step :: path =>
    match step, ty with
    | .field i, .record id =>
      match (p.records[id]?).bind (·.fields[i]?) with
      | some f => typeAlong p frame index f.ty path
      | none => .error (.staleLocal index frame)
    | .element _, .array e _ => typeAlong p frame index e path
    | step, ty => .error (.cannotApply step ty)

/-- The declared type of the object at an address of a local. -/
def localType (p : Program) (s : State) (frame index : Nat) (path : List PathStep) :
    Except Fault Ty :=
  match (s.frame? frame).bind fun f => (p.methods[f.method]?).bind (·.body.locals[index]?) with
  | some ty => typeAlong p frame index ty path
  | none => .error (.staleLocal index frame)

/-- The declared type of what a pointer to a local points to. -/
def pointeeType? (p : Program) (s : State) : Value → Option Ty
  | .pointer (.ofLocal frame index path) => (s.localType p frame index path).toOption
  | _ => none

end State

/-! ## Addresses -/

/-- Why a value cannot be dereferenced. -/
def badAddress : Value → Fault
  | .null => .nullDereference
  | v => .notAddress v

namespace State

/-- The object at an address. Locals hold whole values, so that only memory needs the type. -/
def load (p : Program) (s : State) (address : Value) (ty : Ty) : Except Fault Value :=
  match address with
  | .pointer (.ofLocal frame index path) => do (← s.local? frame index).follow path
  | .pointer (.ofMemory r offset) => s.world.memory.load p.records r offset ty
  | v => .error (badAddress v)

/-- Stores an object; a fault may leave a part of it stored. -/
def store (p : Program) (s : State) (address : Value) (ty : Ty) (v : Value) :
    State × Option Fault :=
  match address with
  | .pointer (.ofLocal frame index path) =>
    match (do s.setLocal frame index (← (← s.local? frame index).replace v path)) with
    | .ok s => (s, none)
    | .error f => (s, some f)
  | .pointer (.ofMemory r offset) =>
    let (m, fault) := s.world.memory.store p.records r offset ty v
    (s.withMemory m, fault)
  | v => (s, some (badAddress v))

end State

def fieldAddress (p : Program) (address : Value) (id : RecordId) (field : Nat) :
    Except Fault Value :=
  match address with
  | .pointer (.ofLocal frame index path) =>
    .ok (.pointer (.ofLocal frame index (path ++ [.field field])))
  | .pointer (.ofMemory r offset) =>
    match p.records[id]? with
    | none => .error (.unknownRecord id)
    | some record =>
      match (record.layout p.records).offsets[field]? with
      | some start => .ok (.pointer (.ofMemory r (offset + start)))
      | none => .error (.outsideObject (.field field))
  | v => .error (badAddress v)

/-- Moves a path to a sibling of the element that it ends in. -/
def slidePath? (path : List PathStep) (distance : Int) : Option (List PathStep) :=
  match path.getLast? with
  | some (.element i) => some (path.dropLast ++ [.element (i + distance)])
  | _ => if distance = 0 then some path else none

/-- Indexing an array descends into it; elsewhere the index moves over the siblings of the element
that is addressed. -/
def elementAddress (p : Program) (s : State) (address : Value) (ty : Ty) (i : Int) :
    Except Fault Value :=
  match address with
  | .pointer (.ofLocal frame index path) =>
    if !Number.fitsSigned 64 i then .error (.indexOutOfRange i)
    else do
      let whole ← s.localType p frame index path
      let descends := match whole with
        | .array e _ => e == ty
        | _ => false
      if descends then return .pointer (.ofLocal frame index (path ++ [.element i]))
      else
        match slidePath? path i with
        | some path => return .pointer (.ofLocal frame index path)
        | none => throw (.pointerArithmetic i index)
  | .pointer (.ofMemory r offset) =>
    let target := (offset : Int) + i * ty.sizeIn p.records
    if Number.fitsUnsigned 64 target then .ok (.pointer (.ofMemory r target.toNat))
    else .error (.belowStart r)
  | v => .error (badAddress v)

end Stackify.Machine
