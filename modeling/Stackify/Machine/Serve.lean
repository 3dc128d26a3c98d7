import Stackify.Machine.State
import Stackify.Text.Lossy

/-!
The services that the machine offers to programs: allocation, copying and filling of memory,
variadic lists, output, and the report of a failed assertion.
-/

namespace Stackify.Machine

open Code (Ty Program Service)

/-- How an operation fails: with a fault, or with an exception that protected code may catch. -/
inductive Failure where
  | fault (f : Fault)
  | exception (v : Value)

/-- The state after a service, and what it gave. -/
abbrev Served := State × Except Failure (Option Value)

/-! ## Arguments -/

def argument (service : Service) (args : List Value) (i : Nat) : Except Fault Value :=
  match args[i]? with
  | some v => .ok v
  | none => .error (.serviceArguments service)

/-- A size fits 64 bits without sign. -/
def sizeArgument (service : Service) (args : List Value) (i : Nat) : Except Fault Nat := do
  let v ← argument service args i
  match v.toInt? with
  | some n => if Number.fitsUnsigned 64 n then return n.toNat else throw (.invalidSize service v)
  | none => throw (.invalidSize service v)

/-! ## Memory -/

namespace State

def allocate (s : State) (size : Nat) : State × Value :=
  let (r, m) := s.world.memory.allocate size
  (s.withMemory m, .pointer (.ofMemory r 0))

/-- A copy that touches a local covers the whole object. -/
def wholeObject (p : Program) (ty : Ty) (size : Nat) : Except Fault Unit :=
  let expected := ty.sizeIn p.records
  if expected = size then .ok () else .error (.partialCopy size expected)

/-- Copies octets between blocks, or one object when a local takes part. -/
def copyMemory (p : Program) (s : State) (target source : Value) (size : Nat) :
    State × Option Fault :=
  if size = 0 then (s, none)
  else
    match target, source with
    | .pointer (.ofMemory r i), .pointer (.ofMemory q j) =>
      let (m, fault) := s.world.memory.copy r i q j size
      (s.withMemory m, fault)
    | target, source =>
      match (s.pointeeType? p target).or (s.pointeeType? p source) with
      | none => (s, some (.copyBetween source target))
      | some ty =>
        match (do wholeObject p ty size; s.load p source ty) with
        | .ok v => s.store p target ty v
        | .error f => (s, some f)

/-- Fills octets; of a local only a whole object can be filled, with zeros. -/
def fillMemory (p : Program) (s : State) (target : Value) (octet : UInt8) (size : Nat) :
    State × Option Fault :=
  match target with
  | .pointer (.ofMemory r i) =>
    match s.world.memory.fill r i octet size with
    | .ok m => (s.withMemory m, none)
    | .error f => (s, some f)
  | .pointer (.ofLocal _ _ _) =>
    let ty := (s.pointeeType? p target).getD .void
    match wholeObject p ty size with
    | .error f => (s, some f)
    | .ok _ =>
      if octet = 0 then s.store p target ty (defaultValue p.records ty)
      else (s, some (.memsetLocal octet.toNat))
  | v => (s, some (.memsetOf v))

/-! ## Strings -/

/-- The units of a string in octets: up to a zero unit or to the end of the octets. -/
def unitsOfOctets (unit : Nat) (octets : List UInt8) : List Nat :=
  if unit = 0 ∨ octets.length < unit then []
  else
    let code := Number.ofOctets (octets.take unit)
    if code = 0 then [] else code :: unitsOfOctets unit (octets.drop unit)
termination_by octets.length
decreasing_by simp only [List.length_drop]; omega

/-- The units of a string in the elements of an array. -/
def unitsOfItems (unit : Nat) : List Value → List Nat
  | [] => []
  | v :: vs =>
    match v.toInt? with
    | some n => if n = 0 then [] else (n % Number.pow2 (8 * unit)).toNat :: unitsOfItems unit vs
    | none => []

/-- The units, of `unit` octets each, of the string at an address. -/
def readString (s : State) (address : Value) (unit : Nat) : Except Fault (List Nat) :=
  match address with
  | .null => .ok []
  | .pointer (.ofMemory r offset) =>
    (s.world.memory.block r).map fun b => unitsOfOctets unit (b.octets.drop offset)
  | .pointer (.ofLocal frame index path) => do
    let (parent, start) := match path.getLast? with
      | some (.element i) => (path.dropLast, i)
      | _ => (path, 0)
    match ← (← s.local? frame index).follow parent with
    | .array vs => return if start < 0 then [] else unitsOfItems unit (vs.drop start.toNat)
    | _ => return []
  | v => .error (.notStringAddress v)

def readWideText (s : State) (address : Value) : Except Fault String := do
  return String.ofList (Text.ofUnits (← s.readString address 2))

end State

/-! ## Services -/

/-- A service that either succeeds or leaves the state alone. -/
def Served.pure (s : State) : Except Fault (State × Option Value) → Served
  | .ok (s, v) => (s, .ok v)
  | .error f => (s, .error (.fault f))

/-- A service without a result. -/
def Served.effect : State × Option Fault → Served
  | (s, none) => (s, .ok none)
  | (s, some f) => (s, .error (.fault f))

/-- The message of a failed assertion. -/
def assertionText (s : State) (args : List Value) : Except Fault String := do
  let message ← s.readWideText (← argument .assertFailure args 0)
  let file ← s.readWideText (← argument .assertFailure args 1)
  let line ← argument .assertFailure args 2
  return "Assertion failed: " ++ message ++ " at " ++ file ++ ":" ++ toString (line.toInt?.getD 0)

def serve (p : Program) (s : State) (service : Service) (args : List Value) : Served :=
  match service with
  | .alloc => .pure s do
    let (s, v) := s.allocate (← sizeArgument service args 0)
    return (s, some v)
  | .reAlloc => .pure s do
    let size ← sizeArgument service args 1
    match ← argument service args 0 with
    | .null =>
      let (s, v) := s.allocate size
      return (s, some v)
    | .pointer (.ofMemory r 0) =>
      return (s.withMemory (← s.world.memory.resize r size), some (.pointer (.ofMemory r 0)))
    | v => throw (.reallocOf v)
  | .free => .pure s do
    match ← argument service args 0 with
    | .null => return (s, none)
    | .pointer (.ofMemory r 0) => return (s.withMemory (← s.world.memory.free r), none)
    | v => throw (.freeOf v)
  -- A block never grows in place.
  | .expand => (s, .ok (some .null))
  | .memCopy | .memMove =>
    match (do
      let size ← sizeArgument service args 2
      return (← argument service args 0, ← argument service args 1, size)) with
    | .ok (target, source, size) => .effect (s.copyMemory p target source size)
    | .error f => (s, .error (.fault f))
  | .memSet =>
    match (do
      let octet ← argument service args 1
      let size ← sizeArgument service args 2
      return (← argument service args 0, (octet.toInt?.getD 0), size)) with
    | .ok (target, n, size) => .effect (s.fillMemory p target (.ofNat (n % 256).toNat) size)
    | .error f => (s, .error (.fault f))
  | .vaCopy =>
    match (do
      let v ← s.load p (← argument service args 1) .varArgs
      return (← argument service args 0, v)) with
    | .ok (target, v) => .effect (s.store p target .varArgs v)
    | .error f => (s, .error (.fault f))
  | .putString => .pure s do
    let units ← s.readString (← argument service args 0) 1
    return (s.write (String.ofList (Text.ofOctets units) ++ "\n"), some (.int .w32 0))
  | .assertFailure =>
    match assertionText s args with
    | .ok text => (s, .error (.exception (.exception text)))
    | .error f => (s, .error (.fault f))
  | .terminate => (s, .error (.fault .terminated))

end Stackify.Machine
