import Stackify.Flow.Graph
import Stackify.Lower.Error
import Stackify.Lower.Route
import Stackify.Name.Display

/-!
Declaration of a module: every type that its functions mention is resolved, statics and methods get
numbers and names, and it is found out which methods may raise an exception.
-/

namespace Stackify.Lower

open Ssa (Module Function Operand Info Instruction)
open Resolve (Resolver Resolving resolve resolveSignature)
open Stackify.Flow (Location Ref lastIndex?)

/-! ## Types -/

def resolveInfo (m : Module) : Info → Resolving Unit
  | .alloca ty => do let _ ← resolve m ty
  | .gep ty _ => do let _ ← resolve m ty
  | .call type => do let _ ← resolveSignature m type
  | .plain | .predicate _ | .phi _ => return

mutual

/-- Resolves the types in an operand; of an expression's operands the last one comes first. -/
def resolveOperand (m : Module) : Operand → Resolving Unit
  | .const c => do let _ ← resolve m c.ty
  | .expr _ ty operands info => do
    let _ ← resolve m ty
    resolveInfo m info
    resolveOperands m operands
  | .value _ | .block _ | .global _ | .function _ => return

def resolveOperands (m : Module) : List Operand → Resolving Unit
  | [] => return
  | o :: os => do
    resolveOperands m os
    resolveOperand m o

end

def resolveInstruction (m : Module) (i : Instruction) : Resolving Unit := do
  let _ ← resolve m i.ty
  resolveInfo m i.info
  resolveOperands m i.operands

def resolveAttribute (m : Module) : Ssa.Attribute → Resolving Unit
  | .structRet ty => do let _ ← resolve m ty
  | .byVal ty => do let _ ← resolve m ty
  | .noUnwind | .noReturn | .other _ => return

def resolveFunction (m : Module) (f : Function) : Resolving Unit := do
  let _ ← resolveSignature m f.type
  f.params.forM fun p => p.attributes.forM (resolveAttribute m)
  f.instructions.forM (resolveInstruction m)

/-- Resolves all types of a module. -/
def resolveModule (m : Module) : Resolving Unit := do
  m.structs.forM fun s => do let _ ← resolve m (.struct s.name)
  m.globals.forM fun g => do let _ ← resolve m g.ty
  m.functions.forM (resolveFunction m)

/-! ## Methods -/

/-- The method that a defined function becomes. -/
structure MethodEntry where
  function : Function
  /-- The display name. -/
  name : String
  index : Nat
  /-- The number of the method that returns the result as a value, for functions that return it
  through a pointer. -/
  wrapper : Option Nat
  type : Code.MethodType
  mayThrow : Bool := false

/-- A module whose types are resolved and whose methods and statics are numbered. -/
structure Declared where
  source : Module
  options : Options
  resolver : Resolver
  statics : List Code.Static
  methods : List MethodEntry

namespace Declared

/-- The method of a function; of several functions with one name, the last. -/
def method? (d : Declared) (symbol : String) : Option MethodEntry :=
  (lastIndex? (fun e => e.function.name = symbol) d.methods).bind (d.methods[·]?)

def staticIndex? (d : Declared) (name : String) : Option Nat :=
  lastIndex? (fun g => g.name = name) d.source.globals

end Declared

/-- Declares globals from the first on, with the names that are still free. -/
def declareStatics (r : Resolver) : Name.Scope → List Ssa.Global → Except Error (List Code.Static)
  | _, [] => .ok []
  | scope, g :: rest =>
    match r.lookup? g.ty with
    | none => .error (.unsupportedType g.ty)
    | some ty => do
      let (name, scope) := scope.reserve (Name.clean g.name "Global")
      return ⟨name, ty, g.initializer⟩ :: (← declareStatics r scope rest)

/-- Declares functions from the given number on; wrappers are numbered on their own. -/
def declareMethods (o : Options) (r : Resolver) :
    Nat → Nat → Name.Scope → List Function → Except Error (List MethodEntry)
  | _, _, _, [] => .ok []
  | index, nextWrapper, scope, f :: rest =>
    match Name.displayName f.name f.readable o.renamed, r.lookupSignature? f.type with
    | .error p, _ => .error (.config p)
    | .ok _, none => .error (.unsupportedType f.type.toTy)
    | .ok base, some type => do
      let (name, scope) := scope.reserve base
      let wraps := o.publicWrappers && f.structReturn?.isSome
      let entry : MethodEntry :=
        { function := f, name, index, wrapper := if wraps then some nextWrapper else none, type }
      return entry :: (← declareMethods o r (index + 1) (if wraps then
        nextWrapper + 1 else nextWrapper) scope rest)

/-! ## Exceptions -/

/-- The functions that an instruction calls by name. -/
def callee? (i : Instruction) : Option Operand :=
  match i.opcode with
  | .call | .invoke => some (i.operands.getLast?.getD (.const .null))
  | _ => none

/-- Whether an instruction may raise an exception, apart from what the methods it calls do. -/
def Declared.raises (d : Declared) (i : Instruction) : Bool :=
  (match i.opcode with
    | .resume | .invoke => true
    | .cleanupRet => i.operands.length = 1
    | _ => false)
  || match callee? i with
    | some (.function name) =>
      (d.method? name).isNone && Route.ofSymbol? name = some (.service .assertFailure)
    | some _ => true
    | none => false

/-- The numbers of the methods that a function calls by name. -/
def Declared.calls (d : Declared) (f : Function) : List Nat :=
  f.instructions.filterMap fun i =>
    match callee? i with
    | some (.function name) => (d.method? name).map (·.index)
    | _ => none

/-- One round of the closure: a method may throw if it raises exceptions or calls one that may
throw, unless it promises not to. -/
def throwRound (entries : List (Bool × List Nat)) (throws : List Bool) : List Bool :=
  (entries.zip throws).map fun ((silent, calls), throws') =>
    throws' || (!silent && calls.any fun i => throws.getD i false)

/-- Which methods may throw. As many rounds as there are methods reach all callers. -/
def Declared.throwing (d : Declared) : List Bool :=
  let entries := d.methods.map fun e => (e.function.isNoUnwind, d.calls e.function)
  let start := d.methods.map fun e => !e.function.isNoUnwind && e.function.instructions.any d.raises
  (List.range d.methods.length).foldl (fun throws _ => throwRound entries throws) start

def declare (m : Module) (o : Options) : Except Error Declared :=
  match (resolveModule m).run {} with
  | .error ty _ => .error (.unsupportedType ty)
  | .ok _ resolver => do
    let statics ← declareStatics resolver .empty m.globals
    let defined := m.functions.filter fun f => !f.isDeclaration
    let methods ← declareMethods o resolver 0 defined.length .empty defined
    let d : Declared := { source := m, options := o, resolver, statics, methods }
    return { d with methods := (methods.zip d.throwing).map fun (e, mayThrow) =>
               { e with mayThrow } }

/-! ## Calls -/

/-- How a call reaches its callee. -/
inductive CallTarget where
  | method (e : MethodEntry)
  | route (r : Route)
  /-- Through a method pointer. -/
  | indirect

def CallTarget.mayThrow : CallTarget → Bool
  | method e => e.mayThrow
  | route r => r.mayThrow
  | indirect => true

def Declared.callTarget (d : Declared) (location : Location) : Ref → Except Error CallTarget
  | .function name =>
    match d.method? name, Route.ofSymbol? name with
    | some e, _ => .ok (.method e)
    | none, some r => .ok (.route r)
    | none, none => .error (.unresolvedSymbol location name)
  | _ => .ok .indirect

/-- Builds the graph of a method's function. -/
def Declared.graph (d : Declared) (e : MethodEntry) : Except Error Flow.Graph :=
  let s : Flow.Setting := ⟨d.resolver, d.options.maxConstantNodes, { function := e.name }⟩
  match Flow.Graph.make d.source s e.function with
  | .ok g => .ok g
  | .error f => .error (.structural f)

end Stackify.Lower
