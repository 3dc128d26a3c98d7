import Stackify.Lower.Node

/-!
Lowering of whole modules. Either every function is lowered and the program is valid, or there is no
program.
-/

namespace Stackify.Lower

open Code (Method Program Body Const)
open Stackify.Flow (Graph)
open Ssa (Module Function)

/-! ## Bodies -/

/-- The outcome of lowering a graph. Constants that were used before a failure stay in the pool. -/
structure Lowered where
  slots : List Slot
  consts : List Const
  result : Except Error Body

/-- Lowers a graph with the given pool of constants. -/
def lowerGraph (d : Declared) (consts : List Const) (g : Graph) : Lowered :=
  match assignSlots d g with
  | .error f => ⟨g.nodes.map fun _ => .nowhere, consts, .error (.structural f)⟩
  | .ok (slots, locals) =>
    let start : Emission := { body := { locals, labelCount := g.blocks.length }, consts }
    match (Context.lowerBlocks ⟨d, g, slots⟩).run start with
    | .error e s => ⟨slots, s.consts, .error e⟩
    | .ok _ s =>
      match s.body.finish with
      | .ok body => ⟨slots, s.consts, .ok body⟩
      | .error f => ⟨slots, s.consts, .error (.labels f)⟩

/-! ## Methods -/

/-- Names for parameters from the given number on. -/
def paramNamesFrom (returnsByPointer : Bool) :
    Nat → Name.Scope → List Ssa.Param → List String × Name.Scope
  | _, scope, [] => ([], scope)
  | i, scope, p :: rest =>
    let fallback := "arg" ++ toString i
    let base := if i = 0 && returnsByPointer then "result"
      else p.name.elim fallback (Name.clean · fallback)
    let (name, scope) := scope.reserve base
    let (names, scope) := paramNamesFrom returnsByPointer (i + 1) scope rest
    (name :: names, scope)

def paramNames (f : Function) : List String :=
  let (names, scope) := paramNamesFrom f.structReturn?.isSome 0 .empty f.params
  if f.type.variadic then names ++ [(scope.reserve "varargs").1] else names

/-- The method of a declared function, and the pool of constants behind it. -/
def lowerMethod (d : Declared) (consts : List Const) (e : MethodEntry) :
    Except Error (Method × List Const) := do
  let lowered := lowerGraph d consts (← d.graph e)
  let body ← lowered.result
  return ({ name := e.name, symbol := e.function.name, type := e.type, body,
            visibility := if e.wrapper.isSome then .internal else .exported,
            paramNames := paramNames e.function }, lowered.consts)

def lowerMethods (d : Declared) :
    List Const → List MethodEntry → Except Error (List Method × List Const)
  | consts, [] => .ok ([], consts)
  | consts, e :: rest => do
    let (m, consts) ← lowerMethod d consts e
    let (ms, consts) ← lowerMethods d consts rest
    return (m :: ms, consts)

/-- A method that passes the address of a fresh object as the place for the result, and returns the
object. -/
def wrapperMethod (d : Declared) (e : MethodEntry) : Except Error Method := do
  match e.function.structReturn?.bind d.resolver.lookup? with
  | none => throw (.unsupportedType e.function.type.toTy)
  | some ret =>
    let type : Code.MethodType := ⟨e.type.params.drop 1, ret, e.type.variadic⟩
    let args := (List.range type.argSlots).map Code.Op.loadArg
    let ops := [.initLocal 0, .loadLocalAddress 0] ++ args ++ [.call e.index e.type.argSlots,
        .loadLocal 0, .ret]
    let body : Body := { locals := [ret], ops }
    return { name := e.name, symbol := e.function.name, visibility := .exported, type, body,
             paramNames := (paramNames e.function).drop 1 }

/-! ## Programs -/

/-- Lowers all methods of a declared module. -/
def lowerDeclared (d : Declared) : Except Error Program := do
  let (methods, consts) ← lowerMethods d [] d.methods
  let wrappers ← (d.methods.filter (·.wrapper.isSome)).mapM (wrapperMethod d)
  let p : Program :=
    { name := d.options.moduleName, consts, records := d.resolver.records, statics := d.statics,
                       methods := methods ++ wrappers }
  match p.defect? with
  | some (m, f) => throw (.invalid m f)
  | none => return p

/-- Lowers a module to a program of the stack machine. -/
def lower (m : Module) (o : Options) : Except Error Program :=
  match o.problem? with
  | some p => .error (.config p)
  | none => do lowerDeclared (← declare m o)

end Stackify.Lower
