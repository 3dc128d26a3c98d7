import Stackify.Resolve.Registry
import Stackify.Ssa.Text

/-!
Resolution of source types to types of the stack machine. Results are remembered; aggregates are
registered on the way. Only integers of more than 128 bits have no counterpart.

Types nest in each other by structure, and named aggregates through the module. Nested registrations
have different names that the module defines, so its number of aggregates bounds how deep they go.
-/

namespace Stackify.Resolve

open Ssa (Module FunctionType)
open Code (MethodType RecordId)

structure Resolver where
  cache : List (Ssa.Ty × Code.Ty) := []
  registry : Registry := {}

namespace Resolver

def lookup? (r : Resolver) (t : Ssa.Ty) : Option Code.Ty := r.cache.lookup t

def remember (r : Resolver) (t : Ssa.Ty) (s : Code.Ty) : Resolver :=
  { r with cache := (t, s) :: r.cache.filter fun e => e.1 ≠ t }

/-- The type of a function whose types are all resolved. -/
def lookupSignature? (r : Resolver) (t : FunctionType) : Option MethodType := do
  return ⟨← t.params.mapM r.lookup?, ← r.lookup? t.ret, t.variadic⟩

/-- The registered aggregate of a resolved type. -/
def aggregate? (r : Resolver) (t : Ssa.Ty) : Option Aggregate :=
  match r.lookup? t with
  | some (.record id) => r.registry.entry? id
  | _ => none

def records (r : Resolver) : List Code.Record := r.registry.records

end Resolver

/-- A computation that resolves types. It fails with a type that has no counterpart, and keeps what
was resolved before. -/
abbrev Resolving := EStateM Ssa.Ty Resolver

/-- Remembers the result of a computation for a type. -/
def memoized (t : Ssa.Ty) (compute : Resolving Code.Ty) : Resolving Code.Ty := do
  match (← get).lookup? t with
  | some s => return s
  | none =>
    let s ← compute
    modify fun r => r.remember t s
    return s

def register (symbol : String) (base : Option String) (fields : List Ssa.Ty) (packed : Bool) :
    Resolving RecordId :=
  modifyGet fun r =>
    let (id, registry) := r.registry.register symbol base fields packed
    (id, { r with registry })

/-- The record of an aggregate that is registered, or the result of registering it. -/
def recordOf (symbol : String) (registered : Resolving RecordId) : Resolving Code.Ty := do
  match (← get).registry.find? symbol with
  | some a => return .record a.record
  | none => return .record (← registered)

mutual

/-- Resolves a type, given how to resolve a named aggregate. -/
def resolveWith (ofStruct : String → Resolving Code.Ty) : Ssa.Ty → Resolving Code.Ty
  | .void => memoized .void (return .void)
  | .label => memoized .label (return .void)
  | .token => memoized .token (return .void)
  | .metadata => memoized .metadata (return .void)
  | .int bits => memoized (.int bits) do
    if bits = 1 then return .bool
    match Code.Width.ofBits? bits with
    | some w => return .int w
    | none => throw (.int bits)
  | .half => memoized .half (return .float .half)
  | .float => memoized .float (return .float .single)
  | .double => memoized .double (return .float .double)
  | .pointer => memoized .pointer (return .opaquePointer)
  | .function ret params variadic =>
    memoized (.function ret params variadic) (return .opaquePointer)
  | .array e n => memoized (.array e n) do return .array (← resolveWith ofStruct e) n
  | .vector e n => memoized (.vector e n) do return .array (← resolveWith ofStruct e) n
  | .struct name => memoized (.struct name) (ofStruct name)
  | .literal fields packed =>
    let symbol := (Ssa.Ty.literal fields packed).text
    memoized (.literal fields packed) (recordOf symbol do
      let id ← register symbol (some "Struct") fields packed
      resolveFields ofStruct id fields
      return id)

/-- Resolves fields and records their types with an aggregate. -/
def resolveFields (ofStruct : String → Resolving Code.Ty) (id : RecordId) :
    List Ssa.Ty → Resolving Unit
  | [] => return
  | t :: ts => do
    let s ← resolveWith ofStruct t
    modify fun r => { r with registry := r.registry.addFieldType id s }
    resolveFields ofStruct id ts

end

/-- Resolves a named aggregate, in which at most `depth` more are nested. A name without a
definition stands for an aggregate without fields. -/
def resolveStruct (m : Module) : Nat → String → Resolving Code.Ty
  | depth, name => recordOf name do
    let (fields, packed) := match m.struct? name with
      | some s => (s.fields, s.packed)
      | none => ([], false)
    let id ← register name none fields packed
    match depth with
    | 0 => return id
    | depth + 1 =>
      resolveFields (resolveStruct m depth) id fields
      return id

def resolve (m : Module) (t : Ssa.Ty) : Resolving Code.Ty :=
  resolveWith (resolveStruct m (m.structs.length + 1)) t

def resolveSignature (m : Module) (t : FunctionType) : Resolving MethodType := do
  let params ← t.params.mapM (resolve m)
  let ret ← resolve m t.ret
  return ⟨params, ret, t.variadic⟩

end Stackify.Resolve
