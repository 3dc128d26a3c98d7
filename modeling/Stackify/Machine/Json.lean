import Stackify.Code.Json
import Stackify.Json.Reader
import Stackify.Machine.Fault
import Stackify.Number.Octets

/-!
JSON form of values. Integers are decimal text and floating-point numbers are their bit patterns, so
that no reader rounds them.
-/

namespace Stackify.Machine

open Code (Width FloatKind choice)

/-! ## Writing -/

def PathStep.toJson : PathStep → Json
  | field i => choice "field" (.nat i)
  | element i => choice "element" (.int i)

def Region.toJson : Region → Json
  | static i => choice "static" (.nat i)
  | heap i => choice "heap" (.nat i)

def Pointer.toJson : Pointer → Json
  | ofLocal f i path => choice "local" (.record
      [("frame", .nat f), ("local", .nat i), ("path", .list PathStep.toJson path)])
  | ofMemory r o => choice "address" (.record [("region", r.toJson), ("offset", .nat o)])

/-- The member name of an integer. -/
def widthKey : Width → String
  | .w8 => "i8"
  | .w16 => "i16"
  | .w32 => "i32"
  | .w64 => "i64"
  | .w128 => "i128"

/-- The member name of a floating-point number. -/
def kindKey : FloatKind → String
  | .half => "half"
  | .single => "f32"
  | .double => "f64"

mutual

def Value.toJson : Value → Json
  | .bool b => choice "bool" (.bool b)
  | .int w n => choice (widthKey w) (Code.wideToJson n)
  | .float k x => choice (kindKey k) (Code.floatToJson x)
  | .null => .text "null"
  | .pointer p => p.toJson
  | .method i => choice "method" (.nat i)
  | .record vs => choice "record" (.array (toJsonAll vs))
  | .array vs => choice "array" (.array (toJsonAll vs))
  | .varArgs vs c => .record [("varargs", .array (toJsonAll vs)), ("cursor", .nat c)]
  | .exception s => choice "exception" (.text s)

def Value.toJsonAll : List Value → List Json
  | [] => []
  | v :: vs => v.toJson :: toJsonAll vs

end

/-! ## Reading -/

/-- An integer of 128 bits in decimal text. -/
def decimal? (j : Json) : Option Int := do (← Json.parse? (← j.text?)).wideInt?

/-- A floating-point number from its bit pattern. -/
def float? (j : Json) : Option Float := do
  let s ← j.text?
  if s = "nan" then return 0.0 / 0.0
  match s.toList with
  | '0' :: 'x' :: digits =>
    let octets ← Text.octetsOfHex? digits
    return Float.ofBits (.ofNat (Number.ofOctets octets.reverse))
  | _ => none

def PathStep.ofJson? (j : Json) : Option PathStep :=
  match j with
  | .object [(some "field", i)] => (i.nat? 32).map .field
  | .object [(some "element", i)] => (i.signed? 64).map .element
  | _ => none

def Region.ofJson? (j : Json) : Option Region :=
  match j with
  | .object [(some "static", i)] => (i.nat? 32).map .static
  | .object [(some "heap", i)] => (i.nat? 32).map .heap
  | _ => none

def Value.ofJson? (depth : Nat) (j : Json) : Option Value :=
  match depth, j with
  | _, .string (some "null") => some .null
  | depth + 1, .object [(some key, c)] =>
    match Width.all.find? (widthKey · = key), FloatKind.all.find? (kindKey · = key) with
    | some w, _ => (decimal? c).map (.ofInt w)
    | _, some k => (float? c).map (.float k)
    | _, _ =>
      match key with
      | "bool" => c.bool?.map .bool
      | "method" => (c.nat? 32).map .method
      | "exception" => c.text?.map .exception
      | "record" => (c.array?.bind (·.mapM (Value.ofJson? depth))).map .record
      | "array" => (c.array?.bind (·.mapM (Value.ofJson? depth))).map .array
      | "varargs" => (c.array?.bind (·.mapM (Value.ofJson? depth))).map (.varArgs · 0)
      | "local" => do
        let path ← (← (← c.get? "path").array?).mapM PathStep.ofJson?
        return .pointer (.ofLocal (← (← c.get? "frame").nat? 64)
          (← (← c.get? "local").nat? 32) path)
      | "address" => do
        return .pointer (.ofMemory (← Region.ofJson? (← c.get? "region"))
          (← (← c.get? "offset").nat? 64))
      | _ => none
  | depth + 1, j => do
    return .varArgs (← (← (← j.get? "varargs").array?).mapM (Value.ofJson? depth))
      (← (← j.get? "cursor").nat? 64)
  | _, _ => none

end Stackify.Machine
