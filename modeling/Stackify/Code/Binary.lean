import Stackify.Code.Validity
import Stackify.Number.Octets

/-!
The binary form of programs. A file starts with a four-letter mark and a version number; the payload
repeats the version and holds the program. Numbers are little-endian and of fixed width, lists and
texts have their length in front, and each alternative of a choice is a number.

Encoding followed by decoding gives the program back if it is valid, and decoding accepts no second
form of a program apart from octets behind its end.
-/

namespace Stackify.Code.Binary

abbrev Octets := List UInt8

/-- Reads a value off the front and gives back what follows it. -/
abbrev Decoder (α : Type) := Octets → Option (α × Octets)

/-! ## Numbers -/

def decodeNat : Nat → Decoder Nat
  | 0, bs => some (0, bs)
  | _ + 1, [] => none
  | n + 1, b :: bs => (decodeNat n bs).map fun (v, rest) => (b.toNat + 256 * v, rest)

def encode32 (v : Nat) : Octets := Number.octets 4 v

def decode32 : Decoder Nat := decodeNat 4

def encode64 (v : Nat) : Octets := Number.octets 8 v

def decode64 : Decoder Nat := decodeNat 8

/-- Signed integers of 128 bits, in two's complement. -/
def encodeInt (v : Int) : Octets := Number.octets 16 (v % Number.pow2 128).toNat

def decodeInt : Decoder Int := fun bs =>
  (decodeNat 16 bs).map fun (v, rest) => ((v : Int).bmod (Number.pow2 128), rest)

def encodeFloat (x : Float) : Octets := encode64 x.toBits.toNat

def decodeFloat : Decoder Float := fun bs =>
  (decode64 bs).map fun (v, rest) => (Float.ofBits (UInt64.ofNat v), rest)

/-! ## Small choices -/

def encodeBool (b : Bool) : Octets := [if b then 1 else 0]

def decodeBool : Decoder Bool
  | 0 :: rest => some (false, rest)
  | 1 :: rest => some (true, rest)
  | _ => none

def encodeOption {α : Type} (encode : α → Octets) : Option α → Octets
  | none => [0]
  | some a => 1 :: encode a

def decodeOption {α : Type} (decode : Decoder α) : Decoder (Option α)
  | 0 :: rest => some (none, rest)
  | 1 :: rest => (decode rest).map fun (a, rest) => (some a, rest)
  | _ => none

/-- One of a list of alternatives, by its place in the list. -/
def encodeTag {α : Type} [DecidableEq α] (all : List α) (a : α) : Octets := encode32 (all.idxOf a)

def decodeTag {α : Type} (all : List α) : Decoder α := fun bs =>
  match decode32 bs with
  | some (i, rest) => (all[i]?).map fun a => (a, rest)
  | none => none

/-! ## Lists and texts -/

def encodeList {α : Type} (encode : α → Octets) (l : List α) : Octets :=
  encode64 l.length ++ l.flatMap encode

def decodeItems {α : Type} (decode : Decoder α) : Nat → Decoder (List α)
  | 0, bs => some ([], bs)
  | n + 1, bs =>
    match decode bs with
    | some (a, rest) => (decodeItems decode n rest).map fun (l, rest) => (a :: l, rest)
    | none => none

def decodeList {α : Type} (decode : Decoder α) : Decoder (List α) := fun bs =>
  match decode64 bs with
  | some (n, rest) => decodeItems decode n rest
  | none => none

def encodeOctet (b : UInt8) : Octets := [b]

def decodeOctet : Decoder UInt8
  | b :: rest => some (b, rest)
  | [] => none

def encodeText (s : String) : Octets :=
  encodeList encodeOctet s.toUTF8.data.toList

def decodeText : Decoder String := fun bs =>
  match decodeList decodeOctet bs with
  | some (octets, rest) => (String.fromUTF8? ⟨octets.toArray⟩).map fun s => (s, rest)
  | none => none

/-! ## Types -/

def encodeTy : Ty → Octets
  | .void => encode32 0
  | .bool => encode32 1
  | .int w => encode32 2 ++ encodeTag Width.all w
  | .float .half => encode32 3
  | .float .single => encode32 4
  | .float .double => encode32 5
  | .pointer t => encode32 6 ++ encodeTy t
  | .array e n => encode32 7 ++ encodeTy e ++ encode64 n
  | .record id => encode32 8 ++ encode32 id
  | .varArgs => encode32 9

/-- Reads a type in which at most `depth` types are nested. -/
def decodeTyWithin : Nat → Decoder Ty
  | 0, _ => none
  | depth + 1, bs =>
    match decode32 bs with
    | some (0, rest) => some (.void, rest)
    | some (1, rest) => some (.bool, rest)
    | some (2, rest) => (decodeTag Width.all rest).map fun (w, rest) => (.int w, rest)
    | some (3, rest) => some (.float .half, rest)
    | some (4, rest) => some (.float .single, rest)
    | some (5, rest) => some (.float .double, rest)
    | some (6, rest) => (decodeTyWithin depth rest).map fun (t, rest) => (.pointer t, rest)
    | some (7, rest) =>
      match decodeTyWithin depth rest with
      | some (e, rest) => (decode64 rest).map fun (n, rest) => (.array e n, rest)
      | none => none
    | some (8, rest) => (decode32 rest).map fun (id, rest) => (.record id, rest)
    | some (9, rest) => some (.varArgs, rest)
    | _ => none

def decodeTy : Decoder Ty := fun bs => decodeTyWithin bs.length bs

def encodeKind : NumKind → Octets
  | .bool => encode32 0
  | .int w => encode32 1 ++ encodeTag Width.all w
  | .float k => encode32 2 ++ encodeTag FloatKind.all k
  | .pointer => encode32 3

def decodeKind : Decoder NumKind := fun bs =>
  match decode32 bs with
  | some (0, rest) => some (.bool, rest)
  | some (1, rest) => (decodeTag Width.all rest).map fun (w, rest) => (.int w, rest)
  | some (2, rest) => (decodeTag FloatKind.all rest).map fun (k, rest) => (.float k, rest)
  | some (3, rest) => some (.pointer, rest)
  | _ => none

def encodeConst : Const → Octets
  | .bool b => encode32 0 ++ encodeBool b
  | .int w n => encode32 1 ++ encodeTag Width.all w ++ encodeInt n
  | .float k x => encode32 2 ++ encodeTag FloatKind.all k ++ encodeFloat x
  | .null => encode32 3
  | .default t => encode32 4 ++ encodeTy t

def decodeConst : Decoder Const := fun bs => do
  let (tag, rest) ← decode32 bs
  match tag with
  | 0 =>
    let (b, rest) ← decodeBool rest
    return (.bool b, rest)
  | 1 =>
    let (w, rest) ← decodeTag Width.all rest
    let (n, rest) ← decodeInt rest
    return (.int w n, rest)
  | 2 =>
    let (k, rest) ← decodeTag FloatKind.all rest
    let (x, rest) ← decodeFloat rest
    return (.float k x, rest)
  | 3 => return (.null, rest)
  | 4 =>
    let (t, rest) ← decodeTy rest
    return (.default t, rest)
  | _ => none

/-! ## Operations -/

def encodeCase (c : Int × Label) : Octets := encodeInt c.1 ++ encode32 c.2

def decodeCase : Decoder (Int × Label) := fun bs => do
  let (n, rest) ← decodeInt bs
  let (l, rest) ← decode32 rest
  return ((n, l), rest)

def encodeOp : Op → Octets
  | .label l => encode32 0 ++ encode32 l
  | .nop => encode32 1
  | .loadConst i => encode32 2 ++ encode32 i
  | .loadArg i => encode32 3 ++ encode32 i
  | .loadLocal i => encode32 4 ++ encode32 i
  | .storeLocal i => encode32 5 ++ encode32 i
  | .loadLocalAddress i => encode32 6 ++ encode32 i
  | .initLocal i => encode32 7 ++ encode32 i
  | .loadStaticAddress i => encode32 8 ++ encode32 i
  | .loadMethodPointer i => encode32 9 ++ encode32 i
  | .loadIndirect t => encode32 10 ++ encodeTy t
  | .storeIndirect t => encode32 11 ++ encodeTy t
  | .fieldAddress r f => encode32 12 ++ encode32 r ++ encode32 f
  | .elementAddress t => encode32 13 ++ encodeTy t
  | .binary op k => encode32 14 ++ encodeTag BinaryOp.all op ++ encodeKind k
  | .unary op k => encode32 15 ++ encodeTag UnaryOp.all op ++ encodeKind k
  | .compare op k => encode32 16 ++ encodeTag CompareOp.all op ++ encodeKind k
  | .convert s t signed => encode32 17 ++ encodeKind s ++ encodeKind t ++ encodeBool signed
  | .call m n => encode32 18 ++ encode32 m ++ encode32 n
  | .callIndirect n returns => encode32 19 ++ encode32 n ++ encodeBool returns
  | .callService s n => encode32 20 ++ encodeTag Service.all s ++ encode32 n
  | .packVarArgs n => encode32 21 ++ encode32 n
  | .nextVarArg t => encode32 22 ++ encodeTy t
  | .dup => encode32 23
  | .pop => encode32 24
  | .branch l => encode32 25 ++ encode32 l
  | .branchTrue l => encode32 26 ++ encode32 l
  | .branchFalse l => encode32 27 ++ encode32 l
  | .switchValue cases d => encode32 28 ++ encodeList encodeCase cases ++ encode32 d
  | .leave l => encode32 29 ++ encode32 l
  | .ret => encode32 30
  | .throw => encode32 31
  | .unreachable => encode32 32

/-- Reads the one operand of an operation. -/
def decodeWith {α : Type} (decode : Decoder α) (make : α → Op) : Decoder Op := fun bs =>
  (decode bs).map fun (a, rest) => (make a, rest)

/-- Reads the two operands of an operation. -/
def decodeWith2 {α β : Type} (first : Decoder α) (second : Decoder β) (make : α → β → Op) :
    Decoder Op := fun bs =>
  match first bs with
  | some (a, rest) => (second rest).map fun (b, rest) => (make a b, rest)
  | none => none

def decodeConvert : Decoder Op := fun bs => do
  let (s, rest) ← decodeKind bs
  let (t, rest) ← decodeKind rest
  let (signed, rest) ← decodeBool rest
  return (.convert s t signed, rest)

/-- Reads what follows the number of an operation. -/
def decodeOperands : Nat → Decoder Op
  | 0 => decodeWith decode32 .label
  | 1 => fun rest => some (.nop, rest)
  | 2 => decodeWith decode32 .loadConst
  | 3 => decodeWith decode32 .loadArg
  | 4 => decodeWith decode32 .loadLocal
  | 5 => decodeWith decode32 .storeLocal
  | 6 => decodeWith decode32 .loadLocalAddress
  | 7 => decodeWith decode32 .initLocal
  | 8 => decodeWith decode32 .loadStaticAddress
  | 9 => decodeWith decode32 .loadMethodPointer
  | 10 => decodeWith decodeTy .loadIndirect
  | 11 => decodeWith decodeTy .storeIndirect
  | 12 => decodeWith2 decode32 decode32 .fieldAddress
  | 13 => decodeWith decodeTy .elementAddress
  | 14 => decodeWith2 (decodeTag BinaryOp.all) decodeKind .binary
  | 15 => decodeWith2 (decodeTag UnaryOp.all) decodeKind .unary
  | 16 => decodeWith2 (decodeTag CompareOp.all) decodeKind .compare
  | 17 => decodeConvert
  | 18 => decodeWith2 decode32 decode32 .call
  | 19 => decodeWith2 decode32 decodeBool .callIndirect
  | 20 => decodeWith2 (decodeTag Service.all) decode32 .callService
  | 21 => decodeWith decode32 .packVarArgs
  | 22 => decodeWith decodeTy .nextVarArg
  | 23 => fun rest => some (.dup, rest)
  | 24 => fun rest => some (.pop, rest)
  | 25 => decodeWith decode32 .branch
  | 26 => decodeWith decode32 .branchTrue
  | 27 => decodeWith decode32 .branchFalse
  | 28 => decodeWith2 (decodeList decodeCase) decode32 .switchValue
  | 29 => decodeWith decode32 .leave
  | 30 => fun rest => some (.ret, rest)
  | 31 => fun rest => some (.throw, rest)
  | 32 => fun rest => some (.unreachable, rest)
  | _ => fun _ => none

def decodeOp : Decoder Op := fun bs =>
  match decode32 bs with
  | some (tag, rest) => decodeOperands tag rest
  | none => none

/-! ## Definitions -/

def encodeField (f : Field) : Octets := encodeText f.name ++ encodeTy f.ty

def decodeField : Decoder Field := fun bs => do
  let (name, rest) ← decodeText bs
  let (ty, rest) ← decodeTy rest
  return (⟨name, ty⟩, rest)

def encodeRecord (r : Record) : Octets :=
  encodeText r.name ++ encodeText r.symbol ++ encodeList encodeField r.fields ++ encodeBool r.packed

def decodeRecord : Decoder Record := fun bs => do
  let (name, rest) ← decodeText bs
  let (symbol, rest) ← decodeText rest
  let (fields, rest) ← decodeList decodeField rest
  let (packed, rest) ← decodeBool rest
  return (⟨name, symbol, fields, packed⟩, rest)

def encodeStatic (s : Static) : Octets :=
  encodeText s.name ++ encodeTy s.ty ++ encodeOption (encodeList encodeOctet) s.init

def decodeStatic : Decoder Static := fun bs => do
  let (name, rest) ← decodeText bs
  let (ty, rest) ← decodeTy rest
  let (init, rest) ← decodeOption (decodeList decodeOctet) rest
  return (⟨name, ty, init⟩, rest)

def encodeMethodType (t : MethodType) : Octets :=
  encodeList encodeTy t.params ++ encodeTy t.ret ++ encodeBool t.variadic

def decodeMethodType : Decoder MethodType := fun bs => do
  let (params, rest) ← decodeList decodeTy bs
  let (ret, rest) ← decodeTy rest
  let (variadic, rest) ← decodeBool rest
  return (⟨params, ret, variadic⟩, rest)

/-- The number at the end is that of the only kind of handler. -/
def encodeRegion (r : Region) : Octets :=
  encode32 r.tryStart ++ encode32 r.tryEnd ++ encode32 r.handlerStart ++
    encode32 r.handlerEnd ++ encode32 0

def decodeRegion : Decoder Region := fun bs => do
  let (tryStart, rest) ← decode32 bs
  let (tryEnd, rest) ← decode32 rest
  let (handlerStart, rest) ← decode32 rest
  let (handlerEnd, rest) ← decode32 rest
  let (kind, rest) ← decode32 rest
  if kind = 0 then some (⟨tryStart, tryEnd, handlerStart, handlerEnd⟩, rest) else none

def encodeBody (b : Body) : Octets :=
  encodeList encodeTy b.locals ++ encodeList encodeOp b.ops ++ encodeList encodeRegion b.regions
    ++ encode32 b.labelCount

def decodeBody : Decoder Body := fun bs => do
  let (locals, rest) ← decodeList decodeTy bs
  let (ops, rest) ← decodeList decodeOp rest
  let (regions, rest) ← decodeList decodeRegion rest
  let (labelCount, rest) ← decode32 rest
  return (⟨locals, ops, regions, labelCount⟩, rest)

def visibilities : List Visibility := [.exported, .internal]

def encodeMethod (m : Method) : Octets :=
  encodeText m.name ++ encodeText m.symbol ++ encodeTag visibilities m.visibility ++
    encodeMethodType m.type ++ encodeList encodeText m.paramNames ++ encodeBody m.body

def decodeMethod : Decoder Method := fun bs => do
  let (name, rest) ← decodeText bs
  let (symbol, rest) ← decodeText rest
  let (visibility, rest) ← decodeTag visibilities rest
  let (type, rest) ← decodeMethodType rest
  let (paramNames, rest) ← decodeList decodeText rest
  let (body, rest) ← decodeBody rest
  return (⟨name, symbol, visibility, type, paramNames, body⟩, rest)

def encodeProgram (p : Program) : Octets :=
  encodeText p.name ++ encodeList encodeConst p.consts ++ encodeList encodeRecord p.records
    ++ encodeList encodeStatic p.statics ++ encodeList encodeMethod p.methods

def decodeProgram : Decoder Program := fun bs => do
  let (name, rest) ← decodeText bs
  let (consts, rest) ← decodeList decodeConst rest
  let (records, rest) ← decodeList decodeRecord rest
  let (statics, rest) ← decodeList decodeStatic rest
  let (methods, rest) ← decodeList decodeMethod rest
  return (⟨name, consts, records, statics, methods⟩, rest)

/-! ## Files -/

def mark : Octets := [0x49, 0x42, 0x42, 0x43]

def version : Nat := 1

/-- Why octets are not accepted as a program. -/
inductive Rejection where
  | headerTooShort
  | wrongMark
  | unsupportedVersion (found : Nat)
  | malformed
  | payloadVersion (found : Nat)
  | invalid (method : String) (defect : Defect)

/-- The wording of a rejection; a malformed payload has none. -/
def Rejection.message? : Rejection → Option String
  | headerTooShort => some "bytecode format error: bytecode header too short"
  | wrongMark => some "bytecode format error: invalid bytecode magic"
  | unsupportedVersion v =>
    some ("bytecode format error: unsupported bytecode version " ++ toString v ++ ", expected " ++
      toString version)
  | malformed => none
  | payloadVersion v => some ("bytecode format error: bytecode payload version " ++ toString v
      ++ " does not match expected " ++ toString version)
  | invalid m d => some ("invalid method " ++ m ++ ": " ++ d.message)

/-- The file of a program. -/
def encode (p : Program) : Octets :=
  mark ++ encode32 version ++ encode32 version ++ encodeProgram p

/-- The program in a file: octets behind its end are ignored, and it has to be valid. -/
def decode (bs : Octets) : Except Rejection Program :=
  if bs.length < 8 then .error .headerTooShort
  else if bs.take 4 ≠ mark then .error .wrongMark
  else
    match decode32 (bs.drop 4) with
    | none => .error .headerTooShort
    | some (found, payload) =>
      if found ≠ version then .error (.unsupportedVersion found)
      else
        match decode32 payload with
        | none => .error .malformed
        | some (inner, rest) =>
          match decodeProgram rest with
          | none => .error .malformed
          | some (p, _) =>
            if inner ≠ version then .error (.payloadVersion inner)
            else
              match p.defect? with
              | some (m, d) => .error (.invalid m d)
              | none => .ok p

end Stackify.Code.Binary
