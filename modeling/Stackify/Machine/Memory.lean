import Stackify.Machine.Fault
import Stackify.Number.Octets

/-!
Byte memory: one block for each static and one for each allocation. Numbers are stored lowest octet
first. What has no octets (pointers, methods, variadic lists) is kept beside the octets under the
offset it was stored at; the octets there are zero, and a later write over that offset forgets it.
-/

namespace Stackify.Machine

open Code (Ty RecordId Record Static)

/-! ## Blocks -/

structure Block where
  octets : List UInt8
  /-- References by offset; an offset occurs once. -/
  references : List (Nat × Value) := []

/-- A changed block, and the fault that ended the change; what was written before the fault
stays. -/
abbrev Stored := Block × Option Fault

namespace Block

def zeroed (size : Nat) : Block := { octets := List.replicate size 0 }

def size (b : Block) : Nat := b.octets.length

def read (b : Block) (offset size : Nat) : Except Fault (List UInt8) :=
  if offset + size ≤ b.size then .ok ((b.octets.drop offset).take size)
  else .error (.outsideBlock size offset b.size)

/-- Overwrites octets and forgets the references that started among them. -/
def write (b : Block) (offset : Nat) (data : List UInt8) : Except Fault Block :=
  if offset + data.length ≤ b.size then
    .ok { octets := b.octets.take offset ++ data ++ b.octets.drop (offset + data.length)
          references := b.references.filter fun r => r.1 < offset || offset + data.length ≤ r.1 }
  else .error (.outsideBlock data.length offset b.size)

def fill (b : Block) (offset : Nat) (octet : UInt8) (size : Nat) : Except Fault Block :=
  if offset + size ≤ b.size then b.write offset (List.replicate size octet)
  else .error (.outsideBlock size offset b.size)

def reference? (b : Block) (offset : Nat) : Option Value := b.references.lookup offset

def setReference (b : Block) (offset : Nat) (v : Value) : Block :=
  { b with references := (offset, v) :: b.references.filter (·.1 ≠ offset) }

/-- Stores a value without octets; null is the absence of a reference. -/
def writeReference (b : Block) (offset : Nat) (v : Value) : Except Fault Block :=
  match b.write offset (List.replicate 8 0), v with
  | .ok b, .null => .ok b
  | .ok b, v => .ok (b.setReference offset v)
  | .error f, _ => .error f

/-- A part of a block as a block of its own. -/
def slice (b : Block) (offset size : Nat) : Except Fault Block :=
  (b.read offset size).map fun octets =>
    { octets
      references := (b.references.filter fun r => offset ≤ r.1 && r.1 < offset + size).map
        fun r => (r.1 - offset, r.2) }

/-- Overwrites a part of a block with another block, first the octets and then the references. -/
def paste (b : Block) (offset : Nat) (part : Block) : Stored :=
  match b.write offset part.octets with
  | .ok b => (part.references.foldl (fun b r => b.setReference (offset + r.1) r.2) b, none)
  | .error f => (b, some f)

/-- Cuts off the end or adds zeros; references that start behind the new end are forgotten. -/
def resize (b : Block) (size : Nat) : Block :=
  { octets := b.octets.take size ++ List.replicate (size - b.size) 0
    references := b.references.filter (·.1 < size) }

end Block

/-! ## Typed access to a block -/

/-- Reads the elements of an array, given how to read one at an offset. -/
def loadItems (load : Nat → Except Fault Value) (stride : Nat) :
    Nat → Nat → Except Fault (List Value)
  | 0, _ => .ok []
  | n + 1, offset => do
    let v ← load offset
    let vs ← loadItems load stride n (offset + stride)
    return v :: vs

/-- Reads an object, given how to read a record. -/
def loadWith (records : List Record) (block : Block)
    (loadRecord : RecordId → Nat → Except Fault Value) : Ty → Nat → Except Fault Value
  | .bool, offset => (block.read offset 1).map fun bs => .bool (Number.ofOctets bs ≠ 0)
  | .int w, offset => (block.read offset w.bytes).map fun bs => .ofInt w (Number.ofOctets bs)
  | .float .single, offset =>
    (block.read offset 4).map fun bs => .float .single (Number.ofSingleBits (Number.ofOctets bs))
  | .float .double, offset =>
    (block.read offset 8).map fun bs => .float .double (.ofBits (.ofNat (Number.ofOctets bs)))
  | .pointer _, offset => (block.read offset 8).map fun _ => (block.reference? offset).getD .null
  | .varArgs, offset => (block.read offset 8).map fun _ => (block.reference? offset).getD .null
  | .array e n, offset =>
    (loadItems (loadWith records block loadRecord e) (e.sizeIn records) n offset).map .array
  | .record id, offset => loadRecord id offset
  | .float .half, _ => .error (.loadOf (.float .half))
  | .void, _ => .error (.loadOf .void)

/-- Reads a record in which at most `depth` records are nested, itself included. -/
def loadRecord (records : List Record) (block : Block) : Nat → RecordId → Nat → Except Fault Value
  | 0, id, _ => .error (.unknownRecord id)
  | depth + 1, id, offset =>
    match records[id]? with
    | none => .error (.unknownRecord id)
    | some r =>
      ((r.fields.zip (r.layout records).offsets).mapM fun f =>
        loadWith records block (loadRecord records block depth) f.1.ty (offset + f.2)).map .record

/-- Reads an object of a type. -/
def Block.load (records : List Record) (block : Block) (ty : Ty) (offset : Nat) :
    Except Fault Value :=
  loadWith records block (loadRecord records block records.length) ty offset

def Stored.ofWrite (b : Block) : Except Fault Block → Stored
  | .ok b => (b, none)
  | .error f => (b, some f)

/-- Stores values at increasing offsets until one fails. -/
def storeItems (store : Block → Nat → Value → Stored) (stride : Nat) :
    Block → Nat → List Value → Stored
  | b, _, [] => (b, none)
  | b, offset, v :: vs =>
    match store b offset v with
    | (b, none) => storeItems store stride b (offset + stride) vs
    | (b, some f) => (b, some f)

/-- Stores an object, given how to store a record. -/
def storeWith (records : List Record) (storeRecord : RecordId → Block → Nat → List Value → Stored) :
    Ty → Block → Nat → Value → Stored
  | .bool, b, offset, v => .ofWrite b (b.write offset [if v.truth? = some true then 1 else 0])
  | .int w, b, offset, v =>
    match v.toInt? with
    | some n => .ofWrite b (b.write offset (Number.octets w.bytes (w.unsigned n).toNat))
    | none => (b, some (.storedAsInteger v))
  | .float .single, b, offset, .float _ x =>
    .ofWrite b (b.write offset (Number.octets 4 (Number.toSingleBits x)))
  | .float .double, b, offset, .float k x =>
    .ofWrite b (b.write offset (Number.octets 8 (roundTo k x).toBits.toNat))
  | .pointer _, b, offset, v => .ofWrite b (b.writeReference offset v)
  | .varArgs, b, offset, v => .ofWrite b (b.writeReference offset v)
  | .array e _, b, offset, .array vs =>
    storeItems (storeWith records storeRecord e) (e.sizeIn records) b offset vs
  | .record id, b, offset, .record vs => storeRecord id b offset vs
  | ty, b, _, v => (b, some (.storeOf v ty))

/-- Stores fields at the given offsets until one fails. -/
def storeFields (store : Ty → Block → Nat → Value → Stored) (offset : Nat) :
    Block → List (Ty × Nat × Value) → Stored
  | b, [] => (b, none)
  | b, (ty, start, v) :: rest =>
    match store ty b (offset + start) v with
    | (b, none) => storeFields store offset b rest
    | (b, some f) => (b, some f)

def storeRecord (records : List Record) : Nat → RecordId → Block → Nat → List Value → Stored
  | 0, id, b, _, _ => (b, some (.unknownRecord id))
  | depth + 1, id, b, offset, vs =>
    match records[id]? with
    | none => (b, some (.unknownRecord id))
    | some r =>
      storeFields (storeWith records (storeRecord records depth)) offset b
        ((r.fields.map (·.ty)).zip ((r.layout records).offsets.zip vs))

/-- Stores an object of a type. Pointers and lists take any value; of a record's values, those
without a field are dropped. -/
def Block.store (records : List Record) (block : Block) (ty : Ty) (offset : Nat) (v : Value) :
    Stored :=
  storeWith records (storeRecord records records.length) ty block offset v

/-! ## Memory -/

structure Memory where
  statics : List Block := []
  /-- Allocations in order; a freed one stays behind as `none`. -/
  heap : List (Option Block) := []

namespace Memory

/-- A static begins with its initial octets, cut off or filled up with zeros. -/
def ofStatics (records : List Record) (statics : List Static) : Memory :=
  { statics := statics.map fun s =>
      let size := s.ty.sizeIn records
      let init := (s.init.getD []).take size
      { octets := init ++ List.replicate (size - init.length) 0 } }

def block (m : Memory) (r : Region) : Except Fault Block :=
  let found := match r with
    | .static i => m.statics[i]?
    | .heap i => (m.heap[i]?).join
  match found with
  | some b => .ok b
  | none => .error (.dangling r)

def setBlock (m : Memory) (r : Region) (b : Block) : Memory :=
  match r with
  | .static i => { m with statics := m.statics.set i b }
  | .heap i => { m with heap := m.heap.set i (some b) }

def allocate (m : Memory) (size : Nat) : Region × Memory :=
  (.heap m.heap.length, { m with heap := m.heap ++ [some (.zeroed size)] })

def free (m : Memory) : Region → Except Fault Memory
  | .static i => .error (.freeOfStatic i)
  | .heap i =>
    match (m.heap[i]?).join with
    | some _ => .ok { m with heap := m.heap.set i none }
    | none => .error (.doubleFree i)

def resize (m : Memory) (r : Region) (size : Nat) : Except Fault Memory :=
  (m.block r).map fun b => m.setBlock r (b.resize size)

def load (records : List Record) (m : Memory) (r : Region) (offset : Nat) (ty : Ty) :
    Except Fault Value := do
  (← m.block r).load records ty offset

def store (records : List Record) (m : Memory) (r : Region) (offset : Nat) (ty : Ty) (v : Value) :
    Memory × Option Fault :=
  match m.block r with
  | .error f => (m, some f)
  | .ok b =>
    let (b, fault) := b.store records ty offset v
    (m.setBlock r b, fault)

/-- Copies octets and the references among them; the two ranges may overlap. -/
def copy (m : Memory) (target : Region) (targetOffset : Nat) (source : Region)
    (sourceOffset size : Nat) : Memory × Option Fault :=
  match (m.block source).bind (·.slice sourceOffset size), m.block target with
  | .ok part, .ok b =>
    let (b, fault) := b.paste targetOffset part
    (m.setBlock target b, fault)
  | .error f, _ | .ok _, .error f => (m, some f)

/-- A change that was made as a whole or refused, without the memory that it left behind. -/
instance : Coe (Memory × Option Fault) (Except Fault Memory) where
  coe r := r.2.elim (.ok r.1) .error

def fill (m : Memory) (r : Region) (offset : Nat) (octet : UInt8) (size : Nat) :
    Except Fault Memory := do
  let b ← (← m.block r).fill offset octet size
  return m.setBlock r b

end Memory

end Stackify.Machine
