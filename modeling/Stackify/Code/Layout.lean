import Stackify.Code.Program

/-!
Layout in byte memory. Scalars are aligned to their own size; the fields of a record follow each
other at the next offset that suits their alignment, and a record's size is rounded up to the
alignment of its strictest field. A packed record has no gaps and no alignment. Offsets are words of
64 bits: a field that would end beyond the last of them ends there.

A record that holds itself has no layout; the number of records bounds how deep proper ones nest.
-/

namespace Stackify.Code

/-- How many bytes an object takes, and of what its address is a multiple. -/
structure Extent where
  size : Nat
  align : Nat
  deriving DecidableEq, Repr

/-- The least multiple of `alignment` that is not below `n`. -/
def alignUp (n alignment : Nat) : Nat :=
  if alignment ≤ 1 then n
  else if n % alignment = 0 then n
  else n + (alignment - n % alignment)

/-- The extent of a type, given that of each record. -/
def Ty.extentWith (recordExtent : RecordId → Extent) : Ty → Extent
  | .void => ⟨0, 1⟩
  | .bool => ⟨1, 1⟩
  | .int w => ⟨w.bytes, w.bytes⟩
  | .float .half => ⟨2, 2⟩
  | .float .single => ⟨4, 4⟩
  | .float .double => ⟨8, 8⟩
  | .pointer _ => ⟨8, 8⟩
  | .varArgs => ⟨8, 8⟩
  | .array e n =>
    let x := e.extentWith recordExtent
    ⟨x.size * n, x.align⟩
  | .record id => recordExtent id

structure Layout where
  size : Nat
  align : Nat
  offsets : List Nat
  deriving DecidableEq, Repr

/-- The greatest offset that a word of 64 bits holds. -/
def lastOffset : Nat := Number.pow2 64 - 1

/-- Offsets of fields that are placed from `offset` on, and the end of the last one. -/
def placeFields (packed : Bool) (offset : Nat) : List Extent → List Nat × Nat
  | [] => ([], offset)
  | x :: rest =>
    let at' := if packed then offset else alignUp offset x.align
    let (offsets, stop) := placeFields packed (min (at' + x.size) lastOffset) rest
    (at' :: offsets, stop)

/-- The layout of a record whose fields have the given extents. -/
def Layout.ofExtents (packed : Bool) (extents : List Extent) : Layout :=
  let (offsets, stop) := placeFields packed 0 extents
  if packed then ⟨stop, 1, offsets⟩
  else
    let align := extents.foldl (fun a x => max a x.align) 1
    ⟨alignUp stop align, align, offsets⟩

/-- The extent of a record in which at most `depth` records are nested, itself included. -/
def recordExtent (records : List Record) : Nat → RecordId → Extent
  | 0, _ => ⟨0, 1⟩
  | depth + 1, id =>
    match records[id]? with
    | none => ⟨0, 1⟩
    | some r =>
      let l :=
        Layout.ofExtents r.packed (r.fields.map fun f =>
          f.ty.extentWith (recordExtent records depth))
      ⟨l.size, l.align⟩

def Ty.extent (records : List Record) (t : Ty) : Extent :=
  t.extentWith (recordExtent records records.length)

def Ty.sizeIn (records : List Record) (t : Ty) : Nat := (t.extent records).size

def Ty.alignIn (records : List Record) (t : Ty) : Nat := (t.extent records).align

def Record.layout (records : List Record) (r : Record) : Layout :=
  Layout.ofExtents r.packed (r.fields.map fun f => f.ty.extent records)

end Stackify.Code
