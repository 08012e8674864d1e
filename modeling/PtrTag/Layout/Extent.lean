import PtrTag.Ty.Basic

/-!
# `PtrTag/Layout/Extent.lean` — how many bytes, and where they may start

An `Extent` is a size in bytes and an alignment. Sizes are natural numbers: nothing here wraps.

`Ty.natural` gives each type its natural extent under 64-bit pointers. Size and alignment depend on
each other (a vector is aligned to its size, an array's size counts its element's padding), so the two
are computed together by one recursion over the type.

The fields of a structure are placed one after another, each with the padding behind it
(`Extent.padded`). `Extent.starts` lists where each one begins and `Extent.finish` says where the last
one ends; the offset of a field and the size of the whole are both read off this one placement.
-/

set_option autoImplicit false

namespace PtrTag

/-- The least multiple of `align` that is not below `n`; an alignment of 0 or 1 asks for nothing. -/
def alignUp (n align : Nat) : Nat :=
  if align ≤ 1 then n else (n + align - 1) / align * align

/-- The least power of two that is not below `n`. -/
def ceilPow2 (n : Nat) : Nat :=
  if n ≤ 1 then 1 else 1 <<< ((n - 1).log2 + 1)

/-- The bytes that hold `bits` bits. -/
def bytesFor (bits : Nat) : Nat := (bits + 7) / 8

structure Extent where
  size : Nat
  align : Nat
  deriving Repr, DecidableEq

namespace Extent

/-- The distance between two neighbouring elements of an array. -/
def stride (e : Extent) : Nat := alignUp e.size e.align

/-- The room of an element of an array: the extent with its padding. -/
def padded (e : Extent) : Extent := ⟨e.stride, e.align⟩

/-- Where a field may begin if the bytes before `cursor` are taken. -/
def place (packed : Bool) (cursor : Nat) (e : Extent) : Nat :=
  if packed then cursor else alignUp cursor e.align

/-- The first byte of each field, if the bytes before `cursor` are taken. -/
def starts (packed : Bool) : Nat → List Extent → List Nat
  | _, [] => []
  | cursor, e :: es =>
    let start := e.place packed cursor
    start :: starts packed (start + e.size) es

/-- The byte after the last field, if the bytes before `cursor` are taken. -/
def finish (packed : Bool) : Nat → List Extent → Nat
  | cursor, [] => cursor
  | cursor, e :: es => finish packed (e.place packed cursor + e.size) es

/-- The largest of the alignments, and 1 if there is none. -/
def maxAlign : List Extent → Nat
  | [] => 1
  | e :: es => max e.align (maxAlign es)

/-- Integers are aligned to the power of two that holds their bytes, up to 16. -/
def int (bits : Nat) : Extent :=
  ⟨bytesFor bits, min (ceilPow2 (bytesFor bits)) 16⟩

def array (len : Nat) (elem : Extent) : Extent :=
  ⟨len * elem.stride, elem.align⟩

/-- A vector of `size` bytes. -/
def vector (size : Nat) : Extent := ⟨size, ceilPow2 (max size 1)⟩

def struct (packed : Bool) (fields : List Extent) : Extent :=
  let align := if packed then 1 else maxAlign fields
  ⟨alignUp (finish packed 0 (fields.map padded)) align, align⟩

end Extent

namespace Ty

mutual

/-- The natural extent of a type where a pointer takes eight bytes. The lanes of an integer vector are
packed bit by bit. -/
def natural : Ty → Extent
  | .void | .func .. => ⟨0, 1⟩
  | .int bits => .int bits
  | .ptr => ⟨8, 8⟩
  | .array len elem => .array len (natural elem)
  | .vector len elem =>
    .vector (if elem.isInt then bytesFor (len * elem.bitWidth) else len * (natural elem).size)
  | .struct fields packed => .struct packed (naturals fields)

def naturals : List Ty → List Extent
  | [] => []
  | t :: ts => natural t :: naturals ts

end

theorem naturals_eq_map (ts : List Ty) : naturals ts = ts.map natural := by
  induction ts with
  | nil => rfl
  | cons t ts ih => simp [naturals, ih]

end Ty

end PtrTag
