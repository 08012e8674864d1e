import PtrTag.Fault
import PtrTag.Layout.Extent

/-!
# `PtrTag/Layout/Path.lean` — paths into a type

A `Layout` says how wide a pointer is and how much room each type takes. How far elements are apart and
where fields begin follows from that, unless the layout has its own answer.

An index path starts at a whole object: its first index steps over objects of the source type, and each
later one steps into the type reached so far. `Layout.steps` resolves a path to what each index
contributes to the byte offset, a fixed number for a field and a multiple of the index otherwise.

The first index is never looked at here, and neither is an index into an array or a vector: only a
field has to be known beforehand.
-/

set_option autoImplicit false

namespace PtrTag

structure Layout where
  pointerBits : Nat
  extent : Ty → Extent
  /-- The distance between two neighbouring elements of a type. -/
  stride : Ty → Nat := fun ty => (extent ty).stride
  /-- The first byte of the field at an index of a structure, packed or not. -/
  fieldOffset? : List Ty → Bool → Nat → Option Nat := fun fields packed index =>
    (Extent.starts packed 0 (fields.map fun ty => ⟨stride ty, (extent ty).align⟩))[index]?

/-- What one index adds to a byte offset. -/
inductive Step where
  /-- A field: a fixed number of bytes. -/
  | field (offset : Nat)
  /-- An element: the index times `stride`. -/
  | scaled (stride : Nat)
  deriving Repr, DecidableEq

namespace Layout

/-- Natural extents and 64-bit pointers. -/
def lp64 : Layout where
  pointerBits := 64
  extent := Ty.natural

/-- The same room for everything under pointers of another width. -/
def withPointerBits (L : Layout) (bits : Nat) : Layout := { L with pointerBits := bits }

/-- The first byte and the type of the field at `index`. -/
def field? (L : Layout) (fields : List Ty) (packed : Bool) (index : Nat) : Option (Nat × Ty) :=
  match L.fieldOffset? fields packed index, fields[index]? with
  | some offset, some ty => some (offset, ty)
  | _, _ => none

/-- One index into a type: what it contributes, and the type it reaches. -/
def stepInto (L : Layout) (ty : Ty) (index : Value) : Except Fault (Step × Ty) :=
  match ty with
  | .struct fields packed =>
    match index.asWord? with
    | none => .error .fieldNotConstant
    | some w =>
      match (Word.index? w).bind (L.field? fields packed) with
      | some (offset, fieldTy) => .ok (.field offset, fieldTy)
      | none => .error (.fieldOutOfRange w.toInt ty)
  | .array _ elem | .vector _ elem => .ok (.scaled (L.stride elem), elem)
  | _ => .error (.notIndexable ty)

/-- The steps of a path that starts inside a type. -/
def walk (L : Layout) : Ty → List Value → Except Fault (List Step)
  | _, [] => .ok []
  | ty, index :: rest => do
    let (step, reached) ← L.stepInto ty index
    let steps ← L.walk reached rest
    return step :: steps

/-- The steps of a path that starts at a whole object of type `source`. -/
def steps (L : Layout) (source : Ty) : List Value → Except Fault (List Step)
  | [] => .ok []
  | _ :: rest => do
    let steps ← L.walk source rest
    return .scaled (L.stride source) :: steps

end Layout

end PtrTag
