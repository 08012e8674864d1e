/-!
# `PtrTag/Ty/Basic.lean` — the types of values

A type is void, an integer of some width, an opaque pointer, or is built from other types: arrays,
vectors, structures (padded or packed) and function signatures.

`deriving DecidableEq` does not reach through `List Ty`, so equality is decided here by a comparison
of the two trees, `Ty.same`, which `same_iff` shows to be equality.
-/

set_option autoImplicit false

namespace PtrTag

inductive Ty where
  | void
  | int (bits : Nat)
  | ptr
  | array (len : Nat) (elem : Ty)
  | vector (len : Nat) (elem : Ty)
  | struct (fields : List Ty) (packed : Bool)
  | func (ret : Ty) (params : List Ty) (varargs : Bool)
  deriving Repr, Inhabited

namespace Ty

/-! ## Shapes -/

/-- The width of an integer type, and 0 for every other type. -/
def bitWidth : Ty → Nat
  | .int bits => bits
  | _ => 0

def isInt : Ty → Bool
  | .int _ => true
  | _ => false

def isPtr : Ty → Bool
  | .ptr => true
  | _ => false

def isVoid : Ty → Bool
  | .void => true
  | _ => false

def isVector : Ty → Bool
  | .vector .. => true
  | _ => false

/-- A vector of pointers. -/
def isPtrVector : Ty → Bool
  | .vector _ elem => elem.isPtr
  | _ => false

/-- Arrays and structures. -/
def isAggregate : Ty → Bool
  | .array .. | .struct .. => true
  | _ => false

/-- The element type of an array or a vector. -/
def element? : Ty → Option Ty
  | .array _ elem | .vector _ elem => some elem
  | _ => none

/-! ## Equality -/

mutual

/-- Compares two types as trees. -/
def same : Ty → Ty → Bool
  | .void, .void | .ptr, .ptr => true
  | .int a, .int b => a == b
  | .array m s, .array n t | .vector m s, .vector n t => m == n && same s t
  | .struct ss p, .struct ts q => p == q && sameAll ss ts
  | .func r ss v, .func s ts w => v == w && same r s && sameAll ss ts
  | _, _ => false

def sameAll : List Ty → List Ty → Bool
  | [], [] => true
  | s :: ss, t :: ts => same s t && sameAll ss ts
  | _, _ => false

end

mutual

theorem eq_of_same : ∀ {s t : Ty}, same s t = true → s = t
  | .void, t, h => by cases t <;> simp_all [same]
  | .ptr, t, h => by cases t <;> simp_all [same]
  | .int _, t, h => by cases t <;> simp_all [same]
  | .array _ s, t, h => by
    cases t <;> simp_all [same]
    exact eq_of_same h.2
  | .vector _ s, t, h => by
    cases t <;> simp_all [same]
    exact eq_of_same h.2
  | .struct ss _, t, h => by
    cases t <;> simp_all [same]
    exact eq_of_sameAll h.2
  | .func r ss _, t, h => by
    cases t <;> simp_all [same]
    exact ⟨eq_of_same h.1.2, eq_of_sameAll h.2⟩

theorem eq_of_sameAll : ∀ {ss ts : List Ty}, sameAll ss ts = true → ss = ts
  | [], ts, h => by cases ts <;> simp_all [sameAll]
  | s :: ss, ts, h => by
    cases ts <;> simp_all [sameAll]
    exact ⟨eq_of_same h.1, eq_of_sameAll h.2⟩

end

mutual

theorem same_refl : ∀ t : Ty, same t t = true
  | .void | .ptr | .int _ => by simp [same]
  | .array _ t | .vector _ t => by simp [same, same_refl t]
  | .struct ts _ => by simp [same, sameAll_refl ts]
  | .func r ts _ => by simp [same, same_refl r, sameAll_refl ts]

theorem sameAll_refl : ∀ ts : List Ty, sameAll ts ts = true
  | [] => rfl
  | t :: ts => by simp [sameAll, same_refl t, sameAll_refl ts]

end

theorem same_iff {s t : Ty} : same s t = true ↔ s = t :=
  ⟨eq_of_same, fun h => h ▸ same_refl s⟩

instance : DecidableEq Ty := fun _ _ => decidable_of_iff _ same_iff

end Ty

end PtrTag
