import PtrTag.Func.Emit
import PtrTag.Layout.Path

/-!
# `PtrTag/Tagging/Displacement.lean` — how far an address computation moves its base

The displacement is the sum of what each index contributes. If every index that counts is a constant,
so is the sum (`Func.constantOffset`). Otherwise `Edit.emitOffset` emits it: each variable index is
brought to pointer width and scaled, the products are added up, and all constant contributions are
added at the end as one constant.

Both start from the same list of terms (`Func.gepTerms`), which exists only if every index is a scalar
integer not wider than a pointer and the index path fits the source type.
-/

set_option autoImplicit false

namespace PtrTag

/-- A displacement in bytes. -/
inductive Displacement where
  | constant (bytes : Word)
  | computed (value : Value)
  deriving Repr, DecidableEq

namespace Displacement

/-- A displacement as an operand of pointer width `bits`. -/
def toValue (bits : Nat) : Displacement → Value
  | .constant bytes => .ofWord bytes bits
  | .computed value => value

def isConstant : Displacement → Bool
  | .constant _ => true
  | .computed _ => false

end Displacement

namespace Func

/-- An index is a scalar integer not wider than a pointer. -/
def checkIndex (f : Func) (L : Layout) (index : Value) : Except Fault Unit := do
  match ← f.valueType index with
  | .int bits =>
    if L.pointerBits < bits then .error (.indexTooWide bits L.pointerBits) else .ok ()
  | ty => .error (.indexNotInteger ty)

/-- The steps of an address computation, each with the index that takes it. -/
def gepTerms (f : Func) (L : Layout) (id : InstId) : Except Fault (List (Step × Value)) := do
  let g ← f.gep id
  g.indices.forM (f.checkIndex L)
  let steps ← L.steps g.source g.indices
  return steps.zip g.indices

/-- Checks that the displacement of an address computation can be computed. -/
def checkGep (f : Func) (L : Layout) (id : InstId) : Except Fault Unit := do
  let _ ← f.gepTerms L id
  return ()

end Func

/-- The sum of all terms, if none of them depends on a variable. -/
def constantSum? : List (Step × Value) → Option Word
  | [] => some 0
  | (.field offset, _) :: rest => do
    let sum ← constantSum? rest
    return .ofNat 64 offset + sum
  | (.scaled stride, index) :: rest => do
    let w ← index.asWord?
    let sum ← constantSum? rest
    return w * .ofNat 64 stride + sum

/-- The displacement of an address computation as a signed number of pointer width, if it is the same
in every activation. -/
def Func.constantOffset (f : Func) (L : Layout) (id : InstId) : Except Fault (Option Word) := do
  let terms ← f.gepTerms L id
  return (constantSum? terms).map fun sum => Word.signed sum L.pointerBits

namespace Edit

/-- A variable index times its stride, at pointer width. -/
def emitScaled (anchor : InstId) (bits stride : Nat) (index : Value) (name : Option String) :
    Edit Value := do
  let index ← emitResize anchor index (.int bits) (derivedName name "idx.ext")
  if stride = 1 then
    return index
  else
    emitBinary anchor .mul index (.ofWord (.ofNat 64 stride) bits) (derivedName name "idx")

/-- A sum of which there may be nothing yet, and one more summand. -/
def emitPlus (anchor : InstId) (sum : Option Value) (v : Value) (name : Option String) :
    Edit Value := do
  match sum with
  | none => return v
  | some sum => emitBinary anchor .add sum v (derivedName name "offs")

/-- Emits the variable terms, `sum` being what they come to so far and `known` the constant terms so
far. A variable index with stride zero moves nothing and is passed over. -/
def emitTerms (anchor : InstId) (bits : Nat) (name : Option String) :
    Word → Option Value → List (Step × Value) → Edit (Word × Option Value)
  | known, sum, [] => return (known, sum)
  | known, sum, (.field offset, _) :: rest =>
    emitTerms anchor bits name (known + .ofNat 64 offset) sum rest
  | known, sum, (.scaled stride, index) :: rest =>
    match index.asWord? with
    | some w => emitTerms anchor bits name (known + w * .ofNat 64 stride) sum rest
    | none =>
      if stride = 0 then
        emitTerms anchor bits name known sum rest
      else do
        let scaled ← emitScaled anchor bits stride index name
        let sum ← emitPlus anchor sum scaled name
        emitTerms anchor bits name known (some sum) rest

/-- Emits the displacement of an address computation right before `anchor`, as an integer of pointer
width. -/
def emitOffset (anchor : InstId) (L : Layout) (gep : InstId) (name : Option String) : Edit Value := do
  let terms ← ask (·.gepTerms L gep)
  let (known, sum) ← emitTerms anchor L.pointerBits name 0 none terms
  let constant := Value.ofWord known L.pointerBits
  match sum with
  | none => return constant
  | some sum =>
    if constant.isZero then
      return sum
    else
      emitPlus anchor (some sum) constant name

/-- The displacement of an address computation: a constant if it is one, or else emitted. -/
def emitDisplacement (anchor : InstId) (L : Layout) (gep : InstId) (name : Option String) :
    Edit Displacement := do
  match ← ask (·.constantOffset L gep) with
  | some bytes => return .constant bytes
  | none => Displacement.computed <$> emitOffset anchor L gep name

end Edit

end PtrTag
