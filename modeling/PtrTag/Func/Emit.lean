import PtrTag.Func.Edit

/-!
# `PtrTag/Func/Emit.lean` — emitting arithmetic

Each operation here puts an instruction right before an anchor and returns its result as an operand.
Where the operands are constants nothing is emitted, and the result is a constant: a computation on
constants leaves no trace in the function.

An empty name counts as no name.
-/

set_option autoImplicit false

namespace PtrTag

/-- The name of a value that is computed for `base`; without a base name there is none. -/
def derivedName (base : Option String) (suffix : String) : Option String :=
  (base.filter (· != "")).map (· ++ "." ++ suffix)

namespace Edit

/-- Puts an operation right before `anchor`. -/
def emit (anchor : InstId) (op : Op) (ty : Ty) (name : Option String) : Edit InstId :=
  insertBefore anchor { op := op, ty := ty, name := name.filter (· != "") }

/-- The width of an integer value, and 0 for a value of another type. -/
def askWidth (v : Value) : Edit Nat := ask fun f => (f.valueType v).map Ty.bitWidth

/-- A binary operation, of the type of its left operand. -/
def emitBinary (anchor : InstId) (op : BinOp) (lhs rhs : Value) (name : Option String) :
    Edit Value := do
  let ty ← ask (·.valueType lhs)
  match lhs, rhs.asWord? with
  | .const (.int a bits), some b => return .const (op.fold a b bits)
  | _, _ => Value.inst <$> emit anchor (.binary op lhs rhs) ty name

/-- Zero minus a value. -/
def emitNeg (anchor : InstId) (v : Value) (name : Option String) : Edit Value := do
  let bits ← askWidth v
  emitBinary anchor .sub (.ofWord 0 bits) v name

/-- A pointer as an integer of type `ty`; the null pointer is zero. -/
def emitPtrToInt (anchor : InstId) (v : Value) (ty : Ty) (name : Option String) : Edit Value := do
  match v with
  | .const .null => return .ofWord 0 ty.bitWidth
  | _ => Value.inst <$> emit anchor (.cast .ptrToInt v) ty name

/-- An integer as a pointer of type `ty`. This is never folded, so the result is an instruction. -/
def emitIntToPtr (anchor : InstId) (v : Value) (ty : Ty) (name : Option String) : Edit InstId :=
  emit anchor (.cast .intToPtr v) ty name

/-- A signed integer at the width of `ty`: extended or cut as needed. -/
def emitResize (anchor : InstId) (v : Value) (ty : Ty) (name : Option String) : Edit Value := do
  let bits ← askWidth v
  if bits = ty.bitWidth then
    return v
  else
    match v.asWord? with
    | some w => return .ofWord w ty.bitWidth
    | none =>
      let op := if bits < ty.bitWidth then CastOp.sext else CastOp.trunc
      Value.inst <$> emit anchor (.cast op v) ty name

end Edit

end PtrTag
