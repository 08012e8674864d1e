import PtrTag.Func.Uses
import PtrTag.Tagging.Skip
import PtrTag.Tagging.Site
import PtrTag.Tagging.Displacement

/-!
# `PtrTag/Tagging/Tag.lean` — tagging one address computation

Behind an address computation `%g` goes code that puts its displacement into the upper bits of the
pointer, if the flag of the pointer is set. With the flag at bit 48 and the offset from bit 49 on:

```text
%g.int        = ptrtoint ptr %g to i64
%g.upperbits  = lshr i64 %g.int, 48
%g.enable.sel = and i64 %g.upperbits, 1
%g.enable.bit = sub i64 0, %g.enable.sel
...             the displacement, unless it is a constant
%g.shifted    = shl i64 %offset, 49
%n            = and i64 %g.shifted, %g.enable.bit
%g.added      = add i64 %g.int, %n
%g.newptr     = inttoptr i64 %g.added to ptr
```

Whoever used `%g` before then uses `%g.newptr`. If the flag is clear, the mask `%g.enable.bit` is zero
and the new pointer is the old one, bit for bit.
-/

set_option autoImplicit false

namespace PtrTag

/-- What became of an address computation. -/
inductive Outcome where
  /-- Its users now use `replacement`. -/
  | tagged (replacement : InstId) (constantOffset splitEdge : Bool)
  | skipped (why : Skip)
  deriving Repr, DecidableEq

/-- The distinct members of a use list, in increasing order. -/
def Func.distinctUsers (f : Func) (users : List InstId) : List InstId :=
  (List.range f.insts.size).filter (users.contains ·)

namespace Edit

/-- Emits a tagged copy of the pointer that `gep` computes, of type `ty`. Says also whether the
displacement is a constant. -/
def emitTagged (s : Scheme) (L : Layout) (anchor gep : InstId) (ty : Ty) (name : Option String) :
    Edit (InstId × Bool) := do
  let word := Ty.int 64
  let address ← emitPtrToInt anchor (.inst gep) word (derivedName name "int")
  let upper ← emitBinary anchor .lshr address (.ofWord (.ofNat 64 s.flagBit) 64)
    (derivedName name "upperbits")
  let flag ← emitBinary anchor .and upper (.ofWord 1 64) (derivedName name "enable.sel")
  let mask ← emitNeg anchor flag (derivedName name "enable.bit")
  let displacement ← emitDisplacement anchor L gep name
  let offset ← emitResize anchor (displacement.toValue L.pointerBits) word none
  let shifted ← emitBinary anchor .shl offset (.ofWord (.ofNat 64 s.offsetShift) 64)
    (derivedName name "shifted")
  let tag ← emitBinary anchor .and shifted mask none
  let sum ← emitBinary anchor .add address tag (derivedName name "added")
  let replacement ← emitIntToPtr anchor sum ty (derivedName name "newptr")
  return (replacement, displacement.isConstant)

/-- Gives the users of an address computation a tagged pointer, unless it is to be left alone. -/
def tagGep (s : Scheme) (L : Layout) (globals : List String) (gep : InstId) : Edit Outcome := do
  match ← ask (·.skipReason s globals gep) with
  | some why => return .skipped why
  | none =>
    ask (·.checkGep L gep)
    let inst ← ask (·.inst gep)
    let users ← ask fun f => .ok (f.distinctUsers inst.users)
    let site ← siteAfter (.inst gep)
    let (replacement, constant) ← emitTagged s L site.before gep inst.ty inst.name
    let _ ← replaceUsesIn gep (.inst replacement) users
    mark gep fun marks => { marks with tagged := true }
    return .tagged replacement constant site.split.isSome

end Edit

end PtrTag
