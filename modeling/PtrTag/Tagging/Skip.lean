import PtrTag.Func.Basic
import PtrTag.Scheme

/-!
# `PtrTag/Tagging/Skip.lean` — what is left alone

A function is worked on only if it has a body of its own and asks for it. Inside such a function an
address computation is left alone for one of four reasons (`Skip`), tried in the order in which
`Func.skipReason` lists them.

Whoever reads a slot of a dispatch table expects its exact address. Address computations into such
tables are seldom marked, so they are also told by names: that of the base pointer, that of a single
index, or that of a global.
-/

set_option autoImplicit false

namespace PtrTag

/-- Why an address computation is left alone. -/
inductive Skip where
  /-- Every index is zero, so the pointer does not move. -/
  | zeroIndex
  /-- It addresses a dispatch table. -/
  | dispatch
  /-- It computes a vector of pointers. -/
  | vector
  | alreadyTagged
  deriving Repr, DecidableEq

def Skip.text : Skip → String
  | .zeroIndex => "all indices are zero"
  | .dispatch => "vtable access"
  | .vector => "vector GEP"
  | .alreadyTagged => "already rewritten"

namespace Func

/-- Whether a function is to be worked on at all. -/
def wantsTagging (f : Func) (s : Scheme) : Bool :=
  !f.isDeclaration && f.linkage != .availableExternally && !startsWith s.cues.runtime f.name
    && !f.hasAttribute .noInstrumentation && f.hasAttribute .tagPointers

/-- Whether a value has a name that begins with `lead`. -/
def nameStartsWith (f : Func) (lead : String) (v : Value) : Bool :=
  (f.valueName? v).any (startsWith lead)

/-- Whether the names in an address computation speak of a dispatch table. A symbol counts only if it
is among the `globals`: a function of such a name is no table. -/
def namesTable (f : Func) (cues : Cues) (globals : List String) (g : Gep) : Bool :=
  let byBase := f.nameStartsWith cues.table g.base
  let byIndex := match g.indices with
    | [index] => f.nameStartsWith cues.virtualBase index
    | _ => false
  let bySymbol := match g.base with
    | .global symbol => globals.contains symbol && startsWith cues.tableSymbol symbol
    | _ => false
  byBase || byIndex || bySymbol

/-- Whether the instruction `inst`, which computes the address `g`, goes into a dispatch table. -/
def isDispatch (f : Func) (s : Scheme) (globals : List String) (inst : Inst) (g : Gep) : Bool :=
  inst.marks.dispatch || f.namesTable s.cues globals g

/-- Whether the address computation `id` goes into a dispatch table. -/
def addressesTable (f : Func) (s : Scheme) (globals : List String) (id : InstId) :
    Except Fault Bool := do
  let inst ← f.inst id
  let g ← f.gep id
  return f.isDispatch s globals inst g

/-- Why the address computation `id` is left alone, if it is. -/
def skipReason (f : Func) (s : Scheme) (globals : List String) (id : InstId) :
    Except Fault (Option Skip) := do
  let inst ← f.inst id
  let g ← f.gep id
  return if inst.marks.tagged then some .alreadyTagged
    else if g.indices.all Value.isZero then some .zeroIndex
    else if f.isDispatch s globals inst g then some .dispatch
    else if inst.ty.isVector then some .vector
    else none

end Func

end PtrTag
