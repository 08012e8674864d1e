import PtrTag.Func.Edit

/-!
# `PtrTag/Tagging/Site.lean` — where new code goes

Code that consumes a value has to run once, after the value is there and before its users. For an
ordinary instruction that is right behind it. Three producers are different:

* an argument is there from the start, so the code goes behind the phis of the entry block;
* a phi must stay at the head of its block, so the code goes behind the last phi;
* an invoke has a result only if it returns, so its normal edge is split and the code goes into the
  new block (`Edit.splitNormalEdge`).

Behind any other terminator there is no such place.
-/

set_option autoImplicit false

namespace PtrTag

/-- Something that defines a value. -/
inductive Producer where
  | inst (id : InstId)
  | arg (index : Nat)
  deriving Repr, DecidableEq

/-- A split edge: the edge went from `source` to `dest`, and now goes through `block`. -/
structure EdgeSplit where
  invoke : InstId
  source : BlockId
  dest : BlockId
  block : BlockId
  deriving Repr, DecidableEq

/-- A place for new code, right before an instruction. -/
structure Site where
  before : InstId
  /-- The edge that was split to get there. -/
  split : Option EdgeSplit := none
  deriving Repr, DecidableEq

namespace Edit

/-- Renames an edge in each of the phis in turn. -/
def rekeyPhis (old new : BlockId) : List InstId → Edit Unit
  | [] => return ()
  | phi :: rest => do
    let _ ← rekeyIncoming phi old new
    rekeyPhis old new rest

/-- Puts a new block on the normal edge of an invoke. The block stands right before the old
destination and only branches to it, and the phis of the destination name the new block where they
named the block of the invoke. -/
def splitNormalEdge (invoke : InstId) : Edit EdgeSplit := do
  let inst ← ask (·.inst invoke)
  let dest ← ask fun _ =>
    match inst.op with
    | .invoke _ _ normal _ => .ok normal
    | _ => .error (.wrongForm invoke .invoke)
  let block ← insertBlockBefore "invoke_insert_point" dest
  let _ ← append block { op := .br dest, ty := .void }
  setNormalDest invoke block
  let phis ← ask (·.phis dest)
  rekeyPhis inst.block block phis
  return { invoke := invoke, source := inst.block, dest := dest, block := block }

/-- The place right behind an instruction that is neither a phi nor a terminator. -/
def siteBehind (id : InstId) (b : BlockId) : Edit Site := do
  let block ← ask (·.block b)
  let next := (block.position? id).bind fun pos => block.insts[pos + 1]?
  let before ← ask fun _ => next.elim (.error (.noInsertionPoint id)) .ok
  return { before := before }

/-- Finds a place for code that consumes what `producer` defines, and makes one if it has to. -/
def siteAfter : Producer → Edit Site
  | .arg index => do
    let _ ← ask (·.param index)
    let entry ← ask fun f => f.entry?.elim (.error (.noEntryBlock f.name)) .ok
    return { before := ← ask (·.firstInsertionPoint entry) }
  | .inst id => do
    let inst ← ask (·.inst id)
    match inst.op with
    | .invoke .. =>
      let split ← splitNormalEdge id
      let jump ← ask fun f =>
        (f.terminator? split.block).elim (.error (.unknownBlock split.block)) .ok
      return { before := jump, split := some split }
    | .phi _ => return { before := ← ask (·.firstInsertionPoint inst.block) }
    | op =>
      if op.isTerminator then
        ask fun _ => .error (.noInsertionPoint id)
      else
        siteBehind id inst.block

end Edit

end PtrTag
