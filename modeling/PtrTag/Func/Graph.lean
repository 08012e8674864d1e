import PtrTag.Func.Text

/-!
# `PtrTag/Func/Graph.lean` — control flow and well-formedness

The edges of a function are read off its terminators: a block goes where its last instruction goes,
if that is a terminator, and nowhere otherwise. `Func.verify` checks what a function has to satisfy
before it can be executed, and names the first thing that fails:

* every block ends in a terminator, has no other one, and has its phis at its head;
* every instruction stands in one place, and knows its block;
* each phi names the predecessors of its block;
* each use list holds one entry for each use.
-/

set_option autoImplicit false

namespace PtrTag

namespace Func

/-! ## Edges -/

/-- The last instruction of a block, if it is a terminator. -/
def terminator? (f : Func) (b : BlockId) : Option InstId :=
  (f.instsOf b).getLast?.filter (f.holds Op.isTerminator)

def successors (f : Func) (b : BlockId) : List BlockId :=
  match (f.terminator? b).bind (f.insts[·]?) with
  | some inst => inst.op.successors
  | none => []

/-- The blocks that go to `b`, in order, one entry per edge. -/
def predecessors (f : Func) (b : BlockId) : List BlockId :=
  f.order.flatMap fun p => ((f.successors p).filter (· == b)).map fun _ => p

/-- The phis at the head of a block. -/
def phis (f : Func) (b : BlockId) : Except Fault (List InstId) := do
  return (← f.block b).insts.takeWhile (f.holds Op.isPhi)

/-- The first instruction of a block that is not a phi. -/
def firstInsertionPoint (f : Func) (b : BlockId) : Except Fault InstId := do
  let block ← f.block b
  match block.insts.find? fun id => !f.holds Op.isPhi id with
  | some id => return id
  | none => .error (.malformed f.name (.onlyPhis block.name))

/-! ## Well-formedness -/

/-- Refuses the function for a defect. -/
def reject {α : Type} (f : Func) (defect : Defect) : Except Fault α :=
  .error (.malformed f.name defect)

/-- Checks the instructions of block `b`, named `label`: `phiHead` says that only phis stood before
these, and `seen` lists the instructions met so far. Returns that list with these added. -/
def verifyInsts (f : Func) (b : BlockId) (label : String) :
    Bool → List InstId → List InstId → Except Fault (List InstId)
  | _, seen, [] => .ok seen
  | phiHead, seen, id :: rest => do
    let inst ← f.inst id
    if id ∈ seen then f.reject (.repeated id)
    else if inst.block ≠ b then f.reject (.strayParent id)
    else if inst.op.isTerminator && !rest.isEmpty then f.reject (.earlyTerminator id label)
    else if inst.op.isPhi && !phiHead then f.reject (.lateToPhi id label)
    else f.verifyInsts b label (phiHead && inst.op.isPhi) (id :: seen) rest

/-- Whether two lists have the same members. -/
def sameMembers (xs ys : List Nat) : Bool :=
  xs.all (ys.contains ·) && ys.all (xs.contains ·)

/-- Checks that a phi of block `b` names the predecessors of the block. -/
def verifyPhi (f : Func) (b : BlockId) (label : String) (phi : InstId) : Except Fault Unit := do
  let inst ← f.inst phi
  if sameMembers inst.op.incomingBlocks (f.predecessors b) then .ok ()
  else f.reject (.phiEdges (f.instLabel phi) label)

/-- Checks one block; `seen` lists the instructions of the blocks before it. -/
def verifyBlock (f : Func) (seen : List InstId) (b : BlockId) : Except Fault (List InstId) := do
  let block ← f.block b
  if block.insts.isEmpty then f.reject (.emptyBlock block.name)
  else if (f.terminator? b).isNone then f.reject (.unterminated block.name)
  else do
    let seen ← f.verifyInsts b block.name true seen block.insts
    let phis ← f.phis b
    phis.forM (f.verifyPhi b block.name)
    return seen

/-- The users of `id` that the operands show, one entry per operand. -/
def usersIn (f : Func) (id : InstId) : List InstId :=
  f.instructions.flatMap fun user =>
    List.replicate (f.insts[user]?.elim 0 (·.op.uses.count id)) user

/-- Checks that the use list of `id` holds one entry for each use. -/
def verifyUses (f : Func) (id : InstId) : Except Fault Unit := do
  let inst ← f.inst id
  if (f.usersIn id).isPerm inst.users then .ok ()
  else f.reject (.useList (f.instLabel id))

/-- Checks that the function is well formed. -/
def verify (f : Func) : Except Fault Unit := do
  let _ ← f.order.foldlM f.verifyBlock []
  f.instructions.forM f.verifyUses

end Func

end PtrTag
