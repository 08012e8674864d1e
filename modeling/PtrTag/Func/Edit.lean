import PtrTag.Func.Graph

/-!
# `PtrTag/Func/Edit.lean` — changing a function

An `Edit` acts on one function and may fail. It is a state monad whose state **survives a failure**:
an operation that fails half-way leaves what it had done, so "a failed edit changes nothing" is a
property that each operation has to earn. The edits of this file earn it in one way: each first asks
all its questions (`Edit.ask`, which cannot change anything) and then applies one total function to
the state (`modify`).

A new instruction is registered with the instructions that it uses, and nothing is ever taken out of
an arena.
-/

set_option autoImplicit false

namespace PtrTag

abbrev Edit := EStateM Fault Func

namespace Edit

/-- Asks the function a question, and fails if it has no answer. -/
def ask {α : Type} (question : Func → Except Fault α) : Edit α := fun f =>
  match question f with
  | .ok a => .ok a f
  | .error e => .error e f

/-- A question either hands its answer on or ends the edit, and the function is the same in both
cases. -/
theorem ask_bind {α β : Type} (question : Func → Except Fault α) (next : α → Edit β) (f : Func) :
    (ask question >>= next) f =
      match question f with
      | .ok a => next a f
      | .error e => .error e f := by
  show EStateM.bind (ask question) next f = _
  unfold EStateM.bind ask
  cases question f <;> rfl

end Edit

namespace Func

/-! ## Blocks -/

/-- The name that a new block gets when `base` is wished for: `base` itself if no block has it, or
else `base` with the first of the numbers 1, 2, … that makes it new. One of as many numbers as there
are blocks always does. -/
def freshLabel (f : Func) (base : String) : String :=
  let taken := f.blocks.toList.map Block.name
  let numbered := (List.range taken.length).map fun n => base ++ toString (n + 1)
  ((base :: numbered).find? fun name => !taken.contains name).getD base

/-- Adds an empty block at a position of the block order. -/
def insertBlock (f : Func) (base : String) (pos : Nat) : Func :=
  { f with
    blocks := f.blocks.push { name := f.freshLabel base }
    order := f.order.insertIdx pos f.blocks.size }

/-! ## Instructions -/

def modifyInst (f : Func) (id : InstId) (change : Inst → Inst) : Func :=
  { f with insts := f.insts.modify id change }

/-- Enters `user` into the use list of `id`, `times` times. -/
def addUses (f : Func) (id user : InstId) (times : Nat) : Func :=
  f.modifyInst id fun inst => { inst with users := inst.users ++ List.replicate times user }

/-- Enters `user` into the use lists of the instructions that it uses. -/
def registerUses (f : Func) (user : InstId) (used : List InstId) : Func :=
  used.foldl (fun f id => f.addUses id user 1) f

/-- An operation is sound if its operands exist, and the blocks that it names. -/
def checkOp (f : Func) (op : Op) : Except Fault Unit := do
  op.operands.forM f.checkValue
  op.successors.forM f.checkBlock
  op.incomingBlocks.forM f.checkBlock

/-- Gives a draft the next place in the arena, and puts it at a position of a block. -/
def place (f : Func) (d : Draft) (b : BlockId) (pos : Nat) : Func :=
  let id := f.insts.size
  let inst : Inst := { op := d.op, ty := d.ty, name := d.name, block := b }
  let grown := { f with
    insts := f.insts.push inst
    blocks := f.blocks.modify b fun block =>
      { block with insts := block.insts.insertIdx pos id } }
  grown.registerUses id d.op.uses

end Func

namespace Edit

/-- Adds an empty block after all others. -/
def addBlock (base : String) : Edit BlockId := do
  let f ← get
  modify fun f => f.insertBlock base f.order.length
  return f.blocks.size

/-- Adds an empty block right before `before`. -/
def insertBlockBefore (base : String) (before : BlockId) : Edit BlockId := do
  let pos ← ask fun f => (f.order.idxOf? before).elim (.error (.unknownBlock before)) .ok
  let f ← get
  modify (·.insertBlock base pos)
  return f.blocks.size

/-- Checks a draft and puts it at a position of a block. -/
def create (d : Draft) (b : BlockId) (pos : Nat) : Edit InstId := do
  ask (·.checkOp d.op)
  let f ← get
  modify (·.place d b pos)
  return f.insts.size

theorem addBlock_run (base : String) (f : Func) :
    addBlock base f = .ok f.blocks.size (f.insertBlock base f.order.length) := rfl

theorem create_run (d : Draft) (b : BlockId) (pos : Nat) (f : Func) :
    create d b pos f =
      match f.checkOp d.op with
      | .ok () => .ok f.insts.size (f.place d b pos)
      | .error e => .error e f := by
  unfold create
  rw [ask_bind]
  cases f.checkOp d.op <;> rfl

/-- Puts a new instruction at the end of a block. -/
def append (b : BlockId) (d : Draft) : Edit InstId := do
  let block ← ask (·.block b)
  create d b block.insts.length

/-- Puts a new instruction right before `anchor`. -/
def insertBefore (anchor : InstId) (d : Draft) : Edit InstId := do
  let inst ← ask (·.inst anchor)
  let block ← ask (·.block inst.block)
  let pos ← ask fun _ => (block.position? anchor).elim (.error (.unknownInst anchor)) .ok
  create d inst.block pos

/-- Changes the marks of an instruction. -/
def mark (id : InstId) (change : Marks → Marks) : Edit Unit := do
  let _ ← ask (·.inst id)
  modify (·.modifyInst id fun inst => { inst with marks := change inst.marks })

/-! ## Edges -/

/-- The edges of the phi at `id`. -/
def askPhi (id : InstId) : Edit (List (Value × BlockId)) :=
  ask fun f => do
    match (← f.inst id).op with
    | .phi incoming => .ok incoming
    | _ => .error (.wrongForm id .phi)

/-- Adds an edge to a phi. -/
def addIncoming (phi : InstId) (value : Value) (b : BlockId) : Edit Unit := do
  ask (·.checkValue value)
  ask (·.checkBlock b)
  let incoming ← askPhi phi
  modify fun f =>
    let f := f.modifyInst phi fun inst => { inst with op := .phi (incoming ++ [(value, b)]) }
    f.registerUses phi value.asInst?.toList

/-- Renames an edge of a phi: every entry for `old` becomes one for `new`. Returns how many there
were. -/
def rekeyIncoming (phi : InstId) (old new : BlockId) : Edit Nat := do
  ask (·.checkBlock new)
  let incoming ← askPhi phi
  let rekeyed := incoming.map fun (v, b) => (v, if b = old then new else b)
  modify (·.modifyInst phi fun inst => { inst with op := .phi rekeyed })
  return incoming.countP (·.2 == old)

/-- Sends the normal edge of an invoke to another block. -/
def setNormalDest (invoke : InstId) (dest : BlockId) : Edit Unit := do
  ask (·.checkBlock dest)
  let op ← ask fun f => do
    match (← f.inst invoke).op with
    | .invoke callee args _ unwind => .ok (Op.invoke callee args dest unwind)
    | _ => .error (.wrongForm invoke .invoke)
  modify (·.modifyInst invoke fun inst => { inst with op := op })

end Edit

end PtrTag
