import PtrTag.Fault
import PtrTag.Inst

/-!
# `PtrTag/Func/Basic.lean` — functions and what can be looked up in them

A function keeps its instructions and its blocks in two arenas. An instruction or block is named by
its place in the arena, and places are never given away again, so an id stays good for the life of
the function. The order of the blocks is a list of its own (`order`, whose first entry is the entry
block), and the order of the instructions is the list that each block holds.

A lookup that can miss has two forms: one that answers in `Option`, for the code that walks a
function, and one in `Except Fault`, for the operations that must say which id was wrong.
-/

set_option autoImplicit false

namespace PtrTag

inductive Linkage where
  | external
  | internal
  | priv
  /-- The body is a copy of one that is defined elsewhere. -/
  | availableExternally
  | linkOnceOdr
  | weakOdr
  deriving Repr, DecidableEq

inductive Attribute where
  /-- The function asks for its pointers to be tagged. -/
  | tagPointers
  /-- The function refuses every kind of instrumentation. -/
  | noInstrumentation
  | noUnwind
  | noInline
  deriving Repr, DecidableEq

structure Param where
  name : String
  ty : Ty
  deriving Repr, DecidableEq

structure Block where
  name : String
  insts : List InstId := []
  deriving Repr, DecidableEq

def Block.position? (b : Block) (inst : InstId) : Option Nat := b.insts.idxOf? inst

structure Func where
  name : String
  ret : Ty
  params : List Param
  linkage : Linkage := .external
  attributes : List Attribute := []
  insts : Array Inst := #[]
  blocks : Array Block := #[]
  order : List BlockId := []
  deriving Repr, DecidableEq

namespace Func

/-! ## The function itself -/

def withLinkage (f : Func) (linkage : Linkage) : Func := { f with linkage := linkage }

def hasAttribute (f : Func) (a : Attribute) : Bool := f.attributes.contains a

def withAttribute (f : Func) (a : Attribute) : Func :=
  if f.hasAttribute a then f else { f with attributes := f.attributes ++ [a] }

/-- A function without blocks only announces a body that is elsewhere. -/
def isDeclaration (f : Func) : Bool := f.order.isEmpty

def entry? (f : Func) : Option BlockId := f.order.head?

/-! ## Lookups -/

def inst (f : Func) (id : InstId) : Except Fault Inst :=
  f.insts[id]?.elim (.error (.unknownInst id)) .ok

def block (f : Func) (id : BlockId) : Except Fault Block :=
  f.blocks[id]?.elim (.error (.unknownBlock id)) .ok

def param (f : Func) (index : Nat) : Except Fault Param :=
  f.params[index]?.elim (.error (.unknownArg index)) .ok

def users (f : Func) (id : InstId) : Except Fault (List InstId) := do
  return (← f.inst id).users

/-- The address computation at `id`. -/
def gep (f : Func) (id : InstId) : Except Fault Gep := do
  match (← f.inst id).op with
  | .gep g => .ok g
  | _ => .error (.wrongForm id .gep)

/-- The instructions of a block, in order; none for a block that does not exist. -/
def instsOf (f : Func) (b : BlockId) : List InstId := f.blocks[b]?.elim [] Block.insts

/-- All instructions, block after block. -/
def instructions (f : Func) : List InstId := f.order.flatMap f.instsOf

/-- Whether there is an instruction at `id` whose operation passes the test. -/
def holds (f : Func) (test : Op → Bool) (id : InstId) : Bool := f.insts[id]?.any (test ·.op)

def blockNamed? (f : Func) (name : String) : Option BlockId :=
  f.order.find? fun b => f.blocks[b]?.any (·.name == name)

/-- The instructions that compute an address. -/
def geps (f : Func) : List InstId := f.instructions.filter (f.holds Op.isGep)

/-! ## Values -/

/-- A value exists if the instruction or argument that it names does. -/
def checkValue (f : Func) : Value → Except Fault Unit
  | .inst id => (f.inst id).map fun _ => ()
  | .arg index => (f.param index).map fun _ => ()
  | .const _ | .global _ => .ok ()

def checkBlock (f : Func) (b : BlockId) : Except Fault Unit := (f.block b).map fun _ => ()

def valueType (f : Func) : Value → Except Fault Ty
  | .inst id => (f.inst id).map Inst.ty
  | .arg index => (f.param index).map Param.ty
  | .const c => .ok c.ty
  | .global _ => .ok .ptr

def valueName? (f : Func) : Value → Option String
  | .inst id => f.insts[id]?.bind Inst.name
  | .arg index => f.params[index]?.map Param.name
  | .global name => some name
  | .const _ => none

end Func

end PtrTag
