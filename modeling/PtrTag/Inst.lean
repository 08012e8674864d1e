import PtrTag.Value

/-!
# `PtrTag/Inst.lean` — instructions

An operation (`Op`) names what an instruction computes and from which operands; an instruction
(`Inst`) adds its result type, an optional name, the block it stands in, its marks, and the **use
list**: one entry for each operand, anywhere in the function, that is its result.

Everything that walks operands goes through `Op.operands` (in order) or `Op.mapOperands`, and
everything that walks blocks through `Op.successors` and `Op.incomingBlocks`.
-/

set_option autoImplicit false

namespace PtrTag

/-! ## Operators -/

inductive BinOp where
  | add | sub | mul | shl | lshr | ashr | and | or | xor
  deriving Repr, DecidableEq

namespace BinOp

def mnemonic : BinOp → String
  | .add => "add"
  | .sub => "sub"
  | .mul => "mul"
  | .shl => "shl"
  | .lshr => "lshr"
  | .ashr => "ashr"
  | .and => "and"
  | .or => "or"
  | .xor => "xor"

/-- The result on words. A shift by 64 or more pushes every bit out: it leaves zero, or the sign for
an arithmetic shift. The amounts are capped so that no shift is carried out further than that. -/
def apply (op : BinOp) (a b : Word) : Word :=
  match op with
  | .add => a + b
  | .sub => a - b
  | .mul => a * b
  | .shl => a <<< min b.toNat 64
  | .lshr => a >>> min b.toNat 64
  | .ashr => a.sshiftRight (min b.toNat 63)
  | .and => a &&& b
  | .or => a ||| b
  | .xor => a ^^^ b

/-- The result on two constants of width `bits`, normalised. Constants store signed readings, which is
what every operator wants but a logical right shift. -/
def fold (op : BinOp) (a b : Word) (bits : Nat) : Const :=
  match op with
  | .lshr => .ofWord (op.apply (Word.low a bits) b) bits
  | _ => .ofWord (op.apply a b) bits

end BinOp

inductive CastOp where
  | ptrToInt | intToPtr | sext | zext | trunc | bitcast
  deriving Repr, DecidableEq

def CastOp.mnemonic : CastOp → String
  | .ptrToInt => "ptrtoint"
  | .intToPtr => "inttoptr"
  | .sext => "sext"
  | .zext => "zext"
  | .trunc => "trunc"
  | .bitcast => "bitcast"

inductive CmpOp where
  | eq | ne | ult | slt
  deriving Repr, DecidableEq

def CmpOp.mnemonic : CmpOp → String
  | .eq => "eq"
  | .ne => "ne"
  | .ult => "ult"
  | .slt => "slt"

/-! ## Operations -/

/-- An address computation: a base pointer moved along an index path into `source`. -/
structure Gep where
  source : Ty
  base : Value
  indices : List Value
  inbounds : Bool
  deriving Repr, DecidableEq

inductive Op where
  | gep (g : Gep)
  /-- One value for each edge into the block. -/
  | phi (incoming : List (Value × BlockId))
  | binary (op : BinOp) (lhs rhs : Value)
  | cast (op : CastOp) (value : Value)
  | icmp (op : CmpOp) (lhs rhs : Value)
  | alloca (ty : Ty)
  | load (ptr : Value)
  | store (value ptr : Value)
  | call (callee : Value) (args : List Value)
  | br (dest : BlockId)
  | condBr (cond : Value) (thenDest elseDest : BlockId)
  | ret (value : Option Value)
  /-- A call that goes on at `normal`, or at `unwind` if it throws. -/
  | invoke (callee : Value) (args : List Value) (normal unwind : BlockId)
  | unreachable
  deriving Repr, DecidableEq

namespace Op

def isTerminator : Op → Bool
  | .br .. | .condBr .. | .ret .. | .invoke .. | .unreachable => true
  | _ => false

def isPhi : Op → Bool
  | .phi .. => true
  | _ => false

def isGep : Op → Bool
  | .gep .. => true
  | _ => false

def operands : Op → List Value
  | .gep g => g.base :: g.indices
  | .phi incoming => incoming.map Prod.fst
  | .binary _ lhs rhs | .icmp _ lhs rhs => [lhs, rhs]
  | .cast _ value => [value]
  | .alloca _ | .br _ | .unreachable => []
  | .load ptr => [ptr]
  | .store value ptr => [value, ptr]
  | .call callee args | .invoke callee args _ _ => callee :: args
  | .condBr cond _ _ => [cond]
  | .ret value => value.toList

/-- Applies `f` to every operand. -/
def mapOperands (f : Value → Value) : Op → Op
  | .gep g => .gep { g with base := f g.base, indices := g.indices.map f }
  | .phi incoming => .phi (incoming.map fun (v, b) => (f v, b))
  | .binary op lhs rhs => .binary op (f lhs) (f rhs)
  | .cast op value => .cast op (f value)
  | .icmp op lhs rhs => .icmp op (f lhs) (f rhs)
  | .alloca ty => .alloca ty
  | .load ptr => .load (f ptr)
  | .store value ptr => .store (f value) (f ptr)
  | .call callee args => .call (f callee) (args.map f)
  | .br dest => .br dest
  | .condBr cond thenDest elseDest => .condBr (f cond) thenDest elseDest
  | .ret value => .ret (value.map f)
  | .invoke callee args normal unwind => .invoke (f callee) (args.map f) normal unwind
  | .unreachable => .unreachable

/-- The instructions whose results are operands, one entry per operand. -/
def uses (op : Op) : List InstId := op.operands.filterMap Value.asInst?

/-- The blocks that a terminator can go to. -/
def successors : Op → List BlockId
  | .br dest => [dest]
  | .condBr _ thenDest elseDest => [thenDest, elseDest]
  | .invoke _ _ normal unwind => [normal, unwind]
  | _ => []

/-- The blocks that a phi names. -/
def incomingBlocks : Op → List BlockId
  | .phi incoming => incoming.map Prod.snd
  | _ => []

theorem operands_mapOperands (f : Value → Value) (op : Op) :
    (op.mapOperands f).operands = op.operands.map f := by
  cases op with
  | phi incoming => simp [mapOperands, operands, Function.comp_def]
  | ret value => cases value <;> rfl
  | _ => simp [mapOperands, operands]

@[simp] theorem successors_mapOperands (f : Value → Value) (op : Op) :
    (op.mapOperands f).successors = op.successors := by
  cases op <;> rfl

@[simp] theorem incomingBlocks_mapOperands (f : Value → Value) (op : Op) :
    (op.mapOperands f).incomingBlocks = op.incomingBlocks := by
  cases op <;> simp [mapOperands, incomingBlocks, Function.comp_def]

end Op

/-! ## Instructions -/

/-- Annotations of an instruction. -/
structure Marks where
  /-- Whoever emitted the instruction says that it addresses a dispatch table. -/
  dispatch : Bool := false
  /-- The users of this address computation were moved to a tagged pointer. -/
  tagged : Bool := false
  deriving Repr, DecidableEq

structure Inst where
  op : Op
  ty : Ty
  name : Option String
  block : BlockId
  users : List InstId := []
  marks : Marks := {}
  deriving Repr, DecidableEq

/-- An instruction that has no place yet. -/
structure Draft where
  op : Op
  ty : Ty
  name : Option String := none
  deriving Repr, DecidableEq

end PtrTag
