import PtrTag.Func.Text
import PtrTag.Layout.Path

/-!
# `PtrTag/Func/Eval.lean` — what a value is at run time

For given arguments and addresses of globals, the value of an operand is a word: constants, arguments
and globals are read off, and an instruction is computed from its operands. Only pure instructions
have a value here; a phi, a load or a call has none.

A result is stored unsigned at the width of its type, a pointer at the width of the layout's pointers.
Where an operation reads an operand as a signed number, the sign is that of the operand's own type.

The recursion follows operands, and operands can form a cycle, so it runs on fuel: `Func.eval` allows
as many steps as there are instructions, and one more. Running out is a result of its own
(`EvalStop.depth`), apart from every fault.
-/

set_option autoImplicit false

namespace PtrTag

/-- The outside world of one activation. -/
structure Env where
  args : List Word := []
  globals : String → Option Word := fun _ => none

/-- Binds a global to an address. -/
def Env.bind (env : Env) (name : String) (address : Word) : Env :=
  { env with globals := fun n => if n = name then some address else env.globals n }

/-- Why an evaluation gives no value. -/
inductive EvalStop where
  | fault (cause : Fault)
  | depth
  deriving Repr, DecidableEq

/-- The bits that a value of a type takes up in a word. -/
def Layout.width (L : Layout) : Ty → Nat
  | .ptr => L.pointerBits
  | ty => ty.bitWidth

namespace Func

/-- The outcome of a lookup, as the outcome of an evaluation. -/
def found {α : Type} : Except Fault α → Except EvalStop α
  | .ok a => .ok a
  | .error e => .error (.fault e)

section Rules

variable (f : Func) (L : Layout) (env : Env)

/-- The value of an operand, where `inst` gives the values of instructions. -/
def evalValue (inst : InstId → Except EvalStop Word) : Value → Except EvalStop Word
  | .const (.int value bits) => .ok (Word.low value bits)
  | .const .null => .ok 0
  | .const (.undef _) => .error (.fault (.notEvaluable "undef"))
  | .arg index => do
    let raw ← found (env.args[index]?.elim (.error (.unknownArg index)) .ok)
    let p ← found (f.param index)
    return Word.low raw (L.width p.ty)
  | .global name =>
    (env.globals name).elim (.error (.fault (.notEvaluable ("@" ++ name)))) .ok
  | .inst id => inst id

/-- The value of an operand as a signed number of its own width. -/
def evalSigned (inst : InstId → Except EvalStop Word) (v : Value) : Except EvalStop Word := do
  let ty ← found (f.valueType v)
  let w ← f.evalValue L env inst v
  return Word.signed w (L.width ty)

/-- An address moved along the steps of a path. -/
def evalPath (inst : InstId → Except EvalStop Word) :
    Word → List (Step × Value) → Except EvalStop Word
  | address, [] => .ok address
  | address, (.field offset, _) :: rest => evalPath inst (address + .ofNat 64 offset) rest
  | address, (.scaled stride, index) :: rest => do
    let w ← f.evalSigned L env inst index
    evalPath inst (address + w * .ofNat 64 stride) rest

def evalCmp (inst : InstId → Except EvalStop Word) (op : CmpOp) (lhs rhs : Value) :
    Except EvalStop Bool := do
  match op with
  | .eq => return (← f.evalValue L env inst lhs) == (← f.evalValue L env inst rhs)
  | .ne => return (← f.evalValue L env inst lhs) != (← f.evalValue L env inst rhs)
  | .ult => return (← f.evalValue L env inst lhs).ult (← f.evalValue L env inst rhs)
  | .slt => return (← f.evalSigned L env inst lhs).slt (← f.evalSigned L env inst rhs)

/-- The result of the operation of instruction `id`, before it is cut to the width of its type. -/
def evalOp (inst : InstId → Except EvalStop Word) (id : InstId) : Op → Except EvalStop Word
  | .gep g => do
    let base ← f.evalValue L env inst g.base
    let steps ← found (L.steps g.source g.indices)
    f.evalPath L env inst base (steps.zip g.indices)
  | .binary op lhs rhs => do
    let a ← if op = .ashr then f.evalSigned L env inst lhs else f.evalValue L env inst lhs
    let b ← f.evalValue L env inst rhs
    return op.apply a b
  | .cast .sext value => f.evalSigned L env inst value
  | .cast _ value => f.evalValue L env inst value
  | .icmp op lhs rhs => do
    return if ← f.evalCmp L env inst op lhs rhs then 1 else 0
  | _ => .error (.fault (.notEvaluable (f.instText id)))

/-- The value of an instruction, by at most `fuel` nested instructions. -/
def evalInst : Nat → InstId → Except EvalStop Word
  | 0, _ => .error .depth
  | fuel + 1, id => do
    let inst ← found (f.inst id)
    let w ← f.evalOp L env (evalInst fuel) id inst.op
    return Word.low w (L.width inst.ty)

/-- The value of an operand. -/
def eval (v : Value) : Except EvalStop Word :=
  f.evalValue L env (f.evalInst L env (f.insts.size + 1)) v

end Rules

end Func

end PtrTag
