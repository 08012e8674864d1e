import PtrTag.Func.Basic

/-!
# `PtrTag/Func/Text.lean` — how a function is written

A result goes by its name, or by its place in the arena if it has none. An id that names nothing is
still written, so that a broken function can be looked at: an unknown argument, block or instruction
shows its number, and an operand without a type shows a question mark in its place.
-/

set_option autoImplicit false

namespace PtrTag

namespace Func

/-- The name of a result as an operand. -/
def instLabel (f : Func) (id : InstId) : String :=
  match f.insts[id]?.bind Inst.name with
  | some name => "%" ++ name
  | none => id.text

def blockLabel (f : Func) (b : BlockId) : String :=
  match f.blocks[b]? with
  | some block => "%" ++ block.name
  | none => "%" ++ b.text

def valueText (f : Func) : Value → String
  | .inst id => f.instLabel id
  | .arg index =>
    match f.params[index]? with
    | some p => "%" ++ p.name
    | none => s!"%arg{index}"
  | .const (.int value _) => toString value.toInt
  | .const .null => "null"
  | .const (.undef _) => "undef"
  | .global name => "@" ++ name

/-- An operand after its type. -/
def typedText (f : Func) (v : Value) : String :=
  let ty := match f.valueType v with
    | .ok ty => ty.text
    | .error _ => "?"
  ty ++ " " ++ f.valueText v

def argsText (f : Func) (args : List Value) : String := commaSep (args.map f.typedText)

/-- An operation with a result of type `ty`, without the name of the result. -/
def opText (f : Func) (ty : Ty) : Op → String
  | .gep g =>
    "getelementptr " ++ (if g.inbounds then "inbounds " else "")
      ++ commaSep (g.source.text :: (g.base :: g.indices).map f.typedText)
  | .phi incoming =>
    "phi " ++ ty.text ++ " "
      ++ commaSep (incoming.map fun (v, b) => "[ " ++ f.valueText v ++ ", " ++ f.blockLabel b ++ " ]")
  | .binary op lhs rhs => op.mnemonic ++ " " ++ f.typedText lhs ++ ", " ++ f.valueText rhs
  | .cast op value => op.mnemonic ++ " " ++ f.typedText value ++ " to " ++ ty.text
  | .icmp op lhs rhs => "icmp " ++ op.mnemonic ++ " " ++ f.typedText lhs ++ ", " ++ f.valueText rhs
  | .alloca allocated => "alloca " ++ allocated.text
  | .load ptr => "load " ++ ty.text ++ ", " ++ f.typedText ptr
  | .store value ptr => "store " ++ f.typedText value ++ ", " ++ f.typedText ptr
  | .call callee args =>
    "call " ++ ty.text ++ " " ++ f.valueText callee ++ "(" ++ f.argsText args ++ ")"
  | .br dest => "br label " ++ f.blockLabel dest
  | .condBr cond thenDest elseDest =>
    "br " ++ f.typedText cond ++ ", label " ++ f.blockLabel thenDest
      ++ ", label " ++ f.blockLabel elseDest
  | .ret (some value) => "ret " ++ f.typedText value
  | .ret none => "ret void"
  | .invoke callee args normal unwind =>
    "invoke " ++ ty.text ++ " " ++ f.valueText callee ++ "(" ++ f.argsText args ++ ") to label "
      ++ f.blockLabel normal ++ " unwind label " ++ f.blockLabel unwind
  | .unreachable => "unreachable"

/-- One instruction as a line of text. -/
def instText (f : Func) (id : InstId) : String :=
  match f.insts[id]? with
  | none => "<unknown " ++ id.text ++ ">"
  | some inst =>
    let body := f.opText inst.ty inst.op
    if inst.ty.isVoid then body else f.instLabel id ++ " = " ++ body

/-- A block: its name, then its instructions, each on a line of its own. -/
def blockText (f : Func) (b : BlockId) : String :=
  let lines := (f.instsOf b).map fun id => "  " ++ f.instText id ++ "\n"
  f.blocks[b]?.elim "" Block.name ++ ":\n" ++ String.join lines

/-- The blocks, with an empty line between two of them. -/
def blocksText (f : Func) : List BlockId → String
  | [] => ""
  | [b] => f.blockText b
  | b :: bs => f.blockText b ++ "\n" ++ f.blocksText bs

def text (f : Func) : String :=
  let params := commaSep (f.params.map fun p => p.ty.text ++ " %" ++ p.name)
  let head := f.ret.text ++ " @" ++ f.name ++ "(" ++ params ++ ")"
  if f.isDeclaration then "declare " ++ head ++ "\n"
  else "define " ++ head ++ " \x7b\n" ++ f.blocksText f.order ++ "\x7d\n"

end Func

end PtrTag
