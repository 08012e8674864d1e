import PtrTag.Word
import PtrTag.Ty.Basic

/-!
# `PtrTag/Value.lean` — operands

A value is anything an instruction can consume: the result of an instruction of the same function, an
argument, a constant, or the address of a global.

An integer constant stores a whole word next to its width. `Const.ofWord` stores it **normalised**,
that is as the signed reading of its low bits; a constant may also be stored as it stands.
-/

set_option autoImplicit false

namespace PtrTag

/-- The place of an instruction in the arena of its function. -/
abbrev InstId := Nat

/-- The place of a block in the arena of its function. -/
abbrev BlockId := Nat

def InstId.text (id : InstId) : String := "%" ++ toString id

def BlockId.text (id : BlockId) : String := "bb" ++ toString id

inductive Const where
  | int (value : Word) (bits : Nat)
  | null
  | undef (ty : Ty)
  deriving Repr, DecidableEq

namespace Const

/-- The normalised integer constant of a width. -/
def ofWord (value : Word) (bits : Nat) : Const := .int (Word.signed value bits) bits

def ty : Const → Ty
  | .int _ bits => .int bits
  | .null => .ptr
  | .undef ty => ty

def asWord? : Const → Option Word
  | .int value _ => some value
  | _ => none

end Const

inductive Value where
  | inst (id : InstId)
  | arg (index : Nat)
  | const (c : Const)
  | global (name : String)
  deriving Repr, DecidableEq

namespace Value

/-- The normalised integer constant of a width, as an operand. -/
def ofWord (value : Word) (bits : Nat) : Value := .const (.ofWord value bits)

def null : Value := .const .null

def asInst? : Value → Option InstId
  | .inst id => some id
  | _ => none

/-- The stored word of an integer constant. -/
def asWord? : Value → Option Word
  | .const c => c.asWord?
  | _ => none

/-- An integer constant that stores zero, or the null pointer. -/
def isZero : Value → Bool
  | .const (.int value _) => value == 0
  | .const .null => true
  | _ => false

/-- Puts `repl` in the place of the result of `gone`, and leaves every other value. -/
def subst (gone : InstId) (repl : Value) : Value → Value
  | .inst id => if id = gone then repl else .inst id
  | v => v

end Value

end PtrTag
