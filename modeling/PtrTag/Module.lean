import PtrTag.Func.Basic
import PtrTag.Layout.Path

/-!
# `PtrTag/Module.lean` — modules

A module holds functions and global variables, each in the order in which it was first added, and the
one layout that they share. Adding a second function or global of a name puts it in the place of the
first.
-/

set_option autoImplicit false

namespace PtrTag

/-- Puts `x` in the place of the first entry that has its key, or at the end. -/
def upsert {α : Type} (key : α → String) (x : α) : List α → List α
  | [] => [x]
  | y :: ys => if key y = key x then x :: ys else y :: upsert key x ys

structure Global where
  name : String
  ty : Ty
  isConstant : Bool
  deriving Repr, DecidableEq

structure Module where
  name : String
  functions : List Func := []
  globals : List Global := []
  layout : Layout := .lp64

namespace Module

def addFunction (m : Module) (f : Func) : Module :=
  { m with functions := upsert Func.name f m.functions }

def addGlobal (m : Module) (g : Global) : Module :=
  { m with globals := upsert Global.name g m.globals }

def function? (m : Module) (name : String) : Option Func := m.functions.find? (·.name == name)

def global? (m : Module) (name : String) : Option Global := m.globals.find? (·.name == name)

def globalNames (m : Module) : List String := m.globals.map Global.name

/-! ## Sizes -/

/-- The sum of a measure over all functions. -/
def total (m : Module) (size : Func → Nat) : Nat := m.functions.foldl (fun n f => n + size f) 0

def gepCount (m : Module) : Nat := m.total (·.geps.length)

def instCount (m : Module) : Nat := m.total (·.instructions.length)

def blockCount (m : Module) : Nat := m.total (·.order.length)

end Module

end PtrTag
