import PtrTag.Func.Edit

/-!
# `PtrTag/Func/Uses.lean` — replacing the uses of a result

`Edit.replaceUses` changes the operands of one user, `Edit.replaceAllUses` those of every user. Both
keep the use lists in step with the operands, and both count the operands that they changed.
-/

set_option autoImplicit false

namespace PtrTag

/-- Drops each entry that repeats the one before it. -/
def dropRepeats : List InstId → List InstId
  | [] => []
  | [a] => [a]
  | a :: b :: rest => if a = b then dropRepeats (b :: rest) else a :: dropRepeats (b :: rest)

/-- Puts `repl` in the place of `gone` in the operands of `user`, which has `times` of them. The use
list of `gone` loses every entry of `user`, and that of `repl`, if it is a result, gains as many as
there were operands. -/
def Func.redirect (f : Func) (user gone : InstId) (repl : Value) (times : Nat) : Func :=
  let f := f.modifyInst user fun inst => { inst with op := inst.op.mapOperands (.subst gone repl) }
  let f := f.modifyInst gone fun inst => { inst with users := inst.users.filter (· != user) }
  match repl with
  | .inst id => f.addUses id user times
  | _ => f

namespace Edit

/-- Replaces the operands of `user` that are the result of `gone`. Returns how many there were; a user
that has none is left alone. -/
def replaceUses (user gone : InstId) (repl : Value) : Edit Nat := do
  ask (·.checkValue repl)
  let _ ← ask (·.inst gone)
  let inst ← ask (·.inst user)
  let times := inst.op.uses.count gone
  if times = 0 then
    return 0
  else do
    modify (·.redirect user gone repl times)
    return times

/-- Replaces the uses of `gone` in each of the users in turn, and adds up the counts. -/
def replaceUsesIn (gone : InstId) (repl : Value) : List InstId → Edit Nat
  | [] => return 0
  | user :: rest => do
    let times ← replaceUses user gone repl
    let others ← replaceUsesIn gone repl rest
    return times + others

/-- Replaces every use of `gone`. Returns how many operands were changed. -/
def replaceAllUses (gone : InstId) (repl : Value) : Edit Nat := do
  let users ← ask (·.users gone)
  replaceUsesIn gone repl (dropRepeats users)

end Edit

end PtrTag
