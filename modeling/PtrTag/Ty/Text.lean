import PtrTag.Ty.Basic

/-!
# `PtrTag/Ty/Text.lean` — how a type is written

Items of a list are set apart by a comma and a blank. A structure keeps its blanks also when it has
no field, a packed structure stands in angle brackets, and the mark of a variable argument list is
written as one more parameter.
-/

set_option autoImplicit false

namespace PtrTag

/-- Joins texts by a comma and a blank. -/
def commaSep : List String → String
  | [] => ""
  | [s] => s
  | s :: t :: rest => s ++ ", " ++ commaSep (t :: rest)

namespace Ty

mutual

/-- The written form of a type. -/
def text : Ty → String
  | .void => "void"
  | .int bits => "i" ++ toString bits
  | .ptr => "ptr"
  | .array len elem => "[" ++ toString len ++ " x " ++ text elem ++ "]"
  | .vector len elem => "<" ++ toString len ++ " x " ++ text elem ++ ">"
  | .struct fields packed =>
    let body := "\x7b " ++ commaSep (texts fields) ++ " \x7d"
    if packed then "<" ++ body ++ ">" else body
  | .func ret params varargs =>
    let rest := if varargs then ["..."] else []
    text ret ++ " (" ++ commaSep (texts params ++ rest) ++ ")"

def texts : List Ty → List String
  | [] => []
  | t :: ts => text t :: texts ts

end

theorem texts_eq_map (ts : List Ty) : texts ts = ts.map text := by
  induction ts with
  | nil => rfl
  | cons t ts ih => simp [texts, ih]

end Ty

end PtrTag
