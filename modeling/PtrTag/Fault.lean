import PtrTag.Value
import PtrTag.Ty.Text

/-!
# `PtrTag/Fault.lean` — what can go wrong

Each way in which an operation can be refused is one constructor of `Fault`, with the data that its
text needs. The wording of all of them is `Fault.message`, and nothing else in the library spells out
an error.
-/

set_option autoImplicit false

namespace PtrTag

/-- The form that an operation wants an instruction to have. -/
inductive Form where
  | phi
  | invoke
  | gep
  deriving Repr, DecidableEq

def Form.text : Form → String
  | .phi => "a phi"
  | .invoke => "an invoke"
  | .gep => "a getelementptr"

/-- Bit positions that do not fit a tagged pointer. -/
inductive BitFlaw where
  | flagTooHigh (flag : Nat)
  | shiftTooHigh (shift : Nat)
  | shiftBelowFlag (shift flag : Nat)
  deriving Repr, DecidableEq

def BitFlaw.message : BitFlaw → String
  | .flagTooHigh flag => s!"flag_bit must be below 64 (got {flag})"
  | .shiftTooHigh shift => s!"offset_shift must be below 64 (got {shift})"
  | .shiftBelowFlag shift flag => s!"offset_shift ({shift}) must be above flag_bit ({flag})"

/-- Ways in which a function is not well formed. Blocks are given by their name; an instruction is
given by its place, or by the text of its result where that is what the message shows. -/
inductive Defect where
  | emptyBlock (block : String)
  | unterminated (block : String)
  | repeated (inst : InstId)
  | strayParent (inst : InstId)
  | earlyTerminator (inst : InstId) (block : String)
  | lateToPhi (inst : InstId) (block : String)
  | phiEdges (phi block : String)
  | useList (inst : String)
  | onlyPhis (block : String)
  deriving Repr, DecidableEq

def Defect.message : Defect → String
  | .emptyBlock block => s!"block '{block}' is empty"
  | .unterminated block => s!"block '{block}' does not end in a terminator"
  | .repeated inst => inst.text ++ " appears in more than one position"
  | .strayParent inst => inst.text ++ " has a stale parent block"
  | .earlyTerminator inst block => "terminator " ++ inst.text ++ s!" in the middle of '{block}'"
  | .lateToPhi inst block => "phi " ++ inst.text ++ s!" is not grouped at the head of '{block}'"
  | .phiEdges phi block => s!"phi {phi} in '{block}' does not match the block's predecessors"
  | .useList inst => s!"use list of {inst} is out of sync"
  | .onlyPhis block => s!"block '{block}' has no terminator"

inductive Fault where
  /-- A terminator that hands its result to no block. -/
  | noInsertionPoint (inst : InstId)
  | noEntryBlock (func : String)
  | indexTooWide (bits pointerBits : Nat)
  | indexNotInteger (ty : Ty)
  | fieldNotConstant
  | fieldOutOfRange (index : Int) (ty : Ty)
  | notIndexable (ty : Ty)
  | unknownInst (inst : InstId)
  | unknownBlock (block : BlockId)
  | unknownArg (index : Nat)
  | wrongForm (inst : InstId) (wanted : Form)
  | notEvaluable (what : String)
  | badBits (flaw : BitFlaw)
  | malformed (func : String) (defect : Defect)
  deriving Repr, DecidableEq

def Fault.message : Fault → String
  | .noInsertionPoint inst =>
    "No insertion point after " ++ inst.text ++ ": terminator has no normal-path successor"
  | .noEntryBlock func => s!"Function '{func}' has no entry block"
  | .indexTooWide bits pointerBits =>
    s!"Index of type i{bits} is wider than the {pointerBits}-bit pointer width"
  | .indexNotInteger ty => "GEP index has non-integer type " ++ ty.text
  | .fieldNotConstant => "Struct field index must be a constant integer"
  | .fieldOutOfRange index ty => s!"Struct field index {index} out of range for " ++ ty.text
  | .notIndexable ty => "Cannot index into type " ++ ty.text
  | .unknownInst inst => "Unknown instruction: " ++ inst.text
  | .unknownBlock block => "Unknown block: " ++ block.text
  | .unknownArg index => s!"Unknown argument #{index}"
  | .wrongForm inst wanted => "Instruction " ++ inst.text ++ " is not " ++ wanted.text
  | .notEvaluable what => "Cannot evaluate " ++ what
  | .badBits flaw => "Invalid configuration: " ++ flaw.message
  | .malformed func defect =>
    s!"Verification failed in function '{func}': " ++ defect.message

end PtrTag
