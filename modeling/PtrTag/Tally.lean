/-!
# `PtrTag/Tally.lean` — what a run did

A `Tally` counts the functions that a run met, the address computations in them, and what became of
each one. Tallies add up counter by counter.
-/

set_option autoImplicit false

namespace PtrTag

structure Tally where
  /-- Functions met. -/
  seen : Nat := 0
  /-- Functions that were worked on. -/
  instrumented : Nat := 0
  /-- Address computations in those functions. -/
  candidates : Nat := 0
  /-- Address computations that got a tagged pointer. -/
  tagged : Nat := 0
  zeroIndex : Nat := 0
  dispatch : Nat := 0
  vector : Nat := 0
  alreadyTagged : Nat := 0
  /-- Edges that were split to make room for code. -/
  edgesSplit : Nat := 0
  /-- Tagged pointers whose offset is a constant. -/
  constantOffsets : Nat := 0
  /-- Tagged pointers whose offset is computed. -/
  dynamicOffsets : Nat := 0
  deriving Repr, DecidableEq

namespace Tally

def add (a b : Tally) : Tally where
  seen := a.seen + b.seen
  instrumented := a.instrumented + b.instrumented
  candidates := a.candidates + b.candidates
  tagged := a.tagged + b.tagged
  zeroIndex := a.zeroIndex + b.zeroIndex
  dispatch := a.dispatch + b.dispatch
  vector := a.vector + b.vector
  alreadyTagged := a.alreadyTagged + b.alreadyTagged
  edgesSplit := a.edgesSplit + b.edgesSplit
  constantOffsets := a.constantOffsets + b.constantOffsets
  dynamicOffsets := a.dynamicOffsets + b.dynamicOffsets

instance : Add Tally := ⟨add⟩

/-- The address computations that were left alone. -/
def skipped (t : Tally) : Nat := t.zeroIndex + t.dispatch + t.vector + t.alreadyTagged

/-- A report of six lines, without a line break at the end. -/
def text (t : Tally) : String :=
  "=== canonptr statistics ===\n"
    ++ "Functions:    " ++ toString t.seen ++ " (" ++ toString t.instrumented ++ " instrumented)\n"
    ++ "Candidates:   " ++ toString t.candidates ++ "\n"
    ++ "Rewritten:    " ++ toString t.tagged ++ " (" ++ toString t.constantOffsets ++ " constant, "
    ++ toString t.dynamicOffsets ++ " dynamic offsets)\n"
    ++ "Skipped:      " ++ toString t.skipped ++ " (zero-index " ++ toString t.zeroIndex
    ++ ", vtable " ++ toString t.dispatch ++ ", vector " ++ toString t.vector
    ++ ", already rewritten " ++ toString t.alreadyTagged ++ ")\n"
    ++ "Edges split:  " ++ toString t.edgesSplit

end Tally

end PtrTag
