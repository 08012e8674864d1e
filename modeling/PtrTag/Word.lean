/-!
# `PtrTag/Word.lean` — the 64-bit word and its narrower readings

Every address, every integer constant and every result of an evaluation is one `Word`. An integer
of a narrower type lives in the same word: **unsigned** it is the word with only its low bits kept
(`Word.low`), **signed** the word whose upper bits repeat the sign bit of the narrow value
(`Word.signed`).

Arithmetic on words is that of `BitVec 64`, so it wraps. A width may be any natural number: a width
of 64 or more asks for nothing, and so does the width 0 of a signed reading, which has no sign bit to
repeat.
-/

set_option autoImplicit false

namespace PtrTag

/-- A 64-bit two's complement word. -/
abbrev Word := BitVec 64

namespace Word

/-- The low `bits` bits of a word, with zeros above them. -/
def low (w : Word) (bits : Nat) : Word :=
  if 64 ≤ bits then w else (w.setWidth bits).setWidth 64

/-- The low `bits` bits of a word, with copies of the topmost of them above. -/
def signed (w : Word) (bits : Nat) : Word :=
  if bits = 0 ∨ 64 ≤ bits then w else (w.setWidth bits).signExtend 64

/-- A word read as a position in a list: none when the word is negative. -/
def index? (w : Word) : Option Nat :=
  if w.toInt < 0 then none else some w.toNat

@[simp] theorem low_of_le {w : Word} {bits : Nat} (h : 64 ≤ bits) : low w bits = w := by
  simp [low, h]

@[simp] theorem signed_of_le {w : Word} {bits : Nat} (h : 64 ≤ bits) : signed w bits = w := by
  simp [signed, h]

@[simp] theorem signed_zero (w : Word) : signed w 0 = w := by
  simp [signed]

end Word

end PtrTag
