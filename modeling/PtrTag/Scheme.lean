import PtrTag.Fault

/-!
# `PtrTag/Scheme.lean` — the tagging scheme

One bit of every 64-bit pointer is a flag. If it is set, the bits from `offsetShift` upwards hold the
byte offset of a derived pointer from the pointer that it came from:

```text
 63            49  48  47                              0
+----------------+----+--------------------------------+
| offset         |flag| address                        |
+----------------+----+--------------------------------+
```

Some functions and some address computations are left alone for the way they are named. The `Cues` of
a scheme are the beginnings of such names.
-/

set_option autoImplicit false

namespace PtrTag

/-- Whether `s` begins with `lead`. -/
def startsWith (lead s : String) : Bool := lead.toList.isPrefixOf s.toList

/-- Beginnings of names that are left alone. -/
structure Cues where
  /-- Functions of the runtime. -/
  runtime : String := "__canonptr_"
  /-- Pointers to a dispatch table. -/
  table : String := "vtable"
  /-- Offsets of a virtual base. -/
  virtualBase : String := "vbase.offset"
  /-- Symbols of dispatch tables. -/
  tableSymbol : String := "_ZTV"
  deriving Repr, DecidableEq

structure Scheme where
  flagBit : Nat := 48
  offsetShift : Nat := 49
  cues : Cues := {}
  deriving Repr, DecidableEq

namespace Scheme

/-- Both positions are bits of a word, and the offset stands above the flag. -/
def validate (s : Scheme) : Except Fault Unit :=
  if 64 ≤ s.flagBit then .error (.badBits (.flagTooHigh s.flagBit))
  else if 64 ≤ s.offsetShift then .error (.badBits (.shiftTooHigh s.offsetShift))
  else if s.offsetShift ≤ s.flagBit then .error (.badBits (.shiftBelowFlag s.offsetShift s.flagBit))
  else .ok ()

/-- The word in which only the flag is set. -/
def flagMask (s : Scheme) : Word := 1 <<< min s.flagBit 64

/-- The number of bits that an offset has. -/
def offsetBits (s : Scheme) : Nat := 64 - s.offsetShift

theorem validate_eq_ok_iff (s : Scheme) :
    s.validate = .ok () ↔ s.flagBit < s.offsetShift ∧ s.offsetShift < 64 := by
  unfold validate
  split
  · simp; omega
  split
  · simp; omega
  split
  · simp; omega
  · simp; omega

end Scheme

end PtrTag
