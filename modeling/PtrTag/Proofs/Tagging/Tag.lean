import PtrTag.Tagging.Tag
import PtrTag.Proofs.Tagging.Displacement

/-!
# `PtrTag/Proofs/Tagging/Tag.lean` — the code that tags a pointer

The code behind an address computation `gep` computes `o + ((y <<< shift) &&& mask)`, where `o` is
the pointer, `y` has the low bits of its displacement and `mask` repeats the flag of `o` in every
bit. So the new pointer is `o` itself if the flag is clear, and it has a value exactly if `o` has one
(`Func.Tagged`).

No position of the scheme is too high for that. A shift past the end of the word leaves nothing of it,
so a flag there is always clear and an offset there is lost: the code does what it would do for the
positions that `Scheme.inWord` gives, and those of a valid scheme are the ones that it has.
-/

set_option autoImplicit false

namespace PtrTag

namespace Func

/-- Code was emitted that takes `v` to a word that `rel` relates to the value of `v`. -/
structure Carries (L : Layout) (deps : InstId → Prop) (anchor : InstId) (f : Func) (v : Value)
    (rel : Word → Word → Prop) (r : Value) (f' : Func) : Prop where
  grows : f.Grows deps anchor f'
  usable : f'.Usable deps (.int 64) r
  means : ∀ env F ρ a, Obeys L env F ρ f f' → F.evalValue L env ρ v = .ok a →
    ∃ y, F.evalValue L env ρ r = .ok y ∧ rel a y

end Func

theorem Value.eq_const_of_asWord? {v : Value} {w : Word} (h : v.asWord? = some w) :
    ∃ bits, v = .const (.int w bits) := by
  cases v with
  | const c =>
    cases c with
    | int value bits =>
      obtain rfl : value = w := Option.some.inj h
      exact ⟨bits, rfl⟩
    | _ => exact absurd h (by simp [asWord?, Const.asWord?])
  | _ => exact absurd h (by simp [asWord?])

/-- How far a shift by the constant `n` goes. -/
def Word.reach (n : Nat) : Nat := min (BitVec.ofNat 64 n).toNat 64

theorem Word.shift_amount (n : Nat) : min (Word.low (.ofNat 64 n) 64).toNat 64 = Word.reach n := by
  rw [Word.low_of_le (Nat.le_refl 64), Word.reach]

/-- The scheme with the positions that the emitted shifts go to. -/
def Scheme.inWord (s : Scheme) : Scheme :=
  { s with flagBit := Word.reach s.flagBit, offsetShift := Word.reach s.offsetShift }

theorem Scheme.inWord_of_validate {s : Scheme} (hs : s.validate = .ok ()) : s.inWord = s := by
  obtain ⟨hflag, hshift⟩ := s.validate_eq_ok_iff.mp hs
  have hreach : ∀ n, n < 64 → Word.reach n = n := fun n hn => by
    rw [Word.reach, BitVec.toNat_ofNat]
    omega
  rw [inWord, hreach _ hshift, hreach _ (by omega)]

namespace Edit

open Func

variable {deps : InstId → Prop} {anchor : InstId} {f : Func} (L : Layout)

/-! ## The displacement as a word -/

theorem yields_emitResize_word (h : f.Ready deps anchor) {v : Value} {bits : Nat}
    (hv : f.Usable deps (.int bits) v) (name : Option String) :
    Yields (emitResize anchor v (.int 64) name) f
      (Carries L deps anchor f v fun a y => bits ≤ 64 → Word.low y bits = Word.low a bits) := by
  cases hword : v.asWord? with
  | none =>
    refine (yields_emitResize L h hv hword 64 name).mono fun r f' hr => ?_
    refine ⟨hr.grows, hr.usable, fun env F ρ a hobeys ha => ?_⟩
    refine ⟨Word.resize a bits 64, (hr.means env F ρ hobeys _).mpr (by rw [ha]; rfl), fun hle => ?_⟩
    unfold Word.resize
    split
    · rfl
    · have hlt : bits < 64 := by omega
      rw [if_pos hlt, Word.low_of_le (Nat.le_refl 64), Word.low_signed]
  | some w =>
    obtain ⟨bits', rfl⟩ := Value.eq_const_of_asWord? hword
    obtain rfl : bits' = bits := Ty.int.inj (Except.ok.inj hv.type)
    refine Yields.ask_bind (a := bits') rfl ?_
    by_cases heq : bits' = 64
    · subst heq
      simp only [Ty.bitWidth, if_true]
      exact Yields.pure ⟨Grows.refl h.coherent, hv, fun env F ρ a _ ha => ⟨a, ha, fun _ => rfl⟩⟩
    · simp only [Ty.bitWidth, heq, if_false, hword]
      refine Yields.pure ⟨Grows.refl h.coherent, usable_ofWord _ _, fun env F ρ a _ ha => ?_⟩
      obtain rfl : Word.low w bits' = a := Except.ok.inj ha
      refine ⟨_, evalValue_ofWord w 64, fun _ => ?_⟩
      rw [Word.low_low, Word.low_of_le (Nat.le_refl 64)]

/-- A left shift by a known amount; of a constant it is carried out at once. -/
theorem yields_emitShl (h : f.Ready deps anchor) {v : Value} (hv : f.Usable deps (.int 64) v)
    (n : Nat) (name : Option String) :
    Yields (emitBinary anchor .shl v (.ofWord (.ofNat 64 n) 64) name) f
      (Carries L deps anchor f v fun a y => y = a <<< Word.reach n) := by
  cases hword : v.asWord? with
  | none =>
    refine (yields_emitBinary L h hv (usable_ofWord _ _) (.inl hword) (by decide) name).mono
      fun r f' hr => ?_
    refine ⟨hr.grows, hr.usable, fun env F ρ a hobeys ha => ⟨a <<< Word.reach n, ?_, rfl⟩⟩
    refine (hr.means env F ρ hobeys _).mpr ?_
    rw [ha, evalValue_ofWord, ok_bind, ok_bind, BinOp.apply, Word.shift_amount,
      Layout.width_int, Word.low_of_le (Nat.le_refl 64)]
    rfl
  | some w =>
    obtain ⟨bits, rfl⟩ := Value.eq_const_of_asWord? hword
    obtain rfl : bits = 64 := Ty.int.inj (Except.ok.inj hv.type)
    refine Yields.ask_bind hv.type ?_
    refine Yields.pure ⟨Grows.refl h.coherent, usable_ofWord _ _, fun env F ρ a _ ha => ?_⟩
    obtain rfl : Word.low w 64 = a := Except.ok.inj ha
    refine ⟨_, evalValue_ofWord _ _, ?_⟩
    have hamount : min (Word.signed (.ofNat 64 n) 64).toNat 64 = Word.reach n := by
      rw [Word.signed_of_le (Nat.le_refl 64), Word.reach]
    rw [Word.low_of_le (Nat.le_refl 64), Word.low_of_le (Nat.le_refl 64), BinOp.apply, hamount]

end Edit

/-! ## The parts of the code -/

/-- Emits the mask that the flag of a word spreads to. -/
def Edit.emitMask (s : Scheme) (anchor : InstId) (address : Value) (name : Option String) :
    Edit Value := do
  let upper ← emitBinary anchor .lshr address (.ofWord (.ofNat 64 s.flagBit) 64)
    (derivedName name "upperbits")
  let flag ← emitBinary anchor .and upper (.ofWord 1 64) (derivedName name "enable.sel")
  emitNeg anchor flag (derivedName name "enable.bit")

/-- Emits the displacement as a word, at the place of the offset. -/
def Edit.emitShifted (s : Scheme) (L : Layout) (anchor gep : InstId) (name : Option String) :
    Edit (Value × Bool) := do
  let displacement ← emitDisplacement anchor L gep name
  let offset ← emitResize anchor (displacement.toValue L.pointerBits) (.int 64) none
  let shifted ← emitBinary anchor .shl offset (.ofWord (.ofNat 64 s.offsetShift) 64)
    (derivedName name "shifted")
  return (shifted, displacement.isConstant)

theorem Edit.emitTagged_eq (s : Scheme) (L : Layout) (anchor gep : InstId) (ty : Ty)
    (name : Option String) : emitTagged s L anchor gep ty name = (do
      let address ← emit anchor (.cast .ptrToInt (.inst gep)) (.int 64) (derivedName name "int")
      let mask ← emitMask s anchor (.inst address) name
      let (shifted, constant) ← emitShifted s L anchor gep name
      let tag ← emitBinary anchor .and shifted mask none
      let sum ← emitBinary anchor .add (.inst address) tag (derivedName name "added")
      let replacement ← emit anchor (.cast .intToPtr sum) ty (derivedName name "newptr")
      return (replacement, constant)) := by
  simp only [emitTagged, emitPtrToInt, emitIntToPtr, emitMask, emitShifted, bind_assoc, pure_bind,
    bind_map_left]

namespace Func

/-- Code was emitted that shifts the sum of `terms` to the place of the offset. -/
structure Shifts (s : Scheme) (L : Layout) (deps : InstId → Prop) (anchor : InstId) (f : Func)
    (terms : List (Step × Value)) (shifted : Value) (f' : Func) : Prop where
  grows : f.Grows deps anchor f'
  usable : f'.Usable deps (.int 64) shifted
  means : ∀ env F ρ d, Obeys L env F ρ f f' → F.evalPath L env ρ 0 terms = .ok d →
    ∃ y : Word, F.evalValue L env ρ shifted = .ok (y <<< s.offsetShift) ∧
      (L.pointerBits ≤ 64 → (∀ t ∈ terms, t.2.IsNormal) →
        Word.low y L.pointerBits = Word.low d L.pointerBits)

end Func

namespace Edit

open Func

variable {deps : InstId → Prop} {anchor : InstId} {f : Func} (L : Layout) {s : Scheme}

/-- The mask has every bit set if the flag of the word is set, and none otherwise. -/
theorem yields_emitMask (h : f.Ready deps anchor) {address : Value}
    (hv : f.Usable deps (.int 64) address) (hword : address.asWord? = none) (name : Option String) :
    Yields (emitMask s anchor address name) f
      (Emitted L deps anchor f (.int 64) fun env F ρ => do
        let a ← F.evalValue L env ρ address
        return 0 - (a >>> s.inWord.flagBit &&& 1)) := by
  refine (yields_emitBinary L h hv (usable_ofWord _ _) (.inl hword) (by decide) _).bind
    fun upper f₁ h₁ => ?_
  have r₁ := h.grow h₁.grows
  refine (yields_emitBinary L r₁ h₁.usable (usable_ofWord _ _) (.inl h₁.asWord?) (by decide)
    _).bind fun flag f₂ h₂ => ?_
  refine (yields_emitNeg L (r₁.grow h₂.grows) h₂.usable h₂.asWord? _).mono fun mask f₃ h₃ => ?_
  have g₂ := h₁.grows.trans h₂.grows
  refine ⟨g₂.trans h₃.grows, h₃.usable, h₃.asWord?, fun env F ρ hobeys => ?_⟩
  have b₂ := hobeys.left h₃.grows
  have hword : ∀ w : Word, Word.low w 64 = w := fun w => Word.low_of_le (Nat.le_refl 64)
  -- The mask is computed from the flag, the flag from the upper bits, and those from the word.
  have hupper := h₁.means env F ρ (b₂.left h₂.grows)
  have hflag := (h₂.means env F ρ (b₂.right h₁.grows)).trans (hupper.bind fun _ => Agree.refl _)
  have hmask := (h₃.means env F ρ (hobeys.right g₂)).trans (hflag.bind fun _ => Agree.refl _)
  simpa only [evalValue_ofWord, Layout.width_int, hword, ok_bind, bind_assoc, pure_bind,
    BinOp.apply, BitVec.toNat_ofNat, Scheme.inWord, Word.reach] using hmask

theorem yields_emitShifted (h : f.Ready deps anchor) {gep : InstId} {terms : List (Step × Value)}
    (hask : f.gepTerms L gep = .ok terms) (hterms : TermsUsable L deps f terms) (name : Option String) :
    Yields (emitShifted s L anchor gep name) f fun r f' =>
      Shifts s.inWord L deps anchor f terms r.1 f' ∧ r.2 = (constantSum? terms).isSome := by
  refine (yields_emitDisplacement L h hask hterms name).bind ?_
  rintro displacement f₁ ⟨h₁, hconstant⟩
  have r₁ := h.grow h₁.grows
  refine (yields_emitResize_word L r₁ h₁.usable none).bind fun offset f₂ h₂ => ?_
  refine (yields_emitShl L (r₁.grow h₂.grows) h₂.usable s.offsetShift _).bind fun shifted f₃ h₃ => ?_
  have g₂ := h₁.grows.trans h₂.grows
  refine Yields.pure ⟨⟨g₂.trans h₃.grows, h₃.usable, fun env F ρ d hobeys hd => ?_⟩, hconstant⟩
  have b₂ := hobeys.left h₃.grows
  obtain ⟨x, hx, hxlow⟩ := h₁.means env F ρ d (b₂.left h₂.grows) hd
  obtain ⟨y, hy, hylow⟩ := h₂.means env F ρ x (b₂.right h₁.grows) hx
  obtain ⟨_, hz, rfl⟩ := h₃.means env F ρ y (hobeys.right g₂) hy
  exact ⟨y, hz, fun hle hnormal => (hylow hle).trans (hxlow hnormal)⟩

end Edit

/-! ## The tagged pointer -/

namespace Func

/-- Code was emitted that computes a tagged copy `r` of the pointer `gep`, of the type `ty` of that
pointer; `terms` make up its displacement. The code starts with the pointer as a word, ends with the
copy, and uses only what is in `deps` in between. -/
structure Tagged (s : Scheme) (L : Layout) (deps : InstId → Prop) (anchor : InstId) (f : Func)
    (gep : InstId) (ty : Ty) (name : Option String) (terms : List (Step × Value)) (r : InstId)
    (f' : Func) : Prop where
  grows : f.Grows (fun j => j = gep ∨ deps j) anchor f'
  fresh : f.insts.size ≤ r
  size : f'.insts.size = r + 1
  inst : ∃ i, f'.insts[r]? = some i ∧ i.ty = ty ∧
    i.name = (derivedName name "newptr").filter (· != "")
  first : ∃ i, f'.insts[f.insts.size]? = some i ∧ i.op = .cast .ptrToInt (.inst gep)
  later : ∀ (id : InstId) (i : Inst), f.insts.size < id → f'.insts[id]? = some i →
    ∀ j ∈ i.op.uses, deps j
  /-- The copy has a value only if the pointer has one. -/
  back : ∀ env F ρ w, Obeys L env F ρ f f' → ρ r = .ok w → ∃ o, ρ gep = .ok o
  /-- The copy is the pointer plus its displacement in the upper bits, if the flag is set. -/
  forth : ∀ env F ρ o d, Obeys L env F ρ f f' → ρ gep = .ok o →
    F.evalPath L env ρ 0 terms = .ok d → ∃ y : Word,
      ρ r = .ok (Word.low (o + if o.getLsbD s.flagBit then y <<< s.offsetShift else 0)
        (L.width ty)) ∧
      (L.pointerBits ≤ 64 → (∀ t ∈ terms, t.2.IsNormal) →
        Word.low y L.pointerBits = Word.low d L.pointerBits)

end Func

namespace Edit

open Func

variable {deps : InstId → Prop} {anchor : InstId} {f : Func} (L : Layout)

theorem yields_emitTagged (s : Scheme) (h : f.Ready deps anchor) {gep : InstId} {ty : Ty}
    (hgep : f.valueType (.inst gep) = .ok ty) {terms : List (Step × Value)}
    (hask : f.gepTerms L gep = .ok terms) (hterms : TermsUsable L deps f terms)
    (name : Option String) :
    Yields (emitTagged s L anchor gep ty name) f fun r f' =>
      Tagged s.inWord L deps anchor f gep ty name terms r.1 f' ∧
        r.2 = (constantSum? terms).isSome := by
  rw [emitTagged_eq]
  -- Only the first instruction may use the pointer.
  have hready : f.Ready (fun j => j = gep ∨ deps j) anchor :=
    ⟨h.coherent, h.anchor, fun id hid => .inr (h.fresh id hid)⟩
  have hpointer : f.Usable (fun j => j = gep ∨ deps j) ty (.inst gep) :=
    ⟨hgep, fun j hj => .inl (Value.inst.inj hj).symm⟩
  refine (yields_emitCast_inst L hready hpointer (by decide) (.int 64) _).bind ?_
  rintro address f₁ ⟨g₁, rfl, hsize₁, ⟨i, hi, hop, hty, -⟩, h₁⟩
  have hnone : (Value.inst f.insts.size).asWord? = none := rfl
  have r₁ := h.grow g₁
  have haddress : f₁.Usable deps (.int 64) (.inst f.insts.size) :=
    hty ▸ h.usable_inst (Nat.le_refl _) hi
  refine (yields_emitMask L r₁ haddress hnone name).bind fun mask f₂ h₂ => ?_
  have r₂ := r₁.grow h₂.grows
  refine (yields_emitShifted L r₂ (h₂.grows.gepTerms (g₁.gepTerms hask))
    (TermsUsable.grow L (TermsUsable.grow L hterms g₁) h₂.grows) name).bind ?_
  rintro ⟨shifted, constant⟩ f₃ ⟨h₃, hconstant⟩
  have r₃ := r₂.grow h₃.grows
  refine (yields_emitBinary L r₃ h₃.usable (h₂.usable.grow h₃.grows) (.inr h₂.asWord?) (by decide)
    none).bind fun tag f₄ h₄ => ?_
  have g₂₄ := (h₂.grows.trans h₃.grows).trans h₄.grows
  refine (yields_emitBinary L (r₃.grow h₄.grows) (haddress.grow g₂₄) h₄.usable (.inl hnone)
    (by decide) _).bind fun sum f₅ h₅ => ?_
  refine (yields_emitCast_inst L ((r₃.grow h₄.grows).grow h₅.grows) h₅.usable (by decide) ty
    _).bind ?_
  rintro r f₆ ⟨g₆, rfl, hsize, ⟨ir, hir, -, hrty, hrname⟩, h₆⟩
  -- From the second instruction on, everything is a growth of its own.
  have g₂₅ := g₂₄.trans h₅.grows
  have g₂₆ := g₂₅.trans g₆
  have g₁₂ := g₁.trans (h₂.grows.mono fun _ => .inr)
  have g₁₃ := g₁₂.trans (h₃.grows.mono fun _ => .inr)
  have g₁₄ := g₁₃.trans (h₄.grows.mono fun _ => .inr)
  have g₁₅ := g₁₄.trans (h₅.grows.mono fun _ => .inr)
  refine Yields.pure ⟨⟨g₁₅.trans (g₆.mono fun _ => .inr), g₁₅.size, hsize, ⟨ir, hir, hrty, hrname⟩,
    ?_, ?_, ?_, ?_⟩, hconstant⟩
  · obtain ⟨more, hi'⟩ := g₂₆.kept _ i hi
    exact ⟨_, hi', hop⟩
  · intro id k hid hk j hj
    exact ((g₂₆.added id k (by omega) hk).2 j hj).2
  · -- The copy is computed from the sum, the sum from the address, and the address from the pointer.
    intro env F ρ w hobeys hw
    have b₅ := hobeys.left g₆
    obtain ⟨a, ha, -⟩ := bind_eq_ok_iff.mp ((h₆ env F ρ (hobeys.right g₁₅) w).mp hw)
    obtain ⟨a', ha', -⟩ := bind_eq_ok_iff.mp ((h₅.means env F ρ (b₅.right g₁₄) a).mp ha)
    obtain ⟨o, ho, -⟩ := bind_eq_ok_iff.mp ((h₁ env F ρ (b₅.left g₂₅) a').mp ha')
    exact ⟨o, ho⟩
  · intro env F ρ o d hobeys ho hd
    have b₅ := hobeys.left g₆
    have b₄ := b₅.left h₅.grows
    have b₃ := b₄.left h₄.grows
    have b₂ := b₃.left h₃.grows
    have hword : ∀ w : Word, Word.low w 64 = w := fun w => Word.low_of_le (Nat.le_refl 64)
    have haddress : F.evalValue L env ρ (.inst f.insts.size) = .ok o := by
      refine (h₁ env F ρ (b₂.left h₂.grows) _).mpr ?_
      rw [show F.evalValue L env ρ (.inst gep) = .ok o from ho, ok_bind, Layout.width_int, hword]
      rfl
    have hmask : F.evalValue L env ρ mask = .ok (0 - (o >>> s.inWord.flagBit &&& 1)) := by
      refine (h₂.means env F ρ (b₂.right g₁) _).mpr ?_
      rw [haddress]
      rfl
    obtain ⟨y, hshifted, hlow⟩ := h₃.means env F ρ d (b₃.right g₁₂) hd
    have htag : F.evalValue L env ρ tag =
        .ok (if o.getLsbD s.inWord.flagBit then y <<< s.inWord.offsetShift else 0) := by
      refine (h₄.means env F ρ (b₄.right g₁₃) _).mpr ?_
      rw [hshifted, hmask, ok_bind, ok_bind, Layout.width_int, hword, BinOp.apply,
        Word.and_flag_mask]
      rfl
    have hsum : F.evalValue L env ρ sum =
        .ok (o + if o.getLsbD s.inWord.flagBit then y <<< s.inWord.offsetShift else 0) := by
      refine (h₅.means env F ρ (b₅.right g₁₄) _).mpr ?_
      rw [haddress, htag, ok_bind, ok_bind, Layout.width_int, hword]
      rfl
    refine ⟨y, (h₆ env F ρ (hobeys.right g₁₅) _).mpr ?_, hlow⟩
    rw [hsum, ok_bind]
    rfl

end Edit

end PtrTag
