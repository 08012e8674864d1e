import PtrTag.Word
import Mathlib.Data.BitVec

/-!
# `PtrTag/Proofs/Word.lean` — arithmetic on the low bits of a word

Pointers of width `bits` are computed in whole words, and only their low bits count. Two words with
the same low bits are interchangeable under every operator that carries nothing downwards, and the
signed reading of a narrow value has the same low bits as the value itself.

Right shifts do carry downwards, and a shift amount counts in full. What makes them agree between the
two readings of a narrow number is that a **negative** amount is far in either of them
(`Word.low_eq_self_or_far`): it pushes every bit of the narrow number out.
-/

set_option autoImplicit false

namespace PtrTag

namespace Word

variable {bits : Nat} {a a' b b' : Word}

theorem low_eq_low_iff : low a bits = low b bits ↔ a.setWidth bits = b.setWidth bits := by
  by_cases h : 64 ≤ bits
  · rw [low_of_le h, low_of_le h]
    refine ⟨fun he => by rw [he], fun he => ?_⟩
    have := congrArg (BitVec.setWidth 64) he
    rwa [BitVec.setWidth_setWidth_of_le _ h, BitVec.setWidth_setWidth_of_le _ h,
      BitVec.setWidth_eq, BitVec.setWidth_eq] at this
  · simp only [low, h, if_false]
    refine ⟨fun he => ?_, fun he => by rw [he]⟩
    have hle : bits ≤ 64 := by omega
    have := congrArg (BitVec.setWidth bits) he
    rwa [BitVec.setWidth_setWidth_of_le _ hle, BitVec.setWidth_setWidth_of_le _ hle,
      BitVec.setWidth_eq, BitVec.setWidth_eq] at this

theorem setWidth_low (w : Word) (bits : Nat) : (low w bits).setWidth bits = w.setWidth bits := by
  by_cases h : 64 ≤ bits
  · rw [low_of_le h]
  · simp only [low, h, if_false]
    rw [BitVec.setWidth_setWidth_of_le _ (by omega), BitVec.setWidth_eq]

theorem zero_low (bits : Nat) : low 0 bits = 0 := by
  simp [low]

@[simp] theorem low_low (w : Word) (bits : Nat) : low (low w bits) bits = low w bits :=
  low_eq_low_iff.mpr (setWidth_low w bits)

theorem setWidth_signed (w : Word) (bits : Nat) :
    (signed w bits).setWidth bits = w.setWidth bits := by
  by_cases h : bits = 0 ∨ 64 ≤ bits
  · simp only [signed, h, if_true]
  · simp only [signed, h, if_false]
    ext i hi
    have : i < 64 := by omega
    simp [BitVec.getElem_signExtend, hi, this]

@[simp] theorem low_signed (w : Word) (bits : Nat) : low (signed w bits) bits = low w bits :=
  low_eq_low_iff.mpr (setWidth_signed w bits)

theorem signed_low (w : Word) (h : 1 ≤ bits) : signed (low w bits) bits = signed w bits := by
  by_cases hbig : 64 ≤ bits
  · rw [low_of_le hbig]
  · have : ¬ (bits = 0 ∨ 64 ≤ bits) := by omega
    simp only [signed, this, if_false, setWidth_low]

@[simp] theorem signed_signed (w : Word) (bits : Nat) :
    signed (signed w bits) bits = signed w bits := by
  by_cases h : bits = 0 ∨ 64 ≤ bits
  · simp only [signed, h, if_true]
  · have hsame := setWidth_signed w bits
    simp only [signed, h, if_false] at hsame ⊢
    rw [hsame]

theorem low_low_of_le (w : Word) {target : Nat} (h : target ≤ bits) :
    low (low w bits) target = low w target := by
  by_cases hbig : 64 ≤ bits
  · rw [low_of_le hbig]
  · rw [low_eq_low_iff]
    simp only [low, hbig, if_false]
    rw [BitVec.setWidth_setWidth_of_le _ (by omega), BitVec.setWidth_setWidth_of_le _ h]

theorem toNat_low (w : Word) (h : bits < 64) : (low w bits).toNat = (w.setWidth bits).toNat := by
  have hlt := (w.setWidth bits).isLt
  have hpow : 2 ^ bits < 2 ^ 64 := Nat.pow_lt_pow_right (by omega) h
  simp only [low, Nat.not_le.mpr h, if_false]
  rw [BitVec.toNat_setWidth, Nat.mod_eq_of_lt (by omega)]

/-- A signed reading is the number of its width that is congruent to the word. -/
theorem toInt_signed (w : Word) (hpos : 1 ≤ bits) (hle : bits ≤ 64) :
    (signed w bits).toInt = w.toInt.bmod (2 ^ bits) := by
  have hdvd : 2 ^ bits ∣ 2 ^ 64 := Nat.pow_dvd_pow 2 hle
  rw [BitVec.toInt_eq_toNat_bmod w, Int.bmod_bmod_of_dvd hdvd]
  by_cases hbits : bits = 64
  · rw [hbits, signed_of_le (Nat.le_refl 64), BitVec.toInt_eq_toNat_bmod]
  · have hsigned : ¬ (bits = 0 ∨ 64 ≤ bits) := by omega
    simp only [signed, hsigned, if_false]
    rw [BitVec.toInt_signExtend_of_le hle, BitVec.toInt_setWidth]

/-! ## Words with the same low bits -/

/-- An operator that acts on low bits alone does not tell such words apart. -/
theorem low_congr₂ {op : Word → Word → Word} {φ : BitVec bits → BitVec bits → BitVec bits}
    (hop : bits ≤ 64 → ∀ x y : Word,
      (op x y).setWidth bits = φ (x.setWidth bits) (y.setWidth bits))
    (ha : low a bits = low a' bits) (hb : low b bits = low b' bits) :
    low (op a b) bits = low (op a' b') bits := by
  by_cases h : 64 ≤ bits
  · rw [low_of_le h, low_of_le h] at *
    rw [ha, hb]
  · have hle : bits ≤ 64 := by omega
    rw [low_eq_low_iff] at *
    rw [hop hle, hop hle, ha, hb]

theorem low_add_congr (ha : low a bits = low a' bits) (hb : low b bits = low b' bits) :
    low (a + b) bits = low (a' + b') bits :=
  low_congr₂ (fun h x y => BitVec.setWidth_add x y h) ha hb

theorem low_sub_congr (ha : low a bits = low a' bits) (hb : low b bits = low b' bits) :
    low (a - b) bits = low (a' - b') bits := by
  refine low_congr₂ (φ := (· - ·)) (fun h x y => ?_) ha hb
  rw [BitVec.sub_eq_add_neg, BitVec.setWidth_add _ _ h, BitVec.setWidth_neg_of_le h,
    BitVec.sub_eq_add_neg]

theorem low_mul_congr (ha : low a bits = low a' bits) (hb : low b bits = low b' bits) :
    low (a * b) bits = low (a' * b') bits :=
  low_congr₂ (fun h x y => BitVec.setWidth_mul x y h) ha hb

theorem low_and_congr (ha : low a bits = low a' bits) (hb : low b bits = low b' bits) :
    low (a &&& b) bits = low (a' &&& b') bits :=
  low_congr₂ (fun _ _ _ => BitVec.setWidth_and) ha hb

theorem low_or_congr (ha : low a bits = low a' bits) (hb : low b bits = low b' bits) :
    low (a ||| b) bits = low (a' ||| b') bits :=
  low_congr₂ (fun _ _ _ => BitVec.setWidth_or) ha hb

theorem low_xor_congr (ha : low a bits = low a' bits) (hb : low b bits = low b' bits) :
    low (a ^^^ b) bits = low (a' ^^^ b') bits :=
  low_congr₂ (fun _ _ _ => BitVec.setWidth_xor) ha hb

theorem low_shiftLeft_congr (n : Nat) (ha : low a bits = low a' bits) :
    low (a <<< n) bits = low (a' <<< n) bits := by
  by_cases h : 64 ≤ bits
  · rw [low_of_le h, low_of_le h] at *
    rw [ha]
  · rw [low_eq_low_iff] at *
    rw [BitVec.setWidth_shiftLeft_of_le (by omega), BitVec.setWidth_shiftLeft_of_le (by omega), ha]

/-- A sum minus its first summand, when only low bits are known of both. -/
theorem low_sub_of_low_add (h : low a bits = low (b + a') bits) :
    low (a - b) bits = low a' bits := by
  have hsub : a' = b + a' - b := by rw [BitVec.add_comm, BitVec.add_sub_cancel]
  rw [hsub, BitVec.sub_eq_add_neg, BitVec.sub_eq_add_neg]
  exact low_add_congr h rfl

/-! ## Shifts that leave nothing -/

theorem low_shiftLeft_of_le (w : Word) {n : Nat} (h : bits ≤ n) : low (w <<< n) bits = 0 := by
  by_cases hbig : 64 ≤ bits
  · rw [low_of_le hbig, BitVec.shiftLeft_eq_zero (by omega)]
    rfl
  · simp only [low, hbig, if_false]
    rw [BitVec.setWidth_shiftLeft_of_le (by omega), BitVec.shiftLeft_eq_zero h]
    simp

theorem low_ushiftRight_of_le (w : Word) {n : Nat} (h : bits ≤ n) : low w bits >>> n = 0 := by
  by_cases hbig : 64 ≤ bits
  · rw [BitVec.ushiftRight_eq_zero (by omega)]
    rfl
  · apply BitVec.eq_of_toNat_eq
    have hlt := (w.setWidth bits).isLt
    have hpow : 2 ^ bits ≤ 2 ^ n := Nat.pow_le_pow_right (by omega) h
    rw [BitVec.toNat_ushiftRight, toNat_low w (by omega), Nat.shiftRight_eq_div_pow]
    exact Nat.div_eq_of_lt (by omega)

/-- A narrow number has nothing but its sign from its width on, so that is all a far shift leaves. -/
theorem sshiftRight_of_le (ha : signed a bits = a) (hpos : 1 ≤ bits) (hlt : bits < 64) {n : Nat}
    (h : bits ≤ n) : a.sshiftRight n = a.sshiftRight 63 := by
  have hsigned : ¬ (bits = 0 ∨ 64 ≤ bits) := by omega
  simp only [signed, hsigned, if_false] at ha
  have hsign : ∀ i, bits ≤ i → i < 64 → a.getLsbD i = a.msb := by
    intro i hi hi64
    rw [← ha, BitVec.getLsbD_signExtend, BitVec.msb_signExtend]
    simp [Nat.not_lt.mpr hi, hi64, Nat.not_le.mpr hlt]
  have hfill : ∀ m, bits ≤ m → ∀ i, i < 64 → (a.sshiftRight m).getLsbD i = a.msb := by
    intro m hm i hi
    rw [BitVec.getLsbD_sshiftRight, decide_eq_false (Nat.not_le.mpr hi)]
    by_cases hin : m + i < 64
    · rw [if_pos hin, hsign (m + i) (by omega) hin]
      simp
    · simp [hin]
  apply BitVec.eq_of_getLsbD_eq
  intro i hi
  rw [hfill n h i hi, hfill 63 (by omega) i hi]

/-- A narrow number is read alike with and without its sign, or it is negative. Then it is at least its
own width when read without, and past the end of a word when read with it. -/
theorem low_eq_self_or_far (hpos : 1 ≤ bits) (hb : signed b bits = b) :
    low b bits = b ∨ (bits < 64 ∧ bits ≤ (low b bits).toNat ∧ 64 ≤ b.toNat) := by
  by_cases hbig : 64 ≤ bits
  · exact .inl (low_of_le hbig)
  · have hsigned : ¬ (bits = 0 ∨ 64 ≤ bits) := by omega
    simp only [signed, hsigned, if_false] at hb
    cases hmsb : (b.setWidth bits).msb with
    | false =>
      left
      rw [BitVec.signExtend_eq_setWidth_of_msb_false hmsb] at hb
      simp only [low, hbig, if_false]
      exact hb
    | true =>
      right
      have hfar := BitVec.le_toNat_of_msb_true hmsb
      have hself : bits - 1 < 2 ^ (bits - 1) := Nat.lt_two_pow_self
      have hnat := congrArg BitVec.toNat hb
      rw [BitVec.toNat_signExtend, hmsb, if_pos rfl] at hnat
      have hpow : 2 ^ bits ≤ 2 ^ 63 := Nat.pow_le_pow_right (by omega) (by omega)
      refine ⟨by omega, ?_, by omega⟩
      rw [toNat_low b (by omega)]
      omega

/-! ## The flag of a pointer -/

theorem flag_select (w : Word) (n : Nat) : w >>> n &&& 1 = if w.getLsbD n then 1 else 0 := by
  ext i hi
  by_cases hi0 : i = 0
  · subst hi0
    by_cases h : w.getLsbD n <;> simp [h]
  · by_cases h : w.getLsbD n <;> simp [h, hi0, BitVec.getElem_one]

/-- The mask of a pointer keeps a word if the flag is set, and clears it otherwise. -/
theorem and_flag_mask (w x : Word) (n : Nat) :
    x &&& (0 - (w >>> n &&& 1)) = if w.getLsbD n then x else 0 := by
  rw [flag_select]
  by_cases h : w.getLsbD n
  · have hones : (0 - 1 : Word) = BitVec.allOnes 64 := by decide
    simp only [h, if_true, hones, BitVec.and_allOnes]
  · simp [h]

end Word

end PtrTag
