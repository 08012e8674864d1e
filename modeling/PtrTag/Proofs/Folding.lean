import PtrTag.Proofs.Func.Reachable
import PtrTag.Proofs.Tagging.Displacement

/-!
# `PtrTag/Proofs/Folding.lean` — a folded constant is what the instruction would compute

Arithmetic on constants is carried out while code is emitted, and leaves no instruction behind. The
folding and the evaluation read the same operands differently: a fold works on the words as they are
stored, which is signed, and looks at the low bits only for a logical shift to the right; an evaluation
works on low bits, and reads a sign only for an arithmetic one. On **normalised** constants the two come
to the same number, for every operator and every width (`BinOp.low_fold`).

Most operators do not tell words with the same low bits apart. For shifts the amounts matter as a whole:
they are the same number in both readings, or they are so far that nothing is left of the operand.
-/

set_option autoImplicit false

namespace PtrTag

/-! ## Operators -/

namespace BinOp

variable {a b : Word} {bits : Nat}

/-- The left operand as an evaluation reads it. -/
def reading (op : BinOp) (a : Word) (bits : Nat) : Word :=
  if op = .ashr then a else Word.low a bits

theorem low_shl (hpos : 1 ≤ bits) (hb : Word.signed b bits = b) :
    Word.low (apply .shl a b) bits = Word.low (apply .shl (Word.low a bits) (Word.low b bits)) bits := by
  simp only [apply]
  rcases Word.low_eq_self_or_far hpos hb with hnear | ⟨hlt, hfar, hfar'⟩
  · rw [hnear]
    exact Word.low_shiftLeft_congr _ (Word.low_low a bits).symm
  · rw [Word.low_shiftLeft_of_le a (by omega), Word.low_shiftLeft_of_le _ (by omega)]

theorem low_lshr (hpos : 1 ≤ bits) (hb : Word.signed b bits = b) :
    Word.low (apply .lshr (Word.low a bits) b) bits =
      Word.low (apply .lshr (Word.low a bits) (Word.low b bits)) bits := by
  simp only [apply]
  rcases Word.low_eq_self_or_far hpos hb with hnear | ⟨hlt, hfar, hfar'⟩
  · rw [hnear]
  · rw [Word.low_ushiftRight_of_le a (by omega), Word.low_ushiftRight_of_le a (by omega)]

theorem low_ashr (hpos : 1 ≤ bits) (ha : Word.signed a bits = a) (hb : Word.signed b bits = b) :
    Word.low (apply .ashr a b) bits = Word.low (apply .ashr a (Word.low b bits)) bits := by
  simp only [apply]
  rcases Word.low_eq_self_or_far hpos hb with hnear | ⟨hlt, hfar, hfar'⟩
  · rw [hnear]
  · rw [Word.sshiftRight_of_le ha hpos hlt (by omega : bits ≤ min b.toNat 63),
      Word.sshiftRight_of_le ha hpos hlt (by omega : bits ≤ min (Word.low b bits).toNat 63)]

/-- Folding two normalised constants gives the number that the operator makes of them when it is
evaluated, as a normalised constant. -/
theorem low_fold (op : BinOp) (hpos : 1 ≤ bits) (ha : Word.signed a bits = a)
    (hb : Word.signed b bits = b) :
    ∃ w, op.fold a b bits = .ofWord w bits ∧
      Word.low w bits = Word.low (op.apply (op.reading a bits) (Word.low b bits)) bits := by
  have hal : Word.low a bits = Word.low (Word.low a bits) bits := (Word.low_low a bits).symm
  have hbl : Word.low b bits = Word.low (Word.low b bits) bits := (Word.low_low b bits).symm
  cases op with
  | add => exact ⟨_, rfl, Word.low_add_congr hal hbl⟩
  | sub => exact ⟨_, rfl, Word.low_sub_congr hal hbl⟩
  | mul => exact ⟨_, rfl, Word.low_mul_congr hal hbl⟩
  | shl => exact ⟨_, rfl, low_shl hpos hb⟩
  | lshr => exact ⟨_, rfl, low_lshr hpos hb⟩
  | ashr => exact ⟨_, rfl, low_ashr hpos ha hb⟩
  | and => exact ⟨_, rfl, Word.low_and_congr hal hbl⟩
  | or => exact ⟨_, rfl, Word.low_or_congr hal hbl⟩
  | xor => exact ⟨_, rfl, Word.low_xor_congr hal hbl⟩

end BinOp

/-! ## Instructions on constants -/

namespace Func

variable {L : Layout} {env : Env}

/-- Wherever an instruction with operation `op` and type `ty` stands, it has the value of `v`. -/
def ComesTo (L : Layout) (env : Env) (op : Op) (ty : Ty) (v : Value) : Prop :=
  ∀ (f : Func) (id : InstId) (i : Inst), f.insts[id]? = some i → i.op = op → i.ty = ty →
    f.eval L env (.inst id) = f.eval L env v

/-- An operation that needs no other instruction comes to its result at the width of its type. -/
theorem comesTo_of_evalOp {op : Op} {ty : Ty} {v : Value} {w : Word}
    (hop : ∀ (f : Func) ρ id, f.evalOp L env ρ id op = .ok w)
    (hv : ∀ (f : Func) ρ, f.evalValue L env ρ v = .ok (Word.low w (L.width ty))) :
    ComesTo L env op ty v := by
  intro f id i hi hiop hity
  show f.evalInst L env (f.insts.size + 1) id = _
  rw [evalInst_succ hi, computed, hiop, hity, hop]
  exact (hv f _).symm

theorem evalOp_binary_const {a b : Word} {bits : Nat} (hpos : 1 ≤ bits)
    (ha : Word.signed a bits = a) (op : BinOp) (f : Func) (ρ : InstId → Except EvalStop Word)
    (id : InstId) :
    f.evalOp L env ρ id (.binary op (.const (.int a bits)) (.const (.int b bits))) =
      .ok (op.apply (op.reading a bits) (Word.low b bits)) := by
  have hsigned : f.evalSigned L env ρ (.const (.int a bits)) = .ok a :=
    evalSigned_of_isNormal rfl ⟨hpos, ha⟩
  by_cases hop : op = .ashr
  · simp only [evalOp, BinOp.reading, hop, if_true, hsigned]
    rfl
  · simp only [evalOp, BinOp.reading, hop, if_false]
    rfl

theorem comesTo_fold {a b : Word} {bits : Nat} (hpos : 1 ≤ bits) (ha : Word.signed a bits = a)
    (hb : Word.signed b bits = b) (op : BinOp) :
    ComesTo L env (.binary op (.const (.int a bits)) (.const (.int b bits))) (.int bits)
      (.const (op.fold a b bits)) := by
  obtain ⟨w, hw, hlow⟩ := op.low_fold hpos ha hb
  refine comesTo_of_evalOp (evalOp_binary_const hpos ha op) fun f ρ => ?_
  rw [Layout.width_int, ← hlow, hw]
  exact evalValue_ofWord w bits

theorem comesTo_sext {a : Word} {bits : Nat} (hpos : 1 ≤ bits) (ha : Word.signed a bits = a)
    (target : Nat) :
    ComesTo L env (.cast .sext (.const (.int a bits))) (.int target) (.ofWord a target) := by
  refine comesTo_of_evalOp (fun f ρ id => evalSigned_of_isNormal rfl ⟨hpos, ha⟩) fun f ρ => ?_
  exact evalValue_ofWord a target

/-- Cutting twice is cutting once, if the second cut is the shorter one. -/
theorem comesTo_trunc (a : Word) {bits target : Nat} (h : target ≤ bits) :
    ComesTo L env (.cast .trunc (.const (.int a bits))) (.int target) (.ofWord a target) := by
  refine comesTo_of_evalOp (fun f ρ id => rfl) fun f ρ => ?_
  rw [Layout.width_int, Word.low_low_of_le a h]
  exact evalValue_ofWord a target

theorem comesTo_ptrToInt_null (ty : Ty) :
    ComesTo L env (.cast .ptrToInt .null) ty (.ofWord 0 ty.bitWidth) := by
  refine comesTo_of_evalOp (fun f ρ id => rfl) fun f ρ => ?_
  rw [evalValue_ofWord, Word.zero_low, Word.zero_low]

end Func

/-! ## Emission -/

namespace Edit

theorem emitBinary_const (anchor : InstId) (op : BinOp) (a b : Word) (bits : Nat)
    (name : Option String) (f : Func) :
    emitBinary anchor op (.const (.int a bits)) (.const (.int b bits)) name f =
      .ok (.const (op.fold a b bits)) f := rfl

/-- A constant that is normalised at its own width is resized like any other. -/
theorem emitResize_const (anchor : InstId) {a : Word} {bits : Nat} (ha : Word.signed a bits = a)
    (target : Nat) (name : Option String) (f : Func) :
    emitResize anchor (.const (.int a bits)) (.int target) name f = .ok (.ofWord a target) f := by
  by_cases h : bits = target
  · have hv : Value.const (.int a bits) = .ofWord a target := by
      rw [Value.ofWord, Const.ofWord, ← h, ha]
    show (if bits = target then pure _ else _ : Edit Value) f = _
    rw [if_pos h, hv]
    rfl
  · show (if bits = target then _ else pure (.ofWord a target) : Edit Value) f = _
    rw [if_neg h]
    rfl

end Edit

namespace Func

/-- Folding agrees with evaluation. A binary operation on two normalised constants of one width, and the
resizing of a normalised constant, emit nothing and return a normalised constant of the width asked for;
it has the value of the instruction that was not emitted, wherever such an instruction stands. So has
the integer for the null pointer. -/
theorem folded_comesTo (f : Func) (L : Layout) (env : Env) (anchor : InstId) (name : Option String) :
    (∀ (op : BinOp) (a b : Word) (bits : Nat), (Value.const (.int a bits)).IsNormal →
      (Value.const (.int b bits)).IsNormal → ∃ c,
        Edit.emitBinary anchor op (.const (.int a bits)) (.const (.int b bits)) name f =
            .ok (.const c) f ∧
          (Value.const c).IsNormal ∧ c.ty = .int bits ∧
            ComesTo L env (.binary op (.const (.int a bits)) (.const (.int b bits))) (.int bits)
              (.const c)) ∧
      (∀ (a : Word) (bits target : Nat), (Value.const (.int a bits)).IsNormal → 1 ≤ target → ∃ c,
        Edit.emitResize anchor (.const (.int a bits)) (.int target) name f = .ok (.const c) f ∧
          (Value.const c).IsNormal ∧ c.ty = .int target ∧
            (bits ≤ target →
              ComesTo L env (.cast .sext (.const (.int a bits))) (.int target) (.const c)) ∧
              (target ≤ bits →
                ComesTo L env (.cast .trunc (.const (.int a bits))) (.int target) (.const c))) ∧
        ∀ ty : Ty, ∃ c, Edit.emitPtrToInt anchor .null ty name f = .ok (.const c) f ∧
          ComesTo L env (.cast .ptrToInt .null) ty (.const c) := by
  have hnormal : ∀ (w : Word) {bits : Nat}, 1 ≤ bits → (Value.const (.ofWord w bits)).IsNormal :=
    fun w bits hpos => ⟨hpos, Word.signed_signed w bits⟩
  refine ⟨?_, ?_, ?_⟩
  · intro op a b bits ⟨hpos, ha⟩ ⟨_, hb⟩
    obtain ⟨w, hw, -⟩ := op.low_fold hpos ha hb
    refine ⟨op.fold a b bits, Edit.emitBinary_const anchor op a b bits name f, ?_, ?_,
      comesTo_fold hpos ha hb op⟩
    · rw [hw]
      exact hnormal w hpos
    · rw [hw]
      rfl
  · intro a bits target ⟨hpos, ha⟩ htarget
    exact ⟨.ofWord a target, Edit.emitResize_const anchor ha target name f, hnormal a htarget, rfl,
      fun _ => comesTo_sext hpos ha target, fun hle => comesTo_trunc a hle⟩
  · intro ty
    exact ⟨.ofWord 0 ty.bitWidth, rfl, comesTo_ptrToInt_null ty⟩

/-- The number -100 of eight bits, shifted by -3 to both sides and resized. -/
def shiftedFar : List Mutation :=
  [.addBlock "entry",
    .append 0 { op := .binary .ashr (.ofWord (-100) 8) (.ofWord (-3) 8), ty := .int 8 },
    .append 0 { op := .binary .lshr (.ofWord (-100) 8) (.ofWord (-3) 8), ty := .int 8 },
    .append 0 { op := .binary .shl (.ofWord (-100) 8) (.ofWord (-3) 8), ty := .int 8 },
    .append 0 { op := .cast .sext (.ofWord (-100) 8), ty := .int 12 },
    .append 0 { op := .cast .trunc (.ofWord (-100) 8), ty := .int 4 },
    .append 0 { op := .cast .ptrToInt .null, ty := .int 32 }]

/-- As an evaluation sees it the amount is 253, and as a fold does it is far beyond a word; nothing but
copies of the sign is left in either. -/
theorem shiftedFar_comesTo :
    let f := (fresh "f" .void []).mutate shiftedFar
    let a := Value.const (.int (-100) 8)
    let b := Value.const (.int (-3) 8)
    a.IsNormal ∧ b.IsNormal ∧
      (∃ c, Edit.emitBinary 0 .ashr a b none f = .ok (.const c) f ∧
        f.eval .lp64 {} (.inst 0) = f.eval .lp64 {} (.const c) ∧ c = .int (-1) 8) ∧
        (∃ c, Edit.emitBinary 0 .lshr a b none f = .ok (.const c) f ∧
          f.eval .lp64 {} (.inst 1) = f.eval .lp64 {} (.const c) ∧ c = .int 0 8) ∧
          ∃ c, Edit.emitResize 0 a (.int 4) none f = .ok (.const c) f ∧
            f.eval .lp64 {} (.inst 4) = f.eval .lp64 {} (.const c) ∧ c = .int (-4) 4 := by
  intro f a b
  have ha : a.IsNormal := by decide
  have hb : b.IsNormal := by decide
  obtain ⟨hbinary, hresize, -⟩ := folded_comesTo f .lp64 {} 0 none
  obtain ⟨c, hc, -, -, hashr⟩ := hbinary .ashr _ _ _ ha hb
  obtain ⟨d, hd, -, -, hlshr⟩ := hbinary .lshr _ _ _ ha hb
  obtain ⟨e, he, -, -, -, htrunc⟩ := hresize _ _ 4 ha (by decide)
  refine ⟨ha, hb, ⟨c, hc, hashr f 0 _ rfl rfl rfl, ?_⟩, ⟨d, hd, hlshr f 1 _ rfl rfl rfl, ?_⟩,
    ⟨e, he, htrunc (by decide) f 4 _ rfl rfl rfl, ?_⟩⟩
  · injection hc with hc
    injection hc with hc
    rw [← hc]
    decide
  · injection hd with hd
    injection hd with hd
    rw [← hd]
    decide
  · injection he with he
    injection he with he
    rw [← he]
    decide

end Func

end PtrTag
