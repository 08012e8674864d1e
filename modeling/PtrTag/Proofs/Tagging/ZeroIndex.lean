import PtrTag.Proofs.Func.Reachable
import PtrTag.Proofs.Layout.Path
import PtrTag.Proofs.Tagging.Atomicity

/-!
# `PtrTag/Proofs/Tagging/ZeroIndex.lean` — a path of zeros leads nowhere

An address computation is left alone if every index **looks** like zero: a constant that stores zero, or
the null pointer. Its displacement is what the steps of the path add up to, and the path may go through
types of any depth. Each step of it stays where it is (`Layout.still_of_walk`): zero times any stride is
zero, and the first field of a structure begins at its first byte, however much room the layout gives to
types. Only a layout that places fields in its own way might have it elsewhere (`Layout.FirstAtZero`).

So such a pointer is its base, cut to the width of a pointer, and a tag would carry the displacement
zero, which changes nothing.
-/

set_option autoImplicit false

namespace PtrTag

/-! ## Zeros -/

theorem Value.isZero_iff {v : Value} :
    v.isZero = true ↔ (∃ bits, v = .const (.int 0 bits)) ∨ v = .null := by
  cases v with
  | const c =>
    cases c with
    | int w bits => simp [isZero, null]
    | null => simp [isZero, null]
    | undef ty => simp [isZero, null]
  | _ => simp [isZero, null]

theorem Word.zero_signed (bits : Nat) : Word.signed 0 bits = 0 := by
  have hextend : BitVec.signExtend 64 (BitVec.ofNat bits 0) = BitVec.ofNat 64 0 := by
    rw [BitVec.signExtend_eq_setWidth_of_msb_false (by simp)]
    simp
  simp [Word.signed, hextend]

/-- Low bits that are zero are a remainder that is zero. -/
theorem Word.mod_eq_zero_of_low {w : Word} {bits : Nat} (h : Word.low w bits = 0) :
    w.toNat % 2 ^ bits = 0 := by
  by_cases hbits : 64 ≤ bits
  · rw [Word.low_of_le hbits] at h
    rw [h]
    simp
  · have hlow := Word.toNat_low w (Nat.not_le.mp hbits)
    rw [h, BitVec.toNat_setWidth] at hlow
    exact hlow.symm

/-- A displacement of zero leaves no trace in the upper bits. -/
theorem Word.low_add_shiftLeft_of_low {w d : Word} {bits : Nat} (hw : Word.low w bits = w)
    (hd : Word.low d bits = 0) (n : Nat) : Word.low (w + (d <<< n)) bits = w := by
  have hzero : Word.low d bits = Word.low 0 bits := hd.trans (Word.zero_low bits).symm
  rw [Word.low_add_congr rfl (Word.low_shiftLeft_congr n hzero)]
  simpa using hw

theorem alignUp_zero (align : Nat) : alignUp 0 align = 0 := by
  unfold alignUp
  split
  · rfl
  · rw [Nat.div_eq_of_lt (by omega), Nat.zero_mul]

/-! ## Steps that stay -/

/-- A term that contributes nothing: the index is zero, and a field that it selects is the first one. -/
structure Still (t : Step × Value) : Prop where
  zero : t.2.isZero = true
  start : ∀ offset, t.1 = .field offset → offset = 0

namespace Layout

variable {L : Layout}

/-- The first field of a structure begins at its first byte. -/
def FirstAtZero (L : Layout) : Prop :=
  ∀ (fields : List Ty) (packed : Bool) (start : Nat),
    L.fieldOffset? fields packed 0 = some start → start = 0

/-- Fields that are placed one after another begin at zero. -/
theorem firstAtZero_of_extents (bits : Nat) (extent : Ty → Extent) (stride : Ty → Nat) :
    FirstAtZero { pointerBits := bits, extent := extent, stride := stride } := by
  intro fields packed start h
  cases fields with
  | nil => cases h
  | cons field fields =>
    obtain rfl : Extent.place packed 0 ⟨stride field, (extent field).align⟩ = start :=
      Option.some.inj h
    unfold Extent.place
    cases packed with
    | true => rfl
    | false => exact alignUp_zero _

theorem still_of_stepInto (hL : L.FirstAtZero) {ty reached : Ty} {v : Value} {step : Step}
    (hv : v.isZero = true) (h : L.stepInto ty v = .ok (step, reached)) : Still (step, v) := by
  refine ⟨hv, ?_⟩
  rintro offset rfl
  cases ty with
  | struct fields packed =>
    rcases Value.isZero_iff.mp hv with ⟨bits, rfl⟩ | rfl
    · obtain ⟨start, -, hstart, hstep⟩ := stepInto_struct rfl h
      obtain rfl := Step.field.inj hstep
      exact hL _ _ _ hstart
    · -- Null is no field of a structure.
      cases h
  | _ => cases h

theorem still_of_walk (hL : L.FirstAtZero) {ty : Ty} {indices : List Value} {steps : List Step}
    (hzero : ∀ v ∈ indices, v.isZero = true) (h : L.walk ty indices = .ok steps) :
    ∀ t ∈ steps.zip indices, Still t := by
  induction indices generalizing ty steps with
  | nil => simp
  | cons v indices ih =>
    rw [List.forall_mem_cons] at hzero
    obtain ⟨⟨step, reached⟩, hstep, h⟩ := Func.bind_eq_ok_iff.mp h
    obtain ⟨rest, hrest, h⟩ := Func.bind_eq_ok_iff.mp h
    cases h
    rw [List.zip_cons_cons, List.forall_mem_cons]
    exact ⟨still_of_stepInto hL hzero.1 hstep, ih hzero.2 hrest⟩

/-- A path of zeros stays where it is at every step. -/
theorem still_of_steps (hL : L.FirstAtZero) {source : Ty} {indices : List Value} {steps : List Step}
    (hzero : ∀ v ∈ indices, v.isZero = true) (h : L.steps source indices = .ok steps) :
    ∀ t ∈ steps.zip indices, Still t := by
  cases indices with
  | nil => simp
  | cons v indices =>
    rw [List.forall_mem_cons] at hzero
    obtain ⟨rest, hrest, h⟩ := Func.bind_eq_ok_iff.mp h
    cases h
    rw [List.zip_cons_cons, List.forall_mem_cons]
    exact ⟨⟨hzero.1, nofun⟩, still_of_walk hL hzero.2 hrest⟩

end Layout

/-- Still terms that have a constant sum have the sum zero. -/
theorem constantSum?_of_still {terms : List (Step × Value)} (h : ∀ t ∈ terms, Still t)
    (hword : ∀ t ∈ terms, t.2.asWord?.isSome) : constantSum? terms = some 0 := by
  induction terms with
  | nil => rfl
  | cons term terms ih =>
    obtain ⟨step, v⟩ := term
    rw [List.forall_mem_cons] at h hword
    have hrest := ih h.2 hword.2
    cases step with
    | field offset =>
      obtain rfl := h.1.start offset rfl
      simp [constantSum?, hrest]
    | scaled stride =>
      rcases Value.isZero_iff.mp h.1.zero with ⟨bits, rfl⟩ | rfl
      · simp [constantSum?, hrest, Value.asWord?, Const.asWord?]
      · cases hword.1

namespace Func

variable {f : Func} {L : Layout} {env : Env} {ρ : InstId → Except EvalStop Word} {gep : InstId}
  {i : Inst} {g : Gep}

theorem evalSigned_of_isZero {v : Value} (h : v.isZero = true) :
    f.evalSigned L env ρ v = .ok 0 := by
  rcases Value.isZero_iff.mp h with ⟨bits, rfl⟩ | rfl
  · refine (evalSigned_eq_ok_iff rfl).mpr ⟨_, rfl, ?_⟩
    rw [Word.zero_low, Word.zero_signed]
  · refine (evalSigned_eq_ok_iff rfl).mpr ⟨_, rfl, ?_⟩
    rw [Word.zero_signed]

theorem evalPath_of_still {terms : List (Step × Value)} (h : ∀ t ∈ terms, Still t)
    (address : Word) : f.evalPath L env ρ address terms = .ok address := by
  induction terms with
  | nil => rfl
  | cons term terms ih =>
    obtain ⟨step, v⟩ := term
    rw [List.forall_mem_cons] at h
    cases step with
    | field offset =>
      obtain rfl := h.1.start offset rfl
      rw [evalPath]
      simpa using ih h.2
    | scaled stride =>
      rw [evalPath, evalSigned_of_isZero h.1.zero, ok_bind]
      simpa using ih h.2

/-- An address computation along a path of zeros comes to its base, if it comes to anything. -/
theorem SolvesAt.eq_ok_iff_of_isZero (h : f.SolvesAt L env ρ gep) (hL : L.FirstAtZero)
    (hi : f.insts[gep]? = some i) (hop : i.op = .gep g) (hzero : ∀ v ∈ g.indices, v.isZero = true)
    {o : Word} :
    ρ gep = .ok o ↔ (∃ steps, L.steps g.source g.indices = .ok steps) ∧
      ∃ b, f.evalValue L env ρ g.base = .ok b ∧ o = Word.low b (L.width i.ty) := by
  rw [h i hi o, computed, hop]
  cases hsteps : L.steps g.source g.indices with
  | error e => simp [evalOp, hsteps, found, bind_eq_ok_iff]
  | ok steps =>
    have hpath : ∀ b, f.evalPath L env ρ b (steps.zip g.indices) = .ok b :=
      evalPath_of_still (Layout.still_of_steps hL hzero hsteps)
    simp only [evalOp, hsteps, found, ok_bind, hpath, bind_eq_ok_iff, pure, Except.pure,
      Except.ok.injEq]
    constructor
    · rintro ⟨_, ⟨b, hb, rfl⟩, rfl⟩
      exact ⟨⟨steps, rfl⟩, b, hb, rfl⟩
    · rintro ⟨-, b, hb, rfl⟩
      exact ⟨b, ⟨b, hb, rfl⟩, rfl⟩

/-! ## Pointers that are left alone -/

theorem isZero_of_skipReason {s : Scheme} {globals : List String} (hi : f.insts[gep]? = some i)
    (hop : i.op = .gep g) (h : f.skipReason s globals gep = .ok (some .zeroIndex)) :
    ∀ v ∈ g.indices, v.isZero = true := by
  rw [skipReason_eq hi hop, Except.ok.injEq] at h
  by_cases hzero : g.indices.all Value.isZero = true
  · exact List.all_eq_true.mp hzero
  · rw [if_neg hzero] at h
    -- The other answers are other reasons, or none.
    split at h
    · cases h
    split at h
    · cases h
    split at h
    · cases h
    · cases h

/-- Zeros that pass the check of an index are integer constants. -/
theorem constantOffset_of_isZero (hL : L.FirstAtZero) (hgep : f.gep gep = .ok g)
    (hzero : ∀ v ∈ g.indices, v.isZero = true) (hcheck : f.checkGep L gep = .ok ()) :
    f.constantOffset L gep = .ok (some 0) := by
  obtain ⟨terms, hterms⟩ := checkGep_eq_ok_iff.mp hcheck
  obtain ⟨g', steps, hgep', hindices, hsteps, rfl⟩ := gepTerms_eq_ok_iff.mp hterms
  obtain rfl : g = g' := Except.ok.inj (hgep.symm.trans hgep')
  have hword : ∀ t ∈ steps.zip g.indices, t.2.asWord?.isSome := by
    intro t ht
    have hmem := (List.of_mem_zip ht).2
    obtain ⟨bits, htype, -⟩ := checkIndex_eq_ok_iff.mp (hindices _ hmem)
    rcases Value.isZero_iff.mp (hzero _ hmem) with ⟨bits, heq⟩ | heq
    · rw [heq]
      rfl
    · rw [heq] at htype
      cases htype
  rw [constantOffset_of_gepTerms hterms,
    constantSum?_of_still (Layout.still_of_steps hL hzero hsteps) hword, Option.map_some,
    Word.zero_signed]

/-- An address computation that is left alone for its indices does not move its base: its value is that
of the base, cut to the width of a pointer, and what a tag would make of it is that value again. If its
indices pass the check, it has a value whenever its base has one, and its displacement is looked up as
the constant zero. That is so under any layout that places the fields of a structure one after another,
whatever room it gives to them. -/
theorem Reachable.zeroIndex_unmoved (h : f.Reachable) (hacyclic : f.Acyclic) {s : Scheme}
    {globals : List String} (hskip : f.skipReason s globals gep = .ok (some .zeroIndex)) (bits : Nat)
    (extent : Ty → Extent) (stride : Ty → Nat) :
    let L : Layout := { pointerBits := bits, extent := extent, stride := stride }
    ∃ i g, f.insts[gep]? = some i ∧ i.op = .gep g ∧
      (i.ty = .ptr → ∀ env o, f.eval L env (.inst gep) = .ok o →
        ∃ b, f.eval L env g.base = .ok b ∧ o = Word.low b L.pointerBits ∧
          (o - b).toNat % 2 ^ L.pointerBits = 0 ∧
            o = if o.getLsbD s.flagBit then
              Word.low (o + ((o - b) <<< s.offsetShift)) L.pointerBits else o) ∧
      (f.checkGep L gep = .ok () → f.constantOffset L gep = .ok (some 0) ∧
        ∀ env b, f.eval L env g.base = .ok b →
          f.eval L env (.inst gep) = .ok (Word.low b (L.width i.ty))) := by
  intro L
  have hL : L.FirstAtZero := Layout.firstAtZero_of_extents bits extent stride
  obtain ⟨i, g, hi, hop⟩ := gep_of_skipReason hskip
  have hzero := isZero_of_skipReason hi hop hskip
  have hvalue : ∀ env o, f.eval L env (.inst gep) = .ok o ↔
      (∃ steps, L.steps g.source g.indices = .ok steps) ∧
        ∃ b, f.eval L env g.base = .ok b ∧ o = Word.low b (L.width i.ty) := fun env o =>
    (hacyclic.solves h.coherent L env gep).eq_ok_iff_of_isZero hL hi hop hzero
  refine ⟨i, g, hi, hop, fun hty env o ho => ?_, fun hcheck => ?_⟩
  · obtain ⟨-, b, hb, hlow⟩ := (hvalue env o).mp ho
    rw [hty, Layout.width_ptr] at hlow
    have hself : Word.low o L.pointerBits = o := by rw [hlow, Word.low_low]
    have hdiff : Word.low (o - b) L.pointerBits = 0 := by
      have hsum : Word.low o L.pointerBits = Word.low (b + 0) L.pointerBits := by
        rw [hlow, Word.low_low]
        simp
      rw [Word.low_sub_of_low_add hsum, Word.zero_low]
    refine ⟨b, hb, hlow, Word.mod_eq_zero_of_low hdiff, ?_⟩
    rw [Word.low_add_shiftLeft_of_low hself hdiff, ite_self]
  · have hgep : f.gep gep = .ok g := gep_eq_ok_iff.mpr ⟨i, hi, hop⟩
    refine ⟨constantOffset_of_isZero hL hgep hzero hcheck, fun env b hb => ?_⟩
    obtain ⟨terms, hterms⟩ := checkGep_eq_ok_iff.mp hcheck
    obtain ⟨g', steps, hgep', -, hsteps, -⟩ := gepTerms_eq_ok_iff.mp hterms
    obtain rfl : g = g' := Except.ok.inj (hgep.symm.trans hgep')
    exact (hvalue env _).mpr ⟨⟨steps, hsteps⟩, b, hb, rfl⟩

/-- Two paths of zeros to the first lane of the first vector of a packed structure that opens a padded
one. The first path steps over objects and into the array by null pointers, which no check of an index
lets through. -/
def firstLane : Func :=
  let source : Ty := .struct [.struct [.array 3 (.vector 2 (.int 16)), .int 64] true, .int 8] false
  let zero := Value.ofWord 0 32
  (fresh "f" .void []).mutate
    [.addBlock "entry",
      .append 0 { op := .gep ⟨source, .global "pool", [.null, zero, zero, .null, zero], false⟩,
                  ty := .ptr },
      .append 0 { op := .gep ⟨source, .inst 0, [zero, zero, zero, zero, zero], false⟩, ty := .ptr },
      .append 0 { op := .ret (some (.inst 1)), ty := .void }]

/-- The address of the global has more bits than a pointer, and the flag is one that is kept. -/
theorem firstLane_unmoved :
    let L := Layout.lp64.withPointerBits 52
    let env : Env := ({} : Env).bind "pool" 0xabc1000000001000
    firstLane.Reachable ∧ firstLane.Acyclic ∧
      firstLane.skipReason {} [] 0 = .ok (some .zeroIndex) ∧
      firstLane.skipReason {} [] 1 = .ok (some .zeroIndex) ∧
      firstLane.eval L env (.inst 0) = .ok 0x1000000001000 ∧
      (0x1000000001000 : Word).getLsbD ({} : Scheme).flagBit = true ∧
      (0x1000000001000 - 0xabc1000000001000 : Word).toNat % 2 ^ 52 = 0 ∧
      firstLane.checkGep L 0 ≠ .ok () ∧ firstLane.checkGep L 1 = .ok () ∧
      firstLane.constantOffset L 1 = .ok (some 0) ∧
      firstLane.eval L env (.inst 1) = .ok 0x1000000001000 := by
  intro L env
  have hreachable : firstLane.Reachable := (Reachable.fresh _ _ _).mutate _
  have hacyclic : firstLane.Acyclic := acyclic_of_uses_lt (by decide +kernel)
  have hfirst : firstLane.skipReason {} [] 0 = .ok (some .zeroIndex) := by decide +kernel
  have hsecond : firstLane.skipReason {} [] 1 = .ok (some .zeroIndex) := by decide +kernel
  have heval : firstLane.eval L env (.inst 0) = .ok 0x1000000001000 := by decide +kernel
  have hcheck : firstLane.checkGep L 1 = .ok () := by decide +kernel
  obtain ⟨i, g, hi, hop, hmoved, -⟩ :=
    hreachable.zeroIndex_unmoved hacyclic hfirst 52 L.extent L.stride
  obtain ⟨j, k, hj, hjop, -, hchecked⟩ :=
    hreachable.zeroIndex_unmoved hacyclic hsecond 52 L.extent L.stride
  cases hi
  cases hop
  cases hj
  cases hjop
  obtain ⟨b, hb, -, hmod, -⟩ := hmoved rfl env _ heval
  have hglobal : firstLane.eval L env (.global "pool") = .ok 0xabc1000000001000 := by decide +kernel
  obtain rfl : 0xabc1000000001000 = b := Except.ok.inj (hglobal.symm.trans hb)
  obtain ⟨hconstant, hvalue⟩ := hchecked hcheck
  refine ⟨hreachable, hacyclic, hfirst, hsecond, heval, by decide, hmod, by decide +kernel, hcheck,
    hconstant, (hvalue env _ heval).trans ?_⟩
  decide +kernel

end Func

end PtrTag
