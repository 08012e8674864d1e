import PtrTag.Proofs.Func.Reachable
import PtrTag.Proofs.Layout.Path
import PtrTag.Proofs.Tagging.Code

/-!
# `PtrTag/Proofs/Tagging/ConstantOffset.lean` — displacements that are constants

A displacement is a constant if no index moves the base by an amount that varies: every index selects a
field or is an integer constant (`isSome_constantSum?`). It is looked up along one walk over the terms and
emitted along another; the second adds up the known part as it goes, so for such terms it never gets to
emit anything, and the two sums are the same word (`Edit.emitTerms_of_constantSum?`).

The word wraps, and so does the reading of it at pointer width. That is no loss: the width divides the
word, so what comes out is still the number of pointer width that is congruent to the **exact** sum
(`Word.eq_toInt_signed_ofInt_iff`).
-/

set_option autoImplicit false

namespace PtrTag

/-! ## Numbers of a width -/

/-- The signed reading of an integer at a width is the one number of that width that is congruent to
it. -/
theorem Word.eq_toInt_signed_ofInt_iff {bits : Nat} (hpos : 1 ≤ bits) (hle : bits ≤ 64) (b m : Int) :
    (-2 ^ (bits - 1) ≤ m ∧ m < 2 ^ (bits - 1) ∧ 2 ^ bits ∣ m - b) ↔
      m = (Word.signed (.ofInt 64 b) bits).toInt := by
  have hbmod : (Word.signed (.ofInt 64 b) bits).toInt = b.bmod (2 ^ bits) := by
    rw [toInt_signed _ hpos hle, BitVec.toInt_ofInt,
      Int.bmod_bmod_of_dvd (Nat.pow_dvd_pow 2 hle)]
  have hhalf : ((2 ^ bits : Nat) : Int) = 2 * 2 ^ (bits - 1) := by
    obtain ⟨k, rfl⟩ : ∃ k, bits = k + 1 := ⟨bits - 1, by omega⟩
    rw [Nat.pow_succ, Nat.add_sub_cancel, Nat.mul_comm]
    push_cast
    rfl
  have hcongr : (2 : Int) ^ bits ∣ m - b ↔ m.bmod (2 ^ bits) = b.bmod (2 ^ bits) := by
    rw [Int.bmod_eq_bmod_iff_bmod_sub_eq_zero, ← Int.dvd_iff_bmod_eq_zero]
    push_cast
    rfl
  rw [hbmod, hcongr]
  constructor
  · rintro ⟨hlow, hhigh, heq⟩
    rw [← heq]
    exact (Int.bmod_eq_of_le (by omega) (by omega)).symm
  · intro heq
    have hlow := Int.le_bmod (x := b) (m := 2 ^ bits) (Nat.two_pow_pos bits)
    have hhigh := Int.bmod_lt (x := b) (m := 2 ^ bits) (Nat.two_pow_pos bits)
    rw [heq, Int.bmod_bmod]
    exact ⟨by omega, by omega, rfl⟩

/-! ## Steps and terms -/

namespace Layout

variable {L : Layout}

theorem length_walk {ty : Ty} {indices : List Value} {steps : List Step}
    (h : L.walk ty indices = .ok steps) : steps.length = indices.length := by
  induction indices generalizing ty steps with
  | nil =>
    cases h
    rfl
  | cons v indices ih =>
    obtain ⟨⟨step, reached⟩, -, h⟩ := Func.bind_eq_ok_iff.mp h
    obtain ⟨rest, hrest, h⟩ := Func.bind_eq_ok_iff.mp h
    cases h
    rw [List.length_cons, List.length_cons, ih hrest]

/-- A path has one step for each index. -/
theorem length_steps {source : Ty} {indices : List Value} {steps : List Step}
    (h : L.steps source indices = .ok steps) : steps.length = indices.length := by
  cases indices with
  | nil =>
    cases h
    rfl
  | cons v indices =>
    obtain ⟨rest, hrest, h⟩ := Func.bind_eq_ok_iff.mp h
    cases h
    rw [List.length_cons, List.length_cons, length_walk hrest]

end Layout

/-- Terms have a constant sum exactly if each of them selects a field or has a constant index. -/
theorem isSome_constantSum? {terms : List (Step × Value)} :
    (constantSum? terms).isSome ↔
      ∀ t ∈ terms, (∃ offset, t.1 = .field offset) ∨ t.2.asWord?.isSome := by
  induction terms with
  | nil => simp [constantSum?]
  | cons term terms ih =>
    obtain ⟨step, index⟩ := term
    rw [List.forall_mem_cons, ← ih]
    cases step with
    | field offset => cases hsum : constantSum? terms <;> simp [constantSum?, hsum]
    | scaled stride =>
      cases hw : index.asWord? <;> cases hsum : constantSum? terms <;> simp [constantSum?, hw, hsum]

namespace Edit

open Func

variable {f : Func} {L : Layout}

/-- Terms with a constant sum go over to the known part, one by one, and nothing is emitted. -/
theorem emitTerms_of_constantSum? {terms : List (Step × Value)} {sum : Word}
    (h : constantSum? terms = some sum) (anchor : InstId) (bits : Nat) (name : Option String)
    (known : Word) (s : Option Value) :
    emitTerms anchor bits name known s terms f = .ok (known + sum, s) f := by
  induction terms generalizing known sum with
  | nil =>
    cases h
    have hzero : known + 0 = known := BitVec.add_zero known
    rw [hzero]
    rfl
  | cons term terms ih =>
    obtain ⟨step, index⟩ := term
    cases step with
    | field offset =>
      obtain ⟨rest, hrest, rfl⟩ : ∃ rest, constantSum? terms = some rest ∧
          .ofNat 64 offset + rest = sum := by
        simpa [constantSum?, Option.bind_eq_some_iff] using h
      rw [emitTerms, ih hrest, BitVec.add_assoc]
    | scaled stride =>
      obtain ⟨w, hw, rest, hrest, rfl⟩ : ∃ w, index.asWord? = some w ∧ ∃ rest,
          constantSum? terms = some rest ∧ w * .ofNat 64 stride + rest = sum := by
        simpa [constantSum?, Option.bind_eq_some_iff] using h
      simp only [emitTerms, hw]
      rw [ih hrest, BitVec.add_assoc]

theorem emitOffset_of_constantSum? {gep : InstId} {terms : List (Step × Value)} {sum : Word}
    (hterms : f.gepTerms L gep = .ok terms) (h : constantSum? terms = some sum) (anchor : InstId)
    (name : Option String) :
    emitOffset anchor L gep name f = .ok (.ofWord sum L.pointerBits) f := by
  refine (ask_bind_of_ok hterms).trans ?_
  refine (bind_of_ok (emitTerms_of_constantSum? h anchor L.pointerBits name 0 none)).trans ?_
  have hzero : 0 + sum = sum := BitVec.zero_add sum
  rw [hzero]
  rfl

/-- The code for a constant displacement is seven instructions, and it neither multiplies nor shifts to
the left. -/
theorem seven_of_tagGep (hf : f.Coherent) {s : Scheme} {globals : List String} {gep r : InstId}
    {constant split : Bool} {bytes : Word} {f' : Func}
    (hbytes : f.constantOffset L gep = .ok (some bytes))
    (h : tagGep s L globals gep f = .ok (.tagged r constant split) f') :
    f'.insts.size = f.insts.size + 7 ∧ ∀ (id : InstId) (i : Inst), f.insts.size ≤ id →
      f'.insts[id]? = some i → ∀ lhs rhs, i.op ≠ .binary .mul lhs rhs ∧ i.op ≠ .binary .shl lhs rhs := by
  have hoperators := operators_tagGep hf hbytes h
  refine ⟨?_, fun id i hle hi lhs rhs => ?_⟩
  · have hlength := congrArg List.length hoperators
    rwa [List.length_append, length_operators, length_operators] at hlength
  · have hmem : i.op.operator? ∈ tagOperators := by
      have hget := getElem?_operators (f := f') id
      rw [hi, hoperators, List.getElem?_append_right (by rwa [length_operators])] at hget
      exact List.mem_of_getElem? hget
    constructor
    · intro hop
      rw [hop] at hmem
      simp [Op.operator?, tagOperators] at hmem
    · intro hop
      rw [hop] at hmem
      simp [Op.operator?, tagOperators] at hmem

end Edit

/-! ## Both paths -/

namespace Func

variable {f : Func} {L : Layout}

/-- What is known of a constant displacement `c` whose contributions add up to `sum`. -/
structure FixedAt (f : Func) (L : Layout) (gep : InstId) (sum : Int) (c : Word) : Prop where
  /-- It is the one number of pointer width that is congruent to the sum. -/
  wraps : ∀ m : Int, (-2 ^ (L.pointerBits - 1) ≤ m ∧ m < 2 ^ (L.pointerBits - 1) ∧
    2 ^ L.pointerBits ∣ m - sum) ↔ m = c.toInt
  /-- Emission comes to the same constant and leaves the function as it is. -/
  emitted : ∀ anchor name,
    Edit.emitOffset anchor L gep name f = .ok ((Displacement.constant c).toValue L.pointerBits) f
  /-- A pointer that is due, with an instruction behind it, gets its tag. -/
  tagged : ∀ s globals, f.skipReason s globals gep = .ok none → ¬ f.IsLast gep →
    ∃ r f', Edit.tagGep s L globals gep f = .ok (.tagged r true false) f'
  /-- The tag is seven instructions, none of which multiplies or shifts to the left. -/
  code : ∀ s globals r constant split f',
    Edit.tagGep s L globals gep f = .ok (.tagged r constant split) f' →
      f'.insts.size = f.insts.size + 7 ∧ ∀ (id : InstId) (i : Inst), f.insts.size ≤ id →
        f'.insts[id]? = some i → ∀ lhs rhs,
          i.op ≠ .binary .mul lhs rhs ∧ i.op ≠ .binary .shl lhs rhs

theorem Coherent.fixedAt (hf : f.Coherent) (hpos : 1 ≤ L.pointerBits) (hle : L.pointerBits ≤ 64)
    {gep : InstId} {terms : List (Step × Value)} (hterms : f.gepTerms L gep = .ok terms) {sum : Int}
    (hsum : constantSum? terms = some (.ofInt 64 sum)) :
    FixedAt f L gep sum (Word.signed (.ofInt 64 sum) L.pointerBits) := by
  have hbytes := constantOffset_of_gepTerms hterms
  rw [hsum, Option.map_some] at hbytes
  refine ⟨Word.eq_toInt_signed_ofInt_iff hpos hle sum, fun anchor name => ?_, ?_, ?_⟩
  · rw [Edit.emitOffset_of_constantSum? hterms hsum, Displacement.toValue, Value.ofWord,
      Value.ofWord, Const.ofWord, Const.ofWord, Word.signed_signed]
  · intro s globals hdue hlast
    rcases @Edit.tagGep_cases f s L globals gep _ rfl hf with
      ⟨e, hskip, -⟩ | ⟨why, hskip, -⟩ | ⟨-, ⟨e, herror, -⟩ | ⟨-, hend, -⟩ | ⟨-, -, r, f', hrun, -⟩⟩
    · cases hdue.symm.trans hskip
    · cases hdue.symm.trans hskip
    · cases (checkGep_eq_ok_iff.mpr ⟨_, hterms⟩).symm.trans herror
    · exact absurd hend hlast
    · rw [offsetFixed_of_gepTerms hterms, hsum] at hrun
      exact ⟨r, f', hrun⟩
  · intro s globals r constant split f' htag
    exact Edit.seven_of_tagGep hf hbytes htag

/-- The displacement of a pointer is a constant exactly if every index that does not select a field is an
integer constant, and the constant is then what the exact sum of all contributions comes to at pointer
width, the same for whoever looks it up and whoever emits it. -/
theorem Reachable.constantOffset_fixedAt (h : f.Reachable) (hpos : 1 ≤ L.pointerBits)
    (hle : L.pointerBits ≤ 64) {gep : InstId} (hcheck : f.checkGep L gep = .ok ()) :
    ∃ g steps bytes, f.gep gep = .ok g ∧ L.steps g.source g.indices = .ok steps ∧
      steps.length = g.indices.length ∧ f.constantOffset L gep = .ok bytes ∧
        (bytes.isSome ↔ ∀ t ∈ steps.zip g.indices,
          (∃ offset, t.1 = .field offset) ∨ t.2.asWord?.isSome) ∧
          ∀ c, bytes = some c → FixedAt f L gep (byteOffset steps g.indices) c := by
  obtain ⟨terms, hterms⟩ := checkGep_eq_ok_iff.mp hcheck
  obtain ⟨g, steps, hgep, -, hsteps, rfl⟩ := gepTerms_eq_ok_iff.mp hterms
  refine ⟨g, steps, _, hgep, hsteps, Layout.length_steps hsteps,
    constantOffset_of_gepTerms hterms, ?_, fun c hc => ?_⟩
  · rw [Option.isSome_map, isSome_constantSum?]
  · obtain ⟨sum, hsum, rfl⟩ := Option.map_eq_some_iff.mp hc
    have hfixed := isSome_constantSum?.mp (Option.isSome_iff_exists.mpr ⟨sum, hsum⟩)
    have hexact := constantSum?_eq_of_fixed hfixed
    obtain rfl : .ofInt 64 (byteOffset steps g.indices) = sum :=
      Option.some.inj (hexact.symm.trans hsum)
    exact h.coherent.fixedAt hpos hle hterms hexact

/-- A constant path that goes round the address space of 16 bits: 5000 records of 20 bytes, into the last
field and one element back. -/
def roundabout : Func :=
  (fresh "f" .void [⟨"p", .ptr⟩]).mutate
    [.addBlock "entry",
      .append 0 { op := .gep ⟨.struct [.int 8, .array 4 (.int 32)] false, .arg 0,
        [.ofWord 5000 16, .ofWord 1 16, .ofWord (-1) 8], false⟩, ty := .ptr, name := some "q" },
      .append 0 { op := .ret (some (.inst 0)), ty := .void }]

theorem roundabout_fixedAt :
    let L := Layout.lp64.withPointerBits 16
    roundabout.Reachable ∧ roundabout.checkGep L 0 = .ok () ∧
      roundabout.constantOffset L 0 = .ok (some (.ofInt 64 (-31072))) ∧
        roundabout.FixedAt L 0 100000 (.ofInt 64 (-31072)) ∧
          ∃ r f', Edit.tagGep {} L [] 0 roundabout = .ok (.tagged r true false) f' ∧
            f'.insts.size = 9 := by
  intro L
  have hreachable : roundabout.Reachable := (Reachable.fresh _ _ _).mutate _
  have hcheck : roundabout.checkGep L 0 = .ok () := by decide +kernel
  have hconstant : roundabout.constantOffset L 0 = .ok (some (.ofInt 64 (-31072))) := by
    decide +kernel
  have hsum : (do
      let g ← roundabout.gep 0
      let steps ← L.steps g.source g.indices
      return byteOffset steps g.indices) = .ok 100000 := by decide +kernel
  obtain ⟨g, steps, bytes, hg, hsteps, -, hbytes, -, hfixed⟩ :=
    hreachable.constantOffset_fixedAt (by decide) (by decide) hcheck
  rw [hg, ok_bind, hsteps, ok_bind] at hsum
  rw [Except.ok.inj hsum] at hfixed
  have hfixedAt := hfixed _ (Except.ok.inj (hbytes.symm.trans hconstant))
  obtain ⟨r, f', hrun⟩ := hfixedAt.tagged {} [] (by decide +kernel) (by decide +kernel)
  exact ⟨hreachable, hcheck, hconstant, hfixedAt, r, f', hrun, (hfixedAt.code _ _ _ _ _ _ hrun).1⟩

end Func

end PtrTag
