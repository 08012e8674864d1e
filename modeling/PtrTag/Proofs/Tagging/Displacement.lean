import PtrTag.Tagging.Displacement
import PtrTag.Proofs.Emission

/-!
# `PtrTag/Proofs/Tagging/Displacement.lean` — the emitted displacement is the displacement

An address computation moves its base by the sum of its terms (`evalPath_eq_ok_iff`). The code for
the displacement takes that sum apart: constant terms are added up beforehand, variable ones are
brought to pointer width and added at run time, and terms with stride zero are left out. What comes
out has the same low pointer-width bits as the sum, for every pointer width, and it comes out
whenever the address computation itself has a value.

Constant indices enter the code as they are stored, while an evaluation reads them at their width.
The two are the same number only for **normalised** constants (`Value.IsNormal`); that a value is
there at all does not depend on it.
-/

set_option autoImplicit false

namespace PtrTag

/-- An integer constant is stored as the signed number of its width, which is not zero. -/
def Value.IsNormal : Value → Prop
  | .const (.int w bits) => 1 ≤ bits ∧ Word.signed w bits = w
  | _ => True

instance : DecidablePred Value.IsNormal := fun v => by
  unfold Value.IsNormal
  split <;> infer_instance

theorem Word.low_resize (w : Word) {bits target : Nat} (h : bits ≤ target) :
    Word.low (Word.resize w bits target) target = Word.low (Word.signed w bits) target := by
  unfold Word.resize
  by_cases heq : bits = target
  · subst heq
    rw [if_pos rfl, Word.low_signed]
  · have hlt : bits < target := Nat.lt_of_le_of_ne h heq
    rw [if_neg heq, if_pos hlt, Word.low_low]

namespace Func

variable {f : Func} {L : Layout} {env : Env} {ρ : InstId → Except EvalStop Word}

/-! ## The terms of an address computation -/

theorem evalPath_eq_ok_iff {address w : Word} {terms : List (Step × Value)} :
    f.evalPath L env ρ address terms = .ok w ↔
      ∃ d, f.evalPath L env ρ 0 terms = .ok d ∧ w = address + d := by
  induction terms generalizing address w with
  | nil =>
    simp only [evalPath, Except.ok.injEq, exists_eq_left']
    simpa using eq_comm
  | cons term terms ih =>
    obtain ⟨step, index⟩ := term
    cases step with
    | field offset =>
      simp only [evalPath]
      rw [ih]
      constructor
      · rintro ⟨d, hd, rfl⟩
        exact ⟨_, ih.mpr ⟨d, hd, rfl⟩, by simp [BitVec.add_assoc]⟩
      · rintro ⟨d, hd, rfl⟩
        obtain ⟨d', hd', rfl⟩ := ih.mp hd
        exact ⟨d', hd', by simp [BitVec.add_assoc]⟩
    | scaled stride =>
      simp only [evalPath, bind_eq_ok_iff]
      constructor
      · rintro ⟨a, ha, hw⟩
        obtain ⟨d, hd, rfl⟩ := ih.mp hw
        exact ⟨_, ⟨a, ha, ih.mpr ⟨d, hd, rfl⟩⟩, by simp [BitVec.add_assoc]⟩
      · rintro ⟨_, ⟨a, ha, hw⟩, rfl⟩
        obtain ⟨d, hd, rfl⟩ := ih.mp hw
        exact ⟨a, ha, ih.mpr ⟨d, hd, by simp [BitVec.add_assoc]⟩⟩

/-- The index of a scaled term has a value whenever the path has one. -/
theorem of_evalPath_scaled {stride : Nat} {index : Value} {terms : List (Step × Value)} {d : Word}
    (h : f.evalPath L env ρ 0 ((.scaled stride, index) :: terms) = .ok d) :
    ∃ a d', f.evalSigned L env ρ index = .ok a ∧ f.evalPath L env ρ 0 terms = .ok d' ∧
      d = a * .ofNat 64 stride + d' := by
  simp only [evalPath] at h
  obtain ⟨a, ha, h⟩ := bind_eq_ok_iff.mp h
  obtain ⟨d', hd', rfl⟩ := evalPath_eq_ok_iff.mp h
  exact ⟨a, d', ha, hd', by simp⟩

theorem evalSigned_eq_ok_iff {v : Value} {ty : Ty} (hty : f.valueType v = .ok ty) {w : Word} :
    f.evalSigned L env ρ v = .ok w ↔
      ∃ a, f.evalValue L env ρ v = .ok a ∧ w = Word.signed a (L.width ty) := by
  simp only [evalSigned, hty, found, bind_eq_ok_iff, Except.ok.injEq, exists_eq_left', pure,
    Except.pure]
  exact exists_congr fun a => and_congr_right fun _ => eq_comm

/-- A constant that is normalised is read as it is stored. -/
theorem evalSigned_of_isNormal {v : Value} {w : Word} (hw : v.asWord? = some w)
    (hnormal : v.IsNormal) : f.evalSigned L env ρ v = .ok w := by
  cases v with
  | const c =>
    cases c with
    | int value bits =>
      obtain rfl : value = w := Option.some.inj hw
      obtain ⟨hbits, hsigned⟩ := hnormal
      refine (evalSigned_eq_ok_iff rfl).mpr ⟨_, rfl, ?_⟩
      rw [Const.ty, Layout.width_int, Word.signed_low _ hbits, hsigned]
    | _ => exact absurd hw (by simp [Value.asWord?, Const.asWord?])
  | _ => exact absurd hw (by simp [Value.asWord?])

/-- The terms of an address computation come from an index path of the source type. -/
theorem gepTerms_eq_ok_iff {id : InstId} {terms : List (Step × Value)} :
    f.gepTerms L id = .ok terms ↔ ∃ g steps, f.gep id = .ok g ∧
      (∀ v ∈ g.indices, f.checkIndex L v = .ok ()) ∧ L.steps g.source g.indices = .ok steps ∧
        terms = steps.zip g.indices := by
  simp only [gepTerms, bind_eq_ok_iff, pure, Except.pure, Except.ok.injEq]
  constructor
  · rintro ⟨g, hg, u, hcheck, steps, hsteps, rfl⟩
    exact ⟨g, steps, hg, forM_eq_ok_iff.mp hcheck, hsteps, rfl⟩
  · rintro ⟨g, steps, hg, hcheck, hsteps, rfl⟩
    exact ⟨g, hg, (), forM_eq_ok_iff.mpr hcheck, steps, hsteps, rfl⟩

theorem constantOffset_of_gepTerms {id : InstId} {terms : List (Step × Value)}
    (h : f.gepTerms L id = .ok terms) : f.constantOffset L id =
      .ok ((constantSum? terms).map fun sum => Word.signed sum L.pointerBits) := by
  unfold constantOffset
  rw [h]
  rfl

theorem checkIndex_eq_ok_iff {v : Value} :
    f.checkIndex L v = .ok () ↔ ∃ bits, f.valueType v = .ok (.int bits) ∧ bits ≤ L.pointerBits := by
  unfold checkIndex
  cases f.valueType v with
  | error e => simp [bind, Except.bind]
  | ok ty =>
    cases ty with
    | int bits =>
      by_cases h : L.pointerBits < bits
      · simp [bind, Except.bind, h]
      · simp [bind, Except.bind, h, Nat.not_lt.mp h]
    | _ => simp [bind, Except.bind]

end Func

/-- If no term depends on a variable, the sum of the terms is the constant sum. -/
theorem constantSum?_eq {f : Func} {L : Layout} {env : Env} {ρ : InstId → Except EvalStop Word}
    {terms : List (Step × Value)} {sum : Word} (h : constantSum? terms = some sum)
    (hnormal : ∀ t ∈ terms, t.2.IsNormal) : f.evalPath L env ρ 0 terms = .ok sum := by
  induction terms generalizing sum with
  | nil =>
    obtain rfl : (0 : Word) = sum := Option.some.inj h
    rfl
  | cons term terms ih =>
    obtain ⟨step, index⟩ := term
    rw [List.forall_mem_cons] at hnormal
    cases step with
    | field offset =>
      obtain ⟨rest, hrest, rfl⟩ : ∃ rest, constantSum? terms = some rest ∧
          .ofNat 64 offset + rest = sum := by
        simpa [constantSum?, Option.bind_eq_some_iff] using h
      simp only [Func.evalPath]
      exact Func.evalPath_eq_ok_iff.mpr ⟨rest, ih hrest hnormal.2, by simp⟩
    | scaled stride =>
      obtain ⟨w, hw, rest, hrest, rfl⟩ : ∃ w, index.asWord? = some w ∧ ∃ rest,
          constantSum? terms = some rest ∧ w * .ofNat 64 stride + rest = sum := by
        simpa [constantSum?, Option.bind_eq_some_iff] using h
      simp only [Func.evalPath, Func.evalSigned_of_isNormal hw hnormal.1, bind, Except.bind]
      exact Func.evalPath_eq_ok_iff.mpr ⟨rest, ih hrest hnormal.2, by simp⟩

/-! ## The code for the variable terms -/

namespace Func

variable {deps : InstId → Prop} {anchor : InstId} {f f' : Func} {L : Layout}

/-- Code was emitted that computes a number of pointer width: an operand that is not a constant, and
that has the low bits of `meaning` whenever `meaning` has a value. -/
structure Counts (L : Layout) (deps : InstId → Prop) (anchor : InstId) (f : Func)
    (meaning : Env → Func → (InstId → Except EvalStop Word) → Except EvalStop Word) (v : Value)
    (f' : Func) : Prop where
  grows : f.Grows deps anchor f'
  usable : f'.Usable deps (.int L.pointerBits) v
  asWord? : v.asWord? = none
  means : ∀ env F ρ d, Obeys L env F ρ f f' → meaning env F ρ = .ok d →
    ∃ x, F.evalValue L env ρ v = .ok x ∧ Word.low x L.pointerBits = Word.low d L.pointerBits

end Func

namespace Edit

open Func

variable {deps : InstId → Prop} {anchor : InstId} {f : Func} (L : Layout)

theorem yields_emitScaled (h : f.Ready deps anchor) {index : Value} {bits : Nat}
    (hindex : f.Usable deps (.int bits) index) (hbits : bits ≤ L.pointerBits)
    (hword : index.asWord? = none) (stride : Nat) (name : Option String) :
    Yields (emitScaled anchor L.pointerBits stride index name) f
      (Counts L deps anchor f fun env F ρ => do
        let w ← F.evalSigned L env ρ index
        return w * .ofNat 64 stride) := by
  refine (yields_emitResize L h hindex hword L.pointerBits _).bind fun v f₁ hv => ?_
  have hresized : ∀ {env F ρ w}, Obeys L env F ρ f f₁ → F.evalSigned L env ρ index = .ok w →
      ∃ x, F.evalValue L env ρ v = .ok x ∧
        Word.low x L.pointerBits = Word.low w L.pointerBits := by
    intro env F ρ w hobeys hw
    have htype : F.valueType index = .ok (.int bits) :=
      hobeys.typed index _ (hv.grows.valueType hindex.type)
    obtain ⟨a, ha, rfl⟩ := (evalSigned_eq_ok_iff htype).mp hw
    refine ⟨Word.resize a bits L.pointerBits, (hv.means env F ρ hobeys _).mpr ?_,
      Word.low_resize a hbits⟩
    simp only [ha, bind, Except.bind, pure, Except.pure]
  by_cases hone : stride = 1
  · simp only [hone, if_true]
    refine Yields.pure ⟨hv.grows, hv.usable, hv.asWord?, fun env F ρ d hobeys hd => ?_⟩
    obtain ⟨w, hw, hd⟩ := bind_eq_ok_iff.mp hd
    obtain rfl : w * 1#64 = d := Except.ok.inj hd
    obtain ⟨x, hx, hlow⟩ := hresized hobeys hw
    exact ⟨x, hx, by rw [BitVec.mul_one, hlow]⟩
  · simp only [hone, if_false]
    refine (yields_emitBinary L (h.grow hv.grows) hv.usable (usable_ofWord _ _) (.inl hv.asWord?)
      (by decide) _).mono fun r f₂ hr => ?_
    refine ⟨hv.grows.trans hr.grows, hr.usable, hr.asWord?, fun env F ρ d hobeys hd => ?_⟩
    obtain ⟨w, hw, hd⟩ := bind_eq_ok_iff.mp hd
    obtain rfl : w * BitVec.ofNat 64 stride = d := Except.ok.inj hd
    obtain ⟨x, hx, hlow⟩ := hresized (hobeys.left hr.grows) hw
    refine ⟨Word.low (x * Word.low (.ofNat 64 stride) L.pointerBits) L.pointerBits,
      (hr.means env F ρ (hobeys.right hv.grows) _).mpr ?_, ?_⟩
    · rw [hx, evalValue_ofWord]
      rfl
    · rw [Word.low_low]
      exact Word.low_mul_congr hlow (Word.low_low _ _)

/-- The sum so far, of which there may be nothing yet. -/
def SumUsable (deps : InstId → Prop) (f : Func) (sum : Option Value) : Prop :=
  ∀ v, sum = some v → f.Usable deps (.int L.pointerBits) v ∧ v.asWord? = none

/-- The value of the sum so far; nothing is zero. -/
def sumValue (env : Env) (F : Func) (ρ : InstId → Except EvalStop Word) :
    Option Value → Except EvalStop Word
  | none => .ok 0
  | some v => F.evalValue L env ρ v

theorem yields_emitPlus (h : f.Ready deps anchor) {sum : Option Value} {v : Value}
    (hsum : SumUsable L deps f sum) (hv : f.Usable deps (.int L.pointerBits) v)
    (hword : sum = none → v.asWord? = none) (name : Option String) :
    Yields (emitPlus anchor sum v name) f
      (Counts L deps anchor f fun env F ρ => do
        let s ← sumValue L env F ρ sum
        let w ← F.evalValue L env ρ v
        return s + w) := by
  cases sum with
  | none =>
    refine Yields.pure ⟨Grows.refl h.coherent, hv, hword rfl, fun env F ρ d _ hd => ?_⟩
    obtain ⟨s, hs, hd⟩ := bind_eq_ok_iff.mp hd
    obtain ⟨w, hw, hd⟩ := bind_eq_ok_iff.mp hd
    obtain rfl : (0 : Word) = s := Except.ok.inj hs
    obtain rfl : 0 + w = d := Except.ok.inj hd
    exact ⟨w, hw, by simp⟩
  | some sum =>
    obtain ⟨husable, hnone⟩ := hsum sum rfl
    refine (yields_emitBinary L h husable hv (.inl hnone) (by decide) _).mono fun r f' hr => ?_
    refine ⟨hr.grows, hr.usable, hr.asWord?, fun env F ρ d hobeys hd => ?_⟩
    obtain ⟨s, hs, hd⟩ := bind_eq_ok_iff.mp hd
    obtain ⟨w, hw, hd⟩ := bind_eq_ok_iff.mp hd
    obtain rfl : s + w = d := Except.ok.inj hd
    have hs : F.evalValue L env ρ sum = .ok s := hs
    refine ⟨Word.low (s + w) L.pointerBits, (hr.means env F ρ hobeys _).mpr ?_, Word.low_low _ _⟩
    simp only [hs, hw, bind, Except.bind, pure, Except.pure, BinOp.apply, Layout.width_int]

/-- The terms are integers not wider than a pointer, and may be used. -/
def TermsUsable (deps : InstId → Prop) (f : Func) (terms : List (Step × Value)) : Prop :=
  ∀ t ∈ terms, ∃ bits, bits ≤ L.pointerBits ∧ f.Usable deps (.int bits) t.2

theorem TermsUsable.grow {terms : List (Step × Value)} {f' : Func}
    (h : TermsUsable L deps f terms) {deps' : InstId → Prop} (hg : f.Grows deps' anchor f') :
    TermsUsable L deps f' terms := by
  intro t ht
  obtain ⟨bits, hbits, hu⟩ := h t ht
  exact ⟨bits, hbits, hu.grow hg⟩

/-- A known part and a sum that together come to `known`, the sum so far and all of `terms`. -/
structure Totals (L : Layout) (deps : InstId → Prop) (anchor : InstId) (f : Func) (known : Word)
    (sum : Option Value) (terms : List (Step × Value)) (r : Word × Option Value) (f' : Func) :
    Prop where
  grows : f.Grows deps anchor f'
  usable : SumUsable L deps f' r.2
  means : ∀ env F ρ s d, Obeys L env F ρ f f' → sumValue L env F ρ sum = .ok s →
    F.evalPath L env ρ 0 terms = .ok d → ∃ s', sumValue L env F ρ r.2 = .ok s' ∧
      ((∀ t ∈ terms, t.2.IsNormal) →
        Word.low (r.1 + s') L.pointerBits = Word.low (known + s + d) L.pointerBits)

/-- A term for which nothing is emitted goes over to the known part. -/
theorem Totals.cons {L : Layout} {f f' : Func} {known x : Word} {sum : Option Value}
    {term : Step × Value} {terms : List (Step × Value)} {r : Word × Option Value}
    (h : Totals L deps anchor f (known + x) sum terms r f')
    (hterm : ∀ env (F : Func) ρ d, F.evalPath L env ρ 0 (term :: terms) = .ok d →
      ∃ d', F.evalPath L env ρ 0 terms = .ok d' ∧ (term.2.IsNormal → d = x + d')) :
    Totals L deps anchor f known sum (term :: terms) r f' := by
  refine ⟨h.grows, h.usable, fun env F ρ s d hobeys hs hd => ?_⟩
  obtain ⟨d', hd', hx⟩ := hterm env F ρ d hd
  obtain ⟨s', hs', hlow⟩ := h.means env F ρ s d' hobeys hs hd'
  refine ⟨s', hs', fun hnormal => ?_⟩
  rw [List.forall_mem_cons] at hnormal
  have hadd : known + x + s + d' = known + s + (x + d') := by ac_rfl
  rw [hlow hnormal.2, hx hnormal.1, hadd]

/-- A term for which code is emitted goes over to the sum. -/
theorem Totals.cons_emitted {L : Layout} {f f₁ f₂ f' : Func} {known : Word} {sum : Option Value}
    {stride : Nat} {index v p : Value} {terms : List (Step × Value)} {r : Word × Option Value}
    (h : Totals L deps anchor f₂ known (some p) terms r f')
    (hv : Counts L deps anchor f (fun env F ρ => do
      let w ← F.evalSigned L env ρ index
      return w * .ofNat 64 stride) v f₁)
    (hp : Counts L deps anchor f₁ (fun env F ρ => do
      let s ← sumValue L env F ρ sum
      let w ← F.evalValue L env ρ v
      return s + w) p f₂) :
    Totals L deps anchor f known sum ((.scaled stride, index) :: terms) r f' := by
  have hg := hv.grows.trans hp.grows
  refine ⟨hg.trans h.grows, h.usable, fun env F ρ s d hobeys hs hd => ?_⟩
  obtain ⟨a, d', ha, hd', rfl⟩ := of_evalPath_scaled hd
  have hobeys₂ := hobeys.left h.grows
  -- The scaled index is `x`, and with it the sum grows from `s` to `y`.
  obtain ⟨x, hx, hxlow⟩ := hv.means env F ρ (a * .ofNat 64 stride) (hobeys₂.left hp.grows)
    (by rw [ha]; rfl)
  obtain ⟨y, hy, hylow⟩ := hp.means env F ρ (s + x) (hobeys₂.right hv.grows) (by rw [hs, hx]; rfl)
  obtain ⟨s', hs', hlow⟩ := h.means env F ρ y d' (hobeys.right hg) hy hd'
  refine ⟨s', hs', fun hnormal => ?_⟩
  rw [hlow fun t ht => hnormal t (List.mem_cons_of_mem _ ht)]
  calc Word.low (known + y + d') L.pointerBits
      = Word.low (known + (s + x) + d') L.pointerBits :=
        Word.low_add_congr (Word.low_add_congr rfl hylow) rfl
    _ = Word.low (known + (s + a * .ofNat 64 stride) + d') L.pointerBits :=
        Word.low_add_congr (Word.low_add_congr rfl (Word.low_add_congr rfl hxlow)) rfl
    _ = Word.low (known + s + (a * .ofNat 64 stride + d')) L.pointerBits := by
        simp only [BitVec.add_assoc]

/-- What is known and what is computed add up to the terms. The induction is on the terms; the
invariant is that known part, sum so far and terms still to come make the same total. -/
theorem yields_emitTerms (h : f.Ready deps anchor) {terms : List (Step × Value)}
    (hterms : TermsUsable L deps f terms) {sum : Option Value} (hsum : SumUsable L deps f sum)
    (known : Word) (name : Option String) :
    Yields (emitTerms anchor L.pointerBits name known sum terms) f
      (Totals L deps anchor f known sum terms) := by
  induction terms generalizing f known sum with
  | nil =>
    refine Yields.pure ⟨Grows.refl h.coherent, hsum, fun env F ρ s d _ hs hd => ⟨s, hs, fun _ => ?_⟩⟩
    obtain rfl : (0 : Word) = d := Except.ok.inj hd
    simp
  | cons term terms ih =>
    obtain ⟨step, index⟩ := term
    have hrest : TermsUsable L deps f terms := fun t ht => hterms t (List.mem_cons_of_mem _ ht)
    cases step with
    | field offset =>
      simp only [emitTerms]
      refine (ih h hrest hsum _).mono fun r f' hr => hr.cons fun env F ρ d hd => ?_
      simp only [evalPath] at hd
      obtain ⟨d', hd', rfl⟩ := evalPath_eq_ok_iff.mp hd
      exact ⟨d', hd', fun _ => by simp⟩
    | scaled stride =>
      cases hw : index.asWord? with
      | some w =>
        simp only [emitTerms, hw]
        refine (ih h hrest hsum _).mono fun r f' hr => hr.cons fun env F ρ d hd => ?_
        obtain ⟨a, d', ha, hd', rfl⟩ := of_evalPath_scaled hd
        refine ⟨d', hd', fun hnormal => ?_⟩
        rw [evalSigned_of_isNormal hw hnormal] at ha
        rw [Except.ok.inj ha]
      | none =>
        simp only [emitTerms, hw]
        by_cases hstride : stride = 0
        · simp only [hstride, if_true]
          have hzero : known = known + 0 := by simp
          refine (ih h hrest hsum known).mono fun r f' hr => ?_
          rw [hzero] at hr
          refine hr.cons fun env F ρ d hd => ?_
          obtain ⟨a, d', -, hd', rfl⟩ := of_evalPath_scaled hd
          exact ⟨d', hd', fun _ => by simp⟩
        · simp only [hstride, if_false]
          obtain ⟨bits, hbits, husable⟩ := hterms _ List.mem_cons_self
          refine (yields_emitScaled L h husable hbits hw stride name).bind fun v f₁ hv => ?_
          have hsum₁ : SumUsable L deps f₁ sum := fun w he =>
            ⟨(hsum w he).1.grow hv.grows, (hsum w he).2⟩
          refine (yields_emitPlus L (h.grow hv.grows) hsum₁ hv.usable (fun _ => hv.asWord?)
            name).bind fun p f₂ hp => ?_
          have hg := hv.grows.trans hp.grows
          have hsum₂ : SumUsable L deps f₂ (some p) := fun w he => by
            obtain rfl : p = w := Option.some.inj he
            exact ⟨hp.usable, hp.asWord?⟩
          refine (ih (h.grow hg) (TermsUsable.grow L hrest hg) hsum₂ known).mono fun r f' hr => ?_
          exact hr.cons_emitted hv hp

end Edit

/-! ## The displacement -/

namespace Func

variable {deps : InstId → Prop} {anchor : InstId} {f f' : Func} {L : Layout}

theorem Grows.gepTerms (hg : f.Grows deps anchor f') {id : InstId} {terms : List (Step × Value)}
    (h : f.gepTerms L id = .ok terms) : f'.gepTerms L id = .ok terms := by
  obtain ⟨g, steps, hgep, hcheck, hsteps, rfl⟩ := gepTerms_eq_ok_iff.mp h
  obtain ⟨i, hi, hop⟩ := gep_eq_ok_iff.mp hgep
  obtain ⟨more, hi'⟩ := hg.kept id i hi
  refine gepTerms_eq_ok_iff.mpr
    ⟨g, steps, gep_eq_ok_iff.mpr ⟨_, hi', hop⟩, fun v hv => ?_, hsteps, rfl⟩
  obtain ⟨bits, htype, hbits⟩ := checkIndex_eq_ok_iff.mp (hcheck v hv)
  exact checkIndex_eq_ok_iff.mpr ⟨bits, hg.valueType htype, hbits⟩

/-- Code was emitted for the sum of `terms`: it has a value whenever the sum has one, and the same low
bits if constants are normalised. -/
structure Displaces (L : Layout) (deps : InstId → Prop) (anchor : InstId) (f : Func)
    (terms : List (Step × Value)) (v : Value) (f' : Func) : Prop where
  grows : f.Grows deps anchor f'
  usable : f'.Usable deps (.int L.pointerBits) v
  means : ∀ env F ρ d, Obeys L env F ρ f f' → F.evalPath L env ρ 0 terms = .ok d →
    ∃ x, F.evalValue L env ρ v = .ok x ∧ ((∀ t ∈ terms, t.2.IsNormal) →
      Word.low x L.pointerBits = Word.low d L.pointerBits)

end Func

namespace Edit

open Func

variable {deps : InstId → Prop} {anchor : InstId} {f : Func} (L : Layout)

theorem low_known_of_isZero {known : Word} {bits : Nat} (h : (Value.ofWord known bits).isZero) :
    Word.low known bits = Word.low 0 bits := by
  have hzero : Word.signed known bits = 0 := by
    simpa [Value.ofWord, Const.ofWord, Value.isZero] using h
  rw [← Word.low_signed, hzero]

theorem yields_emitOffset (h : f.Ready deps anchor) {gep : InstId} {terms : List (Step × Value)}
    (hgep : f.gepTerms L gep = .ok terms) (hterms : TermsUsable L deps f terms)
    (name : Option String) :
    Yields (emitOffset anchor L gep name) f (Displaces L deps anchor f terms) := by
  refine Yields.ask_bind hgep ?_
  have hnone : SumUsable L deps f none := fun _ he => absurd he (by simp)
  refine (yields_emitTerms L h hterms hnone 0 name).bind ?_
  rintro ⟨known, sum⟩ f₁ ⟨hg, hsum, hmeans⟩
  -- Known part and sum come to the displacement; what is left is to add the two.
  have htotal : ∀ env F ρ d, Obeys L env F ρ f f₁ → F.evalPath L env ρ 0 terms = .ok d →
      ∃ s, sumValue L env F ρ sum = .ok s ∧ ((∀ t ∈ terms, t.2.IsNormal) →
        Word.low (known + s) L.pointerBits = Word.low d L.pointerBits) := by
    intro env F ρ d hobeys hd
    obtain ⟨s, hs, hlow⟩ := hmeans env F ρ 0 d hobeys rfl hd
    exact ⟨s, hs, fun hnormal => by simpa using hlow hnormal⟩
  cases sum with
  | none =>
    refine Yields.pure ⟨hg, usable_ofWord _ _, fun env F ρ d hobeys hd => ?_⟩
    obtain ⟨s, hs, hlow⟩ := htotal env F ρ d hobeys hd
    obtain rfl : (0 : Word) = s := Except.ok.inj hs
    refine ⟨_, evalValue_ofWord known _, fun hnormal => ?_⟩
    rw [Word.low_low, ← hlow hnormal]
    simp
  | some v =>
    dsimp only
    split
    · next hzero =>
      refine Yields.pure ⟨hg, (hsum v rfl).1, fun env F ρ d hobeys hd => ?_⟩
      obtain ⟨s, hs, hlow⟩ := htotal env F ρ d hobeys hd
      refine ⟨s, hs, fun hnormal => ?_⟩
      calc Word.low s L.pointerBits = Word.low (0 + s) L.pointerBits := by simp
        _ = Word.low (known + s) L.pointerBits :=
            Word.low_add_congr (low_known_of_isZero hzero).symm rfl
        _ = Word.low d L.pointerBits := hlow hnormal
    · refine (yields_emitPlus L (h.grow hg) hsum (usable_ofWord known _) (by simp) name).mono
        fun r f₂ hr => ?_
      refine ⟨hg.trans hr.grows, hr.usable, fun env F ρ d hobeys hd => ?_⟩
      obtain ⟨s, hs, hlow⟩ := htotal env F ρ d (hobeys.left hr.grows) hd
      obtain ⟨x, hx, hxlow⟩ := hr.means env F ρ (s + Word.low known L.pointerBits)
        (hobeys.right hg) (by rw [hs, evalValue_ofWord]; rfl)
      refine ⟨x, hx, fun hnormal => ?_⟩
      rw [hxlow, ← hlow hnormal, BitVec.add_comm known]
      exact Word.low_add_congr rfl (Word.low_low _ _)

theorem yields_emitDisplacement (h : f.Ready deps anchor) {gep : InstId}
    {terms : List (Step × Value)} (hgep : f.gepTerms L gep = .ok terms)
    (hterms : TermsUsable L deps f terms) (name : Option String) :
    Yields (emitDisplacement anchor L gep name) f fun d f' =>
      Displaces L deps anchor f terms (d.toValue L.pointerBits) f' ∧
        d.isConstant = (constantSum? terms).isSome := by
  refine Yields.ask_bind (constantOffset_of_gepTerms hgep) ?_
  cases hsum : constantSum? terms with
  | none => exact Yields.map ((yields_emitOffset L h hgep hterms name).mono fun v f' hv => ⟨hv, rfl⟩)
  | some sum =>
    refine Yields.pure ⟨⟨Grows.refl h.coherent, usable_ofWord _ _, fun env F ρ d _ hd => ?_⟩, rfl⟩
    refine ⟨_, evalValue_ofWord _ _, fun hnormal => ?_⟩
    obtain rfl : sum = d := Except.ok.inj ((constantSum?_eq hsum hnormal).symm.trans hd)
    rw [Word.low_low, Word.low_signed]

end Edit

end PtrTag
