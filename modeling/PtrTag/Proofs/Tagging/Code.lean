import PtrTag.Proofs.Folding
import PtrTag.Proofs.Tagging.Step

/-!
# `PtrTag/Proofs/Tagging/Code.lean` — which instructions a tag is made of

What a function computes with is read off its arena: the **operators** of its instructions, in the order
in which they were made. Emission puts an operator at the end, unless it folds, and nothing that is done
to the users of a pointer or to its marks changes one. So the operators that a tag adds are those of its
code (`operators_tagGep`).

If the displacement is a constant, that code is the same seven operators for every pointer: the
displacement is folded all the way to the place of the offset, and no multiplication and no left shift is
left of it.
-/

set_option autoImplicit false

namespace PtrTag

/-- The operator of arithmetic; other operations have none. -/
def Op.operator? : Op → Option (BinOp ⊕ CastOp)
  | .binary op _ _ => some (.inl op)
  | .cast op _ => some (.inr op)
  | _ => none

@[simp] theorem Op.operator?_mapOperands (φ : Value → Value) (op : Op) :
    (op.mapOperands φ).operator? = op.operator? := by
  cases op <;> rfl

namespace Func

variable {f : Func}

/-- The operators of the instructions, in the order of the arena. -/
def operators (f : Func) : List (Option (BinOp ⊕ CastOp)) := f.insts.toList.map (·.op.operator?)

def HasOperators (o : List (Option (BinOp ⊕ CastOp))) (f : Func) : Prop := f.operators = o

@[simp] theorem length_operators : f.operators.length = f.insts.size := by
  simp [operators]

theorem getElem?_operators (id : InstId) : f.operators[id]? = f.insts[id]?.map (·.op.operator?) := by
  simp [operators]

theorem operators_modifyInst {id : InstId} {change : Inst → Inst}
    (h : ∀ i, (change i).op.operator? = i.op.operator?) :
    (f.modifyInst id change).operators = f.operators := by
  apply List.ext_getElem?
  intro j
  rw [getElem?_operators, getElem?_operators, getElem?_modifyInst]
  by_cases hid : id = j
  · simp [hid, Function.comp_def, h]
  · simp [hid]

theorem operators_place (d : Draft) (b : BlockId) (pos : Nat) :
    (f.place d b pos).operators = f.operators ++ [d.op.operator?] := by
  have hregister : ∀ (F : Func) (user : InstId) (used : List InstId),
      (F.registerUses user used).operators = F.operators := by
    intro F user used
    apply List.ext_getElem?
    intro j
    rw [getElem?_operators, getElem?_operators, getElem?_registerUses, Option.map_map]
    rfl
  unfold place
  simp only [hregister]
  simp [operators]

theorem operators_redirect (user gone : InstId) (repl : Value) (times : Nat) :
    (f.redirect user gone repl times).operators = f.operators := by
  apply List.ext_getElem?
  intro j
  rw [getElem?_operators, getElem?_operators, getElem?_redirect, Option.map_map]
  by_cases hj : user = j
  · simp [hj, Function.comp_def]
  · simp [hj, Function.comp_def]

end Func

/-! ## Emission -/

namespace Edit

open Func

variable {anchor : InstId} {f f' : Func} {s : Scheme} {L : Layout}

theorem operators_emit {op : Op} {ty : Ty} {name : Option String} {r : InstId}
    (h : emit anchor op ty name f = .ok r f') : f'.operators = f.operators ++ [op.operator?] := by
  obtain ⟨i, -, h⟩ := ok_of_ask_bind h
  obtain ⟨block, -, h⟩ := ok_of_ask_bind h
  obtain ⟨pos, -, h⟩ := ok_of_ask_bind h
  rw [create_run] at h
  split at h
  · cases h
    exact operators_place _ _ _
  · cases h

/-- A binary operation on something that is not a constant is emitted, and is not a constant either. -/
theorem operators_emitBinary {op : BinOp} {lhs rhs v : Value} {name : Option String}
    (hfold : lhs.asWord? = none ∨ rhs.asWord? = none)
    (h : emitBinary anchor op lhs rhs name f = .ok v f') :
    f'.operators = f.operators ++ [some (.inl op)] ∧ v.asWord? = none := by
  rw [emitBinary_eq_emit hfold] at h
  obtain ⟨ty, -, h⟩ := ok_of_ask_bind h
  obtain ⟨r, f₁, hr, h⟩ := ok_of_bind h
  cases h
  exact ⟨operators_emit hr, rfl⟩

theorem operators_emitMask {address mask : Value} {name : Option String}
    (haddress : address.asWord? = none) (h : emitMask s anchor address name f = .ok mask f') :
    f'.operators = f.operators ++ [some (.inl .lshr), some (.inl .and), some (.inl .sub)] ∧
      mask.asWord? = none := by
  obtain ⟨upper, f₁, h₁, h⟩ := ok_of_bind h
  obtain ⟨flag, f₂, h₂, h⟩ := ok_of_bind h
  obtain ⟨bits, -, h₃⟩ := ok_of_ask_bind h
  obtain ⟨ho₁, hupper⟩ := operators_emitBinary (.inl haddress) h₁
  obtain ⟨ho₂, hflag⟩ := operators_emitBinary (.inl hupper) h₂
  obtain ⟨ho₃, hmask⟩ := operators_emitBinary (.inr hflag) h₃
  refine ⟨?_, hmask⟩
  rw [ho₃, ho₂, ho₁]
  simp

/-- Nothing is emitted to bring a constant displacement to the place of the offset. -/
theorem emitShifted_of_constant {gep : InstId} {bytes : Word}
    (h : f.constantOffset L gep = .ok (some bytes)) (s : Scheme) (anchor : InstId)
    (name : Option String) : ∃ out, emitShifted s L anchor gep name f = .ok out f := by
  have hdisplacement : emitDisplacement anchor L gep name f = .ok (.constant bytes) f := by
    show (ask (·.constantOffset L gep) >>= _) f = _
    rw [ask_bind_of_ok h]
    rfl
  have hresize := emitResize_const anchor (Word.signed_signed bytes L.pointerBits) 64 none f
  exact ⟨_, (bind_of_ok hdisplacement).trans ((bind_of_ok hresize).trans
    (bind_of_ok (emitBinary_const anchor .shl _ _ 64 _ f)))⟩

/-- A displacement that comes out as a constant took no code. -/
theorem eq_of_emitShifted {gep : InstId} {name : Option String} {v : Value}
    (h : emitShifted s L anchor gep name f = .ok (v, true) f') : f' = f := by
  obtain ⟨displacement, f₁, hdisplacement, hrest⟩ := ok_of_bind h
  obtain ⟨bytes, hbytes, hdisplacement⟩ := ok_of_ask_bind hdisplacement
  cases bytes with
  | some bytes =>
    obtain ⟨out, hshifted⟩ := emitShifted_of_constant hbytes s anchor name
    rw [hshifted] at h
    cases h
    rfl
  | none =>
    obtain ⟨offset, f₂, -, hmap⟩ := ok_of_bind hdisplacement
    cases hmap
    obtain ⟨_, f₃, -, hrest⟩ := ok_of_bind hrest
    obtain ⟨_, f₄, -, hrest⟩ := ok_of_bind hrest
    cases hrest

/-- What is emitted elsewhere does not make a displacement another one. -/
theorem keepsArith_constantOffset (L : Layout) (anchor gep : InstId) (bytes : Option Word) :
    KeepsArith (fun F => F.Coherent ∧ F.constantOffset L gep = .ok bytes) anchor := by
  intro op ty name _ f hf
  refine after_insertBefore (P := fun F => F.Coherent ∧ F.constantOffset L gep = .ok bytes) hf
    fun i pos hi hpos hop => ?_
  obtain ⟨hf, hbytes⟩ := hf
  have hgrows : f.Grows (fun _ => True) anchor (f.place _ i.block pos) :=
    hf.grows_place hi hpos hop fun _ _ => trivial
  obtain ⟨terms, hterms, hsum⟩ := bind_eq_ok_iff.mp hbytes
  exact ⟨hgrows.coherent, (constantOffset_of_gepTerms (hgrows.gepTerms hterms)).trans hsum⟩

/-- The operators of a tag for a constant displacement. -/
def tagOperators : List (Option (BinOp ⊕ CastOp)) :=
  [some (.inr .ptrToInt), some (.inl .lshr), some (.inl .and), some (.inl .sub), some (.inl .and),
    some (.inl .add), some (.inr .intToPtr)]

theorem keepsArith_operators (o : List (Option (BinOp ⊕ CastOp))) (anchor : InstId) :
    KeepsArith (fun F => o <+: F.operators) anchor := by
  intro op ty name _ f hf
  refine after_insertBefore (P := fun F => o <+: F.operators) hf fun i pos _ _ _ => ?_
  rw [operators_place]
  exact hf.trans (List.prefix_append _ _)

theorem operators_emitShifted {gep : InstId} {name : Option String} {out : Value × Bool}
    (h : emitShifted s L anchor gep name f = .ok out f') : f.operators <+: f'.operators := by
  have hkeeps := keepsArith_operators f.operators anchor
  exact ((hkeeps.emitDisplacement _ _ _).bind fun _ => (hkeeps.emitResize _ _ _).bind fun _ =>
    (hkeeps.emitBinary _ _ _ _).bind fun _ => Keeps.pure _).of_ok (List.prefix_refl _) h

/-- The code of a tag is the mask, then the code for the displacement, which may be none, and then what
adds the two to the pointer. -/
theorem exists_operators_emitTagged {gep r : InstId} {ty : Ty} {name : Option String}
    {constant : Bool} (h : emitTagged s L anchor gep ty name f = .ok (r, constant) f') :
    ∃ f₁ f₂ shifted offset, (∀ P, KeepsArith P anchor → P f → P f₁) ∧
      emitShifted s L anchor gep name f₁ = .ok (shifted, constant) f₂ ∧
        f₂.operators = f₁.operators ++ offset ∧
          f'.operators = f.operators ++ (tagOperators.take 4 ++ offset ++ tagOperators.drop 4) := by
  rw [emitTagged_eq] at h
  obtain ⟨address, f₀, h₀, h⟩ := ok_of_bind h
  obtain ⟨mask, f₁, h₁, h⟩ := ok_of_bind h
  obtain ⟨⟨shifted, constant⟩, f₂, h₂, h⟩ := ok_of_bind h
  obtain ⟨tag, f₃, h₃, h⟩ := ok_of_bind h
  obtain ⟨sum, f₄, h₄, h⟩ := ok_of_bind h
  obtain ⟨r, f₅, h₅, h⟩ := ok_of_bind h
  cases h
  obtain ⟨offset, hoffset⟩ := operators_emitShifted h₂
  refine ⟨f₁, f₂, shifted, offset, fun P hkeeps hP => ?_, h₂, hoffset.symm, ?_⟩
  · exact ((hkeeps.emitBinary _ _ _ _).bind fun _ => (hkeeps.emitBinary _ _ _ _).bind
      fun _ => hkeeps.emitNeg _ _).of_ok ((hkeeps _ _ _ rfl).of_ok hP h₀) h₁
  · have ho₀ := operators_emit h₀
    obtain ⟨ho₁, hmask⟩ := operators_emitMask rfl h₁
    obtain ⟨ho₃, htag⟩ := operators_emitBinary (.inr hmask) h₃
    obtain ⟨ho₄, -⟩ := operators_emitBinary (.inr htag) h₄
    have ho₅ := operators_emit h₅
    rw [ho₅, ho₄, ho₃, ← hoffset, ho₁, ho₀]
    simp [tagOperators, Op.operator?]

theorem operators_emitTagged (hf : f.Coherent) {gep : InstId} {bytes : Word}
    (hbytes : f.constantOffset L gep = .ok (some bytes)) {ty : Ty} {name : Option String}
    {out : InstId × Bool} (h : emitTagged s L anchor gep ty name f = .ok out f') :
    f'.operators = f.operators ++ tagOperators := by
  obtain ⟨f₁, f₂, shifted, offset, hkept, hshifted, hoffset, hcode⟩ := exists_operators_emitTagged h
  -- The displacement is asked for after the mask was emitted, and is still the same constant.
  have hbytes₁ := hkept _ (keepsArith_constantOffset L anchor gep (some bytes)) ⟨hf, hbytes⟩
  obtain ⟨out, hconstant⟩ := emitShifted_of_constant hbytes₁.2 s anchor name
  rw [hconstant] at hshifted
  cases hshifted
  obtain rfl : offset = [] := List.append_right_eq_self.mp hoffset.symm
  exact hcode

/-! ## The whole step -/

theorem keeps_operators_replaceUsesIn (o : List (Option (BinOp ⊕ CastOp))) (gone : InstId)
    (repl : Value) (users : List InstId) : Keeps (HasOperators o) (replaceUsesIn gone repl users) := by
  refine Keeps.replaceUsesIn (fun user f hf => ?_) users
  exact after_replaceUses hf fun _ _ _ => (operators_redirect _ _ _ _).trans hf

/-- What a step that tags a pointer consists of. -/
theorem ok_of_tagGep {globals : List String} {gep r : InstId} {constant split : Bool}
    (h : tagGep s L globals gep f = .ok (.tagged r constant split) f') :
    ∃ i site fe n fr, f.insts[gep]? = some i ∧
      emitTagged s L site gep i.ty i.name f = .ok (r, constant) fe ∧
        replaceUsesIn gep (.inst r) (f.distinctUsers i.users) fe = .ok n fr ∧ f' = fr.finish gep := by
  obtain ⟨why, hskip, h⟩ := ok_of_ask_bind h
  cases why with
  | some why => cases h
  | none =>
    obtain ⟨_, -, h⟩ := ok_of_ask_bind h
    obtain ⟨i, hi, h⟩ := ok_of_ask_bind h
    obtain ⟨users, husers, h⟩ := ok_of_ask_bind h
    obtain ⟨site, fs, hsite, h⟩ := ok_of_bind h
    obtain ⟨⟨copy, fixed⟩, fe, hemit, h⟩ := ok_of_bind h
    obtain ⟨n, fr, hreplace, h⟩ := ok_of_bind h
    obtain ⟨_, fm, hmark, h⟩ := ok_of_bind h
    obtain ⟨_, -, hmark⟩ := ok_of_ask_bind hmark
    cases husers
    cases hmark
    cases h
    rw [inst_eq_ok_iff] at hi
    -- The place behind an address computation is only looked up.
    obtain rfl : fs = f := by
      obtain ⟨j, g, hj, hop⟩ := gep_of_skipReason hskip
      rw [siteAfter_gep hj hop] at hsite
      obtain ⟨_, -, hsite⟩ := ok_of_ask_bind hsite
      obtain ⟨_, -, hsite⟩ := ok_of_ask_bind hsite
      cases hsite
      rfl
    exact ⟨i, site.before, fe, n, fr, hi, hemit, hreplace, rfl⟩

/-- The code of a step is what it emits; giving it to users changes no operator. -/
theorem exists_emitTagged_of_tagGep {globals : List String} {gep r : InstId} {constant split : Bool}
    (h : tagGep s L globals gep f = .ok (.tagged r constant split) f') :
    ∃ (i : Inst) (site : InstId) (fe : Func),
      emitTagged s L site gep i.ty i.name f = .ok (r, constant) fe ∧ f'.operators = fe.operators := by
  obtain ⟨i, site, fe, n, fr, -, hemit, hreplace, rfl⟩ := ok_of_tagGep h
  have hfr : fr.operators = fe.operators :=
    (keeps_operators_replaceUsesIn fe.operators _ _ _).of_ok rfl hreplace
  have hfinish : (fr.finish gep).operators = fr.operators := operators_modifyInst fun _ => rfl
  exact ⟨i, site, fe, hemit, hfinish.trans hfr⟩

theorem operators_tagGep (hf : f.Coherent) {globals : List String} {gep r : InstId}
    {constant split : Bool} {bytes : Word} (hbytes : f.constantOffset L gep = .ok (some bytes))
    (h : tagGep s L globals gep f = .ok (.tagged r constant split) f') :
    f'.operators = f.operators ++ tagOperators := by
  obtain ⟨i, site, fe, hemit, hsame⟩ := exists_emitTagged_of_tagGep h
  rw [hsame, operators_emitTagged hf hbytes hemit]

/-- The code of a tag is at least that for a constant displacement, and no more if the tag is counted as
one with a constant displacement. -/
theorem exists_operators_tagGep {globals : List String} {gep r : InstId} {constant split : Bool}
    (h : tagGep s L globals gep f = .ok (.tagged r constant split) f') :
    ∃ offset, f'.operators = f.operators ++ (tagOperators.take 4 ++ offset ++ tagOperators.drop 4) ∧
      (constant = true → offset = []) := by
  obtain ⟨i, site, fe, hemit, hsame⟩ := exists_emitTagged_of_tagGep h
  obtain ⟨f₁, f₂, shifted, offset, -, hshifted, hoffset, hcode⟩ := exists_operators_emitTagged hemit
  refine ⟨offset, hsame.trans hcode, ?_⟩
  rintro rfl
  rw [eq_of_emitShifted hshifted] at hoffset
  exact List.append_right_eq_self.mp hoffset.symm

end Edit

end PtrTag
