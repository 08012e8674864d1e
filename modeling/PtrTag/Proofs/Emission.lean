import PtrTag.Func.Emit
import PtrTag.Proofs.Func.Keep
import PtrTag.Proofs.Func.Eval
import PtrTag.Proofs.Word

/-!
# `PtrTag/Proofs/Emission.lean` — what emitted code is and what it computes

Emission only ever adds: `Func.Grows` says that new instructions stand in a row right before the
anchor, that they use only results that were named beforehand (`deps`) or were emitted earlier, and
that everything else is as it was. It is transitive, so a sequence of emissions is one emission.

What the code computes is said about a valuation `ρ` that satisfies the equations of the new
instructions (`Func.Obeys`). The function in which operands are evaluated may have changed since, as
long as it types them as before: the code is given a meaning once, and keeps it through whatever
happens to the function afterwards.
-/

set_option autoImplicit false

namespace PtrTag

namespace Func

variable {deps : InstId → Prop} {anchor : InstId} {f f₁ f₂ f' : Func}

/-! ## Growing before an anchor -/

/-- `f'` is `f` with new instructions right before `anchor`, which use results in `deps`. -/
structure Grows (deps : InstId → Prop) (anchor : InstId) (f f' : Func) : Prop where
  coherent : f'.Coherent
  params : f'.params = f.params
  size : f.insts.size ≤ f'.insts.size
  kept : ∀ (id : InstId) (i : Inst), f.insts[id]? = some i →
    ∃ more, f'.insts[id]? = some (i.withUsers more)
  added : ∀ (id : InstId) (i : Inst), f.insts.size ≤ id → f'.insts[id]? = some i →
    i.marks = {} ∧ ∀ j ∈ i.op.uses, j < id ∧ deps j
  placed : ∀ (c : BlockId) (pre post : List InstId), f.instsOf c = pre ++ anchor :: post →
    f'.instsOf c =
      pre ++ (List.range' f.insts.size (f'.insts.size - f.insts.size) ++ anchor :: post)
  elsewhere : ∀ c : BlockId, anchor ∉ f.instsOf c → f'.instsOf c = f.instsOf c

namespace Grows

theorem refl (hf : f.Coherent) : f.Grows deps anchor f where
  coherent := hf
  params := rfl
  size := Nat.le_refl _
  kept := fun id i hi => ⟨[], by rw [hi, Inst.withUsers_nil]⟩
  added := fun id i hle hi => absurd (lt_of_inst hi) (Nat.not_lt.mpr hle)
  placed := fun c pre post h => by simp [h]
  elsewhere := fun _ _ => rfl

theorem trans (h₁ : f.Grows deps anchor f₁) (h₂ : f₁.Grows deps anchor f₂) :
    f.Grows deps anchor f₂ where
  coherent := h₂.coherent
  params := h₂.params.trans h₁.params
  size := h₁.size.trans h₂.size
  kept := fun id i hi => by
    obtain ⟨more₁, hi₁⟩ := h₁.kept id i hi
    obtain ⟨more₂, hi₂⟩ := h₂.kept id _ hi₁
    exact ⟨more₁ ++ more₂, by rw [hi₂, Inst.withUsers_withUsers]⟩
  added := fun id i hle hi => by
    by_cases hid : f₁.insts.size ≤ id
    · exact h₂.added id i hid hi
    · -- Emitted by the first part; the second one only adds users.
      obtain ⟨i₁, hi₁⟩ := exists_inst (Nat.not_le.mp hid)
      obtain ⟨more, hi₂⟩ := h₂.kept id i₁ hi₁
      obtain rfl : i = i₁.withUsers more := Option.some.inj (hi.symm.trans hi₂)
      exact h₁.added id i₁ hle hi₁
  placed := fun c pre post h => by
    have hc₁ := h₁.placed c pre post h
    rw [← List.append_assoc] at hc₁
    -- The second part goes between what the first part put there and the anchor.
    rw [h₂.placed c _ _ hc₁, List.append_assoc, ← List.append_assoc (List.range' _ _)]
    have hrange : List.range' f.insts.size (f₁.insts.size - f.insts.size) ++
        List.range' f₁.insts.size (f₂.insts.size - f₁.insts.size) =
          List.range' f.insts.size (f₂.insts.size - f.insts.size) := by
      have hs₁ := h₁.size
      have hs₂ := h₂.size
      have hstart : f₁.insts.size = f.insts.size + 1 * (f₁.insts.size - f.insts.size) := by omega
      have hlen : f₂.insts.size - f.insts.size =
          (f₁.insts.size - f.insts.size) + (f₂.insts.size - f₁.insts.size) := by omega
      rw [hlen, ← List.range'_append, ← hstart]
    rw [hrange]
  elsewhere := fun c hc => by
    have hc₁ := h₁.elsewhere c hc
    rw [h₂.elsewhere c (hc₁ ▸ hc), hc₁]

/-- What may be used can be more. -/
theorem mono (h : f.Grows deps anchor f') {deps' : InstId → Prop} (hdeps : ∀ j, deps j → deps' j) :
    f.Grows deps' anchor f' where
  __ := h
  added := fun id i hle hi => by
    obtain ⟨hmarks, huses⟩ := h.added id i hle hi
    exact ⟨hmarks, fun j hj => ⟨(huses j hj).1, hdeps j (huses j hj).2⟩⟩

theorem valueType (h : f.Grows deps anchor f') {v : Value} {ty : Ty}
    (hv : f.valueType v = .ok ty) : f'.valueType v = .ok ty := by
  refine valueType_of_kept h.params (fun id i hi => ?_) hv
  obtain ⟨more, hi'⟩ := h.kept id i hi
  exact ⟨_, hi', rfl⟩

/-- Nothing is put behind the last instruction of a block. -/
theorem getLast? (h : f.Grows deps anchor f') (c : BlockId) :
    (f'.instsOf c).getLast? = (f.instsOf c).getLast? := by
  by_cases hm : anchor ∈ f.instsOf c
  · obtain ⟨pre, post, hsplit⟩ := List.append_of_mem hm
    rw [h.placed c pre post hsplit, hsplit]
    simp [List.getLast?_append, List.getLast?_cons]
  · rw [h.elsewhere c hm]

end Grows

/-! ## One instruction -/

theorem Coherent.grows_place (hf : f.Coherent) {d : Draft} {i : Inst} {pos : Nat}
    (hi : f.insts[anchor]? = some i) (hpos : (f.instsOf i.block).idxOf? anchor = some pos)
    (hop : f.InRange d.op) (hdeps : ∀ j ∈ d.op.uses, deps j) :
    f.Grows deps anchor (f.place d i.block pos) where
  coherent := hf.place (hf.block_lt hi) (Edit.idxOf?_le hpos) hop
  params := params_place
  size := by rw [size_place]; exact Nat.le_succ _
  kept := fun id j hj => by
    have hne : id ≠ f.insts.size := Nat.ne_of_lt (lt_of_inst hj)
    rw [getElem?_place hop, if_neg hne, hj]
    exact ⟨_, rfl⟩
  added := fun id j hle hj => by
    have hid : id = f.insts.size := by
      have hlt := lt_of_inst hj
      rw [size_place] at hlt
      exact Nat.le_antisymm (Nat.lt_succ_iff.mp hlt) hle
    subst hid
    rw [getElem?_place hop, if_pos rfl, Option.some.injEq] at hj
    subst hj
    exact ⟨rfl, fun k hk => ⟨hop.lt_of_mem_uses hk, hdeps k hk⟩⟩
  placed := fun c pre post hsplit => by
    have hc : c = i.block := by
      refine (hf.block_eq hi ?_).symm
      rw [hsplit]
      simp
    subst hc
    -- The anchor stands once in its block, so the split is at the position that was looked up.
    obtain rfl : pre.length = pos :=
      Option.some.inj ((idxOf?_of_split hsplit (hf.nodup_instsOf _)).symm.trans hpos)
    rw [instsOf_place (hf.block_lt hi), if_pos rfl, size_place, hsplit, insertIdx_length_append]
    simp
  elsewhere := fun c hc => by
    have hne : c ≠ i.block := fun he => hc (he ▸ hf.mem_instsOf_block hi)
    rw [instsOf_place (hf.block_lt hi), if_neg hne]

/-! ## Meaning -/

variable {L : Layout} {env : Env} {F : Func} {ρ : InstId → Except EvalStop Word}

/-- The valuation `ρ` satisfies the equations of the instructions that `f'` has beyond `f`, with
operands evaluated in `F`, which gives every value of `f'` the type that it has there. -/
structure Obeys (L : Layout) (env : Env) (F : Func) (ρ : InstId → Except EvalStop Word)
    (f f' : Func) : Prop where
  typed : ∀ (v : Value) (ty : Ty), f'.valueType v = .ok ty → F.valueType v = .ok ty
  solves : ∀ (id : InstId) (i : Inst), f.insts.size ≤ id → f'.insts[id]? = some i →
    Agree (ρ id) (F.computed L env ρ id i)

theorem Obeys.left (h : Obeys L env F ρ f f₂) (hg : f₁.Grows deps anchor f₂) :
    Obeys L env F ρ f f₁ where
  typed := fun v ty hv => h.typed v ty (hg.valueType hv)
  solves := fun id i hle hi => by
    obtain ⟨more, hi₂⟩ := hg.kept id i hi
    have hsolves := h.solves id (i.withUsers more) hle hi₂
    exact hsolves

theorem Obeys.right (h : Obeys L env F ρ f f₂) (hg : f.Grows deps anchor f₁) :
    Obeys L env F ρ f₁ f₂ where
  typed := h.typed
  solves := fun id i hle hi => h.solves id i (hg.size.trans hle) hi

/-! ## What an emission starts from -/

/-- Code can be emitted before `anchor`, and whatever is emitted may be used by what follows. -/
structure Ready (deps : InstId → Prop) (anchor : InstId) (f : Func) : Prop where
  coherent : f.Coherent
  anchor : anchor < f.insts.size
  fresh : ∀ id, f.insts.size ≤ id → deps id

theorem Ready.grow (h : f.Ready deps anchor) {deps' : InstId → Prop} {anchor' : InstId}
    (hg : f.Grows deps' anchor' f') : f'.Ready deps anchor where
  coherent := hg.coherent
  anchor := Nat.lt_of_lt_of_le h.anchor hg.size
  fresh := fun id hid => h.fresh id (hg.size.trans hid)

/-- A value of type `ty` that emitted code may use. -/
structure Usable (deps : InstId → Prop) (f : Func) (ty : Ty) (v : Value) : Prop where
  type : f.valueType v = .ok ty
  dep : ∀ j, v = .inst j → deps j

theorem Usable.grow {ty : Ty} {v : Value} (h : f.Usable deps ty v) {deps' : InstId → Prop}
    (hg : f.Grows deps' anchor f') : f'.Usable deps ty v :=
  ⟨hg.valueType h.type, h.dep⟩

/-- What is emitted from here on may be used. -/
theorem Ready.usable_inst (h : f.Ready deps anchor) {id : InstId} {i : Inst}
    (hle : f.insts.size ≤ id) (hi : f'.insts[id]? = some i) : f'.Usable deps i.ty (.inst id) := by
  refine ⟨?_, fun j hj => ?_⟩
  · rw [valueType, inst_eq_ok_iff.mpr hi]
    rfl
  · obtain rfl : id = j := Value.inst.inj hj
    exact h.fresh id hle

/-- A normalised constant has the low bits that it was made from. -/
theorem evalValue_ofWord (w : Word) (bits : Nat) :
    F.evalValue L env ρ (.ofWord w bits) = .ok (Word.low w bits) := by
  simp only [Value.ofWord, Const.ofWord, evalValue, Word.low_signed]

theorem usable_ofWord (w : Word) (bits : Nat) : f.Usable deps (.int bits) (.ofWord w bits) :=
  ⟨rfl, fun _ h => by simp [Value.ofWord] at h⟩

/-- Code was emitted that computes `v`, of type `ty`: an operand that is not a constant, and whose
value is `meaning`. -/
structure Emitted (L : Layout) (deps : InstId → Prop) (anchor : InstId) (f : Func) (ty : Ty)
    (meaning : Env → Func → (InstId → Except EvalStop Word) → Except EvalStop Word) (v : Value)
    (f' : Func) : Prop where
  grows : f.Grows deps anchor f'
  usable : f'.Usable deps ty v
  asWord? : v.asWord? = none
  means : ∀ env F ρ, Obeys L env F ρ f f' → Agree (F.evalValue L env ρ v) (meaning env F ρ)

end Func

/-! ## The emitters -/

namespace Edit

open Func

variable {deps : InstId → Prop} {anchor : InstId} {f : Func} (L : Layout)

/-- A draft that is in range is put at the next place of the arena. -/
theorem yields_insertBefore (h : f.Ready deps anchor) {d : Draft} (hop : f.InRange d.op)
    (hdeps : ∀ j ∈ d.op.uses, deps j) :
    Yields (insertBefore anchor d) f fun r f' =>
      r = f.insts.size ∧ f.Grows deps anchor f' ∧ ∃ b pos, f' = f.place d b pos := by
  -- In a coherent function the anchor is found in the block that it records.
  obtain ⟨i, hi⟩ := exists_inst h.anchor
  have hmem := h.coherent.mem_instsOf_block hi
  obtain ⟨block, hblock⟩ : ∃ block, f.blocks[i.block]? = some block :=
    ⟨_, Array.getElem?_eq_getElem (h.coherent.block_lt hi)⟩
  obtain ⟨pos, hpos⟩ : ∃ pos, (f.instsOf i.block).idxOf? anchor = some pos := by
    cases hfind : (f.instsOf i.block).idxOf? anchor with
    | none => exact absurd hmem (List.idxOf?_eq_none_iff.mp hfind)
    | some pos => exact ⟨pos, rfl⟩
  refine Yields.ask_bind (inst_eq_ok_iff.mpr hi) (Yields.ask_bind (block_eq_ok_iff.mpr hblock) ?_)
  have hposition : block.position? anchor = some pos := by
    rw [Block.position?, ← instsOf_eq hblock]
    exact hpos
  refine Yields.ask_bind (a := pos) (by rw [hposition]; rfl) ?_
  refine ⟨_, _, ?_, rfl, h.coherent.grows_place hi hpos hop hdeps, i.block, pos, rfl⟩
  rw [create_run, checkOp_eq_ok_iff.mpr hop]

/-- An operation on usable values is emitted, as it stands, at the next place of the arena. -/
theorem yields_emit (h : f.Ready deps anchor) {op : Op}
    (hoperands : ∀ v ∈ op.operands, ∃ ty, f.Usable deps ty v) (hsucc : op.successors = [])
    (hincoming : op.incomingBlocks = []) (ty : Ty) (name : Option String) :
    Yields (emit anchor op ty name) f fun r f' => f.Grows deps anchor f' ∧ r = f.insts.size ∧
      f'.insts.size = f.insts.size + 1 ∧
        ∃ i, f'.insts[r]? = some i ∧ i.op = op ∧ i.ty = ty ∧ i.name = name.filter (· != "") := by
  have hop : f.InRange op :=
    ⟨fun v hv => hasValue_of_valueType (hoperands v hv).choose_spec.type, by simp [hsucc],
      by simp [hincoming]⟩
  have hdeps : ∀ j ∈ op.uses, deps j := fun j hj =>
    (hoperands _ (Op.mem_uses.mp hj)).choose_spec.dep j rfl
  refine (yields_insertBefore h hop hdeps).mono ?_
  rintro r f' ⟨rfl, hgrows, b, pos, rfl⟩
  exact ⟨hgrows, rfl, size_place, _, (getElem?_place hop _).trans (if_pos rfl), rfl, rfl, rfl⟩

/-- The result of an emitted operation satisfies the equation of the operation. -/
theorem yields_emit_value (h : f.Ready deps anchor) {op : Op}
    (hoperands : ∀ v ∈ op.operands, ∃ ty, f.Usable deps ty v) (hsucc : op.successors = [])
    (hincoming : op.incomingBlocks = []) (ty : Ty) (name : Option String) :
    Yields (Value.inst <$> emit anchor op ty name) f
      (Emitted L deps anchor f ty fun env F ρ => do
        return Word.low (← F.evalOp L env ρ f.insts.size op) (L.width ty)) := by
  refine Yields.map ((yields_emit h hoperands hsucc hincoming ty name).mono ?_)
  rintro r f' ⟨hg, rfl, -, i, hi, rfl, rfl, -⟩
  exact ⟨hg, h.usable_inst (Nat.le_refl _) hi, rfl, fun env F ρ hobeys =>
    hobeys.solves _ i (Nat.le_refl _) hi⟩

/-- Nothing is folded if one of the operands is not a constant. -/
theorem emitBinary_eq_emit {op : BinOp} {lhs rhs : Value}
    (h : lhs.asWord? = none ∨ rhs.asWord? = none) (anchor : InstId) (name : Option String) :
    emitBinary anchor op lhs rhs name = (do
      let ty ← ask (·.valueType lhs)
      Value.inst <$> emit anchor (.binary op lhs rhs) ty name) := by
  unfold emitBinary
  refine bind_congr fun ty => ?_
  split
  · next a bits b hb =>
    rw [hb] at h
    simp [Value.asWord?, Const.asWord?] at h
  · rfl

/-- A binary operation that is not folded away is the operation on its operands, at the type of the
left one. -/
theorem yields_emitBinary (h : f.Ready deps anchor) {op : BinOp} {lhs rhs : Value} {ty ty' : Ty}
    (hl : f.Usable deps ty lhs) (hr : f.Usable deps ty' rhs)
    (hfold : lhs.asWord? = none ∨ rhs.asWord? = none) (hop : op ≠ .ashr) (name : Option String) :
    Yields (emitBinary anchor op lhs rhs name) f
      (Emitted L deps anchor f ty fun env F ρ => do
        let a ← F.evalValue L env ρ lhs
        let b ← F.evalValue L env ρ rhs
        return Word.low (op.apply a b) (L.width ty)) := by
  have hoperands : ∀ v ∈ (Op.binary op lhs rhs).operands, ∃ ty, f.Usable deps ty v := by
    intro v hv
    rcases List.mem_pair.mp hv with rfl | rfl
    · exact ⟨_, hl⟩
    · exact ⟨_, hr⟩
  rw [emitBinary_eq_emit hfold]
  refine Yields.ask_bind hl.type ?_
  refine (yields_emit_value L h hoperands rfl rfl ty name).mono fun v f' he => ?_
  refine ⟨he.grows, he.usable, he.asWord?, fun env F ρ hobeys => ?_⟩
  simpa only [evalOp, hop, if_false, bind_assoc, pure_bind] using he.means env F ρ hobeys

/-- Zero minus a value that is not a constant. -/
theorem yields_emitNeg (h : f.Ready deps anchor) {v : Value} {bits : Nat}
    (hv : f.Usable deps (.int bits) v) (hword : v.asWord? = none) (name : Option String) :
    Yields (emitNeg anchor v name) f
      (Emitted L deps anchor f (.int bits) fun env F ρ => do
        let a ← F.evalValue L env ρ v
        return Word.low (0 - a) bits) := by
  refine Yields.ask_bind (a := bits) (by rw [hv.type]; rfl) ?_
  refine (yields_emitBinary L h (usable_ofWord 0 bits) hv (.inr hword) (by decide) name).mono
    fun r f' he => ?_
  refine ⟨he.grows, he.usable, he.asWord?, fun env F ρ hobeys => ?_⟩
  simpa only [evalValue_ofWord, Word.zero_low, ok_bind, BinOp.apply, Layout.width_int] using
    he.means env F ρ hobeys

/-- A cast, other than a sign extension, is an instruction that hands its operand on at the width of its
own type. It is never folded, and carries the name that was asked for. -/
theorem yields_emitCast_inst (h : f.Ready deps anchor) {op : CastOp} {v : Value} {source : Ty}
    (hv : f.Usable deps source v) (hop : op ≠ .sext) (ty : Ty) (name : Option String) :
    Yields (emit anchor (.cast op v) ty name) f fun r f' =>
      f.Grows deps anchor f' ∧ r = f.insts.size ∧ f'.insts.size = f.insts.size + 1 ∧
        (∃ i, f'.insts[r]? = some i ∧ i.op = .cast op v ∧ i.ty = ty ∧
          i.name = name.filter (· != "")) ∧
        ∀ env F ρ, Obeys L env F ρ f f' → Agree (ρ r) (do
          let a ← F.evalValue L env ρ v
          return Word.low a (L.width ty)) := by
  have hoperands : ∀ w ∈ (Op.cast op v).operands, ∃ ty, f.Usable deps ty w := by
    intro w hw
    rw [List.mem_singleton.mp hw]
    exact ⟨_, hv⟩
  refine (yields_emit h hoperands rfl rfl ty name).mono ?_
  rintro r f' ⟨hg, rfl, hsize, i, hi, hcast, rfl, hname⟩
  refine ⟨hg, rfl, hsize, ⟨i, hi, hcast, rfl, hname⟩, fun env F ρ hobeys => ?_⟩
  have hsolves := hobeys.solves _ i (Nat.le_refl _) hi
  rw [computed, hcast] at hsolves
  cases op with
  | sext => exact absurd rfl hop
  | _ => exact hsolves

theorem yields_emitCast (h : f.Ready deps anchor) {op : CastOp} {v : Value} {source : Ty}
    (hv : f.Usable deps source v) (hop : op ≠ .sext) (ty : Ty) (name : Option String) :
    Yields (Value.inst <$> emit anchor (.cast op v) ty name) f
      (Emitted L deps anchor f ty fun env F ρ => do
        let a ← F.evalValue L env ρ v
        return Word.low a (L.width ty)) := by
  refine Yields.map ((yields_emitCast_inst L h hv hop ty name).mono ?_)
  rintro r f' ⟨hg, rfl, -, ⟨i, hi, -, rfl, -⟩, hmeans⟩
  exact ⟨hg, h.usable_inst (Nat.le_refl _) hi, rfl, hmeans⟩

/-- A sign extension reads its operand as a signed number of the width that it has. -/
theorem yields_emitSext (h : f.Ready deps anchor) {v : Value} {bits : Nat}
    (hv : f.Usable deps (.int bits) v) (ty : Ty) (name : Option String) :
    Yields (Value.inst <$> emit anchor (.cast .sext v) ty name) f
      (Emitted L deps anchor f ty fun env F ρ => do
        let a ← F.evalValue L env ρ v
        return Word.low (Word.signed a bits) (L.width ty)) := by
  have hoperands : ∀ w ∈ (Op.cast .sext v).operands, ∃ ty, f.Usable deps ty w := by
    intro w hw
    rw [List.mem_singleton.mp hw]
    exact ⟨_, hv⟩
  refine (yields_emit_value L h hoperands rfl rfl ty name).mono fun r f' he => ?_
  refine ⟨he.grows, he.usable, he.asWord?, fun env F ρ hobeys => ?_⟩
  have htype : F.valueType v = .ok (.int bits) := hobeys.typed v _ (he.grows.valueType hv.type)
  have hagree := he.means env F ρ hobeys
  simp only [evalOp, evalSigned, htype, found, bind_assoc, pure_bind] at hagree
  exact hagree

/-! ## Bringing a number to a width -/

end Edit

/-- A signed number of width `bits`, brought to width `target`. -/
def Word.resize (w : Word) (bits target : Nat) : Word :=
  if bits = target then w
  else if bits < target then Word.low (Word.signed w bits) target
  else Word.low w target

namespace Edit

open Func

variable {deps : InstId → Prop} {anchor : InstId} {f : Func} (L : Layout)

theorem yields_emitResize (h : f.Ready deps anchor) {v : Value} {bits : Nat}
    (hv : f.Usable deps (.int bits) v) (hword : v.asWord? = none) (target : Nat)
    (name : Option String) :
    Yields (emitResize anchor v (.int target) name) f
      (Emitted L deps anchor f (.int target) fun env F ρ => do
        let a ← F.evalValue L env ρ v
        return Word.resize a bits target) := by
  refine Yields.ask_bind (a := bits) (by rw [hv.type]; rfl) ?_
  by_cases heq : bits = target
  · subst heq
    simp only [Ty.bitWidth, if_true]
    refine Yields.pure ⟨Grows.refl h.coherent, hv, hword, fun env F ρ _ => ?_⟩
    simp only [Word.resize, if_true, bind_pure]
    exact Agree.refl _
  · simp only [Ty.bitWidth, heq, if_false, hword]
    by_cases hlt : bits < target
    · simp only [hlt, if_true]
      simpa only [Word.resize, heq, hlt, if_false, if_true, Layout.width_int] using
        yields_emitSext L h hv (.int target) name
    · simp only [hlt, if_false]
      simpa only [Word.resize, heq, hlt, if_false, Layout.width_int] using
        yields_emitCast L h hv (by decide) (.int target) name

end Edit

end PtrTag
