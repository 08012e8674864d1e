import PtrTag.Proofs.Func.Enrich

/-!
# `PtrTag/Proofs/Func/Frame.lean` — what is added changes no value

A value is evaluated from the instructions that it is computed from, and an evaluation that fails says
why by quoting one of them. An extension of a function keeps both: the instructions with their
operations, types and names, and whatever else goes into a text (`Func.Extends`). So a value that was
there before has the same outcome afterwards **to the letter**, the same word or the same fault
(`Extends.eval`). Only the use lists of the old instructions may grow, and no evaluation reads those.

The recursion is on fuel, and at equal fuel nothing more is needed. The fuel itself grows with the
function, so at the end it takes a function in which more fuel makes no difference.
-/

set_option autoImplicit false

namespace PtrTag

namespace Func

/-- `f'` has all that an evaluation of the values of `f` reads. -/
structure Extends (f f' : Func) : Prop where
  params : f'.params = f.params
  label : ∀ b, f'.label? b = f.label? b
  size : f.insts.size ≤ f'.insts.size
  kept : ∀ (id : InstId) (i : Inst), f.insts[id]? = some i →
    ∃ more, f'.insts[id]? = some (i.withUsers more)

theorem Grows.extends {f f' : Func} {deps : InstId → Prop} {anchor : InstId}
    (h : f.Grows deps anchor f') (houtline : f'.outline = f.outline) : f.Extends f' :=
  ⟨h.params, label?_eq_of_outline houtline, h.size, h.kept⟩

namespace Extends

variable {f f' : Func} {v : Value} {op : Op}

/-! ## Texts -/

theorem valueType (h : f.Extends f') (hv : f.HasValue v) : f'.valueType v = f.valueType v := by
  have hsame : f'.valueType (v.rename id) = f.valueType v := by
    refine valueType_rename h.params (fun j i hi => ?_) hv
    obtain ⟨more, hi'⟩ := h.kept j i hi
    exact ⟨_, hi', rfl⟩
  rwa [Value.rename_id] at hsame

theorem instLabel (h : f.Extends f') {id : InstId} (hid : id < f.insts.size) :
    f'.instLabel id = f.instLabel id := by
  obtain ⟨i, hi⟩ := exists_inst hid
  obtain ⟨more, hi'⟩ := h.kept id i hi
  simp only [Func.instLabel, hi, hi', Option.bind_some, Inst.withUsers]

theorem blockLabel (h : f.Extends f') (b : BlockId) : f'.blockLabel b = f.blockLabel b := by
  have hlabel : ∀ F : Func, F.blockLabel b = (F.label? b).elim ("%" ++ b.text) ("%" ++ ·) := by
    intro F
    unfold Func.blockLabel label?
    cases F.blocks[b]? <;> rfl
  rw [hlabel, hlabel, h.label b]

theorem valueText (h : f.Extends f') (hv : f.HasValue v) : f'.valueText v = f.valueText v := by
  cases v with
  | inst id => exact h.instLabel hv
  | arg index => simp only [Func.valueText, h.params]
  | const c => cases c <;> rfl
  | global name => rfl

theorem typedText (h : f.Extends f') (hv : f.HasValue v) : f'.typedText v = f.typedText v := by
  simp only [Func.typedText, h.valueType hv, h.valueText hv]

theorem opText (h : f.Extends f') (hop : ∀ v ∈ op.operands, f.HasValue v) (ty : Ty) :
    f'.opText ty op = f.opText ty op := by
  have hvalue : ∀ v ∈ op.operands, f'.valueText v = f.valueText v := fun v hv =>
    h.valueText (hop v hv)
  have htyped : ∀ v ∈ op.operands, f'.typedText v = f.typedText v := fun v hv =>
    h.typedText (hop v hv)
  -- The definition is opened once; its equations for the single operations are not needed.
  delta Func.opText
  cases op with
  | gep g =>
    have hmap := List.map_congr_left htyped
    simp only [Op.operands] at hmap
    simp only [hmap]
  | phi incoming =>
    refine congrArg (fun texts => "phi " ++ ty.text ++ " " ++ commaSep texts) ?_
    refine List.map_congr_left fun p hp => ?_
    simp only [hvalue p.1 (List.mem_map_of_mem hp), h.blockLabel]
  | call callee args =>
    simp only [Op.operands, List.forall_mem_cons] at hvalue htyped
    simp only [argsText, hvalue.1, List.map_congr_left htyped.2]
  | invoke callee args normal unwind =>
    simp only [Op.operands, List.forall_mem_cons] at hvalue htyped
    simp only [argsText, hvalue.1, List.map_congr_left htyped.2, h.blockLabel]
  | ret value =>
    cases value with
    | none => rfl
    | some v => simp only [htyped v (by simp [Op.operands])]
  | alloca _ => rfl
  | unreachable => rfl
  | br _ => simp only [h.blockLabel]
  | _ =>
    simp only [Op.operands, List.forall_mem_cons] at hvalue htyped
    simp only [hvalue, htyped, h.blockLabel]

theorem instText (h : f.Extends f') {id : InstId} {i : Inst} (hi : f.insts[id]? = some i)
    (hop : f.InRange i.op) : f'.instText id = f.instText id := by
  obtain ⟨more, hi'⟩ := h.kept id i hi
  simp only [Func.instText, hi, hi', Inst.withUsers, h.opText hop.operands,
    h.instLabel (lt_of_inst hi)]

/-! ## Values -/

variable {L : Layout} {env : Env}

/-- With the same fuel an old instruction has the same outcome. The induction is on the fuel. -/
theorem evalInst (h : f.Extends f') (hf : f.Coherent) (fuel : Nat) {k : InstId}
    (hk : k < f.insts.size) : f'.evalInst L env fuel k = f.evalInst L env fuel k := by
  induction fuel generalizing k with
  | zero => rfl
  | succ fuel ih =>
    obtain ⟨i, hi⟩ := exists_inst hk
    obtain ⟨more, hi'⟩ := h.kept k i hi
    have hop := hf.inRange k i hi
    have heval : f.evalOp L env (f.evalInst L env fuel) k i.op =
        f'.evalOp L env (f'.evalInst L env fuel) k (i.op.mapOperands (Value.rename id)) := by
      refine evalOp_compare compares_eq h.params k k ?_ (fun v hv => ?_) fun _ j hj => ?_
      · rw [h.instText hi hop]
      · rw [Value.rename_id, h.valueType (hop.operands v hv)]
      · exact (ih (hop.lt_of_mem_uses hj)).symm
    rw [Op.mapOperands_eq_self fun v _ => Value.rename_id v] at heval
    rw [evalInst_succ hi, evalInst_succ hi', computed, computed, heval]
    rfl

/-- A value that was there before is what it was before. -/
theorem eval (h : f.Extends f') (hf : f.Coherent) (hacyclic : f.Acyclic) {v : Value}
    (hv : f.HasValue v) : f'.eval L env v = f.eval L env v := by
  obtain ⟨rank, hrank, hle⟩ := hacyclic.exists_rank hf
  have hinst : ∀ j, v = .inst j →
      f'.evalInst L env (f'.insts.size + 1) j = f.evalInst L env (f.insts.size + 1) j := by
    rintro j rfl
    have hj := hle j
    have hsize := h.size
    rw [h.evalInst hf _ hv]
    exact (hrank.evalInst_settled _ _ (by omega) (by omega)).1
  have heval : f'.evalValue L env (f'.evalInst L env (f'.insts.size + 1)) v =
      f.evalValue L env (f.evalInst L env (f.insts.size + 1)) (v.rename id) :=
    evalValue_compare compares_eq h.params.symm hinst
  rwa [Value.rename_id] at heval

end Extends

end Func

end PtrTag
