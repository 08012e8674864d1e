import PtrTag.Func.Eval
import PtrTag.Proofs.Func.Coherent
import Mathlib.Data.Finset.Card
import Mathlib.Logic.Relation

/-!
# `PtrTag/Proofs/Func/Eval.lean` — evaluation as a system of equations

`Func.eval` runs on fuel. In a function whose pure operand graph is **acyclic** the fuel plays no
part: it is always enough, and the values of the instructions solve one equation each
(`Acyclic.solves`). Everything else is proved from these equations.

Evaluations are compared in three ways. `Agree` is the same value, or none on both sides; why there is
none is not compared, because the reason quotes the text of an instruction, and texts change when
operands do. `Settled` is the same outcome to the letter, and not for want of fuel; equality does not
mind a want of fuel. All of them follow the sequencing of an evaluation (`Compares`), which is all that
the rules of evaluation need.

An equation survives a **renaming** of results: if `σ` moves the operands of an operation and the
valuations on both sides agree along `σ`, so do the results (`evalOp_compare`).
-/

set_option autoImplicit false

namespace PtrTag

/-- The same value, or none on both sides. -/
def Agree {α : Type} (a b : Except EvalStop α) : Prop := ∀ x, a = .ok x ↔ b = .ok x

namespace Agree

variable {α β : Type} {a b c : Except EvalStop α}

theorem refl (a : Except EvalStop α) : Agree a a := fun _ => Iff.rfl

theorem symm (h : Agree a b) : Agree b a := fun x => (h x).symm

theorem trans (h₁ : Agree a b) (h₂ : Agree b c) : Agree a c := fun x => (h₁ x).trans (h₂ x)

theorem bind {k k' : α → Except EvalStop β} (h : Agree a b) (hk : ∀ x, Agree (k x) (k' x)) :
    Agree (a >>= k) (b >>= k') := by
  intro y
  rw [Func.bind_eq_ok_iff, Func.bind_eq_ok_iff]
  exact exists_congr fun x => and_congr (h x) (hk x y)

theorem of_error (e e' : EvalStop) : Agree (.error e : Except EvalStop α) (.error e') := by
  intro x
  simp

end Agree

/-- The same outcome on both sides, and not for want of fuel. -/
def Settled {α : Type} (a b : Except EvalStop α) : Prop := a = b ∧ a ≠ .error .depth

theorem Settled.agree {α : Type} {a b : Except EvalStop α} (h : Settled a b) : Agree a b :=
  h.1 ▸ Agree.refl a

/-- A way to compare evaluations that follows their sequencing. -/
structure Compares (R : (α : Type) → Except EvalStop α → Except EvalStop α → Prop) : Prop where
  ok : ∀ {α : Type} (a : α), R α (.ok a) (.ok a)
  fault : ∀ {α : Type} (e : Fault), R α (.error (.fault e)) (.error (.fault e))
  bind : ∀ {α β : Type} {a b : Except EvalStop α} {k k' : α → Except EvalStop β},
    R α a b → (∀ x, R β (k x) (k' x)) → R β (a >>= k) (b >>= k')

theorem compares_agree : Compares @Agree where
  ok := fun _ => Agree.refl _
  fault := fun _ => Agree.refl _
  bind := Agree.bind

theorem compares_settled : Compares @Settled where
  ok := fun a => ⟨rfl, nofun⟩
  fault := fun e => ⟨rfl, nofun⟩
  bind := by
    rintro α β a b k k' ⟨rfl, hne⟩ hk
    cases a with
    | ok x => exact hk x
    | error e => exact ⟨rfl, fun he => hne (congrArg Except.error (Except.error.inj he))⟩

theorem compares_eq : Compares fun _ a b => a = b where
  ok := fun _ => rfl
  fault := fun _ => rfl
  bind := fun h hk => by rw [h, funext hk]

/-- An operation that can be evaluated: it computes its result from its operands and nothing else. -/
def Op.isPure : Op → Bool
  | .gep .. | .binary .. | .cast .. | .icmp .. => true
  | _ => false

@[simp] theorem Op.isPure_mapOperands (φ : Value → Value) (op : Op) :
    (op.mapOperands φ).isPure = op.isPure := by
  cases op <;> rfl

namespace Func

variable {f f' : Func} {L : Layout} {env : Env} {ρ ρ' : InstId → Except EvalStop Word}
  {σ : InstId → InstId}

/-! ## Types along a renaming -/

theorem hasValue_of_valueType {v : Value} {ty : Ty} (h : f.valueType v = .ok ty) :
    f.HasValue v := by
  cases v with
  | inst id =>
    by_cases hid : id < f.insts.size
    · exact hid
    · have hnone := Array.getElem?_eq_none (Nat.not_lt.mp hid)
      simp only [valueType, inst_eq_error hnone] at h
      exact absurd h (by simp [Except.map])
  | arg index =>
    unfold HasValue
    by_cases hidx : index < f.params.length
    · exact hidx
    · simp only [valueType, param] at h
      rw [List.getElem?_eq_none (Nat.not_lt.mp hidx)] at h
      exact absurd h (by simp [Except.map])
  | const c => trivial
  | global name => trivial

/-- The type of an operand is the type of what it is renamed to, if results keep their types. -/
theorem valueType_rename (hp : f'.params = f.params)
    (hty : ∀ (j : InstId) (i : Inst), f.insts[j]? = some i →
      ∃ i', f'.insts[σ j]? = some i' ∧ i'.ty = i.ty) {v : Value} (hv : f.HasValue v) :
    f'.valueType (v.rename σ) = f.valueType v := by
  cases v with
  | inst j =>
    obtain ⟨i, hi⟩ := exists_inst hv
    obtain ⟨i', hi', hty⟩ := hty j i hi
    simp only [Value.rename_inst, valueType, inst_eq_ok_iff.mpr hi, inst_eq_ok_iff.mpr hi']
    exact congrArg Except.ok hty
  | arg index => simp only [Value.rename, valueType, param, hp]
  | const c => rfl
  | global name => rfl

theorem valueType_of_kept (hp : f'.params = f.params)
    (hty : ∀ (j : InstId) (i : Inst), f.insts[j]? = some i →
      ∃ i', f'.insts[j]? = some i' ∧ i'.ty = i.ty) {v : Value} {ty : Ty}
    (hv : f.valueType v = .ok ty) : f'.valueType v = .ok ty := by
  have hsame : f'.valueType (v.rename id) = f.valueType v :=
    valueType_rename hp hty (hasValue_of_valueType hv)
  rw [Value.rename_id] at hsame
  rw [hsame, hv]

/-! ## Evaluation along a renaming -/

section Compare

variable {R : (α : Type) → Except EvalStop α → Except EvalStop α → Prop}

theorem found_compare (hR : Compares R) {α : Type} (q : Except Fault α) :
    R α (found q) (found q) := by
  cases q with
  | ok a => exact hR.ok a
  | error e => exact hR.fault e

theorem evalValue_compare (hR : Compares R) (hp : f'.params = f.params) {v : Value}
    (hρ : ∀ j, v = .inst j → R Word (ρ j) (ρ' (σ j))) :
    R Word (f.evalValue L env ρ v) (f'.evalValue L env ρ' (v.rename σ)) := by
  cases v with
  | inst j => exact hρ j rfl
  | arg index =>
    have hparam : f'.param index = f.param index := by simp only [param, hp]
    simp only [Value.rename, evalValue, hparam]
    exact hR.bind (found_compare hR _) fun _ => hR.bind (found_compare hR _) fun _ => hR.ok _
  | const c =>
    cases c with
    | undef ty => exact hR.fault _
    | _ => exact hR.ok _
  | global name =>
    simp only [Value.rename, evalValue]
    cases env.globals name with
    | none => exact hR.fault _
    | some address => exact hR.ok address

theorem evalSigned_compare (hR : Compares R) (hp : f'.params = f.params) {v : Value}
    (hty : f'.valueType (v.rename σ) = f.valueType v)
    (hρ : ∀ j, v = .inst j → R Word (ρ j) (ρ' (σ j))) :
    R Word (f.evalSigned L env ρ v) (f'.evalSigned L env ρ' (v.rename σ)) := by
  unfold evalSigned
  rw [hty]
  exact hR.bind (found_compare hR _) fun _ =>
    hR.bind (evalValue_compare hR hp hρ) fun _ => hR.ok _

theorem evalPath_compare (hR : Compares R) (hp : f'.params = f.params) {steps : List Step}
    {indices : List Value} (hty : ∀ v ∈ indices, f'.valueType (v.rename σ) = f.valueType v)
    (hρ : ∀ j, .inst j ∈ indices → R Word (ρ j) (ρ' (σ j))) (address : Word) :
    R Word (f.evalPath L env ρ address (steps.zip indices))
      (f'.evalPath L env ρ' address (steps.zip (indices.map (Value.rename σ)))) := by
  induction steps generalizing indices address with
  | nil => exact hR.ok _
  | cons step steps ih =>
    cases indices with
    | nil => exact hR.ok _
    | cons v indices =>
      have ih := ih (fun w hw => hty w (List.mem_cons_of_mem _ hw))
        (fun j hj => hρ j (List.mem_cons_of_mem _ hj))
      cases step with
      | field offset => exact ih _
      | scaled stride =>
        refine hR.bind (evalSigned_compare hR hp (hty v List.mem_cons_self) fun j hj => ?_)
          fun _ => ih _
        exact hρ j (hj ▸ List.mem_cons_self)

theorem evalCmp_compare (hR : Compares R) (hp : f'.params = f.params) {op : CmpOp} {lhs rhs : Value}
    (hl : f'.valueType (lhs.rename σ) = f.valueType lhs)
    (hr : f'.valueType (rhs.rename σ) = f.valueType rhs)
    (hρl : ∀ j, lhs = .inst j → R Word (ρ j) (ρ' (σ j)))
    (hρr : ∀ j, rhs = .inst j → R Word (ρ j) (ρ' (σ j))) :
    R Bool (f.evalCmp L env ρ op lhs rhs)
      (f'.evalCmp L env ρ' op (lhs.rename σ) (rhs.rename σ)) := by
  cases op with
  | slt =>
    exact hR.bind (evalSigned_compare hR hp hl hρl) fun _ =>
      hR.bind (evalSigned_compare hR hp hr hρr) fun _ => hR.ok _
  | _ =>
    exact hR.bind (evalValue_compare hR hp hρl) fun _ =>
      hR.bind (evalValue_compare hR hp hρr) fun _ => hR.ok _

end Compare

theorem evalValue_agree (hp : f'.params = f.params) {v : Value}
    (hρ : ∀ j, v = .inst j → Agree (ρ j) (ρ' (σ j))) :
    Agree (f.evalValue L env ρ v) (f'.evalValue L env ρ' (v.rename σ)) :=
  evalValue_compare compares_agree hp hρ

end Func

/-! ## Layouts -/

namespace Layout

variable {σ : InstId → InstId} (L : Layout)

@[simp] theorem width_int (bits : Nat) : L.width (.int bits) = bits := rfl

@[simp] theorem width_ptr : L.width .ptr = L.pointerBits := rfl

/-- A path is resolved without a look at variable indices. -/
theorem walk_rename (ty : Ty) (indices : List Value) :
    L.walk ty (indices.map (Value.rename σ)) = L.walk ty indices := by
  induction indices generalizing ty with
  | nil => rfl
  | cons v indices ih =>
    have hstep : L.stepInto ty (v.rename σ) = L.stepInto ty v := by
      simp only [stepInto, Value.asWord?_rename]
    simp only [List.map_cons, walk, hstep, ih]

theorem steps_rename (source : Ty) (indices : List Value) :
    L.steps source (indices.map (Value.rename σ)) = L.steps source indices := by
  cases indices with
  | nil => rfl
  | cons v indices => simp only [List.map_cons, steps, walk_rename]

end Layout

namespace Func

variable {f f' : Func} {L : Layout} {env : Env} {ρ ρ' : InstId → Except EvalStop Word}
  {σ : InstId → InstId}

/-- The results of an operation and of its renamed form compare like the valuations along the renaming,
if types are kept. What cannot be evaluated is reported by its text, which is not the same in two
functions. -/
theorem evalOp_compare {R : (α : Type) → Except EvalStop α → Except EvalStop α → Prop}
    (hR : Compares R) (hp : f'.params = f.params) {op : Op} (id id' : InstId)
    (htext : R Word (.error (.fault (.notEvaluable (f.instText id))))
      (.error (.fault (.notEvaluable (f'.instText id')))))
    (hty : ∀ v ∈ op.operands, f'.valueType (v.rename σ) = f.valueType v)
    (hρ : op.isPure → ∀ j ∈ op.uses, R Word (ρ j) (ρ' (σ j))) :
    R Word (f.evalOp L env ρ id op) (f'.evalOp L env ρ' id' (op.mapOperands (Value.rename σ))) := by
  have hval : op.isPure → ∀ v ∈ op.operands, ∀ j, v = .inst j → R Word (ρ j) (ρ' (σ j)) := by
    rintro hpure v hv j rfl
    exact hρ hpure j (Op.mem_uses.mpr hv)
  cases op with
  | gep g =>
    replace hval := hval rfl
    simp only [Op.operands, List.forall_mem_cons] at hty hval
    simp only [Op.mapOperands, evalOp, Layout.steps_rename]
    refine hR.bind (evalValue_compare hR hp hval.1) fun base =>
      hR.bind (found_compare hR _) fun steps => ?_
    exact evalPath_compare hR hp hty.2 (fun j hj => hval.2 _ hj j rfl) base
  | binary op lhs rhs =>
    replace hval := hval rfl
    simp only [Op.operands, List.forall_mem_cons] at hty hval
    simp only [Op.mapOperands, evalOp]
    by_cases hop : op = .ashr
    · simp only [hop, if_true]
      exact hR.bind (evalSigned_compare hR hp hty.1 hval.1) fun _ =>
        hR.bind (evalValue_compare hR hp hval.2.1) fun _ => hR.ok _
    · simp only [hop, if_false]
      exact hR.bind (evalValue_compare hR hp hval.1) fun _ =>
        hR.bind (evalValue_compare hR hp hval.2.1) fun _ => hR.ok _
  | cast op v =>
    replace hval := hval rfl
    simp only [Op.operands, List.forall_mem_cons] at hty hval
    cases op with
    | sext => exact evalSigned_compare hR hp hty.1 hval.1
    | _ => exact evalValue_compare hR hp hval.1
  | icmp op lhs rhs =>
    replace hval := hval rfl
    simp only [Op.operands, List.forall_mem_cons] at hty hval
    exact hR.bind (evalCmp_compare hR hp hty.1 hty.2.1 hval.1 hval.2.1) fun _ => hR.ok _
  | _ => exact htext

/-! ## The equations -/

/-- What instruction `i` at `id` comes to if `ρ` gives the values of instructions. -/
def computed (f : Func) (L : Layout) (env : Env) (ρ : InstId → Except EvalStop Word) (id : InstId)
    (i : Inst) : Except EvalStop Word := do
  let w ← f.evalOp L env ρ id i.op
  return Word.low w (L.width i.ty)

/-- The valuation `ρ` satisfies the equation of instruction `id`. -/
def SolvesAt (f : Func) (L : Layout) (env : Env) (ρ : InstId → Except EvalStop Word) (id : InstId) :
    Prop := ∀ i, f.insts[id]? = some i → Agree (ρ id) (f.computed L env ρ id i)

theorem evalInst_succ {id : InstId} {i : Inst} (h : f.insts[id]? = some i) (fuel : Nat) :
    f.evalInst L env (fuel + 1) id = f.computed L env (f.evalInst L env fuel) id i := by
  simp only [evalInst, inst_eq_ok_iff.mpr h]
  rfl

/-- The values of the instructions of a function. -/
abbrev values (f : Func) (L : Layout) (env : Env) (id : InstId) : Except EvalStop Word :=
  f.eval L env (.inst id)

/-- Instruction `id` is pure and takes the result of `j` as an operand. -/
def Feeds (f : Func) (id j : InstId) : Prop :=
  ∃ i, f.insts[id]? = some i ∧ i.op.isPure ∧ j ∈ i.op.uses

/-- No instruction is computed from its own result. -/
def Acyclic (f : Func) : Prop := ∀ id, ¬ Relation.TransGen f.Feeds id id

theorem Acyclic.notMem_uses (h : f.Acyclic) {id : InstId} {i : Inst} (hi : f.insts[id]? = some i)
    (hpure : i.op.isPure) : id ∉ i.op.uses := fun huse => h id (.single ⟨i, hi, hpure, huse⟩)

/-- A measure that goes down from each pure instruction to its operands. -/
def Ranked (f : Func) (rank : InstId → Nat) : Prop := ∀ id j, f.Feeds id j → rank j < rank id

theorem Ranked.acyclic {rank : InstId → Nat} (h : f.Ranked rank) : f.Acyclic := by
  have hlt : ∀ {id j}, Relation.TransGen f.Feeds id j → rank j < rank id := by
    intro id j hpath
    induction hpath with
    | single hfeeds => exact h _ _ hfeeds
    | tail _ hfeeds ih => exact Nat.lt_trans (h _ _ hfeeds) ih
  intro id hcycle
  exact Nat.lt_irrefl _ (hlt hcycle)

/-- A function in which instructions use only results with smaller numbers is acyclic. -/
theorem acyclic_of_uses_lt
    (h : ∀ id < f.insts.size, ∀ j ∈ f.insts[id]?.elim [] (·.op.uses), j < id) : f.Acyclic := by
  have hranked : f.Ranked id := by
    rintro k j ⟨i, hi, -, huse⟩
    have hk := h k (lt_of_inst hi) j
    rw [hi] at hk
    exact hk huse
  exact hranked.acyclic

open Classical in
/-- The number of instructions that go into an instruction is such a measure, and it is never more
than there are instructions. -/
theorem Acyclic.exists_rank (hf : f.Coherent) (h : f.Acyclic) :
    ∃ rank : InstId → Nat, f.Ranked rank ∧ ∀ id, rank id ≤ f.insts.size := by
  refine ⟨fun id => ((Finset.range f.insts.size).filter (Relation.TransGen f.Feeds id)).card,
    fun id j hfeeds => ?_, fun id => ?_⟩
  · refine Finset.card_lt_card ⟨fun k hk => ?_, fun hsub => ?_⟩
    · rw [Finset.mem_filter] at hk ⊢
      exact ⟨hk.1, hk.2.head hfeeds⟩
    · -- `j` goes into `id`, but not into itself.
      have hj : j < f.insts.size := by
        obtain ⟨i, hi, -, huse⟩ := hfeeds
        exact (hf.inRange id i hi).lt_of_mem_uses huse
      have hmem := hsub (Finset.mem_filter.mpr ⟨Finset.mem_range.mpr hj, .single hfeeds⟩)
      exact h j (Finset.mem_filter.mp hmem).2
  · exact (Finset.card_filter_le _ _).trans (Finset.card_range _).le

theorem computed_agree (hp : f'.params = f.params) {i i' : Inst} (id id' : InstId)
    (hop : i'.op = i.op.mapOperands (Value.rename σ)) (hity : i'.ty = i.ty)
    (hty : ∀ v ∈ i.op.operands, f'.valueType (v.rename σ) = f.valueType v)
    (hρ : i.op.isPure → ∀ j ∈ i.op.uses, Agree (ρ j) (ρ' (σ j))) :
    Agree (f.computed L env ρ id i) (f'.computed L env ρ' id' i') := by
  unfold computed
  rw [hop, hity]
  refine Agree.bind ?_ fun _ => Agree.refl _
  exact evalOp_compare compares_agree hp id id' (Agree.of_error _ _) hty hρ

/-- Two valuations that are settled on the operands of a pure instruction settle its result. -/
theorem computed_settled {k : InstId} {i : Inst}
    (hρ : i.op.isPure → ∀ j ∈ i.op.uses, Settled (ρ j) (ρ' j)) :
    Settled (f.computed L env ρ k i) (f.computed L env ρ' k i) := by
  have hid : i.op.mapOperands (Value.rename id) = i.op :=
    Op.mapOperands_eq_self fun v _ => Value.rename_id v
  have hsettled : Settled (f.evalOp L env ρ k i.op)
      (f.evalOp L env ρ' k (i.op.mapOperands (Value.rename id))) :=
    evalOp_compare compares_settled rfl k k (compares_settled.fault _)
      (fun v _ => by rw [Value.rename_id]) hρ
  rw [hid] at hsettled
  exact compares_settled.bind hsettled fun _ => compares_settled.ok _

/-- Any two amounts of fuel above the measure of an instruction give it the same value, or the same
fault. -/
theorem Ranked.evalInst_settled {rank : InstId → Nat} (h : f.Ranked rank) (n m : Nat) {id : InstId}
    (hn : rank id < n) (hm : rank id < m) :
    Settled (f.evalInst L env n id) (f.evalInst L env m id) := by
  induction n generalizing m id with
  | zero => exact absurd hn (Nat.not_lt_zero _)
  | succ n ih =>
    cases m with
    | zero => exact absurd hm (Nat.not_lt_zero _)
    | succ m =>
      cases hi : f.insts[id]? with
      | none =>
        simp only [evalInst, inst_eq_error hi]
        exact compares_settled.fault _
      | some i =>
        rw [evalInst_succ hi, evalInst_succ hi]
        refine computed_settled fun hpure j hj => ?_
        have hlt := h id j ⟨i, hi, hpure, hj⟩
        exact ih m (by omega) (by omega)

/-- In an acyclic function the values of the instructions solve all the equations. -/
theorem Acyclic.solves (hf : f.Coherent) (h : f.Acyclic) (L : Layout) (env : Env) (id : InstId) :
    f.SolvesAt L env (f.values L env) id := by
  intro i hi
  -- The fuel is one more than there are instructions, and no measure is larger than that number.
  obtain ⟨rank, hrank, hle⟩ := h.exists_rank hf
  show Agree (f.evalInst L env (f.insts.size + 1) id) _
  rw [evalInst_succ hi]
  refine (computed_settled fun hpure j hj => ?_).agree
  have hlt := hrank id j ⟨i, hi, hpure, hj⟩
  have hid := hle id
  exact hrank.evalInst_settled _ _ (by omega) (by omega)

end Func

end PtrTag
