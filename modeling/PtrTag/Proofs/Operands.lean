import PtrTag.Inst
import Mathlib.Logic.Function.Basic

/-!
# `PtrTag/Proofs/Operands.lean` — operations under a change of operands

`Op.mapOperands` changes operands and nothing else. It composes, it depends only on what is done to
the operands that are there, and it keeps the form of the operation.

The change that matters most is a **renaming** of results: every operand that is the result of `id`
becomes the result of `σ id`, and constants, arguments and globals stay as they are. Putting one
result in the place of another (`Value.subst`) is the renaming that moves a single id.
-/

set_option autoImplicit false

namespace PtrTag

namespace Value

/-- Replaces the result of each instruction by that of another. -/
def rename (σ : InstId → InstId) : Value → Value
  | .inst id => .inst (σ id)
  | v => v

@[simp] theorem rename_inst (σ : InstId → InstId) (id : InstId) :
    rename σ (.inst id) = .inst (σ id) := rfl

@[simp] theorem rename_id (v : Value) : rename id v = v := by
  cases v <;> rfl

theorem rename_rename (σ τ : InstId → InstId) (v : Value) :
    rename τ (rename σ v) = rename (τ ∘ σ) v := by
  cases v <;> rfl

@[simp] theorem asWord?_rename (σ : InstId → InstId) (v : Value) :
    (rename σ v).asWord? = v.asWord? := by
  cases v <;> rfl

@[simp] theorem isZero_rename (σ : InstId → InstId) (v : Value) :
    (rename σ v).isZero = v.isZero := by
  cases v <;> rfl

theorem subst_inst (gone repl : InstId) (v : Value) :
    subst gone (.inst repl) v = rename (Function.update id gone repl) v := by
  cases v with
  | inst j =>
    by_cases h : j = gone
    · simp [subst, rename, h]
    · simp [subst, rename, h]
  | _ => rfl

theorem subst_of_ne {gone : InstId} {repl v : Value} (h : v ≠ .inst gone) :
    subst gone repl v = v := by
  cases v with
  | inst j =>
    have hj : j ≠ gone := fun he => h (he ▸ rfl)
    simp [subst, hj]
  | _ => rfl

/-- Putting a value in the place of a result twice is putting it there once. -/
theorem subst_subst (gone : InstId) (repl v : Value) :
    subst gone repl (subst gone repl v) = subst gone repl v := by
  by_cases hv : v = .inst gone
  · have hs : subst gone repl v = repl := by simp [hv, subst]
    rw [hs]
    by_cases hr : repl = .inst gone
    · simp [hr, subst]
    · exact subst_of_ne hr
  · rw [subst_of_ne hv, subst_of_ne hv]

end Value

namespace Op

/-! ## What an operation uses -/

theorem mem_uses {op : Op} {id : InstId} : id ∈ op.uses ↔ Value.inst id ∈ op.operands := by
  unfold uses
  rw [List.mem_filterMap]
  constructor
  · rintro ⟨v, hv, hid⟩
    cases v with
    | inst j =>
      obtain rfl : j = id := Option.some.inj hid
      exact hv
    | _ => exact absurd hid (by simp [Value.asInst?])
  · intro h
    exact ⟨_, h, rfl⟩

theorem count_uses (op : Op) (id : InstId) : op.uses.count id = op.operands.count (.inst id) := by
  unfold uses
  generalize op.operands = vs
  induction vs with
  | nil => rfl
  | cons v vs ih =>
    cases v with
    | inst k => by_cases hk : k = id <;> simp [Value.asInst?, hk, ih]
    | _ => simpa [List.filterMap_cons, Value.asInst?] using ih

/-- How often `j` is used after `gone` has given way to `repl`: the uses of `gone` are gone, and `repl`
has as many more. -/
theorem count_uses_subst (op : Op) (gone j : InstId) (repl : Value) :
    (op.mapOperands (Value.subst gone repl)).uses.count j =
      (if j = gone then 0 else op.uses.count j) +
        (if repl = .inst j then op.uses.count gone else 0) := by
  simp only [count_uses, operands_mapOperands]
  generalize op.operands = vs
  induction vs with
  | nil => simp
  | cons v vs ih =>
    rw [List.map_cons, List.count_cons, ih]
    by_cases hv : v = .inst gone
    · have hs : Value.subst gone repl v = repl := by simp [hv, Value.subst]
      rw [hs, hv]
      by_cases hj : j = gone
      · subst hj
        by_cases hr : repl = .inst j <;> simp [hr]
      · by_cases hr : repl = .inst j
        · simp [hr, hj, Ne.symm hj]
          omega
        · simp [hr, hj, Ne.symm hj]
    · rw [Value.subst_of_ne hv]
      by_cases hj : j = gone
      · subst hj
        simp [hv]
      · simp [hv, hj, List.count_cons]
        omega

/-! ## Forms

What an operation is for the block that it stands in depends on its form alone. -/

/-- Arithmetic, which is all that is ever emitted: it may stand anywhere between the phis of a block and
its terminator. -/
def isArith : Op → Bool
  | .binary .. | .cast .. => true
  | _ => false

@[simp] theorem isArith_mapOperands (φ : Value → Value) (op : Op) :
    (op.mapOperands φ).isArith = op.isArith := by
  cases op <;> rfl

/-- A test of the form of an operation: operands play no part in it, and arithmetic fails it. -/
structure FormTest (test : Op → Bool) : Prop where
  mapOperands : ∀ (φ : Value → Value) (op : Op), test (op.mapOperands φ) = test op
  arith : ∀ op : Op, op.isArith → test op = false

theorem formTest_isTerminator : FormTest isTerminator where
  mapOperands := fun φ op => by cases op <;> rfl
  arith := fun op h => by
    cases op with
    | binary | cast => rfl
    | _ => exact Bool.noConfusion h

theorem formTest_isPhi : FormTest isPhi where
  mapOperands := fun φ op => by cases op <;> rfl
  arith := fun op h => by
    cases op with
    | binary | cast => rfl
    | _ => exact Bool.noConfusion h

theorem formTest_isGep : FormTest isGep where
  mapOperands := fun φ op => by cases op <;> rfl
  arith := fun op h => by
    cases op with
    | binary | cast => rfl
    | _ => exact Bool.noConfusion h

/-! ## Changing operands -/

theorem mapOperands_congr {φ ψ : Value → Value} {op : Op} (h : ∀ v ∈ op.operands, φ v = ψ v) :
    op.mapOperands φ = op.mapOperands ψ := by
  cases op with
  | gep g =>
    have hi : g.indices.map φ = g.indices.map ψ :=
      List.map_congr_left fun v hv => h v (List.mem_cons_of_mem _ hv)
    simp [mapOperands, hi, h g.base List.mem_cons_self]
  | phi incoming =>
    refine congrArg Op.phi (List.map_congr_left fun p hp => ?_)
    show (φ p.1, p.2) = (ψ p.1, p.2)
    rw [h p.1 (List.mem_map_of_mem hp)]
  | ret value =>
    cases value with
    | none => rfl
    | some v => simp [mapOperands, h v (by simp [operands])]
  | call callee args =>
    have ha : args.map φ = args.map ψ :=
      List.map_congr_left fun v hv => h v (List.mem_cons_of_mem _ hv)
    simp [mapOperands, ha, h callee List.mem_cons_self]
  | invoke callee args normal unwind =>
    have ha : args.map φ = args.map ψ :=
      List.map_congr_left fun v hv => h v (List.mem_cons_of_mem _ hv)
    simp [mapOperands, ha, h callee List.mem_cons_self]
  | binary o l r => simp [mapOperands, h l (by simp [operands]), h r (by simp [operands])]
  | icmp o l r => simp [mapOperands, h l (by simp [operands]), h r (by simp [operands])]
  | cast o v => simp [mapOperands, h v (by simp [operands])]
  | load p => simp [mapOperands, h p (by simp [operands])]
  | store v p => simp [mapOperands, h v (by simp [operands]), h p (by simp [operands])]
  | condBr c _ _ => simp [mapOperands, h c (by simp [operands])]
  | alloca _ => rfl
  | br _ => rfl
  | unreachable => rfl

theorem mapOperands_id (op : Op) : op.mapOperands id = op := by
  cases op with
  | phi incoming => simp [mapOperands]
  | ret value => cases value <;> rfl
  | _ => simp [mapOperands]

theorem mapOperands_mapOperands (φ ψ : Value → Value) (op : Op) :
    (op.mapOperands φ).mapOperands ψ = op.mapOperands (ψ ∘ φ) := by
  cases op with
  | ret value => cases value <;> rfl
  | _ => simp [mapOperands]

/-- An operation without operands to change is not changed. -/
theorem mapOperands_eq_self {φ : Value → Value} {op : Op} (h : ∀ v ∈ op.operands, φ v = v) :
    op.mapOperands φ = op := by
  rw [mapOperands_congr (ψ := id) h, mapOperands_id]

theorem mapOperands_subst_of_notMem {op : Op} {gone : InstId} {repl : Value}
    (h : gone ∉ op.uses) : op.mapOperands (Value.subst gone repl) = op :=
  mapOperands_eq_self fun _ hv => Value.subst_of_ne fun he => h (mem_uses.mpr (he ▸ hv))

theorem mapOperands_subst_subst (op : Op) (gone : InstId) (repl : Value) :
    (op.mapOperands (Value.subst gone repl)).mapOperands (Value.subst gone repl) =
      op.mapOperands (Value.subst gone repl) := by
  rw [mapOperands_mapOperands]
  exact mapOperands_congr fun v _ => Value.subst_subst gone repl v

theorem mem_uses_rename {σ : InstId → InstId} {op : Op} {k : InstId} :
    k ∈ (op.mapOperands (Value.rename σ)).uses ↔ ∃ j ∈ op.uses, σ j = k := by
  simp only [mem_uses, operands_mapOperands, List.mem_map]
  constructor
  · rintro ⟨v, hv, hk⟩
    cases v with
    | inst j => exact ⟨j, hv, Value.inst.inj hk⟩
    | _ => exact absurd hk (by simp [Value.rename])
  · rintro ⟨j, hj, rfl⟩
    exact ⟨_, hj, rfl⟩

end Op

end PtrTag
