import PtrTag.Func.Uses

/-!
# `PtrTag/Proofs/Func/Lookup.lean` — what is found in a function after a change

Two groups of facts that every later file uses and none should have to redo.

* The lookups that answer in `Except` succeed exactly where the arenas have an entry, and
  `Func.checkOp` succeeds exactly on the operations whose references are all **in range**
  (`Func.InRange`).
* After each of the total changes (`modifyInst`, `addUses`, `registerUses`, `place`, `insertBlock`,
  `redirect`) the arenas are read entry by entry.
-/

set_option autoImplicit false

namespace PtrTag

namespace Func

variable {f : Func}

/-- A sequence succeeds if and only if its first part does, and then the rest. -/
theorem bind_eq_ok_iff {α β ε : Type} {x : Except ε α} {k : α → Except ε β} {b : β} :
    (x >>= k) = .ok b ↔ ∃ a, x = .ok a ∧ k a = .ok b := by
  cases x <;> simp [bind, Except.bind]

theorem elim_eq_ok_iff {α ε : Type} {x : Option α} {e : ε} {a : α} :
    x.elim (.error e) .ok = (.ok a : Except ε α) ↔ x = some a := by
  cases x <;> simp

theorem ok_bind {α β ε : Type} (a : α) (k : α → Except ε β) : (Except.ok a >>= k) = k a := rfl

/-! ## Lookups -/

theorem inst_eq_ok_iff {id : InstId} {i : Inst} : f.inst id = .ok i ↔ f.insts[id]? = some i :=
  elim_eq_ok_iff

theorem inst_eq_error {id : InstId} (h : f.insts[id]? = none) :
    f.inst id = .error (.unknownInst id) := by
  simp [inst, h]

theorem block_eq_ok_iff {b : BlockId} {block : Block} :
    f.block b = .ok block ↔ f.blocks[b]? = some block :=
  elim_eq_ok_iff

theorem instsOf_eq {b : BlockId} {block : Block} (h : f.blocks[b]? = some block) :
    f.instsOf b = block.insts := by
  simp [instsOf, h]

theorem instsOf_of_size_le {b : BlockId} (h : f.blocks.size ≤ b) : f.instsOf b = [] := by
  simp [instsOf, h]

theorem lt_of_mem_instsOf {b : BlockId} {id : InstId} (h : id ∈ f.instsOf b) :
    b < f.blocks.size := by
  by_cases hb : f.blocks.size ≤ b
  · rw [instsOf_of_size_le hb] at h
    exact absurd h (by simp)
  · exact Nat.not_le.mp hb

theorem holds_iff {test : Op → Bool} {id : InstId} :
    f.holds test id = true ↔ ∃ i, f.insts[id]? = some i ∧ test i.op = true := by
  unfold holds
  cases f.insts[id]? <;> simp

theorem holds_of_inst {id : InstId} {i : Inst} (h : f.insts[id]? = some i) (test : Op → Bool) :
    f.holds test id = test i.op := by
  rw [holds, h, Option.any_some]

theorem gep_eq_ok_iff {id : InstId} {g : Gep} :
    f.gep id = .ok g ↔ ∃ i, f.insts[id]? = some i ∧ i.op = .gep g := by
  unfold gep inst
  cases h : f.insts[id]? with
  | none => simp [bind, Except.bind]
  | some i =>
    obtain ⟨op, _, _, _, _, _⟩ := i
    cases op <;> simp [bind, Except.bind]

/-! ## References -/

/-- A value that stands for something: an instruction or an argument that exists, a constant, a
global. -/
def HasValue (f : Func) : Value → Prop
  | .inst id => id < f.insts.size
  | .arg index => index < f.params.length
  | .const _ | .global _ => True

theorem checkValue_eq_ok_iff {v : Value} : f.checkValue v = .ok () ↔ f.HasValue v := by
  cases v with
  | inst id =>
    unfold checkValue inst HasValue
    by_cases h : id < f.insts.size
    · simp [h, Except.map]
    · simp [h, Except.map]
  | arg index =>
    unfold checkValue param HasValue
    by_cases h : index < f.params.length
    · simp [h, Except.map]
    · simp [h, Except.map]
  | const c => simp [checkValue, HasValue]
  | global name => simp [checkValue, HasValue]

theorem checkBlock_eq_ok_iff {b : BlockId} : f.checkBlock b = .ok () ↔ b < f.blocks.size := by
  unfold checkBlock Func.block
  by_cases h : b < f.blocks.size
  · simp [h, Except.map]
  · simp [h, Except.map]

/-- All operands of an operation, and all the blocks that it names, exist. -/
structure InRange (f : Func) (op : Op) : Prop where
  operands : ∀ v ∈ op.operands, f.HasValue v
  successors : ∀ b ∈ op.successors, b < f.blocks.size
  incoming : ∀ b ∈ op.incomingBlocks, b < f.blocks.size

/-- A list of checks passes if and only if each of them does. -/
theorem forM_eq_ok_iff {α ε : Type} {check : α → Except ε Unit} {xs : List α} :
    xs.forM check = .ok () ↔ ∀ x ∈ xs, check x = .ok () := by
  induction xs with
  | nil => simp [List.forM, pure, Except.pure]
  | cons x xs ih =>
    simp only [List.forall_mem_cons, ← ih]
    show (check x >>= fun _ => xs.forM check) = .ok () ↔ _
    cases check x with
    | ok u => simp [bind, Except.bind]
    | error e => simp [bind, Except.bind]

/-- A list of checks that fails does so at the first check that does. -/
theorem exists_of_forM_error {α ε : Type} {check : α → Except ε Unit} {xs : List α} {e : ε}
    (h : xs.forM check = .error e) :
    ∃ pre x post, xs = pre ++ x :: post ∧ (∀ y ∈ pre, check y = .ok ()) ∧ check x = .error e := by
  induction xs with
  | nil => cases h
  | cons x xs ih =>
    have h : (check x >>= fun _ => xs.forM check) = .error e := h
    cases hx : check x with
    | error e' =>
      rw [hx] at h
      cases h
      exact ⟨[], x, xs, rfl, fun y hy => absurd hy List.not_mem_nil, hx⟩
    | ok u =>
      rw [hx] at h
      obtain ⟨pre, y, post, rfl, hpre, hy⟩ := ih h
      exact ⟨x :: pre, y, post, rfl, List.forall_mem_cons.mpr ⟨hx, hpre⟩, hy⟩

theorem checkOp_eq_ok_iff {op : Op} : f.checkOp op = .ok () ↔ f.InRange op := by
  have hsplit : f.checkOp op = .ok () ↔
      op.operands.forM f.checkValue = .ok () ∧ op.successors.forM f.checkBlock = .ok () ∧
        op.incomingBlocks.forM f.checkBlock = .ok () := by
    unfold checkOp
    cases op.operands.forM f.checkValue with
    | error e => simp [bind, Except.bind]
    | ok u =>
      cases op.successors.forM f.checkBlock with
      | error e => simp [bind, Except.bind]
      | ok u => simp [bind, Except.bind]
  rw [hsplit, forM_eq_ok_iff, forM_eq_ok_iff, forM_eq_ok_iff]
  simp only [checkValue_eq_ok_iff, checkBlock_eq_ok_iff]
  exact ⟨fun ⟨h₁, h₂, h₃⟩ => ⟨h₁, h₂, h₃⟩, fun ⟨h₁, h₂, h₃⟩ => ⟨h₁, h₂, h₃⟩⟩

theorem HasValue.mono {f f' : Func} {v : Value} (h : f.HasValue v)
    (hi : f.insts.size ≤ f'.insts.size) (hp : f'.params = f.params) : f'.HasValue v := by
  cases v with
  | inst id => exact Nat.lt_of_lt_of_le h hi
  | arg index => unfold HasValue; rw [hp]; exact h
  | const c => trivial
  | global name => trivial

theorem InRange.mono {f f' : Func} {op : Op} (h : f.InRange op)
    (hi : f.insts.size ≤ f'.insts.size) (hb : f.blocks.size ≤ f'.blocks.size)
    (hp : f'.params = f.params) : f'.InRange op where
  operands := fun v hv => (h.operands v hv).mono hi hp
  successors := fun b hm => Nat.lt_of_lt_of_le (h.successors b hm) hb
  incoming := fun b hm => Nat.lt_of_lt_of_le (h.incoming b hm) hb

theorem InRange.lt_of_mem_uses {op : Op} (h : f.InRange op) {id : InstId} (hid : id ∈ op.uses) :
    id < f.insts.size := by
  obtain ⟨v, hv, hvid⟩ := List.mem_filterMap.mp hid
  cases v with
  | inst j =>
    obtain rfl : j = id := Option.some.inj hvid
    exact h.operands _ hv
  | _ => exact absurd hvid (by simp [Value.asInst?])

/-! ## Changing one instruction -/

@[simp] theorem size_modifyInst (id : InstId) (change : Inst → Inst) :
    (f.modifyInst id change).insts.size = f.insts.size := by
  simp [modifyInst]

theorem getElem?_modifyInst (id j : InstId) (change : Inst → Inst) :
    (f.modifyInst id change).insts[j]? = if id = j then f.insts[j]?.map change else f.insts[j]? := by
  simp only [modifyInst, Array.getElem?_modify]

end Func

/-- The instruction with more entries in its use list. -/
def Inst.withUsers (i : Inst) (more : List InstId) : Inst := { i with users := i.users ++ more }

@[simp] theorem Inst.withUsers_nil (i : Inst) : i.withUsers [] = i := by
  simp [withUsers]

theorem Inst.withUsers_withUsers (i : Inst) (xs ys : List InstId) :
    (i.withUsers xs).withUsers ys = i.withUsers (xs ++ ys) := by
  simp [withUsers]

namespace Func

variable {f : Func}

theorem getElem?_addUses (id user j : InstId) (times : Nat) :
    (f.addUses id user times).insts[j]? =
      f.insts[j]?.map (·.withUsers (if id = j then List.replicate times user else [])) := by
  unfold addUses
  rw [getElem?_modifyInst]
  by_cases h : id = j
  · simp [h, Inst.withUsers]
  · simp [h]

theorem getElem?_registerUses (user j : InstId) (used : List InstId) :
    (f.registerUses user used).insts[j]? =
      f.insts[j]?.map (·.withUsers (List.replicate (used.count j) user)) := by
  unfold registerUses
  induction used generalizing f with
  | nil => simp
  | cons id used ih =>
    rw [List.foldl_cons, ih, getElem?_addUses, Option.map_map]
    congr 1
    funext i
    by_cases h : id = j
    · simp [h, Inst.withUsers_withUsers, List.replicate_succ]
    · simp [h]

/-- Registering uses touches nothing but use lists. -/
theorem registerUses_eq (f : Func) (user : InstId) (used : List InstId) :
    ∃ insts, f.registerUses user used = { f with insts := insts } ∧
      insts.size = f.insts.size := by
  unfold registerUses
  induction used generalizing f with
  | nil => exact ⟨f.insts, rfl, rfl⟩
  | cons id used ih =>
    obtain ⟨insts, heq, hsize⟩ := ih (f.addUses id user 1)
    refine ⟨insts, ?_, by rw [hsize]; simp [addUses]⟩
    rw [List.foldl_cons, heq]
    rfl

@[simp] theorem size_registerUses (user : InstId) (used : List InstId) :
    (f.registerUses user used).insts.size = f.insts.size := by
  obtain ⟨insts, heq, hsize⟩ := f.registerUses_eq user used
  rw [heq, hsize]

@[simp] theorem blocks_registerUses (user : InstId) (used : List InstId) :
    (f.registerUses user used).blocks = f.blocks := by
  obtain ⟨insts, heq, -⟩ := f.registerUses_eq user used
  rw [heq]

@[simp] theorem order_registerUses (user : InstId) (used : List InstId) :
    (f.registerUses user used).order = f.order := by
  obtain ⟨insts, heq, -⟩ := f.registerUses_eq user used
  rw [heq]

@[simp] theorem params_registerUses (user : InstId) (used : List InstId) :
    (f.registerUses user used).params = f.params := by
  obtain ⟨insts, heq, -⟩ := f.registerUses_eq user used
  rw [heq]

/-! ## Placing an instruction -/

end Func

/-- The instruction that a draft becomes in block `b`. -/
def Draft.settle (d : Draft) (b : BlockId) : Inst :=
  { op := d.op, ty := d.ty, name := d.name, block := b }

namespace Func

variable {f : Func} {d : Draft} {b : BlockId} {pos : Nat}

@[simp] theorem size_place : (f.place d b pos).insts.size = f.insts.size + 1 := by
  simp [place]

@[simp] theorem order_place : (f.place d b pos).order = f.order := by
  simp [place]

@[simp] theorem params_place : (f.place d b pos).params = f.params := by
  simp [place]

@[simp] theorem size_blocks_place : (f.place d b pos).blocks.size = f.blocks.size := by
  simp [place]

/-- A new instruction that uses only what is there has no user yet, and the instructions that it uses
get one entry per use. -/
theorem getElem?_place (h : f.InRange d.op) (j : InstId) :
    (f.place d b pos).insts[j]? =
      if j = f.insts.size then some (d.settle b)
      else f.insts[j]?.map (·.withUsers (List.replicate (d.op.uses.count j) f.insts.size)) := by
  simp only [place, getElem?_registerUses, Array.getElem?_push]
  by_cases hj : j = f.insts.size
  · have hfresh : d.op.uses.count f.insts.size = 0 := by
      rw [List.count_eq_zero]
      intro hm
      exact absurd (h.lt_of_mem_uses hm) (Nat.lt_irrefl _)
    simp [hj, hfresh, Draft.settle]
  · simp [hj]

/-- An instruction is the new one, or an old one that may have more users. -/
theorem place_cases (h : f.InRange d.op) {j : InstId} {i : Inst}
    (hi : (f.place d b pos).insts[j]? = some i) :
    (j = f.insts.size ∧ i = d.settle b) ∨
      (j ≠ f.insts.size ∧ ∃ i₀, f.insts[j]? = some i₀ ∧
        i = i₀.withUsers (List.replicate (d.op.uses.count j) f.insts.size)) := by
  rw [getElem?_place h] at hi
  by_cases hj : j = f.insts.size
  · rw [if_pos hj, Option.some.injEq] at hi
    exact .inl ⟨hj, hi.symm⟩
  · rw [if_neg hj, Option.map_eq_some_iff] at hi
    obtain ⟨i₀, hi₀, rfl⟩ := hi
    exact .inr ⟨hj, i₀, hi₀, rfl⟩

theorem instsOf_place (hb : b < f.blocks.size) (c : BlockId) :
    (f.place d b pos).instsOf c =
      if c = b then (f.instsOf b).insertIdx pos f.insts.size else f.instsOf c := by
  simp only [place, instsOf, blocks_registerUses, Array.getElem?_modify]
  by_cases hc : c = b
  · subst hc
    simp [hb]
  · simp [hc, Ne.symm hc]

/-! ## Positions -/

theorem idxOf?_of_split {xs pre post : List InstId} {a : InstId} (hsplit : xs = pre ++ a :: post)
    (hnodup : xs.Nodup) : xs.idxOf? a = some pre.length := by
  have hpre : pre.findIdx? (· == a) = none := by
    rw [List.findIdx?_eq_none_iff]
    intro x hx
    rw [hsplit, List.nodup_append] at hnodup
    simpa using hnodup.2.2 x hx a List.mem_cons_self
  rw [hsplit, List.idxOf?, List.findIdx?_append]
  simp [hpre, List.findIdx?_cons]

theorem insertIdx_length_append (pre post : List InstId) (n : InstId) :
    (pre ++ post).insertIdx pre.length n = pre ++ n :: post := by
  induction pre with
  | nil => rfl
  | cons x pre ih => simp [ih]

/-! ## Adding a block -/

@[simp] theorem size_insertBlock (base : String) (pos : Nat) :
    (f.insertBlock base pos).blocks.size = f.blocks.size + 1 := by
  simp [insertBlock]

@[simp] theorem instsOf_insertBlock (base : String) (pos : Nat) (c : BlockId) :
    (f.insertBlock base pos).instsOf c = f.instsOf c := by
  simp only [insertBlock, instsOf, Array.getElem?_push]
  by_cases hc : c = f.blocks.size
  · simp [hc]
  · simp [hc]

/-! ## Redirecting uses -/

/-- Redirecting changes the operation of the user, takes its entries out of one use list and puts as
many into another. -/
theorem getElem?_redirect (user gone : InstId) (repl : Value) (times : Nat) (j : InstId) :
    (f.redirect user gone repl times).insts[j]? = f.insts[j]?.map fun i =>
      { i with
        op := if user = j then i.op.mapOperands (.subst gone repl) else i.op
        users := (if gone = j then i.users.filter (· != user) else i.users) ++
          (if repl = .inst j then List.replicate times user else []) } := by
  cases repl with
  | inst id =>
    simp only [redirect, getElem?_addUses, getElem?_modifyInst]
    by_cases hu : user = j <;> by_cases hg : gone = j <;> by_cases hi : id = j <;>
      simp [hu, hg, hi, Inst.withUsers, Function.comp_def]
  | _ =>
    simp only [redirect, getElem?_modifyInst]
    by_cases hu : user = j <;> by_cases hg : gone = j <;> simp [hu, hg, Function.comp_def]

/-- Redirecting touches nothing but instructions. -/
theorem redirect_eq (f : Func) (user gone : InstId) (repl : Value) (times : Nat) :
    ∃ insts, f.redirect user gone repl times = { f with insts := insts } ∧
      insts.size = f.insts.size := by
  cases repl with
  | inst id =>
    refine ⟨(f.redirect user gone (.inst id) times).insts, rfl, ?_⟩
    simp [redirect, addUses]
  | _ =>
    refine ⟨_, rfl, ?_⟩
    simp [modifyInst]

end Func

end PtrTag
