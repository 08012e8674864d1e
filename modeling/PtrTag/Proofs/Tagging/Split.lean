import PtrTag.Proofs.Func.Reachable
import PtrTag.Proofs.Func.Verify
import Mathlib.Data.List.TakeWhile

/-!
# `PtrTag/Proofs/Tagging/Split.lean` — splitting the normal edge of an invoke

A block is put on the edge from an invoke to its normal destination. The split itself never fails, and
`Func.Splits` says all that it does.

Whether the function is still well formed afterwards is a matter of the phis of the destination. They
are rekeyed **by block and not by edge**: whatever came from the block of the invoke now comes from the
new block. If the invoke has its unwind edge to the same destination, the block of the invoke is still
a predecessor, and no phi says so any more. That is the only way in which a split does damage to the
graph (`Splits.verify_iff`).

The new block is laid out right before the destination. So it becomes the entry block if the
destination was that (`Splits.entry?_eq_iff`).
-/

set_option autoImplicit false

namespace PtrTag

namespace Op

/-- A phi with every edge from `old` coming from `new`; any other operation as it is. -/
def rekey (old new : BlockId) : Op → Op
  | .phi incoming => .phi (incoming.map fun (v, b) => (v, if b = old then new else b))
  | op => op

/-- An invoke with another normal destination; any other operation as it is. -/
def withNormal (dest : BlockId) : Op → Op
  | .invoke callee args _ unwind => .invoke callee args dest unwind
  | op => op

/-- A test of operations that does not look at the blocks that they name. -/
structure BlindToBlocks (test : Op → Bool) : Prop where
  rekey : ∀ (old new : BlockId) (op : Op), test (op.rekey old new) = test op
  withNormal : ∀ (dest : BlockId) (op : Op), test (op.withNormal dest) = test op

theorem blindToBlocks_isTerminator : BlindToBlocks isTerminator where
  rekey := fun old new op => by cases op <;> rfl
  withNormal := fun dest op => by cases op <;> rfl

theorem blindToBlocks_isPhi : BlindToBlocks isPhi where
  rekey := fun old new op => by cases op <;> rfl
  withNormal := fun dest op => by cases op <;> rfl

theorem successors_rekey (old new : BlockId) (op : Op) : (op.rekey old new).successors = op.successors := by
  cases op <;> rfl

theorem incomingBlocks_rekey (old new : BlockId) (op : Op) :
    (op.rekey old new).incomingBlocks = op.incomingBlocks.map fun b => if b = old then new else b := by
  cases op with
  | phi incoming => simp [rekey, incomingBlocks]
  | _ => rfl

end Op

namespace Func

variable {f F : Func}

/-! ## The new block -/

/-- The function with a new block at a position of the block order, which only branches to `dest`. -/
def withJump (f : Func) (dest : BlockId) (pos : Nat) : Func :=
  (f.insertBlock "invoke_insert_point" pos).place { op := .br dest, ty := .void } f.blocks.size 0

section Jump

variable {dest : BlockId} {pos : Nat}

theorem inRange_br (hdest : dest < f.blocks.size) : f.InRange (.br dest) :=
  ⟨by simp [Op.operands], by simp [Op.successors, hdest], by simp [Op.incomingBlocks]⟩

theorem size_blocks_withJump : (f.withJump dest pos).blocks.size = f.blocks.size + 1 := by
  unfold withJump
  rw [size_blocks_place, size_insertBlock]

theorem order_withJump : (f.withJump dest pos).order = f.order.insertIdx pos f.blocks.size := by
  unfold withJump
  rw [order_place]
  rfl

theorem instsOf_withJump (b : BlockId) :
    (f.withJump dest pos).instsOf b = if b = f.blocks.size then [f.insts.size] else f.instsOf b := by
  unfold withJump
  rw [instsOf_place (by rw [size_insertBlock]; exact Nat.lt_succ_self _)]
  simp only [instsOf_insertBlock, instsOf_of_size_le (Nat.le_refl f.blocks.size)]
  rfl

theorem getElem?_withJump (hdest : dest < f.blocks.size) (id : InstId) :
    (f.withJump dest pos).insts[id]? =
      if id = f.insts.size then
        some { op := .br dest, ty := .void, name := none, block := f.blocks.size }
      else f.insts[id]? := by
  have hop : (f.insertBlock "invoke_insert_point" pos).InRange (.br dest) :=
    inRange_br (by rw [size_insertBlock]; exact Nat.lt_succ_of_lt hdest)
  unfold withJump
  rw [getElem?_place hop]
  show (if id = f.insts.size then _ else f.insts[id]?.map (·.withUsers [])) = _
  simp only [Inst.withUsers_nil, Option.map_id']
  rfl

theorem holds_withJump (hdest : dest < f.blocks.size) {test : Op → Bool}
    (htest : test (.br dest) = false) (id : InstId) :
    (f.withJump dest pos).holds test id = f.holds test id := by
  unfold holds
  rw [getElem?_withJump hdest]
  by_cases hid : id = f.insts.size
  · subst hid
    simp [htest]
  · rw [if_neg hid]

/-- The same function when `invoke`, which has the operation `op`, goes to the new block instead. -/
def rerouted (f : Func) (invoke : InstId) (op : Op) (dest : BlockId) (pos : Nat) : Func :=
  (f.withJump dest pos).modifyInst invoke fun inst => { inst with op := op.withNormal f.blocks.size }

theorem order_rerouted (invoke : InstId) (op : Op) :
    (f.rerouted invoke op dest pos).order = f.order.insertIdx pos f.blocks.size := by
  show (f.withJump dest pos).order = _
  exact order_withJump

theorem instsOf_rerouted (invoke : InstId) (op : Op) (b : BlockId) :
    (f.rerouted invoke op dest pos).instsOf b =
      if b = f.blocks.size then [f.insts.size] else f.instsOf b := by
  show (f.withJump dest pos).instsOf b = _
  exact instsOf_withJump b

theorem getElem?_rerouted_size (hdest : dest < f.blocks.size) {invoke : InstId}
    (hinvoke : invoke < f.insts.size) (op : Op) :
    (f.rerouted invoke op dest pos).insts[f.insts.size]? =
      some { op := .br dest, ty := .void, name := none, block := f.blocks.size } := by
  unfold rerouted
  rw [getElem?_modifyInst, if_neg (Nat.ne_of_lt hinvoke), getElem?_withJump hdest, if_pos rfl]

theorem getElem?_rerouted (hdest : dest < f.blocks.size) {invoke id : InstId} {i j : Inst}
    (hi : f.insts[invoke]? = some i) (hj : f.insts[id]? = some j) :
    (f.rerouted invoke i.op dest pos).insts[id]? = some
      (if id = invoke then { j with op := j.op.withNormal f.blocks.size } else j) := by
  have hne : id ≠ f.insts.size := Nat.ne_of_lt (lt_of_inst hj)
  unfold rerouted
  rw [getElem?_modifyInst, getElem?_withJump hdest, if_neg hne, hj]
  by_cases hid : id = invoke
  · subst hid
    obtain rfl : i = j := Option.some.inj (hi.symm.trans hj)
    simp
  · rw [if_neg (Ne.symm hid), if_neg hid]

theorem isPhi_rerouted (hdest : dest < f.blocks.size) {invoke : InstId} {i : Inst}
    (hi : f.insts[invoke]? = some i) (id : InstId) :
    (f.rerouted invoke i.op dest pos).holds Op.isPhi id = f.holds Op.isPhi id := by
  by_cases hid : id = invoke
  · subst hid
    simp only [holds, getElem?_rerouted hdest hi hi, hi, if_true, Option.any_some,
      Op.blindToBlocks_isPhi.withNormal]
  · rw [← holds_withJump hdest rfl id]
    unfold holds rerouted
    rw [getElem?_modifyInst, if_neg (Ne.symm hid)]

theorem lt_size_blocks_rerouted (invoke : InstId) (op : Op) :
    f.blocks.size < (f.rerouted invoke op dest pos).blocks.size := by
  show f.blocks.size < (f.withJump dest pos).blocks.size
  rw [size_blocks_withJump]
  exact Nat.lt_succ_self _

/-- The destination has the phis that it had. -/
theorem phis_rerouted (hdest : dest < f.blocks.size) {invoke : InstId} {i : Inst}
    (hi : f.insts[invoke]? = some i) :
    (f.rerouted invoke i.op dest pos).phis dest =
      .ok ((f.instsOf dest).takeWhile (f.holds Op.isPhi)) := by
  rw [phis_eq (Nat.lt_trans hdest (lt_size_blocks_rerouted invoke i.op)),
    funext (isPhi_rerouted hdest hi), instsOf_rerouted, if_neg (Nat.ne_of_lt hdest)]

end Jump

/-! ## Rekeyed phis -/

section Rekey

variable {old new : BlockId}

/-- The listed phis have their edges from `old` coming from `new`, and nothing else has changed. -/
structure Rekeys (f : Func) (old new : BlockId) (phis : List InstId) (F : Func) : Prop where
  order : F.order = f.order
  blocks : F.blocks = f.blocks
  inst : ∀ (id : InstId) (i : Inst), f.insts[id]? = some i →
    F.insts[id]? = some (if id ∈ phis then { i with op := i.op.rekey old new } else i)

theorem rekeys_nil (f : Func) : f.Rekeys old new [] f :=
  ⟨rfl, rfl, fun _ _ hi => by simpa using hi⟩

theorem Rekeys.cons {phi : InstId} {phis : List InstId} {i : Inst} (hi : f.insts[phi]? = some i)
    (hnew : phi ∉ phis)
    (h : (f.modifyInst phi fun inst => { inst with op := i.op.rekey old new }).Rekeys old new phis F) :
    f.Rekeys old new (phi :: phis) F where
  order := h.order
  blocks := h.blocks
  inst := fun id j hj => by
    by_cases hid : phi = id
    · subst hid
      obtain rfl : i = j := Option.some.inj (hi.symm.trans hj)
      have hhead := h.inst phi { i with op := i.op.rekey old new } (by
        rw [getElem?_modifyInst, if_pos rfl, hi]
        rfl)
      rw [hhead, if_neg hnew, if_pos List.mem_cons_self]
    · have hrest := h.inst id j (by rw [getElem?_modifyInst, if_neg hid, hj])
      rw [hrest]
      simp [Ne.symm hid]

end Rekey

/-! ## Split edges -/

/-- What the operation of instruction `id` becomes when the edge from `invoke`, in block `source`, to
`dest` is led through the new block. -/
def detour (f : Func) (invoke : InstId) (source dest : BlockId) (id : InstId) (op : Op) : Op :=
  if id = invoke then op.withNormal f.blocks.size
  else if id ∈ (f.instsOf dest).takeWhile (f.holds Op.isPhi) then op.rekey source f.blocks.size
  else op

/-- The function `F` is `f` with a new block on the normal edge of `invoke`, which stands in `source`
and goes to `dest` or `unwind`. -/
structure Splits (f : Func) (invoke : InstId) (source dest unwind : BlockId) (F : Func) : Prop where
  coherent : F.Coherent
  edge : ∃ i callee args, f.insts[invoke]? = some i ∧ i.op = .invoke callee args dest unwind ∧
    i.block = source
  order : ∀ pre post : List BlockId, f.order = pre ++ dest :: post →
    F.order = pre ++ f.blocks.size :: dest :: post
  insts : ∀ b : BlockId, F.instsOf b = if b = f.blocks.size then [f.insts.size] else f.instsOf b
  jump : ∃ i, F.insts[f.insts.size]? = some i ∧ i.op = .br dest
  kept : ∀ (id : InstId) (i : Inst), f.insts[id]? = some i →
    F.insts[id]? = some { i with op := f.detour invoke source dest id i.op }

/-- A split is a new block, a rerouted invoke and rekeyed phis. -/
theorem Rekeys.splits {invoke : InstId} {i : Inst} {callee : Value} {args : List Value}
    {dest unwind : BlockId} {pre post : List BlockId} (hi : f.insts[invoke]? = some i)
    (hop : i.op = .invoke callee args dest unwind) (hdest : dest < f.blocks.size)
    (hnodup : f.order.Nodup) (hsplit : f.order = pre ++ dest :: post) (hcoherent : F.Coherent)
    (h : (f.rerouted invoke i.op dest pre.length).Rekeys i.block f.blocks.size
      ((f.instsOf dest).takeWhile (f.holds Op.isPhi)) F) :
    f.Splits invoke i.block dest unwind F where
  coherent := hcoherent
  edge := ⟨i, callee, args, hi, hop, rfl⟩
  order := fun pre' post' hsplit' => by
    -- The destination stands once in the block order, so there is one way to split it there.
    have hpos := (idxOf?_of_split hsplit' hnodup).symm.trans (idxOf?_of_split hsplit hnodup)
    rw [h.order, order_rerouted, ← Option.some.inj hpos, hsplit', insertIdx_length_append]
  insts := fun b => by
    have hsame : F.instsOf b = (f.rerouted invoke i.op dest pre.length).instsOf b := by
      simp only [instsOf, h.blocks]
    rw [hsame, instsOf_rerouted]
  jump := by
    refine ⟨_, h.inst _ _ (getElem?_rerouted_size hdest (lt_of_inst hi) i.op), ?_⟩
    split <;> rfl
  kept := fun id j hj => by
    rw [h.inst id _ (getElem?_rerouted hdest hi hj)]
    unfold detour
    by_cases hid : id = invoke
    · -- An invoke is no phi, so it is not among those that are rekeyed.
      subst hid
      obtain rfl : i = j := Option.some.inj (hi.symm.trans hj)
      have hnot : id ∉ (f.instsOf dest).takeWhile (f.holds Op.isPhi) := by
        intro hm
        obtain ⟨j, hj, hphi⟩ := holds_iff.mp (List.mem_takeWhile_imp hm)
        obtain rfl : i = j := Option.some.inj (hi.symm.trans hj)
        rw [hop] at hphi
        exact Bool.noConfusion hphi
      rw [if_neg hnot, if_pos rfl, if_pos rfl]
    · rw [if_neg hid, if_neg hid]
      split <;> rfl

end Func

namespace Edit

open Func

variable {f : Func}

/-! ## Running a split -/

theorem insertBlockBefore_run (base : String) {b : BlockId} {pre post : List BlockId}
    (hsplit : f.order = pre ++ b :: post) (hnodup : f.order.Nodup) :
    insertBlockBefore base b f = .ok f.blocks.size (f.insertBlock base pre.length) := by
  have hpos : f.order.idxOf? b = some pre.length := idxOf?_of_split hsplit hnodup
  exact ask_bind_of_ok (elim_eq_ok_iff.mpr hpos)

theorem append_run {b : BlockId} {d : Draft} (hb : b < f.blocks.size) (hop : f.InRange d.op) :
    append b d f = .ok f.insts.size (f.place d b (f.instsOf b).length) := by
  have hblock : f.blocks[b]? = some f.blocks[b] := Array.getElem?_eq_getElem hb
  rw [instsOf_eq hblock]
  refine (ask_bind_of_ok (block_eq_ok_iff.mpr hblock)).trans ?_
  rw [create_run, checkOp_eq_ok_iff.mpr hop]

/-- The new block gets its branch. -/
theorem append_jump_run {dest : BlockId} (hdest : dest < f.blocks.size) (pos : Nat) :
    append f.blocks.size { op := .br dest, ty := .void } (f.insertBlock "invoke_insert_point" pos) =
      .ok f.insts.size (f.withJump dest pos) := by
  have hnew : f.blocks.size < (f.insertBlock "invoke_insert_point" pos).blocks.size := by
    rw [size_insertBlock]
    exact Nat.lt_succ_self _
  have hbr : (f.insertBlock "invoke_insert_point" pos).InRange (.br dest) :=
    inRange_br (Nat.lt_trans hdest hnew)
  have hempty : (f.insertBlock "invoke_insert_point" pos).instsOf f.blocks.size = [] := by
    rw [instsOf_insertBlock, instsOf_of_size_le (Nat.le_refl _)]
  rw [append_run hnew hbr, hempty]
  rfl

theorem setNormalDest_run {invoke : InstId} {i : Inst} {callee : Value} {args : List Value}
    {normal unwind dest : BlockId} (hi : f.insts[invoke]? = some i)
    (hop : i.op = .invoke callee args normal unwind) (hdest : dest < f.blocks.size) :
    setNormalDest invoke dest f =
      .ok () (f.modifyInst invoke fun inst => { inst with op := i.op.withNormal dest }) := by
  refine (ask_bind_of_ok (checkBlock_eq_ok_iff.mpr hdest)).trans ?_
  refine (ask_bind_of_ok (a := i.op.withNormal dest) ?_).trans rfl
  rw [inst_eq_ok_iff.mpr hi, ok_bind, hop]
  rfl

theorem rekeyIncoming_run {phi : InstId} {i : Inst} {new : BlockId} (hi : f.insts[phi]? = some i)
    (hphi : i.op.isPhi) (hnew : new < f.blocks.size) (old : BlockId) :
    ∃ count, rekeyIncoming phi old new f =
      .ok count (f.modifyInst phi fun inst => { inst with op := i.op.rekey old new }) := by
  cases hop : i.op with
  | phi incoming =>
    refine ⟨incoming.countP (·.2 == old), (ask_bind_of_ok (checkBlock_eq_ok_iff.mpr hnew)).trans ?_⟩
    refine (ask_bind_of_ok (a := incoming) ?_).trans rfl
    rw [inst_eq_ok_iff.mpr hi, ok_bind, hop]
  | _ =>
    rw [hop] at hphi
    exact Bool.noConfusion hphi

theorem yields_rekeyPhis {old new : BlockId} {phis : List InstId} (hnew : new < f.blocks.size)
    (hnodup : phis.Nodup) (hphis : ∀ phi ∈ phis, f.holds Op.isPhi phi) :
    Yields (rekeyPhis old new phis) f fun _ F => f.Rekeys old new phis F := by
  induction phis generalizing f with
  | nil => exact Yields.pure (rekeys_nil f)
  | cons phi rest ih =>
    rw [List.nodup_cons] at hnodup
    rw [List.forall_mem_cons] at hphis
    obtain ⟨i, hi, hphi⟩ := holds_iff.mp hphis.1
    obtain ⟨count, hrun⟩ := rekeyIncoming_run hi hphi hnew old
    refine Yields.bind (R := fun _ f₁ => f₁ =
      f.modifyInst phi fun inst => { inst with op := i.op.rekey old new }) ⟨_, _, hrun, rfl⟩ ?_
    intro _ f₁ hf₁
    have hnew₁ : new < f₁.blocks.size := by
      rw [hf₁]
      exact hnew
    have hphis₁ : ∀ id ∈ rest, f₁.holds Op.isPhi id := by
      intro id hid
      obtain ⟨j, hj, hphi'⟩ := holds_iff.mp (hphis.2 id hid)
      have hne : phi ≠ id := fun he => hnodup.1 (he ▸ hid)
      exact holds_iff.mpr ⟨j, by rw [hf₁, getElem?_modifyInst, if_neg hne, hj], hphi'⟩
    refine (ih hnew₁ hnodup.2 hphis₁).mono fun _ F hF => ?_
    rw [hf₁] at hF
    exact hF.cons hi hnodup.1

theorem yields_splitNormalEdge (hf : f.Coherent) {invoke : InstId} {i : Inst} {callee : Value}
    {args : List Value} {normal unwind : BlockId} (hi : f.insts[invoke]? = some i)
    (hop : i.op = .invoke callee args normal unwind) :
    Yields (splitNormalEdge invoke) f fun split F =>
      split = ⟨invoke, i.block, normal, f.blocks.size⟩ ∧
        (F.Coherent → f.Splits invoke i.block normal unwind F) := by
  have hnormal : normal < f.blocks.size :=
    (hf.inRange invoke i hi).successors normal (by simp [hop, Op.successors])
  obtain ⟨pre, post, hsplit⟩ := List.append_of_mem (hf.mem_order.mpr hnormal)
  refine Yields.ask_bind (inst_eq_ok_iff.mpr hi) (Yields.ask_bind (a := normal) (by rw [hop]) ?_)
  refine Yields.bind (R := fun b f₁ => b = f.blocks.size ∧ f₁ = f.insertBlock _ pre.length)
    ⟨_, _, insertBlockBefore_run _ hsplit hf.nodup_order, rfl, rfl⟩ ?_
  rintro _ _ ⟨rfl, rfl⟩
  refine Yields.bind (R := fun _ f₁ => f₁ = f.withJump normal pre.length)
    ⟨_, _, append_jump_run hnormal _, rfl⟩ ?_
  rintro _ _ rfl
  have hnew : f.blocks.size < (f.rerouted invoke i.op normal pre.length).blocks.size :=
    lt_size_blocks_rerouted invoke i.op
  have hi₁ : (f.withJump normal pre.length).insts[invoke]? = some i := by
    rw [getElem?_withJump hnormal, if_neg (Nat.ne_of_lt (lt_of_inst hi)), hi]
  refine Yields.bind (R := fun _ f₂ => f₂ = f.rerouted invoke i.op normal pre.length)
    ⟨_, _, setNormalDest_run hi₁ hop hnew, rfl⟩ ?_
  rintro _ _ rfl
  refine Yields.ask_bind (phis_rerouted hnormal hi) ?_
  have hnodup : ((f.instsOf normal).takeWhile (f.holds Op.isPhi)).Nodup :=
    (hf.nodup_instsOf normal).sublist (List.takeWhile_sublist _)
  have hall : ∀ phi ∈ (f.instsOf normal).takeWhile (f.holds Op.isPhi),
      (f.rerouted invoke i.op normal pre.length).holds Op.isPhi phi := by
    intro phi hm
    rw [isPhi_rerouted hnormal hi]
    exact List.mem_takeWhile_imp hm
  refine (yields_rekeyPhis hnew hnodup hall).bind fun _ F hF => Yields.pure ⟨rfl, fun hc => ?_⟩
  exact hF.splits hi hop hnormal hf.nodup_order hsplit hc

end Edit

namespace Func

variable {f F : Func} {invoke : InstId} {source dest unwind : BlockId}

/-! ## The graph after a split -/

theorem test_detour {test : Op → Bool} (htest : Op.BlindToBlocks test) (invoke : InstId)
    (source dest : BlockId) (id : InstId) (op : Op) :
    test (f.detour invoke source dest id op) = test op := by
  unfold detour
  split
  · exact htest.withNormal _ op
  · split
    · exact htest.rekey _ _ op
    · rfl

theorem successors_detour {id : InstId} (hid : id ≠ invoke) (op : Op) :
    (f.detour invoke source dest id op).successors = op.successors := by
  unfold detour
  rw [if_neg hid]
  split
  · exact Op.successors_rekey _ _ op
  · rfl

namespace Splits

theorem source_mem (h : f.Splits invoke source dest unwind F) (hf : f.Coherent) :
    source ∈ f.order := by
  obtain ⟨i, callee, args, hi, -, rfl⟩ := h.edge
  exact hf.mem_order.mpr (hf.block_lt hi)

theorem dest_mem (h : f.Splits invoke source dest unwind F) (hf : f.Coherent) : dest ∈ f.order := by
  obtain ⟨i, callee, args, hi, hop, -⟩ := h.edge
  exact hf.mem_order.mpr ((hf.inRange invoke i hi).successors dest (by simp [hop, Op.successors]))

theorem mem_order_iff (h : f.Splits invoke source dest unwind F) (hf : f.Coherent)
    {p : BlockId} : p ∈ F.order ↔ p = f.blocks.size ∨ p ∈ f.order := by
  obtain ⟨pre, post, hsplit⟩ := List.append_of_mem (h.dest_mem hf)
  rw [h.order pre post hsplit, hsplit]
  simp only [List.mem_append, List.mem_cons]
  tauto

theorem holds_old (h : f.Splits invoke source dest unwind F) {test : Op → Bool}
    (htest : Op.BlindToBlocks test) {id : InstId} (hid : id < f.insts.size) :
    F.holds test id = f.holds test id := by
  obtain ⟨i, hi⟩ := exists_inst hid
  simp only [holds, h.kept id i hi, hi, Option.any_some, test_detour htest]

theorem instsOf_old (h : f.Splits invoke source dest unwind F) {b : BlockId}
    (hb : b ≠ f.blocks.size) : F.instsOf b = f.instsOf b := by
  rw [h.insts b, if_neg hb]

theorem instsOf_new (h : f.Splits invoke source dest unwind F) :
    F.instsOf f.blocks.size = [f.insts.size] := by
  rw [h.insts, if_pos rfl]

theorem successors_new (h : f.Splits invoke source dest unwind F) :
    F.successors f.blocks.size = [dest] := by
  obtain ⟨i, hi, hop⟩ := h.jump
  have hlast : (F.instsOf f.blocks.size).getLast? = some f.insts.size := by
    rw [h.instsOf_new]
    rfl
  rw [successors_eq hlast hi (by rw [hop]; rfl), hop]
  rfl

/-- The invoke is the last instruction of its block. -/
theorem successors_source (h : f.Splits invoke source dest unwind F) (hf : f.Coherent)
    (hshaped : ∀ b ∈ f.order, f.ShapedAt b) :
    f.successors source = [dest, unwind] ∧ F.successors source = [f.blocks.size, unwind] := by
  obtain ⟨i, callee, args, hi, hop, rfl⟩ := h.edge
  have hterm : i.op.isTerminator := by
    rw [hop]
    rfl
  have hblock := hf.block_lt hi
  have hlast := (hshaped i.block (hf.mem_order.mpr hblock)).getLast?_eq (hf.mem_instsOf_block hi)
    (holds_iff.mpr ⟨i, hi, hterm⟩)
  constructor
  · rw [successors_eq hlast hi hterm, hop]
    rfl
  · rw [← h.instsOf_old (Nat.ne_of_lt hblock)] at hlast
    rw [successors_eq hlast (h.kept invoke i hi) ((test_detour Op.blindToBlocks_isTerminator ..).trans hterm)]
    simp only [detour, if_true, hop, Op.withNormal, Op.successors]

theorem successors_other (h : f.Splits invoke source dest unwind F) (hf : f.Coherent)
    (hshaped : ∀ b ∈ f.order, f.ShapedAt b) {b : BlockId} (hb : b ∈ f.order) (hne : b ≠ source) :
    F.successors b = f.successors b := by
  obtain ⟨i, callee, args, hi, -, rfl⟩ := h.edge
  obtain ⟨last, hlast⟩ : ∃ last, (f.instsOf b).getLast? = some last :=
    ⟨_, List.getLast?_eq_some_getLast (hshaped b hb).nonempty⟩
  obtain ⟨j, hj, hterm⟩ := holds_iff.mp ((hshaped b hb).terminated last hlast)
  -- The last instruction is not the invoke, which stands in another block.
  have hother : last ≠ invoke := by
    intro he
    rw [he] at hlast
    exact hne (hf.block_eq hi (List.mem_of_getLast? hlast)).symm
  have hlast' : (F.instsOf b).getLast? = some last := by
    rw [h.instsOf_old (Nat.ne_of_lt (hf.mem_order.mp hb))]
    exact hlast
  rw [successors_eq hlast' (h.kept last j hj) ((test_detour Op.blindToBlocks_isTerminator ..).trans hterm),
    successors_eq hlast hj hterm]
  exact successors_detour hother j.op

/-- The edges to a block that was there. The edge from the source to the destination is gone, unless
the invoke also unwinds there, and one from the new block has come. -/
theorem edge_iff (h : f.Splits invoke source dest unwind F) (hf : f.Coherent)
    (hshaped : ∀ b ∈ f.order, f.ShapedAt b) {p b : BlockId} (hb : b ∈ f.order) :
    p ∈ F.order ∧ b ∈ F.successors p ↔
      (p = f.blocks.size ∧ b = dest) ∨
        ((p ∈ f.order ∧ b ∈ f.successors p) ∧ ¬ (p = source ∧ b = dest ∧ dest ≠ unwind)) := by
  have hbnew : b ≠ f.blocks.size := Nat.ne_of_lt (hf.mem_order.mp hb)
  rw [h.mem_order_iff hf]
  by_cases hp : p = f.blocks.size
  · have hnew : p ∉ f.order := fun hm => Nat.ne_of_lt (hf.mem_order.mp hm) hp
    subst hp
    simp [h.successors_new, hnew]
  · by_cases hsource : p = source
    · subst hsource
      obtain ⟨hold, hnow⟩ := h.successors_source hf hshaped
      rw [hold, hnow]
      simp only [List.mem_cons, List.not_mem_nil, or_false, hp, hbnew, false_or, false_and, true_and]
      by_cases hd : b = dest
      · subst hd
        simp
      · simp [hd]
    · by_cases hm : p ∈ f.order
      · simp [hp, hm, hsource, h.successors_other hf hshaped hm hsource]
      · simp [hp, hm]

/-! ## Well-formedness after a split -/

theorem ne_of_isPhi (h : f.Splits invoke source dest unwind F) {id : InstId} {i : Inst}
    (hi : f.insts[id]? = some i) (hphi : i.op.isPhi) : id ≠ invoke := by
  rintro rfl
  obtain ⟨j, callee, args, hj, hop, -⟩ := h.edge
  obtain rfl : i = j := Option.some.inj (hi.symm.trans hj)
  rw [hop] at hphi
  exact Bool.noConfusion hphi

/-- A phi of the destination names the new block where it named the source, and the source no more. -/
theorem mem_incoming_dest (h : f.Splits invoke source dest unwind F) (hf : f.Coherent)
    (hshaped : ∀ b ∈ f.order, f.ShapedAt b) {phi : InstId} {i : Inst} (hm : phi ∈ f.instsOf dest)
    (hi : f.insts[phi]? = some i) (hphi : i.op.isPhi) (p : BlockId) :
    p ∈ (f.detour invoke source dest phi i.op).incomingBlocks ↔
      p = f.blocks.size ∨ ((p ∈ f.order ∧ dest ∈ f.successors p) ∧ p ≠ source) := by
  have hshape := hshaped dest (h.dest_mem hf)
  have hold := hshape.phiEdges phi hm i hi hphi
  have hsource : source ∈ i.op.incomingBlocks := by
    refine (hold source).mpr ⟨h.source_mem hf, ?_⟩
    rw [(h.successors_source hf hshaped).1]
    exact List.mem_cons_self
  have hhead : phi ∈ (f.instsOf dest).takeWhile (f.holds Op.isPhi) := by
    rw [takeWhile_eq_filter hshape.phisFirst, List.mem_filter]
    exact ⟨hm, holds_iff.mpr ⟨i, hi, hphi⟩⟩
  unfold detour
  rw [if_neg (h.ne_of_isPhi hi hphi), if_pos hhead, Op.incomingBlocks_rekey, List.mem_map]
  constructor
  · rintro ⟨q, hq, rfl⟩
    by_cases hqs : q = source
    · exact .inl (if_pos hqs)
    · rw [if_neg hqs]
      exact .inr ⟨(hold q).mp hq, hqs⟩
  · rintro (rfl | ⟨hedge, hne⟩)
    · exact ⟨source, hsource, if_pos rfl⟩
    · exact ⟨p, (hold p).mpr hedge, if_neg hne⟩

/-- Elsewhere phis are as before. -/
theorem detour_phi (h : f.Splits invoke source dest unwind F) {phi : InstId} {i : Inst}
    (hi : f.insts[phi]? = some i) (hphi : i.op.isPhi) (hm : phi ∉ f.instsOf dest) :
    f.detour invoke source dest phi i.op = i.op := by
  unfold detour
  rw [if_neg (h.ne_of_isPhi hi hphi), if_neg fun hin => hm ((List.takeWhile_sublist _).subset hin)]

theorem shapedAt_new (h : f.Splits invoke source dest unwind F) : F.ShapedAt f.blocks.size := by
  obtain ⟨i, hi, hop⟩ := h.jump
  have hterm : F.holds Op.isTerminator f.insts.size := holds_iff.mpr ⟨i, hi, by rw [hop]; rfl⟩
  have hnew := h.instsOf_new
  refine ⟨?_, ?_, ?_, ?_, ?_⟩
  · rw [hnew]
    exact List.cons_ne_nil _ _
  · intro last hlast
    rw [hnew] at hlast
    obtain rfl : f.insts.size = last := Option.some.inj hlast
    exact hterm
  · rw [hnew]
    simp
  · rw [hnew]
    exact List.pairwise_singleton _ _
  · intro phi hm j hj hphi
    rw [hnew, List.mem_singleton] at hm
    subst hm
    obtain rfl : i = j := Option.some.inj (hi.symm.trans hj)
    rw [hop] at hphi
    exact Bool.noConfusion hphi

/-- A block that was there keeps its shape, if its phis still name its predecessors. -/
theorem shapedAt_old (h : f.Splits invoke source dest unwind F) (hf : f.Coherent) {b : BlockId}
    (hshape : f.ShapedAt b) (hb : b ≠ f.blocks.size)
    (hphis : ∀ phi ∈ f.instsOf b, ∀ i : Inst, f.insts[phi]? = some i → i.op.isPhi →
      ∀ p, p ∈ (f.detour invoke source dest phi i.op).incomingBlocks ↔ p ∈ F.order ∧ b ∈ F.successors p) :
    F.ShapedAt b where
  nonempty := by
    rw [h.instsOf_old hb]
    exact hshape.nonempty
  terminated := by
    intro last hlast
    rw [h.instsOf_old hb] at hlast
    rw [h.holds_old Op.blindToBlocks_isTerminator (hf.lt_of_mem (List.mem_of_getLast? hlast))]
    exact hshape.terminated last hlast
  onlyTerminator := by
    intro id hid
    rw [h.instsOf_old hb] at hid
    rw [h.holds_old Op.blindToBlocks_isTerminator (hf.lt_of_mem (List.dropLast_subset _ hid))]
    exact hshape.onlyTerminator id hid
  phisFirst := by
    rw [h.instsOf_old hb]
    refine hshape.phisFirst.imp_of_mem fun hx hy hxy => ?_
    rw [h.holds_old Op.blindToBlocks_isPhi (hf.lt_of_mem hx),
      h.holds_old Op.blindToBlocks_isPhi (hf.lt_of_mem hy)]
    exact hxy
  phiEdges := by
    intro phi hm i' hi' hphi
    rw [h.instsOf_old hb] at hm
    obtain ⟨i, hi⟩ := exists_inst (hf.lt_of_mem hm)
    obtain rfl : _ = i' := Option.some.inj ((h.kept phi i hi).symm.trans hi')
    exact hphis phi hm i hi ((test_detour Op.blindToBlocks_isPhi ..).symm.trans hphi)

/-- The phis of the destination are right afterwards, unless the invoke goes there on both edges. -/
theorem verify_iff (h : f.Splits invoke source dest unwind F) (hf : f.Coherent)
    (hshaped : ∀ b ∈ f.order, f.ShapedAt b) :
    F.verify = .ok () ↔ dest ≠ unwind ∨ ∀ id ∈ f.instsOf dest, ¬ f.holds Op.isPhi id := by
  have hdest := h.dest_mem hf
  rw [h.coherent.verify_eq_ok_iff]
  constructor
  · intro hall
    by_cases hne : dest = unwind
    · -- The source is still a predecessor, and the phi does not name it.
      refine .inr fun phi hm hphi => ?_
      obtain ⟨i, hi, hphi⟩ := holds_iff.mp hphi
      have hbefore := hf.mem_order.mp hdest
      have hshape := hall dest ((h.mem_order_iff hf).mpr (.inr hdest))
      have hedges := hshape.phiEdges phi (by rw [h.instsOf_old (Nat.ne_of_lt hbefore)]; exact hm) _
        (h.kept phi i hi) ((test_detour Op.blindToBlocks_isPhi ..).trans hphi) source
      have hedge : dest ∈ f.successors source := by
        rw [(h.successors_source hf hshaped).1]
        exact List.mem_cons_self
      rw [h.mem_incoming_dest hf hshaped hm hi hphi, h.edge_iff hf hshaped hdest] at hedges
      have hnamed := hedges.mpr (.inr ⟨⟨h.source_mem hf, hedge⟩, fun hno => hno.2.2 hne⟩)
      rcases hnamed with hnew | ⟨-, hself⟩
      · exact Nat.ne_of_lt (hf.mem_order.mp (h.source_mem hf)) hnew
      · exact hself rfl
    · exact .inl hne
  · intro hcase b hb
    rcases (h.mem_order_iff hf).mp hb with rfl | hb
    · exact h.shapedAt_new
    · refine h.shapedAt_old hf (hshaped b hb) (Nat.ne_of_lt (hf.mem_order.mp hb)) ?_
      intro phi hm i hi hphi p
      rw [h.edge_iff hf hshaped hb]
      by_cases hbd : b = dest
      · subst hbd
        rw [h.mem_incoming_dest hf hshaped hm hi hphi]
        rcases hcase with hne | hnone
        · simp [hne]
        · exact absurd (holds_iff.mpr ⟨i, hi, hphi⟩) (hnone phi hm)
      · have hnot : phi ∉ f.instsOf dest := by
          intro hm'
          exact hbd ((hf.block_eq hi hm).symm.trans (hf.block_eq hi hm'))
        rw [h.detour_phi hi hphi hnot, (hshaped b hb).phiEdges phi hm i hi hphi p]
        simp [hbd]

theorem entry?_eq_iff (h : f.Splits invoke source dest unwind F) (hf : f.Coherent) :
    F.entry? = f.entry? ↔ f.entry? ≠ some dest := by
  have hdest := h.dest_mem hf
  obtain ⟨pre, post, hsplit⟩ := List.append_of_mem hdest
  unfold entry?
  rw [h.order pre post hsplit, hsplit]
  cases pre with
  | nil =>
    have hne : f.blocks.size ≠ dest := Ne.symm (Nat.ne_of_lt (hf.mem_order.mp hdest))
    simp [hne]
  | cons first pre =>
    have hnodup := hf.nodup_order
    rw [hsplit, List.cons_append, List.nodup_cons] at hnodup
    have hne : first ≠ dest := by
      rintro rfl
      exact hnodup.1 (by simp)
    simp [hne]

end Splits

theorem phis_eq_nil_iff {b : BlockId} (hb : b < f.blocks.size) (hshape : f.ShapedAt b) :
    f.phis b = .ok [] ↔ ∀ id ∈ f.instsOf b, ¬ f.holds Op.isPhi id := by
  rw [phis_eq hb, takeWhile_eq_filter hshape.phisFirst, Except.ok.injEq, List.filter_eq_nil_iff]

/-- Splitting the normal edge of an invoke of a well-formed function succeeds. The result is well formed
if and only if the invoke unwinds to another block or its normal destination has no phi, and its entry
block is the old one if and only if that is not the normal destination. -/
theorem Reachable.splitNormalEdge_wellFormed_iff (h : f.Reachable) (hverify : f.verify = .ok ())
    {i : Inst} {callee : Value} {args : List Value} {normal unwind : BlockId}
    (hi : f.insts[invoke]? = some i) (hop : i.op = .invoke callee args normal unwind) :
    ∃ split F, Edit.splitNormalEdge invoke f = .ok split F ∧
      (F.verify = .ok () ↔ normal ≠ unwind ∨ f.phis normal = .ok []) ∧
        (F.entry? = f.entry? ↔ f.entry? ≠ some normal) := by
  have hf := h.coherent
  have hshaped := hf.verify_eq_ok_iff.mp hverify
  obtain ⟨split, F, hrun, -, hsplits⟩ := Edit.yields_splitNormalEdge hf hi hop
  have hsplits := hsplits ((Edit.keeps_splitNormalEdge invoke).of_ok hf hrun)
  have hdest := hsplits.dest_mem hf
  refine ⟨split, F, hrun, ?_, hsplits.entry?_eq_iff hf⟩
  rw [hsplits.verify_iff hf hshaped, phis_eq_nil_iff (hf.mem_order.mp hdest) (hshaped normal hdest)]

/-- A call that is made again and again: its block is its own normal destination, and has a phi. -/
def retry : Func :=
  (fresh "f" .void [⟨"callee", .ptr⟩]).mutate
    [.addBlock "entry", .addBlock "again", .addBlock "out",
      .append 0 { op := .br 1, ty := .void },
      .append 1 { op := .phi [(.ofWord 0 32, 0)], ty := .int 32, name := some "last" },
      .append 1 { op := .invoke (.arg 0) [.inst 1] 1 2, ty := .int 32, name := some "r" },
      .addIncoming 1 (.inst 2) 1,
      .append 2 { op := .ret none, ty := .void }]

theorem retry_reachable : retry.Reachable := (Reachable.fresh _ _ _).mutate _

theorem retry_split_wellFormed :
    retry.Reachable ∧ retry.verify = .ok () ∧ retry.phis 1 = .ok [1] ∧
      ∃ split F, Edit.splitNormalEdge 2 retry = .ok split F ∧ F.verify = .ok () ∧
        F.entry? = retry.entry? := by
  have hverify : retry.verify = .ok () := by decide +kernel
  have hinst : retry.insts[2]?.map Inst.op = some (.invoke (.arg 0) [.inst 1] 1 2) := by decide +kernel
  obtain ⟨i, hi, hop⟩ := Option.map_eq_some_iff.mp hinst
  obtain ⟨split, F, hrun, hwell, hentry⟩ :=
    retry_reachable.splitNormalEdge_wellFormed_iff hverify hi hop
  refine ⟨retry_reachable, hverify, by decide +kernel, split, F, hrun, ?_, ?_⟩
  · exact hwell.mpr (.inl (by decide))
  · exact hentry.mpr (by decide +kernel)

/-- An invoke with both edges to one block, which has a phi. -/
def bothWays : Func :=
  (fresh "f" .void [⟨"callee", .ptr⟩]).mutate
    [.addBlock "entry", .addBlock "join",
      .append 0 { op := .invoke (.arg 0) [] 1 1, ty := .int 32, name := some "r" },
      .append 1 { op := .phi [(.ofWord 1 32, 0)], ty := .int 32, name := some "m" },
      .append 1 { op := .ret none, ty := .void }]

/-- An invoke that goes back to the entry block. -/
def startOver : Func :=
  (fresh "f" .void [⟨"callee", .ptr⟩]).mutate
    [.addBlock "entry", .addBlock "out",
      .append 0 { op := .invoke (.arg 0) [] 0 1, ty := .int 32, name := some "r" },
      .append 1 { op := .ret none, ty := .void }]

/-- The two ways in which a split does damage. -/
theorem bothWays_and_startOver_damaged :
    (bothWays.Reachable ∧ bothWays.verify = .ok () ∧
      ∃ split F, Edit.splitNormalEdge 0 bothWays = .ok split F ∧
        F.verify = .error (.malformed "f" (.phiEdges "%m" "join"))) ∧
    (startOver.Reachable ∧ startOver.verify = .ok () ∧ startOver.entry? = some 0 ∧
      ∃ split F, Edit.splitNormalEdge 0 startOver = .ok split F ∧ F.verify = .ok () ∧
        F.entry? = some 2) := by
  refine ⟨⟨(Reachable.fresh _ _ _).mutate _, by decide +kernel, ?_⟩,
    (Reachable.fresh _ _ _).mutate _, by decide +kernel, by decide +kernel, ?_⟩
  · exact ⟨_, _, rfl, by decide +kernel⟩
  · exact ⟨_, _, rfl, by decide +kernel, by decide +kernel⟩

end Func

end PtrTag
