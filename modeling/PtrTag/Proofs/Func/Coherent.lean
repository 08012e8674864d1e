import PtrTag.Proofs.Edit
import PtrTag.Proofs.Operands
import PtrTag.Proofs.Func.Lookup
import Mathlib.Data.List.Nodup

/-!
# `PtrTag/Proofs/Func/Coherent.lean` — the representation invariant

A function says the same thing three times: the arena records for each instruction its block and its
users, the blocks list their instructions, and the operands name what they use. `Func.Coherent` says
that the three agree. Use lists are compared **as multisets**: an instruction that uses a result in
two operands has two entries in its use list.

Every change of a function is one of three kinds, and each kind keeps coherence by one lemma:

* a new block (`Coherent.insertBlock`);
* a new instruction (`Coherent.place`);
* a new operation for an instruction that is there, with the use lists brought in step
  (`Coherent.rewire`). Marking, extending or rekeying a phi, moving an edge and replacing uses are
  all of this kind.
-/

set_option autoImplicit false

namespace PtrTag

namespace Func

/-- How many operands of `user` are the result of `id`. -/
def useCount (f : Func) (user id : InstId) : Nat := f.insts[user]?.elim 0 (·.op.uses.count id)

/-- Arena, blocks and use lists agree. -/
structure Coherent (f : Func) : Prop where
  /-- The block order lists every block of the arena once. -/
  order : f.order.Perm (List.range f.blocks.size)
  /-- An instruction stands in the block that it records, at one position, … -/
  recorded : ∀ (id : InstId) (i : Inst), f.insts[id]? = some i → (f.instsOf i.block).count id = 1
  /-- … and in no other block: what a block lists is an instruction that records this block. -/
  located : ∀ b, ∀ id ∈ f.instsOf b, ∃ i, f.insts[id]? = some i ∧ i.block = b
  /-- Operands, successors and the blocks of phis exist. -/
  inRange : ∀ (id : InstId) (i : Inst), f.insts[id]? = some i → f.InRange i.op
  /-- A use list has one entry for each operand that it accounts for. -/
  users : ∀ (id : InstId) (i : Inst), f.insts[id]? = some i →
    ∀ user, i.users.count user = f.useCount user id

variable {f f' : Func}

theorem useCount_of_inst {user : InstId} {i : Inst} (h : f.insts[user]? = some i) (id : InstId) :
    f.useCount user id = i.op.uses.count id := by
  simp [useCount, h]

theorem useCount_of_none {user : InstId} (h : f.insts[user]? = none) (id : InstId) :
    f.useCount user id = 0 := by
  simp [useCount, h]

theorem lt_of_inst {id : InstId} {i : Inst} (h : f.insts[id]? = some i) : id < f.insts.size :=
  (Array.getElem?_eq_some_iff.mp h).1

theorem exists_inst {id : InstId} (h : id < f.insts.size) : ∃ i, f.insts[id]? = some i :=
  ⟨f.insts[id], Array.getElem?_eq_getElem h⟩

/-! ## What coherence gives -/

namespace Coherent

theorem mem_order (hf : f.Coherent) {b : BlockId} : b ∈ f.order ↔ b < f.blocks.size := by
  rw [hf.order.mem_iff, List.mem_range]

theorem nodup_order (hf : f.Coherent) : f.order.Nodup :=
  hf.order.nodup_iff.mpr List.nodup_range

theorem mem_instsOf_block (hf : f.Coherent) {id : InstId} {i : Inst} (h : f.insts[id]? = some i) :
    id ∈ f.instsOf i.block := by
  rw [← List.count_pos_iff, hf.recorded id i h]
  exact Nat.one_pos

theorem block_lt (hf : f.Coherent) {id : InstId} {i : Inst} (h : f.insts[id]? = some i) :
    i.block < f.blocks.size :=
  lt_of_mem_instsOf (hf.mem_instsOf_block h)

theorem block_eq (hf : f.Coherent) {id : InstId} {i : Inst} {b : BlockId}
    (h : f.insts[id]? = some i) (hm : id ∈ f.instsOf b) : i.block = b := by
  obtain ⟨i', h', hb⟩ := hf.located b id hm
  obtain rfl : i = i' := Option.some.inj (h.symm.trans h')
  exact hb

theorem lt_of_mem (hf : f.Coherent) {b : BlockId} {id : InstId} (hm : id ∈ f.instsOf b) :
    id < f.insts.size := by
  obtain ⟨i, h, -⟩ := hf.located b id hm
  exact lt_of_inst h

theorem count_instsOf_le (hf : f.Coherent) (b : BlockId) (id : InstId) :
    (f.instsOf b).count id ≤ 1 := by
  by_cases hm : id ∈ f.instsOf b
  · obtain ⟨i, h, rfl⟩ := hf.located b id hm
    exact Nat.le_of_eq (hf.recorded id i h)
  · rw [List.count_eq_zero.mpr hm]
    exact Nat.zero_le 1

theorem nodup_instsOf (hf : f.Coherent) (b : BlockId) : (f.instsOf b).Nodup :=
  List.nodup_iff_count_le_one.mpr (hf.count_instsOf_le b)

/-- Every instruction is met on a walk over the blocks. -/
theorem mem_instructions (hf : f.Coherent) {id : InstId} :
    id ∈ f.instructions ↔ id < f.insts.size := by
  unfold instructions
  rw [List.mem_flatMap]
  constructor
  · rintro ⟨b, -, hm⟩
    exact hf.lt_of_mem hm
  · intro h
    obtain ⟨i, hi⟩ := exists_inst h
    exact ⟨i.block, hf.mem_order.mpr (hf.block_lt hi), hf.mem_instsOf_block hi⟩

/-- … and met once. -/
theorem nodup_instructions (hf : f.Coherent) : f.instructions.Nodup := by
  unfold instructions
  rw [List.nodup_flatMap]
  refine ⟨fun b _ => hf.nodup_instsOf b, hf.nodup_order.imp ?_⟩
  intro b c hbc id hb hc
  obtain ⟨i, h, rfl⟩ := hf.located b id hb
  exact hbc (hf.block_eq h hc)

theorem mem_users (hf : f.Coherent) {id user : InstId} {i u : Inst} (hi : f.insts[id]? = some i)
    (hu : f.insts[user]? = some u) : user ∈ i.users ↔ id ∈ u.op.uses := by
  rw [← List.count_pos_iff, hf.users id i hi, useCount_of_inst hu, List.count_pos_iff]

theorem lt_of_mem_users (hf : f.Coherent) {id user : InstId} {i : Inst} (hi : f.insts[id]? = some i)
    (hm : user ∈ i.users) : user < f.insts.size := by
  cases hu : f.insts[user]? with
  | some u => exact lt_of_inst hu
  | none =>
    rw [← List.count_pos_iff, hf.users id i hi, useCount_of_none hu] at hm
    exact absurd hm (Nat.lt_irrefl 0)

end Coherent

/-! ## A function without a body -/

/-- A function as it is first made: no block, no instruction. -/
def fresh (name : String) (ret : Ty) (params : List Param) : Func :=
  { name := name, ret := ret, params := params }

theorem coherent_fresh (name : String) (ret : Ty) (params : List Param) :
    (fresh name ret params).Coherent where
  order := .refl _
  recorded := fun id i h => by simp [fresh] at h
  located := fun b id hm => by simp [fresh, instsOf] at hm
  inRange := fun id i h => by simp [fresh] at h
  users := fun id i h => by simp [fresh] at h

/-- Coherence is about the body alone. -/
theorem Coherent.of_same_body (hf : f.Coherent) (hi : f'.insts = f.insts)
    (hb : f'.blocks = f.blocks) (ho : f'.order = f.order) (hp : f'.params = f.params) :
    f'.Coherent := by
  have hinsts : f'.instsOf = f.instsOf := by
    funext b
    simp only [instsOf, hb]
  have huses : f'.useCount = f.useCount := by
    funext user id
    simp only [useCount, hi]
  refine ⟨by rw [ho, hb]; exact hf.order, ?_, ?_, fun id i h => ?_, ?_⟩
  · rw [hi, hinsts]
    exact hf.recorded
  · rw [hi, hinsts]
    exact hf.located
  · rw [hi] at h
    exact (hf.inRange id i h).mono (Nat.le_of_eq (by rw [hi])) (Nat.le_of_eq (by rw [hb])) hp
  · rw [hi, huses]
    exact hf.users

/-! ## A new block -/

theorem Coherent.insertBlock (hf : f.Coherent) (base : String) {pos : Nat}
    (hpos : pos ≤ f.order.length) : (f.insertBlock base pos).Coherent where
  order := by
    rw [size_insertBlock, List.range_succ]
    calc f.order.insertIdx pos f.blocks.size
        |>.Perm (f.blocks.size :: f.order) := List.perm_insertIdx _ _ hpos
      _ |>.Perm (f.blocks.size :: List.range f.blocks.size) := hf.order.cons _
      _ |>.Perm (List.range f.blocks.size ++ [f.blocks.size]) := (List.perm_append_singleton _ _).symm
  recorded := fun id i h => by
    rw [instsOf_insertBlock]
    exact hf.recorded id i h
  located := fun b id hm => by
    rw [instsOf_insertBlock] at hm
    exact hf.located b id hm
  inRange := fun id i h => by
    refine (hf.inRange id i h).mono (Nat.le_refl _) ?_ rfl
    simp [Func.insertBlock]
  users := fun id i h => hf.users id i h

/-! ## A new instruction -/

section Place

variable {d : Draft} {b : BlockId} {pos : Nat}

theorem useCount_place (hop : f.InRange d.op) (user id : InstId) :
    (f.place d b pos).useCount user id =
      if user = f.insts.size then d.op.uses.count id else f.useCount user id := by
  unfold useCount
  rw [getElem?_place hop]
  by_cases hu : user = f.insts.size
  · simp [hu, Draft.settle]
  · simp only [hu, if_false]
    cases f.insts[user]? <;> rfl

theorem count_instsOf_place (hb : b < f.blocks.size) (hpos : pos ≤ (f.instsOf b).length)
    (c : BlockId) (id : InstId) :
    ((f.place d b pos).instsOf c).count id =
      (f.instsOf c).count id + if c = b ∧ id = f.insts.size then 1 else 0 := by
  rw [instsOf_place hb]
  by_cases hc : c = b
  · subst hc
    rw [if_pos rfl, (List.perm_insertIdx f.insts.size (f.instsOf c) hpos).count_eq,
      List.count_cons]
    by_cases hid : id = f.insts.size
    · simp [hid]
    · simp [hid, Ne.symm hid]
  · simp [hc]

/-- Nothing refers to a place that is not taken yet. -/
theorem Coherent.useCount_size (hf : f.Coherent) (user : InstId) :
    f.useCount user f.insts.size = 0 := by
  cases hu : f.insts[user]? with
  | none => exact useCount_of_none hu _
  | some u =>
    rw [useCount_of_inst hu, List.count_eq_zero]
    intro hm
    exact Nat.lt_irrefl _ ((hf.inRange user u hu).lt_of_mem_uses hm)

theorem Coherent.place (hf : f.Coherent) (hb : b < f.blocks.size)
    (hpos : pos ≤ (f.instsOf b).length) (hop : f.InRange d.op) : (f.place d b pos).Coherent where
  order := by
    rw [order_place, size_blocks_place]
    exact hf.order
  recorded := fun id i h => by
    rw [count_instsOf_place hb hpos]
    rcases place_cases hop h with ⟨rfl, rfl⟩ | ⟨hid, i₀, h₀, rfl⟩
    · have hnew : (f.instsOf b).count f.insts.size = 0 := by
        rw [List.count_eq_zero]
        intro hm
        exact Nat.lt_irrefl _ (hf.lt_of_mem hm)
      simp [Draft.settle, hnew]
    · simpa [hid, Inst.withUsers] using hf.recorded id i₀ h₀
  located := fun c id hm => by
    rw [← List.count_pos_iff, count_instsOf_place hb hpos] at hm
    rw [getElem?_place hop]
    by_cases hid : id = f.insts.size
    · by_cases hc : c = b
      · exact ⟨d.settle b, by simp [hid], by simp [Draft.settle, hc]⟩
      · simp only [hc, false_and, if_false, Nat.add_zero, List.count_pos_iff] at hm
        exact absurd (hf.lt_of_mem hm) (by simp [hid])
    · simp only [hid, and_false, if_false, Nat.add_zero, List.count_pos_iff] at hm
      obtain ⟨i, h, hic⟩ := hf.located c id hm
      rw [if_neg hid, h]
      exact ⟨_, rfl, hic⟩
  inRange := fun id i h => by
    have hmono : ∀ {op : Op}, f.InRange op → (f.place d b pos).InRange op := fun hr =>
      hr.mono (by simp) (by simp) (by simp)
    rcases place_cases hop h with ⟨-, rfl⟩ | ⟨-, i₀, h₀, rfl⟩
    · exact hmono hop
    · exact hmono (hf.inRange id i₀ h₀)
  users := fun id i h user => by
    rw [useCount_place hop]
    rcases place_cases hop h with ⟨rfl, rfl⟩ | ⟨hid, i₀, h₀, rfl⟩
    · have hself : d.op.uses.count f.insts.size = 0 := by
        rw [List.count_eq_zero]
        intro hm
        exact Nat.lt_irrefl _ (hop.lt_of_mem_uses hm)
      simp [Draft.settle, hself, hf.useCount_size]
    · have hold := hf.users id i₀ h₀ user
      by_cases hu : user = f.insts.size
      · -- The new instruction was no user before.
        have hnone : f.insts[user]? = none := Array.getElem?_eq_none (Nat.le_of_eq hu.symm)
        rw [useCount_of_none hnone] at hold
        subst hu
        simp [Inst.withUsers, List.count_append, hold]
      · simp [Inst.withUsers, List.count_append, hu, Ne.symm hu, hold, List.count_replicate]

end Place

/-! ## A new operation -/

/-- `f'` is `f` with operation `op` at `u`, and with the entries of `u` in the use lists brought in
step with it. -/
structure Rewires (f : Func) (u : InstId) (op : Op) (f' : Func) : Prop where
  order : f'.order = f.order
  blocks : f'.blocks = f.blocks
  params : f'.params = f.params
  size : f'.insts.size = f.insts.size
  inst : ∀ (id : InstId) (i : Inst), f.insts[id]? = some i → ∃ i', f'.insts[id]? = some i' ∧
    i'.block = i.block ∧ i'.op = (if id = u then op else i.op) ∧
      ∀ user, i'.users.count user = if user = u then op.uses.count id else i.users.count user

namespace Rewires

variable {u : InstId} {op : Op}

/-- Every instruction of `f'` comes from one of `f`. -/
theorem inst_back (h : f.Rewires u op f') {id : InstId} {i' : Inst} (hi' : f'.insts[id]? = some i') :
    ∃ i, f.insts[id]? = some i ∧ i'.block = i.block ∧ i'.op = (if id = u then op else i.op) ∧
      ∀ user, i'.users.count user = if user = u then op.uses.count id else i.users.count user := by
  have hlt := lt_of_inst hi'
  rw [h.size] at hlt
  obtain ⟨i, hi⟩ := exists_inst hlt
  obtain ⟨i'', hi'', hrest⟩ := h.inst id i hi
  obtain rfl : i' = i'' := Option.some.inj (hi'.symm.trans hi'')
  exact ⟨i, hi, hrest⟩

theorem useCount (h : f.Rewires u op f') (hu : u < f.insts.size) (user id : InstId) :
    f'.useCount user id = if user = u then op.uses.count id else f.useCount user id := by
  cases hi : f.insts[user]? with
  | none =>
    have hge : f.insts.size ≤ user := Array.getElem?_eq_none_iff.mp hi
    have hi' : f'.insts[user]? = none := Array.getElem?_eq_none (by rw [h.size]; exact hge)
    have hne : user ≠ u := fun he => Nat.lt_irrefl _ (Nat.lt_of_lt_of_le hu (he ▸ hge))
    rw [useCount_of_none hi', if_neg hne, useCount_of_none hi]
  | some i =>
    obtain ⟨i', hi', -, hop, -⟩ := h.inst user i hi
    rw [useCount_of_inst hi', hop]
    by_cases hu : user = u
    · simp [hu]
    · simp [hu, useCount_of_inst hi]

end Rewires

theorem Coherent.rewire (hf : f.Coherent) {u : InstId} {op : Op} (h : f.Rewires u op f')
    (hu : u < f.insts.size) (hop : f.InRange op) : f'.Coherent where
  order := by
    rw [h.order, h.blocks]
    exact hf.order
  recorded := fun id i' hi' => by
    obtain ⟨i, hi, hblock, -, -⟩ := h.inst_back hi'
    have hsame : f'.instsOf i'.block = f.instsOf i.block := by
      simp only [instsOf, h.blocks, hblock]
    rw [hsame]
    exact hf.recorded id i hi
  located := fun b id hm => by
    have hsame : f'.instsOf b = f.instsOf b := by simp only [instsOf, h.blocks]
    rw [hsame] at hm
    obtain ⟨i, hi, hb⟩ := hf.located b id hm
    obtain ⟨i', hi', hblock, -, -⟩ := h.inst id i hi
    exact ⟨i', hi', hblock.trans hb⟩
  inRange := fun id i' hi' => by
    have hmono : ∀ {o : Op}, f.InRange o → f'.InRange o := fun hr =>
      hr.mono (Nat.le_of_eq h.size.symm) (Nat.le_of_eq (by rw [h.blocks])) h.params
    obtain ⟨i, hi, -, ho, -⟩ := h.inst_back hi'
    rw [ho]
    by_cases hid : id = u
    · rw [if_pos hid]
      exact hmono hop
    · rw [if_neg hid]
      exact hmono (hf.inRange id i hi)
  users := fun id i' hi' user => by
    obtain ⟨i, hi, -, -, hcount⟩ := h.inst_back hi'
    rw [hcount, h.useCount hu, hf.users id i hi]

/-- A change of one instruction that keeps its block, its use list and what it uses. -/
theorem Coherent.modifyInst (hf : f.Coherent) {u : InstId} {i : Inst} {change : Inst → Inst}
    (hi : f.insts[u]? = some i) (hblock : (change i).block = i.block)
    (husers : (change i).users = i.users) (huses : (change i).op.uses = i.op.uses)
    (hop : f.InRange (change i).op) : (f.modifyInst u change).Coherent := by
  have hrewires : f.Rewires u (change i).op (f.modifyInst u change) := by
    refine ⟨rfl, rfl, rfl, by simp, fun id j hj => ?_⟩
    rw [getElem?_modifyInst]
    by_cases hid : u = id
    · subst hid
      obtain rfl : i = j := Option.some.inj (hi.symm.trans hj)
      refine ⟨change i, by simp [hj], hblock, by simp, fun user => ?_⟩
      rw [husers, huses, hf.users u i hi]
      by_cases hu : user = u
      · simp [hu, useCount_of_inst hi]
      · simp [hu]
    · refine ⟨j, by simp [hid, hj], rfl, by simp [Ne.symm hid], fun user => ?_⟩
      rw [huses, hf.users id j hj]
      by_cases hu : user = u
      · simp [hu, useCount_of_inst hi]
      · simp [hu]
  exact hf.rewire hrewires (lt_of_inst hi) hop

end Func

end PtrTag
