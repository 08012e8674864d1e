import PtrTag.Proofs.Func.Reachable

/-!
# `PtrTag/Proofs/Func/Verify.lean` — what verification decides

`Func.verify` looks for two kinds of defects. Those of the bookkeeping (an instruction in two places
or with the wrong block, a use list out of step) cannot be found in a function that was built by
mutations, because it is coherent. What is left is the **shape** of the blocks (`Func.ShapedAt`):
verification of a coherent function succeeds if and only if each of its blocks is in shape.
-/

set_option autoImplicit false

namespace PtrTag

namespace Func

variable {f : Func}

/-- Block `b` can be executed: it ends in its only terminator, its phis stand at its head, and each
of them has an edge for each predecessor and for nothing else. -/
structure ShapedAt (f : Func) (b : BlockId) : Prop where
  nonempty : f.instsOf b ≠ []
  terminated : ∀ last, (f.instsOf b).getLast? = some last → f.holds Op.isTerminator last
  onlyTerminator : ∀ id ∈ (f.instsOf b).dropLast, ¬ f.holds Op.isTerminator id
  phisFirst : (f.instsOf b).Pairwise fun x y => f.holds Op.isPhi y → f.holds Op.isPhi x
  phiEdges : ∀ phi ∈ f.instsOf b, ∀ i : Inst, f.insts[phi]? = some i → i.op.isPhi →
    ∀ p, p ∈ i.op.incomingBlocks ↔ p ∈ f.order ∧ b ∈ f.successors p

/-! ## Terminators -/

/-- A terminator of a block in shape is its last instruction. -/
theorem ShapedAt.getLast?_eq {b : BlockId} {id : InstId} (h : f.ShapedAt b) (hid : id ∈ f.instsOf b)
    (hterm : f.holds Op.isTerminator id) : (f.instsOf b).getLast? = some id := by
  rw [← List.dropLast_append_getLast h.nonempty, List.mem_append, List.mem_singleton] at hid
  rcases hid with hid | rfl
  · exact absurd hterm (h.onlyTerminator id hid)
  · exact List.getLast?_eq_some_getLast h.nonempty

theorem successors_eq {b : BlockId} {last : InstId} {i : Inst}
    (hlast : (f.instsOf b).getLast? = some last) (hi : f.insts[last]? = some i)
    (hterm : i.op.isTerminator) : f.successors b = i.op.successors := by
  have hholds : f.holds Op.isTerminator last := holds_iff.mpr ⟨i, hi, hterm⟩
  simp only [successors, terminator?, hlast, Option.filter_some, hholds, if_true, Option.bind_some, hi]

/-! ## Phis -/

theorem mem_predecessors {p b : BlockId} :
    p ∈ f.predecessors b ↔ p ∈ f.order ∧ b ∈ f.successors p := by
  unfold predecessors
  simp only [List.mem_flatMap, List.mem_map, List.mem_filter, beq_iff_eq]
  constructor
  · rintro ⟨q, hq, c, ⟨hc, rfl⟩, rfl⟩
    exact ⟨hq, hc⟩
  · rintro ⟨hp, hb⟩
    exact ⟨p, hp, b, ⟨hb, rfl⟩, rfl⟩

theorem sameMembers_iff {xs ys : List Nat} : sameMembers xs ys = true ↔ ∀ x, x ∈ xs ↔ x ∈ ys := by
  simp only [sameMembers, Bool.and_eq_true, List.all_eq_true, List.contains_iff_mem]
  exact ⟨fun ⟨h₁, h₂⟩ x => ⟨h₁ x, h₂ x⟩, fun h => ⟨fun x => (h x).mp, fun x => (h x).mpr⟩⟩

theorem verifyPhi_eq_ok_iff {b : BlockId} {label : String} {phi : InstId} {i : Inst}
    (hi : f.insts[phi]? = some i) : f.verifyPhi b label phi = .ok () ↔
      ∀ p, p ∈ i.op.incomingBlocks ↔ p ∈ f.order ∧ b ∈ f.successors p := by
  have hmembers : (∀ p, p ∈ i.op.incomingBlocks ↔ p ∈ f.order ∧ b ∈ f.successors p) ↔
      sameMembers i.op.incomingBlocks (f.predecessors b) = true := by
    simp only [sameMembers_iff, mem_predecessors]
  unfold verifyPhi
  rw [hmembers, inst_eq_ok_iff.mpr hi]
  by_cases h : sameMembers i.op.incomingBlocks (f.predecessors b) <;>
    simp [bind, Except.bind, reject, h]

theorem phis_eq {b : BlockId} (hb : b < f.blocks.size) :
    f.phis b = .ok ((f.instsOf b).takeWhile (f.holds Op.isPhi)) := by
  have hblock : f.blocks[b]? = some f.blocks[b] := Array.getElem?_eq_getElem hb
  unfold phis
  rw [block_eq_ok_iff.mpr hblock, instsOf_eq hblock]
  rfl

/-- If no phi stands behind another instruction, the phis at the head are all the phis. -/
theorem takeWhile_eq_filter {test : InstId → Bool} {ids : List InstId}
    (h : ids.Pairwise fun x y => test y → test x) : ids.takeWhile test = ids.filter test := by
  induction ids with
  | nil => rfl
  | cons id ids ih =>
    rw [List.pairwise_cons] at h
    by_cases hid : test id
    · simp [hid, ih h.2]
    · have hnone : ids.filter test = [] :=
        List.filter_eq_nil_iff.mpr fun y hy hty => hid (h.1 y hy hty)
      simp [hid, hnone]

/-! ## Blocks -/

/-- On instructions that are where they should be, `verifyInsts` checks the order alone. -/
theorem verifyInsts_eq_ok_iff {b : BlockId} {label : String} {phiHead : Bool}
    {seen ids out : List InstId} (hloc : ∀ id ∈ ids, ∃ i, f.insts[id]? = some i ∧ i.block = b)
    (hnew : ∀ id ∈ ids, id ∉ seen) (hnodup : ids.Nodup) :
    f.verifyInsts b label phiHead seen ids = .ok out ↔
      out = ids.reverse ++ seen ∧ (∀ id ∈ ids.dropLast, ¬ f.holds Op.isTerminator id) ∧
        (phiHead = false → ∀ id ∈ ids, ¬ f.holds Op.isPhi id) ∧
          ids.Pairwise fun x y => f.holds Op.isPhi y → f.holds Op.isPhi x := by
  induction ids generalizing phiHead seen with
  | nil =>
    simp only [verifyInsts, Except.ok.injEq, List.reverse_nil, List.nil_append]
    simpa using eq_comm
  | cons id rest ih =>
    obtain ⟨i, hi, rfl⟩ := hloc id List.mem_cons_self
    rw [List.nodup_cons] at hnodup
    have hrest : ∀ j ∈ rest, j ∉ id :: seen := by
      intro j hj hm
      rcases List.mem_cons.mp hm with rfl | hm
      · exact hnodup.1 hj
      · exact hnew j (List.mem_cons_of_mem _ hj) hm
    have ih := fun head => @ih head (id :: seen) (fun j hj => hloc j (List.mem_cons_of_mem _ hj))
      hrest hnodup.2
    -- What is said of positions in the list is said of its head and of the rest.
    have hterm : f.holds Op.isTerminator id = i.op.isTerminator := by simp [holds, hi]
    have hphi : f.holds Op.isPhi id = i.op.isPhi := by simp [holds, hi]
    have hlast : (∀ j ∈ (id :: rest).dropLast, ¬ f.holds Op.isTerminator j) ↔
        ¬ (i.op.isTerminator && !rest.isEmpty) ∧ ∀ j ∈ rest.dropLast, ¬ f.holds Op.isTerminator j := by
      cases rest with
      | nil => simp
      | cons j rest => simp [List.dropLast_cons_of_ne_nil, hterm]
    unfold verifyInsts
    rw [inst_eq_ok_iff.mpr hi, hlast, List.reverse_cons, List.append_assoc, List.pairwise_cons]
    simp only [bind, Except.bind, hnew id List.mem_cons_self, if_false, ne_eq, not_true_eq_false]
    by_cases ht : i.op.isTerminator && !rest.isEmpty
    · simp [ht, reject]
    · rw [if_neg ht]
      by_cases hp : i.op.isPhi && !phiHead
      · -- A phi behind another instruction is an error, and breaks the order.
        obtain ⟨hp, hh⟩ : i.op.isPhi = true ∧ phiHead = false := by simpa using hp
        simp [hp, hh, reject, hphi]
      · rw [if_neg hp, ih]
        cases hh : i.op.isPhi <;> cases phiHead <;> simp_all

theorem isSome_terminator?_iff {b : BlockId} (hne : f.instsOf b ≠ []) :
    (f.terminator? b).isSome ↔
      ∀ last, (f.instsOf b).getLast? = some last → f.holds Op.isTerminator last := by
  obtain ⟨last, hlast⟩ : ∃ last, (f.instsOf b).getLast? = some last :=
    ⟨_, List.getLast?_eq_some_getLast hne⟩
  unfold terminator?
  simp [hlast, Option.isSome_filter]

theorem verifyBlock_eq_ok_iff (hf : f.Coherent) {b : BlockId} (hb : b < f.blocks.size)
    {seen out : List InstId} (hnew : ∀ id ∈ f.instsOf b, id ∉ seen) :
    f.verifyBlock seen b = .ok out ↔ out = (f.instsOf b).reverse ++ seen ∧ f.ShapedAt b := by
  obtain ⟨block, hblock⟩ : ∃ block, f.blocks[b]? = some block := ⟨_, Array.getElem?_eq_getElem hb⟩
  have hinsts : f.instsOf b = block.insts := instsOf_eq hblock
  have hphis := phis_eq hb
  -- The checks one by one, before they are read as the clauses of `ShapedAt`.
  have hchecks : f.verifyBlock seen b = .ok out ↔ f.instsOf b ≠ [] ∧ (f.terminator? b).isSome ∧
      f.verifyInsts b block.name true seen (f.instsOf b) = .ok out ∧
        ∀ phi ∈ (f.instsOf b).takeWhile (f.holds Op.isPhi),
          f.verifyPhi b block.name phi = .ok () := by
    unfold verifyBlock
    rw [block_eq_ok_iff.mpr hblock, hphis, hinsts, ← forM_eq_ok_iff]
    simp only [bind_eq_ok_iff, Except.ok.injEq, exists_eq_left']
    split
    · next h => simp [reject, List.isEmpty_iff.mp h]
    · next h =>
      split
      · next ht => simp [reject, Option.isNone_iff_eq_none.mp ht]
      · next ht =>
        have hne : block.insts ≠ [] := fun he => h (List.isEmpty_iff.mpr he)
        have hsome : (f.terminator? b).isSome := Option.isSome_iff_ne_none.mpr (by simpa using ht)
        simp only [bind_eq_ok_iff, Except.ok.injEq, exists_eq_left', pure, Except.pure]
        constructor
        · rintro ⟨seen', hinsts', u, hu, rfl⟩
          exact ⟨hne, hsome, hinsts', hu⟩
        · rintro ⟨-, -, hinsts', hu⟩
          exact ⟨out, hinsts', (), hu, rfl⟩
  rw [hchecks, verifyInsts_eq_ok_iff (hf.located b) hnew (hf.nodup_instsOf b)]
  constructor
  · rintro ⟨hne, hterm, ⟨hout, honly, -, hfirst⟩, hedges⟩
    refine ⟨hout, hne, (isSome_terminator?_iff hne).mp hterm, honly, hfirst, fun phi hm i hi hp => ?_⟩
    refine (verifyPhi_eq_ok_iff hi).mp (hedges phi ?_)
    -- Only the phis at the head are checked, and those are all.
    rw [takeWhile_eq_filter hfirst, List.mem_filter]
    exact ⟨hm, holds_iff.mpr ⟨i, hi, hp⟩⟩
  · rintro ⟨hout, h⟩
    refine ⟨h.nonempty, (isSome_terminator?_iff h.nonempty).mpr h.terminated,
      ⟨hout, h.onlyTerminator, by simp, h.phisFirst⟩, fun phi hm => ?_⟩
    rw [takeWhile_eq_filter h.phisFirst, List.mem_filter, holds_iff] at hm
    obtain ⟨hm, i, hi, hp⟩ := hm
    exact (verifyPhi_eq_ok_iff hi).mpr (h.phiEdges phi hm i hi hp)

/-- The blocks are checked one after the other, against the instructions met so far. None of those
is met again, so each check is that of the block alone. -/
theorem foldlM_verifyBlock_eq_ok_iff (hf : f.Coherent) {bs : List BlockId} {seen : List InstId}
    (hbs : ∀ b ∈ bs, b < f.blocks.size) (hnodup : bs.Nodup)
    (hnew : ∀ b ∈ bs, ∀ id ∈ f.instsOf b, id ∉ seen) :
    (∃ out, bs.foldlM f.verifyBlock seen = .ok out) ↔ ∀ b ∈ bs, f.ShapedAt b := by
  induction bs generalizing seen with
  | nil => simp [pure, Except.pure]
  | cons b bs ih =>
    rw [List.nodup_cons] at hnodup
    have hrest : ∀ c ∈ bs, ∀ id ∈ f.instsOf c, id ∉ (f.instsOf b).reverse ++ seen := by
      intro c hc id hid hm
      rcases List.mem_append.mp hm with hm | hm
      · obtain ⟨i, hi, rfl⟩ := hf.located b id (List.mem_reverse.mp hm)
        exact hnodup.1 (hf.block_eq hi hid ▸ hc)
      · exact hnew c (List.mem_cons_of_mem _ hc) id hid hm
    have ih := ih (fun c hc => hbs c (List.mem_cons_of_mem _ hc)) hnodup.2 hrest
    have hb : ∀ out, f.verifyBlock seen b = .ok out ↔ _ := fun _ =>
      verifyBlock_eq_ok_iff hf (hbs b List.mem_cons_self) (hnew b List.mem_cons_self)
    simp only [List.foldlM_cons, bind_eq_ok_iff, hb, List.forall_mem_cons, ← ih]
    constructor
    · rintro ⟨out, seen', ⟨rfl, hshape⟩, hout⟩
      exact ⟨hshape, out, hout⟩
    · rintro ⟨hshape, out, hout⟩
      exact ⟨out, _, ⟨rfl, hshape⟩, hout⟩

/-! ## Use lists -/

theorem count_flatMap_replicate {ids : List InstId} (h : ids.Nodup) (times : InstId → Nat)
    (user : InstId) : (ids.flatMap fun id => List.replicate (times id) id).count user =
      if user ∈ ids then times user else 0 := by
  induction ids with
  | nil => rfl
  | cons id ids ih =>
    rw [List.nodup_cons] at h
    rw [List.flatMap_cons, List.count_append, ih h.2, List.count_replicate]
    by_cases hu : user = id
    · simp [hu, h.1]
    · simp [hu, Ne.symm hu]

theorem count_usersIn (hf : f.Coherent) (id user : InstId) :
    (f.usersIn id).count user = f.useCount user id := by
  unfold usersIn
  rw [count_flatMap_replicate hf.nodup_instructions fun user =>
    f.insts[user]?.elim 0 (·.op.uses.count id)]
  by_cases hu : user ∈ f.instructions
  · rw [if_pos hu]
    rfl
  · rw [hf.mem_instructions] at hu
    rw [if_neg (fun hm => hu (hf.mem_instructions.mp hm)),
      useCount_of_none (Array.getElem?_eq_none (Nat.not_lt.mp hu))]

theorem verifyUses_eq_ok (hf : f.Coherent) {id : InstId} (hid : id < f.insts.size) :
    f.verifyUses id = .ok () := by
  obtain ⟨i, hi⟩ := exists_inst hid
  have hperm : (f.usersIn id).isPerm i.users = true := by
    rw [List.isPerm_iff, List.perm_iff_count]
    intro user
    rw [count_usersIn hf, hf.users id i hi]
  unfold verifyUses
  rw [inst_eq_ok_iff.mpr hi]
  simp [bind, Except.bind, hperm]

/-! ## Functions -/

theorem Coherent.verify_eq_ok_iff (hf : f.Coherent) :
    f.verify = .ok () ↔ ∀ b ∈ f.order, f.ShapedAt b := by
  have huses : f.instructions.forM f.verifyUses = .ok () :=
    forM_eq_ok_iff.mpr fun id hid => verifyUses_eq_ok hf (hf.mem_instructions.mp hid)
  have hfold : (∃ out, f.order.foldlM f.verifyBlock [] = .ok out) ↔ _ :=
    foldlM_verifyBlock_eq_ok_iff hf (fun _ => hf.mem_order.mp) hf.nodup_order (by simp)
  unfold verify
  rw [bind_eq_ok_iff, ← hfold]
  exact ⟨fun ⟨out, hout, _⟩ => ⟨out, hout⟩, fun ⟨out, hout⟩ => ⟨out, hout, huses⟩⟩

/-- Arena, blocks and use lists of a function agree after any sequence of mutations, failed ones
included, so verification depends on the shape of its blocks and on nothing else. -/
theorem Reachable.coherent_and_verify_iff (h : f.Reachable) :
    f.Coherent ∧ (f.verify = .ok () ↔ ∀ b ∈ f.order, f.ShapedAt b) :=
  ⟨h.coherent, h.coherent.verify_eq_ok_iff⟩

/-- A store that uses one pointer twice, a branch that is refused for want of a block, a result that is
replaced by itself, and a run that tags the pointer. -/
def storeTwice : Func :=
  (fresh "f" .void [⟨"p", .ptr⟩, ⟨"n", .int 64⟩]).mutate
    [.addBlock "entry",
      .append 0 { op := .gep ⟨.int 32, .arg 0, [.arg 1], false⟩, ty := .ptr },
      .append 0 { op := .store (.inst 0) (.inst 0), ty := .void },
      .append 0 { op := .br 7, ty := .void },
      .append 0 { op := .ret none, ty := .void },
      .replaceAllUses 0 (.inst 0),
      .tag {} .lp64 []]

theorem storeTwice_reachable : storeTwice.Reachable := (Reachable.fresh _ _ _).mutate _

theorem storeTwice_coherent_and_verified :
    storeTwice.Reachable ∧ storeTwice.insts.size = 12 ∧ storeTwice.verify = .ok () ∧
      storeTwice.Coherent ∧ ∀ b ∈ storeTwice.order, storeTwice.ShapedAt b :=
  have h := storeTwice_reachable.coherent_and_verify_iff
  have hverify : storeTwice.verify = .ok () := by decide +kernel
  ⟨storeTwice_reachable, by decide +kernel, hverify, h.1, h.2.mp hverify⟩

end Func

end PtrTag
