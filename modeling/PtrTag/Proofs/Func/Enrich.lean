import PtrTag.Proofs.Emission
import PtrTag.Proofs.Func.Verify

/-!
# `PtrTag/Proofs/Func/Enrich.lean` — arithmetic added to a function

Emitting code and replacing operands change a lot of a function and nothing of its control flow.
`Func.Enriches f f'` says what both have in common: `f'` has the blocks of `f`, and in each of them the
instructions of `f` in their order, with arithmetic between them and maybe with other operands. That is
enough for the graph to be the same (`Enriches.successors`, `Enriches.predecessors`), for the phis to
have the same edges and for the address computations to be the same ones (`Enriches.geps`). For the graph
alone the added code need not be arithmetic: it is enough that it has no phis and no terminators in it
(`Func.Widens`).

Neither is enough for the blocks to stay in shape, because code in front of a phi is an addition too. So
the shape of a block is inherited if its phis still come first (`Widens.shapedAt`), and that is what an
anchor that is no phi is good for (`Grows.phisFirst`). `Func.Intact` puts the two together.
-/

set_option autoImplicit false

namespace PtrTag

namespace Func

variable {f f₁ f' : Func} {b : BlockId}

/-! ## Outlines -/

/-- The function without its instructions: its header, its block order and the names of its blocks. -/
def outline (f : Func) : Func :=
  { f with insts := #[], blocks := f.blocks.map fun block => { name := block.name } }

/-- The name of a block. -/
def label? (f : Func) (b : BlockId) : Option String := f.blocks[b]?.map Block.name

theorem label?_eq_of_outline (h : f'.outline = f.outline) (b : BlockId) : f'.label? b = f.label? b := by
  have hblocks : f'.outline.blocks[b]?.map Block.name = f.outline.blocks[b]?.map Block.name := by
    rw [h]
  simp only [outline, Array.getElem?_map, Option.map_map] at hblocks
  exact hblocks

theorem outline_place (d : Draft) (b : BlockId) (pos : Nat) :
    (f.place d b pos).outline = f.outline := by
  obtain ⟨insts, heq, -⟩ := registerUses_eq { f with
    insts := f.insts.push (d.settle b)
    blocks := f.blocks.modify b fun block =>
      { block with insts := block.insts.insertIdx pos f.insts.size } } f.insts.size d.op.uses
  have hblocks : ((f.blocks.modify b fun block =>
      { block with insts := block.insts.insertIdx pos f.insts.size }).map fun block =>
        ({ name := block.name } : Block)) = f.blocks.map fun block => { name := block.name } := by
    apply Array.ext
    · simp
    · intro n h₁ h₂
      simp only [Array.getElem_map, Array.getElem_modify]
      split <;> rfl
  show (registerUses _ _ _).outline = _
  unfold Draft.settle at heq
  rw [heq, outline, outline, hblocks]

def HasOutline (o f : Func) : Prop := f.outline = o

theorem keepsArith_hasOutline (o : Func) (anchor : InstId) :
    Edit.KeepsArith (HasOutline o) anchor := by
  intro op ty name _ f hf
  refine Edit.after_insertBefore hf fun i pos _ _ _ => ?_
  rw [HasOutline, outline_place]
  exact hf

/-! ## Widening -/

/-- The phis of every block come before anything else. -/
def PhisFirst (f : Func) : Prop :=
  ∀ b ∈ f.order, (f.instsOf b).Pairwise fun x y => f.holds Op.isPhi y → f.holds Op.isPhi x

/-- `f'` is `f` with code added that has no phis and no terminators in it, and with operands changed. -/
structure Widens (f f' : Func) : Prop where
  order : f'.order = f.order
  /-- Nothing leaves its block, and nothing overtakes anything. -/
  insts : ∀ b : BlockId, (f'.instsOf b).filter (· < f.insts.size) = f.instsOf b
  /-- Nothing is added behind the last instruction of a block. -/
  last : ∀ b : BlockId, (f'.instsOf b).getLast? = (f.instsOf b).getLast?
  kept : ∀ (id : InstId) (i : Inst), f.insts[id]? = some i →
    ∃ i' φ, f'.insts[id]? = some i' ∧ i'.op = i.op.mapOperands φ
  added : ∀ (id : InstId) (i : Inst), f.insts.size ≤ id → f'.insts[id]? = some i →
    i.op.isPhi = false ∧ i.op.isTerminator = false

namespace Widens

/-! ### What stays the same -/

/-- A test that does not look at operands, and that nothing new passes, gives the same answer at every
place. -/
theorem holds (h : f.Widens f') {test : Op → Bool}
    (hmap : ∀ (φ : Value → Value) (op : Op), test (op.mapOperands φ) = test op)
    (hnew : ∀ (id : InstId) (i : Inst), f.insts.size ≤ id → f'.insts[id]? = some i → test i.op = false)
    (id : InstId) : f'.holds test id = f.holds test id := by
  cases hi : f.insts[id]? with
  | some i =>
    obtain ⟨i', φ, hi', hop⟩ := h.kept id i hi
    simp only [Func.holds, hi, hi', Option.any_some, hop, hmap]
  | none =>
    have hle : f.insts.size ≤ id := Array.getElem?_eq_none_iff.mp hi
    cases hi' : f'.insts[id]? with
    | none => simp only [Func.holds, hi, hi']
    | some i' =>
      simp only [Func.holds, hi, hi', Option.any_some, Option.any_none]
      exact hnew id i' hle hi'

theorem isPhi (h : f.Widens f') (id : InstId) : f'.holds Op.isPhi id = f.holds Op.isPhi id :=
  h.holds Op.formTest_isPhi.mapOperands (fun id i hle hi => (h.added id i hle hi).1) id

theorem isTerminator (h : f.Widens f') (id : InstId) :
    f'.holds Op.isTerminator id = f.holds Op.isTerminator id :=
  h.holds Op.formTest_isTerminator.mapOperands (fun id i hle hi => (h.added id i hle hi).2) id

theorem filter_holds (h : f.Widens f') {test : Op → Bool}
    (htest : ∀ id, f'.holds test id = f.holds test id) (b : BlockId) :
    (f'.instsOf b).filter (f'.holds test) = (f.instsOf b).filter (f.holds test) := by
  rw [← h.insts b, List.filter_filter]
  refine List.filter_congr fun id _ => ?_
  rw [htest, Bool.eq_iff_iff, Bool.and_eq_true, decide_eq_true_iff]
  refine ⟨fun hid => ⟨hid, ?_⟩, fun hid => hid.1⟩
  obtain ⟨i, hi, -⟩ := holds_iff.mp hid
  exact lt_of_inst hi

theorem successors (h : f.Widens f') (b : BlockId) : f'.successors b = f.successors b := by
  have hterm : f'.terminator? b = f.terminator? b := by
    unfold terminator?
    rw [h.last b, funext h.isTerminator]
  unfold Func.successors
  rw [hterm]
  cases ht : f.terminator? b with
  | none => rfl
  | some id =>
    -- A terminator passed its test, so it is an instruction of `f`.
    obtain ⟨-, hholds⟩ := Option.filter_eq_some_iff.mp ht
    obtain ⟨i, hi, -⟩ := holds_iff.mp hholds
    obtain ⟨i', φ, hi', hop⟩ := h.kept id i hi
    simp only [Option.bind_some, hi, hi', hop, Op.successors_mapOperands]

theorem predecessors (h : f.Widens f') (b : BlockId) : f'.predecessors b = f.predecessors b := by
  unfold Func.predecessors
  rw [h.order, funext h.successors]

/-! ### Shape -/

/-- A block whose phis still come first is in shape if it was. -/
theorem shapedAt (h : f.Widens f') (hshape : f.ShapedAt b)
    (hphis : (f'.instsOf b).Pairwise fun x y => f'.holds Op.isPhi y → f'.holds Op.isPhi x) :
    f'.ShapedAt b where
  nonempty := by
    intro hnil
    have hlast := h.last b
    rw [hnil, List.getLast?_nil] at hlast
    exact hshape.nonempty (List.getLast?_eq_none_iff.mp hlast.symm)
  terminated := by
    intro last hlast
    rw [h.last b] at hlast
    rw [h.isTerminator]
    exact hshape.terminated last hlast
  onlyTerminator := by
    -- Both blocks have the same terminators, and in the old one there is only the last instruction.
    intro id hid hterm
    obtain ⟨last, hlast⟩ : ∃ last, (f.instsOf b).getLast? = some last :=
      ⟨_, List.getLast?_eq_some_getLast hshape.nonempty⟩
    have hlast' := (h.last b).trans hlast
    obtain ⟨init, hinit⟩ := List.getLast?_eq_some_iff.mp hlast
    obtain ⟨init', hinit'⟩ := List.getLast?_eq_some_iff.mp hlast'
    have hnone : init.filter (f.holds Op.isTerminator) = [] := by
      have honly := hshape.onlyTerminator
      rw [hinit, List.dropLast_concat] at honly
      exact List.filter_eq_nil_iff.mpr honly
    have hsame := h.filter_holds h.isTerminator b
    rw [hinit, hinit', List.filter_append, List.filter_append, hnone, funext h.isTerminator,
      List.nil_append] at hsame
    have hnone' := List.append_left_eq_self.mp hsame
    rw [hinit', List.dropLast_concat] at hid
    rw [h.isTerminator] at hterm
    exact List.filter_eq_nil_iff.mp hnone' id hid hterm
  phisFirst := hphis
  phiEdges := by
    intro phi hm i' hi' hphi p
    have hholds : f.holds Op.isPhi phi := by
      rw [← h.isPhi]
      exact holds_iff.mpr ⟨i', hi', hphi⟩
    obtain ⟨i, hi, hphi⟩ := holds_iff.mp hholds
    obtain ⟨i'', φ, hi'', hop⟩ := h.kept phi i hi
    obtain rfl : i' = i'' := Option.some.inj (hi'.symm.trans hi'')
    have hm : phi ∈ f.instsOf b := by
      rw [← h.insts b, List.mem_filter]
      exact ⟨hm, decide_eq_true (lt_of_inst hi)⟩
    rw [hop, Op.incomingBlocks_mapOperands, h.order, h.successors]
    exact hshape.phiEdges phi hm i hi hphi p

theorem verify (h : f.Widens f') (hf : f.Coherent) (hf' : f'.Coherent) (hphis : f'.PhisFirst)
    (hverify : f.verify = .ok ()) : f'.verify = .ok () := by
  have hshaped := hf.verify_eq_ok_iff.mp hverify
  refine hf'.verify_eq_ok_iff.mpr fun b hb => ?_
  have hold := hb
  rw [h.order] at hold
  exact h.shapedAt (hshaped b hold) (hphis b hb)

end Widens

/-! ## Enriching -/

/-- `f'` is `f` with arithmetic added and operands changed. -/
structure Enriches (f f' : Func) : Prop where
  outline : f'.outline = f.outline
  size : f.insts.size ≤ f'.insts.size
  /-- Nothing leaves its block, and nothing overtakes anything. -/
  insts : ∀ b : BlockId, (f'.instsOf b).filter (· < f.insts.size) = f.instsOf b
  /-- Nothing is added behind the last instruction of a block. -/
  last : ∀ b : BlockId, (f'.instsOf b).getLast? = (f.instsOf b).getLast?
  kept : ∀ (id : InstId) (i : Inst), f.insts[id]? = some i →
    ∃ i' φ, f'.insts[id]? = some i' ∧ i'.op = i.op.mapOperands φ
  added : ∀ (id : InstId) (i : Inst), f.insts.size ≤ id → f'.insts[id]? = some i → i.op.isArith

namespace Enriches

theorem refl (hf : f.Coherent) : f.Enriches f where
  outline := rfl
  size := Nat.le_refl _
  insts := fun _ => List.filter_eq_self.mpr fun _ hid => decide_eq_true (hf.lt_of_mem hid)
  last := fun _ => rfl
  kept := fun _ i hi => ⟨i, id, hi, (Op.mapOperands_id i.op).symm⟩
  added := fun _ _ hle hi => absurd (lt_of_inst hi) (Nat.not_lt.mpr hle)

theorem trans (h₁ : f.Enriches f₁) (h₂ : f₁.Enriches f') : f.Enriches f' where
  outline := h₂.outline.trans h₁.outline
  size := h₁.size.trans h₂.size
  insts := fun b => by
    rw [← h₁.insts b, ← h₂.insts b, List.filter_filter]
    refine List.filter_congr fun id _ => ?_
    rw [Bool.eq_iff_iff, Bool.and_eq_true, decide_eq_true_iff, decide_eq_true_iff]
    exact ⟨fun hid => ⟨hid, Nat.lt_of_lt_of_le hid h₁.size⟩, fun hid => hid.1⟩
  last := fun b => (h₂.last b).trans (h₁.last b)
  kept := fun id i hi => by
    obtain ⟨i₁, φ, hi₁, hop₁⟩ := h₁.kept id i hi
    obtain ⟨i₂, ψ, hi₂, hop₂⟩ := h₂.kept id i₁ hi₁
    exact ⟨i₂, ψ ∘ φ, hi₂, by rw [hop₂, hop₁, Op.mapOperands_mapOperands]⟩
  added := fun id i hle hi => by
    by_cases hid : f₁.insts.size ≤ id
    · exact h₂.added id i hid hi
    · -- Added by the first part; the second one may have changed its operands.
      obtain ⟨i₁, hi₁⟩ := exists_inst (Nat.not_le.mp hid)
      obtain ⟨i₂, φ, hi₂, hop⟩ := h₂.kept id i₁ hi₁
      obtain rfl : i = i₂ := Option.some.inj (hi.symm.trans hi₂)
      rw [hop, Op.isArith_mapOperands]
      exact h₁.added id i₁ hle hi₁

/-! ### What stays the same -/

theorem order (h : f.Enriches f') : f'.order = f.order := by
  show f'.outline.order = f.outline.order
  rw [h.outline]

theorem widens (h : f.Enriches f') : f.Widens f' where
  order := h.order
  insts := h.insts
  last := h.last
  kept := h.kept
  added := fun id i hle hi =>
    have harith := h.added id i hle hi
    ⟨Op.formTest_isPhi.arith _ harith, Op.formTest_isTerminator.arith _ harith⟩

/-- A test of the form of an operation gives the same answer at every place. -/
theorem holds (h : f.Enriches f') {test : Op → Bool} (htest : Op.FormTest test) (id : InstId) :
    f'.holds test id = f.holds test id :=
  h.widens.holds htest.mapOperands (fun id i hle hi => htest.arith _ (h.added id i hle hi)) id

theorem geps (h : f.Enriches f') : f'.geps = f.geps := by
  unfold Func.geps Func.instructions
  rw [h.order, List.filter_flatMap, List.filter_flatMap]
  exact congrArg (List.flatMap · f.order)
    (funext fun b => h.widens.filter_holds (h.holds Op.formTest_isGep) b)

theorem successors (h : f.Enriches f') (b : BlockId) : f'.successors b = f.successors b :=
  h.widens.successors b

theorem predecessors (h : f.Enriches f') (b : BlockId) : f'.predecessors b = f.predecessors b :=
  h.widens.predecessors b

end Enriches

/-! ## Intact functions -/

/-- `f'` is `f` with arithmetic added, and has its phis first if `f` had. -/
structure Intact (f f' : Func) : Prop where
  coherent : f'.Coherent
  enriches : f.Enriches f'
  phisFirst : f.PhisFirst → f'.PhisFirst

namespace Intact

theorem refl (hf : f.Coherent) : f.Intact f := ⟨hf, .refl hf, fun h => h⟩

theorem trans (h₁ : f.Intact f₁) (h₂ : f₁.Intact f') : f.Intact f' where
  coherent := h₂.coherent
  enriches := h₁.enriches.trans h₂.enriches
  phisFirst := fun h => h₂.phisFirst (h₁.phisFirst h)

theorem verify (h : f.Intact f') (hf : f.Coherent) (hverify : f.verify = .ok ()) :
    f'.verify = .ok () := by
  have hshaped := hf.verify_eq_ok_iff.mp hverify
  have hphis := h.phisFirst fun b hb => (hshaped b hb).phisFirst
  exact h.enriches.widens.verify hf h.coherent hphis hverify

end Intact

/-- Changing operands, use lists and marks leaves a function intact. -/
theorem intact_of_same_blocks (hf : f.Coherent) (hc : f'.Coherent) (houtline : f'.outline = f.outline)
    (hblocks : f'.blocks = f.blocks) (hsize : f'.insts.size = f.insts.size)
    (hkept : ∀ (id : InstId) (i : Inst), f.insts[id]? = some i →
      ∃ i' φ, f'.insts[id]? = some i' ∧ i'.op = i.op.mapOperands φ) : f.Intact f' := by
  have hinsts : ∀ b, f'.instsOf b = f.instsOf b := by
    intro b
    simp only [instsOf, hblocks]
  have he : f.Enriches f' := by
    refine ⟨houtline, Nat.le_of_eq hsize.symm, fun b => ?_, fun b => ?_, hkept, fun id i hle hi => ?_⟩
    · rw [hinsts b]
      exact (Enriches.refl hf).insts b
    · rw [hinsts b]
    · have hlt := lt_of_inst hi
      rw [hsize] at hlt
      exact absurd hlt (Nat.not_lt.mpr hle)
  refine ⟨hc, he, fun hphis b hb => ?_⟩
  rw [he.order] at hb
  rw [hinsts b, funext (he.holds Op.formTest_isPhi)]
  exact hphis b hb

/-! ## Growing before an anchor -/

section Grow

variable {deps : InstId → Prop} {anchor : InstId}

theorem Grows.filter_old (hg : f.Grows deps anchor f') (hf : f.Coherent) (b : BlockId) :
    (f'.instsOf b).filter (· < f.insts.size) = f.instsOf b := by
  have hold := (Enriches.refl hf).insts b
  by_cases hm : anchor ∈ f.instsOf b
  · obtain ⟨pre, post, hsplit⟩ := List.append_of_mem hm
    have hnew : (List.range' f.insts.size (f'.insts.size - f.insts.size)).filter
        (· < f.insts.size) = [] := by
      apply List.filter_eq_nil_iff.mpr
      intro id hid
      rw [decide_eq_true_iff]
      exact Nat.not_lt.mpr (List.mem_range'_1.mp hid).1
    rw [hsplit, List.filter_append] at hold
    rw [hg.placed b pre post hsplit, List.filter_append, List.filter_append, hnew, List.nil_append,
      hold, hsplit]
  · rw [hg.elsewhere b hm]
    exact hold

theorem Grows.kept_op (hg : f.Grows deps anchor f') (k : InstId) (j : Inst)
    (hj : f.insts[k]? = some j) : ∃ j' φ, f'.insts[k]? = some j' ∧ j'.op = j.op.mapOperands φ := by
  obtain ⟨more, hj'⟩ := hg.kept k j hj
  exact ⟨_, id, hj', (Op.mapOperands_id j.op).symm⟩

theorem Grows.enriches (hg : f.Grows deps anchor f') (hf : f.Coherent)
    (houtline : f'.outline = f.outline)
    (harith : ∀ (id : InstId) (j : Inst), f.insts.size ≤ id → f'.insts[id]? = some j → j.op.isArith) :
    f.Enriches f' :=
  ⟨houtline, hg.size, hg.filter_old hf, hg.getLast?, hg.kept_op, harith⟩

/-- What has no phi in it can be put before anything but a phi. -/
theorem pairwise_phis_insert {isPhi : InstId → Bool} {pre new post : List InstId}
    (h : (pre ++ anchor :: post).Pairwise fun x y => isPhi y → isPhi x) (hanchor : ¬ isPhi anchor)
    (hnew : ∀ x ∈ new, ¬ isPhi x) :
    (pre ++ (new ++ anchor :: post)).Pairwise fun x y => isPhi y → isPhi x := by
  obtain ⟨hpre, hrest, hcross⟩ := List.pairwise_append.mp h
  have hafter : ∀ y ∈ anchor :: post, ¬ isPhi y := by
    intro y hy hphi
    rcases List.mem_cons.mp hy with rfl | hy
    · exact hanchor hphi
    · exact hanchor ((List.pairwise_cons.mp hrest).1 y hy hphi)
  refine List.pairwise_append.mpr ⟨hpre, List.pairwise_append.mpr ⟨?_, hrest, ?_⟩, ?_⟩
  · exact List.pairwise_iff_getElem.mpr fun _ _ _ hj _ hphi => absurd hphi (hnew _ (List.getElem_mem hj))
  · exact fun _ _ y hy hphi => absurd hphi (hafter y hy)
  · intro x hx y hy
    rcases List.mem_append.mp hy with hy | hy
    · exact fun hphi => absurd hphi (hnew y hy)
    · exact hcross x hx y hy

/-- Code before an anchor that is no phi leaves the phis first. -/
theorem Grows.phisFirst (hg : f.Grows deps anchor f') (hw : f.Widens f')
    (hanchor : ¬ f.holds Op.isPhi anchor) (hphis : f.PhisFirst) : f'.PhisFirst := by
  intro b hb
  rw [hw.order] at hb
  have hfirst := hphis b hb
  rw [funext hw.isPhi]
  by_cases hm : anchor ∈ f.instsOf b
  · obtain ⟨pre, post, hsplit⟩ := List.append_of_mem hm
    rw [hsplit] at hfirst
    rw [hg.placed b pre post hsplit]
    refine pairwise_phis_insert hfirst hanchor fun id hid hphi => ?_
    obtain ⟨j, hj, -⟩ := holds_iff.mp hphi
    exact Nat.not_lt.mpr (List.mem_range'_1.mp hid).1 (lt_of_inst hj)
  · rw [hg.elsewhere b hm]
    exact hfirst

/-- `f'` is `f` with arithmetic added, and more of it can go before `anchor`: that is no phi, if the phis
of `f` came first. -/
structure OpenAt (f : Func) (anchor : InstId) (f' : Func) : Prop where
  intact : f.Intact f'
  noPhi : f.PhisFirst → ¬ f'.holds Op.isPhi anchor

theorem OpenAt.grow (h : f.OpenAt anchor f₁) (hg : f₁.Grows deps anchor f')
    (houtline : f'.outline = f₁.outline)
    (harith : ∀ (id : InstId) (j : Inst), f₁.insts.size ≤ id → f'.insts[id]? = some j →
      j.op.isArith) : f.OpenAt anchor f' := by
  have he := hg.enriches h.intact.coherent houtline harith
  refine ⟨⟨hg.coherent, h.intact.enriches.trans he, fun hphis => ?_⟩, fun hphis => ?_⟩
  · exact hg.phisFirst he.widens (h.noPhi hphis) (h.intact.phisFirst hphis)
  · rw [he.holds Op.formTest_isPhi]
    exact h.noPhi hphis

end Grow

end Func

end PtrTag
