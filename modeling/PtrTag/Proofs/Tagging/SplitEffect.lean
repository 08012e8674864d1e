import PtrTag.Proofs.Func.Enrich
import PtrTag.Proofs.Tagging.Split

/-!
# `PtrTag/Proofs/Tagging/SplitEffect.lean` — what a split changes, and what it leaves alone

`Func.SplitEffect` lists all that is different after the normal edge of an invoke was split: one block
and one branch have come, the invoke goes to the new block, and the phis of its destination name the new
block where they named the source. Everything else is as before, use lists and marks included.

The new block has one predecessor (`Splits.predecessors_new`). That is what a split is for: code in it
runs if the invoke returned, and only then.
-/

set_option autoImplicit false

namespace PtrTag

namespace Func

variable {f F : Func} {invoke : InstId} {source dest unwind : BlockId}

/-! ## Predecessors -/

theorem Coherent.lt_of_mem_successors (hf : f.Coherent) {b c : BlockId} (h : c ∈ f.successors b) :
    c < f.blocks.size := by
  unfold successors at h
  split at h
  · next i hi =>
    obtain ⟨id, -, hi⟩ := Option.bind_eq_some_iff.mp hi
    exact (hf.inRange id i hi).successors c h
  · exact absurd h List.not_mem_nil

theorem flatMap_eq_singleton {ids : List Nat} {g : Nat → List Nat} {a : Nat} (hnodup : ids.Nodup)
    (ha : a ∈ ids) (hself : g a = [a]) (hother : ∀ b ∈ ids, b ≠ a → g b = []) :
    ids.flatMap g = [a] := by
  obtain ⟨pre, post, rfl⟩ := List.append_of_mem ha
  have hpre : pre.flatMap g = [] := by
    refine List.flatMap_eq_nil_iff.mpr fun b hb => ?_
    refine hother b (List.mem_append_left _ hb) ?_
    rintro rfl
    exact (List.nodup_append.mp hnodup).2.2 b hb b List.mem_cons_self rfl
  have hpost : post.flatMap g = [] := by
    refine List.flatMap_eq_nil_iff.mpr fun b hb => ?_
    refine hother b (List.mem_append_right _ (List.mem_cons_of_mem _ hb)) ?_
    rintro rfl
    exact (List.nodup_cons.mp (List.nodup_append.mp hnodup).2.1).1 hb
  rw [List.flatMap_append, List.flatMap_cons, hpre, hself, hpost]
  rfl

namespace Splits

/-- Any other block goes where it went, be it only that it does not exist and goes nowhere. -/
theorem successors_ne (h : f.Splits invoke source dest unwind F) (hf : f.Coherent)
    (hshaped : ∀ b ∈ f.order, f.ShapedAt b) {b : BlockId} (hsource : b ≠ source)
    (hnew : b ≠ f.blocks.size) : F.successors b = f.successors b := by
  by_cases hb : b ∈ f.order
  · exact h.successors_other hf hshaped hb hsource
  · have hempty : f.instsOf b = [] :=
      instsOf_of_size_le (Nat.not_lt.mp fun hlt => hb (hf.mem_order.mpr hlt))
    simp only [successors, terminator?, h.instsOf_old hnew, hempty, List.getLast?_nil,
      Option.filter_none, Option.bind_none]

/-- The way into the new block is from the invoke, and there is only one. -/
theorem predecessors_new (h : f.Splits invoke source dest unwind F) (hf : f.Coherent)
    (hshaped : ∀ b ∈ f.order, f.ShapedAt b) : F.predecessors f.blocks.size = [source] := by
  have hsource := h.source_mem hf
  obtain ⟨hbefore, hafter⟩ := h.successors_source hf hshaped
  refine flatMap_eq_singleton h.coherent.nodup_order ((h.mem_order_iff hf).mpr (.inr hsource)) ?_ ?_
  · have hunwind : unwind ≠ f.blocks.size := by
      refine Nat.ne_of_lt (hf.lt_of_mem_successors (b := source) ?_)
      rw [hbefore]
      simp
    simp [hafter, hunwind]
  · intro b _ hb
    have hnone : ∀ c ∈ F.successors b, c ≠ f.blocks.size := by
      intro c hc
      by_cases hnew : b = f.blocks.size
      · rw [hnew, h.successors_new, List.mem_singleton] at hc
        rw [hc]
        exact Nat.ne_of_lt (hf.mem_order.mp (h.dest_mem hf))
      · rw [h.successors_ne hf hshaped hb hnew] at hc
        exact Nat.ne_of_lt (hf.lt_of_mem_successors hc)
    rw [List.map_eq_nil_iff, List.filter_eq_nil_iff]
    intro c hc heq
    exact hnone c hc (beq_iff_eq.mp heq)

/-- The branch of the new block is the only new instruction. -/
theorem size_insts (h : f.Splits invoke source dest unwind F) (hf : f.Coherent) :
    F.insts.size = f.insts.size + 1 := by
  obtain ⟨i, hi, -⟩ := h.jump
  refine Nat.le_antisymm (Nat.not_lt.mp fun hlt => ?_) (lt_of_inst hi)
  obtain ⟨j, hj⟩ := exists_inst hlt
  have hmem := h.coherent.mem_instsOf_block hj
  by_cases hnew : j.block = f.blocks.size
  · rw [hnew, h.instsOf_new, List.mem_singleton] at hmem
    exact Nat.succ_ne_self _ hmem
  · rw [h.instsOf_old hnew] at hmem
    exact Nat.lt_asymm (hf.lt_of_mem hmem) (Nat.lt_succ_self _)

end Splits

end Func

/-! ## The outline -/

namespace Edit

open Func

variable {o : Func}

theorem keeps_outline_append (b : BlockId) (d : Draft) : Keeps (HasOutline o) (append b d) := by
  intro f hf
  refine Keeps.after_ask_bind hf fun _ _ => after_create hf fun _ => ?_
  rw [HasOutline, outline_place]
  exact hf

theorem keeps_outline_setNormalDest (invoke : InstId) (dest : BlockId) :
    Keeps (HasOutline o) (setNormalDest invoke dest) := by
  intro f hf
  exact Keeps.after_ask_bind hf fun _ _ => Keeps.after_ask_bind hf fun _ _ => hf

theorem keeps_outline_rekeyPhis (old new : BlockId) (phis : List InstId) :
    Keeps (HasOutline o) (rekeyPhis old new phis) := by
  induction phis with
  | nil => exact Keeps.pure _
  | cons phi rest ih =>
    refine Keeps.bind ?_ fun _ => ih
    intro f hf
    exact Keeps.after_ask_bind hf fun _ _ => Keeps.after_ask_bind hf fun _ _ => hf

/-- Of the outline, a split changes nothing but that there is one more block. -/
theorem outline_of_splitNormalEdge {f F : Func} {invoke : InstId} {split : EdgeSplit}
    {pre post : List BlockId} (hnodup : f.order.Nodup)
    (hrun : splitNormalEdge invoke f = .ok split F) (hsplit : f.order = pre ++ split.dest :: post) :
    F.outline = (f.insertBlock "invoke_insert_point" pre.length).outline := by
  obtain ⟨i, -, hrun⟩ := ok_of_ask_bind hrun
  obtain ⟨dest, -, hrun⟩ := ok_of_ask_bind hrun
  obtain ⟨b, f₁, hblock, hrun⟩ := ok_of_bind hrun
  obtain ⟨_, f₂, happend, hrun⟩ := ok_of_bind hrun
  obtain ⟨_, f₃, hdest, hrun⟩ := ok_of_bind hrun
  obtain ⟨phis, -, hrun⟩ := ok_of_ask_bind hrun
  obtain ⟨_, f₄, hphis, hrun⟩ := ok_of_bind hrun
  cases hrun
  rw [insertBlockBefore_run _ hsplit hnodup] at hblock
  cases hblock
  have h₂ := (keeps_outline_append _ _).of_ok rfl happend
  have h₃ := (keeps_outline_setNormalDest _ _).of_ok h₂ hdest
  exact (keeps_outline_rekeyPhis _ _ _).of_ok h₃ hphis

end Edit

namespace Func

variable {f F : Func} {invoke : InstId} {source dest unwind : BlockId}

/-! ## The whole effect -/

/-- The function `F` is `f` after a split of the normal edge of an invoke that unwinds to `unwind`. -/
structure SplitEffect (f : Func) (split : EdgeSplit) (unwind : BlockId) (F : Func) : Prop where
  fresh : split.block ∉ f.order
  /-- The new block is right before the destination. Otherwise blocks, their names and the header are as
  before. -/
  outline : ∃ pre post, f.order = pre ++ split.dest :: post ∧
    F.order = pre ++ split.block :: split.dest :: post ∧
      F.outline = (f.insertBlock "invoke_insert_point" pre.length).outline
  size : F.insts.size = f.insts.size + 1
  /-- The new block only branches to the destination. -/
  instsOf_block : ∃ jump i, F.instsOf split.block = [jump] ∧ F.insts[jump]? = some i ∧
    i.op = .br split.dest
  instsOf_other : ∀ b, b ≠ split.block → F.instsOf b = f.instsOf b
  successors_source : F.successors split.source = [split.block, unwind]
  successors_block : F.successors split.block = [split.dest]
  successors_other : ∀ b, b ≠ split.source → b ≠ split.block → F.successors b = f.successors b
  predecessors_block : F.predecessors split.block = [split.source]
  invoke : ∀ (i : Inst) (callee : Value) (args : List Value), f.insts[split.invoke]? = some i →
    i.op = .invoke callee args split.dest unwind →
      F.insts[split.invoke]? = some { i with op := .invoke callee args split.block unwind }
  /-- A phi of the destination names the new block where it named the source. -/
  phi : ∀ (id : InstId) (i : Inst) (incoming : List (Value × BlockId)), f.insts[id]? = some i →
    i.op = .phi incoming → id ∈ f.instsOf split.dest → F.insts[id]? = some { i with
      op := .phi (incoming.map fun (v, b) => (v, if b = split.source then split.block else b)) }
  other : ∀ (id : InstId) (i : Inst), f.insts[id]? = some i → id ≠ split.invoke →
    ¬ (i.op.isPhi ∧ id ∈ f.instsOf split.dest) → F.insts[id]? = some i
  entry? : f.entry? ≠ some split.dest → F.entry? = f.entry?

namespace Splits

theorem kept_invoke (h : f.Splits invoke source dest unwind F) {i : Inst} {callee : Value}
    {args : List Value} (hi : f.insts[invoke]? = some i)
    (hop : i.op = .invoke callee args dest unwind) :
    F.insts[invoke]? = some { i with op := .invoke callee args f.blocks.size unwind } := by
  rw [h.kept invoke i hi, detour, if_pos rfl, hop]
  rfl

theorem kept_phi (h : f.Splits invoke source dest unwind F) (hshape : f.ShapedAt dest) {id : InstId}
    {i : Inst} {incoming : List (Value × BlockId)} (hi : f.insts[id]? = some i)
    (hop : i.op = .phi incoming) (hm : id ∈ f.instsOf dest) :
    F.insts[id]? = some { i with
      op := .phi (incoming.map fun (v, b) => (v, if b = source then f.blocks.size else b)) } := by
  have hphi : i.op.isPhi := by
    rw [hop]
    rfl
  have hhead : id ∈ (f.instsOf dest).takeWhile (f.holds Op.isPhi) := by
    rw [takeWhile_eq_filter hshape.phisFirst, List.mem_filter]
    exact ⟨hm, holds_iff.mpr ⟨i, hi, hphi⟩⟩
  rw [h.kept id i hi, detour, if_neg (h.ne_of_isPhi hi hphi), if_pos hhead, hop]
  rfl

theorem kept_other (h : f.Splits invoke source dest unwind F) {id : InstId} {i : Inst}
    (hi : f.insts[id]? = some i) (hne : id ≠ invoke) (hnot : ¬ (i.op.isPhi ∧ id ∈ f.instsOf dest)) :
    F.insts[id]? = some i := by
  have hhead : id ∉ (f.instsOf dest).takeWhile (f.holds Op.isPhi) := by
    intro hm
    obtain ⟨j, hj, hphi⟩ := holds_iff.mp (List.mem_takeWhile_imp hm)
    obtain rfl : i = j := Option.some.inj (hi.symm.trans hj)
    exact hnot ⟨hphi, (List.takeWhile_sublist _).subset hm⟩
  rw [h.kept id i hi, detour, if_neg hne, if_neg hhead]

end Splits

/-- Splitting the normal edge of an invoke of a well-formed function succeeds, and does what
`SplitEffect` says and nothing else. The invoke may go back to its own block, or unwind to its normal
destination. -/
theorem Reachable.splitNormalEdge_effect (h : f.Reachable) (hverify : f.verify = .ok ()) {i : Inst}
    {callee : Value} {args : List Value} {normal unwind : BlockId} (hi : f.insts[invoke]? = some i)
    (hop : i.op = .invoke callee args normal unwind) :
    ∃ split F, Edit.splitNormalEdge invoke f = .ok split F ∧
      split = ⟨invoke, i.block, normal, f.blocks.size⟩ ∧ f.SplitEffect split unwind F := by
  have hf := h.coherent
  have hshaped := hf.verify_eq_ok_iff.mp hverify
  obtain ⟨split, F, hrun, rfl, hsplits⟩ := Edit.yields_splitNormalEdge hf hi hop
  have hsplits := hsplits ((Edit.keeps_splitNormalEdge invoke).of_ok hf hrun)
  have hdest := hsplits.dest_mem hf
  obtain ⟨pre, post, hsplit⟩ := List.append_of_mem hdest
  obtain ⟨jump, hjump, hbr⟩ := hsplits.jump
  exact ⟨_, F, hrun, rfl,
    { fresh := fun hm => Nat.lt_irrefl _ (hf.mem_order.mp hm)
      outline := ⟨pre, post, hsplit, hsplits.order pre post hsplit,
        Edit.outline_of_splitNormalEdge hf.nodup_order hrun hsplit⟩
      size := hsplits.size_insts hf
      instsOf_block := ⟨_, jump, hsplits.instsOf_new, hjump, hbr⟩
      instsOf_other := fun b hb => hsplits.instsOf_old hb
      successors_source := (hsplits.successors_source hf hshaped).2
      successors_block := hsplits.successors_new
      successors_other := fun b => hsplits.successors_ne hf hshaped
      predecessors_block := hsplits.predecessors_new hf hshaped
      invoke := fun j callee args hj hop => hsplits.kept_invoke hj hop
      phi := fun id j incoming => hsplits.kept_phi (hshaped normal hdest)
      other := fun id j => hsplits.kept_other
      entry? := (hsplits.entry?_eq_iff hf).mpr }⟩

/-- An invoke that goes back to its own block on both edges. The first of the phis there has two entries
for that block. -/
def spinning : Func :=
  (fresh "f" .void [⟨"callee", .ptr⟩]).mutate
    [.addBlock "entry", .addBlock "again",
      .append 0 { op := .br 1, ty := .void },
      .append 1 { op := .phi [(.ofWord 0 32, 0)], ty := .int 32, name := some "a" },
      .append 1 { op := .phi [(.ofWord 0 32, 0)], ty := .int 32, name := some "b" },
      .append 1 { op := .invoke (.arg 0) [.inst 1] 1 1, ty := .int 32, name := some "r" },
      .addIncoming 1 (.inst 3) 1, .addIncoming 1 (.ofWord 7 32) 1,
      .addIncoming 2 (.inst 1) 1]

theorem spinning_reachable : spinning.Reachable := (Reachable.fresh _ _ _).mutate _

/-- The new block of `spinning` is block `2`. Both entries of the first phi now name it, and the block of
the invoke goes there or back to itself. -/
theorem spinning_split_effect :
    spinning.Reachable ∧ spinning.verify = .ok () ∧
      ∃ split F, Edit.splitNormalEdge 3 spinning = .ok split F ∧ split.block = 2 ∧
        F.successors 1 = [2, 1] ∧ F.predecessors 2 = [1] ∧ F.entry? = some 0 ∧
          ∃ i, F.insts[1]? = some i ∧
            i.op = .phi [(.ofWord 0 32, 0), (.inst 3, 2), (.ofWord 7 32, 2)] := by
  have hverify : spinning.verify = .ok () := by decide +kernel
  have hinvoke : spinning.insts[3]?.map (fun i => (i.op, i.block)) =
      some (.invoke (.arg 0) [.inst 1] 1 1, 1) := by decide +kernel
  obtain ⟨i, hi, heq⟩ := Option.map_eq_some_iff.mp hinvoke
  obtain ⟨hop, hblock⟩ := Prod.mk.inj heq
  have hphi : spinning.insts[1]?.map Inst.op =
      some (.phi [(.ofWord 0 32, 0), (.inst 3, 1), (.ofWord 7 32, 1)]) := by decide +kernel
  obtain ⟨j, hj, hjop⟩ := Option.map_eq_some_iff.mp hphi
  obtain ⟨split, F, hrun, rfl, heffect⟩ := spinning_reachable.splitNormalEdge_effect hverify hi hop
  rw [hblock] at hrun heffect
  have hentry := heffect.entry? (by decide +kernel)
  have hjF := heffect.phi 1 j _ hj hjop (by decide +kernel)
  exact ⟨spinning_reachable, hverify, _, F, hrun, rfl, heffect.successors_source,
    heffect.predecessors_block, hentry.trans rfl, _, hjF, rfl⟩

end Func

end PtrTag
