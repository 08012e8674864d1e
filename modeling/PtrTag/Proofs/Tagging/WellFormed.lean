import PtrTag.Proofs.Func.Enrich
import PtrTag.Proofs.Func.Reachable
import PtrTag.Proofs.Tagging.Step

/-!
# `PtrTag/Proofs/Tagging/WellFormed.lean` — a run leaves control flow alone

Tagging puts code into blocks and gives instructions other operands. It never makes, splits or joins a
block, so a well-formed function stays well formed and its graph is what it was. This holds of every
function that a run can leave behind: also of one in which it stopped half-way, and whatever the bit
positions and names of the scheme are.

The argument is about single edits. Code goes before the instruction behind an address computation. In
a well-formed block that is never a phi, because phis come first and an address computation is none;
so each piece of arithmetic that is put there leaves the function intact (`Func.Intact`), and so does
every operand that is changed afterwards.
-/

set_option autoImplicit false

namespace PtrTag

namespace Edit

open Func

variable {f f₁ : Func}

/-! ## Single edits -/

theorem keepsArith_openAt (f : Func) (anchor : InstId) : KeepsArith (f.OpenAt anchor) anchor := by
  intro op ty name harith f₁ h
  refine after_insertBefore h fun i pos hi hpos hop => ?_
  have hgrows : f₁.Grows (fun _ => True) anchor
      (f₁.place ⟨op, ty, name.filter (· != "")⟩ i.block pos) :=
    h.intact.coherent.grows_place hi hpos hop fun _ _ => trivial
  refine h.grow hgrows (outline_place _ _ _) fun id j hle hj => ?_
  rcases place_cases hop hj with ⟨-, rfl⟩ | ⟨-, j₀, hj₀, -⟩
  · exact harith
  · exact absurd (lt_of_inst hj₀) (Nat.not_lt.mpr hle)

theorem intact_redirect (hf : f.Coherent) {user gone : InstId} {u : Inst} {repl : Value}
    (hu : f.insts[user]? = some u) (hrepl : f.HasValue repl) :
    f.Intact (f.redirect user gone repl (u.op.uses.count gone)) := by
  obtain ⟨insts, heq, hsize⟩ := f.redirect_eq user gone repl (u.op.uses.count gone)
  refine intact_of_same_blocks hf (coherent_redirect hf hu hrepl gone) (by rw [heq]; rfl)
    (by rw [heq]) (by rw [heq]; exact hsize) fun j i hi => ?_
  rw [getElem?_redirect, hi]
  by_cases hj : user = j
  · exact ⟨_, .subst gone repl, rfl, if_pos hj⟩
  · exact ⟨_, id, rfl, (if_neg hj).trans (Op.mapOperands_id i.op).symm⟩

theorem keeps_intact_replaceUses (f : Func) (user gone : InstId) (repl : Value) :
    Keeps f.Intact (replaceUses user gone repl) := by
  intro f₁ h
  exact after_replaceUses h fun u hu hrepl => h.trans (intact_redirect h.coherent hu hrepl)

theorem intact_marked (hf : f.Coherent) {id : InstId} {i : Inst} (hi : f.insts[id]? = some i)
    (change : Marks → Marks) :
    f.Intact (f.modifyInst id fun inst => { inst with marks := change inst.marks }) := by
  refine intact_of_same_blocks hf (hf.modifyInst hi rfl rfl rfl (hf.inRange id i hi)) rfl rfl
    (size_modifyInst _ _) fun j k hk => ?_
  rw [getElem?_modifyInst, hk]
  by_cases hj : id = j
  · exact ⟨_, _, if_pos hj, (Op.mapOperands_id k.op).symm⟩
  · exact ⟨_, _, if_neg hj, (Op.mapOperands_id k.op).symm⟩

theorem keeps_intact_mark (f : Func) (id : InstId) (change : Marks → Marks) :
    Keeps f.Intact (mark id change) := by
  intro f₁ h
  refine Keeps.after_ask_bind h fun i hi => ?_
  rw [inst_eq_ok_iff] at hi
  exact h.trans (intact_marked h.coherent hi change)

/-! ## Tagging one address computation -/

/-- Behind an address computation there is no phi, if phis come first. -/
theorem openAt_next (h : f.Intact f₁) {gep next : InstId} {i : Inst} {g : Gep} {pre post : List InstId}
    (hi : f₁.insts[gep]? = some i) (hop : i.op = .gep g)
    (hsplit : f₁.instsOf i.block = pre ++ gep :: next :: post) : f.OpenAt next f₁ := by
  refine ⟨h, fun hphis hnext => ?_⟩
  have hfirst := h.phisFirst hphis i.block (h.coherent.mem_order.mpr (h.coherent.block_lt hi))
  rw [hsplit] at hfirst
  have hrest := (List.pairwise_append.mp hfirst).2.1
  have hphi := (List.pairwise_cons.mp hrest).1 next List.mem_cons_self hnext
  obtain ⟨i', hi', hphi⟩ := holds_iff.mp hphi
  obtain rfl : i = i' := Option.some.inj (hi.symm.trans hi')
  rw [hop] at hphi
  exact Bool.noConfusion hphi

theorem keeps_intact_tagGep (f : Func) (s : Scheme) (L : Layout) (globals : List String)
    (gep : InstId) : Keeps f.Intact (tagGep s L globals gep) := by
  intro f₁ h
  refine Keeps.after_ask_bind h fun why hwhy => ?_
  cases why with
  | some why => exact h
  | none =>
    obtain ⟨i, g, hi, hop⟩ := gep_of_skipReason hwhy
    refine Keeps.after_ask_bind h fun _ _ => ?_
    refine Keeps.after_ask_bind h fun i' hi' => ?_
    refine Keeps.after_ask_bind h fun users _ => ?_
    obtain ⟨pre, post, hsplit⟩ := List.append_of_mem (h.coherent.mem_instsOf_block hi)
    have hsite := (siteAfter_gep hi hop).trans (siteBehind_eq h.coherent hsplit)
    cases post with
    | nil =>
      rw [after_bind_of_error hsite]
      exact h
    | cons next post =>
      rw [after_bind_of_ok hsite]
      have hopen := openAt_next h hi hop hsplit
      refine Keeps.after_bind ((keepsArith_openAt f next).emitTagged s L gep i'.ty i'.name f₁ hopen)
        (fun _ hq => hq.intact) fun (r, constant) f' hq => ?_
      exact ((Keeps.replaceUsesIn (fun user => keeps_intact_replaceUses f user _ _) _).bind fun _ =>
        (keeps_intact_mark f _ _).bind fun _ => Keeps.pure _) f' hq.intact

theorem split_of_siteBehind {id : InstId} {b : BlockId} {site : Site} {f' : Func}
    (h : siteBehind id b f = .ok site f') : site.split = none := by
  obtain ⟨block, -, h⟩ := ok_of_ask_bind h
  obtain ⟨before, -, h⟩ := ok_of_ask_bind h
  cases h
  rfl

/-- An address computation is no invoke, so no edge has to be split to tag it. -/
theorem edgesSplit_of_tagGep {s : Scheme} {L : Layout} {globals : List String} {gep : InstId}
    {outcome : Outcome} {f' : Func} (h : tagGep s L globals gep f = .ok outcome f') :
    outcome.tally.edgesSplit = 0 := by
  obtain ⟨why, hwhy, h⟩ := ok_of_ask_bind h
  cases why with
  | some why =>
    cases h
    cases why <;> rfl
  | none =>
    obtain ⟨i, g, hi, hop⟩ := gep_of_skipReason hwhy
    obtain ⟨-, -, h⟩ := ok_of_ask_bind h
    obtain ⟨i', -, h⟩ := ok_of_ask_bind h
    obtain ⟨users, -, h⟩ := ok_of_ask_bind h
    obtain ⟨site, f₁, hsite, h⟩ := ok_of_bind h
    rw [siteAfter_gep hi hop] at hsite
    have hsplit := split_of_siteBehind hsite
    obtain ⟨⟨r, constant⟩, f₂, -, h⟩ := ok_of_bind h
    obtain ⟨-, f₃, -, h⟩ := ok_of_bind h
    obtain ⟨-, f₄, -, h⟩ := ok_of_bind h
    cases h
    simp [Outcome.tally, hsplit]

end Edit

namespace Func

variable {s : Scheme} {L : Layout} {globals : List String}

theorem edgesSplit_tagEach {geps : List InstId} {f : Func} {outs : Outcomes}
    (h : (tagEach s L globals geps f).result = .ok outs) : outs.tally.edgesSplit = 0 := by
  induction geps generalizing f outs with
  | nil =>
    obtain rfl : [] = outs := Except.ok.inj h
    rfl
  | cons gep geps ih =>
    obtain ⟨outcome, f', rest, hone, hrest, rfl, -⟩ := ok_of_tagEach_cons h
    show outcome.tally.edgesSplit + rest.tally.edgesSplit = 0
    rw [Edit.edgesSplit_of_tagGep hone, ih hrest]

theorem edgesSplit_tag {f : Func} {outs : Outcomes} (h : (f.tag s L globals).result = .ok outs) :
    outs.tally.edgesSplit = 0 := by
  rw [tagEach_of_tag h] at h
  exact edgesSplit_tagEach h

theorem intact_tag (s : Scheme) (L : Layout) (globals : List String) {f : Func} (hf : f.Coherent) :
    f.Intact (f.tag s L globals).state :=
  keeps_tag (Edit.keeps_intact_tagGep f s L globals) (.refl hf)

/-! ## A whole run -/

/-- The blocks that the phi at `id` names; an instruction that is no phi names none. -/
def phiEdges? (f : Func) (id : InstId) : Option (List BlockId) :=
  (f.insts[id]?.filter (·.op.isPhi)).map (·.op.incomingBlocks)

theorem Enriches.phiEdges? {f f' : Func} (h : f.Enriches f') (id : InstId) :
    f'.phiEdges? id = f.phiEdges? id := by
  unfold Func.phiEdges?
  cases hi : f.insts[id]? with
  | some i =>
    obtain ⟨i', φ, hi', hop⟩ := h.kept id i hi
    rw [hi']
    simp only [Option.filter_some, hop, Op.formTest_isPhi.mapOperands]
    by_cases hphi : i.op.isPhi
    · simp [hphi, hop]
    · simp [hphi]
  | none =>
    have hle : f.insts.size ≤ id := Array.getElem?_eq_none_iff.mp hi
    cases hi' : f'.insts[id]? with
    | none => rfl
    | some i' => simp [Op.formTest_isPhi.arith _ (h.added id i' hle hi')]

/-- A run over a well-formed function leaves a well-formed function, also if it fails, whatever the
scheme. Blocks, their names and their edges are as before, every phi names the blocks that it named,
and no edge was split. -/
theorem Reachable.tag_wellFormed {f : Func} (h : f.Reachable) (hverify : f.verify = .ok ())
    (s : Scheme) (L : Layout) (globals : List String) :
    let F := (f.tag s L globals).state
    F.verify = .ok () ∧ F.order = f.order ∧ F.entry? = f.entry? ∧ (∀ b, F.label? b = f.label? b) ∧
      (∀ b, F.successors b = f.successors b) ∧ (∀ b, F.predecessors b = f.predecessors b) ∧
        (∀ id, F.phiEdges? id = f.phiEdges? id) ∧
          ∀ outs, (f.tag s L globals).result = .ok outs → outs.tally.edgesSplit = 0 := by
  intro F
  have hintact : f.Intact F := intact_tag s L globals h.coherent
  have he := hintact.enriches
  refine ⟨hintact.verify h.coherent hverify, he.order, ?_, label?_eq_of_outline he.outline,
    he.successors, he.predecessors, he.phiEdges?, fun outs hrun => edgesSplit_tag hrun⟩
  unfold entry?
  rw [he.order]

/-- A pointer that walks through an array: a loop whose phi is fed by the second of two address
computations in a row, right before the branch back. -/
def walk : Func :=
  (fresh "f" .void [⟨"p", .ptr⟩, ⟨"n", .int 64⟩, ⟨"again", .int 1⟩]).mutate
    [.addBlock "entry", .addBlock "loop", .addBlock "exit",
      .append 0 { op := .br 1, ty := .void },
      .append 1 { op := .phi [(.arg 0, 0)], ty := .ptr, name := some "q" },
      .append 1 { op := .gep ⟨.int 32, .inst 1, [.arg 1], false⟩, ty := .ptr, name := some "next" },
      .append 1 { op := .gep ⟨.int 32, .inst 2, [.ofWord 1 64], false⟩, ty := .ptr },
      .append 1 { op := .condBr (.arg 2) 1 2, ty := .void },
      .addIncoming 1 (.inst 3) 1,
      .append 2 { op := .ret none, ty := .void }]

theorem walk_reachable : walk.Reachable := (Reachable.fresh _ _ _).mutate _

theorem walk_wellFormed :
    let F := (walk.tag {} .lp64 []).state
    walk.Reachable ∧ walk.verify = .ok () ∧ walk.insts.size = 6 ∧ F.insts.size = 22 ∧
      F.verify = .ok () ∧ F.order = [0, 1, 2] ∧ F.predecessors 1 = [0, 1] ∧
        F.phiEdges? 1 = some [0, 1] := by
  intro F
  have hverify : walk.verify = .ok () := by decide +kernel
  obtain ⟨hverify', horder, -, -, -, hpreds, hphis, -⟩ :=
    walk_reachable.tag_wellFormed hverify {} .lp64 []
  refine ⟨walk_reachable, hverify, by decide +kernel, by decide +kernel, hverify', ?_, ?_, ?_⟩
  · exact horder.trans (by decide +kernel)
  · exact (hpreds 1).trans (by decide +kernel)
  · exact (hphis 1).trans (by decide +kernel)

end Func

end PtrTag
