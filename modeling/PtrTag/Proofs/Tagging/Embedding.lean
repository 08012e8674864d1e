import PtrTag.Proofs.Func.Reachable
import PtrTag.Proofs.Tagging.Run

/-!
# `PtrTag/Proofs/Tagging/Embedding.lean` — the copy of a pointer carries its displacement

The law of a tagged copy (`Func.TagLaw`) is proved of the function as it is right after the copy was
made. The rest of the run tags more pointers, and puts their copies into the operands of code that
stands already. The law survives that (`TagLaw.continue`), so it holds of the function that a run
leaves behind, for every pointer that the run tagged.
-/

set_option autoImplicit false

namespace PtrTag

theorem Value.isNormal_rename {σ : InstId → InstId} {v : Value} :
    (v.rename σ).IsNormal ↔ v.IsNormal := by
  cases v <;> rfl

namespace Func

variable {s : Scheme} {L : Layout} {globals : List String} {f F : Func} {env : Env}
  {gep r : InstId} {outs : Outcomes}

/-! ## What the rest of a run leaves of the law -/

theorem TagLaw.continue {σ : InstId → InstId} {ρ : InstId → Except EvalStop Word} {ty : Ty}
    {g g' : Gep} (h : TagLaw s L f env (fun k => ρ (σ k)) gep r ty g) (hc : Continues σ f F)
    (hgep : σ gep = gep) (hr : σ r = r)
    (hg : Op.gep g' = (Op.gep g).mapOperands (Value.rename σ)) :
    TagLaw s L F env ρ gep r ty g' := by
  obtain ⟨hdefined, hclear, hset⟩ := h
  rw [hgep, hr] at *
  obtain rfl := Op.gep.inj hg
  have hbase : Agree (f.evalValue L env (fun k => ρ (σ k)) g.base)
      (F.evalValue L env ρ (g.base.rename σ)) :=
    evalValue_agree hc.params fun j _ => Agree.refl _
  refine ⟨hdefined, hclear, fun o b hty hbits hnormal ho hb => ?_⟩
  refine hset o b hty hbits (fun v hv => ?_) ho ((hbase b).mpr hb)
  exact Value.isNormal_rename.mp (hnormal _ (List.mem_map_of_mem hv))

/-- The law holds once the pointer has been tagged and the rest of the run is over. -/
theorem TagStep.law_after {f₁ : Func} (hstep : TagStep s L f gep r f₁)
    (hrun : TagRun s L globals f₁ outs F) (hf : f.Coherent) (hacyclic : f.Acyclic)
    (hgep : gep ∉ outs.map Prod.fst) (hold : ∀ k ∈ outs.map Prod.fst, k < f.insts.size)
    {i : Inst} {g : Gep} (hi : f.insts[gep]? = some i) (hop : i.op = .gep g) :
    ∃ i' g', F.insts[gep]? = some i' ∧ i'.op = .gep g' ∧
      TagLaw s L F env (F.values L env) gep r i'.ty g' := by
  obtain ⟨σ, hσ, hfix⟩ := hrun.continues
  have hsolves := (hrun.acyclic hstep.coherent (hstep.acyclic hf hacyclic)).solves
    (hrun.coherent hstep.coherent) L env
  -- What the step emitted is never tagged itself, so the rest of the run leaves it in place.
  have hnew : ∀ k, f.insts.size ≤ k → σ k = k := fun k hk =>
    hfix k fun hm => Nat.not_lt.mpr hk (hold k hm)
  have hself : gep ∉ i.op.uses := hacyclic.notMem_uses hi (by rw [hop]; rfl)
  have hlaw := hstep.law env (fun k => F.values L env (σ k)) i g hi hop hself
    (fun k hk => hσ.solvesAt hstep.coherent (hnew k hk) (hsolves k))
    (hσ.solvesAt hstep.coherent (hfix gep hgep) (hsolves gep))
  obtain ⟨i₁, hi₁, hop₁, hty₁, -⟩ := hstep.kept gep i hi
  obtain ⟨i', hi', hop', hty'⟩ := hσ.kept gep i₁ hi₁
  have hop₁ : i₁.op = .gep g := by
    rw [hop₁, ← hop, ← funext (Value.subst_inst gep r)]
    exact Op.mapOperands_subst_of_notMem hself
  rw [hop₁] at hop'
  refine ⟨i', _, hi', hop', ?_⟩
  rw [hty', hty₁]
  exact hlaw.continue hσ (hfix gep hgep) (hnew r hstep.fresh) rfl

/-- At the end of a run, the law holds for each pointer that was tagged. -/
theorem TagRun.law (h : TagRun s L globals f outs F) (hf : f.Coherent) (hacyclic : f.Acyclic)
    (hnodup : (outs.map Prod.fst).Nodup) (hold : ∀ k ∈ outs.map Prod.fst, k < f.insts.size)
    {constant split : Bool} (hmem : (gep, .tagged r constant split) ∈ outs) :
    ∃ i g, F.insts[gep]? = some i ∧ i.op = .gep g ∧
      TagLaw s L F env (F.values L env) gep r i.ty g := by
  induction h with
  | done f => exact absurd hmem List.not_mem_nil
  | skip _ _ ih =>
    rw [List.map_cons, List.nodup_cons] at hnodup
    rw [List.map_cons, List.forall_mem_cons] at hold
    rcases List.mem_cons.mp hmem with heq | hmem
    · cases heq
    · exact ih hf hacyclic hnodup.2 hold.2 hmem
  | tag due step rest ih =>
    rw [List.map_cons, List.nodup_cons] at hnodup
    rw [List.map_cons, List.forall_mem_cons] at hold
    rcases List.mem_cons.mp hmem with heq | hmem
    · cases heq
      obtain ⟨i, g, hi, hop⟩ := gep_of_skipReason due
      exact step.law_after rest hf hacyclic hnodup.1 hold.2 hi hop
    · exact ih step.coherent (step.acyclic hf hacyclic) hnodup.2
        (fun k hk => Nat.lt_trans (hold.2 k hk) step.size_lt) hmem

/-! ## The law of a whole run -/

/-- In the function that a successful run leaves behind, the copy of a tagged pointer has a value
exactly if the pointer has one. If the flag of the pointer is clear, it is the same value, and if the
flag is set, the displacement from the base is added to it from bit `offsetShift` on. -/
theorem Reachable.tag_embeds (h : f.Reachable) (hacyclic : f.Acyclic) (hs : s.validate = .ok ())
    (hrun : (f.tag s L globals).result = .ok outs) {constant split : Bool}
    (hmem : (gep, .tagged r constant split) ∈ outs) (env : Env) :
    let F := (f.tag s L globals).state
    ∃ i g, F.insts[gep]? = some i ∧ i.op = .gep g ∧
      ((∃ w, F.eval L env (.inst r) = .ok w) ↔ ∃ o, F.eval L env (.inst gep) = .ok o) ∧
      (i.ty = .ptr → L.pointerBits ≤ 64 → (∀ v ∈ g.indices, v.IsNormal) →
        ∀ o b, F.eval L env (.inst gep) = .ok o → F.eval L env g.base = .ok b →
          F.eval L env (.inst r) = .ok (if o.getLsbD s.flagBit then
            Word.low (o + ((o - b) <<< s.offsetShift)) L.pointerBits else o)) := by
  intro F
  have hf := h.coherent
  obtain ⟨hsteps, hall⟩ := tagRun_of_tag hs hf hrun
  have hnodup : (outs.map Prod.fst).Nodup := hall ▸ nodup_geps hf
  have hold : ∀ k ∈ outs.map Prod.fst, k < f.insts.size := fun k hk =>
    lt_of_mem_geps (hall ▸ hk)
  obtain ⟨i, g, hi, hop, hlaw⟩ := hsteps.law hf hacyclic hnodup hold hmem
  refine ⟨i, g, hi, hop, hlaw.defined, fun hty hbits hnormal o b ho hb => ?_⟩
  cases hflag : o.getLsbD s.flagBit with
  | false => exact hlaw.clear o ho hflag
  | true => exact hlaw.set o b hty hbits hnormal ho hb hflag

/-- The pointer that stands first is derived from the other one, so its base is replaced by a tagged
copy after its own copy was made. -/
def inverted : Func :=
  (fresh "f" .void [⟨"p", .ptr⟩, ⟨"n", .int 64⟩]).mutate
    [.addBlock "entry",
      .append 0 { op := .gep ⟨.int 64, .arg 0, [.ofWord 2 64], false⟩, ty := .ptr },
      .append 0 { op := .ret none, ty := .void },
      .insertBefore 0 { op := .gep ⟨.int 32, .inst 0, [.arg 1], false⟩, ty := .ptr }]

theorem inverted_reachable : inverted.Reachable := (Reachable.fresh _ _ _).mutate _

theorem inverted_acyclic : inverted.Acyclic := acyclic_of_uses_lt (by decide +kernel)

theorem inverted_embeds :
    let outs := [(2, .tagged 11 false false), (0, .tagged 18 true false)]
    let F := (inverted.tag {} .lp64 []).state
    let env : Env := { args := [0x1000000001000, 3] }
    inverted.Reachable ∧ inverted.Acyclic ∧ Scheme.validate {} = .ok () ∧
      (inverted.tag {} .lp64 []).result = .ok outs ∧ (2, .tagged 11 false false) ∈ outs ∧
      F.eval .lp64 env (.inst 18) = .ok 0x21000000001010 ∧
      F.eval .lp64 env (.inst 2) = .ok 0x2100000000101c ∧
      F.eval .lp64 env (.inst 11) = .ok 0x3900000000101c := by
  intro outs F env
  have hs : Scheme.validate {} = .ok () := by decide
  have hrun : (inverted.tag {} .lp64 []).result = .ok outs := by decide +kernel
  have hmem : (2, .tagged 11 false false) ∈ outs := List.mem_cons_self
  have hb : F.eval .lp64 env (.inst 18) = .ok 0x21000000001010 := by decide +kernel
  have ho : F.eval .lp64 env (.inst 2) = .ok 0x2100000000101c := by decide +kernel
  refine ⟨inverted_reachable, inverted_acyclic, hs, hrun, hmem, hb, ho, ?_⟩
  obtain ⟨i, g, hi, hop, -, hlaw⟩ :=
    inverted_reachable.tag_embeds inverted_acyclic hs hrun hmem env
  have hinst : F.insts[2]?.map (fun i => (i.op, i.ty)) =
      some (.gep ⟨.int 32, .inst 18, [.arg 1], false⟩, .ptr) := by decide +kernel
  rw [hi, Option.map_some, Option.some.injEq, Prod.mk.injEq, hop] at hinst
  obtain ⟨hg, hty⟩ := hinst
  obtain rfl := Op.gep.inj hg
  refine (hlaw hty (by decide) (by decide) _ _ ho hb).trans ?_
  decide +kernel

end Func

end PtrTag
