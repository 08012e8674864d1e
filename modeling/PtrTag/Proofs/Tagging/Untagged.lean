import PtrTag.Proofs.Func.Reachable
import PtrTag.Proofs.Tagging.Run

/-!
# `PtrTag/Proofs/Tagging/Untagged.lean` — where no flag is set, nothing changes

A function is run on pointers of any kind, and most of them carry no flag. Then tagging must not be
seen: every value comes out as before, and a copy as the pointer that it was made from. This is a
simulation between the function and its tagged form, proved for one step by induction on the depth of
an instruction (`TagStep.untagged`), and for a run by induction on its steps (`TagRun.untagged`).
-/

set_option autoImplicit false

namespace PtrTag

namespace Func

variable {s : Scheme} {L : Layout} {globals : List String} {f f' F : Func} {env : Env}
  {gep r : InstId} {outs : Outcomes}

/-- Instruction `gep` has no value, or one with the flag clear. -/
def Untagged (f : Func) (s : Scheme) (L : Layout) (env : Env) (gep : InstId) : Prop :=
  ∀ o, f.eval L env (.inst gep) = .ok o → o.getLsbD s.flagBit = false

instance : Decidable (f.Untagged s L env gep) :=
  match h : f.eval L env (.inst gep) with
  | .ok o => decidable_of_iff (o.getLsbD s.flagBit = false)
      ⟨fun hclear _ ho => Except.ok.inj (h.symm.trans ho) ▸ hclear, fun hall => hall o h⟩
  | .error _ => isTrue fun _ ho => nomatch h.symm.trans ho

/-- A copy of a pointer without the flag is the pointer. -/
theorem TagLaw.untagged {ρ : InstId → Except EvalStop Word} {ty : Ty} {g : Gep}
    (h : TagLaw s L F env ρ gep r ty g)
    (hclear : ∀ o, ρ gep = .ok o → o.getLsbD s.flagBit = false) : Agree (ρ gep) (ρ r) := by
  intro x
  constructor
  · intro hx
    exact h.clear x hx (hclear x hx)
  · intro hx
    obtain ⟨o, ho⟩ := h.defined.mp ⟨x, hx⟩
    obtain rfl : x = o := Except.ok.inj (hx.symm.trans (h.clear o ho (hclear o ho)))
    exact ho

namespace TagStep

/-- The equations of the new function give the law of the copy. -/
theorem law_values (h : TagStep s L f gep r f') (hf : f.Coherent) (hacyclic : f.Acyclic) {i : Inst}
    {g : Gep} (hi : f.insts[gep]? = some i) (hop : i.op = .gep g) (env : Env) :
    TagLaw s L f' env (f'.values L env) gep r i.ty g := by
  have hsolves := (h.acyclic hf hacyclic).solves h.coherent L env
  have hself : gep ∉ i.op.uses := hacyclic.notMem_uses hi (by rw [hop]; rfl)
  exact h.law env _ i g hi hop hself (fun j _ => hsolves j) (hsolves gep)

/-- Tagging a pointer without the flag changes no value, and the copy is the pointer. -/
theorem untagged (h : TagStep s L f gep r f') (hf : f.Coherent) (hacyclic : f.Acyclic) {i : Inst}
    {g : Gep} (hi : f.insts[gep]? = some i) (hop : i.op = .gep g) (hclear : f.Untagged s L env gep) :
    (∀ j < f.insts.size, Agree (f.values L env j) (f'.values L env j)) ∧
      Agree (f.values L env gep) (f'.values L env r) := by
  have hlaw := h.law_values hf hacyclic hi hop env
  have hcopy : Agree (f.values L env gep) (f'.values L env gep) →
      Agree (f.values L env gep) (f'.values L env r) := fun hgep =>
    hgep.trans (hlaw.untagged fun o ho => hclear o ((hgep o).mpr ho))
  have hsolves := hacyclic.solves hf L env
  have hsolves' := (h.acyclic hf hacyclic).solves h.coherent L env
  obtain ⟨rank, hrank, -⟩ := hacyclic.exists_rank hf
  -- The induction is on the measure of an instruction: its operands have smaller ones.
  have hsame : ∀ n, ∀ j < f.insts.size, rank j < n →
      Agree (f.values L env j) (f'.values L env j) := by
    intro n
    induction n with
    | zero => exact fun j _ hn => absurd hn (Nat.not_lt_zero _)
    | succ n ih =>
      intro j hj hn
      obtain ⟨ij, hij⟩ := exists_inst hj
      obtain ⟨ij', hij', -⟩ := h.kept j ij hij
      refine (hsolves j ij hij).trans (.trans ?_ (hsolves' j ij' hij').symm)
      refine h.continues.computed hf hij hij' fun hpure k hk => ?_
      have hlt : rank k < n :=
        Nat.lt_of_lt_of_le (hrank j k ⟨ij, hij, hpure, hk⟩) (Nat.le_of_lt_succ hn)
      have hagree := ih k ((hf.inRange j ij hij).lt_of_mem_uses hk) hlt
      by_cases hkgep : k = gep
      · subst hkgep
        rw [Function.update_self]
        exact hcopy hagree
      · rw [Function.update_of_ne hkgep]
        exact hagree
  have hall : ∀ j < f.insts.size, Agree (f.values L env j) (f'.values L env j) := fun j hj =>
    hsame (rank j + 1) j hj (Nat.lt_succ_self _)
  exact ⟨hall, hcopy (hall gep (lt_of_inst hi))⟩

end TagStep

/-- A run over pointers without the flag changes no value, and the copies are the pointers. -/
theorem TagRun.untagged (h : TagRun s L globals f outs F) (hf : f.Coherent) (hacyclic : f.Acyclic)
    (hold : ∀ k ∈ outs.map Prod.fst, k < f.insts.size)
    (hclear : ∀ gep r constant split, (gep, .tagged r constant split) ∈ outs →
      f.Untagged s L env gep) :
    (∀ j < f.insts.size, Agree (f.values L env j) (F.values L env j)) ∧
      ∀ gep r constant split, (gep, .tagged r constant split) ∈ outs →
        Agree (f.values L env gep) (F.values L env r) := by
  induction h with
  | done f => exact ⟨fun j _ => Agree.refl _, fun _ _ _ _ hm => absurd hm List.not_mem_nil⟩
  | skip _ _ ih =>
    rw [List.map_cons, List.forall_mem_cons] at hold
    obtain ⟨hsame, hcopies⟩ := ih hf hacyclic hold.2 fun gep r constant split hm =>
      hclear gep r constant split (List.mem_cons_of_mem _ hm)
    refine ⟨hsame, fun gep r constant split hm => ?_⟩
    rcases List.mem_cons.mp hm with heq | hm
    · cases heq
    · exact hcopies gep r constant split hm
  | tag due step rest ih =>
    rw [List.map_cons, List.forall_mem_cons] at hold
    obtain ⟨i, g, hi, hop⟩ := gep_of_skipReason due
    obtain ⟨hsame₁, hcopy⟩ := step.untagged hf hacyclic hi hop
      (hclear _ _ _ _ List.mem_cons_self)
    -- The pointers that are still to come have the values that they had at the start.
    obtain ⟨hsame₂, hcopies⟩ := ih step.coherent (step.acyclic hf hacyclic)
      (fun k hk => Nat.lt_trans (hold.2 k hk) step.size_lt)
      fun gep r constant split hm o ho => by
        have hlt := hold.2 gep (List.mem_map_of_mem hm)
        exact hclear gep r constant split (List.mem_cons_of_mem _ hm) o ((hsame₁ gep hlt o).mpr ho)
    refine ⟨fun j hj => (hsame₁ j hj).trans (hsame₂ j (Nat.lt_trans hj step.size_lt)),
      fun gep r constant split hm => ?_⟩
    rcases List.mem_cons.mp hm with heq | hm
    · cases heq
      obtain ⟨-, i', -, hi', -⟩ := step.copy
      exact hcopy.trans (hsame₂ _ (lt_of_inst hi'))
    · have hlt := hold.2 gep (List.mem_map_of_mem hm)
      exact (hsame₁ gep hlt).trans (hcopies gep r constant split hm)

/-! ## Whole functions -/

/-- If no pointer that a successful run tagged carries the flag, every value of the function comes out
as before, and every copy as the pointer that it was made from. -/
theorem Reachable.tag_untagged (h : f.Reachable) (hacyclic : f.Acyclic) (hs : s.validate = .ok ())
    (hrun : (f.tag s L globals).result = .ok outs)
    (hclear : ∀ gep r constant split, (gep, .tagged r constant split) ∈ outs →
      f.Untagged s L env gep) :
    let F := (f.tag s L globals).state
    (∀ v, f.HasValue v → ∀ x, F.eval L env v = .ok x ↔ f.eval L env v = .ok x) ∧
      ∀ gep r constant split, (gep, .tagged r constant split) ∈ outs →
        ∀ x, F.eval L env (.inst r) = .ok x ↔ f.eval L env (.inst gep) = .ok x := by
  intro F
  have hf := h.coherent
  obtain ⟨hsteps, hall⟩ := tagRun_of_tag hs hf hrun
  have hold : ∀ k ∈ outs.map Prod.fst, k < f.insts.size := fun k hk =>
    lt_of_mem_geps (hall ▸ hk)
  obtain ⟨hsame, hcopies⟩ := hsteps.untagged hf hacyclic hold hclear
  obtain ⟨σ, hσ, -⟩ := hsteps.continues
  constructor
  · intro v hv x
    have hvalue : Agree (f.evalValue L env (f.values L env) v)
        (F.evalValue L env (F.values L env) (v.rename id)) := by
      refine evalValue_agree hσ.params fun j hj => hsame j ?_
      subst hj
      exact hv
    rw [Value.rename_id] at hvalue
    exact (hvalue x).symm
  · intro gep r constant split hm x
    exact (hcopies gep r constant split hm x).symm

/-- One pointer comes from memory, so it has no value. Another is cut to 32 bits and loses the flag
of its base. -/
def narrowed : Func :=
  (fresh "f" .void [⟨"p", .ptr⟩, ⟨"n", .int 64⟩]).mutate
    [.addBlock "entry",
      .append 0 { op := .load (.arg 0), ty := .ptr },
      .append 0 { op := .gep ⟨.int 32, .inst 0, [.ofWord 1 64], false⟩, ty := .ptr },
      .append 0 { op := .gep ⟨.int 8, .arg 0, [.arg 1], false⟩, ty := .int 32 },
      .append 0 { op := .gep ⟨.int 64, .inst 2, [.ofWord (-1) 32], false⟩, ty := .ptr },
      .append 0 { op := .icmp .ult (.inst 3) (.inst 2), ty := .int 1 },
      .append 0 { op := .ret none, ty := .void }]

theorem narrowed_untagged :
    let outs := [(1, .tagged 12 true false), (2, .tagged 20 false false),
      (3, .tagged 27 true false)]
    let F := (narrowed.tag {} .lp64 []).state
    let env : Env := { args := [0x1000000001000, 7] }
    narrowed.Reachable ∧ narrowed.Acyclic ∧ Scheme.validate {} = .ok () ∧
      (narrowed.tag {} .lp64 []).result = .ok outs ∧
      (∀ gep ∈ outs.map Prod.fst, narrowed.Untagged {} .lp64 env gep) ∧
      narrowed.HasValue (.inst 4) ∧ F.eval .lp64 env (.inst 4) = .ok 1 ∧
      F.eval .lp64 env (.inst 20) = .ok 0x1007 ∧ ∀ x, F.eval .lp64 env (.inst 12) ≠ .ok x := by
  intro outs F env
  have hreachable : narrowed.Reachable := (Reachable.fresh _ _ _).mutate _
  have hacyclic : narrowed.Acyclic := acyclic_of_uses_lt (by decide +kernel)
  have hs : Scheme.validate {} = .ok () := by decide
  have hrun : (narrowed.tag {} .lp64 []).result = .ok outs := by decide +kernel
  have hclear : ∀ gep ∈ outs.map Prod.fst, narrowed.Untagged {} .lp64 env gep := by decide +kernel
  have hvalue : narrowed.HasValue (.inst 4) := by
    show 4 < narrowed.insts.size
    decide +kernel
  obtain ⟨hsame, hcopies⟩ := hreachable.tag_untagged hacyclic hs hrun
    fun gep _ _ _ hm => hclear gep (List.mem_map_of_mem hm)
  refine ⟨hreachable, hacyclic, hs, hrun, hclear, hvalue, ?_, ?_, fun x hx => ?_⟩
  · rw [hsame _ hvalue]
    decide +kernel
  · rw [hcopies 2 20 false false (by decide)]
    decide +kernel
  · rw [hcopies 1 12 true false (by decide)] at hx
    have hnone : (narrowed.eval .lp64 env (.inst 1)).toOption = none := by decide +kernel
    simp [hx, Except.toOption] at hnone

end Func

end PtrTag
