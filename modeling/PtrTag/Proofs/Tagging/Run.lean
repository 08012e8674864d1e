import PtrTag.Proofs.Tagging.Step

/-!
# `PtrTag/Proofs/Tagging/Run.lean` — runs as sequences of steps

A run over a function that succeeds is a sequence of steps, one for each address computation: it was
skipped, or tagged. What holds after a run is proved by induction on the sequence, from what one step
does. What the run does to the function is the same for every scheme (`Func.Spliced`); what the copies
are is said for valid schemes (`Func.TagRun`).

Seen from any point of a run, the rest of it renames results and types them as before
(`Func.Continues`): each pointer that is still to be tagged gives way to its copy, and nothing else
moves. Equations of instructions that stay in place can therefore be read in the function as it was
when they were emitted.
-/

set_option autoImplicit false

namespace PtrTag

/-! ## Where uses go -/

/-- Where the uses of a result go in a run: those of a tagged pointer go to its copy. -/
def Outcomes.moved : Outcomes → InstId → InstId
  | [] => id
  | (gep, .tagged r _ _) :: outs => Outcomes.moved outs ∘ Function.update id gep r
  | (_, .skipped _) :: outs => Outcomes.moved outs

/-- The pointers that a run tagged, in the order in which it met them. -/
def Outcomes.tagged : Outcomes → List InstId
  | [] => []
  | (gep, .tagged ..) :: outs => gep :: Outcomes.tagged outs
  | (_, .skipped _) :: outs => Outcomes.tagged outs

namespace Outcomes

variable {outs : Outcomes}

theorem mem_tagged {gep : InstId} : gep ∈ outs.tagged ↔
    ∃ r constant split, (gep, .tagged r constant split) ∈ outs := by
  induction outs with
  | nil => simp [tagged]
  | cons out outs ih =>
    obtain ⟨head, outcome⟩ := out
    cases outcome with
    | tagged r constant split =>
      rw [tagged, List.mem_cons, ih]
      constructor
      · rintro (rfl | ⟨q, c, p, hmem⟩)
        · exact ⟨r, constant, split, List.mem_cons_self⟩
        · exact ⟨q, c, p, List.mem_cons_of_mem _ hmem⟩
      · rintro ⟨q, c, p, hmem⟩
        rcases List.mem_cons.mp hmem with heq | hmem
        · exact .inl (congrArg Prod.fst heq)
        · exact .inr ⟨q, c, p, hmem⟩
    | skipped why =>
      rw [tagged, ih]
      simp only [List.mem_cons, Prod.mk.injEq, reduceCtorEq, and_false, false_or]

theorem mem_of_mem_tagged {gep : InstId} (h : gep ∈ outs.tagged) : gep ∈ outs.map Prod.fst := by
  obtain ⟨r, constant, split, hmem⟩ := mem_tagged.mp h
  exact List.mem_map.mpr ⟨_, hmem, rfl⟩

theorem moved_of_not_tagged {j : InstId} (h : j ∉ outs.tagged) : outs.moved j = j := by
  induction outs with
  | nil => rfl
  | cons out outs ih =>
    obtain ⟨gep, outcome⟩ := out
    cases outcome with
    | tagged r constant split =>
      show moved outs (Function.update id gep r j) = j
      rw [Function.update_of_ne (List.ne_of_not_mem_cons h)]
      exact ih (List.not_mem_of_not_mem_cons h)
    | skipped why => exact ih h

theorem moved_of_notMem {j : InstId} (h : j ∉ outs.map Prod.fst) : outs.moved j = j :=
  moved_of_not_tagged fun hm => h (mem_of_mem_tagged hm)

theorem moved_of_mem {gep r : InstId} {constant split : Bool} (hnodup : (outs.map Prod.fst).Nodup)
    (hr : r ∉ outs.map Prod.fst) (h : (gep, .tagged r constant split) ∈ outs) :
    outs.moved gep = r := by
  induction outs with
  | nil => exact absurd h List.not_mem_nil
  | cons out outs ih =>
    rw [List.map_cons, List.nodup_cons] at hnodup
    rcases List.mem_cons.mp h with rfl | hmem
    · show moved outs (Function.update id gep r gep) = r
      rw [Function.update_self]
      exact moved_of_notMem (List.not_mem_of_not_mem_cons hr)
    · obtain ⟨head, outcome⟩ := out
      have hne : gep ≠ head := by
        rintro rfl
        exact hnodup.1 (List.mem_map.mpr ⟨_, hmem, rfl⟩)
      have hrest := ih hnodup.2 (List.not_mem_of_not_mem_cons hr) hmem
      cases outcome with
      | tagged q _ _ =>
        show moved outs (Function.update id head q gep) = r
        rw [Function.update_of_ne hne]
        exact hrest
      | skipped why => exact hrest

end Outcomes

namespace Func

variable {s : Scheme} {L : Layout} {f f' F : Func} {gep r : InstId}

/-! ## Steps keep a function acyclic -/

/-- The code behind `gep` fits between the pointer and its users. Old measures are stretched by `K` to
make room, and the new instructions, from `n` on, count up from the measure of the pointer. -/
def stretched (rank : InstId → Nat) (gep : InstId) (n K : Nat) (j : InstId) : Nat :=
  if j < n then K * rank j else K * rank gep + (j - n + 1)

section Stretched

variable {rank : InstId → Nat} {n K : Nat} {j k : InstId}

theorem stretched_old (h : j < n) : stretched rank gep n K j = K * rank j := if_pos h

theorem stretched_new (h : n ≤ j) : stretched rank gep n K j = K * rank gep + (j - n + 1) :=
  if_neg (Nat.not_lt.mpr h)

theorem mul_add_le_of_lt {a b : Nat} (h : a < b) : K * a + K ≤ K * b :=
  calc K * a + K = K * (a + 1) := (Nat.mul_succ K a).symm
    _ ≤ K * b := Nat.mul_le_mul_left K h

/-- A new instruction counts less than anything that counted more than the pointer. -/
theorem stretched_new_lt (hk : rank gep < rank k) (hn : n ≤ j) (hj : j < K) :
    stretched rank gep n (K + 1) j < (K + 1) * rank k := by
  rw [stretched_new hn]
  have hroom : j - n + 1 < K + 1 := Nat.succ_lt_succ (Nat.lt_of_le_of_lt (Nat.sub_le j n) hj)
  exact Nat.lt_of_lt_of_le (Nat.add_lt_add_left hroom _) (mul_add_le_of_lt hk)

end Stretched

theorem Splices.size_lt (h : Splices f gep r f') : f.insts.size < f'.insts.size := by
  obtain ⟨-, i', -, hi', -⟩ := h.copy
  exact Nat.lt_of_le_of_lt h.fresh (lt_of_inst hi')

theorem Splices.ranked (h : Splices f gep r f') (hf : f.Coherent) {rank : InstId → Nat}
    (hrank : f.Ranked rank) :
    f'.Ranked (stretched rank gep f.insts.size (f'.insts.size + 1)) := by
  rintro j k ⟨i', hi', hpure, huse⟩
  by_cases hj : j < f.insts.size
  · obtain ⟨i, hi⟩ := exists_inst hj
    obtain ⟨i'', hi'', hop, -⟩ := h.kept j i hi
    obtain rfl : i' = i'' := Option.some.inj (hi'.symm.trans hi'')
    rw [hop, Op.isPure_mapOperands] at hpure
    rw [hop, Op.mem_uses_rename] at huse
    obtain ⟨k₀, hk₀, rfl⟩ := huse
    have hlt : rank k₀ < rank j := hrank j k₀ ⟨i, hi, hpure, hk₀⟩
    rw [stretched_old hj]
    by_cases hk : k₀ = gep
    · -- A user of the pointer now uses the copy.
      subst hk
      obtain ⟨-, ir, -, hir, -⟩ := h.copy
      rw [Function.update_self]
      exact stretched_new_lt hlt h.fresh (lt_of_inst hir)
    · rw [Function.update_of_ne hk, id_eq, stretched_old ((hf.inRange j i hi).lt_of_mem_uses hk₀)]
      exact Nat.mul_lt_mul_of_pos_left hlt (Nat.succ_pos _)
  · have hj := Nat.not_lt.mp hj
    obtain ⟨hkj, hdep⟩ := h.added j i' hj hi' k huse
    rw [stretched_new hj]
    rcases hdep with hk | rfl | hk
    · rw [stretched_new hk]
      exact Nat.add_lt_add_left (Nat.succ_lt_succ (Nat.sub_lt_sub_right hk hkj)) _
    · obtain ⟨i, -, hi, -⟩ := h.copy
      rw [stretched_old (lt_of_inst hi)]
      omega
    · -- What the pointer is computed from counts less than the pointer.
      have hlt := hrank gep k hk
      obtain ⟨i, hi, -, huse⟩ := hk
      rw [stretched_old ((hf.inRange gep i hi).lt_of_mem_uses huse)]
      exact Nat.lt_add_right _ (Nat.mul_lt_mul_of_pos_left hlt (Nat.succ_pos _))

theorem Splices.acyclic (h : Splices f gep r f') (hf : f.Coherent) (hacyclic : f.Acyclic) :
    f'.Acyclic := by
  obtain ⟨rank, hrank, -⟩ := hacyclic.exists_rank hf
  exact (h.ranked hf hrank).acyclic

/-! ## What the rest of a run does to the instructions that are there -/

/-- The function `F` has the instructions of `f`, with their operands renamed by `σ`, and maybe
more of them. A renamed result has the type of the result that it stands for. -/
structure Continues (σ : InstId → InstId) (f F : Func) : Prop where
  params : F.params = f.params
  size : f.insts.size ≤ F.insts.size
  kept : ∀ (j : InstId) (i : Inst), f.insts[j]? = some i → ∃ i', F.insts[j]? = some i' ∧
    i'.op = i.op.mapOperands (Value.rename σ) ∧ i'.ty = i.ty
  typed : ∀ (j : InstId) (i : Inst), f.insts[j]? = some i →
    ∃ i', F.insts[σ j]? = some i' ∧ i'.ty = i.ty

namespace Continues

variable {f₁ : Func} {σ τ : InstId → InstId}

theorem refl (f : Func) : Continues id f f where
  params := rfl
  size := Nat.le_refl _
  kept := fun j i hi => by
    refine ⟨i, hi, ?_, rfl⟩
    rw [Op.mapOperands_eq_self fun v _ => Value.rename_id v]
  typed := fun j i hi => ⟨i, hi, rfl⟩

theorem trans (h₁ : Continues σ f f₁) (h₂ : Continues τ f₁ F) : Continues (τ ∘ σ) f F where
  params := h₂.params.trans h₁.params
  size := h₁.size.trans h₂.size
  kept := fun j i hi => by
    obtain ⟨i₁, hi₁, hop₁, hty₁⟩ := h₁.kept j i hi
    obtain ⟨i₂, hi₂, hop₂, hty₂⟩ := h₂.kept j i₁ hi₁
    refine ⟨i₂, hi₂, ?_, hty₂.trans hty₁⟩
    rw [hop₂, hop₁, Op.mapOperands_mapOperands]
    exact congrArg i.op.mapOperands (funext (Value.rename_rename σ τ))
  typed := fun j i hi => by
    obtain ⟨i₁, hi₁, hty₁⟩ := h₁.typed j i hi
    obtain ⟨i₂, hi₂, hty₂⟩ := h₂.typed (σ j) i₁ hi₁
    exact ⟨i₂, hi₂, hty₂.trans hty₁⟩

/-- The type of an operand is the type of what it is renamed to. -/
theorem valueType (h : Continues σ f F) {v : Value} (hv : f.HasValue v) :
    F.valueType (v.rename σ) = f.valueType v :=
  valueType_rename h.params h.typed hv

/-- An instruction comes to the same in both functions, if the valuations agree along the
renaming. -/
theorem computed (h : Continues σ f F) (hf : f.Coherent) {env : Env}
    {ρ ρ' : InstId → Except EvalStop Word} {j : InstId} {i i' : Inst} (hi : f.insts[j]? = some i)
    (hi' : F.insts[j]? = some i')
    (hρ : i.op.isPure → ∀ k ∈ i.op.uses, Agree (ρ k) (ρ' (σ k))) :
    Agree (f.computed L env ρ j i) (F.computed L env ρ' j i') := by
  obtain ⟨i'', hi'', hop, hty⟩ := h.kept j i hi
  obtain rfl : i' = i'' := Option.some.inj (hi'.symm.trans hi'')
  exact computed_agree h.params j j hop hty
    (fun v hv => h.valueType ((hf.inRange j i hi).operands v hv)) hρ

/-- What solves an equation of the later function solves, read along the renaming, that of the
earlier one, if the result keeps its name. -/
theorem solvesAt (h : Continues σ f F) (hf : f.Coherent) {env : Env}
    {ρ : InstId → Except EvalStop Word} {j : InstId} (hfix : σ j = j)
    (hsolves : F.SolvesAt L env ρ j) : f.SolvesAt L env (fun k => ρ (σ k)) j := by
  intro i hi
  obtain ⟨i', hi', -⟩ := h.kept j i hi
  show Agree (ρ (σ j)) _
  rw [hfix]
  exact (hsolves i' hi').trans (h.computed hf hi hi' fun _ k _ => Agree.refl _).symm

end Continues

theorem Splices.continues (h : Splices f gep r f') :
    Continues (Function.update id gep r) f f' where
  params := h.params
  size := Nat.le_of_lt h.size_lt
  kept := fun j i hi => by
    obtain ⟨i', hi', hop, hty, -⟩ := h.kept j i hi
    exact ⟨i', hi', hop, hty⟩
  typed := fun j i hi => by
    by_cases hj : j = gep
    · subst hj
      obtain ⟨i₀, i', hi₀, hi', hty, -⟩ := h.copy
      obtain rfl : i = i₀ := Option.some.inj (hi.symm.trans hi₀)
      rw [Function.update_self]
      exact ⟨i', hi', hty⟩
    · obtain ⟨i', hi', -, hty, -⟩ := h.kept j i hi
      rw [Function.update_of_ne hj]
      exact ⟨i', hi', hty⟩

/-! ## Runs -/

/-- A run from `f` to `F` in which the listed address computations were met in turn, as far as the
function goes. -/
inductive Spliced : Func → Outcomes → Func → Prop
  | done (f : Func) : Spliced f [] f
  | skip {f F : Func} {gep : InstId} {why : Skip} {outs : Outcomes} (rest : Spliced f outs F) :
      Spliced f ((gep, .skipped why) :: outs) F
  | tag {f f₁ F : Func} {gep r : InstId} {constant split : Bool} {outs : Outcomes}
      (step : Splices f gep r f₁) (rest : Spliced f₁ outs F) :
      Spliced f ((gep, .tagged r constant split) :: outs) F

namespace Spliced

variable {outs : Outcomes}

theorem coherent (h : Spliced f outs F) (hf : f.Coherent) : F.Coherent := by
  induction h with
  | done f => exact hf
  | skip _ ih => exact ih hf
  | tag step _ ih => exact ih step.coherent

theorem acyclic (h : Spliced f outs F) (hf : f.Coherent) (hacyclic : f.Acyclic) : F.Acyclic := by
  induction h with
  | done f => exact hacyclic
  | skip _ ih => exact ih hf hacyclic
  | tag step _ ih => exact ih step.coherent (step.acyclic hf hacyclic)

/-- A run renames the pointers that it tags. -/
theorem continues_moved (h : Spliced f outs F) : Continues outs.moved f F := by
  induction h with
  | done f => exact Continues.refl f
  | skip _ ih => exact ih
  | tag step _ ih => exact step.continues.trans ih

/-- Copies are new. -/
theorem size_le_of_mem (h : Spliced f outs F) {constant split : Bool}
    (hmem : (gep, .tagged r constant split) ∈ outs) : f.insts.size ≤ r := by
  induction h with
  | done f => exact absurd hmem List.not_mem_nil
  | skip _ ih =>
    rcases List.mem_cons.mp hmem with heq | hmem
    · cases heq
    · exact ih hmem
  | tag step _ ih =>
    rcases List.mem_cons.mp hmem with heq | hmem
    · cases heq
      exact step.fresh
    · exact (Nat.le_of_lt step.size_lt).trans (ih hmem)

/-- A pointer that is tagged is renamed to its copy. No run renames that again: it goes through
instructions that were there before. -/
theorem moved_eq (h : Spliced f outs F) (hnodup : (outs.map Prod.fst).Nodup)
    (hold : ∀ k ∈ outs.map Prod.fst, k < f.insts.size) {constant split : Bool}
    (hmem : (gep, .tagged r constant split) ∈ outs) : outs.moved gep = r := by
  have hnew : r ∉ outs.map Prod.fst := fun hm => Nat.not_lt.mpr (h.size_le_of_mem hmem) (hold r hm)
  exact Outcomes.moved_of_mem hnodup hnew hmem

end Spliced

/-- A run from `f` to `F` in which the listed address computations were met in turn. -/
inductive TagRun (s : Scheme) (L : Layout) (globals : List String) :
    Func → Outcomes → Func → Prop
  | done (f : Func) : TagRun s L globals f [] f
  | skip {f F : Func} {gep : InstId} {why : Skip} {outs : Outcomes}
      (reason : f.skipReason s globals gep = .ok (some why)) (rest : TagRun s L globals f outs F) :
      TagRun s L globals f ((gep, .skipped why) :: outs) F
  | tag {f f₁ F : Func} {gep r : InstId} {outs : Outcomes}
      (due : f.skipReason s globals gep = .ok none) (step : TagStep s L f gep r f₁)
      (rest : TagRun s L globals f₁ outs F) :
      TagRun s L globals f ((gep, .tagged r (f.offsetFixed L gep) false) :: outs) F

namespace TagRun

variable {globals : List String} {outs : Outcomes}

theorem spliced (h : TagRun s L globals f outs F) : Spliced f outs F := by
  induction h with
  | done f => exact .done f
  | skip _ _ ih => exact .skip ih
  | tag _ step _ ih => exact .tag step.toSplices ih

theorem coherent (h : TagRun s L globals f outs F) (hf : f.Coherent) : F.Coherent :=
  h.spliced.coherent hf

theorem acyclic (h : TagRun s L globals f outs F) (hf : f.Coherent) (hacyclic : f.Acyclic) :
    F.Acyclic :=
  h.spliced.acyclic hf hacyclic

/-- A run renames only the pointers that it meets. -/
theorem continues (h : TagRun s L globals f outs F) :
    ∃ σ, Continues σ f F ∧ ∀ j, j ∉ outs.map Prod.fst → σ j = j :=
  ⟨outs.moved, h.spliced.continues_moved, fun _ => Outcomes.moved_of_notMem⟩

theorem moved_eq (h : TagRun s L globals f outs F) (hnodup : (outs.map Prod.fst).Nodup)
    (hold : ∀ k ∈ outs.map Prod.fst, k < f.insts.size) {constant split : Bool}
    (hmem : (gep, .tagged r constant split) ∈ outs) : outs.moved gep = r :=
  h.spliced.moved_eq hnodup hold hmem

end TagRun

/-! ## Every run is such a sequence -/

theorem nodup_geps (hf : f.Coherent) : f.geps.Nodup := hf.nodup_instructions.filter _

theorem exists_of_mem_geps (h : gep ∈ f.geps) : ∃ i g, f.insts[gep]? = some i ∧ i.op = .gep g := by
  obtain ⟨i, hi, hgep⟩ := holds_iff.mp (List.mem_filter.mp h).2
  cases hop : i.op with
  | gep g => exact ⟨i, g, hi, hop⟩
  | _ => simp [hop, Op.isGep] at hgep

theorem lt_of_mem_geps (h : gep ∈ f.geps) : gep < f.insts.size := by
  obtain ⟨i, -, hi, -⟩ := exists_of_mem_geps h
  exact lt_of_inst hi

/-- What a pass over a list of address computations comes to. It goes through a part of the list, and
either gets to the end or stops at a fault, in the state in which it met that address computation. -/
def Passes (s : Scheme) (L : Layout) (globals : List String) (f : Func) (geps : List InstId)
    (pass : Trace Func Fault Outcomes) : Prop :=
  ∃ outs, TagRun s L globals f outs pass.state ∧
    ((pass.result = .ok outs ∧ outs.map Prod.fst = geps) ∨
      ∃ e gep rest, pass.result = .error e ∧ geps = outs.map Prod.fst ++ gep :: rest ∧
        Edit.tagGep s L globals gep pass.state = .error e pass.state)

variable {globals : List String} {geps : List InstId}

theorem passes_tagEach_of_error {e : Fault} (h : Edit.tagGep s L globals gep f = .error e f) :
    Passes s L globals f (gep :: geps) (tagEach s L globals (gep :: geps) f) := by
  refine ⟨[], ?_, .inr ⟨e, gep, geps, ?_⟩⟩
  · simp only [tagEach, h]
    exact .done f
  · simp only [tagEach, h, List.map_nil, List.nil_append, and_self]

theorem passes_tagEach_of_ok {outcome : Outcome}
    (h : Edit.tagGep s L globals gep f = .ok outcome f')
    (hrest : Passes s L globals f' geps (tagEach s L globals geps f'))
    (hstep : ∀ {outs F}, TagRun s L globals f' outs F →
      TagRun s L globals f ((gep, outcome) :: outs) F) :
    Passes s L globals f (gep :: geps) (tagEach s L globals (gep :: geps) f) := by
  obtain ⟨outs, hrun, hend⟩ := hrest
  refine ⟨(gep, outcome) :: outs, ?_, ?_⟩
  · simp only [tagEach, h]
    exact hstep hrun
  · simp only [tagEach, h]
    rcases hend with ⟨hresult, hall⟩ | ⟨e, stop, rest, hresult, hsplit, hfault⟩
    · exact .inl ⟨by rw [hresult]; rfl, by rw [List.map_cons, hall]⟩
    · exact .inr ⟨e, stop, rest, by rw [hresult]; rfl, by rw [hsplit]; rfl, hfault⟩

theorem passes_tagEach (hs : s.validate = .ok ()) (hf : f.Coherent) (geps : List InstId) :
    Passes s L globals f geps (tagEach s L globals geps f) := by
  induction geps generalizing f with
  | nil => exact ⟨[], .done f, .inl ⟨rfl, rfl⟩⟩
  | cons gep geps ih =>
    rcases Edit.tagGep_cases (Scheme.inWord_of_validate hs) hf with
      ⟨e, -, hrun⟩ | ⟨why, hskip, hrun⟩ | ⟨hdue, hcases⟩
    · exact passes_tagEach_of_error hrun
    · exact passes_tagEach_of_ok hrun (ih hf) (.skip hskip)
    rcases hcases with ⟨e, -, hrun⟩ | ⟨-, -, hrun⟩ | ⟨-, -, r, f', hrun, hstep⟩
    · exact passes_tagEach_of_error hrun
    · exact passes_tagEach_of_error hrun
    · exact passes_tagEach_of_ok hrun (ih hstep.coherent) (.tag hdue hstep)

/-- A run that succeeds goes through all the address computations of the function. -/
theorem tagRun_of_tag (hs : s.validate = .ok ()) (hf : f.Coherent) {outs : Outcomes}
    (h : (f.tag s L globals).result = .ok outs) :
    TagRun s L globals f outs (f.tag s L globals).state ∧ outs.map Prod.fst = f.geps := by
  have heq : f.tag s L globals = tagEach s L globals f.geps f := tagEach_of_tag h
  rw [heq] at h ⊢
  have hpasses : Passes s L globals f f.geps (tagEach s L globals f.geps f) :=
    passes_tagEach hs hf f.geps
  obtain ⟨outs', hrun, ⟨hresult, hall⟩ | ⟨e, gep, rest, hresult, -⟩⟩ := hpasses
  · obtain rfl : outs = outs' := Except.ok.inj (h.symm.trans hresult)
    exact ⟨hrun, hall⟩
  · cases h.symm.trans hresult

theorem spliced_of_tagEach (hf : f.Coherent) {outs : Outcomes}
    (h : (tagEach s L globals geps f).result = .ok outs) :
    Spliced f outs (tagEach s L globals geps f).state ∧ outs.map Prod.fst = geps := by
  induction geps generalizing f outs with
  | nil =>
    obtain rfl : [] = outs := Except.ok.inj h
    exact ⟨.done f, rfl⟩
  | cons gep geps ih =>
    obtain ⟨outcome, f', rest, hone, hrest, rfl, hstate⟩ := ok_of_tagEach_cons h
    rw [hstate, List.map_cons]
    rcases Edit.tagGep_cases rfl hf with ⟨e, -, hrun⟩ | ⟨why, -, hrun⟩ | ⟨-, hcases⟩
    · cases hone.symm.trans hrun
    · cases hone.symm.trans hrun
      obtain ⟨hspliced, hall⟩ := ih hf hrest
      exact ⟨.skip hspliced, congrArg _ hall⟩
    rcases hcases with ⟨e, -, hrun⟩ | ⟨-, -, hrun⟩ | ⟨-, -, r, f₁, hrun, hstep⟩
    · cases hone.symm.trans hrun
    · cases hone.symm.trans hrun
    · cases hone.symm.trans hrun
      obtain ⟨hspliced, hall⟩ := ih hstep.coherent hrest
      exact ⟨.tag hstep.toSplices hspliced, congrArg _ hall⟩

/-- Whatever the scheme, a run that succeeds has put a copy behind each pointer that it tagged. -/
theorem spliced_of_tag (hf : f.Coherent) {outs : Outcomes}
    (h : (f.tag s L globals).result = .ok outs) :
    Spliced f outs (f.tag s L globals).state ∧ outs.map Prod.fst = f.geps := by
  have heq : f.tag s L globals = tagEach s L globals f.geps f := tagEach_of_tag h
  rw [heq] at h ⊢
  exact spliced_of_tagEach hf h

end Func

end PtrTag
