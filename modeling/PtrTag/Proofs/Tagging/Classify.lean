import PtrTag.Proofs.Tagging.Effect
import PtrTag.Proofs.Tagging.Twice

/-!
# `PtrTag/Proofs/Tagging/Classify.lean` — what a run will do, read off the function before it

A run asks of every address computation whether it is due, and it asks that when its turn comes: of a
function in which operands, names and use lists have been changed by all the steps before. With the
default cues the answer is the one that the function gave at the start (`TagStep.skipReason_kept`). A
copy has the name of its pointer with something at the end, which never makes and never breaks one of
these beginnings.

So everything about a run can be foretold: whether it succeeds, which pointers it tags, why it leaves the
others alone, what its tally is (`Func.forecast`) and, if it fails, at which pointer and for what.
-/

set_option autoImplicit false

namespace PtrTag

theorem constantSum?_rename (σ : InstId → InstId) (terms : List (Step × Value)) :
    constantSum? (terms.map (Prod.map id (Value.rename σ))) = constantSum? terms := by
  induction terms with
  | nil => rfl
  | cons t terms ih =>
    obtain ⟨step, v⟩ := t
    cases step with
    | field offset =>
      show ((constantSum? (terms.map _)).bind _) = (constantSum? terms).bind _
      rw [ih]
    | scaled stride =>
      show ((v.rename σ).asWord?.bind fun w => (constantSum? (terms.map _)).bind _) =
        v.asWord?.bind fun w => (constantSum? terms).bind _
      rw [ih, Value.asWord?_rename]

namespace Func

variable {s : Scheme} {L : Layout} {globals : List String} {f f' F : Func} {gep r j : InstId}
  {i : Inst} {g : Gep} {outs : Outcomes}

/-! ## One step -/

/-- Whether a displacement is a constant does not depend on names of results. -/
theorem Continues.offsetFixed {σ : InstId → InstId} (h : Continues σ f F)
    (hcheck : f.checkGep L j = .ok ()) : F.offsetFixed L j = f.offsetFixed L j := by
  obtain ⟨terms, hterms⟩ := checkGep_eq_ok_iff.mp hcheck
  rw [offsetFixed_of_gepTerms hterms, offsetFixed_of_gepTerms (h.gepTerms hterms), constantSum?_rename]

/-- A step changes nothing about why another address computation is left alone, if its pointer has no
misleading name. -/
theorem TagStep.skipReason_kept (h : TagStep s L f gep r f') (hf : f.Coherent)
    (htell : f.CuesTell s.cues gep) (hplain : f.PlainCopy s.cues gep) (hi : f.insts[j]? = some i)
    (hop : i.op = .gep g) (hne : j ≠ gep) :
    f'.skipReason s globals j = f.skipReason s globals j := by
  obtain ⟨i', hi', hop', hty, -, -, hmarks⟩ := h.kept j i hi
  rw [if_neg hne] at hmarks
  rw [hop] at hop'
  have hrange := hf.inRange j i hi
  rw [hop] at hrange
  have hdispatch : f'.isDispatch s globals i'
      { g with base := g.base.rename (Function.update id gep r),
               indices := g.indices.map (Value.rename (Function.update id gep r)) } =
      f.isDispatch s globals i g := by
    rw [Bool.eq_iff_iff]
    exact ⟨h.isDispatch_back hplain hrange hmarks rfl, h.isDispatch htell hmarks rfl⟩
  rw [skipReason_eq hi' hop', skipReason_eq hi hop, hmarks, hty, hdispatch]
  simp [List.all_map, Function.comp_def]

/-! ## What is foretold -/

/-- The function `f` tells that the address computation `gep` will have this outcome. -/
def Foretells (f : Func) (s : Scheme) (L : Layout) (globals : List String) (gep : InstId) :
    Outcome → Prop
  | .skipped why => f.skipReason s globals gep = .ok (some why)
  | .tagged _ constant split =>
    f.Due s globals gep ∧ constant = f.offsetFixed L gep ∧ split = false

/-- Those of the address computations that are to be tagged. -/
def dueAmong (f : Func) (s : Scheme) (globals : List String) (geps : List InstId) : List InstId :=
  geps.filter (f.Due s globals ·)

theorem mem_dueAmong {geps : List InstId} :
    gep ∈ f.dueAmong s globals geps ↔ gep ∈ geps ∧ f.Due s globals gep := by
  unfold dueAmong
  rw [List.mem_filter, decide_eq_true_iff]

theorem dueAmong_cons_of_due (h : f.Due s globals gep) (geps : List InstId) :
    f.dueAmong s globals (gep :: geps) = gep :: f.dueAmong s globals geps :=
  List.filter_cons_of_pos (p := fun k => decide (f.Due s globals k)) (decide_eq_true h)

theorem dueAmong_cons_of_not_due (h : ¬ f.Due s globals gep) (geps : List InstId) :
    f.dueAmong s globals (gep :: geps) = f.dueAmong s globals geps :=
  List.filter_cons_of_neg (p := fun k => decide (f.Due s globals k)) (by simpa using h)

theorem not_due_of_skipped {why : Skip} (h : f.skipReason s globals gep = .ok (some why)) :
    ¬ f.Due s globals gep := by
  intro hdue
  cases hdue.symm.trans h

/-- The tally of a run over these address computations. -/
def forecast (f : Func) (s : Scheme) (L : Layout) (globals : List String) (geps : List InstId) :
    Tally :=
  let due := f.dueAmong s globals geps
  let left := fun why => geps.countP (f.skipReason s globals · = .ok (some why))
  { candidates := geps.length
    tagged := due.length
    zeroIndex := left .zeroIndex
    dispatch := left .dispatch
    vector := left .vector
    alreadyTagged := left .alreadyTagged
    constantOffsets := due.countP (f.offsetFixed L ·)
    dynamicOffsets := due.countP (!f.offsetFixed L ·) }

theorem forecast_cons (geps : List InstId) {outcome : Outcome}
    (h : f.Foretells s L globals gep outcome) :
    f.forecast s L globals (gep :: geps) = outcome.tally + f.forecast s L globals geps := by
  show _ = Tally.add outcome.tally (f.forecast s L globals geps)
  cases outcome with
  | skipped why =>
    have hskip : f.skipReason s globals gep = .ok (some why) := h
    have hdue := dueAmong_cons_of_not_due (not_due_of_skipped hskip) geps
    cases why <;> simp [forecast, hdue, hskip, Outcome.tally, Tally.add, Nat.add_comm]
  | tagged r constant split =>
    obtain ⟨hskip, rfl, rfl⟩ := h
    have hdue := dueAmong_cons_of_due hskip geps
    cases hfixed : f.offsetFixed L gep <;>
      simp [forecast, hdue, hskip, hfixed, Outcome.tally, Tally.add, Nat.add_comm]

/-- If all outcomes were foretold, so was the tally. -/
theorem tally_eq_forecast (h : ∀ out ∈ outs, f.Foretells s L globals out.1 out.2) :
    outs.tally = f.forecast s L globals (outs.map Prod.fst) := by
  induction outs with
  | nil => rfl
  | cons out outs ih =>
    rw [List.forall_mem_cons] at h
    rw [List.map_cons, forecast_cons _ h.1, ← ih h.2]
    rfl

theorem tagged_eq_dueAmong (h : ∀ out ∈ outs, f.Foretells s L globals out.1 out.2) :
    outs.tagged = f.dueAmong s globals (outs.map Prod.fst) := by
  induction outs with
  | nil => rfl
  | cons out outs ih =>
    rw [List.forall_mem_cons] at h
    obtain ⟨gep, outcome⟩ := out
    cases outcome with
    | tagged r constant split =>
      rw [Outcomes.tagged, ih h.2, List.map_cons, dueAmong_cons_of_due h.1.1]
    | skipped why =>
      rw [Outcomes.tagged, ih h.2, List.map_cons, dueAmong_cons_of_not_due (not_due_of_skipped h.1)]

/-! ## Runs -/

theorem checkCandidate_of_due (h : f.Due s globals gep) :
    f.checkCandidate s L globals gep = f.checkGep L gep := by
  unfold checkCandidate
  rw [h]
  rfl

/-- A step keeps the check of another address computation, and what is foretold after it was foretold
before. -/
theorem TagStep.foretells_back (h : TagStep s L f gep r f') (hf : f.Coherent) (hcues : s.cues = {})
    (hi : f.insts[j]? = some i) (hop : i.op = .gep g) (hne : j ≠ gep)
    (hcheck : f.checkCandidate s L globals j = .ok ()) :
    f'.checkCandidate s L globals j = .ok () ∧
      ∀ outcome, f'.Foretells s L globals j outcome → f.Foretells s L globals j outcome := by
  have hcontinues := h.toSplices.continues
  have hskip : f'.skipReason s globals j = f.skipReason s globals j := by
    refine h.skipReason_kept hf ?_ ?_ hi hop hne
    · rw [hcues]
      exact cuesTell (by decide) (by decide)
    · rw [hcues]
      exact plainCopy_default f gep
  constructor
  · unfold checkCandidate at hcheck ⊢
    rw [hskip]
    obtain ⟨why, hwhy⟩ : ∃ why, f.skipReason s globals j = .ok why := exists_skipReason hi hop
    rw [hwhy] at hcheck ⊢
    cases why with
    | some why => rfl
    | none => exact hcontinues.checkGep hcheck
  · intro outcome hout
    cases outcome with
    | skipped why => exact hskip.symm.trans hout
    | tagged r constant split =>
      obtain ⟨hdue, hconstant, hsplit⟩ := hout
      have hdue : f.Due s globals j := hskip.symm.trans hdue
      rw [checkCandidate_of_due hdue] at hcheck
      exact ⟨hdue, hconstant.trans (hcontinues.offsetFixed hcheck), hsplit⟩

/-- All outcomes of a run that was checked were foretold by the function at its start. -/
theorem TagRun.foretold (h : TagRun s L globals f outs F) (hf : f.Coherent) (hcues : s.cues = {})
    (hnodup : (outs.map Prod.fst).Nodup)
    (hgeps : ∀ k ∈ outs.map Prod.fst, ∃ i g, f.insts[k]? = some i ∧ i.op = .gep g)
    (hcheck : ∀ k ∈ outs.map Prod.fst, f.checkCandidate s L globals k = .ok ()) :
    ∀ out ∈ outs, f.Foretells s L globals out.1 out.2 := by
  induction h with
  | done f => exact fun _ hout => absurd hout List.not_mem_nil
  | skip reason _ ih =>
    simp only [List.map_cons, List.forall_mem_cons, List.nodup_cons] at hnodup hgeps hcheck
    exact List.forall_mem_cons.mpr ⟨reason, ih hf hnodup.2 hgeps.2 hcheck.2⟩
  | @tag f f₁ F gep r outs due step _ ih =>
    simp only [List.map_cons, List.forall_mem_cons, List.nodup_cons] at hnodup hgeps hcheck
    have hback : ∀ k ∈ outs.map Prod.fst, f₁.checkCandidate s L globals k = .ok () ∧
        ∀ outcome, f₁.Foretells s L globals k outcome → f.Foretells s L globals k outcome := by
      intro k hk
      obtain ⟨i, g, hi, hop⟩ := hgeps.2 k hk
      have hne : k ≠ gep := fun he => hnodup.1 (he ▸ hk)
      exact step.foretells_back hf hcues hi hop hne (hcheck.2 k hk)
    have hgeps₁ : ∀ k ∈ outs.map Prod.fst, ∃ i g, f₁.insts[k]? = some i ∧ i.op = .gep g := by
      intro k hk
      obtain ⟨i, g, hi, hop⟩ := hgeps.2 k hk
      obtain ⟨i', hi', hop', -⟩ := step.kept k i hi
      rw [hop] at hop'
      exact ⟨i', _, hi', hop'⟩
    have hrest := ih step.coherent hnodup.2 hgeps₁ fun k hk => (hback k hk).1
    refine List.forall_mem_cons.mpr ⟨⟨due, rfl, rfl⟩, fun out hout => ?_⟩
    exact (hback out.1 (List.mem_map_of_mem hout)).2 out.2 (hrest out hout)

/-! ## Whether a run succeeds -/

/-- In a well-formed function something stands behind every address computation. -/
theorem Coherent.not_isLast (hf : f.Coherent) (hverify : f.verify = .ok ())
    (hi : f.insts[gep]? = some i) (hop : i.op = .gep g) : ¬ f.IsLast gep := by
  rintro ⟨i', hi', hlast⟩
  obtain rfl : i = i' := Option.some.inj (hi.symm.trans hi')
  have hshaped := hf.verify_eq_ok_iff.mp hverify i.block (hf.mem_order.mpr (hf.block_lt hi))
  obtain ⟨i'', hi'', hterm⟩ := holds_iff.mp (hshaped.terminated gep hlast)
  obtain rfl : i = i'' := Option.some.inj (hi.symm.trans hi'')
  rw [hop] at hterm
  cases hterm

/-- After the check, a run over a well-formed function does not fail. -/
theorem exists_ok_of_checked (hs : s.validate = .ok ()) (hcues : s.cues = {}) (hf : f.Coherent)
    (hverify : f.verify = .ok ()) (hcheck : f.geps.forM (f.checkCandidate s L globals) = .ok ()) :
    ∃ outs, (f.tag s L globals).result = .ok outs := by
  rw [tag_of_checked hcheck]
  have hpasses : Passes s L globals f f.geps (tagEach s L globals f.geps f) :=
    passes_tagEach hs hf f.geps
  obtain ⟨outs, hrun, ⟨hresult, -⟩ | ⟨e, gep, rest, -, hsplit, hfault⟩⟩ := hpasses
  · exact ⟨outs, hresult⟩
  · have hgep : gep ∈ f.geps := by
      rw [hsplit]
      exact List.mem_append_right _ List.mem_cons_self
    have hnew : gep ∉ outs.map Prod.fst := by
      have hnodup := nodup_geps hf
      rw [hsplit] at hnodup
      exact fun hm => List.disjoint_of_nodup_append hnodup hm List.mem_cons_self
    have hold : ∀ k ∈ outs.map Prod.fst, k < f.insts.size := by
      intro k hk
      refine lt_of_mem_geps ?_
      rw [hsplit]
      exact List.mem_append_left _ hk
    have htell : ∀ k ∈ outs.map Prod.fst, f.CuesTell s.cues k := by
      intro k _
      rw [hcues]
      exact cuesTell (by decide) (by decide)
    obtain ⟨i, g, hi, hop⟩ := exists_of_mem_geps hgep
    have hlast := hrun.last_of_fault hs hf htell hold hi hop hnew
      (forM_eq_ok_iff.mp hcheck gep hgep) hfault
    exact absurd hlast.2 (hf.not_isLast hverify hi hop)

/-- The check is about what is due and nothing else. -/
theorem checked_iff : f.geps.forM (f.checkCandidate s L globals) = .ok () ↔
    ∀ gep ∈ f.dueAmong s globals f.geps, f.checkGep L gep = .ok () := by
  rw [forM_eq_ok_iff]
  constructor
  · intro hall gep hgep
    obtain ⟨hmem, hdue⟩ := mem_dueAmong.mp hgep
    exact (checkCandidate_of_due hdue).symm.trans (hall gep hmem)
  · intro hall gep hmem
    obtain ⟨i, g, hi, hop⟩ := exists_of_mem_geps hmem
    obtain ⟨why, hwhy⟩ : ∃ why, f.skipReason s globals gep = .ok why := exists_skipReason hi hop
    cases why with
    | some why => exact checkCandidate_of_skipped hwhy
    | none => exact (checkCandidate_of_due hwhy).trans (hall gep (mem_dueAmong.mpr ⟨hmem, hwhy⟩))

/-- It fails at the first address computation that is due and has no displacement. -/
theorem exists_of_check_error {e : Fault}
    (h : f.geps.forM (f.checkCandidate s L globals) = .error e) :
    ∃ pre gep post, f.dueAmong s globals f.geps = pre ++ gep :: post ∧
      (∀ k ∈ pre, f.checkGep L k = .ok ()) ∧ f.checkGep L gep = .error e := by
  obtain ⟨pre, gep, post, hsplit, hpre, hgep⟩ := exists_of_forM_error h
  have hmem : gep ∈ f.geps := by
    rw [hsplit]
    exact List.mem_append_right _ List.mem_cons_self
  obtain ⟨i, g, hi, hop⟩ := exists_of_mem_geps hmem
  obtain ⟨why, hwhy⟩ : ∃ why, f.skipReason s globals gep = .ok why := exists_skipReason hi hop
  cases why with
  | some why => cases (checkCandidate_of_skipped hwhy).symm.trans hgep
  | none =>
    refine ⟨f.dueAmong s globals pre, gep, f.dueAmong s globals post, ?_, fun k hk => ?_, ?_⟩
    · rw [hsplit, ← dueAmong_cons_of_due hwhy]
      exact List.filter_append pre (gep :: post)
    · obtain ⟨hk, hdue⟩ := mem_dueAmong.mp hk
      exact (checkCandidate_of_due hdue).symm.trans (hpre k hk)
    · exact (checkCandidate_of_due hwhy).symm.trans hgep

theorem tag_of_check_error {e : Fault} (h : f.geps.forM (f.checkCandidate s L globals) = .error e) :
    f.tag s L globals = { state := f, events := [], result := .error e } := by
  unfold tag
  rw [h]

/-- A run that succeeds had no outcome that was not foretold. -/
theorem foretold_of_tag (hs : s.validate = .ok ()) (hcues : s.cues = {}) (hf : f.Coherent)
    (hrun : (f.tag s L globals).result = .ok outs) :
    ∀ out ∈ outs, f.Foretells s L globals out.1 out.2 := by
  obtain ⟨hsteps, hall⟩ := tagRun_of_tag hs hf hrun
  have hchecked := forM_eq_ok_iff.mp (checked_of_tag hrun)
  apply hsteps.foretold hf hcues
  · rw [hall]
    exact nodup_geps hf
  · rw [hall]
    exact fun k hk => exists_of_mem_geps hk
  · rw [hall]
    exact hchecked

theorem skipped_mem_iff (h : ∀ out ∈ outs, f.Foretells s L globals out.1 out.2) {why : Skip} :
    (gep, .skipped why) ∈ outs ↔
      gep ∈ outs.map Prod.fst ∧ f.skipReason s globals gep = .ok (some why) := by
  constructor
  · intro hout
    exact ⟨List.mem_map_of_mem hout, h _ hout⟩
  · rintro ⟨hgep, hskip⟩
    obtain ⟨⟨gep, outcome⟩, hout, rfl⟩ := List.mem_map.mp hgep
    have hone := h _ hout
    cases outcome with
    | tagged r constant split => exact absurd hone.1 (not_due_of_skipped hskip)
    | skipped why' =>
      cases hskip.symm.trans hone
      exact hout

/-- With the default cues, all that a run over a well-formed function does is decided by that function.
It succeeds if and only if what is due at the start has a displacement that can be computed. If it
succeeds, it has tagged what was due, has left the rest alone for the reasons that there were at the start,
and has the tally that follows from them. If it fails, it does so for the first displacement that cannot
be computed, and the function is as it was. -/
theorem Reachable.tag_foretold (h : f.Reachable) (hverify : f.verify = .ok ())
    (hs : s.validate = .ok ()) (hcues : s.cues = {}) (L : Layout) (globals : List String) :
    let run := f.tag s L globals
    let due := f.dueAmong s globals f.geps
    ((∃ outs, run.result = .ok outs) ↔ ∀ gep ∈ due, f.checkGep L gep = .ok ()) ∧
      (∀ outs, run.result = .ok outs →
        outs.map Prod.fst = f.geps ∧ outs.tagged = due ∧
          (∀ gep why, (gep, .skipped why) ∈ outs ↔
            gep ∈ f.geps ∧ f.skipReason s globals gep = .ok (some why)) ∧
          outs.tally = f.forecast s L globals f.geps ∧
          ∀ id i, f.insts[id]? = some i → ∃ i', run.state.insts[id]? = some i' ∧
            i'.marks.tagged = (i.marks.tagged || decide (id ∈ due))) ∧
      ∀ e, run.result = .error e → run.state = f ∧ ∃ pre gep post, due = pre ++ gep :: post ∧
        (∀ k ∈ pre, f.checkGep L k = .ok ()) ∧ f.checkGep L gep = .error e := by
  intro run due
  have hf := h.coherent
  refine ⟨⟨?_, ?_⟩, ?_, ?_⟩
  · rintro ⟨outs, hrun⟩
    exact checked_iff.mp (checked_of_tag hrun)
  · intro hall
    exact exists_ok_of_checked hs hcues hf hverify (checked_iff.mpr hall)
  · intro outs hrun
    obtain ⟨hspliced, hall⟩ := spliced_of_tag hf hrun
    have hforetold := foretold_of_tag hs hcues hf hrun
    have htagged : outs.tagged = due := by
      rw [tagged_eq_dueAmong hforetold, hall]
    refine ⟨hall, htagged, fun gep why => ?_, ?_, fun id i hi => ?_⟩
    · rw [← hall]
      exact skipped_mem_iff hforetold
    · rw [tally_eq_forecast hforetold, hall]
    · obtain ⟨i', hi', -, -, hmarks⟩ := hspliced.kept hi
      refine ⟨i', hi', ?_⟩
      rw [hmarks, htagged]
      by_cases hid : id ∈ due
      · simp [hid]
      · simp [hid]
  · intro e hrun
    cases hcheck : f.geps.forM (f.checkCandidate s L globals) with
    | ok u =>
      obtain ⟨outs, hok⟩ := exists_ok_of_checked hs hcues hf hverify hcheck
      cases hok.symm.trans hrun
    | error e' =>
      have heq : run = { state := f, events := [], result := .error e' } := tag_of_check_error hcheck
      rw [heq] at hrun ⊢
      cases hrun
      exact ⟨rfl, exists_of_check_error hcheck⟩

/-- Address computations of every kind. The first one has the empty name and so a copy without a name;
`index` is the index of the last one. -/
def assorted (index : Value) : Func :=
  (fresh "f" .void [⟨"p", .ptr⟩, ⟨"n", .int 64⟩, ⟨"vtable", .ptr⟩]).mutate
    [.addBlock "entry",
      .append 0 { op := .gep ⟨.int 32, .arg 0, [.arg 1], false⟩, ty := .ptr, name := some "" },
      .append 0 { op := .gep ⟨.int 32, .inst 0, [.ofWord 0 64], false⟩, ty := .ptr, name := some "a" },
      .append 0 { op := .gep ⟨.int 32, .inst 0, [.ofWord 1 64], false⟩, ty := .ptr, name := some "vt" },
      .append 0 { op := .gep ⟨.ptr, .arg 2, [.arg 1], false⟩, ty := .ptr, name := some "slot" },
      .append 0 { op := .gep ⟨.int 32, .inst 2, [.arg 1], false⟩, ty := .vector 2 .ptr },
      .append 0 { op := .gep ⟨.int 32, .inst 2, [index], false⟩, ty := .ptr },
      .append 0 { op := .ret none, ty := .void }]

theorem assorted_reachable (index : Value) : (assorted index).Reachable :=
  (Reachable.fresh _ _ _).mutate _

/-- With an integer as the last index the run succeeds, and with a pointer it fails. -/
theorem assorted_foretold :
    let s : Scheme := { flagBit := 3, offsetShift := 60 }
    let good := assorted (.arg 1)
    let bad := assorted (.arg 0)
    good.Reachable ∧ good.verify = .ok () ∧ bad.Reachable ∧ bad.verify = .ok () ∧
      s.validate = .ok () ∧ s.cues = {} ∧
      (∃ outs, (good.tag s .lp64 []).result = .ok outs ∧ outs.tagged = [0, 2, 5] ∧
        (4, .skipped .vector) ∈ outs ∧ outs.tally =
          { candidates := 6, tagged := 3, zeroIndex := 1, dispatch := 1, vector := 1,
            constantOffsets := 1, dynamicOffsets := 2 }) ∧
      (bad.tag s .lp64 []).result = .error (.indexNotInteger .ptr) ∧
        (bad.tag s .lp64 []).state = bad := by
  intro s good bad
  have hgood : good.verify = .ok () := by decide +kernel
  have hbad : bad.verify = .ok () := by decide +kernel
  have herror : (bad.tag s .lp64 []).result = .error (.indexNotInteger .ptr) := by decide +kernel
  obtain ⟨hiff, hok, -⟩ :=
    (assorted_reachable (.arg 1)).tag_foretold (s := s) hgood (by decide) rfl .lp64 []
  obtain ⟨-, -, hfail⟩ :=
    (assorted_reachable (.arg 0)).tag_foretold (s := s) hbad (by decide) rfl .lp64 []
  obtain ⟨outs, hrun⟩ := hiff.mpr (by decide +kernel)
  obtain ⟨-, htagged, hskipped, htally, -⟩ := hok outs hrun
  refine ⟨assorted_reachable _, hgood, assorted_reachable _, hbad, by decide, rfl,
    ⟨outs, hrun, ?_, ?_, ?_⟩, herror, (hfail _ herror).1⟩
  · exact htagged.trans (by decide +kernel)
  · exact (hskipped 4 .vector).mpr (by decide +kernel)
  · exact htally.trans (by decide +kernel)

end Func

end PtrTag
