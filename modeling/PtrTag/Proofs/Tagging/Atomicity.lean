import PtrTag.Proofs.Func.Reachable
import PtrTag.Proofs.Tagging.Run

/-!
# `PtrTag/Proofs/Tagging/Atomicity.lean` — what a run that fails leaves behind

A run checks every address computation that is due before it touches the first of them, so that a
run that fails should leave the function as it was. Two things are not covered by the check.

* **The place.** A pointer that stands last in its block has no place behind it, and that is found
  out only when its turn comes.
* **The names.** What is due is asked once for the check and again when the turn comes, and the
  answer depends on the names of operands. A copy is named after its pointer, so it begins like it;
  but a pointer with the **empty** name has a copy without a name. A scheme that looks for the empty
  beginning finds a dispatch table before the step and none after it, and tags what it never checked.

Both do occur. Outside these two cases a failure changes nothing, because what is due when its turn
comes was due at the start (`TagRun.back`).
-/

set_option autoImplicit false

namespace PtrTag

theorem startsWith_append {lead name : String} (h : startsWith lead name = true) (more : String) :
    startsWith lead (name ++ more) = true := by
  unfold startsWith at *
  rw [List.isPrefixOf_iff_prefix] at *
  rw [String.toList_append]
  exact h.trans (List.prefix_append _ _)

theorem startsWith_empty {lead : String} (h : startsWith lead "" = true) : lead = "" := by
  unfold startsWith at h
  rw [List.isPrefixOf_iff_prefix] at h
  exact String.toList_eq_nil_iff.mp (List.prefix_nil.mp h)

/-- The name of a copy begins like the name of the pointer, unless that is empty. -/
theorem startsWith_derivedName {lead name : String} (hlead : name = "" → lead ≠ "")
    (h : startsWith lead name = true) (suffix : String) :
    (derivedName (some name) suffix).any (startsWith lead) = true := by
  have hne : name ≠ "" := by
    rintro rfl
    exact hlead rfl (startsWith_empty h)
  have hname : derivedName (some name) suffix = some (name ++ "." ++ suffix) := by
    simp [derivedName, Option.filter, hne]
  rw [hname, Option.any_some]
  exact startsWith_append (startsWith_append h ".") suffix

namespace Func

variable {s : Scheme} {L : Layout} {globals : List String} {f f' F : Func} {gep r j : InstId}
  {i : Inst} {g : Gep} {outs : Outcomes}

/-- The address computation `gep` is to be tagged. -/
abbrev Due (f : Func) (s : Scheme) (globals : List String) (gep : InstId) : Prop :=
  f.skipReason s globals gep = .ok none

/-- If `gep` has the empty name, nothing is looked for by an empty beginning. -/
def CuesTell (f : Func) (cues : Cues) (gep : InstId) : Prop :=
  f.valueName? (.inst gep) = some "" → cues.table ≠ "" ∧ cues.virtualBase ≠ ""

instance (f : Func) (cues : Cues) (gep : InstId) : Decidable (f.CuesTell cues gep) :=
  inferInstanceAs (Decidable (_ → _))

theorem skipReason_eq (hi : f.insts[j]? = some i) (hop : i.op = .gep g) :
    f.skipReason s globals j = .ok (if i.marks.tagged then some .alreadyTagged
      else if g.indices.all Value.isZero then some .zeroIndex
      else if f.isDispatch s globals i g then some .dispatch
      else if i.ty.isVector then some .vector
      else none) := by
  have hgep : f.gep j = .ok g := gep_eq_ok_iff.mpr ⟨i, hi, hop⟩
  unfold skipReason
  rw [inst_eq_ok_iff.mpr hi, hgep]
  rfl

theorem exists_skipReason (hi : f.insts[j]? = some i) (hop : i.op = .gep g) :
    ∃ why, f.skipReason s globals j = .ok why :=
  ⟨_, skipReason_eq hi hop⟩

theorem due_iff (hi : f.insts[j]? = some i) (hop : i.op = .gep g) :
    f.Due s globals j ↔ i.marks.tagged = false ∧ g.indices.all Value.isZero = false ∧
      f.isDispatch s globals i g = false ∧ i.ty.isVector = false := by
  unfold Due
  rw [skipReason_eq hi hop, Except.ok.injEq]
  cases i.marks.tagged <;> cases g.indices.all Value.isZero <;>
    cases f.isDispatch s globals i g <;> cases i.ty.isVector <;> simp

/-- The four ways in which an address computation is taken for one into a dispatch table: by its mark,
by the name of its base, by the name of its only index, or by a symbol. -/
theorem isDispatch_iff : f.isDispatch s globals i g = true ↔
    i.marks.dispatch = true ∨ f.nameStartsWith s.cues.table g.base = true ∨
      (∃ index, g.indices = [index] ∧ f.nameStartsWith s.cues.virtualBase index = true) ∨
        ∃ symbol, g.base = .global symbol ∧
          (globals.contains symbol && startsWith s.cues.tableSymbol symbol) = true := by
  unfold isDispatch namesTable
  simp only [Bool.or_eq_true, or_assoc]
  refine or_congr Iff.rfl (or_congr Iff.rfl (or_congr ?_ ?_))
  · cases g.indices with
    | nil => simp
    | cons index rest => cases rest <;> simp
  · cases g.base <;> simp

theorem hasValue_of_nameStartsWith {lead : String} {v : Value}
    (h : f.nameStartsWith lead v = true) : f.HasValue v := by
  cases v with
  | inst k =>
    cases hk : f.insts[k]? with
    | none => simp [nameStartsWith, valueName?, hk] at h
    | some ik => exact lt_of_inst hk
  | arg index =>
    by_contra hlt
    have hnone : f.params[index]? = none := List.getElem?_eq_none (Nat.not_lt.mp hlt)
    simp [nameStartsWith, valueName?, hnone] at h
  | const c => trivial
  | global name => trivial

/-! ## One step -/

namespace TagStep

/-- Names after a step: the copy is named after the pointer, and everything else keeps its name. -/
theorem valueName?_rename (h : TagStep s L f gep r f') {v : Value} (hv : f.HasValue v) :
    f'.valueName? (v.rename (Function.update id gep r)) =
      if v = .inst gep then derivedName (f.valueName? v) "newptr" else f.valueName? v := by
  cases v with
  | inst k =>
    obtain ⟨ik, hik⟩ := exists_inst hv
    by_cases hk : k = gep
    · subst hk
      obtain ⟨i₀, i', hi₀, hi', -, hname'⟩ := h.copy
      obtain rfl : ik = i₀ := Option.some.inj (hik.symm.trans hi₀)
      rw [if_pos rfl, Value.rename_inst, Function.update_self, valueName?, valueName?, hi', hik,
        Option.bind_some, Option.bind_some, hname']
    · obtain ⟨i', hi', -, -, hname', -⟩ := h.kept k ik hik
      rw [if_neg fun he => hk (Value.inst.inj he), Value.rename_inst, Function.update_of_ne hk, id_eq,
        valueName?, valueName?, hi', hik, Option.bind_some, Option.bind_some, hname']
  | arg index => simp [Value.rename, valueName?, h.params]
  | const c => rfl
  | global name => rfl

theorem nameStartsWith (h : TagStep s L f gep r f') {lead : String} {v : Value}
    (hlead : f.valueName? (.inst gep) = some "" → lead ≠ "")
    (hv : f.nameStartsWith lead v = true) :
    f'.nameStartsWith lead (v.rename (Function.update id gep r)) = true := by
  have hvalue := hasValue_of_nameStartsWith hv
  unfold Func.nameStartsWith at hv ⊢
  rw [h.valueName?_rename hvalue]
  by_cases hgep : v = .inst gep
  · subst hgep
    rw [Option.any_eq_true] at hv
    obtain ⟨name, hname, hstarts⟩ := hv
    rw [if_pos rfl, hname]
    exact startsWith_derivedName (fun he => hlead (he ▸ hname)) hstarts "newptr"
  · rw [if_neg hgep]
    exact hv

/-- A step never makes an address computation lose the look of a dispatch table. -/
theorem isDispatch (h : TagStep s L f gep r f') (htell : f.CuesTell s.cues gep) {i' : Inst}
    {g' : Gep} (hmarks : i'.marks = i.marks)
    (hg : Op.gep g' = (Op.gep g).mapOperands (Value.rename (Function.update id gep r)))
    (hd : f.isDispatch s globals i g = true) : f'.isDispatch s globals i' g' = true := by
  obtain rfl := Op.gep.inj hg
  rw [isDispatch_iff] at hd ⊢
  rw [hmarks]
  rcases hd with hd | hd | ⟨index, hindices, hd⟩ | ⟨symbol, hbase, hd⟩
  · exact .inl hd
  · exact .inr (.inl (h.nameStartsWith (fun hblank => (htell hblank).1) hd))
  · refine .inr (.inr (.inl ⟨_, congrArg (List.map _) hindices, ?_⟩))
    exact h.nameStartsWith (fun hblank => (htell hblank).2) hd
  · exact .inr (.inr (.inr ⟨symbol, congrArg (Value.rename _) hbase, hd⟩))

/-- What is due after a step was due before it. -/
theorem due_back (h : TagStep s L f gep r f') (htell : f.CuesTell s.cues gep)
    (hi : f.insts[j]? = some i) (hop : i.op = .gep g) (hne : j ≠ gep)
    (hdue : f'.Due s globals j) : f.Due s globals j := by
  obtain ⟨i', hi', hop', hty, -, -, hmarks⟩ := h.kept j i hi
  rw [if_neg hne] at hmarks
  rw [hop] at hop'
  obtain ⟨htagged, hzero, hdispatch, hvector⟩ := (due_iff hi' hop').mp hdue
  rw [hmarks] at htagged
  rw [hty] at hvector
  refine (due_iff hi hop).mpr ⟨htagged, ?_, ?_, hvector⟩
  · simpa [List.all_map, Function.comp_def] using hzero
  · by_contra hd
    rw [Bool.not_eq_false] at hd
    rw [h.isDispatch htell hmarks rfl hd] at hdispatch
    exact Bool.noConfusion hdispatch

theorem isLast_back (h : TagStep s L f gep r f') (hj : j < f.insts.size) (hlast : f'.IsLast j) :
    f.IsLast j := by
  obtain ⟨i, hi⟩ := exists_inst hj
  obtain ⟨i', hi', -, -, -, hblock, -⟩ := h.kept j i hi
  obtain ⟨i'', hi'', hend⟩ := hlast
  obtain rfl : i' = i'' := Option.some.inj (hi'.symm.trans hi'')
  exact ⟨i, hi, by rw [← h.last, ← hblock]; exact hend⟩

end TagStep

/-! ## Whole runs -/

namespace TagRun

/-- A run that met nothing that was due at the start has changed nothing. -/
theorem eq_of_not_due (h : TagRun s L globals f outs F)
    (hnone : ∀ k ∈ outs.map Prod.fst, ¬ f.Due s globals k) : F = f := by
  induction h with
  | done f => rfl
  | skip _ _ ih =>
    rw [List.map_cons, List.forall_mem_cons] at hnone
    exact ih hnone.2
  | tag due _ _ _ =>
    rw [List.map_cons, List.forall_mem_cons] at hnone
    exact absurd due hnone.1

/-- An address computation that is due when its turn comes, or stands last in its block, did so at the
start of the run. -/
theorem back (h : TagRun s L globals f outs F)
    (htell : ∀ k ∈ outs.map Prod.fst, f.CuesTell s.cues k)
    (hold : ∀ k ∈ outs.map Prod.fst, k < f.insts.size) (hi : f.insts[j]? = some i)
    (hop : i.op = .gep g) (hj : j ∉ outs.map Prod.fst) :
    (F.Due s globals j → f.Due s globals j) ∧ (F.IsLast j → f.IsLast j) := by
  induction h generalizing i g with
  | done f => exact ⟨id, id⟩
  | skip _ _ ih =>
    rw [List.map_cons, List.forall_mem_cons] at htell hold
    exact ih htell.2 hold.2 hi hop (List.not_mem_of_not_mem_cons hj)
  | tag _ step _ ih =>
    rw [List.map_cons, List.forall_mem_cons] at htell hold
    obtain ⟨i', hi', hop', -⟩ := step.kept j i hi
    rw [hop] at hop'
    -- Old instructions keep their names, so the cues tell of the pointers that are still to come.
    have htell' : ∀ k ∈ _, Func.CuesTell _ s.cues k := fun k hk hblank => by
      obtain ⟨ik, hik⟩ := exists_inst (hold.2 k hk)
      obtain ⟨ik', hik', -, -, hname, -⟩ := step.kept k ik hik
      refine htell.2 k hk ?_
      rw [valueName?, hik', Option.bind_some, hname] at hblank
      rw [valueName?, hik, Option.bind_some, hblank]
    obtain ⟨hdue, hlast⟩ := ih htell' (fun k hk => Nat.lt_trans (hold.2 k hk) step.size_lt) hi' hop'
      (List.not_mem_of_not_mem_cons hj)
    exact ⟨fun hd => step.due_back htell.1 hi hop (List.ne_of_not_mem_cons hj) (hdue hd),
      fun hl => step.isLast_back (lt_of_inst hi) (hlast hl)⟩

end TagRun

/-- The rest of a run keeps the types of indices, so the terms of a displacement stay good. -/
theorem Continues.gepTerms {σ : InstId → InstId} (h : Continues σ f F) {terms : List (Step × Value)}
    (hterms : f.gepTerms L j = .ok terms) :
    F.gepTerms L j = .ok (terms.map (Prod.map id (Value.rename σ))) := by
  obtain ⟨g, steps, hgep, hindices, hsteps, rfl⟩ := gepTerms_eq_ok_iff.mp hterms
  obtain ⟨i, hi, hop⟩ := gep_eq_ok_iff.mp hgep
  obtain ⟨i', hi', hop', -⟩ := h.kept j i hi
  rw [hop] at hop'
  refine gepTerms_eq_ok_iff.mpr ⟨_, steps, gep_eq_ok_iff.mpr ⟨i', hi', hop'⟩, fun v hv => ?_, ?_, ?_⟩
  · obtain ⟨v₀, hv₀, rfl⟩ := List.mem_map.mp hv
    obtain ⟨bits, htype, hbits⟩ := checkIndex_eq_ok_iff.mp (hindices v₀ hv₀)
    refine checkIndex_eq_ok_iff.mpr ⟨bits, ?_, hbits⟩
    rw [h.valueType (hasValue_of_valueType htype), htype]
  · rw [Layout.steps_rename]
    exact hsteps
  · rw [List.zip_map_right]

theorem Continues.checkGep {σ : InstId → InstId} (h : Continues σ f F)
    (hcheck : f.checkGep L j = .ok ()) : F.checkGep L j = .ok () := by
  obtain ⟨terms, hterms⟩ := checkGep_eq_ok_iff.mp hcheck
  exact checkGep_eq_ok_iff.mpr ⟨_, h.gepTerms hterms⟩

/-- After the check, a run can only stop at a pointer that has no place behind it. -/
theorem TagRun.last_of_fault (h : TagRun s L globals f outs F) (hs : s.validate = .ok ())
    (hf : f.Coherent) (htell : ∀ k ∈ outs.map Prod.fst, f.CuesTell s.cues k)
    (hold : ∀ k ∈ outs.map Prod.fst, k < f.insts.size) (hi : f.insts[gep]? = some i)
    (hop : i.op = .gep g) (hgep : gep ∉ outs.map Prod.fst)
    (hchecked : f.checkCandidate s L globals gep = .ok ()) {e : Fault}
    (hfault : Edit.tagGep s L globals gep F = .error e F) :
    f.Due s globals gep ∧ f.IsLast gep := by
  obtain ⟨σ, hσ, -⟩ := h.continues
  obtain ⟨hdue, hlast⟩ := h.back htell hold hi hop hgep
  obtain ⟨i', hi', hop', -⟩ := hσ.kept gep i hi
  rw [hop] at hop'
  rcases Edit.tagGep_cases (Scheme.inWord_of_validate hs) (h.coherent hf) with
    ⟨e', hskip, -⟩ | ⟨why, -, hrun⟩ | ⟨hdue', hcases⟩
  · obtain ⟨why, hwhy⟩ := exists_skipReason hi' hop'
    cases hwhy.symm.trans hskip
  · cases hrun.symm.trans hfault
  rcases hcases with ⟨e', hbad, -⟩ | ⟨-, hlast', -⟩ | ⟨-, -, r, f', hrun, -⟩
  · -- It was due at the start, so its displacement was checked.
    rw [checkCandidate, hdue hdue'] at hchecked
    cases (hσ.checkGep hchecked).symm.trans hbad
  · exact ⟨hdue hdue', hlast hlast'⟩
  · cases hrun.symm.trans hfault

/-- A failing run leaves the function as it was, if empty names do not mislead it and, of two pointers
that are due, the later one does not stand last in its block. -/
theorem Reachable.tag_error_unchanged (h : f.Reachable) (hs : s.validate = .ok ())
    (htell : ∀ gep ∈ f.geps, f.CuesTell s.cues gep)
    (hlast : f.geps.Pairwise fun k gep =>
      f.Due s globals k → f.Due s globals gep → ¬ f.IsLast gep)
    {e : Fault} (he : (f.tag s L globals).result = .error e) : (f.tag s L globals).state = f := by
  have hf := h.coherent
  unfold tag at he ⊢
  cases hcheck : f.geps.forM (f.checkCandidate s L globals) with
  | error e => rfl
  | ok u =>
    simp only [hcheck] at he ⊢
    have hpasses : Passes s L globals f f.geps (tagEach s L globals f.geps f) :=
      passes_tagEach hs hf f.geps
    obtain ⟨outs, hrun, ⟨hresult, -⟩ | ⟨e', gep, rest, -, hsplit, hfault⟩⟩ := hpasses
    · rw [hresult] at he
      cases he
    -- The run met some pointers and stopped at `gep`, which is none of them.
    have hmem : ∀ k ∈ outs.map Prod.fst, k ∈ f.geps := fun k hk => by
      rw [hsplit]
      exact List.mem_append_left _ hk
    have hgep : gep ∈ f.geps := by
      rw [hsplit]
      exact List.mem_append_right _ List.mem_cons_self
    have hnew : gep ∉ outs.map Prod.fst := by
      have hnodup := nodup_geps hf
      rw [hsplit] at hnodup
      exact fun hm => List.disjoint_of_nodup_append hnodup hm List.mem_cons_self
    obtain ⟨i, g, hi, hop⟩ := exists_of_mem_geps hgep
    obtain ⟨hdue, hend⟩ := hrun.last_of_fault hs hf (fun k hk => htell k (hmem k hk))
      (fun k hk => lt_of_mem_geps (hmem k hk)) hi hop hnew (forM_eq_ok_iff.mp hcheck gep hgep) hfault
    rw [hsplit, List.pairwise_append] at hlast
    exact hrun.eq_of_not_due fun k hk hk' =>
      hlast.2.2 k hk gep List.mem_cons_self hk' hdue hend

/-- The pointer that is due stands last, and the one before it is not due. -/
def cutOff : Func :=
  (fresh "f" .void [⟨"p", .ptr⟩, ⟨"n", .int 64⟩]).mutate
    [.addBlock "entry",
      .append 0 { op := .gep ⟨.int 32, .arg 0, [.ofWord 0 64], false⟩, ty := .ptr },
      .append 0 { op := .gep ⟨.int 32, .inst 0, [.arg 1], false⟩, ty := .ptr }]

theorem cutOff_unchanged :
    cutOff.Reachable ∧ Scheme.validate {} = .ok () ∧
      (∀ gep ∈ cutOff.geps, cutOff.CuesTell {} gep) ∧
      (cutOff.geps.Pairwise fun k gep =>
        cutOff.Due {} [] k → cutOff.Due {} [] gep → ¬ cutOff.IsLast gep) ∧
      (cutOff.tag {} .lp64 []).result = .error (.noInsertionPoint 1) ∧
      (cutOff.tag {} .lp64 []).state = cutOff := by
  have hreachable : cutOff.Reachable := (Reachable.fresh _ _ _).mutate _
  have hs : Scheme.validate {} = .ok () := by decide
  have htell : ∀ gep ∈ cutOff.geps, cutOff.CuesTell {} gep := by decide +kernel
  have hlast : cutOff.geps.Pairwise fun k gep =>
      cutOff.Due {} [] k → cutOff.Due {} [] gep → ¬ cutOff.IsLast gep := by decide +kernel
  have he : (cutOff.tag {} .lp64 []).result = .error (.noInsertionPoint 1) := by decide +kernel
  exact ⟨hreachable, hs, htell, hlast, he, hreachable.tag_error_unchanged hs htell hlast he⟩

/-! ## The two exceptions -/

/-- No terminator follows the second pointer. -/
def brokenOff : Func :=
  (fresh "f" .void [⟨"p", .ptr⟩]).mutate
    [.addBlock "entry",
      .append 0
        { op := .gep ⟨.int 32, .arg 0, [.ofWord 1 64], false⟩, ty := .ptr, name := some "a" },
      .append 0
        { op := .gep ⟨.int 32, .arg 0, [.ofWord 2 64], false⟩, ty := .ptr, name := some "b" }]

/-- The second pointer has an index that is no integer. It looks like a dispatch table to a scheme
with an empty cue, until the first pointer gives way to a copy without a name. -/
def misled : Func :=
  (fresh "f" .void [⟨"p", .ptr⟩]).mutate
    [.addBlock "entry",
      .append 0
        { op := .gep ⟨.int 32, .const .null, [.ofWord 1 64], false⟩, ty := .ptr, name := some "" },
      .append 0
        { op := .gep ⟨.int 32, .inst 0, [.arg 0], false⟩, ty := .ptr, name := some "b" },
      .append 0 { op := .ret none, ty := .void }]

theorem brokenOff_and_misled_changed :
    let empty : Scheme := { cues := { table := "" } }
    (brokenOff.Reachable ∧ Scheme.validate {} = .ok () ∧
      (brokenOff.tag {} .lp64 []).result = .error (.noInsertionPoint 1) ∧
      (brokenOff.tag {} .lp64 []).state ≠ brokenOff) ∧
    misled.Reachable ∧ misled.verify = .ok () ∧ empty.validate = .ok () ∧
      (misled.tag empty .lp64 []).result = .error (.indexNotInteger .ptr) ∧
      (misled.tag empty .lp64 []).state ≠ misled := by
  intro empty
  have hbroken : (brokenOff.tag {} .lp64 []).state.insts.size ≠ brokenOff.insts.size := by
    decide +kernel
  have hmisled : (misled.tag empty .lp64 []).state.insts.size ≠ misled.insts.size := by
    decide +kernel
  exact ⟨⟨(Reachable.fresh _ _ _).mutate _, by decide, by decide +kernel,
      fun h => hbroken (congrArg (·.insts.size) h)⟩,
    (Reachable.fresh _ _ _).mutate _, by decide +kernel, by decide, by decide +kernel,
      fun h => hmisled (congrArg (·.insts.size) h)⟩

end Func

end PtrTag
