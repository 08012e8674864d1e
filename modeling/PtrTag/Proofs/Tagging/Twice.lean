import PtrTag.Proofs.Tagging.Atomicity
import PtrTag.Proofs.Tagging.WellFormed
import Mathlib.Data.List.Infix

/-!
# `PtrTag/Proofs/Tagging/Twice.lean` — a second run

A pointer that a run tags is marked, and what it leaves alone it leaves alone the next time. So a
second run changes nothing, and its tally follows from that of the first one.

There is one thing that it may see with other eyes. An address computation that yields a vector is
skipped for that, but only if nothing in it looks like a dispatch table. If its base is tagged after
its turn, it is computed from the copy, and **the name of a copy is longer**: `x.newptr` may begin with
a cue that `x` does not begin with. Such a computation is counted as a vector by the first run and as a
dispatch table by the second. The two counts together stay the same, and each of them does unless there
is a pointer whose copy has such a name (`Func.PlainCopy`). The default cues admit none.
-/

set_option autoImplicit false

namespace PtrTag

/-! ## Tallies of two runs -/

/-- The tally `t'` of a run that follows one with the tally `t`. Vectors may be counted as dispatch
tables, unless `P` holds. -/
structure Tally.Repeats (P : Prop) (t t' : Tally) : Prop where
  seen : t'.seen = t.seen
  instrumented : t'.instrumented = t.instrumented
  candidates : t'.candidates = t.candidates
  tagged : t'.tagged = 0
  alreadyTagged : t'.alreadyTagged = t.alreadyTagged + t.tagged
  zeroIndex : t'.zeroIndex = t.zeroIndex
  dispatch_le : t.dispatch ≤ t'.dispatch
  dispatch_add_vector : t'.dispatch + t'.vector = t.dispatch + t.vector
  dispatch_eq : P → t'.dispatch = t.dispatch

variable {P : Prop}

theorem Tally.Repeats.add {t t' u u' : Tally} (h : t.Repeats P t') (k : u.Repeats P u') :
    (t + u).Repeats P (t' + u') where
  seen := congrArg₂ (· + ·) h.seen k.seen
  instrumented := congrArg₂ (· + ·) h.instrumented k.instrumented
  candidates := congrArg₂ (· + ·) h.candidates k.candidates
  tagged := congrArg₂ (· + ·) h.tagged k.tagged
  alreadyTagged := by
    show t'.alreadyTagged + u'.alreadyTagged =
      t.alreadyTagged + u.alreadyTagged + (t.tagged + u.tagged)
    rw [h.alreadyTagged, k.alreadyTagged]
    omega
  zeroIndex := congrArg₂ (· + ·) h.zeroIndex k.zeroIndex
  dispatch_le := Nat.add_le_add h.dispatch_le k.dispatch_le
  dispatch_add_vector := by
    show t'.dispatch + u'.dispatch + (t'.vector + u'.vector) =
      t.dispatch + u.dispatch + (t.vector + u.vector)
    have h₁ := h.dispatch_add_vector
    have h₂ := k.dispatch_add_vector
    omega
  dispatch_eq := fun hP => congrArg₂ (· + ·) (h.dispatch_eq hP) (k.dispatch_eq hP)

/-- A tally of functions alone, without any address computation. -/
theorem Tally.repeats_seen (P : Prop) (seen instrumented : Nat) :
    Tally.Repeats P { seen := seen, instrumented := instrumented }
      { seen := seen, instrumented := instrumented } :=
  ⟨rfl, rfl, rfl, rfl, rfl, rfl, Nat.le_refl _, rfl, fun _ => rfl⟩

/-- What may be said later of something that was left alone for `why`. -/
def Skip.Later (P : Prop) (why why' : Skip) : Prop :=
  why' = why ∨ (why = .vector ∧ why' = .dispatch ∧ ¬ P)

theorem Skip.Later.trans {why why₁ why₂ : Skip} (h₁ : why.Later P why₁) (h₂ : why₁.Later P why₂) :
    why.Later P why₂ := by
  rcases h₁ with rfl | ⟨rfl, rfl, hP⟩
  · exact h₂
  · rcases h₂ with rfl | ⟨hv, -, -⟩
    · exact .inr ⟨rfl, rfl, hP⟩
    · cases hv

/-- Why a second run leaves alone what had this outcome in the first one. -/
def Outcome.Again (P : Prop) : Outcome → Skip → Prop
  | .tagged .., why => why = .alreadyTagged
  | .skipped why, why' => why.Later P why'

theorem Outcome.Again.repeats {outcome : Outcome} {why : Skip} (h : outcome.Again P why) :
    outcome.tally.Repeats P (Outcome.skipped why).tally := by
  cases outcome with
  | tagged r constant split =>
    obtain rfl : why = .alreadyTagged := h
    exact ⟨rfl, rfl, rfl, rfl, rfl, rfl, Nat.le_refl _, rfl, fun _ => rfl⟩
  | skipped first =>
    rcases h with rfl | ⟨rfl, rfl, hP⟩
    · cases why <;> exact ⟨rfl, rfl, rfl, rfl, rfl, rfl, Nat.le_refl _, rfl, fun _ => rfl⟩
    · exact ⟨rfl, rfl, rfl, rfl, rfl, rfl, Nat.zero_le _, rfl, fun h => absurd h hP⟩

namespace Func

variable {s : Scheme} {L : Layout} {globals : List String} {f f' F : Func} {gep r j : InstId}
  {i : Inst} {g : Gep} {outs : Outcomes} {why : Skip}

/-! ## Names of copies -/

/-- The name that a copy of `gep` gets begins with a cue only if the name of `gep` does. -/
def PlainCopy (f : Func) (cues : Cues) (gep : InstId) : Prop :=
  ∀ lead ∈ [cues.table, cues.virtualBase],
    (derivedName (f.valueName? (.inst gep)) "newptr").any (startsWith lead) = true →
      f.nameStartsWith lead (.inst gep) = true

/-- What begins with `lead` does so without the text at its end, if no end of `lead` can stand there. -/
theorem startsWith_of_append {lead name text : String}
    (hends : ∀ t ∈ lead.toList.tails, t <+: text.toList → t = [])
    (h : startsWith lead (name ++ text) = true) : startsWith lead name = true := by
  unfold startsWith at *
  rw [List.isPrefixOf_iff_prefix] at *
  rw [String.toList_append] at h
  rcases List.prefix_or_prefix_of_prefix h (List.prefix_append name.toList text.toList) with
    hlead | ⟨t, ht⟩
  · exact hlead
  · rw [← ht, List.prefix_append_right_inj] at h
    have hnil : t = [] := hends t ((List.mem_tails t _).mpr ⟨name.toList, ht⟩) h
    rw [← ht, hnil, List.append_nil]

/-- No name makes a difference to the default cues. -/
theorem plainCopy_default (f : Func) (gep : InstId) : f.PlainCopy {} gep := by
  have hends : ∀ lead ∈ [({} : Cues).table, ({} : Cues).virtualBase],
      ∀ t ∈ lead.toList.tails, t <+: ".newptr".toList → t = [] := by
    decide +kernel
  intro lead hlead hcopy
  unfold Func.nameStartsWith
  unfold derivedName at hcopy
  cases hname : f.valueName? (.inst gep) with
  | none =>
    rw [hname] at hcopy
    cases hcopy
  | some name =>
    rw [hname, Option.filter_some] at hcopy
    split at hcopy
    · refine startsWith_of_append (hends lead hlead) (?_ : startsWith lead (name ++ ".newptr") = true)
      rw [show ".newptr" = "." ++ "newptr" from rfl, ← String.append_assoc]
      exact hcopy
    · cases hcopy

namespace TagStep

theorem nameStartsWith_back (h : TagStep s L f gep r f') {lead : String} {v : Value}
    (hplain : (derivedName (f.valueName? (.inst gep)) "newptr").any (startsWith lead) = true →
      f.nameStartsWith lead (.inst gep) = true) (hvalue : f.HasValue v)
    (hv : f'.nameStartsWith lead (v.rename (Function.update id gep r)) = true) :
    f.nameStartsWith lead v = true := by
  unfold Func.nameStartsWith at hv
  rw [h.valueName?_rename hvalue] at hv
  by_cases hgep : v = .inst gep
  · subst hgep
    rw [if_pos rfl] at hv
    exact hplain hv
  · rw [if_neg hgep] at hv
    exact hv

/-- A step with a plain copy gives no address computation the look of a dispatch table. -/
theorem isDispatch_back (h : TagStep s L f gep r f') (hplain : f.PlainCopy s.cues gep) {i' : Inst}
    (hrange : f.InRange (.gep g)) (hmarks : i'.marks = i.marks) {g' : Gep}
    (hg : Op.gep g' = (Op.gep g).mapOperands (Value.rename (Function.update id gep r)))
    (hd : f'.isDispatch s globals i' g' = true) : f.isDispatch s globals i g = true := by
  obtain rfl := Op.gep.inj hg
  have hbase : f.HasValue g.base := hrange.operands _ List.mem_cons_self
  rw [isDispatch_iff] at hd ⊢
  rw [hmarks] at hd
  rcases hd with hd | hd | ⟨index, hindices, hd⟩ | ⟨symbol, hsymbol, hd⟩
  · exact .inl hd
  · exact .inr (.inl (h.nameStartsWith_back (hplain _ (by simp)) hbase hd))
  · obtain ⟨index, honly, rfl⟩ := List.map_eq_singleton_iff.mp hindices
    have hindex : f.HasValue index :=
      hrange.operands _ (List.mem_cons_of_mem _ (by rw [honly]; exact List.mem_cons_self))
    refine .inr (.inr (.inl ⟨index, honly, ?_⟩))
    exact h.nameStartsWith_back (hplain _ (by simp)) hindex hd
  · refine .inr (.inr (.inr ⟨symbol, ?_, hd⟩))
    cases hb : g.base with
    | global name =>
      rw [hb] at hsymbol
      exact hsymbol
    | _ =>
      rw [hb] at hsymbol
      cases hsymbol

/-- Nothing that is left alone comes to be due by a step at another place. -/
theorem skipReason_later (h : TagStep s L f gep r f') (hf : f.Coherent)
    (htell : f.CuesTell s.cues gep) (hplain : P → f.PlainCopy s.cues gep)
    (hi : f.insts[j]? = some i) (hop : i.op = .gep g) (hne : j ≠ gep)
    (hskip : f.skipReason s globals j = .ok (some why)) :
    ∃ why', f'.skipReason s globals j = .ok (some why') ∧ why.Later P why' := by
  obtain ⟨i', hi', hop', hty, -, -, hmarks⟩ := h.kept j i hi
  rw [if_neg hne] at hmarks
  rw [hop] at hop'
  have hrange := hf.inRange j i hi
  rw [hop] at hrange
  have hzero : (g.indices.map (Value.rename (Function.update id gep r))).all Value.isZero =
      g.indices.all Value.isZero := by
    simp [List.all_map, Function.comp_def]
  rw [skipReason_eq hi hop, Except.ok.injEq] at hskip
  rw [skipReason_eq hi' hop', hmarks, hty, hzero]
  by_cases htagged : i.marks.tagged
  · rw [if_pos htagged] at hskip ⊢
    exact ⟨_, rfl, .inl (Option.some.inj hskip)⟩
  rw [if_neg htagged] at hskip ⊢
  by_cases hz : g.indices.all Value.isZero
  · rw [if_pos hz] at hskip ⊢
    exact ⟨_, rfl, .inl (Option.some.inj hskip)⟩
  rw [if_neg hz] at hskip ⊢
  by_cases hd : f.isDispatch s globals i g
  · rw [if_pos hd] at hskip
    rw [if_pos (h.isDispatch htell hmarks rfl hd)]
    exact ⟨_, rfl, .inl (Option.some.inj hskip)⟩
  rw [if_neg hd] at hskip
  -- Only a vector is left, and only here the names of copies can make a difference.
  by_cases hvector : i.ty.isVector
  · rw [if_pos hvector] at hskip ⊢
    obtain rfl := Option.some.inj hskip
    split
    case isTrue hd' =>
      refine ⟨_, rfl, .inr ⟨rfl, rfl, fun hP => hd ?_⟩⟩
      exact h.isDispatch_back (hplain hP) hrange hmarks rfl hd'
    case isFalse => exact ⟨_, rfl, .inl rfl⟩
  · rw [if_neg hvector] at hskip
    cases hskip

/-- The pointer itself is marked. -/
theorem skipReason_self (h : TagStep s L f gep r f') (hi : f.insts[gep]? = some i)
    (hop : i.op = .gep g) : f'.skipReason s globals gep = .ok (some .alreadyTagged) := by
  obtain ⟨i', hi', hop', -, -, -, hmarks⟩ := h.kept gep i hi
  rw [hop] at hop'
  rw [skipReason_eq hi' hop', hmarks]
  simp

theorem plainCopy (h : TagStep s L f gep r f') {cues : Cues} {k : InstId} (hk : k < f.insts.size)
    (hplain : f.PlainCopy cues k) : f'.PlainCopy cues k := by
  obtain ⟨ik, hik⟩ := exists_inst hk
  obtain ⟨ik', hik', -, -, hname, -⟩ := h.kept k ik hik
  have hsame : f'.valueName? (.inst k) = f.valueName? (.inst k) := by
    rw [valueName?, valueName?, hik', hik, Option.bind_some, Option.bind_some, hname]
  unfold PlainCopy Func.nameStartsWith at *
  rw [hsame]
  exact hplain

end TagStep

/-! ## Runs -/

theorem cuesTell {cues : Cues} (htable : cues.table ≠ "") (hvirtual : cues.virtualBase ≠ "") :
    f.CuesTell cues gep :=
  fun _ => ⟨htable, hvirtual⟩

namespace TagRun

/-- What is left alone when a run is past it, is left alone at the end of the run. -/
theorem skipReason_later (h : TagRun s L globals f outs F) (hf : f.Coherent)
    (htable : s.cues.table ≠ "") (hvirtual : s.cues.virtualBase ≠ "")
    (hold : ∀ k ∈ outs.map Prod.fst, k < f.insts.size)
    (hplain : P → ∀ k ∈ outs.map Prod.fst, f.PlainCopy s.cues k) (hj : j ∉ outs.map Prod.fst)
    (hskip : f.skipReason s globals j = .ok (some why)) :
    ∃ why', F.skipReason s globals j = .ok (some why') ∧ why.Later P why' := by
  induction h generalizing why with
  | done f => exact ⟨why, hskip, .inl rfl⟩
  | skip _ _ ih =>
    simp only [List.map_cons, List.forall_mem_cons] at hold hplain
    exact ih hf hold.2 (fun hP => (hplain hP).2) (List.not_mem_of_not_mem_cons hj) hskip
  | tag _ step _ ih =>
    simp only [List.map_cons, List.forall_mem_cons] at hold hplain
    obtain ⟨i, g, hi, hop⟩ := gep_of_skipReason hskip
    obtain ⟨why₁, hskip₁, hlater₁⟩ := step.skipReason_later hf (cuesTell htable hvirtual)
      (fun hP => (hplain hP).1) hi hop (List.ne_of_not_mem_cons hj) hskip
    obtain ⟨why₂, hskip₂, hlater₂⟩ := ih step.coherent
      (fun k hk => Nat.lt_trans (hold.2 k hk) step.size_lt)
      (fun hP k hk => step.plainCopy (hold.2 k hk) ((hplain hP).2 k hk))
      (List.not_mem_of_not_mem_cons hj) hskip₁
    exact ⟨why₂, hskip₂, hlater₁.trans hlater₂⟩

/-- At the end of a run there is nothing left to do. -/
theorem again (h : TagRun s L globals f outs F) (hf : f.Coherent) (htable : s.cues.table ≠ "")
    (hvirtual : s.cues.virtualBase ≠ "") (hnodup : (outs.map Prod.fst).Nodup)
    (hold : ∀ k ∈ outs.map Prod.fst, k < f.insts.size)
    (hplain : P → ∀ k ∈ outs.map Prod.fst, f.PlainCopy s.cues k) :
    ∀ out ∈ outs, ∃ why, F.skipReason s globals out.1 = .ok (some why) ∧ out.2.Again P why := by
  induction h with
  | done f => exact fun _ hout => absurd hout List.not_mem_nil
  | skip reason rest ih =>
    simp only [List.map_cons, List.forall_mem_cons, List.nodup_cons] at hold hplain hnodup
    rw [List.forall_mem_cons]
    have hplain' := fun hP => (hplain hP).2
    refine ⟨?_, ih hf hnodup.2 hold.2 hplain'⟩
    exact rest.skipReason_later hf htable hvirtual hold.2 hplain' hnodup.1 reason
  | tag due step rest ih =>
    simp only [List.map_cons, List.forall_mem_cons, List.nodup_cons] at hold hplain hnodup
    rw [List.forall_mem_cons]
    have hold' := fun k hk => Nat.lt_trans (hold.2 k hk) step.size_lt
    have hplain' := fun hP k hk => step.plainCopy (hold.2 k hk) ((hplain hP).2 k hk)
    refine ⟨?_, ih step.coherent hnodup.2 hold' hplain'⟩
    obtain ⟨i, g, hi, hop⟩ := gep_of_skipReason due
    obtain ⟨why, hskip, hlater⟩ := rest.skipReason_later step.coherent htable hvirtual hold' hplain'
      hnodup.1 (step.skipReason_self hi hop)
    rcases hlater with rfl | ⟨hv, -, -⟩
    · exact ⟨_, hskip, rfl⟩
    · cases hv

end TagRun

/-! ## The second run over a function -/

theorem checkCandidate_of_skipped (h : f.skipReason s globals gep = .ok (some why)) :
    f.checkCandidate s L globals gep = .ok () := by
  unfold checkCandidate
  rw [h]
  rfl

theorem tagGep_of_skipped (h : f.skipReason s globals gep = .ok (some why)) :
    Edit.tagGep s L globals gep f = .ok (.skipped why) f :=
  (Edit.ask_bind_of_ok h).trans rfl

theorem tagEach_again
    (h : ∀ out ∈ outs, ∃ why, f.skipReason s globals out.1 = .ok (some why) ∧ out.2.Again P why) :
    (tagEach s L globals (outs.map Prod.fst) f).state = f ∧
      ∃ outs', (tagEach s L globals (outs.map Prod.fst) f).result = .ok outs' ∧
        outs.tally.Repeats P outs'.tally := by
  induction outs with
  | nil => exact ⟨rfl, [], rfl, Tally.repeats_seen P 0 0⟩
  | cons out outs ih =>
    rw [List.forall_mem_cons] at h
    obtain ⟨⟨why, hskip, hagain⟩, hrest⟩ := h
    obtain ⟨hstate, outs', hresult, hrepeats⟩ := ih hrest
    simp only [List.map_cons, tagEach, tagGep_of_skipped hskip, hresult]
    exact ⟨hstate, _, rfl, hagain.repeats.add hrepeats⟩

/-- After a run that succeeded, a second one succeeds too and changes nothing. -/
theorem tag_again (hs : s.validate = .ok ()) (htable : s.cues.table ≠ "")
    (hvirtual : s.cues.virtualBase ≠ "") (hf : f.Coherent)
    (hplain : P → ∀ gep ∈ f.geps, f.PlainCopy s.cues gep)
    (hrun : (f.tag s L globals).result = .ok outs) :
    let second := (f.tag s L globals).state.tag s L globals
    second.state = (f.tag s L globals).state ∧
      ∃ outs', second.result = .ok outs' ∧ outs.tally.Repeats P outs'.tally := by
  intro second
  obtain ⟨hsteps, hall⟩ := tagRun_of_tag hs hf hrun
  have hagain := hsteps.again hf htable hvirtual (hall ▸ nodup_geps hf)
    (fun k hk => lt_of_mem_geps (hall ▸ hk)) (fun hP k hk => hplain hP k (hall ▸ hk))
  have hgeps : (f.tag s L globals).state.geps = outs.map Prod.fst :=
    (intact_tag s L globals hf).enriches.geps.trans hall.symm
  have hcheck : (f.tag s L globals).state.geps.forM
      ((f.tag s L globals).state.checkCandidate s L globals) = .ok () := by
    refine forM_eq_ok_iff.mpr fun gep hgep => ?_
    rw [hgeps] at hgep
    obtain ⟨out, hout, rfl⟩ := List.mem_map.mp hgep
    obtain ⟨why, hskip, -⟩ := hagain out hout
    exact checkCandidate_of_skipped hskip
  have hsecond : second = tagEach s L globals (outs.map Prod.fst) (f.tag s L globals).state := by
    rw [← hgeps]
    exact tag_of_checked hcheck
  rw [hsecond]
  exact tagEach_again hagain

theorem wantsTagging_tag (s : Scheme) (L : Layout) (globals : List String) (hf : f.Coherent) :
    (f.tag s L globals).state.wantsTagging s = f.wantsTagging s := by
  show (f.tag s L globals).state.outline.wantsTagging s = f.outline.wantsTagging s
  rw [(intact_tag s L globals hf).enriches.outline]

end Func

/-! ## The second run over a module -/

section Module

variable {s : Scheme} {L : Layout} {globals : List String}

theorem tagFunctions_cons_of_wants {f : Func} {outs : Outcomes} (hwants : f.wantsTagging s = true)
    (hrun : (f.tag s L globals).result = .ok outs) (rest : List Func) (t : Tally) :
    (tagFunctions s L globals (f :: rest) t).state = (f.tag s L globals).state ::
        (tagFunctions s L globals rest (t + { seen := 1, instrumented := 1 } + outs.tally)).state ∧
      (tagFunctions s L globals (f :: rest) t).result =
        (tagFunctions s L globals rest (t + { seen := 1, instrumented := 1 } + outs.tally)).result := by
  simp only [tagFunctions, hwants, if_true, hrun, and_self]

theorem tagFunctions_cons_of_not_wants (L : Layout) (globals : List String) {f : Func}
    (hwants : ¬ f.wantsTagging s) (rest : List Func) (t : Tally) :
    (tagFunctions s L globals (f :: rest) t).state =
        f :: (tagFunctions s L globals rest (t + { seen := 1 })).state ∧
      (tagFunctions s L globals (f :: rest) t).result =
        (tagFunctions s L globals rest (t + { seen := 1 })).result := by
  simp only [tagFunctions, if_neg hwants, and_self]

theorem exists_of_tagFunctions_cons {f : Func} {rest : List Func} {t t' : Tally}
    (hwants : f.wantsTagging s = true)
    (hrun : (tagFunctions s L globals (f :: rest) t).result = .ok t') :
    ∃ outs, (f.tag s L globals).result = .ok outs := by
  cases hr : (f.tag s L globals).result with
  | ok outs => exact ⟨outs, rfl⟩
  | error e =>
    unfold tagFunctions at hrun
    rw [if_pos hwants] at hrun
    simp only [hr] at hrun
    cases hrun

/-- The induction is along the functions, from any two tallies that are in the relation of a first and a
second run. -/
theorem tagFunctions_again (hs : s.validate = .ok ()) (htable : s.cues.table ≠ "")
    (hvirtual : s.cues.virtualBase ≠ "") {fs fs' : List Func} (hfs : ∀ f ∈ fs, f.Coherent)
    (hplain : P → ∀ f ∈ fs, ∀ gep ∈ f.geps, f.PlainCopy s.cues gep) {t t' u : Tally}
    (hstate : (tagFunctions s L globals fs t).state = fs')
    (hresult : (tagFunctions s L globals fs t).result = .ok t') (hu : t.Repeats P u) :
    (tagFunctions s L globals fs' u).state = fs' ∧
      ∃ u', (tagFunctions s L globals fs' u).result = .ok u' ∧ t'.Repeats P u' := by
  induction fs generalizing fs' t u with
  | nil =>
    obtain rfl : [] = fs' := hstate
    obtain rfl : t = t' := Except.ok.inj hresult
    exact ⟨rfl, u, rfl, hu⟩
  | cons f rest ih =>
    simp only [List.forall_mem_cons] at hfs hplain
    have hplain' := fun hP => (hplain hP).2
    by_cases hwants : f.wantsTagging s
    · obtain ⟨outs, hone⟩ := exists_of_tagFunctions_cons hwants hresult
      obtain ⟨hstate₁, hresult₁⟩ := tagFunctions_cons_of_wants hwants hone rest t
      obtain ⟨hsame, outs', hagain, hrepeats⟩ :=
        Func.tag_again hs htable hvirtual hfs.1 (fun hP => (hplain hP).1) hone
      have hwants' := (Func.wantsTagging_tag s L globals hfs.1).trans hwants
      obtain ⟨hrest, u', hu', htally⟩ := ih hfs.2 hplain' rfl (hresult₁.symm.trans hresult)
        ((hu.add (Tally.repeats_seen P 1 1)).add hrepeats)
      obtain rfl := hstate₁.symm.trans hstate
      obtain ⟨hstate₂, hresult₂⟩ := tagFunctions_cons_of_wants hwants' hagain _ u
      rw [hstate₂, hresult₂, hsame, hrest]
      exact ⟨rfl, u', hu', htally⟩
    · obtain ⟨hstate₁, hresult₁⟩ := tagFunctions_cons_of_not_wants L globals hwants rest t
      obtain ⟨hrest, u', hu', htally⟩ := ih hfs.2 hplain' rfl (hresult₁.symm.trans hresult)
        (hu.add (Tally.repeats_seen P 1 0))
      obtain rfl := hstate₁.symm.trans hstate
      obtain ⟨hstate₂, hresult₂⟩ := tagFunctions_cons_of_not_wants L globals hwants _ u
      rw [hstate₂, hresult₂, hrest]
      exact ⟨rfl, u', hu', htally⟩

theorem Module.tag_again {m : Module} (hs : s.validate = .ok ()) (htable : s.cues.table ≠ "")
    (hvirtual : s.cues.virtualBase ≠ "") (hfs : ∀ f ∈ m.functions, f.Coherent)
    (hplain : P → ∀ f ∈ m.functions, ∀ gep ∈ f.geps, f.PlainCopy s.cues gep) {t : Tally}
    (hrun : (m.tag s).result = .ok t) :
    ((m.tag s).state.tag s).state = (m.tag s).state ∧
      ∃ t', ((m.tag s).state.tag s).result = .ok t' ∧ t.Repeats P t' := by
  obtain ⟨hstate, t', hresult, hrepeats⟩ := tagFunctions_again hs htable hvirtual hfs hplain rfl hrun
    (Tally.repeats_seen P 0 0)
  refine ⟨?_, t', hresult, hrepeats⟩
  exact congrArg (fun fs => { m with functions := fs }) hstate

theorem Pass.run_of_ok {p : Pass} {m : Module} {t : Tally} (h : (m.tag p.scheme).result = .ok t) :
    p.run m = ({ p with tally := t }, { m.tag p.scheme with result := .ok .none }) := by
  unfold Pass.run
  simp only [h]

theorem Pass.exists_of_run {p : Pass} {m : Module} {kept : Preserved}
    (h : (p.run m).2.result = .ok kept) : ∃ t, (m.tag p.scheme).result = .ok t := by
  cases hr : (m.tag p.scheme).result with
  | ok t => exact ⟨t, rfl⟩
  | error e =>
    unfold Pass.run at h
    simp only [hr] at h
    cases h

/-- A second run of a pass over a module changes nothing and tags nothing. What the first run tagged
is counted as tagged already, and the other counts are the same; vectors may be counted as dispatch
tables, unless every address computation has a plain copy. -/
theorem Pass.run_twice (p : Pass) (m : Module) (hfs : ∀ f ∈ m.functions, f.Reachable)
    (hs : p.scheme.validate = .ok ()) (htable : p.scheme.cues.table ≠ "")
    (hvirtual : p.scheme.cues.virtualBase ≠ "") {kept : Preserved}
    (hrun : (p.run m).2.result = .ok kept) :
    let first := p.run m
    let second := first.1.run first.2.state
    let t := first.1.tally
    let t' := second.1.tally
    (∃ kept', second.2.result = .ok kept') ∧ second.2.state = first.2.state ∧
      t'.tagged = 0 ∧ t'.alreadyTagged = t.alreadyTagged + t.tagged ∧
        t'.candidates = t.candidates ∧ t'.zeroIndex = t.zeroIndex ∧ t'.seen = t.seen ∧
          t'.instrumented = t.instrumented ∧ t'.dispatch + t'.vector = t.dispatch + t.vector ∧
            t.dispatch ≤ t'.dispatch ∧
              ((∀ f ∈ m.functions, ∀ gep ∈ f.geps, f.PlainCopy p.scheme.cues gep) →
                t'.dispatch = t.dispatch ∧ t'.vector = t.vector) := by
  intro first second t t'
  obtain ⟨t₁, ht₁⟩ := Pass.exists_of_run hrun
  have hfirst : first = ({ p with tally := t₁ }, { m.tag p.scheme with result := .ok .none }) :=
    Pass.run_of_ok ht₁
  obtain ⟨hstate, t₂, ht₂, h⟩ := Module.tag_again hs htable hvirtual
    (fun f hf => (hfs f hf).coherent) (fun hP => hP) ht₁
  have hsecond : second = ({ p with tally := t₂ },
      { (m.tag p.scheme).state.tag p.scheme with result := .ok .none }) := by
    show first.1.run first.2.state = _
    rw [hfirst]
    exact Pass.run_of_ok ht₂
  have ht : t = t₁ := congrArg (fun run => run.1.tally) hfirst
  have ht' : t' = t₂ := congrArg (fun run => run.1.tally) hsecond
  rw [ht, ht', hfirst, hsecond]
  refine ⟨⟨_, rfl⟩, hstate, h.tagged, h.alreadyTagged, h.candidates, h.zeroIndex, h.seen,
    h.instrumented, h.dispatch_add_vector, h.dispatch_le, fun hplain => ?_⟩
  have hdispatch := h.dispatch_eq hplain
  have hsum := h.dispatch_add_vector
  exact ⟨hdispatch, by omega⟩

/-- A vector of pointers whose block is laid out before that of its base. -/
def Func.vectorFirst : Func :=
  (fresh "f" .void [⟨"p", .ptr⟩]).mutate
    [.withAttribute .tagPointers, .addBlock "entry", .addBlock "use", .addBlock "def",
      .append 0 { op := .br 2, ty := .void },
      .append 2 { op := .gep ⟨.int 32, .arg 0, [.ofWord 1 64], false⟩, ty := .ptr, name := some "x" },
      .append 2 { op := .br 1, ty := .void },
      .append 1 { op := .gep ⟨.int 32, .inst 1, [.ofWord 1 64], false⟩, ty := .vector 2 .ptr,
                  name := some "v" },
      .append 1 { op := .ret none, ty := .void }]

/-- One address computation of each kind that is left alone for what it is, and one that is not. -/
def Func.lookUps : Func :=
  (fresh "g" .void [⟨"vtable", .ptr⟩, ⟨"n", .int 64⟩]).mutate
    [.withAttribute .tagPointers, .addBlock "entry",
      .append 0 { op := .load (.arg 0), ty := .ptr, name := some "object" },
      .append 0 { op := .gep ⟨.int 32, .inst 0, [.ofWord 0 64], false⟩, ty := .ptr },
      .append 0 { op := .gep ⟨.ptr, .arg 0, [.arg 1], false⟩, ty := .ptr, name := some "slot" },
      .append 0 { op := .gep ⟨.int 32, .inst 0, [.arg 1], false⟩, ty := .ptr, name := some "field" },
      .append 0 { op := .ret none, ty := .void }]

theorem Func.vectorFirst_reachable : vectorFirst.Reachable := (Reachable.fresh _ _ _).mutate _

/-- Two functions that ask for tags, and one that does not. -/
def Module.mixed : Module :=
  { name := "m", functions := [.vectorFirst, .lookUps, .fresh "h" .void []] }

/-- The default cues count a vector as a vector both times. -/
theorem Pass.mixed_twice :
    let first := ({} : Pass).run .mixed
    let second := first.1.run first.2.state
    (∀ f ∈ Module.mixed.functions, f.Reachable) ∧ first.2.result = .ok .none ∧
      first.1.tally =
        { seen := 3, instrumented := 2, candidates := 5, tagged := 2, zeroIndex := 1, dispatch := 1,
          vector := 1, constantOffsets := 1, dynamicOffsets := 1 } ∧
      second.2.state = first.2.state ∧ second.1.tally.tagged = 0 ∧
        second.1.tally.alreadyTagged = 2 ∧ second.1.tally.dispatch = 1 ∧
          second.1.tally.vector = 1 := by
  have hfs : ∀ f ∈ Module.mixed.functions, f.Reachable := by
    simp only [Module.mixed, List.forall_mem_cons, List.not_mem_nil, false_implies, implies_true,
      and_true]
    exact ⟨Func.vectorFirst_reachable, (Func.Reachable.fresh _ _ _).mutate _, .fresh _ _ _⟩
  have htally : (({} : Pass).run .mixed).1.tally =
      { seen := 3, instrumented := 2, candidates := 5, tagged := 2, zeroIndex := 1, dispatch := 1,
        vector := 1, constantOffsets := 1, dynamicOffsets := 1 } := by
    decide +kernel
  have hrun : (({} : Pass).run .mixed).2.result = .ok .none := by decide +kernel
  obtain ⟨-, hstate, htagged, halready, -, -, -, -, -, -, hkinds⟩ :=
    Pass.run_twice {} .mixed hfs (by decide) (by decide) (by decide) hrun
  obtain ⟨hdispatch, hvector⟩ := hkinds fun f _ gep _ => f.plainCopy_default gep
  rw [htally] at halready hdispatch hvector
  exact ⟨hfs, hrun, htally, hstate, htagged, halready, hdispatch, hvector⟩

/-- With a cue that the copy of `x` begins with, a vector becomes a dispatch table. -/
theorem Pass.vectorFirst_recounted :
    let p : Pass := { scheme := { cues := { table := "x.newptr" } } }
    let m : Module := { name := "m", functions := [.vectorFirst] }
    let first := p.run m
    let second := first.1.run first.2.state
    (∀ f ∈ m.functions, f.Reachable) ∧ p.scheme.validate = .ok () ∧ p.scheme.cues.table ≠ "" ∧
      p.scheme.cues.virtualBase ≠ "" ∧ first.2.result = .ok .none ∧ second.2.result = .ok .none ∧
        first.1.tally.dispatch = 0 ∧ first.1.tally.vector = 1 ∧
          second.1.tally.dispatch = 1 ∧ second.1.tally.vector = 0 := by
  intro p m first second
  refine ⟨?_, by decide, by decide, by decide, by decide +kernel, by decide +kernel,
    by decide +kernel, by decide +kernel, by decide +kernel, by decide +kernel⟩
  simp only [m, List.forall_mem_cons, List.not_mem_nil, false_implies, implies_true, and_true]
  exact Func.vectorFirst_reachable

end Module

end PtrTag
