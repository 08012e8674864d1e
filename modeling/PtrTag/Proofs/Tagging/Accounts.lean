import PtrTag.Proofs.Tagging.Code
import PtrTag.Proofs.Tagging.ModuleRun

/-!
# `PtrTag/Proofs/Tagging/Accounts.lean` — the tally and the module agree

A tally is kept branch by branch while a run goes on. What it says can be checked against counts that
know nothing of it: the address computations, blocks and instructions of the module, before and after.

`Tally.Accounts` is that check, for a tally and the instructions that were made meanwhile. It adds up, so
it needs to be done for one address computation only (`Edit.accounts_tagGep`), where the code of a tag
is read off its operators. Every list of functions then passes it by induction.
-/

set_option autoImplicit false

namespace PtrTag

/-! ## Tallies that add up -/

/-- The tally `t` adds up, for a run that saw so many functions, worked on so many of them, met `geps`
address computations there and made `grown` instructions. -/
structure Tally.Accounts (t : Tally) (seen instrumented geps grown : Nat) : Prop where
  seen : t.seen = seen
  instrumented : t.instrumented = instrumented
  candidates : t.candidates = geps
  /-- Everything was tagged or left alone. -/
  settled : t.candidates = t.tagged + t.skipped
  offsets : t.tagged = t.constantOffsets + t.dynamicOffsets
  unsplit : t.edgesSplit = 0
  /-- Each tag takes seven instructions, besides those that compute an offset. -/
  code : 7 * t.tagged ≤ grown
  code_eq : t.dynamicOffsets = 0 → grown = 7 * t.tagged

namespace Tally

/-- A tally of functions alone. -/
theorem accounts_seen (n k : Nat) : Accounts { seen := n, instrumented := k } n k 0 0 :=
  ⟨rfl, rfl, rfl, rfl, rfl, rfl, Nat.le_refl 0, fun _ => rfl⟩

theorem skipped_add (t u : Tally) : (t + u).skipped = t.skipped + u.skipped := by
  show t.zeroIndex + u.zeroIndex + (t.dispatch + u.dispatch) + (t.vector + u.vector) +
    (t.alreadyTagged + u.alreadyTagged) = _
  unfold skipped
  omega

theorem Accounts.add {t u : Tally} {n n' k k' geps geps' grown grown' : Nat}
    (ht : t.Accounts n k geps grown) (hu : u.Accounts n' k' geps' grown') :
    (t + u).Accounts (n + n') (k + k') (geps + geps') (grown + grown') where
  seen := congrArg₂ (· + ·) ht.seen hu.seen
  instrumented := congrArg₂ (· + ·) ht.instrumented hu.instrumented
  candidates := congrArg₂ (· + ·) ht.candidates hu.candidates
  settled := by
    show t.candidates + u.candidates = t.tagged + u.tagged + (t + u).skipped
    rw [skipped_add, ht.settled, hu.settled, Nat.add_add_add_comm]
  offsets := by
    show t.tagged + u.tagged =
      t.constantOffsets + u.constantOffsets + (t.dynamicOffsets + u.dynamicOffsets)
    rw [ht.offsets, hu.offsets, Nat.add_add_add_comm]
  unsplit := congrArg₂ (· + ·) ht.unsplit hu.unsplit
  code := by
    show 7 * (t.tagged + u.tagged) ≤ grown + grown'
    rw [Nat.mul_add]
    exact Nat.add_le_add ht.code hu.code
  code_eq := by
    intro hdynamic
    obtain ⟨hdynamic, hdynamic'⟩ : t.dynamicOffsets = 0 ∧ u.dynamicOffsets = 0 :=
      Nat.add_eq_zero_iff.mp hdynamic
    show grown + grown' = 7 * (t.tagged + u.tagged)
    rw [ht.code_eq hdynamic, hu.code_eq hdynamic', Nat.mul_add]

end Tally

theorem Outcome.accounts_skipped (why : Skip) : (Outcome.skipped why).tally.Accounts 0 0 1 0 := by
  cases why <;> exact ⟨rfl, rfl, rfl, rfl, rfl, rfl, Nat.le_refl 0, fun _ => rfl⟩

/-- A tag with `extra` instructions for its offset. -/
theorem Outcome.accounts_tagged (r : InstId) {constant : Bool} {extra : Nat}
    (h : constant = true → extra = 0) :
    (Outcome.tagged r constant false).tally.Accounts 0 0 1 (7 + extra) := by
  cases constant with
  | true =>
    obtain rfl := h rfl
    exact ⟨rfl, rfl, rfl, rfl, rfl, rfl, Nat.le_refl 7, fun _ => rfl⟩
  | false =>
    refine ⟨rfl, rfl, rfl, rfl, rfl, rfl, Nat.le_add_right 7 extra, ?_⟩
    intro hdynamic
    cases hdynamic

/-! ## One address computation -/

namespace Edit

open Func

theorem accounts_tagGep {f f' : Func} (hf : f.Coherent) {s : Scheme} {L : Layout}
    {globals : List String} {gep : InstId} {outcome : Outcome}
    (h : tagGep s L globals gep f = .ok outcome f') :
    ∃ grown, f'.insts.size = f.insts.size + grown ∧ outcome.tally.Accounts 0 0 1 grown := by
  -- Three of the five cases are failures, which have no outcome.
  rcases @tagGep_cases f s L globals gep _ rfl hf with
    ⟨e, -, hrun⟩ | ⟨why, -, hrun⟩ | ⟨-, ⟨e, -, hrun⟩ | ⟨-, -, hrun⟩ | ⟨-, -, r, f₁, hrun, -⟩⟩
  · cases hrun.symm.trans h
  · cases hrun.symm.trans h
    exact ⟨0, rfl, Outcome.accounts_skipped why⟩
  · cases hrun.symm.trans h
  · cases hrun.symm.trans h
  · cases hrun.symm.trans h
    obtain ⟨offset, hcode, hconstant⟩ := exists_operators_tagGep hrun
    have hsize : f'.insts.size = f.insts.size + (7 + offset.length) := by
      have hlength := congrArg List.length hcode
      simp only [List.length_append, length_operators, tagOperators, List.take_succ_cons,
        List.take_zero, List.drop_succ_cons, List.drop_zero, List.length_cons, List.length_nil]
        at hlength
      omega
    refine ⟨7 + offset.length, hsize, Outcome.accounts_tagged r ?_⟩
    intro hfixed
    rw [hconstant hfixed, List.length_nil]

end Edit

/-! ## One function -/

namespace Func

variable {f : Func} {s : Scheme} {L : Layout} {globals : List String} {outs : Outcomes}

/-- A walk over the blocks meets every instruction once. -/
theorem Coherent.length_instructions (hf : f.Coherent) : f.instructions.length = f.insts.size := by
  have hperm : f.instructions.Perm (List.range f.insts.size) := by
    rw [List.perm_ext_iff_of_nodup hf.nodup_instructions List.nodup_range]
    intro id
    rw [hf.mem_instructions, List.mem_range]
  rw [hperm.length_eq, List.length_range]

theorem accounts_tagEach {geps : List InstId} (hf : f.Coherent)
    (h : (tagEach s L globals geps f).result = .ok outs) :
    ∃ grown, (tagEach s L globals geps f).state.insts.size = f.insts.size + grown ∧
      outs.tally.Accounts 0 0 geps.length grown := by
  induction geps generalizing f outs with
  | nil =>
    obtain rfl : [] = outs := Except.ok.inj h
    exact ⟨0, rfl, Tally.accounts_seen 0 0⟩
  | cons gep geps ih =>
    obtain ⟨outcome, f₁, rest, hone, hrest, rfl, hstate⟩ := ok_of_tagEach_cons h
    obtain ⟨grown₁, hsize₁, haccounts₁⟩ := Edit.accounts_tagGep hf hone
    have hf₁ : f₁.Coherent := (Edit.keeps_tagGep s L globals gep).of_ok hf hone
    obtain ⟨grown₂, hsize₂, haccounts₂⟩ := ih hf₁ hrest
    refine ⟨grown₁ + grown₂, ?_, ?_⟩
    · rw [hstate, hsize₂, hsize₁, Nat.add_assoc]
    · rw [List.length_cons, Nat.add_comm]
      exact haccounts₁.add haccounts₂

theorem accounts_tag (hf : f.Coherent) (h : (f.tag s L globals).result = .ok outs) :
    ∃ grown, (f.tag s L globals).state.instructions.length = f.instructions.length + grown ∧
      outs.tally.Accounts 0 0 f.geps.length grown := by
  rw [(intact_tag s L globals hf).coherent.length_instructions, hf.length_instructions]
  have heach := tagEach_of_tag h
  rw [heach] at h ⊢
  exact accounts_tagEach hf h

end Func

/-! ## Modules -/

section

variable {s : Scheme} {L : Layout} {globals : List String} {fs : List Func} {outs : List Outcomes}

theorem Module.total_eq_sum (m : Module) (size : Func → Nat) :
    m.total size = (m.functions.map size).sum := by
  rw [Module.total, List.sum_eq_foldl, List.foldl_map]

theorem TaggedAlone.accounts (hfs : ∀ f ∈ fs, f.Coherent) (h : TaggedAlone s L globals fs outs) :
    ∃ grown,
      (fs.map fun f => (f.afterRun s L globals).instructions.length).sum =
          (fs.map (·.instructions.length)).sum + grown ∧
        Tally.Accounts (outs.map Outcomes.tally).sum 0 0
          ((fs.filter (·.wantsTagging s)).map (·.geps.length)).sum grown := by
  induction fs generalizing outs with
  | nil =>
    obtain rfl : outs = [] := List.map_eq_nil_iff.mp (Eq.symm h)
    exact ⟨0, rfl, Tally.accounts_seen 0 0⟩
  | cons f fs ih =>
    rw [List.forall_mem_cons] at hfs
    rw [List.map_cons, List.map_cons, List.sum_cons, List.sum_cons, List.filter_cons]
    by_cases hwants : f.wantsTagging s
    · obtain ⟨out, outs, rfl, hone, hrest⟩ := (cons_iff_of_wants hwants).mp h
      have hafter : f.afterRun s L globals = (f.tag s L globals).state := if_pos hwants
      obtain ⟨grown₁, hsize₁, haccounts₁⟩ := Func.accounts_tag hfs.1 hone
      obtain ⟨grown₂, hsize₂, haccounts₂⟩ := ih hfs.2 hrest
      refine ⟨grown₁ + grown₂, ?_, ?_⟩
      · rw [hafter, hsize₁, hsize₂, Nat.add_add_add_comm]
      · rw [if_pos hwants, List.map_cons, List.map_cons, List.sum_cons, List.sum_cons]
        exact haccounts₁.add haccounts₂
    · have hafter : f.afterRun s L globals = f := if_neg hwants
      obtain ⟨grown, hsize, haccounts⟩ := ih hfs.2 ((cons_iff_of_not_wants hwants).mp h)
      rw [if_neg hwants]
      refine ⟨grown, ?_, haccounts⟩
      rw [hafter, hsize, Nat.add_assoc]

/-- Every size of a module is after a run what it was, if no run over a function changes it. -/
theorem Module.total_eq_of_afterRun {m M : Module} (size : Func → Nat)
    (hsize : ∀ f : Func, f.Coherent → size (f.tag s L globals).state = size f)
    (hfs : ∀ f ∈ m.functions, f.Coherent)
    (hM : M.functions = m.functions.map (·.afterRun s L globals)) : M.total size = m.total size := by
  rw [Module.total_eq_sum, Module.total_eq_sum, hM, List.map_map]
  refine congrArg List.sum (List.map_congr_left ?_)
  intro f hf
  show size (f.afterRun s L globals) = size f
  unfold Func.afterRun
  split
  · exact hsize f (hfs f hf)
  · rfl

/-- The tally of a run that succeeds accounts for everything. It has seen all functions; the address
computations of those that ask for tags are its candidates, and each was tagged or left alone; each tag
has a constant offset or a computed one; no edge was split. The run made no address computation and no
block, and seven instructions for each tag, with more only for offsets that are computed. -/
theorem Pass.run_accounts (p : Pass) (m : Module) (hfs : ∀ f ∈ m.functions, f.Reachable)
    {kept : Preserved} (hrun : (p.run m).2.result = .ok kept) :
    let t := (p.run m).1.tally
    let M := (p.run m).2.state
    let eligible := { m with functions := m.functions.filter (·.wantsTagging p.scheme) }
    t.seen = m.functions.length ∧ t.instrumented = eligible.functions.length ∧
      t.candidates = eligible.gepCount ∧ t.candidates = t.tagged + t.skipped ∧
        t.tagged = t.constantOffsets + t.dynamicOffsets ∧ t.edgesSplit = 0 ∧
          M.gepCount = m.gepCount ∧ M.blockCount = m.blockCount ∧
            m.instCount + 7 * t.tagged ≤ M.instCount ∧
              (t.dynamicOffsets = 0 → M.instCount = m.instCount + 7 * t.tagged) := by
  intro t M eligible
  have hcoherent : ∀ f ∈ m.functions, f.Coherent := fun f hf => (hfs f hf).coherent
  obtain ⟨outs, halone⟩ := Pass.exists_taggedAlone hrun
  obtain ⟨hpass, hfunctions, -⟩ := Pass.run_of_taggedAlone halone
  have ht : t = .ofFunctions p.scheme m.functions + (outs.map Outcomes.tally).sum :=
    congrArg Pass.tally hpass
  obtain ⟨grown, hgrown, haccounts⟩ := halone.accounts hcoherent
  have h : t.Accounts m.functions.length eligible.functions.length eligible.gepCount grown := by
    have hsum := (Tally.accounts_seen m.functions.length eligible.functions.length).add haccounts
    rw [Nat.zero_add, Nat.zero_add] at hsum
    rw [ht, Module.gepCount, Module.total_eq_sum]
    exact hsum
  have hinsts : M.instCount = m.instCount + grown := by
    rw [Module.instCount, Module.instCount, Module.total_eq_sum, Module.total_eq_sum, hfunctions,
      List.map_map]
    exact hgrown
  refine ⟨h.seen, h.instrumented, h.candidates, h.settled, h.offsets, h.unsplit, ?_, ?_, ?_, ?_⟩
  · refine Module.total_eq_of_afterRun (·.geps.length) ?_ hcoherent hfunctions
    intro f hf
    rw [(Func.intact_tag _ _ _ hf).enriches.geps]
  · refine Module.total_eq_of_afterRun (·.order.length) ?_ hcoherent hfunctions
    intro f hf
    rw [(Func.intact_tag _ _ _ hf).enriches.order]
  · rw [hinsts]
    exact Nat.add_le_add_left h.code _
  · intro hdynamic
    rw [hinsts, h.code_eq hdynamic]

/-- A module with one of these functions. -/
def Module.single : Module := { name := "m", functions := [.vectorFirst] }

/-- One of the two tags in the first module has an offset that is computed; the one tag in the second
module has a constant offset. -/
theorem Pass.mixed_accounts :
    let first := ({} : Pass).run .mixed
    let second := ({} : Pass).run .single
    (∀ f ∈ Module.mixed.functions, f.Reachable) ∧ (∀ f ∈ Module.single.functions, f.Reachable) ∧
      first.2.result = .ok .none ∧ second.2.result = .ok .none ∧
      first.1.tally.seen = 3 ∧ first.1.tally.candidates = 5 ∧
        first.1.tally.tagged + first.1.tally.skipped = 5 ∧ first.1.tally.edgesSplit = 0 ∧
          first.2.state.gepCount = 5 ∧ first.2.state.blockCount = 4 ∧
            10 + 7 * 2 ≤ first.2.state.instCount ∧ second.1.tally.dynamicOffsets = 0 ∧
              second.2.state.instCount = 5 + 7 * 1 := by
  have hsingle : ∀ f ∈ Module.single.functions, f.Reachable := by
    simp only [Module.single, List.forall_mem_cons, List.not_mem_nil, false_implies, implies_true,
      and_true]
    exact Func.vectorFirst_reachable
  have hfirst : (({} : Pass).run .mixed).2.result = .ok .none := by decide +kernel
  have hsecond : (({} : Pass).run .single).2.result = .ok .none := by decide +kernel
  obtain ⟨hseen, -, hcandidates, hsettled, -, hunsplit, hgeps, hblocks, hcode, -⟩ :=
    Pass.run_accounts {} .mixed Module.mixed_reachable hfirst
  obtain ⟨-, -, -, -, -, -, -, -, -, hexact⟩ := Pass.run_accounts {} .single hsingle hsecond
  have hfive : (({} : Pass).run .mixed).1.tally.candidates = 5 := hcandidates.trans (by decide +kernel)
  have htwo : (({} : Pass).run .mixed).1.tally.tagged = 2 := by decide +kernel
  have hone : (({} : Pass).run .single).1.tally.tagged = 1 := by decide +kernel
  have hconstant : (({} : Pass).run .single).1.tally.dynamicOffsets = 0 := by decide +kernel
  have hinsts : Module.mixed.instCount = 10 ∧ Module.single.instCount = 5 := by decide +kernel
  rw [hinsts.1, htwo] at hcode
  have hgrown := hexact hconstant
  rw [hinsts.2, hone] at hgrown
  exact ⟨Module.mixed_reachable, hsingle, hfirst, hsecond, hseen, hfive, hsettled.symm.trans hfive,
    hunsplit, hgeps.trans (by decide +kernel), hblocks.trans (by decide +kernel), hcode, hconstant,
    hgrown⟩

end

end PtrTag
