import PtrTag.Proofs.Tagging.Twice

/-!
# `PtrTag/Proofs/Tagging/ModuleRun.lean` — a module is tagged function by function

What a run makes of a function does not depend on the functions around it. A run over a list of functions
whose first part gives no trouble goes on behind that part as if it started there
(`tagFunctions_append`); only the tally remembers what came before. And either no function gives trouble,
or there is a first one that does (`exists_first_failure`).

So a run that succeeds did the same as one run for each function, and one that fails did so for the
functions **before** the one that it names. It leaves the rest alone, and with it the tally of the pass.
-/

set_option autoImplicit false

namespace PtrTag

/-! ## Sums of tallies -/

namespace Tally

instance : Zero Tally := ⟨{}⟩

theorem add_assoc (a b c : Tally) : a + b + c = a + (b + c) := by
  show add (add a b) c = add a (add b c)
  simp [add, Nat.add_assoc]

theorem add_comm (a b : Tally) : a + b = b + a := by
  show add a b = add b a
  simp [add, Nat.add_comm]

theorem zero_add (a : Tally) : 0 + a = a := by
  show add {} a = a
  simp [add]

theorem add_zero (a : Tally) : a + 0 = a := by
  rw [add_comm, zero_add]

instance : Std.Associative (· + · : Tally → Tally → Tally) := ⟨add_assoc⟩

instance : Std.Commutative (· + · : Tally → Tally → Tally) := ⟨add_comm⟩

/-- The functions that a run meets, and how many of them it works on. -/
def ofFunctions (s : Scheme) (fs : List Func) : Tally :=
  { seen := fs.length, instrumented := (fs.filter (·.wantsTagging s)).length }

end Tally

section

variable {s : Scheme} {L : Layout} {globals : List String} {f : Func} {fs before : List Func}
  {outs : List Outcomes}

/-! ## Functions one by one -/

/-- What a run over a module makes of a function that it gets past. -/
def Func.afterRun (f : Func) (s : Scheme) (L : Layout) (globals : List String) : Func :=
  if f.wantsTagging s then (f.tag s L globals).state else f

theorem Func.name_tag (s : Scheme) (L : Layout) (globals : List String) (hf : f.Coherent) :
    (f.tag s L globals).state.name = f.name := by
  show (f.tag s L globals).state.outline.name = f.outline.name
  rw [(intact_tag s L globals hf).enriches.outline]

theorem Func.name_afterRun (s : Scheme) (L : Layout) (globals : List String) (hf : f.Coherent) :
    (f.afterRun s L globals).name = f.name := by
  unfold afterRun
  split
  · exact name_tag s L globals hf
  · rfl

/-- The functions that ask for tags get them, each in a run of its own, with these outcomes. -/
def TaggedAlone (s : Scheme) (L : Layout) (globals : List String) (fs : List Func)
    (outs : List Outcomes) : Prop :=
  (fs.filter (·.wantsTagging s)).map (fun f => (f.tag s L globals).result) = outs.map .ok

namespace TaggedAlone

theorem nil (s : Scheme) (L : Layout) (globals : List String) : TaggedAlone s L globals [] [] := rfl

theorem cons_iff_of_wants (hwants : f.wantsTagging s = true) :
    TaggedAlone s L globals (f :: fs) outs ↔ ∃ out rest, outs = out :: rest ∧
      (f.tag s L globals).result = .ok out ∧ TaggedAlone s L globals fs rest := by
  unfold TaggedAlone
  rw [List.filter_cons, if_pos hwants, List.map_cons]
  constructor
  · intro h
    obtain ⟨out, rest, rfl, hone, hrest⟩ := List.map_eq_cons_iff.mp h.symm
    exact ⟨out, rest, rfl, hone.symm, hrest.symm⟩
  · rintro ⟨out, rest, rfl, hone, hrest⟩
    rw [hone, hrest, List.map_cons]

theorem cons_iff_of_not_wants (hwants : ¬ f.wantsTagging s) :
    TaggedAlone s L globals (f :: fs) outs ↔ TaggedAlone s L globals fs outs := by
  unfold TaggedAlone
  rw [List.filter_cons, if_neg hwants]

end TaggedAlone

/-- Either every function that asks for tags gets them, or there is a first one that does not. -/
theorem exists_first_failure (s : Scheme) (L : Layout) (globals : List String) (fs : List Func) :
    (∃ outs, TaggedAlone s L globals fs outs) ∨
      ∃ before f rest outs e, fs = before ++ f :: rest ∧ TaggedAlone s L globals before outs ∧
        f.wantsTagging s = true ∧ (f.tag s L globals).result = .error e := by
  induction fs with
  | nil => exact .inl ⟨[], .nil s L globals⟩
  | cons f fs ih =>
    by_cases hwants : f.wantsTagging s
    · cases hone : (f.tag s L globals).result with
      | error e => exact .inr ⟨[], f, fs, [], e, rfl, .nil s L globals, hwants, hone⟩
      | ok out =>
        rcases ih with ⟨outs, hfs⟩ | ⟨before, g, rest, outs, e, rfl, hbefore, hg, herror⟩
        · exact .inl ⟨out :: outs, (TaggedAlone.cons_iff_of_wants hwants).mpr ⟨_, _, rfl, hone, hfs⟩⟩
        · refine .inr ⟨f :: before, g, rest, out :: outs, e, rfl, ?_, hg, herror⟩
          exact (TaggedAlone.cons_iff_of_wants hwants).mpr ⟨_, _, rfl, hone, hbefore⟩
    · rcases ih with ⟨outs, hfs⟩ | ⟨before, g, rest, outs, e, rfl, hbefore, hg, herror⟩
      · exact .inl ⟨outs, (TaggedAlone.cons_iff_of_not_wants hwants).mpr hfs⟩
      · refine .inr ⟨f :: before, g, rest, outs, e, rfl, ?_, hg, herror⟩
        exact (TaggedAlone.cons_iff_of_not_wants hwants).mpr hbefore

/-! ## Functions in a row -/

/-- The tally of a run that starts with none and gets past these functions. -/
def Tally.ofRuns (s : Scheme) (fs : List Func) (outs : List Outcomes) : Tally :=
  .ofFunctions s fs + (outs.map Outcomes.tally).sum

theorem Tally.ofRuns_cons_of_wants (hwants : f.wantsTagging s = true) (out : Outcomes) :
    Tally.ofRuns s (f :: fs) (out :: outs) =
      { seen := 1, instrumented := 1 } + out.tally + Tally.ofRuns s fs outs := by
  have hfunctions : Tally.ofFunctions s (f :: fs) =
      { seen := 1, instrumented := 1 } + Tally.ofFunctions s fs := by
    show _ = Tally.add _ _
    simp [Tally.ofFunctions, Tally.add, hwants, Nat.add_comm]
  unfold Tally.ofRuns
  rw [hfunctions, List.map_cons, List.sum_cons]
  ac_rfl

theorem Tally.ofRuns_cons_of_not_wants (hwants : ¬ f.wantsTagging s) :
    Tally.ofRuns s (f :: fs) outs = { seen := 1 } + Tally.ofRuns s fs outs := by
  have hfunctions : Tally.ofFunctions s (f :: fs) = { seen := 1 } + Tally.ofFunctions s fs := by
    show _ = Tally.add _ _
    simp [Tally.ofFunctions, Tally.add, hwants, Nat.add_comm]
  unfold Tally.ofRuns
  rw [hfunctions, Tally.add_assoc]

/-- A run goes on behind functions that give no trouble as if it started there. The induction is along
these functions, from any tally. -/
theorem tagFunctions_append (h : TaggedAlone s L globals before outs) (rest : List Func) (t : Tally) :
    (tagFunctions s L globals (before ++ rest) t).state =
        before.map (·.afterRun s L globals) ++
          (tagFunctions s L globals rest (t + .ofRuns s before outs)).state ∧
      (tagFunctions s L globals (before ++ rest) t).result =
        (tagFunctions s L globals rest (t + .ofRuns s before outs)).result := by
  induction before generalizing outs t with
  | nil =>
    obtain rfl : outs = [] := List.map_eq_nil_iff.mp (Eq.symm h)
    have hzero : t + Tally.ofRuns s [] [] = t := Tally.add_zero t
    rw [hzero]
    exact ⟨rfl, rfl⟩
  | cons f before ih =>
    rw [List.cons_append, List.map_cons, List.cons_append]
    by_cases hwants : f.wantsTagging s
    · obtain ⟨out, outs, rfl, hone, hbefore⟩ := (TaggedAlone.cons_iff_of_wants hwants).mp h
      obtain ⟨hstate, hresult⟩ := tagFunctions_cons_of_wants hwants hone (before ++ rest) t
      have hafter : f.afterRun s L globals = (f.tag s L globals).state := if_pos hwants
      rw [hstate, hresult, hafter, Tally.ofRuns_cons_of_wants hwants, ← Tally.add_assoc,
        ← Tally.add_assoc]
      obtain ⟨hrest, hend⟩ := ih hbefore (t + { seen := 1, instrumented := 1 } + out.tally)
      rw [hrest, hend]
      exact ⟨rfl, rfl⟩
    · have hbefore := (TaggedAlone.cons_iff_of_not_wants hwants).mp h
      obtain ⟨hstate, hresult⟩ := tagFunctions_cons_of_not_wants L globals hwants (before ++ rest) t
      have hafter : f.afterRun s L globals = f := if_neg hwants
      rw [hstate, hresult, hafter, Tally.ofRuns_cons_of_not_wants hwants, ← Tally.add_assoc]
      obtain ⟨hrest, hend⟩ := ih hbefore (t + { seen := 1 })
      rw [hrest, hend]
      exact ⟨rfl, rfl⟩

/-- A run without trouble. -/
theorem tagFunctions_of_taggedAlone (h : TaggedAlone s L globals fs outs) :
    (tagFunctions s L globals fs {}).state = fs.map (·.afterRun s L globals) ∧
      (tagFunctions s L globals fs {}).result = .ok (.ofRuns s fs outs) := by
  obtain ⟨hstate, hresult⟩ := tagFunctions_append h [] {}
  rw [List.append_nil] at hstate hresult
  refine ⟨hstate.trans (List.append_nil _), hresult.trans ?_⟩
  exact congrArg Except.ok (Tally.zero_add (Tally.ofRuns s fs outs))

/-- A run that stops. -/
theorem tagFunctions_of_failure (h : TaggedAlone s L globals before outs)
    (hwants : f.wantsTagging s = true) {e : Fault} (herror : (f.tag s L globals).result = .error e)
    (rest : List Func) :
    (tagFunctions s L globals (before ++ f :: rest) {}).state =
        before.map (·.afterRun s L globals) ++ (f.tag s L globals).state :: rest ∧
      (tagFunctions s L globals (before ++ f :: rest) {}).result = .error ⟨f.name, e⟩ := by
  obtain ⟨hstate, hresult⟩ := tagFunctions_append h (f :: rest) {}
  rw [hstate, hresult]
  simp only [tagFunctions, hwants, if_true, herror, and_self]

theorem map_name_tagFunctions (hfs : ∀ f ∈ fs, f.Coherent) :
    (tagFunctions s L globals fs {}).state.map Func.name = fs.map Func.name := by
  have hname : ∀ {before : List Func}, (∀ f ∈ before, f.Coherent) →
      (before.map (·.afterRun s L globals)).map Func.name = before.map Func.name := by
    intro before hbefore
    rw [List.map_map]
    exact List.map_congr_left fun f hf => Func.name_afterRun s L globals (hbefore f hf)
  rcases exists_first_failure s L globals fs with
    ⟨outs, halone⟩ | ⟨before, f, rest, outs, e, rfl, halone, hwants, herror⟩
  · rw [(tagFunctions_of_taggedAlone halone).1, hname hfs]
  · rw [List.forall_mem_append, List.forall_mem_cons] at hfs
    rw [(tagFunctions_of_failure halone hwants herror rest).1, List.map_append, List.map_append,
      hname hfs.1, List.map_cons, List.map_cons, Func.name_tag s L globals hfs.2.1]

/-! ## The pass -/

theorem Pass.run_of_error {p : Pass} {m : Module} {e : TagFailure}
    (h : (m.tag p.scheme).result = .error e) :
    p.run m = (p, { m.tag p.scheme with result := .error e }) := by
  unfold Pass.run
  simp only [h]

theorem Pass.run_of_taggedAlone {p : Pass} {m : Module}
    (h : TaggedAlone p.scheme m.layout m.globalNames m.functions outs) :
    (p.run m).1 = { p with tally := .ofRuns p.scheme m.functions outs } ∧
      (p.run m).2.state.functions =
        m.functions.map (·.afterRun p.scheme m.layout m.globalNames) ∧
        (p.run m).2.result = .ok .none := by
  obtain ⟨hstate, hresult⟩ := tagFunctions_of_taggedAlone h
  rw [Pass.run_of_ok hresult]
  exact ⟨rfl, hstate, rfl⟩

theorem Pass.run_of_failure {p : Pass} {m : Module} {rest : List Func} {e : Fault}
    (hsplit : m.functions = before ++ f :: rest)
    (h : TaggedAlone p.scheme m.layout m.globalNames before outs)
    (hwants : f.wantsTagging p.scheme = true)
    (herror : (f.tag p.scheme m.layout m.globalNames).result = .error e) :
    (p.run m).1 = p ∧
      (p.run m).2.state.functions = before.map (·.afterRun p.scheme m.layout m.globalNames) ++
        (f.tag p.scheme m.layout m.globalNames).state :: rest ∧
        (p.run m).2.result = .error ⟨f.name, e⟩ := by
  have hfailure := tagFunctions_of_failure h hwants herror rest
  rw [← hsplit] at hfailure
  rw [Pass.run_of_error hfailure.2]
  exact ⟨rfl, hfailure.1, rfl⟩

/-- A run that succeeds has met no trouble. -/
theorem Pass.exists_taggedAlone {p : Pass} {m : Module} {kept : Preserved}
    (hrun : (p.run m).2.result = .ok kept) :
    ∃ outs, TaggedAlone p.scheme m.layout m.globalNames m.functions outs := by
  rcases exists_first_failure p.scheme m.layout m.globalNames m.functions with
    halone | ⟨before, f, rest, outs, e, hsplit, halone, hwants, herror⟩
  · exact halone
  · obtain ⟨-, -, hresult⟩ := Pass.run_of_failure hsplit halone hwants herror
    cases hrun.symm.trans hresult

theorem Pass.state_run (p : Pass) (m : Module) : (p.run m).2.state = (m.tag p.scheme).state := by
  cases h : (m.tag p.scheme).result with
  | ok t => rw [Pass.run_of_ok h]
  | error e => rw [Pass.run_of_error h]

/-- A run of a pass does what one run for each function would do, up to the first that fails. Nothing but
functions changes, and each keeps its name and its place.

If the run succeeds, so does each function that asks for tags; it is then what its own run makes of it,
and the tally is the sum of the tallies of these runs, with the functions counted. If the run fails, it
names the first function that asks for tags and fails. The functions before it are what their own runs
make of them, the functions behind it are as before, and so is the pass. -/
theorem Pass.run_functionwise (p : Pass) (m : Module) (hfs : ∀ f ∈ m.functions, f.Reachable) :
    let s := p.scheme
    let alone := fun f : Func => f.tag s m.layout m.globalNames
    let after := fun f : Func => if f.wantsTagging s then (alone f).state else f
    let results := fun fs : List Func =>
      (fs.filter (·.wantsTagging s)).map fun f => (alone f).result
    let pass := (p.run m).1
    let trace := (p.run m).2
    trace.state = { m with functions := trace.state.functions } ∧
      trace.state.functions.map Func.name = m.functions.map Func.name ∧ pass.scheme = s ∧
      (∀ kept, trace.result = .ok kept →
        trace.state.functions = m.functions.map after ∧
          ∃ outs : List Outcomes, results m.functions = outs.map .ok ∧
            pass.tally = { seen := m.functions.length
                           instrumented := (m.functions.filter (·.wantsTagging s)).length } +
              (outs.map Outcomes.tally).sum) ∧
      (∀ e, trace.result = .error e → pass = p ∧
        ∃ before f rest, m.functions = before ++ f :: rest ∧
          (∃ outs : List Outcomes, results before = outs.map .ok) ∧ f.wantsTagging s = true ∧
            e.func = f.name ∧ (alone f).result = .error e.cause ∧
              trace.state.functions = before.map after ++ (alone f).state :: rest) := by
  intro s alone after results pass trace
  have hstate : trace.state = (m.tag s).state := p.state_run m
  have hnames : (m.tag s).state.functions.map Func.name = m.functions.map Func.name :=
    map_name_tagFunctions fun f hf => (hfs f hf).coherent
  rw [hstate]
  rcases exists_first_failure s m.layout m.globalNames m.functions with
    ⟨outs, halone⟩ | ⟨before, f, rest, outs, e, hsplit, halone, hwants, herror⟩
  · obtain ⟨hpass, hfunctions, hresult⟩ := Pass.run_of_taggedAlone halone
    have hscheme : (p.run m).1.scheme = p.scheme := by rw [hpass]
    rw [p.state_run] at hfunctions
    refine ⟨rfl, hnames, hscheme, ?_, ?_⟩
    · intro _ _
      exact ⟨hfunctions, outs, halone, congrArg Pass.tally hpass⟩
    · intro e he
      cases hresult.symm.trans he
  · obtain ⟨hpass, hfunctions, hresult⟩ := Pass.run_of_failure hsplit halone hwants herror
    have hscheme : (p.run m).1.scheme = p.scheme := by rw [hpass]
    rw [p.state_run] at hfunctions
    refine ⟨rfl, hnames, hscheme, ?_, ?_⟩
    · intro _ he
      cases hresult.symm.trans he
    · intro e' he
      obtain rfl := Except.error.inj (hresult.symm.trans he)
      exact ⟨hpass, before, f, rest, hsplit, ⟨outs, halone⟩, hwants, rfl, herror, hfunctions⟩

theorem Func.lookUps_reachable : lookUps.Reachable := (Reachable.fresh _ _ _).mutate _

theorem Module.mixed_reachable : ∀ f ∈ Module.mixed.functions, f.Reachable := by
  simp only [Module.mixed, List.forall_mem_cons, List.not_mem_nil, false_implies, implies_true,
    and_true]
  exact ⟨Func.vectorFirst_reachable, Func.lookUps_reachable, .fresh _ _ _⟩

/-- Nothing follows the second of two pointers, so a run stops there, when the first one has its tag. -/
def Func.unfinished : Func :=
  (fresh "k" .void [⟨"p", .ptr⟩]).mutate
    [.withAttribute .tagPointers, .addBlock "entry",
      .append 0 { op := .gep ⟨.int 32, .arg 0, [.ofWord 1 64], false⟩, ty := .ptr, name := some "a" },
      .append 0 { op := .gep ⟨.int 32, .arg 0, [.ofWord 2 64], false⟩, ty := .ptr, name := some "b" }]

/-- A module with that function between others. -/
def Module.interrupted : Module :=
  { name := "m", functions := [.lookUps, .fresh "h" .void [], .unfinished, .vectorFirst] }

theorem Pass.interrupted_functionwise :
    let p : Pass := { tally := { seen := 9 } }
    let failed := p.run .interrupted
    let done := p.run .mixed
    (∀ f ∈ Module.interrupted.functions, f.Reachable) ∧ (∀ f ∈ Module.mixed.functions, f.Reachable) ∧
      failed.2.result = .error ⟨"k", .noInsertionPoint 1⟩ ∧ failed.1 = p ∧
      failed.2.state.functions =
        [(Func.lookUps.tag {} .lp64 []).state, .fresh "h" .void [],
          (Func.unfinished.tag {} .lp64 []).state, .vectorFirst] ∧
      Func.unfinished.insts.size < (Func.unfinished.tag {} .lp64 []).state.insts.size ∧
      done.2.result = .ok .none ∧
      done.2.state.functions =
        [(Func.vectorFirst.tag {} .lp64 []).state, (Func.lookUps.tag {} .lp64 []).state,
          .fresh "h" .void []] ∧
      ∃ first second, (Func.vectorFirst.tag {} .lp64 []).result = .ok first ∧
        (Func.lookUps.tag {} .lp64 []).result = .ok second ∧
          done.1.tally = { seen := 3, instrumented := 2 } + (first.tally + second.tally) := by
  intro p failed done
  have hunfinished : Func.unfinished.Reachable := (Func.Reachable.fresh _ _ _).mutate _
  have hinterrupted : ∀ f ∈ Module.interrupted.functions, f.Reachable := by
    simp only [Module.interrupted, List.forall_mem_cons, List.not_mem_nil, false_implies,
      implies_true, and_true]
    exact ⟨Func.lookUps_reachable, .fresh _ _ _, hunfinished, Func.vectorFirst_reachable⟩
  have hfirst : Func.vectorFirst.wantsTagging {} = true := by decide +kernel
  have hsecond : Func.lookUps.wantsTagging {} = true := by decide +kernel
  have hplain : ¬ (Func.fresh "h" .void []).wantsTagging {} := by decide +kernel
  have herror : failed.2.result = .error ⟨"k", .noInsertionPoint 1⟩ := by decide +kernel
  have hok : done.2.result = .ok .none := by decide +kernel
  obtain ⟨-, -, -, -, hfails⟩ := Pass.run_functionwise p .interrupted hinterrupted
  obtain ⟨-, -, -, hsucceeds, -⟩ := Pass.run_functionwise p .mixed Module.mixed_reachable
  obtain ⟨hpass, before, f, rest, hsplit, -, -, hname, -, hstate⟩ := hfails _ herror
  obtain ⟨hdone, outs, hresults, htally⟩ := hsucceeds _ hok
  refine ⟨hinterrupted, Module.mixed_reachable, herror, hpass, hstate.trans ?_, by decide +kernel, hok,
    hdone.trans ?_, ?_⟩
  · -- Its name tells which function it was.
    rcases before with _ | ⟨f₀, _ | ⟨f₁, _ | ⟨f₂, before⟩⟩⟩
    · obtain ⟨rfl, -⟩ := List.cons.inj hsplit
      exact absurd hname (by decide +kernel)
    · obtain ⟨-, htail⟩ := List.cons.inj hsplit
      obtain ⟨rfl, -⟩ := List.cons.inj htail
      exact absurd hname (by decide +kernel)
    · obtain ⟨rfl, htail₁⟩ := List.cons.inj hsplit
      obtain ⟨rfl, htail₂⟩ := List.cons.inj htail₁
      obtain ⟨rfl, rfl⟩ := List.cons.inj htail₂
      rw [List.map_cons, List.map_cons, if_pos hsecond, if_neg hplain]
      rfl
    · obtain ⟨-, htail₁⟩ := List.cons.inj hsplit
      obtain ⟨-, htail₂⟩ := List.cons.inj htail₁
      obtain ⟨-, htail₃⟩ := List.cons.inj htail₂
      obtain rfl : Func.vectorFirst = f := by
        rcases List.append_eq_singleton_iff.mp htail₃.symm with ⟨-, h⟩ | ⟨-, h⟩
        · exact (List.cons.inj h).1.symm
        · cases h
      exact absurd hname (by decide +kernel)
  · rw [Module.mixed, List.map_cons, List.map_cons, List.map_cons, if_pos hfirst, if_pos hsecond,
      if_neg hplain]
    rfl
  · obtain ⟨first, rest, rfl, hone, hrest⟩ := (TaggedAlone.cons_iff_of_wants hfirst).mp hresults
    obtain ⟨second, rest, rfl, htwo, hrest⟩ := (TaggedAlone.cons_iff_of_wants hsecond).mp hrest
    rw [TaggedAlone.cons_iff_of_not_wants hplain] at hrest
    obtain rfl : rest = [] := List.map_eq_nil_iff.mp (Eq.symm hrest)
    have hcounts : Tally.ofFunctions p.scheme Module.mixed.functions =
        { seen := 3, instrumented := 2 } := by decide +kernel
    refine ⟨first, second, hone, htwo, htally.trans ?_⟩
    exact congrArg₂ (· + ·) hcounts (congrArg (first.tally + ·) (Tally.add_zero second.tally))

end

end PtrTag
