import PtrTag.Proofs.Func.Reachable
import PtrTag.Proofs.Tagging.Site

/-!
# `PtrTag/Proofs/Tagging/Refusal.lean` — an operation that fails changes nothing

The state of an edit survives its failure, so an edit that stops half-way leaves what it had done. No
single operation does that. Most of them ask all their questions first and then change the function in one
go. The others change it several times, and what they ask in between has an answer whenever they get that
far: a split edge finds its phis, a replaced result finds its users, and code goes before an anchor that
was there from the start. There are two ways to see that an operation is of this kind (`Edit.SafeAt`): it
asks before it changes anything (`SafeAt.ask_bind`), or it cannot fail from here on (`SafeAt.of_yields`).

A whole run over a function is not a single operation: it may stop at its second pointer.
-/

set_option autoImplicit false

namespace PtrTag

namespace Edit

variable {α β : Type} {f : Func}

/-- The fault that an edit ends in, if it fails. -/
def fault? (m : Edit α) (f : Func) : Option Fault :=
  match m f with
  | .ok _ _ => none
  | .error e _ => some e

/-- If the edit fails at `f`, it leaves `f`. -/
def SafeAt (m : Edit α) (f : Func) : Prop := ∀ e f', m f = .error e f' → f' = f

namespace SafeAt

theorem after_eq {m : Edit α} (h : SafeAt m f) {e : Fault} (he : m.fault? f = some e) :
    m.after f = f := by
  unfold fault? at he
  cases hr : m f with
  | ok a f' =>
    rw [hr] at he
    cases he
  | error e' f' =>
    rw [after_of_error hr]
    exact h e' f' hr

/-! ## Rules -/

theorem of_yields {m : Edit α} {Q : α → Func → Prop} (h : Yields m f Q) : SafeAt m f := by
  obtain ⟨a, f', hr, -⟩ := h
  intro e f'' he
  cases hr.symm.trans he

theorem of_ok {m : Edit α} {a : α} {f' : Func} (h : m f = .ok a f') : SafeAt m f :=
  of_yields (Q := fun _ _ => True) ⟨a, f', h, trivial⟩

theorem of_error {m : Edit α} {e : Fault} (h : m f = .error e f) : SafeAt m f := by
  intro e' f' he
  cases h.symm.trans he
  rfl

theorem of_after {m : Edit α} (h : m.after f = f) : SafeAt m f := by
  intro e f' he
  rw [← h, after_of_error he]

theorem ask (question : Func → Except Fault α) : SafeAt (Edit.ask question) f :=
  of_after (Keeps.ask (P := (· = f)) question f rfl)

theorem ask_bind {question : Func → Except Fault α} {k : α → Edit β}
    (h : ∀ a, question f = .ok a → SafeAt (k a) f) : SafeAt (Edit.ask question >>= k) f := by
  intro e f' he
  cases hq : question f with
  | ok a => exact h a hq e f' ((ask_bind_of_ok hq).symm.trans he)
  | error e' => cases (ask_bind_of_error hq).symm.trans he; rfl

theorem map {g : α → β} {m : Edit α} (h : SafeAt m f) : SafeAt (g <$> m) f := by
  rw [← bind_pure_comp]
  intro e f' he
  cases hr : m f with
  | ok a f₁ => cases (bind_of_ok hr).symm.trans he
  | error e' f₁ =>
    cases (bind_of_error hr).symm.trans he
    exact h e f' hr

theorem discard {m : Edit α} (h : SafeAt m f) : SafeAt (discard m) f := h.map

end SafeAt

open Func

/-! ## Operations that ask first -/

theorem safeAt_insertBlockBefore (base : String) (before : BlockId) :
    SafeAt (insertBlockBefore base before) f :=
  SafeAt.ask_bind fun _ _ => .of_ok rfl

theorem safeAt_create (d : Draft) (b : BlockId) (pos : Nat) : SafeAt (create d b pos) f :=
  SafeAt.ask_bind fun _ _ => .of_ok rfl

theorem safeAt_append (b : BlockId) (d : Draft) : SafeAt (append b d) f :=
  SafeAt.ask_bind fun _ _ => safeAt_create _ _ _

theorem safeAt_insertBefore (anchor : InstId) (d : Draft) : SafeAt (insertBefore anchor d) f :=
  SafeAt.ask_bind fun _ _ => SafeAt.ask_bind fun _ _ => SafeAt.ask_bind fun _ _ =>
    safeAt_create _ _ _

theorem safeAt_mark (id : InstId) (change : Marks → Marks) : SafeAt (mark id change) f :=
  SafeAt.ask_bind fun _ _ => .of_ok rfl

theorem safeAt_addIncoming (phi : InstId) (value : Value) (b : BlockId) :
    SafeAt (addIncoming phi value b) f :=
  SafeAt.ask_bind fun _ _ => SafeAt.ask_bind fun _ _ => SafeAt.ask_bind fun _ _ => .of_ok rfl

theorem safeAt_rekeyIncoming (phi : InstId) (old new : BlockId) :
    SafeAt (rekeyIncoming phi old new) f :=
  SafeAt.ask_bind fun _ _ => SafeAt.ask_bind fun _ _ => .of_ok rfl

theorem safeAt_setNormalDest (invoke : InstId) (dest : BlockId) :
    SafeAt (setNormalDest invoke dest) f :=
  SafeAt.ask_bind fun _ _ => SafeAt.ask_bind fun _ _ => .of_ok rfl

theorem safeAt_replaceUses (user gone : InstId) (repl : Value) :
    SafeAt (replaceUses user gone repl) f := by
  refine SafeAt.ask_bind fun _ _ => SafeAt.ask_bind fun _ _ => SafeAt.ask_bind fun u _ => ?_
  dsimp only
  split
  · exact .of_ok rfl
  · exact .of_ok rfl

/-! ## Emitters -/

theorem safeAt_emit (anchor : InstId) (op : Op) (ty : Ty) (name : Option String) :
    SafeAt (emit anchor op ty name) f :=
  safeAt_insertBefore _ _

theorem safeAt_emitBinary (anchor : InstId) (op : BinOp) (lhs rhs : Value) (name : Option String) :
    SafeAt (emitBinary anchor op lhs rhs name) f := by
  refine SafeAt.ask_bind fun ty _ => ?_
  split
  · exact .of_ok rfl
  · exact (safeAt_emit _ _ _ _).map

theorem safeAt_emitNeg (anchor : InstId) (v : Value) (name : Option String) :
    SafeAt (emitNeg anchor v name) f :=
  SafeAt.ask_bind fun _ _ => safeAt_emitBinary _ _ _ _ _

theorem safeAt_emitPtrToInt (anchor : InstId) (v : Value) (ty : Ty) (name : Option String) :
    SafeAt (emitPtrToInt anchor v ty name) f := by
  unfold emitPtrToInt
  split
  · exact .of_ok rfl
  · exact (safeAt_emit _ _ _ _).map

theorem safeAt_emitResize (anchor : InstId) (v : Value) (ty : Ty) (name : Option String) :
    SafeAt (emitResize anchor v ty name) f := by
  refine SafeAt.ask_bind fun bits _ => ?_
  split
  · exact .of_ok rfl
  · split
    · exact .of_ok rfl
    · exact (safeAt_emit _ _ _ _).map

/-- Before an anchor that does not exist nothing is ever emitted. -/
theorem keepsArith_eq_of_dangling {anchor : InstId} (h : f.insts.size ≤ anchor) :
    KeepsArith (· = f) anchor := by
  rintro op ty name - f' rfl
  refine after_insertBefore (P := (· = f')) rfl fun i pos hi => ?_
  exact absurd (lt_of_inst hi) (Nat.not_lt.mpr h)

/-- A displacement that can be computed is emitted in full, if its anchor exists. -/
theorem safeAt_emitOffset (hf : f.Coherent) (anchor : InstId) (L : Layout) (gep : InstId)
    (name : Option String) : SafeAt (emitOffset anchor L gep name) f := by
  by_cases hanchor : anchor < f.insts.size
  · cases hterms : f.gepTerms L gep with
    | error e => exact .of_error (ask_bind_of_error hterms)
    | ok terms =>
      have hready : f.Ready (fun _ => True) anchor := ⟨hf, hanchor, fun _ _ => trivial⟩
      have husable : TermsUsable L (fun _ => True) f terms := by
        obtain ⟨g, steps, -, hcheck, -, rfl⟩ := gepTerms_eq_ok_iff.mp hterms
        exact termsUsable_of_checked hcheck fun _ _ => trivial
      exact .of_yields (yields_emitOffset L hready hterms husable name)
  · have hkeeps := keepsArith_eq_of_dangling (Nat.not_lt.mp hanchor)
    exact .of_after (hkeeps.emitOffset L gep name f rfl)

theorem safeAt_emitDisplacement (hf : f.Coherent) (anchor : InstId) (L : Layout) (gep : InstId)
    (name : Option String) : SafeAt (emitDisplacement anchor L gep name) f := by
  refine SafeAt.ask_bind fun bytes _ => ?_
  split
  · exact .of_ok rfl
  · exact (safeAt_emitOffset hf _ _ _ _).map

/-! ## Replacing every use -/

/-- If the replacement does not exist, the first user says so; if it does, nothing can go wrong. -/
theorem safeAt_replaceUsesIn (hf : f.Coherent) {gone : InstId} (repl : Value) {users : List InstId}
    (hgone : gone < f.insts.size) (husers : ∀ u ∈ users, u < f.insts.size) :
    SafeAt (replaceUsesIn gone repl users) f := by
  cases hrepl : f.checkValue repl with
  | ok u => exact .of_yields (yields_replaceUsesIn hf (checkValue_eq_ok_iff.mp hrepl) hgone husers)
  | error e =>
    cases users with
    | nil => exact .of_ok rfl
    | cons user rest =>
      have hfirst : replaceUses user gone repl f = .error e f := ask_bind_of_error hrepl
      exact .of_error (bind_of_error hfirst)

theorem safeAt_replaceAllUses (hf : f.Coherent) (gone : InstId) (repl : Value) :
    SafeAt (replaceAllUses gone repl) f := by
  refine SafeAt.ask_bind fun users husers => ?_
  obtain ⟨i, hi, heq⟩ := bind_eq_ok_iff.mp husers
  obtain rfl : i.users = users := Except.ok.inj heq
  rw [inst_eq_ok_iff] at hi
  exact safeAt_replaceUsesIn hf repl (lt_of_inst hi) fun u hu =>
    hf.lt_of_mem_users hi (mem_dropRepeats.mp hu)

/-! ## Sites and tags -/

theorem safeAt_splitNormalEdge (hf : f.Coherent) (invoke : InstId) :
    SafeAt (splitNormalEdge invoke) f := by
  by_cases hinvoke : ∃ i callee args normal unwind, f.insts[invoke]? = some i ∧
      i.op = .invoke callee args normal unwind
  · obtain ⟨i, callee, args, normal, unwind, hi, hop⟩ := hinvoke
    exact .of_yields (yields_splitNormalEdge hf hi hop)
  · refine SafeAt.ask_bind fun i hi => SafeAt.ask_bind fun dest hdest => ?_
    rw [inst_eq_ok_iff] at hi
    cases hop : i.op with
    | invoke callee args normal unwind =>
      exact absurd ⟨i, callee, args, normal, unwind, hi, hop⟩ hinvoke
    | _ =>
      rw [hop] at hdest
      cases hdest

theorem safeAt_siteBehind (id : InstId) (b : BlockId) : SafeAt (siteBehind id b) f :=
  SafeAt.ask_bind fun _ _ => SafeAt.ask_bind fun _ _ => .of_ok rfl

theorem safeAt_siteAfter (hf : f.Coherent) (p : Producer) : SafeAt (siteAfter p) f := by
  cases p with
  | arg index =>
    exact SafeAt.ask_bind fun _ _ => SafeAt.ask_bind fun _ _ => SafeAt.ask_bind fun _ _ => .of_ok rfl
  | inst id =>
    by_cases hinvoke : ∃ i callee args normal unwind, f.insts[id]? = some i ∧
        i.op = .invoke callee args normal unwind
    · obtain ⟨i, callee, args, normal, unwind, hi, hop⟩ := hinvoke
      exact .of_yields (yields_siteAfter_invoke hf hi hop)
    · refine SafeAt.ask_bind fun i hi => ?_
      rw [inst_eq_ok_iff] at hi
      split
      · next callee args normal unwind hop =>
        exact absurd ⟨i, callee, args, normal, unwind, hi, hop⟩ hinvoke
      · exact SafeAt.ask_bind fun _ _ => .of_ok rfl
      · split
        · exact SafeAt.ask _
        · exact safeAt_siteBehind _ _

theorem safeAt_tagGep (hf : f.Coherent) (s : Scheme) (L : Layout) (globals : List String)
    (gep : InstId) : SafeAt (tagGep s L globals gep) f := by
  rcases tagGep_cases rfl hf with ⟨e, -, hrun⟩ | ⟨why, -, hrun⟩ | ⟨-, hcases⟩
  · exact .of_error hrun
  · exact .of_ok hrun
  rcases hcases with ⟨e, -, hrun⟩ | ⟨-, -, hrun⟩ | ⟨-, -, r, f', hrun, -⟩
  · exact .of_error hrun
  · exact .of_error hrun
  · exact .of_ok hrun

/-- Tagging fails where one of the three questions fails that it asks before it emits anything: whether
the pointer is due, whether its displacement can be computed, and what stands behind it. -/
theorem tagGep_error_iff (hf : f.Coherent) {s : Scheme} {L : Layout} {globals : List String}
    {gep : InstId} {e : Fault} :
    (∃ F, tagGep s L globals gep f = .error e F) ↔ f.skipReason s globals gep = .error e ∨
      (f.skipReason s globals gep = .ok none ∧ (f.checkGep L gep = .error e ∨
        (f.checkGep L gep = .ok () ∧ ∃ F, siteAfter (.inst gep) f = .error e F))) := by
  rcases @tagGep_cases f s L globals gep _ rfl hf with
    ⟨e', hskip, hrun⟩ | ⟨why, hskip, hrun⟩ | ⟨hskip, hcases⟩
  · simp [hskip, hrun]
  · simp [hskip, hrun]
  obtain ⟨i, g, hi, hop⟩ := gep_of_skipReason hskip
  rcases hcases with ⟨e', hcheck, hrun⟩ | ⟨hcheck, hlast, hrun⟩ | ⟨hcheck, hlast, r, f', hrun, -⟩
  · simp [hskip, hcheck, hrun]
  · simp [hskip, hcheck, hrun, siteAfter_of_isLast hf hi hop hlast]
  · obtain ⟨next, -, -, hsite, -⟩ := exists_site hf hi hop hlast
    simp [hskip, hcheck, hrun, hsite]

end Edit

/-! ## Every operation -/

namespace Mutation

/-- The fault that a mutation ends in, if it fails. -/
def fault? (m : Mutation) (f : Func) : Option Fault := m.edit.fault? f

/-- The mutation is a run over all the pointers of the function, and not a single operation. -/
def isRun : Mutation → Bool
  | .tag .. => true
  | _ => false

open Edit in
theorem safeAt_edit {f : Func} (hf : f.Coherent) {m : Mutation} (hm : m.isRun = false) :
    SafeAt m.edit f := by
  cases m with
  | withLinkage linkage => exact .of_ok rfl
  | withAttribute a => exact .of_ok rfl
  | addBlock base => exact .of_ok rfl
  | insertBlockBefore base before => exact (safeAt_insertBlockBefore _ _).discard
  | append b d => exact (safeAt_append _ _).discard
  | insertBefore anchor d => exact (safeAt_insertBefore _ _).discard
  | mark id change => exact safeAt_mark _ _
  | addIncoming phi value b => exact safeAt_addIncoming _ _ _
  | rekeyIncoming phi old new => exact (safeAt_rekeyIncoming _ _ _).discard
  | setNormalDest invoke dest => exact safeAt_setNormalDest _ _
  | replaceUses user gone repl => exact (safeAt_replaceUses _ _ _).discard
  | replaceAllUses gone repl => exact (safeAt_replaceAllUses hf _ _).discard
  | emit anchor op ty name => exact (safeAt_emit _ _ _ _).discard
  | emitBinary anchor op lhs rhs name => exact (safeAt_emitBinary _ _ _ _ _).discard
  | emitNeg anchor v name => exact (safeAt_emitNeg _ _ _).discard
  | emitPtrToInt anchor v ty name => exact (safeAt_emitPtrToInt _ _ _ _).discard
  | emitIntToPtr anchor v ty name => exact (safeAt_emit _ _ _ _).discard
  | emitResize anchor v ty name => exact (safeAt_emitResize _ _ _ _).discard
  | emitOffset anchor L gep name => exact (safeAt_emitOffset hf _ _ _ _).discard
  | emitDisplacement anchor L gep name => exact (safeAt_emitDisplacement hf _ _ _ _).discard
  | splitNormalEdge invoke => exact (safeAt_splitNormalEdge hf _).discard
  | siteAfter producer => exact (safeAt_siteAfter hf _).discard
  | tagGep s L globals gep => exact (safeAt_tagGep hf _ _ _ _).discard
  | tag s L globals => cases hm

end Mutation

namespace Func

variable {f : Func}

/-- A single operation that fails leaves the function exactly as it was, on whatever arguments. Tagging a
pointer fails only over the questions that it asks before it emits anything, so with the first
instruction that it emits it is bound to succeed. -/
theorem Reachable.refused_unchanged (h : f.Reachable) :
    (∀ (m : Mutation) (e : Fault), m.isRun = false → m.fault? f = some e → m.apply f = f) ∧
    ∀ (s : Scheme) (L : Layout) (globals : List String) (gep : InstId) (e : Fault),
      (∃ F, Edit.tagGep s L globals gep f = .error e F) ↔ f.skipReason s globals gep = .error e ∨
        (f.skipReason s globals gep = .ok none ∧ (f.checkGep L gep = .error e ∨
          (f.checkGep L gep = .ok () ∧ ∃ F, Edit.siteAfter (.inst gep) f = .error e F))) :=
  ⟨fun _ _ hm he => (Mutation.safeAt_edit h.coherent hm).after_eq he,
    fun _ _ _ _ _ => Edit.tagGep_error_iff h.coherent⟩

/-- Two address computations, the second of which has an index that is wider than a pointer. -/
def wideIndex : Func :=
  (fresh "f" .void [⟨"p", .ptr⟩, ⟨"n", .int 64⟩, ⟨"w", .int 128⟩]).mutate
    [.addBlock "entry",
      .append 0 { op := .gep ⟨.int 32, .arg 0, [.arg 1], false⟩, ty := .ptr, name := some "a" },
      .append 0 { op := .gep ⟨.int 32, .inst 0, [.arg 2], false⟩, ty := .ptr, name := some "b" },
      .append 0 { op := .store (.inst 0) (.inst 1), ty := .void },
      .append 0 { op := .ret none, ty := .void }]

/-- Mutations that `wideIndex` refuses, and why. -/
def wideIndexRefusals : List (Mutation × Fault) :=
  [(.append 0 { op := .br 7, ty := .void }, .unknownBlock 7),
    (.replaceAllUses 0 (.inst 9), .unknownInst 9),
    (.emitOffset 9 .lp64 0 none, .unknownInst 9),
    (.splitNormalEdge 2, .wrongForm 2 .invoke),
    (.siteAfter (.inst 3), .noInsertionPoint 3),
    (.tagGep {} .lp64 [] 1, .indexTooWide 128 64)]

theorem wideIndex_refused_unchanged :
    wideIndex.Reachable ∧ ∀ refusal ∈ wideIndexRefusals,
      refusal.1.isRun = false ∧ refusal.1.fault? wideIndex = some refusal.2 ∧
        refusal.1.apply wideIndex = wideIndex := by
  have hreachable : wideIndex.Reachable := (Reachable.fresh _ _ _).mutate _
  have hsingle : ∀ refusal ∈ wideIndexRefusals, refusal.1.isRun = false := by decide
  have hfault : ∀ refusal ∈ wideIndexRefusals, refusal.1.fault? wideIndex = some refusal.2 := by
    decide +kernel
  refine ⟨hreachable, fun refusal hm => ⟨hsingle refusal hm, hfault refusal hm, ?_⟩⟩
  exact hreachable.refused_unchanged.1 refusal.1 refusal.2 (hsingle refusal hm) (hfault refusal hm)

end Func

end PtrTag
