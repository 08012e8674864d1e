import PtrTag.Proofs.Func.Reachable
import PtrTag.Proofs.Tagging.Run

/-!
# `PtrTag/Proofs/Tagging/Termination.lean` — evaluation comes to an end

A new instruction uses results that are there already, so at first the numbers of instructions go down
along operands. Tagging ends that: an old instruction that used a pointer then uses its copy, which has
a higher number. What stays is that there is **some** measure that goes down. The code behind a
pointer hangs off the pointer, so it fits between the pointer and its users (`Splices.ranked`), and
everything else that can happen to a function leaves its pure instructions alone or adds one that
nothing uses yet.

The only edits that can close a cycle are those that put a value of the client's choice in the place
of a result. Without them every function that can be built is acyclic, however often it was tagged and
by whatever scheme, and fuel for one step more than there are instructions is always enough.
-/

set_option autoImplicit false

namespace PtrTag

namespace Func

variable {f f' : Func}

/-! ## Changes that close no cycle -/

theorem Acyclic.of_feeds (h : f.Acyclic) (hfeeds : ∀ id j, f'.Feeds id j → f.Feeds id j) :
    f'.Acyclic := by
  intro id hcycle
  exact h id (Relation.TransGen.mono hfeeds id id hcycle)

/-- A function whose pure operations were there before is acyclic. -/
theorem Acyclic.of_pure (h : f.Acyclic) (hpure : ∀ (id : InstId) (i' : Inst),
    f'.insts[id]? = some i' → i'.op.isPure → ∃ i, f.insts[id]? = some i ∧ i.op = i'.op) :
    f'.Acyclic := by
  refine h.of_feeds ?_
  rintro id j ⟨i', hi', hp, huse⟩
  obtain ⟨i, hi, hop⟩ := hpure id i' hi' hp
  rw [← hop] at hp huse
  exact ⟨i, hi, hp, huse⟩

/-- Changing one instruction is harmless if it keeps its operation or can not be evaluated after. -/
theorem Acyclic.modifyInst (h : f.Acyclic) {id : InstId} {change : Inst → Inst}
    (hchange : ∀ i, f.insts[id]? = some i → (change i).op = i.op ∨ (change i).op.isPure = false) :
    (f.modifyInst id change).Acyclic := by
  refine h.of_pure fun j i' hi' hp => ?_
  rw [getElem?_modifyInst] at hi'
  split at hi'
  case isTrue hid =>
    subst hid
    obtain ⟨i, hi, rfl⟩ := Option.map_eq_some_iff.mp hi'
    rcases hchange i hi with hop | hop
    · exact ⟨i, hi, hop.symm⟩
    · rw [hop] at hp
      exact absurd hp Bool.false_ne_true
  case isFalse => exact ⟨i', hi', rfl⟩

theorem Acyclic.registerUses (h : f.Acyclic) (user : InstId) (used : List InstId) :
    (f.registerUses user used).Acyclic := by
  refine h.of_pure fun j i' hi' _ => ?_
  rw [getElem?_registerUses] at hi'
  obtain ⟨i, hi, rfl⟩ := Option.map_eq_some_iff.mp hi'
  exact ⟨i, hi, rfl⟩

/-- A new instruction counts more than all others, because none of them uses it. -/
theorem Acyclic.place (h : f.Acyclic) (hf : f.Coherent) {d : Draft} (hop : f.InRange d.op)
    (b : BlockId) (pos : Nat) : (f.place d b pos).Acyclic := by
  obtain ⟨rank, hrank, hle⟩ := h.exists_rank hf
  have hranked : (f.place d b pos).Ranked
      fun id => if id = f.insts.size then f.insts.size + 1 else rank id := by
    rintro id j ⟨i, hi, hpure, huse⟩
    rcases place_cases hop hi with ⟨rfl, rfl⟩ | ⟨hne, i₀, hi₀, rfl⟩
    · have hj : j < f.insts.size := hop.lt_of_mem_uses huse
      simp only [if_true, Nat.ne_of_lt hj, if_false]
      exact Nat.lt_succ_of_le (hle j)
    · have hj : j < f.insts.size := (hf.inRange id i₀ hi₀).lt_of_mem_uses huse
      simp only [hne, Nat.ne_of_lt hj, if_false]
      exact hrank id j ⟨i₀, hi₀, hpure, huse⟩
  exact hranked.acyclic

/-- Coherent, and nothing is computed from its own result. -/
structure Grounded (f : Func) : Prop where
  coherent : f.Coherent
  acyclic : f.Acyclic

theorem grounded_fresh (name : String) (ret : Ty) (params : List Param) :
    (fresh name ret params).Grounded :=
  ⟨coherent_fresh name ret params, acyclic_of_uses_lt fun _ h => absurd h (Nat.not_lt_zero _)⟩

end Func

/-! ## Edits -/

namespace Edit

open Func

variable {f : Func}

/-- An edit that keeps a function coherent grounds it if it closes no cycle. -/
theorem keeps_grounded {α : Type} {m : Edit α} (hm : Keeps Coherent m)
    (hacyclic : ∀ f : Func, f.Grounded → (m.after f).Acyclic) : Keeps Grounded m :=
  fun f hf => ⟨hm f hf.coherent, hacyclic f hf⟩

theorem keeps_grounded_addBlock (base : String) : Keeps Grounded (addBlock base) :=
  keeps_grounded (keeps_addBlock base) fun _ hf => hf.acyclic.of_feeds fun _ _ h => h

theorem keeps_grounded_insertBlockBefore (base : String) (before : BlockId) :
    Keeps Grounded (insertBlockBefore base before) := by
  refine keeps_grounded (keeps_insertBlockBefore base before) fun f hf => ?_
  exact Keeps.after_ask_bind hf.acyclic fun _ _ => hf.acyclic.of_feeds fun _ _ h => h

theorem keeps_grounded_append (b : BlockId) (d : Draft) : Keeps Grounded (append b d) := by
  refine keeps_grounded (keeps_append b d) fun f hf => ?_
  refine Keeps.after_ask_bind hf.acyclic fun block _ => ?_
  exact after_create hf.acyclic fun hop => hf.acyclic.place hf.coherent hop _ _

theorem keeps_grounded_insertBefore (anchor : InstId) (d : Draft) :
    Keeps Grounded (insertBefore anchor d) := by
  refine keeps_grounded (keeps_insertBefore anchor d) fun f hf => ?_
  exact after_insertBefore hf.acyclic fun _ _ _ _ hop => hf.acyclic.place hf.coherent hop _ _

theorem keeps_grounded_mark (id : InstId) (change : Marks → Marks) :
    Keeps Grounded (mark id change) := by
  refine keeps_grounded (keeps_mark id change) fun f hf => ?_
  exact Keeps.after_ask_bind hf.acyclic fun _ _ => hf.acyclic.modifyInst fun _ _ => .inl rfl

theorem keeps_grounded_addIncoming (phi : InstId) (value : Value) (b : BlockId) :
    Keeps Grounded (addIncoming phi value b) := by
  refine keeps_grounded (keeps_addIncoming phi value b) fun f hf => ?_
  refine Keeps.after_ask_bind hf.acyclic fun _ _ => ?_
  refine Keeps.after_ask_bind hf.acyclic fun _ _ => ?_
  refine Keeps.after_ask_bind hf.acyclic fun incoming _ => ?_
  exact (hf.acyclic.modifyInst fun _ _ => .inr rfl).registerUses _ _

theorem keeps_grounded_rekeyIncoming (phi : InstId) (old new : BlockId) :
    Keeps Grounded (rekeyIncoming phi old new) := by
  refine keeps_grounded (keeps_rekeyIncoming phi old new) fun f hf => ?_
  refine Keeps.after_ask_bind hf.acyclic fun _ _ => ?_
  refine Keeps.after_ask_bind hf.acyclic fun incoming _ => ?_
  exact hf.acyclic.modifyInst fun _ _ => .inr rfl

theorem keeps_grounded_setNormalDest (invoke : InstId) (dest : BlockId) :
    Keeps Grounded (setNormalDest invoke dest) := by
  refine keeps_grounded (keeps_setNormalDest invoke dest) fun f hf => ?_
  refine Keeps.after_ask_bind hf.acyclic fun _ _ => ?_
  refine Keeps.after_ask_bind hf.acyclic fun op hask => ?_
  obtain ⟨-, callee, args, -, unwind, -, -, rfl⟩ := askInvoke_eq_ok hask
  exact hf.acyclic.modifyInst fun _ _ => .inr rfl

theorem keepsArith_grounded (anchor : InstId) : KeepsArith Grounded anchor :=
  fun _ _ _ _ => keeps_grounded_insertBefore _ _

theorem keepsEdges_grounded : KeepsEdges Grounded :=
  ⟨keeps_grounded_insertBlockBefore, keeps_grounded_append, keeps_grounded_setNormalDest,
    keeps_grounded_rekeyIncoming⟩

/-- Tagging one address computation does nothing, or makes a step. -/
theorem keeps_grounded_tagGep (s : Scheme) (L : Layout) (globals : List String) (gep : InstId) :
    Keeps Grounded (tagGep s L globals gep) := by
  intro f hf
  show ((tagGep s L globals gep).after f).Grounded
  rcases tagGep_cases rfl hf.coherent with ⟨e, -, hrun⟩ | ⟨why, -, hrun⟩ | ⟨-, hcases⟩
  · rwa [after_of_error hrun]
  · rwa [after_of_ok hrun]
  rcases hcases with ⟨e, -, hrun⟩ | ⟨-, -, hrun⟩ | ⟨-, -, r, f', hrun, hstep⟩
  · rwa [after_of_error hrun]
  · rwa [after_of_error hrun]
  · rw [after_of_ok hrun]
    exact ⟨hstep.coherent, hstep.acyclic hf.coherent hf.acyclic⟩

end Edit

namespace Mutation

open Func Edit in
theorem kept_grounded : Kept Grounded where
  toKeepsEdges := keepsEdges_grounded
  body := fun hf hi hb ho hp => ⟨hf.coherent.of_same_body hi hb ho hp,
    hf.acyclic.of_pure fun _ i' hi' _ => ⟨i', hi ▸ hi', rfl⟩⟩
  addBlock := keeps_grounded_addBlock
  insertBefore := keeps_grounded_insertBefore
  mark := keeps_grounded_mark
  addIncoming := keeps_grounded_addIncoming
  tagGep := keeps_grounded_tagGep

theorem grounded_apply (m : Mutation) (hm : m.replaces = false) {f : Func} (hf : f.Grounded) :
    (m.apply f).Grounded :=
  kept_grounded.keeps_edit m (fun h => absurd h (by rw [hm]; exact Bool.false_ne_true)) f hf

end Mutation

namespace Func

variable {f : Func}

theorem Grounded.mutate (hf : f.Grounded) {ms : List Mutation} (hms : ∀ m ∈ ms, m.replaces = false) :
    (f.mutate ms).Grounded := by
  unfold Func.mutate
  induction ms generalizing f with
  | nil => exact hf
  | cons m ms ih =>
    rw [List.forall_mem_cons] at hms
    exact ih (m.grounded_apply hms.1 hf) hms.2

/-! ## Fuel -/

theorem Ranked.wellFounded {rank : InstId → Nat} (h : f.Ranked rank) :
    WellFounded fun j id => f.Feeds id j :=
  Subrelation.wf (h _ _) (measure rank).wf

/-- More fuel than there are instructions gives every value the outcome that it has. -/
theorem Grounded.eval_settled (hf : f.Grounded) (L : Layout) (env : Env) (v : Value) {fuel : Nat}
    (hfuel : f.insts.size < fuel) :
    Settled (f.evalValue L env (f.evalInst L env fuel) v) (f.eval L env v) := by
  obtain ⟨rank, hrank, hle⟩ := hf.acyclic.exists_rank hf.coherent
  have hinst : ∀ j, Settled (f.evalInst L env fuel j) (f.evalInst L env (f.insts.size + 1) j) :=
    fun j => hrank.evalInst_settled _ _ (Nat.lt_of_le_of_lt (hle j) hfuel)
      (Nat.lt_succ_of_le (hle j))
  have hsettled : Settled (f.evalValue L env (f.evalInst L env fuel) v)
      (f.evalValue L env (f.evalInst L env (f.insts.size + 1)) (v.rename id)) :=
    evalValue_compare compares_settled rfl fun j _ => hinst j
  rwa [Value.rename_id] at hsettled

theorem Grounded.eval_inst (hf : f.Grounded) (L : Layout) (env : Env) {id : InstId} {i : Inst}
    (hi : f.insts[id]? = some i) :
    f.eval L env (.inst id) = f.computed L env (f.values L env) id i := by
  obtain ⟨rank, hrank, hle⟩ := hf.acyclic.exists_rank hf.coherent
  show f.evalInst L env (f.insts.size + 1) id = _
  rw [evalInst_succ hi]
  refine (computed_settled fun hpure j hj => ?_).1
  -- An operand counts less than the instruction, so it needs less than all of the fuel.
  have hlt := hrank id j ⟨i, hi, hpure, hj⟩
  have hid := hle id
  exact hrank.evalInst_settled _ _ (by omega) (by omega)

/-- Every function that is built and tagged without replacing uses at will can be evaluated: the
recursion along operands is well founded, no value takes more fuel than one step for each instruction
and one more, and with that the value of an instruction is what its operation makes of the values of
its operands. -/
theorem mutate_eval_terminates (name : String) (ret : Ty) (params : List Param) (ms : List Mutation)
    (hms : ∀ m ∈ ms, m.replaces = false) :
    let f := (fresh name ret params).mutate ms
    (WellFounded fun j id => f.Feeds id j) ∧ ∀ (L : Layout) (env : Env),
      (∀ v, f.eval L env v ≠ .error .depth) ∧
        (∀ v fuel, f.insts.size < fuel →
          f.evalValue L env (f.evalInst L env fuel) v = f.eval L env v) ∧
          ∀ id i, f.insts[id]? = some i →
            f.eval L env (.inst id) = f.computed L env (f.values L env) id i := by
  intro f
  have hf : f.Grounded := (grounded_fresh name ret params).mutate hms
  obtain ⟨rank, hrank, -⟩ := hf.acyclic.exists_rank hf.coherent
  refine ⟨hrank.wellFounded, fun L env => ⟨fun v => ?_, fun v fuel hfuel => ?_, fun id i hi => ?_⟩⟩
  · exact (hf.eval_settled L env v (Nat.lt_succ_self _)).2
  · exact (hf.eval_settled L env v hfuel).1
  · exact hf.eval_inst L env hi

/-- Two pointers in a row, tagged one by one: the first by a scheme that is not valid, the second by a
run, after the edge behind them was split. -/
def taggedInTurn : List Mutation :=
  [.addBlock "entry", .addBlock "next", .addBlock "failed",
    .append 0 { op := .gep ⟨.int 32, .arg 0, [.arg 1], false⟩, ty := .ptr, name := some "a" },
    .append 0 { op := .gep ⟨.int 32, .inst 0, [.ofWord 1 64], false⟩, ty := .ptr, name := some "b" },
    .append 0 { op := .invoke (.global "g") [.inst 1] 1 2, ty := .int 64, name := some "r" },
    .append 1 { op := .ret none, ty := .void },
    .append 2 { op := .ret none, ty := .void },
    .tagGep { flagBit := 70, offsetShift := 3 } .lp64 [] 0,
    .siteAfter (.inst 2),
    .tag {} .lp64 []]

/-- The second pointer, instruction 1, is computed from instruction 13, and its own copy has a value all
the same. -/
theorem taggedInTurn_eval_terminates :
    let f := (fresh "f" .void [⟨"p", .ptr⟩, ⟨"n", .int 64⟩]).mutate taggedInTurn
    let env : Env := { args := [0x1000000001000, 3] }
    (∀ m ∈ taggedInTurn, m.replaces = false) ∧ f.insts.size = 22 ∧
      f.insts[1]?.map (·.op.uses) = some [13] ∧ f.eval .lp64 env (.inst 21) = .ok 0x9000000001010 ∧
        f.evalValue .lp64 env (f.evalInst .lp64 env 1000) (.inst 21) = .ok 0x9000000001010 ∧
          f.eval .lp64 env (.inst 2) ≠ .error .depth := by
  intro f env
  have hms : ∀ m ∈ taggedInTurn, m.replaces = false := by decide
  have hsize : f.insts.size = 22 := by decide +kernel
  have huses : f.insts[1]?.map (·.op.uses) = some [13] := by decide +kernel
  have heval : f.eval .lp64 env (.inst 21) = .ok 0x9000000001010 := by decide +kernel
  obtain ⟨-, hends⟩ := mutate_eval_terminates "f" .void [⟨"p", .ptr⟩, ⟨"n", .int 64⟩] _ hms
  obtain ⟨hdepth, hfuel, -⟩ := hends .lp64 env
  refine ⟨hms, hsize, huses, heval, (hfuel _ 1000 ?_).trans heval, hdepth _⟩
  show f.insts.size < 1000
  rw [hsize]
  decide

end Func

end PtrTag
