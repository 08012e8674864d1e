import PtrTag.Proofs.Tagging.Embedding
import Mathlib.Data.BitVec

/-!
# `PtrTag/Proofs/Tagging/Chain.lean` — displacements add up along a chain

A pointer that is derived from a derived pointer is computed, after a run, from the tagged copy of the
latter. So the copy at the end of a chain of address computations has been moved, and tagged, once for
each link. The invariant that carries the induction along the chain is the form of a tagged pointer:
`p + D + (D <<< offsetShift)`, where `p` is where the chain starts and `D` is how far it has got.

All of this is arithmetic modulo 2^64. Bits that are carried out of the address go into the flag and
the offset like in any other sum, but the offset never reaches down into them.
-/

set_option autoImplicit false

namespace PtrTag

namespace Word

/-- A word that is pushed up by `n` bits adds nothing to the bits below. -/
theorem getLsbD_add_shiftLeft (a b : Word) {n i : Nat} (hi : i < n) :
    (a + b <<< n).getLsbD i = a.getLsbD i := by
  by_cases hn : n ≤ 64
  · have hlow : (a + b <<< n).setWidth n = a.setWidth n := by
      have hzero : (b <<< n).setWidth n = 0 := by
        ext j hj
        simp [hj]
      rw [BitVec.setWidth_add _ _ hn, hzero]
      exact BitVec.add_zero _
    have hbit := congrArg (BitVec.getLsbD · i) hlow
    simpa [BitVec.getLsbD_setWidth, hi] using hbit
  · have hzero : b <<< n = 0 := BitVec.shiftLeft_eq_zero (by omega)
    simp [hzero]

end Word

namespace Func

variable {s : Scheme} {L : Layout} {globals : List String} {f F : Func} {env : Env}
  {gep r : InstId} {outs : Outcomes}

/-- How far the address computation `gep` moves its base. -/
def displacement (f : Func) (L : Layout) (env : Env) (gep : InstId) : Except EvalStop Word := do
  let g ← found (f.gep gep)
  let o ← f.eval L env (.inst gep)
  let b ← f.eval L env g.base
  return o - b

/-- The listed address computations start from `base`, each from the result of the one before. All of
them are plain pointers, and constants among their indices are in normal form. -/
def StepsFrom (f : Func) : Value → List InstId → Prop
  | _, [] => True
  | base, gep :: rest =>
    (∃ i g, f.insts[gep]? = some i ∧ i.op = .gep g ∧ i.ty = .ptr ∧ g.base = base ∧
      ∀ v ∈ g.indices, v.IsNormal) ∧ f.StepsFrom (.inst gep) rest

/-- Where a chain of address computations that starts from `base` gets. -/
def tip : Value → List InstId → Value
  | base, [] => base
  | _, gep :: rest => tip (.inst gep) rest

theorem displacement_eq {g : Gep} {o b : Word} (hg : f.gep gep = .ok g)
    (ho : f.eval L env (.inst gep) = .ok o) (hb : f.eval L env g.base = .ok b) :
    f.displacement L env gep = .ok (o - b) := by
  unfold displacement
  rw [hg, ho]
  simp only [found, ok_bind, hb]
  rfl

/-! ## One link -/

/-- The address computation `gep` of `F` starts from `base`, and `r` is its copy: if the flag is set, it
carries the displacement from there. -/
structure Link (s : Scheme) (L : Layout) (F : Func) (env : Env) (base : Value) (gep r : InstId) :
    Prop where
  starts : ∃ g, F.gep gep = .ok g ∧ g.base = base
  law : ∀ o, F.eval L env (.inst gep) = .ok o → o.getLsbD s.flagBit = true →
    ∃ b, F.eval L env base = .ok b ∧
      F.eval L env (.inst r) = .ok (o + ((o - b) <<< s.offsetShift))

/-- A link takes a pointer in the form of a tagged one to another pointer of this form. -/
theorem Link.advance {base : Value} (h : Link s L F env base gep r) {p d o : Word}
    (hbase : F.eval L env base = .ok (p + d + d <<< s.offsetShift))
    (ho : F.eval L env (.inst gep) = .ok o) (hflag : o.getLsbD s.flagBit = true) :
    ∃ e, F.displacement L env gep = .ok e ∧
      F.eval L env (.inst r) = .ok (p + (d + e) + (d + e) <<< s.offsetShift) := by
  obtain ⟨g, hg, rfl⟩ := h.starts
  obtain ⟨b, hb, hr⟩ := h.law o ho hflag
  refine ⟨o - b, displacement_eq hg ho hb, hr.trans (congrArg Except.ok ?_)⟩
  have hsum : o = p + d + d <<< s.offsetShift + (o - b) := by
    rw [← Except.ok.inj (hb.symm.trans hbase), BitVec.add_comm, BitVec.sub_add_cancel]
  calc o + (o - b) <<< s.offsetShift
      = p + d + d <<< s.offsetShift + (o - b) + (o - b) <<< s.offsetShift := by rw [← hsum]
    _ = p + (d + (o - b)) + (d <<< s.offsetShift + (o - b) <<< s.offsetShift) := by ac_rfl
    _ = p + (d + (o - b)) + (d + (o - b)) <<< s.offsetShift := by rw [BitVec.shiftLeft_add_distrib]

/-! ## Chains -/

/-- The listed address computations of `F` start from `base`, each from the copy of the one before, and
the last copy is `last`. -/
inductive Linked (s : Scheme) (L : Layout) (F : Func) (env : Env) :
    Value → List InstId → Value → Prop
  | nil (base : Value) : Linked s L F env base [] base
  | cons {base last : Value} {gep r : InstId} {chain : List InstId}
      (link : Link s L F env base gep r) (rest : Linked s L F env (.inst r) chain last) :
      Linked s L F env base (gep :: chain) last

theorem Linked.advance {base last : Value} {chain : List InstId}
    (h : Linked s L F env base chain last) {p d : Word}
    (hbase : F.eval L env base = .ok (p + d + d <<< s.offsetShift))
    (hvalues : ∀ gep ∈ chain, ∃ o, F.eval L env (.inst gep) = .ok o ∧ o.getLsbD s.flagBit = true) :
    ∃ ds, chain.mapM (F.displacement L env) = .ok ds ∧
      F.eval L env last = .ok (p + (d + ds.sum) + (d + ds.sum) <<< s.offsetShift) := by
  induction h generalizing d with
  | nil base =>
    have hsum : d + ([] : List Word).sum = d := BitVec.add_zero d
    refine ⟨[], rfl, ?_⟩
    rw [hsum]
    exact hbase
  | cons link rest ih =>
    rw [List.forall_mem_cons] at hvalues
    obtain ⟨o, ho, hflag⟩ := hvalues.1
    obtain ⟨e, he, hr⟩ := link.advance hbase ho hflag
    obtain ⟨ds, hds, hlast⟩ := ih hr hvalues.2
    have hsum : d + (e :: ds).sum = d + e + ds.sum := by rw [List.sum_cons, BitVec.add_assoc]
    refine ⟨e :: ds, ?_, ?_⟩
    · rw [List.mapM_cons, he, hds]
      rfl
    · rw [hsum]
      exact hlast

/-! ## Chains after a run -/

theorem SolvesAt.exists_base {ρ : InstId → Except EvalStop Word} (h : F.SolvesAt L env ρ gep)
    {i : Inst} {g : Gep} (hi : F.insts[gep]? = some i) (hop : i.op = .gep g) {o : Word}
    (ho : ρ gep = .ok o) : ∃ b, F.evalValue L env ρ g.base = .ok b := by
  have hcomputed := (h i hi o).mp ho
  rw [computed, hop] at hcomputed
  obtain ⟨w, hw, -⟩ := bind_eq_ok_iff.mp hcomputed
  obtain ⟨b, hb, -⟩ := bind_eq_ok_iff.mp hw
  exact ⟨b, hb⟩

theorem TagRun.link (h : TagRun s L globals f outs F) (hf : f.Coherent) (hacyclic : f.Acyclic)
    (hL : L.pointerBits = 64) (hnodup : (outs.map Prod.fst).Nodup)
    (hold : ∀ k ∈ outs.map Prod.fst, k < f.insts.size) {constant split : Bool}
    (hmem : (gep, .tagged r constant split) ∈ outs) {i : Inst} {g : Gep}
    (hi : f.insts[gep]? = some i) (hop : i.op = .gep g) (hty : i.ty = .ptr)
    (hnormal : ∀ v ∈ g.indices, v.IsNormal) (env : Env) :
    Link s L F env (g.base.rename outs.moved) gep r := by
  obtain ⟨i', g', hi', hop', hlaw⟩ : ∃ i g, F.insts[gep]? = some i ∧ i.op = .gep g ∧
      TagLaw s L F env (F.values L env) gep r i.ty g := h.law hf hacyclic hnodup hold hmem
  obtain ⟨i'', hi'', hop'', hty'⟩ := h.spliced.continues_moved.kept gep i hi
  obtain rfl : i' = i'' := Option.some.inj (hi'.symm.trans hi'')
  obtain rfl : g' = _ := Op.gep.inj (hop'.symm.trans (hop''.trans (by rw [hop]; rfl)))
  refine ⟨⟨_, gep_eq_ok_iff.mpr ⟨i', hi', hop'⟩, rfl⟩, fun o ho hflag => ?_⟩
  have hsolves := (h.acyclic hf hacyclic).solves (h.coherent hf) L env gep
  obtain ⟨b, hb⟩ := hsolves.exists_base hi' hop' ho
  refine ⟨b, hb, ?_⟩
  have hnormal' : ∀ v ∈ g.indices.map (Value.rename outs.moved), v.IsNormal := by
    intro v hv
    obtain ⟨w, hw, rfl⟩ := List.mem_map.mp hv
    exact Value.isNormal_rename.mpr (hnormal w hw)
  have hr := hlaw.set o b (hty'.trans hty) (Nat.le_of_eq hL) hnormal' ho hb hflag
  rw [Word.low_of_le (Nat.le_of_eq hL.symm)] at hr
  exact hr

theorem tip_eq (base : Value) {chain : List InstId} {last : InstId}
    (h : chain.getLast? = some last) : tip base chain = .inst last := by
  induction chain generalizing base with
  | nil => cases h
  | cons gep rest ih =>
    cases rest with
    | nil =>
      obtain rfl : gep = last := Option.some.inj h
      rfl
    | cons next rest =>
      rw [List.getLast?_cons_cons] at h
      exact ih (.inst gep) h

/-- After a run, a chain of tagged pointers goes from copy to copy. -/
theorem TagRun.linked (h : TagRun s L globals f outs F) (hf : f.Coherent) (hacyclic : f.Acyclic)
    (hL : L.pointerBits = 64) (hnodup : (outs.map Prod.fst).Nodup)
    (hold : ∀ k ∈ outs.map Prod.fst, k < f.insts.size) {base : Value} {chain : List InstId}
    (hsteps : f.StepsFrom base chain)
    (htagged : ∀ gep ∈ chain, ∃ r constant split, (gep, .tagged r constant split) ∈ outs)
    (env : Env) :
    Linked s L F env (base.rename outs.moved) chain ((tip base chain).rename outs.moved) := by
  induction chain generalizing base with
  | nil => exact .nil _
  | cons gep rest ih =>
    rw [List.forall_mem_cons] at htagged
    obtain ⟨⟨i, g, hi, hop, hty, rfl, hnormal⟩, hrest⟩ := hsteps
    obtain ⟨r, constant, split, hmem⟩ := htagged.1
    have hmoved : (Value.inst gep).rename outs.moved = .inst r :=
      congrArg Value.inst (h.moved_eq hnodup hold hmem)
    have htail := ih hrest htagged.2
    rw [hmoved] at htail
    exact .cons (h.link hf hacyclic hL hnodup hold hmem hi hop hty hnormal env) htail

/-- Displacements add up along a chain. If every pointer of a chain that a successful run tagged has
a value with the flag set, the last copy is where the chain starts, moved by the sum `D` of the
displacements, with `D` added once more from bit `offsetShift` on; the bits below, among them the flag,
are those of the moved pointer. -/
theorem Reachable.tag_chain (h : f.Reachable) (hacyclic : f.Acyclic) (hs : s.validate = .ok ())
    (hL : L.pointerBits = 64) (hrun : (f.tag s L globals).result = .ok outs) {base : Value}
    {first last : InstId} {rest : List InstId} (hsteps : f.StepsFrom base (first :: rest))
    (htagged : ∀ gep ∈ first :: rest, ∃ r constant split, (gep, .tagged r constant split) ∈ outs)
    (hlast : (first :: rest).getLast? = some last) {constant split : Bool}
    (hmem : (last, .tagged r constant split) ∈ outs) :
    let F := (f.tag s L globals).state
    (∀ gep ∈ first :: rest, ∃ o, F.eval L env (.inst gep) = .ok o ∧ o.getLsbD s.flagBit = true) →
    ∃ g p ds w, F.gep first = .ok g ∧ F.eval L env g.base = .ok p ∧
      (first :: rest).mapM (F.displacement L env) = .ok ds ∧ F.eval L env (.inst r) = .ok w ∧
        w = p + ds.sum + ds.sum <<< s.offsetShift ∧
          ∀ n < s.offsetShift, w.getLsbD n = (p + ds.sum).getLsbD n := by
  intro F hvalues
  have hf := h.coherent
  obtain ⟨hrun, hall⟩ := tagRun_of_tag hs hf hrun
  have hnodup : (outs.map Prod.fst).Nodup := hall ▸ nodup_geps hf
  have hold : ∀ k ∈ outs.map Prod.fst, k < f.insts.size := fun k hk =>
    lt_of_mem_geps (hall ▸ hk)
  have hlinked := hrun.linked hf hacyclic hL hnodup hold hsteps htagged env
  rw [tip_eq base hlast, Value.rename_inst, hrun.moved_eq hnodup hold hmem] at hlinked
  -- The chain starts from a pointer that has not been moved yet.
  obtain ⟨g, p, hg, hgbase, hp⟩ : ∃ g p, F.gep first = .ok g ∧
      g.base = base.rename outs.moved ∧ F.eval L env (base.rename outs.moved) = .ok p := by
    cases hlinked with
    | cons link _ =>
      obtain ⟨g, hg, hgbase⟩ := link.starts
      obtain ⟨o, ho, hflag⟩ := hvalues first List.mem_cons_self
      obtain ⟨p, hp, -⟩ := link.law o ho hflag
      exact ⟨g, p, hg, hgbase, hp⟩
  have hstart : F.eval L env (base.rename outs.moved) =
      .ok (p + (0 : Word) + (0 : Word) <<< s.offsetShift) := by
    rw [hp]
    simp
  obtain ⟨ds, hds, hw⟩ := hlinked.advance hstart hvalues
  have hsum : (0 : Word) + ds.sum = ds.sum := BitVec.zero_add _
  rw [hsum] at hw
  refine ⟨g, p, ds, _, hg, by rw [hgbase]; exact hp, hds, hw, rfl, fun n hn => ?_⟩
  exact Word.getLsbD_add_shiftLeft _ _ hn

/-- A chain of three through blocks that are not laid out in the order in which they run, so that the
last pointer is tagged before the one that it is derived from. -/
def hops : Func :=
  (fresh "f" .void [⟨"p", .ptr⟩, ⟨"n", .int 64⟩]).mutate
    [.addBlock "entry", .addBlock "far", .addBlock "near",
      .append 0 { op := .gep ⟨.int 32, .arg 0, [.arg 1], false⟩, ty := .ptr },
      .append 0 { op := .br 2, ty := .void },
      .append 2 { op := .gep ⟨.int 64, .inst 0, [.ofWord (-1) 64], false⟩, ty := .ptr },
      .append 2 { op := .br 1, ty := .void },
      .append 1 { op := .gep ⟨.int 8, .inst 2, [.arg 1], false⟩, ty := .ptr },
      .append 1 { op := .ret none, ty := .void }]

theorem hops_stepsFrom : hops.StepsFrom (.arg 0) [0, 2, 4] :=
  ⟨⟨_, _, rfl, rfl, rfl, rfl, by decide⟩, ⟨_, _, rfl, rfl, rfl, rfl, by decide⟩,
    ⟨_, _, rfl, rfl, rfl, rfl, by decide⟩, trivial⟩

theorem hops_chain :
    let outs := [(0, .tagged 14 false false), (4, .tagged 22 false false),
      (2, .tagged 29 true false)]
    let F := (hops.tag {} .lp64 []).state
    let env : Env := { args := [0x1000000001000, 3] }
    hops.Reachable ∧ hops.Acyclic ∧ Scheme.validate {} = .ok () ∧ Layout.lp64.pointerBits = 64 ∧
      (hops.tag {} .lp64 []).result = .ok outs ∧ hops.StepsFrom (.arg 0) [0, 2, 4] ∧
      (∀ gep ∈ [0, 2, 4], ∃ o, F.eval .lp64 env (.inst gep) = .ok o ∧ o.getLsbD 48 = true) ∧
      [0, 2, 4].mapM (F.displacement .lp64 env) = .ok [12, -8, 3] ∧
      F.eval .lp64 env (.inst 22) = .ok (0x1000000001007 + 7 <<< 49) := by
  intro outs F env
  have hreachable : hops.Reachable := (Reachable.fresh _ _ _).mutate _
  have hacyclic : hops.Acyclic := acyclic_of_uses_lt (by decide +kernel)
  have hs : Scheme.validate {} = .ok () := by decide
  have hrun : (hops.tag {} .lp64 []).result = .ok outs := by decide +kernel
  have htagged : ∀ gep ∈ [0, 2, 4], ∃ r constant split, (gep, .tagged r constant split) ∈ outs := by
    simp [outs]
  have hvalues : ∀ gep ∈ [0, 2, 4], ∃ o, F.eval .lp64 env (.inst gep) = .ok o ∧
      o.getLsbD 48 = true := by
    have h₀ : F.eval .lp64 env (.inst 0) = .ok 0x100000000100c := by decide +kernel
    have h₂ : F.eval .lp64 env (.inst 2) = .ok 0x19000000001004 := by decide +kernel
    have h₄ : F.eval .lp64 env (.inst 4) = .ok 0x9000000001007 := by decide +kernel
    simp only [List.forall_mem_cons]
    exact ⟨⟨_, h₀, by decide⟩, ⟨_, h₂, by decide⟩, ⟨_, h₄, by decide⟩, by simp⟩
  have hds : [0, 2, 4].mapM (F.displacement .lp64 env) = .ok [12, -8, 3] := by decide +kernel
  refine ⟨hreachable, hacyclic, hs, rfl, hrun, hops_stepsFrom, hvalues, hds, ?_⟩
  obtain ⟨g, p, ds, w, hg, hp, hds', hw, rfl, -⟩ := hreachable.tag_chain hacyclic hs rfl hrun
    hops_stepsFrom htagged rfl (List.mem_cons_of_mem _ List.mem_cons_self) hvalues
  have hg' : F.gep 0 = .ok ⟨.int 32, .arg 0, [.arg 1], false⟩ := by decide +kernel
  have hp' : F.eval .lp64 env (.arg 0) = .ok 0x1000000001000 := by decide +kernel
  obtain rfl := Except.ok.inj (hg'.symm.trans hg)
  obtain rfl := Except.ok.inj (hp'.symm.trans hp)
  obtain rfl := Except.ok.inj (hds.symm.trans hds')
  exact hw.trans (by decide)

end Func

end PtrTag
