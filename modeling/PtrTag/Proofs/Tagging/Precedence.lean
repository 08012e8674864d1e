import Mathlib.Data.List.Flatten
import PtrTag.Proofs.Tagging.Effect

/-!
# `PtrTag/Proofs/Tagging/Precedence.lean` — definitions still come before their uses

No check of a function looks at the order of definitions and uses. Within a block that order is
`Func.LocallyOrdered`; between blocks it is dominance (`Func.Dominates`). Tagging keeps both.

Within a block it is a matter of places. The code of a step stands right behind its pointer, so it comes
after all that the pointer came after, and before all that came after the pointer
(`Splices.locallyOrdered`). Between blocks there is nothing to move: the graph is the same, and the code
of a pointer is in the block of the pointer (`Spliced.block_code`).
-/

set_option autoImplicit false

namespace PtrTag

namespace Func

variable {f f' F : Func} {gep r : InstId} {outs : Outcomes}

/-! ## Before, in one block -/

/-- Instruction `k` stands somewhere before instruction `u` in block `b`. -/
def Precedes (f : Func) (b : BlockId) (k u : InstId) : Prop := [k, u].Sublist (f.instsOf b)

instance (f : Func) (b : BlockId) (k u : InstId) : Decidable (f.Precedes b k u) :=
  inferInstanceAs (Decidable ([k, u].Sublist (f.instsOf b)))

/-- Every instruction but a phi comes after those of its operands that stand in its own block. -/
def LocallyOrdered (f : Func) : Prop :=
  ∀ (u : InstId) (i : Inst), f.insts[u]? = some i → i.op.isPhi = false →
    ∀ k ∈ i.op.uses, k ∈ f.instsOf i.block → f.Precedes i.block k u

instance (f : Func) : Decidable f.LocallyOrdered :=
  decidable_of_iff (∀ u < f.insts.size, ∀ i ∈ f.insts[u]?, i.op.isPhi = false →
      ∀ k ∈ i.op.uses, k ∈ f.instsOf i.block → f.Precedes i.block k u)
    ⟨fun h u i hi => h u (lt_of_inst hi) i hi, fun h u _ i hi => h u i hi⟩

theorem pair_sublist_append {k u : InstId} {pre post : List InstId} (hk : k ∈ pre) (hu : u ∈ post) :
    [k, u].Sublist (pre ++ post) :=
  (List.singleton_sublist.mpr hk).append (List.singleton_sublist.mpr hu)

theorem pair_sublist_range' {n size k u : Nat} (hk : n ≤ k) (hku : k < u) (hu : u < n + size) :
    [k, u].Sublist (List.range' n size) := by
  have hsplit : List.range' n size = List.range' n (u - n) ++ List.range' u (n + size - u) := by
    have happend := List.range'_append_1 (s := n) (m := u - n) (n := n + size - u)
    rw [show n + (u - n) = u by omega, show u - n + (n + size - u) = size by omega] at happend
    exact happend.symm
  rw [hsplit]
  apply pair_sublist_append
  · exact List.mem_range'_1.mpr (by omega)
  · exact List.mem_range'_1.mpr (by omega)

/-! ## One step -/

/-- In `f'` the instruction `x` stands at the place of the old instruction `k`: it is `k` itself, or it is
of the code behind the pointer `gep`, which is `k`. -/
def StandsAt (f : Func) (gep : InstId) (f' : Func) (k x : InstId) : Prop :=
  x = k ∨ k = gep ∧ f.insts.size ≤ x ∧ x < f'.insts.size

theorem StandsAt.inj {j k x : InstId} (hj : j < f.insts.size) (hk : k < f.insts.size)
    (h₁ : f.StandsAt gep f' j x) (h₂ : f.StandsAt gep f' k x) : j = k := by
  rcases h₁ with rfl | ⟨rfl, hnew, -⟩
  · rcases h₂ with rfl | ⟨-, hnew, -⟩
    · rfl
    · exact absurd hj (Nat.not_lt.mpr hnew)
  · rcases h₂ with rfl | ⟨rfl, -⟩
    · exact absurd hk (Nat.not_lt.mpr hnew)
    · rfl

namespace Splices

variable {b : BlockId} {k u x y : InstId}

theorem standsAt_iff (h : Splices f gep r f') : f.StandsAt gep f' k x ↔
    x ∈ k :: if k = gep then List.range' f.insts.size (f'.insts.size - f.insts.size) else [] := by
  have hsize := Nat.add_sub_cancel' (Nat.le_of_lt h.size_lt)
  unfold StandsAt
  by_cases hk : k = gep
  · rw [if_pos hk, List.mem_cons, List.mem_range'_1, hsize, hk, eq_self, true_and]
  · simp [hk]

theorem mem_instsOf (h : Splices f gep r f') :
    x ∈ f'.instsOf b ↔ ∃ k ∈ f.instsOf b, f.StandsAt gep f' k x := by
  rw [h.placed b, List.mem_flatMap]
  simp only [h.standsAt_iff]

theorem mem_of_standsAt (h : Splices f gep r f') (hf : f.Coherent) (hk : k < f.insts.size)
    (hat : f.StandsAt gep f' k x) (hx : x ∈ f'.instsOf b) : k ∈ f.instsOf b := by
  obtain ⟨j, hj, hat'⟩ := h.mem_instsOf.mp hx
  rwa [hat.inj hk (hf.lt_of_mem hj) hat']

/-- Where one instruction came before another, all that now stands at its place comes before all that
stands at the place of the other. -/
theorem precedes (h : Splices f gep r f') (hbefore : f.Precedes b k u)
    (hx : f.StandsAt gep f' k x) (hy : f.StandsAt gep f' u y) : f'.Precedes b x y := by
  rw [h.standsAt_iff] at hx hy
  rw [Precedes, h.placed b]
  refine List.Sublist.trans ?_ (List.Sublist.flatMap hbefore _)
  rw [List.flatMap_cons, List.flatMap_singleton]
  exact pair_sublist_append hx hy

/-- The code behind the pointer is in the order of its numbers. -/
theorem precedes_code (h : Splices f gep r f') (hgep : gep ∈ f.instsOf b)
    (hx : f.StandsAt gep f' gep x) (hxy : x < y) (hy : f.insts.size ≤ y) (hlt : y < f'.insts.size) :
    f'.Precedes b x y := by
  rw [Precedes, h.placed b]
  refine List.Sublist.trans ?_ (List.Sublist.flatMap (List.singleton_sublist.mpr hgep) _)
  rw [List.flatMap_singleton, if_pos rfl]
  have hend : y < f.insts.size + (f'.insts.size - f.insts.size) := by
    rwa [Nat.add_sub_cancel' (Nat.le_of_lt h.size_lt)]
  rcases hx with rfl | ⟨-, hnew, -⟩
  · exact (List.singleton_sublist.mpr (List.mem_range'_1.mpr ⟨hy, hend⟩)).cons_cons _
  · exact (pair_sublist_range' hnew hxy hend).cons _

/-- The copy stands at the place of the pointer, so every operand still stands where it stood. -/
theorem standsAt_update (h : Splices f gep r f') (k : InstId) :
    f.StandsAt gep f' k (Function.update id gep r k) := by
  by_cases hk : k = gep
  · rw [hk, Function.update_self]
    exact .inr ⟨rfl, h.fresh, by rw [h.size]; exact Nat.lt_succ_self r⟩
  · rw [Function.update_of_ne hk]
    exact .inl rfl

/-- A step keeps a function locally ordered. -/
theorem locallyOrdered (h : Splices f gep r f') (hf : f.Coherent) (hord : f.LocallyOrdered) :
    f'.LocallyOrdered := by
  intro u i' hi' hphi k huse hk
  by_cases hu : u < f.insts.size
  · obtain ⟨i, hi⟩ := exists_inst hu
    obtain ⟨i'', hi'', hop, -, -, hblock, -⟩ := h.kept u i hi
    obtain rfl : i' = i'' := Option.some.inj (hi'.symm.trans hi'')
    rw [hop, Op.formTest_isPhi.mapOperands] at hphi
    rw [hop, Op.mem_uses_rename] at huse
    obtain ⟨k₀, hk₀, rfl⟩ := huse
    rw [hblock] at hk ⊢
    have hat := h.standsAt_update k₀
    have hmem := h.mem_of_standsAt hf ((hf.inRange u i hi).lt_of_mem_uses hk₀) hat hk
    exact h.precedes (hord u i hi hphi k₀ hk₀ hmem) hat (.inl rfl)
  · -- The code is at the place of the pointer, and uses the pointer, itself or what the pointer uses.
    have hnew := Nat.not_lt.mp hu
    have hat : f.StandsAt gep f' gep u := .inr ⟨rfl, hnew, lt_of_inst hi'⟩
    have hgep := h.mem_of_standsAt hf h.gep_lt hat (h.coherent.mem_instsOf_block hi')
    obtain ⟨hku, hnewer | rfl | ⟨i, hi, -, hused⟩⟩ := h.added u i' hnew hi' k huse
    · exact h.precedes_code hgep (.inr ⟨rfl, hnewer, hku.trans (lt_of_inst hi')⟩) hku hnew
        (lt_of_inst hi')
    · exact h.precedes_code hgep (.inl rfl) hku hnew (lt_of_inst hi')
    · obtain ⟨i₀, g, hi₀, hop⟩ := h.isGep
      obtain rfl : i = i₀ := Option.some.inj (hi.symm.trans hi₀)
      have hlt := (hf.inRange gep i hi).lt_of_mem_uses hused
      have hmem := h.mem_of_standsAt hf hlt (.inl rfl) hk
      rw [← hf.block_eq hi hgep] at hmem ⊢
      exact h.precedes (hord gep i hi (by rw [hop]; rfl) k hused hmem) (.inl rfl) hat

end Splices

/-! ## Where the code of a run is -/

namespace Spliced

theorem locallyOrdered (h : Spliced f outs F) (hf : f.Coherent) (hord : f.LocallyOrdered) :
    F.LocallyOrdered := by
  induction h with
  | done f => exact hord
  | skip _ ih => exact ih hf hord
  | tag step _ ih => exact ih step.coherent (step.locallyOrdered hf hord)

/-- The code of a pointer is in the block of the pointer. -/
theorem block_code (h : Spliced f outs F) (hf : f.Coherent) (horderly : outs.Orderly f.insts.size)
    {id : InstId} {g : Inst} (hg : f.insts[gep]? = some g) (hid : id ∈ outs.code f.insts.size gep) :
    ∃ i, F.insts[id]? = some i ∧ i.block = g.block := by
  have hF := h.coherent hf
  have hmem : id ∈ F.instsOf g.block := by
    rw [h.placed horderly, List.mem_flatMap]
    exact ⟨gep, hf.mem_instsOf_block hg, List.mem_cons_of_mem _ hid⟩
  obtain ⟨i, hi⟩ := exists_inst (hF.lt_of_mem hmem)
  exact ⟨i, hi, hF.block_eq hi hmem⟩

/-- What a run adds is the code of the pointers that it tagged. -/
theorem exists_tagged (h : Spliced f outs F) (hf : f.Coherent) (horderly : outs.Orderly f.insts.size)
    {id : InstId} (hnew : f.insts.size ≤ id) (hlt : id < F.insts.size) :
    ∃ gep ∈ outs.tagged, id ∈ outs.code f.insts.size gep := by
  obtain ⟨i, hi⟩ := exists_inst hlt
  have hmem := (h.coherent hf).mem_instsOf_block hi
  rw [h.placed horderly, List.mem_flatMap] at hmem
  obtain ⟨gep, hgep, hid⟩ := hmem
  have hcode : id ∈ outs.code f.insts.size gep := by
    rcases List.mem_cons.mp hid with rfl | hid
    · exact absurd (hf.lt_of_mem hgep) (Nat.not_lt.mpr hnew)
    · exact hid
  refine ⟨gep, ?_, hcode⟩
  by_contra hnot
  rw [Outcomes.code_of_not_tagged hnot] at hcode
  exact List.not_mem_nil hcode

end Spliced

/-! ## Dominance -/

/-- Every way from the entry to block `b` goes through block `a`. -/
def Dominates (f : Func) (a b : BlockId) : Prop :=
  ∀ way : List BlockId, way.head? = f.entry? → way.IsChain (fun p q => q ∈ f.successors p) →
    way.getLast? = some b → a ∈ way

theorem Enriches.dominates_iff (h : f.Enriches f') (a b : BlockId) :
    f'.Dominates a b ↔ f.Dominates a b := by
  have hentry : f'.entry? = f.entry? := by
    unfold entry?
    rw [h.order]
  unfold Dominates
  simp only [hentry, h.successors]

/-- A run that succeeds keeps definitions before their uses, whatever the scheme. Within a block, what
came after its operands still does, and so does the code that is added. All of that is the code of some
tagged pointer, and is in the block of the pointer. So is the copy, and what used the pointer uses the
copy: the copy dominates each of its users if the pointer did. -/
theorem Reachable.tag_locallyOrdered (h : f.Reachable) (hord : f.LocallyOrdered) {s : Scheme}
    {L : Layout} {globals : List String} (hrun : (f.tag s L globals).result = .ok outs) :
    let F := (f.tag s L globals).state
    let code := outs.code f.insts.size
    F.LocallyOrdered ∧
      (∀ id, f.insts.size ≤ id → id < F.insts.size → ∃ gep ∈ outs.tagged, id ∈ code gep) ∧
      (∀ gep g, gep ∈ outs.tagged → f.insts[gep]? = some g → ∀ id ∈ code gep,
        ∃ i, F.insts[id]? = some i ∧ i.block = g.block) ∧
      ∀ gep r constant split, (gep, .tagged r constant split) ∈ outs →
        r ∈ code gep ∧ ∃ g i, f.insts[gep]? = some g ∧ F.insts[r]? = some i ∧
          (∀ b, F.Dominates i.block b ↔ f.Dominates g.block b) ∧
          ∀ (u : InstId) (j : Inst), f.insts[u]? = some j → gep ∈ j.op.uses →
            ∃ j' : Inst, F.insts[u]? = some j' ∧ j'.block = j.block ∧ r ∈ j'.op.uses := by
  intro F code
  have hf := h.coherent
  obtain ⟨hspliced, hall⟩ := spliced_of_tag hf hrun
  have horderly := orderly_of_geps hf hall
  refine ⟨hspliced.locallyOrdered hf hord, fun id => hspliced.exists_tagged hf horderly, ?_, ?_⟩
  · intro gep g _ hg id hid
    exact hspliced.block_code hf horderly hg hid
  · intro gep r constant split hmem
    obtain ⟨-, -, hlast, -⟩ := hspliced.exists_code horderly hmem
    have hr : r ∈ code gep := List.mem_of_getLast? hlast
    have htagged : gep ∈ outs.tagged := Outcomes.mem_tagged.mpr ⟨r, constant, split, hmem⟩
    obtain ⟨g, hg⟩ := exists_inst (horderly.old gep (Outcomes.mem_of_mem_tagged htagged))
    obtain ⟨i, hi, hblock⟩ := hspliced.block_code hf horderly hg hr
    refine ⟨hr, g, i, hg, hi, fun b => ?_, fun u j hj huse => ?_⟩
    · rw [hblock]
      exact (intact_tag s L globals hf).enriches.dominates_iff g.block b
    · obtain ⟨j', hj', hop, -⟩ := hspliced.continues_moved.kept u j hj
      obtain ⟨j'', hj'', -, hkept, -⟩ := hspliced.kept hj
      obtain rfl : j' = j'' := Option.some.inj (hj'.symm.trans hj'')
      refine ⟨j', hj', hkept, ?_⟩
      rw [hop, Op.mem_uses_rename]
      exact ⟨gep, huse, hspliced.moved_eq horderly.nodup horderly.old hmem⟩

/-- Two address computations in a row, the second from the first, and a store behind them; the next block
stores through the second once more. -/
def adjacent : Func :=
  (fresh "f" .void [⟨"p", .ptr⟩, ⟨"n", .int 64⟩]).mutate
    [.addBlock "entry", .addBlock "next",
      .append 0 { op := .gep ⟨.int 32, .arg 0, [.arg 1], false⟩, ty := .ptr, name := some "a" },
      .append 0 { op := .gep ⟨.int 32, .inst 0, [.arg 1], false⟩, ty := .ptr, name := some "b" },
      .append 0 { op := .store (.inst 0) (.inst 1), ty := .void },
      .append 0 { op := .br 1, ty := .void },
      .append 1 { op := .store (.inst 1) (.inst 1), ty := .void },
      .append 1 { op := .ret none, ty := .void }]

theorem adjacent_reachable : adjacent.Reachable := (Reachable.fresh _ _ _).mutate _

/-- Both pointers of `adjacent` are tagged. The copy of the second is `23`: it is in the entry block, so it
dominates the store in the next block, which now uses it. -/
theorem adjacent_locallyOrdered :
    let F := (adjacent.tag {} .lp64 []).state
    let outs : Outcomes := [(0, .tagged 14 false false), (1, .tagged 23 false false)]
    adjacent.Reachable ∧ adjacent.LocallyOrdered ∧ (adjacent.tag {} .lp64 []).result = .ok outs ∧
      F.LocallyOrdered ∧ (∃ i, F.insts[23]? = some i ∧ i.block = 0) ∧ F.Dominates 0 1 ∧
        ∃ store, F.insts[4]? = some store ∧ 23 ∈ store.op.uses := by
  intro F outs
  have hord : adjacent.LocallyOrdered := by decide +kernel
  have hrun : (adjacent.tag {} .lp64 []).result = .ok outs := by decide +kernel
  obtain ⟨hordered, -, hblock, hcopy⟩ := adjacent_reachable.tag_locallyOrdered hord hrun
  obtain ⟨hr, g, i, hg, hi, hdominates, husers⟩ := hcopy 1 23 false false (by simp [outs])
  have hzero : g.block = 0 := by
    have hmap : adjacent.insts[1]?.map (·.block) = some 0 := by decide +kernel
    rw [hg] at hmap
    exact Option.some.inj hmap
  obtain ⟨i', hi', hi'block⟩ := hblock 1 g (by decide) hg 23 hr
  obtain rfl : i = i' := Option.some.inj (hi.symm.trans hi')
  -- Every way starts in the entry block.
  have hentry : adjacent.Dominates 0 1 := fun way hhead _ _ => List.mem_of_head? (hhead.trans rfl)
  refine ⟨adjacent_reachable, hord, hrun, hordered, ⟨i, hi, hi'block.trans hzero⟩, ?_, ?_⟩
  · rw [← hzero, ← hdominates, hi'block, hzero] at hentry
    exact hentry
  · obtain ⟨store, hstore⟩ : ∃ store, adjacent.insts[4]? = some store := exists_inst (by decide +kernel)
    have huses : store.op.uses = [1, 1] := by
      have hmap : adjacent.insts[4]?.map (·.op.uses) = some [1, 1] := by decide +kernel
      rw [hstore] at hmap
      exact Option.some.inj hmap
    obtain ⟨store', hstore', -, huse'⟩ := husers 4 store hstore (by rw [huses]; decide)
    exact ⟨store', hstore', huse'⟩

end Func

end PtrTag
