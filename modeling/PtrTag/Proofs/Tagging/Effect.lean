import PtrTag.Proofs.Tagging.Run
import PtrTag.Proofs.Tagging.WellFormed

/-!
# `PtrTag/Proofs/Tagging/Effect.lean` — what a run changes, and what it leaves alone

A run that succeeds changes a function in three ways: code stands behind each pointer that it tagged,
what used such a pointer uses its copy, and the pointer is marked. This module says for a whole run that
there is nothing else, whatever the scheme.

New instructions are numbered in the order in which they are made, so the code behind a pointer is a
range of numbers that can be read off the outcomes (`Outcomes.code`). What is left of a tagged pointer
is one use, by the first instruction of its code (`Func.LeftAsWord`). No later step touches that use: a
step redirects uses of its own pointer, and its code uses only what that address computation used, which
by then is not an earlier pointer.
-/

set_option autoImplicit false

namespace PtrTag

/-! ## The code behind each pointer -/

namespace Outcomes

/-- The instructions that a run put behind `id`, if there were `start` instructions before it. -/
def code : Outcomes → Nat → InstId → List InstId
  | [], _, _ => []
  | (gep, .tagged r _ _) :: outs, start, id =>
    if id = gep then List.range' start (r + 1 - start) else code outs (r + 1) id
  | (_, .skipped _) :: outs, start, id => code outs start id

/-- The run met every address computation once, and it met only instructions below `n`. -/
structure Orderly (outs : Outcomes) (n : Nat) : Prop where
  nodup : (outs.map Prod.fst).Nodup
  old : ∀ k ∈ outs.map Prod.fst, k < n

variable {outs : Outcomes} {n m : Nat} {j gep : InstId}

theorem code_of_not_tagged (h : j ∉ outs.tagged) (start : Nat) : outs.code start j = [] := by
  induction outs generalizing start with
  | nil => rfl
  | cons out outs ih =>
    obtain ⟨gep, outcome⟩ := out
    cases outcome with
    | tagged r constant split =>
      rw [code, if_neg (List.ne_of_not_mem_cons h)]
      exact ih (List.not_mem_of_not_mem_cons h) _
    | skipped why => exact ih h start

namespace Orderly

variable {outcome : Outcome}

theorem tail (h : Orderly ((gep, outcome) :: outs) n) (hle : n ≤ m) : outs.Orderly m where
  nodup := (List.nodup_cons.mp h.nodup).2
  old := fun k hk => Nat.lt_of_lt_of_le (h.old k (List.mem_cons_of_mem _ hk)) hle

theorem head_not_tagged (h : Orderly ((gep, outcome) :: outs) n) : gep ∉ outs.tagged :=
  fun hm => (List.nodup_cons.mp h.nodup).1 (mem_of_mem_tagged hm)

theorem not_tagged_of_le (h : outs.Orderly n) (hle : n ≤ j) : j ∉ outs.tagged :=
  fun hm => Nat.not_lt.mpr hle (h.old j (mem_of_mem_tagged hm))

end Orderly

end Outcomes

namespace Func

variable {f f' F : Func} {gep p r : InstId} {outs : Outcomes}

/-- A step puts its code behind its own pointer, so the code of the steps after it stays where they put
it. -/
theorem flatMap_code {n : Nat} {new : List InstId} (horderly : outs.Orderly n)
    (hgep : gep ∉ outs.tagged) (hnew : ∀ j ∈ new, n ≤ j) (m : Nat) (id : InstId) :
    (id :: if id = gep then new else []).flatMap (fun j => j :: outs.code m j) =
      id :: if id = gep then new else outs.code m id := by
  by_cases hid : id = gep
  · have hplain : ∀ j ∈ id :: new, j :: outs.code m j = [j] := by
      intro j hj
      have hj : j ∉ outs.tagged := by
        rcases List.mem_cons.mp hj with rfl | hj
        · exact hid ▸ hgep
        · exact horderly.not_tagged_of_le (hnew j hj)
      rw [Outcomes.code_of_not_tagged hj]
    rw [if_pos hid, if_pos hid, List.flatMap_congr hplain]
    exact List.flatMap_singleton' _
  · rw [if_neg hid, if_neg hid]
    exact List.append_nil _

namespace Spliced

theorem placed (h : Spliced f outs F) (horderly : outs.Orderly f.insts.size) (b : BlockId) :
    F.instsOf b = (f.instsOf b).flatMap fun id => id :: outs.code f.insts.size id := by
  induction h with
  | done f => exact (List.flatMap_singleton' _).symm
  | skip _ ih => exact ih (horderly.tail (Nat.le_refl _))
  | tag step _ ih =>
    rw [ih (horderly.tail (Nat.le_of_lt step.size_lt)), step.placed, List.flatMap_assoc]
    refine List.flatMap_congr fun id _ => ?_
    rw [step.size]
    exact flatMap_code (horderly.tail (Nat.le_refl _)) horderly.head_not_tagged
      (fun j hj => (List.mem_range'_1.mp hj).1) _ id

/-! ## The instructions that were there -/

theorem kept (h : Spliced f outs F) {j : InstId} {i : Inst} (hi : f.insts[j]? = some i) :
    ∃ i', F.insts[j]? = some i' ∧ i'.name = i.name ∧ i'.block = i.block ∧
      i'.marks = if j ∈ outs.tagged then { i.marks with tagged := true } else i.marks := by
  induction h generalizing i with
  | done f => exact ⟨i, hi, rfl, rfl, rfl⟩
  | skip _ ih => exact ih hi
  | @tag f f₁ F gep r constant split outs step _ ih =>
    obtain ⟨i₁, hi₁, -, -, hname₁, hblock₁, hmarks₁⟩ := step.kept j i hi
    obtain ⟨i', hi', hname, hblock, hmarks⟩ := ih hi₁
    refine ⟨i', hi', hname.trans hname₁, hblock.trans hblock₁, ?_⟩
    show i'.marks = if j ∈ gep :: outs.tagged then _ else _
    rw [hmarks, hmarks₁]
    by_cases hj : j = gep
    · simp [hj]
    · simp [hj]

/-- The code that a run adds carries no marks. -/
theorem unmarked (h : Spliced f outs F) (horderly : outs.Orderly f.insts.size) {j : InstId} {i : Inst}
    (hj : f.insts.size ≤ j) (hi : F.insts[j]? = some i) : i.marks = {} := by
  induction h with
  | done f => exact absurd (lt_of_inst hi) (Nat.not_lt.mpr hj)
  | skip _ ih => exact ih (horderly.tail (Nat.le_refl _)) hj hi
  | @tag f f₁ F gep r constant split outs step rest ih =>
    have htail := horderly.tail (Nat.le_of_lt step.size_lt)
    by_cases hj₁ : f₁.insts.size ≤ j
    · exact ih htail hj₁ hi
    · -- Made by this step; no later step marks it, because none meets it.
      obtain ⟨i₁, hi₁⟩ := exists_inst (Nat.not_le.mp hj₁)
      obtain ⟨i', hi', -, -, hmarks⟩ := rest.kept hi₁
      obtain rfl : i = i' := Option.some.inj (hi.symm.trans hi')
      have hfresh : j ∉ outs.tagged := (horderly.tail (Nat.le_refl _)).not_tagged_of_le hj
      rw [hmarks, if_neg hfresh]
      exact step.unmarked j i₁ hj hi₁

end Spliced

/-! ## What is left of a tagged pointer -/

/-- All that uses the pointer `gep` is `p`, which reads it as a word. -/
structure LeftAsWord (f : Func) (gep p : InstId) : Prop where
  word : ∃ i, f.insts[p]? = some i ∧ i.op = .cast .ptrToInt (.inst gep)
  only : ∀ (j : InstId) (i : Inst), f.insts[j]? = some i → gep ∈ i.op.uses → j = p

theorem update_eq_old {gep r k j : InstId} (hj : j < r) (h : Function.update id gep r k = j) :
    k = j ∧ k ≠ gep := by
  by_cases hk : k = gep
  · rw [hk, Function.update_self] at h
    exact absurd h.symm (Nat.ne_of_lt hj)
  · rw [Function.update_of_ne hk] at h
    exact ⟨h, hk⟩

theorem Splices.gep_lt (h : Splices f gep r f') : gep < f.insts.size := by
  obtain ⟨i, -, hi, -⟩ := h.isGep
  exact lt_of_inst hi

/-- What an instruction uses after a step, and what is not new, it used before; and it is not the pointer
that was tagged. -/
theorem Splices.use_back (h : Splices f gep r f') {j k : InstId} {i i' : Inst}
    (hi : f.insts[j]? = some i) (hi' : f'.insts[j]? = some i') (hk : k < f.insts.size)
    (huse : k ∈ i'.op.uses) : k ∈ i.op.uses ∧ k ≠ gep := by
  obtain ⟨i'', hi'', hop, -⟩ := h.kept j i hi
  obtain rfl : i' = i'' := Option.some.inj (hi'.symm.trans hi'')
  rw [hop, Op.mem_uses_rename] at huse
  obtain ⟨k₀, hk₀, heq⟩ := huse
  obtain ⟨rfl, hne⟩ := update_eq_old (Nat.lt_of_lt_of_le hk h.fresh) heq
  exact ⟨hk₀, hne⟩

/-- A step leaves one use of its pointer, unless that is one of its own indices. -/
theorem Splices.leftAsWord (h : Splices f gep r f') (hself : ¬ f.IsIndexOf gep gep) :
    f'.LeftAsWord gep f.insts.size where
  word := h.first
  only := fun j i' hi' huse => by
    rcases Nat.lt_trichotomy j f.insts.size with hj | hj | hj
    · obtain ⟨i, hi⟩ := exists_inst hj
      exact absurd rfl (h.use_back hi hi' h.gep_lt huse).2
    · exact hj
    · exact absurd (h.later j i' hj hi' huse) hself

/-- The one use of a pointer that was tagged stays its only use. -/
theorem LeftAsWord.step (hleft : f.LeftAsWord gep p) (hgep : gep < f.insts.size) {other : InstId}
    (h : Splices f other r f') (hne : gep ≠ other) : f'.LeftAsWord gep p where
  word := by
    obtain ⟨i, hi, hop⟩ := hleft.word
    obtain ⟨i', hi', hop', -⟩ := h.kept p i hi
    refine ⟨i', hi', ?_⟩
    rw [hop', hop]
    show Op.cast .ptrToInt (.inst (Function.update id other r gep)) = _
    rw [Function.update_of_ne hne]
    rfl
  only := fun j i' hi' huse => by
    by_cases hj : j < f.insts.size
    · obtain ⟨i, hi⟩ := exists_inst hj
      exact hleft.only j i hi (h.use_back hi hi' hgep huse).1
    · rcases (h.added j i' (Nat.not_lt.mp hj) hi' gep huse).2 with hnew | heq | ⟨i, hi, -, hfeeds⟩
      · exact absurd hgep (Nat.not_lt.mpr hnew)
      · exact absurd heq hne
      · -- The other address computation would be the word of this pointer, but that is a cast.
        obtain ⟨w, hw, hcast⟩ := hleft.word
        obtain ⟨i₀, g, hi₀, hop₀⟩ := h.isGep
        obtain rfl : other = p := hleft.only other i hi hfeeds
        obtain rfl : w = i₀ := Option.some.inj (hw.symm.trans hi₀)
        cases hcast.symm.trans hop₀

theorem LeftAsWord.spliced (hleft : f.LeftAsWord gep p) (hgep : gep < f.insts.size)
    (h : Spliced f outs F) (hnot : gep ∉ outs.tagged) : F.LeftAsWord gep p := by
  induction h with
  | done f => exact hleft
  | skip _ ih => exact ih hleft hgep hnot
  | tag step _ ih =>
    exact ih (hleft.step hgep step (List.ne_of_not_mem_cons hnot))
      (hgep.trans step.size_lt) (List.not_mem_of_not_mem_cons hnot)

/-- A step makes none of the instructions that there were an index of another. -/
theorem Splices.isIndexOf_back (h : Splices f gep r f') {j k : InstId} (hj : j < f.insts.size)
    (hk : k < f.insts.size) (hindex : f'.IsIndexOf j k) : f.IsIndexOf j k := by
  obtain ⟨i', g', hi', hop', hmem⟩ := hindex
  obtain ⟨i, hi⟩ := exists_inst hj
  obtain ⟨i'', hi'', hop, -⟩ := h.kept j i hi
  obtain rfl : i' = i'' := Option.some.inj (hi'.symm.trans hi'')
  rw [hop'] at hop
  cases hgep : i.op with
  | gep g =>
    rw [hgep] at hop
    obtain rfl := Op.gep.inj hop
    obtain ⟨v, hv, heq⟩ := List.mem_map.mp hmem
    cases v with
    | inst k₀ =>
      obtain ⟨rfl, -⟩ := update_eq_old (Nat.lt_of_lt_of_le hk h.fresh) (Value.inst.inj heq)
      exact ⟨i, g, hi, hgep, hv⟩
    | _ => exact absurd heq (by simp [Value.rename])
  | _ =>
    rw [hgep] at hop
    cases hop

theorem ends_range' {n r : Nat} (h : n ≤ r) :
    (List.range' n (r + 1 - n)).head? = some n ∧ (List.range' n (r + 1 - n)).getLast? = some r := by
  have hne : r + 1 - n ≠ 0 := Nat.sub_ne_zero_of_lt (Nat.lt_succ_of_le h)
  rw [List.head?_range', List.getLast?_range', if_neg hne, if_neg hne]
  exact ⟨rfl, congrArg some (by omega)⟩

/-- The code behind a tagged pointer begins with what is left of the pointer, and ends in the copy. -/
theorem Spliced.exists_code (h : Spliced f outs F) (horderly : outs.Orderly f.insts.size)
    {constant split : Bool} (hmem : (gep, .tagged r constant split) ∈ outs) :
    ∃ n, (outs.code f.insts.size gep).head? = some n ∧
      (outs.code f.insts.size gep).getLast? = some r ∧
        (¬ f.IsIndexOf gep gep → F.LeftAsWord gep n) := by
  induction h with
  | done f => exact absurd hmem List.not_mem_nil
  | skip _ ih =>
    rcases List.mem_cons.mp hmem with heq | hmem
    · cases heq
    · exact ih (horderly.tail (Nat.le_refl _)) hmem
  | @tag f f₁ F head q _ _ outs step rest ih =>
    have htail := horderly.tail (Nat.le_of_lt step.size_lt)
    rcases List.mem_cons.mp hmem with heq | hmem
    · cases heq
      obtain ⟨hfirst, hlast⟩ := ends_range' step.fresh
      rw [Outcomes.code, if_pos rfl]
      refine ⟨f.insts.size, hfirst, hlast, fun hself => ?_⟩
      exact (step.leftAsWord hself).spliced (step.gep_lt.trans step.size_lt) rest
        horderly.head_not_tagged
    · have hm : gep ∈ outs.map Prod.fst := List.mem_map.mpr ⟨_, hmem, rfl⟩
      have hlt : gep < f.insts.size := horderly.old gep (List.mem_cons_of_mem _ hm)
      have hne : gep ≠ head := by
        rintro rfl
        exact (List.nodup_cons.mp horderly.nodup).1 hm
      obtain ⟨n, hfirst, hlast, hleft⟩ := ih htail hmem
      rw [Outcomes.code, if_neg hne, ← step.size]
      refine ⟨n, hfirst, hlast, fun hself => hleft fun hindex => ?_⟩
      exact hself (step.isIndexOf_back hlt hlt hindex)

theorem LeftAsWord.useCount_eq (h : f.LeftAsWord gep p) (user : InstId) :
    f.useCount user gep = if user = p then 1 else 0 := by
  obtain ⟨w, hw, hop⟩ := h.word
  by_cases huser : user = p
  · rw [if_pos huser, huser, useCount_of_inst hw, hop, Op.count_uses]
    exact List.count_singleton_self
  · rw [if_neg huser]
    cases hu : f.insts[user]? with
    | none => exact useCount_of_none hu gep
    | some u =>
      rw [useCount_of_inst hu, List.count_eq_zero]
      exact fun huse => huser (h.only user u hu huse)

theorem LeftAsWord.users_eq (h : f.LeftAsWord gep p) (hf : f.Coherent) {i : Inst}
    (hi : f.insts[gep]? = some i) : i.users = [p] := by
  rw [← List.perm_singleton, List.perm_iff_count]
  intro user
  rw [hf.users gep i hi user, h.useCount_eq user, List.count_singleton]
  by_cases huser : user = p
  · simp [huser]
  · simp [huser, Ne.symm huser]

/-! ## A whole run -/

theorem orderly_of_geps (hf : f.Coherent) (hall : outs.map Prod.fst = f.geps) :
    outs.Orderly f.insts.size where
  nodup := by
    rw [hall]
    exact nodup_geps hf
  old := by
    rw [hall]
    exact fun k hk => lt_of_mem_geps hk

/-- The whole effect of a run that succeeds, whatever the scheme. Name, parameters, blocks and their order
are as before, and each block lists what it listed, with the code of a tagged pointer right behind it;
that code ends in the copy. Every instruction keeps its type, name and block, its operands are copies
where they were tagged pointers, and the mark of the run is set on these pointers only. The code is
arithmetic without marks. A tagged pointer that was not one of its own indices has one use left, by the
first instruction of its code. -/
theorem Reachable.tag_effect (h : f.Reachable) {s : Scheme} {L : Layout} {globals : List String}
    (hrun : (f.tag s L globals).result = .ok outs) :
    let F := (f.tag s L globals).state
    let code := outs.code f.insts.size
    F.outline = f.outline ∧
      (∀ b, F.instsOf b = (f.instsOf b).flatMap fun id => id :: code id) ∧
      (∀ id, id ∉ outs.tagged → outs.moved id = id ∧ code id = []) ∧
      (∀ gep r constant split, (gep, .tagged r constant split) ∈ outs →
        outs.moved gep = r ∧ (code gep).getLast? = some r) ∧
      (∀ id i, f.insts[id]? = some i → ∃ i', F.insts[id]? = some i' ∧
        i'.op = i.op.mapOperands (Value.rename outs.moved) ∧ i'.ty = i.ty ∧ i'.name = i.name ∧
          i'.block = i.block ∧
            i'.marks = if id ∈ outs.tagged then { i.marks with tagged := true } else i.marks) ∧
      (∀ id i, f.insts.size ≤ id → F.insts[id]? = some i →
        i.op.isGep = false ∧ i.op.isPhi = false ∧ i.op.isTerminator = false ∧ i.marks = {}) ∧
      ∀ gep ∈ outs.tagged, ¬ f.IsIndexOf gep gep → ∃ p i w, (code gep).head? = some p ∧
        F.insts[p]? = some w ∧ w.op = .cast .ptrToInt (.inst gep) ∧
          F.insts[gep]? = some i ∧ i.users = [p] ∧
            ∀ user, F.useCount user gep = if user = p then 1 else 0 := by
  intro F code
  have hf := h.coherent
  obtain ⟨hspliced, hall⟩ := spliced_of_tag hf hrun
  have horderly := orderly_of_geps hf hall
  have henriches := (intact_tag s L globals hf).enriches
  refine ⟨henriches.outline, hspliced.placed horderly, ?_, ?_, ?_, ?_, ?_⟩
  · intro id hid
    exact ⟨Outcomes.moved_of_not_tagged hid, Outcomes.code_of_not_tagged hid _⟩
  · intro gep r constant split hmem
    obtain ⟨n, -, hlast, -⟩ := hspliced.exists_code horderly hmem
    exact ⟨hspliced.moved_eq horderly.nodup horderly.old hmem, hlast⟩
  · intro id i hi
    obtain ⟨i', hi', hop, hty⟩ := hspliced.continues_moved.kept id i hi
    obtain ⟨i'', hi'', hname, hblock, hmarks⟩ := hspliced.kept hi
    obtain rfl : i' = i'' := Option.some.inj (hi'.symm.trans hi'')
    exact ⟨i', hi', hop, hty, hname, hblock, hmarks⟩
  · intro id i hle hi
    have harith := henriches.added id i hle hi
    exact ⟨Op.formTest_isGep.arith _ harith, Op.formTest_isPhi.arith _ harith,
      Op.formTest_isTerminator.arith _ harith, hspliced.unmarked horderly hle hi⟩
  · intro gep hgep hself
    obtain ⟨r, constant, split, hmem⟩ := Outcomes.mem_tagged.mp hgep
    obtain ⟨n, hfirst, -, hleft⟩ := hspliced.exists_code horderly hmem
    have hleft : F.LeftAsWord gep n := hleft hself
    obtain ⟨w, hw, hword⟩ := hleft.word
    obtain ⟨i₀, hi₀⟩ := exists_inst (horderly.old gep (Outcomes.mem_of_mem_tagged hgep))
    obtain ⟨i, hi, -⟩ := hspliced.kept hi₀
    exact ⟨n, i, w, hfirst, hw, hword, hi, hleft.users_eq (hspliced.coherent hf) hi,
      hleft.useCount_eq⟩

theorem not_isIndexOf_of_useCount (h : f.useCount gep gep = 0) : ¬ f.IsIndexOf gep gep := by
  intro hindex
  obtain ⟨i, hi, -, huse⟩ := hindex.feeds
  rw [useCount_of_inst hi] at h
  exact List.count_eq_zero.mp h huse

/-- A loop in which the second address computation starts from the first and reads its index from it. A
phi uses the second one, and a store uses it twice. -/
def tangled : Func :=
  (fresh "f" .void [⟨"p", .ptr⟩, ⟨"n", .int 64⟩, ⟨"again", .int 1⟩]).mutate
    [.addBlock "entry", .addBlock "loop", .addBlock "exit",
      .append 0 { op := .br 1, ty := .void },
      .append 1 { op := .phi [(.arg 0, 0)], ty := .ptr, name := some "q" },
      .append 1 { op := .gep ⟨.int 32, .inst 1, [.arg 1], false⟩, ty := .ptr, name := some "a" },
      .append 1 { op := .cast .ptrToInt (.inst 2), ty := .int 64 },
      .append 1 { op := .gep ⟨.int 32, .inst 2, [.inst 3], false⟩, ty := .ptr, name := some "b" },
      .append 1 { op := .store (.inst 4) (.inst 4), ty := .void },
      .append 1 { op := .condBr (.arg 2) 1 2, ty := .void },
      .addIncoming 1 (.inst 4) 1,
      .append 2 { op := .ret none, ty := .void }]

theorem tangled_reachable : tangled.Reachable := (Reachable.fresh _ _ _).mutate _

/-- Both pointers of `tangled` are tagged. The code of the first is `8` to `16`, that of the second is
`17` to `25`; the second now starts from the copy of the first, and each is read once, as a word. -/
theorem tangled_effect :
    let F := (tangled.tag {} .lp64 []).state
    let outs : Outcomes := [(2, .tagged 16 false false), (4, .tagged 25 false false)]
    tangled.Reachable ∧ (tangled.tag {} .lp64 []).result = .ok outs ∧
      F.instsOf 1 = [1, 2] ++ List.range' 8 9 ++ [3, 4] ++ List.range' 17 9 ++ [5, 6] ∧
      (∃ i, F.insts[5]? = some i ∧ i.op = .store (.inst 25) (.inst 25)) ∧
      (∃ i, F.insts[2]? = some i ∧ i.users = [8]) ∧ (∃ i, F.insts[4]? = some i ∧ i.users = [17]) := by
  intro F outs
  have hrun : (tangled.tag {} .lp64 []).result = .ok outs := by decide +kernel
  obtain ⟨-, hplaced, -, -, hkept, -, hleft⟩ := tangled_reachable.tag_effect hrun
  have hfour : ¬ tangled.IsIndexOf 4 4 := not_isIndexOf_of_useCount (by decide +kernel)
  have htwo : ¬ tangled.IsIndexOf 2 2 := not_isIndexOf_of_useCount (by decide +kernel)
  refine ⟨tangled_reachable, hrun, ?_, ?_, ?_, ?_⟩
  · exact (hplaced 1).trans (by decide +kernel)
  · obtain ⟨i₀, hi₀⟩ : ∃ i₀, tangled.insts[5]? = some i₀ := exists_inst (by decide +kernel)
    have hstore : tangled.insts[5]?.map (·.op) = some (.store (.inst 4) (.inst 4)) := by decide +kernel
    rw [hi₀] at hstore
    have hop₀ : i₀.op = .store (.inst 4) (.inst 4) := Option.some.inj hstore
    obtain ⟨i, hi, hop, -⟩ := hkept 5 i₀ hi₀
    rw [hop₀] at hop
    exact ⟨i, hi, hop⟩
  · obtain ⟨p, i, -, hp, -, -, hi, husers, -⟩ := hleft 2 (by decide) htwo
    have hp : some 8 = some p := hp
    exact ⟨i, hi, husers.trans (by rw [Option.some.inj hp])⟩
  · obtain ⟨p, i, -, hp, -, -, hi, husers, -⟩ := hleft 4 (by decide) hfour
    have hp : some 17 = some p := hp
    exact ⟨i, hi, husers.trans (by rw [Option.some.inj hp])⟩

end Func

end PtrTag
