import PtrTag.Tagging.Run
import PtrTag.Proofs.Func.Substitution
import PtrTag.Proofs.Tagging.Tag

/-!
# `PtrTag/Proofs/Tagging/Step.lean` — what tagging one address computation does

`Edit.tagGep` either leaves the function exactly as it was (it skips, or it fails) or makes one
well-defined step (`Func.TagStep`): a tagged copy of the pointer is put behind it, and everything
that used the pointer uses the copy. A failure half-way is impossible, because all that can fail is
asked before anything is changed.

What a step does to the function (`Func.Splices`) is the same for every scheme; only the law of the
copy speaks of bit positions.
-/

set_option autoImplicit false

namespace PtrTag

namespace Edit

open Func

variable {f : Func}

/-! ## The site behind an ordinary instruction -/

theorem siteAfter_ordinary {id : InstId} {i : Inst} (hi : f.insts[id]? = some i)
    (hphi : i.op.isPhi = false) (hterm : i.op.isTerminator = false) :
    siteAfter (.inst id) f = siteBehind id i.block f := by
  show (ask (·.inst id) >>= _) f = _
  rw [ask_bind_of_ok (inst_eq_ok_iff.mpr hi)]
  cases hop : i.op with
  | phi incoming => simp [hop, Op.isPhi] at hphi
  | br _ | condBr _ _ _ | ret _ | invoke _ _ _ _ | unreachable => simp [hop, Op.isTerminator] at hterm
  | _ => rfl

theorem siteAfter_gep {id : InstId} {i : Inst} {g : Gep} (hi : f.insts[id]? = some i)
    (hop : i.op = .gep g) : siteAfter (.inst id) f = siteBehind id i.block f :=
  siteAfter_ordinary hi (by rw [hop]; rfl) (by rw [hop]; rfl)

theorem siteBehind_eq {id : InstId} {b : BlockId} {pre post : List InstId} (hf : f.Coherent)
    (hsplit : f.instsOf b = pre ++ id :: post) :
    siteBehind id b f = match post with
      | [] => .error (.noInsertionPoint id) f
      | next :: _ => .ok { before := next } f := by
  have hmem : id ∈ f.instsOf b := by rw [hsplit]; simp
  have hb : b < f.blocks.size := lt_of_mem_instsOf hmem
  obtain ⟨block, hblock⟩ : ∃ block, f.blocks[b]? = some block := ⟨_, Array.getElem?_eq_getElem hb⟩
  have hpos : block.position? id = some pre.length := by
    rw [Block.position?, ← instsOf_eq hblock]
    exact idxOf?_of_split hsplit (hf.nodup_instsOf b)
  have hnext : block.insts[pre.length + 1]? = post.head? := by
    rw [← instsOf_eq hblock, hsplit]
    cases post <;> simp
  unfold siteBehind
  rw [ask_bind_of_ok (block_eq_ok_iff.mpr hblock)]
  simp only [hpos, Option.bind_some, hnext]
  cases post with
  | nil => rfl
  | cons next post => rfl

end Edit

/-! ## The law of a tagged copy -/

namespace Func

/-- What a pointer `gep` with address computation `g` and its tagged copy `r` have to do with each
other under a valuation `ρ`. -/
structure TagLaw (s : Scheme) (L : Layout) (F : Func) (env : Env)
    (ρ : InstId → Except EvalStop Word) (gep r : InstId) (ty : Ty) (g : Gep) : Prop where
  /-- The copy has a value exactly if the pointer has one. -/
  defined : (∃ w, ρ r = .ok w) ↔ ∃ o, ρ gep = .ok o
  /-- With the flag clear, the copy is the pointer. -/
  clear : ∀ o, ρ gep = .ok o → o.getLsbD s.flagBit = false → ρ r = .ok o
  /-- With the flag set, the displacement from the base is added in the upper bits. -/
  set : ∀ o b, ty = .ptr → L.pointerBits ≤ 64 → (∀ v ∈ g.indices, v.IsNormal) →
    ρ gep = .ok o → F.evalValue L env ρ g.base = .ok b → o.getLsbD s.flagBit = true →
      ρ r = .ok (Word.low (o + ((o - b) <<< s.offsetShift)) L.pointerBits)

variable {f f' F : Func} {L : Layout} {env : Env} {ρ : InstId → Except EvalStop Word}

/-- The value of an address computation is its base, moved by its terms. -/
theorem SolvesAt.gep_value {gep : InstId} {i : Inst} {g : Gep} (h : F.SolvesAt L env ρ gep)
    (hi : F.insts[gep]? = some i) (hop : i.op = .gep g) {steps : List Step}
    (hsteps : L.steps g.source g.indices = .ok steps) {o : Word} (ho : ρ gep = .ok o) :
    ∃ b d, F.evalValue L env ρ g.base = .ok b ∧
      F.evalPath L env ρ 0 (steps.zip g.indices) = .ok d ∧ o = Word.low (b + d) (L.width i.ty) := by
  have hcomputed := (h i hi o).mp ho
  rw [computed, hop] at hcomputed
  simp only [evalOp, hsteps, found, bind_eq_ok_iff, pure, Except.pure, Except.ok.injEq,
    exists_eq_left'] at hcomputed
  obtain ⟨w, ⟨b, hb, hw⟩, rfl⟩ := hcomputed
  obtain ⟨d, hd, rfl⟩ := evalPath_eq_ok_iff.mp hw
  exact ⟨b, d, hb, hd, rfl⟩

theorem Tagged.law {s : Scheme} {deps : InstId → Prop} {anchor gep r : InstId} {i : Inst} {g : Gep}
    {name : Option String} {steps : List Step}
    (h : Tagged s L deps anchor f gep i.ty name (steps.zip g.indices) r f')
    (hobeys : Obeys L env F ρ f f') (hsolves : F.SolvesAt L env ρ gep)
    (hi : F.insts[gep]? = some i) (hop : i.op = .gep g)
    (hsteps : L.steps g.source g.indices = .ok steps) :
    TagLaw s L F env ρ gep r i.ty g where
  defined := by
    constructor
    · rintro ⟨w, hw⟩
      exact h.back env F ρ w hobeys hw
    · rintro ⟨o, ho⟩
      obtain ⟨b, d, -, hd, -⟩ := hsolves.gep_value hi hop hsteps ho
      obtain ⟨y, hy, -⟩ := h.forth env F ρ o d hobeys ho hd
      exact ⟨_, hy⟩
  clear := fun o ho hclear => by
    -- The pointer has no more bits than its type, so cutting it to the type changes nothing.
    obtain ⟨b, d, -, hd, hlow⟩ := hsolves.gep_value hi hop hsteps ho
    obtain ⟨y, hy, -⟩ := h.forth env F ρ o d hobeys ho hd
    rw [hy, hclear, hlow]
    simp
  set := fun o b hty hle hnormal ho hb hset => by
    obtain ⟨b', d, hb', hd, hlow⟩ := hsolves.gep_value hi hop hsteps ho
    obtain rfl : b = b' := Except.ok.inj (hb.symm.trans hb')
    obtain ⟨y, hy, hylow⟩ := h.forth env F ρ o d hobeys ho hd
    have hnormal' : ∀ t ∈ steps.zip g.indices, t.2.IsNormal := fun t ht =>
      hnormal _ (List.of_mem_zip ht).2
    -- The displacement that the code computed is the distance from the base, at pointer width.
    have hdiff : Word.low (o - b) L.pointerBits = Word.low y L.pointerBits := by
      rw [hylow hle hnormal']
      refine Word.low_sub_of_low_add ?_
      rw [hlow, hty, Layout.width_ptr, Word.low_low]
    rw [hy, hset, hty, Layout.width_ptr, if_pos rfl]
    exact congrArg Except.ok
      (Word.low_add_congr rfl (Word.low_shiftLeft_congr s.offsetShift hdiff.symm))

/-! ## One step -/

/-- The result of `j` is an index of the address computation `gep`. -/
def IsIndexOf (f : Func) (gep j : InstId) : Prop :=
  ∃ i g, f.insts[gep]? = some i ∧ i.op = .gep g ∧ .inst j ∈ g.indices

theorem IsIndexOf.feeds {gep j : InstId} (h : f.IsIndexOf gep j) : f.Feeds gep j := by
  obtain ⟨i, g, hi, hop, hj⟩ := h
  refine ⟨i, hi, by rw [hop]; rfl, ?_⟩
  rw [hop, Op.mem_uses]
  exact List.mem_cons_of_mem _ hj

/-- The function `f'` is `f` with a copy `r` of the pointer `gep`: code behind `gep` computes the copy,
which takes the place of `gep` in every instruction that there was. -/
structure Splices (f : Func) (gep r : InstId) (f' : Func) : Prop where
  coherent : f'.Coherent
  params : f'.params = f.params
  fresh : f.insts.size ≤ r
  size : f'.insts.size = r + 1
  isGep : ∃ i g, f.insts[gep]? = some i ∧ i.op = .gep g
  kept : ∀ (j : InstId) (i : Inst), f.insts[j]? = some i → ∃ i', f'.insts[j]? = some i' ∧
    i'.op = i.op.mapOperands (Value.rename (Function.update id gep r)) ∧ i'.ty = i.ty ∧
      i'.name = i.name ∧ i'.block = i.block ∧
        i'.marks = if j = gep then { i.marks with tagged := true } else i.marks
  added : ∀ (j : InstId) (i : Inst), f.insts.size ≤ j → f'.insts[j]? = some i →
    ∀ k ∈ i.op.uses, k < j ∧ (f.insts.size ≤ k ∨ k = gep ∨ f.Feeds gep k)
  unmarked : ∀ (j : InstId) (i : Inst), f.insts.size ≤ j → f'.insts[j]? = some i → i.marks = {}
  copy : ∃ i i', f.insts[gep]? = some i ∧ f'.insts[r]? = some i' ∧ i'.ty = i.ty ∧
    i'.name = derivedName i.name "newptr"
  /-- The code starts with the pointer as a word. -/
  first : ∃ i, f'.insts[f.insts.size]? = some i ∧ i.op = .cast .ptrToInt (.inst gep)
  /-- The rest of the code does not use the pointer, unless that is one of its own indices. -/
  later : ∀ (j : InstId) (i : Inst), f.insts.size < j → f'.insts[j]? = some i → gep ∈ i.op.uses →
    f.IsIndexOf gep gep
  /-- The code stands right behind the pointer. -/
  placed : ∀ c : BlockId, f'.instsOf c = (f.instsOf c).flatMap fun id =>
    id :: if id = gep then List.range' f.insts.size (f'.insts.size - f.insts.size) else []
  last : ∀ c : BlockId, (f'.instsOf c).getLast? = (f.instsOf c).getLast?

/-- The function `f'` is `f` with the pointer `gep` tagged: the copy `r` obeys the law. -/
structure TagStep (s : Scheme) (L : Layout) (f : Func) (gep r : InstId) (f' : Func) : Prop
    extends Splices f gep r f' where
  law : ∀ env ρ (i : Inst) (g : Gep), f.insts[gep]? = some i → i.op = .gep g → gep ∉ i.op.uses →
    (∀ j, f.insts.size ≤ j → f'.SolvesAt L env ρ j) → f'.SolvesAt L env ρ gep →
      TagLaw s L f' env ρ gep r i.ty g

theorem mem_distinctUsers (hf : f.Coherent) {gep u : InstId} {i j : Inst}
    (hi : f.insts[gep]? = some i) (hj : f.insts[u]? = some j) :
    u ∈ f.distinctUsers i.users ↔ gep ∈ j.op.uses := by
  simp only [distinctUsers, List.mem_filter, List.mem_range, List.contains_iff_mem,
    hf.mem_users hi hj, and_iff_right_iff_imp]
  exact fun _ => lt_of_inst hj

theorem derivedName_filter (base : Option String) (suffix : String) :
    (derivedName base suffix).filter (· != "") = derivedName base suffix := by
  unfold derivedName
  cases base.filter (· != "") with
  | none => rfl
  | some name =>
    have hne : name ++ "." ++ suffix ≠ "" := by
      intro he
      have hlen := congrArg String.length he
      simp [String.length_append] at hlen
    simp [Option.filter, hne]

/-- What the code behind `gep` may use besides the pointer: its indices, and itself. -/
def TagDeps (f : Func) (gep j : InstId) : Prop := f.insts.size ≤ j ∨ f.IsIndexOf gep j

section Finish

variable {s : Scheme} {deps : InstId → Prop} {anchor gep r : InstId} {i : Inst} {g : Gep}
  {steps : List Step} {fe fr : Func}

/-- The function once the users are redirected and the pointer is marked. -/
def finish (fr : Func) (gep : InstId) : Func :=
  fr.modifyInst gep fun inst => { inst with marks := { inst.marks with tagged := true } }

theorem getElem?_finish {j : InstId} {i' : Inst} (h : fr.insts[j]? = some i') :
    (fr.finish gep).insts[j]? = some (if j = gep then
      { i' with marks := { i'.marks with tagged := true } } else i') := by
  rw [finish, getElem?_modifyInst, h]
  by_cases hj : j = gep
  · simp [hj]
  · simp [hj, Ne.symm hj]

/-- An instruction that was there before has the copy in the place of the pointer. -/
theorem kept_finish (hf : f.Coherent) (hi : f.insts[gep]? = some i)
    (hgrows : f.Grows deps anchor fe)
    (hredirects : fe.Redirects (f.distinctUsers i.users) gep (.inst r) fr) {j : InstId} {k : Inst}
    (hk : f.insts[j]? = some k) : ∃ i', (fr.finish gep).insts[j]? = some i' ∧
      i'.op = k.op.mapOperands (Value.rename (Function.update id gep r)) ∧ i'.ty = k.ty ∧
        i'.name = k.name ∧ i'.block = k.block ∧
          i'.marks = if j = gep then { k.marks with tagged := true } else k.marks := by
  obtain ⟨more, hke⟩ := hgrows.kept j k hk
  obtain ⟨k', hkr, hrecast⟩ := hredirects.inst j _ hke
  have hop : k'.op = k.op.mapOperands (Value.rename (Function.update id gep r)) := by
    have hsubst : Value.subst gep (.inst r) = Value.rename (Function.update id gep r) :=
      funext (Value.subst_inst gep r)
    rw [hrecast.op, ← hsubst]
    by_cases huser : j ∈ f.distinctUsers i.users
    · rw [if_pos huser]
      rfl
    · -- An instruction that does not use the pointer has nothing to replace.
      rw [if_neg huser, Op.mapOperands_subst_of_notMem]
      · rfl
      · rwa [mem_distinctUsers hf hi hk] at huser
  refine ⟨_, getElem?_finish hkr, ?_⟩
  by_cases hj : j = gep
  · simp only [hj, if_true]
    exact ⟨hop, hrecast.ty, hrecast.name, hrecast.block, by rw [hrecast.marks]; rfl⟩
  · simp only [hj, if_false]
    exact ⟨hop, hrecast.ty, hrecast.name, hrecast.block, hrecast.marks⟩

/-- An emitted instruction is as it was emitted. -/
theorem added_finish (hi : f.insts[gep]? = some i)
    (hredirects : fe.Redirects (f.distinctUsers i.users) gep (.inst r) fr) {j : InstId} {k : Inst}
    (hle : f.insts.size ≤ j) (hk : fe.insts[j]? = some k) :
    ∃ i', (fr.finish gep).insts[j]? = some i' ∧ i'.op = k.op ∧ i'.ty = k.ty ∧ i'.name = k.name ∧
      i'.marks = k.marks := by
  obtain ⟨k', hkr, hrecast⟩ := hredirects.inst j k hk
  have hne : j ≠ gep := fun he => Nat.not_lt.mpr hle (he ▸ lt_of_inst hi)
  have huser : j ∉ f.distinctUsers i.users := by
    intro hm
    exact Nat.not_lt.mpr hle (List.mem_range.mp (List.mem_filter.mp hm).1)
  refine ⟨_, getElem?_finish hkr, ?_⟩
  rw [if_neg hne]
  exact ⟨by rw [hrecast.op, if_neg huser], hrecast.ty, hrecast.name, hrecast.marks⟩

/-- An instruction that is there at the end, and was not there before, was emitted. -/
theorem emitted_of_finish (hi : f.insts[gep]? = some i)
    (hredirects : fe.Redirects (f.distinctUsers i.users) gep (.inst r) fr) {j : InstId} {k : Inst}
    (hle : f.insts.size ≤ j) (hk : (fr.finish gep).insts[j]? = some k) :
    ∃ k', fe.insts[j]? = some k' ∧ k.op = k'.op ∧ k.marks = k'.marks := by
  have hlt : j < fe.insts.size := by
    have hlt' := lt_of_inst hk
    rwa [finish, size_modifyInst, hredirects.size] at hlt'
  obtain ⟨k', hk'⟩ := exists_inst hlt
  obtain ⟨k'', hk'', hop, -, -, hmarks⟩ := added_finish hi hredirects hle hk'
  obtain rfl : k = k'' := Option.some.inj (hk.symm.trans hk'')
  exact ⟨k', hk', hop, hmarks⟩

theorem valueType_finish {users : List InstId} {repl : Value}
    (hredirects : fe.Redirects users gep repl fr) {v : Value} {ty : Ty}
    (hv : fe.valueType v = .ok ty) : (fr.finish gep).valueType v = .ok ty := by
  have hparams : (fr.finish gep).params = fe.params := hredirects.params
  refine valueType_of_kept hparams (fun j k hk => ?_) hv
  obtain ⟨k', hkr, hrecast⟩ := hredirects.inst j k hk
  refine ⟨_, getElem?_finish hkr, ?_⟩
  by_cases hj : j = gep
  · rw [if_pos hj]
    exact hrecast.ty
  · rw [if_neg hj]
    exact hrecast.ty

theorem obeys_finish {env : Env} {ρ : InstId → Except EvalStop Word}
    (hi : f.insts[gep]? = some i)
    (hredirects : fe.Redirects (f.distinctUsers i.users) gep (.inst r) fr)
    (hsolves : ∀ j, f.insts.size ≤ j → (fr.finish gep).SolvesAt L env ρ j) :
    Obeys L env (fr.finish gep) ρ f fe where
  typed := fun v ty hv => valueType_finish hredirects hv
  solves := fun j k hle hk => by
    obtain ⟨i', hi', hop, hty, -⟩ := added_finish hi hredirects hle hk
    have hagree := hsolves j hle i' hi'
    rw [computed, hop, hty] at hagree
    exact hagree

theorem flatMap_behind_of_notMem {ids new : List InstId} (h : gep ∉ ids) :
    (ids.flatMap fun id => id :: if id = gep then new else []) = ids := by
  induction ids with
  | nil => rfl
  | cons id ids ih =>
    have hne : id ≠ gep := fun he => h (he ▸ List.mem_cons_self)
    rw [List.flatMap_cons, if_neg hne, ih fun hm => h (List.mem_cons_of_mem id hm)]
    rfl

/-- What stands right before `anchor` stands right behind `gep`, if nothing is between the two. -/
theorem Grows.placed_behind (hgrows : f.Grows deps anchor fe) (hf : f.Coherent) {b : BlockId}
    {pre post : List InstId} (hsplit : f.instsOf b = pre ++ gep :: anchor :: post) (c : BlockId) :
    fe.instsOf c = (f.instsOf c).flatMap fun id =>
      id :: if id = gep then List.range' f.insts.size (fe.insts.size - f.insts.size) else [] := by
  have hmem : ∀ id ∈ [gep, anchor], id ∈ f.instsOf b := by
    intro id hid
    rw [hsplit]
    exact List.mem_append_right _ (List.mem_append_left post hid)
  by_cases hc : c = b
  · subst hc
    have hnodup := hf.nodup_instsOf c
    rw [hsplit, List.nodup_append] at hnodup
    obtain ⟨-, hrest, hcross⟩ := hnodup
    have hpre : gep ∉ pre := fun hm => hcross gep hm gep List.mem_cons_self rfl
    have hpost : gep ∉ anchor :: post := (List.nodup_cons.mp hrest).1
    have hsplit' : f.instsOf c = (pre ++ [gep]) ++ anchor :: post := by
      rw [hsplit, List.append_assoc]
      rfl
    rw [hgrows.placed c _ _ hsplit', hsplit, List.flatMap_append, List.flatMap_cons,
      flatMap_behind_of_notMem hpre, flatMap_behind_of_notMem hpost, if_pos rfl]
    simp only [List.append_assoc, List.cons_append, List.nil_append]
  · -- An instruction stands in one block only.
    have hnone : ∀ id ∈ [gep, anchor], id ∉ f.instsOf c := fun id hid hm => by
      obtain ⟨i, hi⟩ := exists_inst (hf.lt_of_mem hm)
      exact hc ((hf.block_eq hi hm).symm.trans (hf.block_eq hi (hmem id hid)))
    rw [hgrows.elsewhere c (hnone anchor (by simp)), flatMap_behind_of_notMem (hnone gep (by simp))]

theorem Tagged.splices (hf : f.Coherent) (hi : f.insts[gep]? = some i) (hop : i.op = .gep g)
    (ht : Tagged s L (f.TagDeps gep) anchor f gep i.ty i.name (steps.zip g.indices) r fe)
    {pre post : List InstId} (hsplit : f.instsOf i.block = pre ++ gep :: anchor :: post)
    (hredirects : fe.Redirects (f.distinctUsers i.users) gep (.inst r) fr)
    (hcoherent : (fr.finish gep).Coherent) : Splices f gep r (fr.finish gep) := by
  have hsize : (fr.finish gep).insts.size = fe.insts.size := by
    rw [finish, size_modifyInst, hredirects.size]
  have hinsts : ∀ c, (fr.finish gep).instsOf c = fe.instsOf c := fun c => by
    simp only [finish, modifyInst, instsOf, hredirects.blocks]
  refine
    { coherent := hcoherent
      params := hredirects.params.trans ht.grows.params
      fresh := ht.fresh
      size := hsize.trans ht.size
      isGep := ⟨i, g, hi, hop⟩
      kept := fun j k hk => kept_finish hf hi ht.grows hredirects hk
      added := fun j k hle hk => ?added
      unmarked := fun j k hle hk => ?unmarked
      copy := ?copy
      first := ?first
      later := fun j k hlt hk huse => ?later
      placed := fun c => ?placed
      last := fun c => ?last }
  case added =>
    obtain ⟨k', hk', hop', -⟩ := emitted_of_finish hi hredirects hle hk
    intro l hl
    rw [hop'] at hl
    obtain ⟨hlt, hdep⟩ := (ht.grows.added j k' hle hk').2 l hl
    rcases hdep with hgep | hnew | hindex
    · exact ⟨hlt, .inr (.inl hgep)⟩
    · exact ⟨hlt, .inl hnew⟩
    · exact ⟨hlt, .inr (.inr hindex.feeds)⟩
  case unmarked =>
    obtain ⟨k', hk', -, hmarks⟩ := emitted_of_finish hi hredirects hle hk
    exact hmarks.trans (ht.grows.added j k' hle hk').1
  case copy =>
    obtain ⟨ir, hir, hty, hname⟩ := ht.inst
    obtain ⟨i', hi', -, hty', hname', -⟩ := added_finish hi hredirects ht.fresh hir
    refine ⟨i, i', hi, hi', hty'.trans hty, ?_⟩
    rw [hname', hname, derivedName_filter]
  case first =>
    obtain ⟨k, hk, hcast⟩ := ht.first
    obtain ⟨k', hk', hop', -⟩ := added_finish hi hredirects (Nat.le_refl _) hk
    exact ⟨k', hk', hop'.trans hcast⟩
  case later =>
    obtain ⟨k', hk', hop', -⟩ := emitted_of_finish hi hredirects (Nat.le_of_lt hlt) hk
    rw [hop'] at huse
    rcases ht.later j k' hlt hk' gep huse with hnew | hindex
    · exact absurd (lt_of_inst hi) (Nat.not_lt.mpr hnew)
    · exact hindex
  case placed =>
    rw [hinsts, hsize]
    exact ht.grows.placed_behind hf hsplit c
  case last => rw [hinsts, ht.grows.getLast?]

theorem Tagged.step (hf : f.Coherent) (hi : f.insts[gep]? = some i) (hop : i.op = .gep g)
    (hsteps : L.steps g.source g.indices = .ok steps)
    (ht : Tagged s L (f.TagDeps gep) anchor f gep i.ty i.name (steps.zip g.indices) r fe)
    {pre post : List InstId} (hsplit : f.instsOf i.block = pre ++ gep :: anchor :: post)
    (hredirects : fe.Redirects (f.distinctUsers i.users) gep (.inst r) fr)
    (hcoherent : (fr.finish gep).Coherent) : TagStep s L f gep r (fr.finish gep) where
  toSplices := ht.splices hf hi hop hsplit hredirects hcoherent
  law := fun env ρ i₀ g₀ hi₀ hop₀ hself hsolves hgep => by
    obtain rfl : i = i₀ := Option.some.inj (hi.symm.trans hi₀)
    obtain rfl : g = g₀ := Op.gep.inj (hop.symm.trans hop₀)
    obtain ⟨i', hi', hop', hty', -⟩ := kept_finish hf hi ht.grows hredirects hi
    -- The pointer does not use itself, so its own operation is the one it had.
    have hfix : i.op.mapOperands (Value.rename (Function.update id gep r)) = i.op := by
      rw [← funext (Value.subst_inst gep r)]
      exact Op.mapOperands_subst_of_notMem hself
    rw [hfix, hop] at hop'
    rw [← hty'] at ht ⊢
    exact ht.law (obeys_finish hi hredirects hsolves) hgep hi' hop' hsteps

end Finish

/-! ## All that can happen -/

/-- Instruction `id` stands at the end of its block. -/
def IsLast (f : Func) (id : InstId) : Prop :=
  ∃ i, f.insts[id]? = some i ∧ (f.instsOf i.block).getLast? = some id

instance (f : Func) (id : InstId) : Decidable (f.IsLast id) :=
  decidable_of_iff (∃ i ∈ f.insts[id]?, (f.instsOf i.block).getLast? = some id) Iff.rfl

theorem gep_of_skipReason {s : Scheme} {globals : List String} {gep : InstId} {why : Option Skip}
    (h : f.skipReason s globals gep = .ok why) :
    ∃ i g, f.insts[gep]? = some i ∧ i.op = .gep g := by
  unfold skipReason at h
  obtain ⟨i, hi, h⟩ := bind_eq_ok_iff.mp h
  obtain ⟨g, hg, -⟩ := bind_eq_ok_iff.mp h
  obtain ⟨i', hi', hop⟩ := gep_eq_ok_iff.mp hg
  exact ⟨i', g, hi', hop⟩

theorem checkGep_eq_ok_iff {gep : InstId} :
    f.checkGep L gep = .ok () ↔ ∃ terms, f.gepTerms L gep = .ok terms := by
  unfold checkGep
  simp only [bind_eq_ok_iff, pure, Except.pure, and_true]

/-- Indices that were checked may be used by code that may use their results. -/
theorem termsUsable_of_checked {deps : InstId → Prop} {indices : List Value} {steps : List Step}
    (hcheck : ∀ v ∈ indices, f.checkIndex L v = .ok ()) (hdeps : ∀ j, .inst j ∈ indices → deps j) :
    Edit.TermsUsable L deps f (steps.zip indices) := by
  intro t ht
  have hmem : t.2 ∈ indices := (List.of_mem_zip ht).2
  obtain ⟨bits, htype, hbits⟩ := checkIndex_eq_ok_iff.mp (hcheck _ hmem)
  exact ⟨bits, hbits, htype, fun j hj => hdeps j (hj ▸ hmem)⟩

/-- Whether the displacement of an address computation is the same in every activation. -/
def offsetFixed (f : Func) (L : Layout) (gep : InstId) : Bool :=
  match f.constantOffset L gep with
  | .ok bytes => bytes.isSome
  | .error _ => false

theorem offsetFixed_of_gepTerms {gep : InstId} {terms : List (Step × Value)}
    (h : f.gepTerms L gep = .ok terms) : f.offsetFixed L gep = (constantSum? terms).isSome := by
  unfold offsetFixed
  rw [constantOffset_of_gepTerms h]
  exact Option.isSome_map

end Func

namespace Edit

open Func

variable {f : Func} {s : Scheme} {L : Layout} {globals : List String} {gep : InstId}

/-- The code goes before the instruction behind the pointer, if there is one. -/
theorem exists_site (hf : f.Coherent) {i : Inst} {g : Gep} (hi : f.insts[gep]? = some i)
    (hop : i.op = .gep g) (hlast : ¬ f.IsLast gep) :
    ∃ next pre post, siteAfter (.inst gep) f = .ok { before := next } f ∧
      f.instsOf i.block = pre ++ gep :: next :: post ∧ f.Ready (f.TagDeps gep) next := by
  obtain ⟨pre, post, hsplit⟩ := List.append_of_mem (hf.mem_instsOf_block hi)
  cases post with
  | nil => exact absurd ⟨i, hi, by rw [hsplit]; simp⟩ hlast
  | cons next post =>
    refine ⟨next, pre, post, ?_, hsplit, hf, hf.lt_of_mem (b := i.block) ?_, fun j hj => .inl hj⟩
    · rw [siteAfter_gep hi hop, siteBehind_eq hf hsplit]
    · rw [hsplit]
      simp

/-- A pointer that is due, whose displacement can be computed and that has an instruction behind it is
tagged. -/
theorem yields_tagGep (hf : f.Coherent) (hskip : f.skipReason s globals gep = .ok none)
    (hcheck : f.checkGep L gep = .ok ()) (hlast : ¬ f.IsLast gep) :
    Yields (tagGep s L globals gep) f fun outcome f' =>
      ∃ r, outcome = .tagged r (f.offsetFixed L gep) false ∧ TagStep s.inWord L f gep r f' := by
  obtain ⟨i, g, hi, hop⟩ := gep_of_skipReason hskip
  obtain ⟨terms, hterms⟩ := checkGep_eq_ok_iff.mp hcheck
  obtain ⟨g', steps, hgep, hindices, hsteps, rfl⟩ := gepTerms_eq_ok_iff.mp hterms
  obtain rfl : g = g' := by
    obtain ⟨i', hi', hop'⟩ := gep_eq_ok_iff.mp hgep
    obtain rfl : i = i' := Option.some.inj (hi.symm.trans hi')
    exact Op.gep.inj (hop.symm.trans hop')
  obtain ⟨next, pre, post, hsite, hsplit, hready⟩ := exists_site hf hi hop hlast
  have htype : f.valueType (.inst gep) = .ok i.ty := by
    rw [valueType, inst_eq_ok_iff.mpr hi]
    rfl
  have hyields : Yields (tagGep s L globals gep) f fun outcome f' =>
      ∃ r, outcome = .tagged r (f.offsetFixed L gep) false ∧
        (f'.Coherent → TagStep s.inWord L f gep r f') := by
    refine Yields.ask_bind hskip (Yields.ask_bind hcheck
      (Yields.ask_bind (inst_eq_ok_iff.mpr hi) (Yields.ask_bind rfl ?_)))
    refine Yields.bind (R := fun site f' => site = { before := next } ∧ f = f')
      ⟨_, _, hsite, rfl, rfl⟩ ?_
    rintro _ _ ⟨rfl, rfl⟩
    have husable : TermsUsable L (f.TagDeps gep) f (steps.zip g.indices) :=
      termsUsable_of_checked hindices fun j hj => .inr ⟨i, g, hi, hop, hj⟩
    refine (yields_emitTagged L s hready htype hterms husable i.name).bind ?_
    rintro ⟨r, constant⟩ fe ⟨ht, hconstant⟩
    obtain rfl : constant = f.offsetFixed L gep :=
      hconstant.trans (offsetFixed_of_gepTerms hterms).symm
    have husers : ∀ u ∈ f.distinctUsers i.users, u < fe.insts.size := fun u hu =>
      Nat.lt_of_lt_of_le (List.mem_range.mp (List.mem_filter.mp hu).1) ht.grows.size
    have hr : fe.HasValue (.inst r) := by
      obtain ⟨ir, hir, -⟩ := ht.inst
      exact lt_of_inst hir
    have hgone : gep < fe.insts.size := Nat.lt_of_lt_of_le (lt_of_inst hi) ht.grows.size
    refine (yields_replaceUsesIn ht.grows.coherent hr hgone husers).bind fun _ fr hsubst => ?_
    have hredirects := hsubst.toRedirects
    obtain ⟨k, hk⟩ := exists_inst hgone
    obtain ⟨k', hkr, -⟩ := hredirects.inst gep k hk
    refine Yields.bind (R := fun _ f' => f' = fr.finish gep)
      (Yields.ask_bind (inst_eq_ok_iff.mpr hkr) ⟨_, _, rfl, rfl⟩) ?_
    rintro _ _ rfl
    exact Yields.pure ⟨r, rfl, fun hcoherent =>
      ht.step hf hi hop hsteps hsplit hredirects hcoherent⟩
  obtain ⟨outcome, f', hrun, r, rfl, hstep⟩ := hyields
  exact ⟨_, f', hrun, r, rfl, hstep ((keeps_tagGep s L globals gep).of_ok hf hrun)⟩

/-- There is no place behind the last instruction of a block. -/
theorem siteAfter_of_isLast (hf : f.Coherent) {i : Inst} {g : Gep} (hi : f.insts[gep]? = some i)
    (hop : i.op = .gep g) (hlast : f.IsLast gep) :
    siteAfter (.inst gep) f = .error (.noInsertionPoint gep) f := by
  obtain ⟨i', hi', hend⟩ := hlast
  obtain rfl : i = i' := Option.some.inj (hi.symm.trans hi')
  obtain ⟨pre, hsplit⟩ := List.getLast?_eq_some_iff.mp hend
  rw [siteAfter_gep hi hop, siteBehind_eq hf hsplit]

theorem tagGep_of_isLast (hf : f.Coherent) (hskip : f.skipReason s globals gep = .ok none)
    (hcheck : f.checkGep L gep = .ok ()) (hlast : f.IsLast gep) :
    tagGep s L globals gep f = .error (.noInsertionPoint gep) f := by
  obtain ⟨i, g, hi, hop⟩ := gep_of_skipReason hskip
  refine (ask_bind_of_ok hskip).trans ?_
  refine (ask_bind_of_ok hcheck).trans ?_
  refine (ask_bind_of_ok (inst_eq_ok_iff.mpr hi)).trans ?_
  show (siteAfter (.inst gep) >>= _) f = _
  exact bind_of_error (siteAfter_of_isLast hf hi hop hlast)

/-- There is no other outcome than these, and only one of them changes the function. -/
theorem tagGep_cases {t : Scheme} (ht : s.inWord = t) (hf : f.Coherent) :
    (∃ e, f.skipReason s globals gep = .error e ∧ tagGep s L globals gep f = .error e f) ∨
    (∃ why, f.skipReason s globals gep = .ok (some why) ∧
      tagGep s L globals gep f = .ok (.skipped why) f) ∨
    (f.skipReason s globals gep = .ok none ∧
      ((∃ e, f.checkGep L gep = .error e ∧ tagGep s L globals gep f = .error e f) ∨
      (f.checkGep L gep = .ok () ∧ f.IsLast gep ∧
        tagGep s L globals gep f = .error (.noInsertionPoint gep) f) ∨
      (f.checkGep L gep = .ok () ∧ ¬ f.IsLast gep ∧ ∃ r f',
        tagGep s L globals gep f = .ok (.tagged r (f.offsetFixed L gep) false) f' ∧
          TagStep t L f gep r f'))) := by
  subst ht
  cases hskip : f.skipReason s globals gep with
  | error e => exact .inl ⟨e, rfl, ask_bind_of_error hskip⟩
  | ok why =>
    cases why with
    | some why => exact .inr (.inl ⟨why, rfl, (ask_bind_of_ok hskip).trans rfl⟩)
    | none =>
      refine .inr (.inr ⟨rfl, ?_⟩)
      cases hcheck : f.checkGep L gep with
      | error e => exact .inl ⟨e, rfl, (ask_bind_of_ok hskip).trans (ask_bind_of_error hcheck)⟩
      | ok u =>
        by_cases hlast : f.IsLast gep
        · exact .inr (.inl ⟨rfl, hlast, tagGep_of_isLast hf hskip hcheck hlast⟩)
        · obtain ⟨_, f', hrun, r, rfl, hstep⟩ := yields_tagGep hf hskip hcheck hlast
          exact .inr (.inr ⟨rfl, hlast, r, f', hrun, hstep⟩)

end Edit

/-! ## Passes that succeed -/

namespace Func

variable {s : Scheme} {L : Layout} {globals : List String} {f : Func} {gep : InstId}
  {geps : List InstId} {outs : Outcomes}

/-- A pass that succeeds has tagged or skipped the first address computation, and succeeded with the
rest. -/
theorem ok_of_tagEach_cons (h : (tagEach s L globals (gep :: geps) f).result = .ok outs) :
    ∃ outcome f' rest, Edit.tagGep s L globals gep f = .ok outcome f' ∧
      (tagEach s L globals geps f').result = .ok rest ∧ outs = (gep, outcome) :: rest ∧
        (tagEach s L globals (gep :: geps) f).state = (tagEach s L globals geps f').state := by
  cases hr : Edit.tagGep s L globals gep f with
  | error e f' =>
    simp only [tagEach, hr] at h
    cases h
  | ok outcome f' =>
    have hstate : (tagEach s L globals (gep :: geps) f).state = (tagEach s L globals geps f').state := by
      rw [tagEach, hr]
    rw [tagEach, hr] at h
    cases hrest : (tagEach s L globals geps f').result with
    | error e =>
      simp only [hrest] at h
      cases h
    | ok rest =>
      simp only [hrest] at h
      exact ⟨outcome, f', rest, rfl, hrest, (Except.ok.inj h).symm, hstate⟩

theorem checked_of_tag (h : (f.tag s L globals).result = .ok outs) :
    f.geps.forM (f.checkCandidate s L globals) = .ok () := by
  unfold tag at h
  cases hcheck : f.geps.forM (f.checkCandidate s L globals) with
  | error e =>
    rw [hcheck] at h
    cases h
  | ok u => rfl

theorem tag_of_checked (h : f.geps.forM (f.checkCandidate s L globals) = .ok ()) :
    f.tag s L globals = tagEach s L globals f.geps f := by
  unfold tag
  rw [h]

/-- A run that succeeds is a pass over all the address computations. -/
theorem tagEach_of_tag (h : (f.tag s L globals).result = .ok outs) :
    f.tag s L globals = tagEach s L globals f.geps f :=
  tag_of_checked (checked_of_tag h)

end Func

end PtrTag
