import PtrTag.Proofs.Tagging.Step
import PtrTag.Proofs.Tagging.SplitEffect

/-!
# `PtrTag/Proofs/Tagging/Site.lean` — code can be put at every site that is found

`Edit.siteAfter` finds a place for code behind a producer. This module says what such a place is good for:
any number of instructions can be put there, one after the other, and the function stays well formed, if
they are neither phis nor terminators and use only what is there (`Func.Insertable`). They stand in a row
where they belong (`Func.CodeBehind`).

All four kinds of sites have the same reasons for that (`Func.Hosts`): the anchor is an instruction of a
well-formed function, and it is no phi. So insertion is treated once, by induction on the code that is
put there (`Edit.yields_insertEach`), and each kind of producer only has to find its anchor.
-/

set_option autoImplicit false

namespace PtrTag

namespace Op

/-- Behind a dead end there is no place for code: control leaves the block, and no result comes of it. -/
def isDeadEnd : Op → Bool
  | .br .. | .condBr .. | .ret .. | .unreachable => true
  | _ => false

theorem successors_of_not_isTerminator {op : Op} (h : op.isTerminator = false) : op.successors = [] := by
  cases op <;> first | rfl | exact Bool.noConfusion h

theorem incomingBlocks_of_not_isPhi {op : Op} (h : op.isPhi = false) : op.incomingBlocks = [] := by
  cases op <;> first | rfl | exact Bool.noConfusion h

theorem isPhi_of_isTerminator {op : Op} (h : op.isTerminator) : op.isPhi = false := by
  cases op <;> first | rfl | exact Bool.noConfusion h

end Op

/-! ## Code in a row -/

/-- The value names an instruction below `insts` or an argument below `args`, if it names one at all. -/
def Value.Within (insts args : Nat) : Value → Prop
  | .inst id => id < insts
  | .arg index => index < args
  | .const _ | .global _ => True

/-- Puts drafts right before `anchor`, one after the other. -/
def Edit.insertEach (anchor : InstId) : List Draft → Edit (List InstId)
  | [] => return []
  | d :: ds => do
    let id ← insertBefore anchor d
    let ids ← insertEach anchor ds
    return id :: ids

namespace Func

variable {f f₁ F : Func} {anchor : InstId} {d : Draft} {ds : List Draft}

/-- The drafts can be put into the function one after the other: there is no phi and no terminator among
them, and each uses only what is there when its turn comes. -/
def Insertable (f : Func) (ds : List Draft) : Prop :=
  ∀ (n : Nat) (d : Draft), ds[n]? = some d → d.op.isPhi = false ∧ d.op.isTerminator = false ∧
    ∀ v ∈ d.op.operands, v.Within (f.insts.size + n) f.params.length

instance (insts args : Nat) (v : Value) : Decidable (v.Within insts args) :=
  match v with
  | .inst id => inferInstanceAs (Decidable (id < insts))
  | .arg index => inferInstanceAs (Decidable (index < args))
  | .const _ | .global _ => inferInstanceAs (Decidable True)

instance (f : Func) (ds : List Draft) : Decidable (f.Insertable ds) :=
  decidable_of_iff (∀ n < ds.length, ∀ d ∈ ds[n]?, d.op.isPhi = false ∧ d.op.isTerminator = false ∧
      ∀ v ∈ d.op.operands, v.Within (f.insts.size + n) f.params.length)
    ⟨fun h n d hd => h n (List.getElem?_eq_some_iff.mp hd).1 d hd, fun h n _ d hd => h n d hd⟩

theorem hasValue_of_within {v : Value} (h : v.Within f.insts.size f.params.length) : f.HasValue v := by
  cases v <;> exact h

theorem Insertable.inRange (h : f.Insertable (d :: ds)) : f.InRange d.op := by
  obtain ⟨hphi, hterm, hoperands⟩ := h 0 d rfl
  refine ⟨fun v hv => hasValue_of_within (hoperands v hv), ?_, ?_⟩
  · rw [Op.successors_of_not_isTerminator hterm]
    simp
  · rw [Op.incomingBlocks_of_not_isPhi hphi]
    simp

theorem Insertable.tail (h : f.Insertable (d :: ds)) (hsize : f₁.insts.size = f.insts.size + 1)
    (hparams : f₁.params = f.params) : f₁.Insertable ds := by
  intro n e he
  obtain ⟨hphi, hterm, hoperands⟩ := h (n + 1) e he
  rw [hsize, hparams, Nat.add_right_comm, Nat.add_assoc]
  exact ⟨hphi, hterm, hoperands⟩

/-- The function `F` is `f` with the drafts right before `anchor`, in their order. -/
structure Inserted (f : Func) (anchor : InstId) (ds : List Draft) (F : Func) : Prop where
  grows : f.Grows (fun _ => True) anchor F
  order : F.order = f.order
  size : F.insts.size = f.insts.size + ds.length
  draft : ∀ (n : Nat) (d : Draft), ds[n]? = some d →
    ∃ i, F.insts[f.insts.size + n]? = some i ∧ i.op = d.op ∧ i.ty = d.ty ∧ i.name = d.name

namespace Inserted

theorem nil (hf : f.Coherent) : f.Inserted anchor [] f :=
  ⟨Grows.refl hf, rfl, rfl, fun _ _ h => by simp at h⟩

theorem cons {b : BlockId} {pos : Nat} (hop : f.InRange d.op)
    (hgrows : f.Grows (fun _ => True) anchor (f.place d b pos))
    (h : (f.place d b pos).Inserted anchor ds F) : f.Inserted anchor (d :: ds) F where
  grows := hgrows.trans h.grows
  order := h.order.trans order_place
  size := by
    rw [h.size, size_place, List.length_cons, Nat.add_right_comm, Nat.add_assoc]
  draft := by
    intro n e he
    cases n with
    | zero =>
      obtain rfl : d = e := Option.some.inj he
      have hplaced : (f.place d b pos).insts[f.insts.size]? = some (d.settle b) :=
        (getElem?_place hop _).trans (if_pos rfl)
      obtain ⟨more, hi⟩ := h.grows.kept _ _ hplaced
      exact ⟨_, hi, rfl, rfl, rfl⟩
    | succ n =>
      obtain ⟨i, hi, hrest⟩ := h.draft n e he
      rw [size_place, Nat.add_right_comm, Nat.add_assoc] at hi
      exact ⟨i, hi, hrest⟩

theorem widens (h : f.Inserted anchor ds F) (hf : f.Coherent) (hds : f.Insertable ds) :
    f.Widens F where
  order := h.order
  insts := h.grows.filter_old hf
  last := h.grows.getLast?
  kept := h.grows.kept_op
  added := by
    intro id i hle hi
    obtain ⟨n, rfl⟩ := Nat.exists_eq_add_of_le hle
    have hn : n < ds.length := by
      have hlt := lt_of_inst hi
      rw [h.size] at hlt
      exact Nat.lt_of_add_lt_add_left hlt
    obtain ⟨i', hi', hop, -⟩ := h.draft n ds[n] (List.getElem?_eq_getElem hn)
    obtain rfl : i = i' := Option.some.inj (hi.symm.trans hi')
    obtain ⟨hphi, hterm, -⟩ := hds n ds[n] (List.getElem?_eq_getElem hn)
    rw [hop]
    exact ⟨hphi, hterm⟩

/-- The new instructions stand in a row right before the anchor. -/
theorem placed (h : f.Inserted anchor ds F) {b : BlockId} {pre post : List InstId}
    (hsplit : f.instsOf b = pre ++ anchor :: post) :
    F.instsOf b = pre ++ (List.range' f.insts.size ds.length ++ anchor :: post) := by
  rw [h.grows.placed b pre post hsplit, h.size, Nat.add_sub_cancel_left]

theorem verify (h : f.Inserted anchor ds F) (hf : f.Coherent) (hds : f.Insertable ds)
    (hanchor : ¬ f.holds Op.isPhi anchor) (hverify : f.verify = .ok ()) : F.verify = .ok () := by
  have hwidens := h.widens hf hds
  have hphis : f.PhisFirst := fun b hb => (hf.verify_eq_ok_iff.mp hverify b hb).phisFirst
  exact hwidens.verify hf h.grows.coherent (h.grows.phisFirst hwidens hanchor hphis) hverify

end Inserted

end Func

namespace Edit

open Func

variable {f : Func} {anchor : InstId} {ds : List Draft}

theorem yields_insertEach (hf : f.Coherent) (hanchor : anchor < f.insts.size)
    (hds : f.Insertable ds) :
    Yields (insertEach anchor ds) f fun ids F =>
      ids = List.range' f.insts.size ds.length ∧ f.Inserted anchor ds F := by
  induction ds generalizing f with
  | nil => exact Yields.pure ⟨rfl, .nil hf⟩
  | cons d ds ih =>
    have hready : f.Ready (fun _ => True) anchor := ⟨hf, hanchor, fun _ _ => trivial⟩
    refine (yields_insertBefore hready hds.inRange fun _ _ => trivial).bind ?_
    rintro _ _ ⟨rfl, hgrows, b, pos, rfl⟩
    refine (ih hgrows.coherent (Nat.lt_of_lt_of_le hanchor hgrows.size)
      (hds.tail size_place params_place)).bind ?_
    rintro _ F ⟨rfl, hinserted⟩
    refine Yields.pure ⟨?_, hinserted.cons hds.inRange hgrows⟩
    rw [size_place, List.length_cons, List.range'_succ]

end Edit

namespace Func

variable {f F F' : Func} {anchor : InstId} {b : BlockId} {p : Producer}

/-! ## Where code behind a producer stands -/

/-- In block `b` of `F` the instructions `new` follow the phis of that block of `f`. -/
def BehindPhis (f : Func) (b : BlockId) (new : List InstId) (F : Func) : Prop :=
  ∃ phis rest, f.instsOf b = phis ++ rest ∧ (∀ id ∈ phis, f.holds Op.isPhi id) ∧
    (∀ id ∈ rest, ¬ f.holds Op.isPhi id) ∧ F.instsOf b = phis ++ (new ++ rest)

/-- The instructions `new` of `F` stand where code belongs that consumes what a producer of `f` defines. -/
inductive CodeBehind (f : Func) (new : List InstId) (F : Func) : Producer → Prop
  | ordinary {id : InstId} {i : Inst} {pre post : List InstId} (inst : f.insts[id]? = some i)
      (noPhi : i.op.isPhi = false) (noTerminator : i.op.isTerminator = false)
      (before : f.instsOf i.block = pre ++ id :: post)
      (after : F.instsOf i.block = pre ++ id :: (new ++ post)) : CodeBehind f new F (.inst id)
  | phi {id : InstId} {i : Inst} (inst : f.insts[id]? = some i) (isPhi : i.op.isPhi)
      (behind : f.BehindPhis i.block new F) : CodeBehind f new F (.inst id)
  | arg {index : Nat} {entry : BlockId} (isEntry : f.entry? = some entry)
      (behind : f.BehindPhis entry new F) : CodeBehind f new F (.arg index)
  /-- The code of an invoke is all of a new block but its branch. -/
  | invoke {id jump : InstId} {i j : Inst} {callee : Value} {args : List Value}
      {normal unwind b : BlockId} (inst : f.insts[id]? = some i)
      (isInvoke : i.op = .invoke callee args normal unwind) (fresh : b ∉ f.order)
      (listed : b ∈ F.order) (entered : F.predecessors b = [i.block])
      (only : F.instsOf b = new ++ [jump]) (branch : F.insts[jump]? = some j)
      (goes : j.op = .br normal) : CodeBehind f new F (.inst id)

/-- The producer is an instruction of the function, or one of its arguments. -/
def Produces (f : Func) : Producer → Prop
  | .inst id => id < f.insts.size
  | .arg index => index < f.params.length

/-- The producer is an invoke with both edges to the same block. -/
def UnwindsBack (f : Func) (p : Producer) : Prop :=
  ∃ id i callee args dest, p = .inst id ∧ f.insts[id]? = some i ∧ i.op = .invoke callee args dest dest

/-- Code behind `p` can go before `anchor`, in `F`. That is `f`, unless an edge had to be split. -/
structure Hosts (f : Func) (p : Producer) (anchor : InstId) (F : Func) : Prop where
  coherent : F.Coherent
  lt_size : anchor < F.insts.size
  noPhi : ¬ F.holds Op.isPhi anchor
  verify : ¬ f.UnwindsBack p → F.verify = .ok ()
  behind : ∀ {ds : List Draft} {F' : Func}, F.Inserted anchor ds F' → F.Insertable ds →
    f.CodeBehind (List.range' F.insts.size ds.length) F' p

theorem Hosts.insertEach (h : f.Hosts p anchor F) (hp : ¬ f.UnwindsBack p) {ds : List Draft}
    (hds : F.Insertable ds) :
    ∃ new F', Edit.insertEach anchor ds F = .ok new F' ∧ F'.verify = .ok () ∧
      f.CodeBehind new F' p ∧ new = List.range' F.insts.size ds.length ∧ F.Inserted anchor ds F' := by
  obtain ⟨_, F', hrun, rfl, hinserted⟩ := Edit.yields_insertEach h.coherent h.lt_size hds
  exact ⟨_, F', hrun, hinserted.verify h.coherent hds h.noPhi (h.verify hp),
    h.behind hinserted hds, rfl, hinserted⟩

/-! ## Anchors -/

theorem ShapedAt.exists_next (h : f.ShapedAt b) {id : InstId} (hm : id ∈ f.instsOf b)
    (hterm : ¬ f.holds Op.isTerminator id) :
    ∃ pre next post, f.instsOf b = pre ++ id :: next :: post := by
  obtain ⟨pre, post, hsplit⟩ := List.append_of_mem hm
  cases post with
  | nil => exact absurd (h.terminated id (by rw [hsplit]; simp)) hterm
  | cons next post => exact ⟨pre, next, post, hsplit⟩

theorem not_isPhi_of_isTerminator {id : InstId} (h : f.holds Op.isTerminator id) :
    ¬ f.holds Op.isPhi id := by
  obtain ⟨i, hi, hterm⟩ := holds_iff.mp h
  rw [holds_of_inst hi, Op.isPhi_of_isTerminator hterm]
  exact Bool.false_ne_true

/-- Behind an instruction that is no phi there are no phis. -/
theorem ShapedAt.not_isPhi_behind (h : f.ShapedAt b) {id : InstId} {pre post : List InstId}
    (hsplit : f.instsOf b = pre ++ id :: post) (hid : ¬ f.holds Op.isPhi id) {next : InstId}
    (hnext : next ∈ post) : ¬ f.holds Op.isPhi next := by
  have hfirst := h.phisFirst
  rw [hsplit] at hfirst
  have hbehind := (List.pairwise_cons.mp (List.pairwise_append.mp hfirst).2.1).1
  exact fun hphi => hid (hbehind next hnext hphi)

/-- A block in shape has its phis, and then at least its terminator. -/
theorem ShapedAt.firstInsertionPoint (h : f.ShapedAt b) (hb : b < f.blocks.size) :
    ∃ phis next post, f.firstInsertionPoint b = .ok next ∧ f.instsOf b = phis ++ next :: post ∧
      (∀ id ∈ phis, f.holds Op.isPhi id) ∧ ∀ id ∈ next :: post, ¬ f.holds Op.isPhi id := by
  have hblock : f.blocks[b]? = some f.blocks[b] := Array.getElem?_eq_getElem hb
  cases hfind : (f.instsOf b).find? fun id => !f.holds Op.isPhi id with
  | none =>
    have hlast := List.getLast?_eq_some_getLast h.nonempty
    have hphi := List.find?_eq_none.mp hfind _ (List.mem_of_getLast? hlast)
    exact absurd (not_isPhi_of_isTerminator (h.terminated _ hlast)) (by simpa using hphi)
  | some next =>
    obtain ⟨hnext, phis, post, hsplit, hphis⟩ := List.find?_eq_some_iff_append.mp hfind
    have hnext : ¬ f.holds Op.isPhi next := by simpa using hnext
    refine ⟨phis, next, post, ?_, hsplit, fun id hid => by simpa using hphis id hid, fun id hid => ?_⟩
    · rw [instsOf_eq hblock] at hfind
      unfold Func.firstInsertionPoint
      rw [block_eq_ok_iff.mpr hblock, ok_bind, hfind]
      rfl
    · rcases List.mem_cons.mp hid with rfl | hid
      · exact hnext
      · exact h.not_isPhi_behind hsplit hnext hid

end Func

namespace Edit

open Func

variable {f : Func} {id : InstId} {i : Inst}

/-! ## The site of each kind of producer -/

theorem siteAfter_deadEnd (hi : f.insts[id]? = some i) (hop : i.op.isDeadEnd) :
    siteAfter (.inst id) f = .error (.noInsertionPoint id) f := by
  show (ask (·.inst id) >>= _) f = _
  rw [ask_bind_of_ok (inst_eq_ok_iff.mpr hi)]
  cases hkind : i.op with
  | br _ | condBr _ _ _ | ret _ | unreachable => rfl
  | _ => simp [hkind, Op.isDeadEnd] at hop

theorem yields_siteAfter_ordinary (hf : f.Coherent) (hverify : f.verify = .ok ())
    (hi : f.insts[id]? = some i) (hphi : i.op.isPhi = false) (hterm : i.op.isTerminator = false) :
    Yields (siteAfter (.inst id)) f fun site F => f.Hosts (.inst id) site.before F := by
  have hshape := hf.verify_eq_ok_iff.mp hverify i.block (hf.mem_order.mpr (hf.block_lt hi))
  have hnotTerm : ¬ f.holds Op.isTerminator id := by simp [holds_of_inst hi, hterm]
  have hnotPhi : ¬ f.holds Op.isPhi id := by simp [holds_of_inst hi, hphi]
  obtain ⟨pre, next, post, hsplit⟩ := hshape.exists_next (hf.mem_instsOf_block hi) hnotTerm
  have hmem : next ∈ f.instsOf i.block := by
    rw [hsplit]
    simp
  have hnext := hshape.not_isPhi_behind hsplit hnotPhi List.mem_cons_self
  have hsplit' : f.instsOf i.block = (pre ++ [id]) ++ next :: post := by
    rw [hsplit, List.append_assoc]
    rfl
  refine ⟨_, f, (siteAfter_ordinary hi hphi hterm).trans (siteBehind_eq hf hsplit), ?_⟩
  refine ⟨hf, hf.lt_of_mem hmem, hnext, fun _ => hverify, fun hinserted _ => ?_⟩
  refine .ordinary hi hphi hterm hsplit ?_
  rw [hinserted.placed hsplit', List.append_assoc]
  rfl

/-- What is put before the first instruction behind the phis of a block. -/
theorem exists_behindPhis (hf : f.Coherent) (hverify : f.verify = .ok ()) {b : BlockId}
    (hb : b ∈ f.order) :
    ∃ next, f.firstInsertionPoint b = .ok next ∧ next < f.insts.size ∧ ¬ f.holds Op.isPhi next ∧
      ∀ {ds : List Draft} {F' : Func}, f.Inserted next ds F' →
        f.BehindPhis b (List.range' f.insts.size ds.length) F' := by
  obtain ⟨phis, next, post, hpoint, hsplit, hphis, hrest⟩ :=
    (hf.verify_eq_ok_iff.mp hverify b hb).firstInsertionPoint (hf.mem_order.mp hb)
  have hmem : next ∈ f.instsOf b := by
    rw [hsplit]
    simp
  refine ⟨next, hpoint, hf.lt_of_mem hmem, hrest next List.mem_cons_self, fun hinserted => ?_⟩
  exact ⟨phis, _, hsplit, hphis, hrest, hinserted.placed hsplit⟩

theorem yields_siteAfter_phi (hf : f.Coherent) (hverify : f.verify = .ok ())
    (hi : f.insts[id]? = some i) (hphi : i.op.isPhi) :
    Yields (siteAfter (.inst id)) f fun site F => f.Hosts (.inst id) site.before F := by
  obtain ⟨next, hpoint, hlt, hnext, hbehind⟩ :=
    exists_behindPhis hf hverify (hf.mem_order.mpr (hf.block_lt hi))
  have hrun : siteAfter (.inst id) f = .ok { before := next } f := by
    show (ask (·.inst id) >>= _) f = _
    rw [ask_bind_of_ok (inst_eq_ok_iff.mpr hi)]
    cases hop : i.op with
    | phi incoming => exact ask_bind_of_ok hpoint
    | _ => simp [hop, Op.isPhi] at hphi
  exact ⟨_, f, hrun, hf, hlt, hnext, fun _ => hverify, fun hinserted _ =>
    .phi hi hphi (hbehind hinserted)⟩

theorem yields_siteAfter_arg (hf : f.Coherent) (hverify : f.verify = .ok ()) {index : Nat}
    (hindex : index < f.params.length) {entry : BlockId} (hentry : f.entry? = some entry) :
    Yields (siteAfter (.arg index)) f fun site F => f.Hosts (.arg index) site.before F := by
  obtain ⟨next, hpoint, hlt, hnext, hbehind⟩ :=
    exists_behindPhis hf hverify (List.mem_of_head? hentry)
  have hparam : f.param index = .ok f.params[index] := by
    unfold param
    rw [List.getElem?_eq_getElem hindex]
    rfl
  have hrun : siteAfter (.arg index) f = .ok { before := next } f := by
    refine (ask_bind_of_ok hparam).trans ?_
    refine (ask_bind_of_ok (a := entry) (by rw [hentry]; rfl)).trans ?_
    exact ask_bind_of_ok hpoint
  exact ⟨_, f, hrun, hf, hlt, hnext, fun _ => hverify, fun hinserted _ =>
    .arg hentry (hbehind hinserted)⟩

theorem yields_siteAfter_invoke (hf : f.Coherent) (hi : f.insts[id]? = some i) {callee : Value}
    {args : List Value} {normal unwind : BlockId} (hop : i.op = .invoke callee args normal unwind) :
    Yields (siteAfter (.inst id)) f fun site F =>
      site.before = f.insts.size ∧ f.Splits id i.block normal unwind F := by
  obtain ⟨split, F, hrun, rfl, hsplits⟩ := yields_splitNormalEdge hf hi hop
  have hsplits := hsplits ((keeps_splitNormalEdge id).of_ok hf hrun)
  have hjump : F.terminator? f.blocks.size = some f.insts.size := by
    obtain ⟨j, hj, hbr⟩ := hsplits.jump
    have hterm : F.holds Op.isTerminator f.insts.size := holds_iff.mpr ⟨j, hj, by rw [hbr]; rfl⟩
    simp [terminator?, hsplits.instsOf_new, hterm]
  refine Yields.ask_bind (inst_eq_ok_iff.mpr hi) ?_
  simp only [hop]
  refine Yields.bind (R := fun s f' => s = ⟨id, i.block, normal, f.blocks.size⟩ ∧ f' = F)
    ⟨_, _, hrun, rfl, rfl⟩ ?_
  rintro _ _ ⟨rfl, rfl⟩
  exact Yields.ask_bind (elim_eq_ok_iff.mpr hjump) (Yields.pure ⟨rfl, hsplits⟩)

end Edit

namespace Func

variable {f F : Func} {id : InstId} {i : Inst} {p : Producer}

/-- The block that a split makes hosts the code of its invoke. -/
theorem Splits.hosts {callee : Value} {args : List Value} {normal unwind : BlockId}
    (h : f.Splits id i.block normal unwind F) (hf : f.Coherent) (hverify : f.verify = .ok ())
    (hi : f.insts[id]? = some i) (hop : i.op = .invoke callee args normal unwind) :
    f.Hosts (.inst id) f.insts.size F := by
  have hshaped := hf.verify_eq_ok_iff.mp hverify
  obtain ⟨j, hj, hbr⟩ := h.jump
  refine ⟨h.coherent, lt_of_inst hj, ?_, fun hback => ?_, fun hinserted hds => ?_⟩
  · exact not_isPhi_of_isTerminator (holds_iff.mpr ⟨j, hj, by rw [hbr]; rfl⟩)
  · refine (h.verify_iff hf hshaped).mpr (.inl fun hsame => hback ?_)
    exact ⟨id, i, callee, args, normal, rfl, hi, by rw [hop, hsame]⟩
  · obtain ⟨more, hj'⟩ := hinserted.grows.kept _ j hj
    have honly : F.instsOf f.blocks.size = [] ++ f.insts.size :: [] := h.instsOf_new
    refine .invoke hi hop (fun hm => Nat.lt_irrefl _ (hf.mem_order.mp hm)) ?_ ?_
      (hinserted.placed honly) hj' hbr
    · rw [hinserted.order, h.mem_order_iff hf]
      exact .inl rfl
    · rw [(hinserted.widens h.coherent hds).predecessors]
      exact h.predecessors_new hf hshaped

/-- A producer is a dead end, or there is a site behind it. -/
theorem siteAfter_cases (hf : f.Coherent) (hverify : f.verify = .ok ()) (hblocks : f.order ≠ [])
    (hp : f.Produces p) :
    (∃ id i, p = .inst id ∧ f.insts[id]? = some i ∧ i.op.isDeadEnd) ∨
      Edit.Yields (Edit.siteAfter p) f fun site F => f.Hosts p site.before F := by
  cases p with
  | arg index =>
    obtain ⟨entry, hentry⟩ : ∃ entry, f.entry? = some entry :=
      ⟨_, List.head?_eq_some_head hblocks⟩
    exact .inr (Edit.yields_siteAfter_arg hf hverify hp hentry)
  | inst id =>
    obtain ⟨i, hi⟩ := exists_inst hp
    by_cases hphi : i.op.isPhi
    · exact .inr (Edit.yields_siteAfter_phi hf hverify hi hphi)
    by_cases hterm : i.op.isTerminator
    · cases hop : i.op with
      | invoke callee args normal unwind =>
        refine .inr ((Edit.yields_siteAfter_invoke hf hi hop).mono ?_)
        rintro site F ⟨hbefore, hsplits⟩
        rw [hbefore]
        exact hsplits.hosts hf hverify hi hop
      | br _ | condBr _ _ _ | ret _ | unreachable => exact .inl ⟨id, i, rfl, hi, by rw [hop]; rfl⟩
      | _ => simp [hop, Op.isTerminator] at hterm
    · exact .inr (Edit.yields_siteAfter_ordinary hf hverify hi (by simpa using hphi)
        (by simpa using hterm))

/-- There is a site behind every producer of a well-formed function but a dead end, for which the search
fails and changes nothing. Whatever code is put at a site, one instruction after the other, the function
is well formed afterwards, and the code stands in a row where it belongs, as it was drafted. An invoke
with both edges to one block is the exception. -/
theorem Reachable.siteAfter_hosts (h : f.Reachable) (hverify : f.verify = .ok ())
    (hblocks : f.order ≠ []) (hp : f.Produces p) :
    (∀ e F, Edit.siteAfter p f = .error e F ↔ ∃ id i, p = .inst id ∧ f.insts[id]? = some i ∧
      i.op.isDeadEnd ∧ e = .noInsertionPoint id ∧ F = f) ∧
    ∀ site F, Edit.siteAfter p f = .ok site F → ¬ f.UnwindsBack p →
      ∀ ds, F.Insertable ds → ∃ new F', Edit.insertEach site.before ds F = .ok new F' ∧
        F'.verify = .ok () ∧ f.CodeBehind new F' p ∧ new = List.range' F.insts.size ds.length ∧
          ∀ n d, ds[n]? = some d → ∃ i, F'.insts[F.insts.size + n]? = some i ∧
            i.op = d.op ∧ i.ty = d.ty ∧ i.name = d.name := by
  have hf := h.coherent
  have hcases := siteAfter_cases hf hverify hblocks hp
  refine ⟨fun e F => ⟨fun herror => ?_, ?_⟩, fun site F hok hback ds hds => ?_⟩
  · rcases hcases with ⟨id, i, rfl, hi, hop⟩ | ⟨site, F', hok, -⟩
    · cases (Edit.siteAfter_deadEnd hi hop).symm.trans herror
      exact ⟨id, i, rfl, hi, hop, rfl, rfl⟩
    · cases hok.symm.trans herror
  · rintro ⟨id, i, rfl, hi, hop, rfl, rfl⟩
    exact Edit.siteAfter_deadEnd hi hop
  · rcases hcases with ⟨id, i, rfl, hi, hop⟩ | ⟨site', F', hok', hhosts⟩
    · cases (Edit.siteAfter_deadEnd hi hop).symm.trans hok
    · cases hok'.symm.trans hok
      obtain ⟨new, F', hrun, hwell, hbehind, hnew, hinserted⟩ := hhosts.insertEach hback hds
      exact ⟨new, F', hrun, hwell, hbehind, hnew, hinserted.draft⟩

/-- Two instructions behind the call of `retry`, the second of which uses the first and the result. -/
def uponReturn : List Draft :=
  [{ op := .load (.arg 0), ty := .int 32, name := some "x" },
    { op := .binary .add (.inst 5) (.inst 2), ty := .int 32, name := some "y" }]

/-- The call of `retry` goes back to its own block. Code behind it is put into a block of its own, before
the branch `4`. -/
theorem retry_siteAfter_hosts :
    let site : Site := { before := 4, split := some ⟨2, 1, 1, 3⟩ }
    retry.Reachable ∧ retry.verify = .ok () ∧ retry.order ≠ [] ∧ retry.Produces (.inst 2) ∧
      ¬ retry.UnwindsBack (.inst 2) ∧ ∃ F, Edit.siteAfter (.inst 2) retry = .ok site F ∧
        F.Insertable uponReturn ∧ ∃ F', Edit.insertEach 4 uponReturn F = .ok [5, 6] F' ∧
          F'.verify = .ok () ∧ retry.CodeBehind [5, 6] F' (.inst 2) := by
  intro site
  have hverify : retry.verify = .ok () := by decide +kernel
  have hblocks : retry.order ≠ [] := by decide +kernel
  have hp : retry.Produces (.inst 2) := show 2 < retry.insts.size by decide +kernel
  have hback : ¬ retry.UnwindsBack (.inst 2) := by
    rintro ⟨_, i, callee, args, dest, ⟨⟩, hi, hop⟩
    have hcall : retry.insts[2]?.map Inst.op = some (.invoke (.arg 0) [.inst 1] 1 2) := by
      decide +kernel
    rw [hi] at hcall
    cases hop.symm.trans (Option.some.inj hcall)
  obtain ⟨-, hhosts⟩ := retry_reachable.siteAfter_hosts hverify hblocks hp
  let F := Edit.after (Edit.siteAfter (.inst 2)) retry
  have hsite : Edit.siteAfter (.inst 2) retry = .ok site F := rfl
  have hds : F.Insertable uponReturn := by decide +kernel
  have hsize : F.insts.size = 5 := by decide +kernel
  obtain ⟨new, F', hrun, hwell, hbehind, hnew, -⟩ := hhosts site F hsite hback uponReturn hds
  obtain rfl : new = [5, 6] := by
    rw [hnew, hsize]
    rfl
  exact ⟨retry_reachable, hverify, hblocks, hp, hback, F, hsite, hds, F', hrun, hwell, hbehind⟩

end Func

end PtrTag
