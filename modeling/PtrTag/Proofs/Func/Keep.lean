import PtrTag.Proofs.Func.Coherent
import PtrTag.Tagging.Run

/-!
# `PtrTag/Proofs/Func/Keep.lean` — edits keep a function coherent

Whatever an edit is asked to do, and whether it does it or refuses, a coherent function stays
coherent. The edits that change something directly are opened once each; everything that is built from
them (emitted arithmetic, split edges, tagged pointers, runs over a function) follows by the rules for
sequences.
-/

set_option autoImplicit false

namespace PtrTag

namespace Edit

open Func

variable {f : Func}

/-! ## Blocks and instructions -/

theorem idxOf?_le {xs : List Nat} {a pos : Nat} (h : xs.idxOf? a = some pos) : pos ≤ xs.length := by
  obtain ⟨hlt, -⟩ := List.findIdx?_eq_some_iff_getElem.mp h
  exact Nat.le_of_lt hlt

theorem keeps_addBlock (base : String) : Keeps Coherent (addBlock base) := by
  intro f hf
  rw [after_of_ok (addBlock_run base f)]
  exact hf.insertBlock base (Nat.le_refl _)

theorem keeps_insertBlockBefore (base : String) (before : BlockId) :
    Keeps Coherent (insertBlockBefore base before) := by
  intro f hf
  refine Keeps.after_ask_bind hf fun pos hpos => ?_
  exact hf.insertBlock base (idxOf?_le (elim_eq_ok_iff.mp hpos))

/-- A draft is refused, and then nothing happens, or it is put where it was to go. -/
theorem after_create {P : Func → Prop} {d : Draft} {b : BlockId} {pos : Nat} (h : P f)
    (hplace : f.InRange d.op → P (f.place d b pos)) : P ((create d b pos).after f) := by
  unfold after
  rw [create_run]
  cases hop : f.checkOp d.op with
  | ok u => exact hplace (checkOp_eq_ok_iff.mp hop)
  | error e => exact h

theorem keeps_append (b : BlockId) (d : Draft) : Keeps Coherent (append b d) := by
  intro f hf
  refine Keeps.after_ask_bind hf fun block hblock => ?_
  rw [block_eq_ok_iff] at hblock
  refine after_create hf (hf.place (Array.getElem?_eq_some_iff.mp hblock).1 ?_)
  exact Nat.le_of_eq (congrArg List.length (instsOf_eq hblock).symm)

theorem after_insertBefore {P : Func → Prop} {anchor : InstId} {d : Draft} (h : P f)
    (hplace : ∀ (i : Inst) (pos : Nat), f.insts[anchor]? = some i →
      (f.instsOf i.block).idxOf? anchor = some pos → f.InRange d.op → P (f.place d i.block pos)) :
    P ((insertBefore anchor d).after f) := by
  refine Keeps.after_ask_bind h fun i hi => ?_
  refine Keeps.after_ask_bind h fun block hblock => ?_
  refine Keeps.after_ask_bind h fun pos hpos => ?_
  rw [inst_eq_ok_iff] at hi
  rw [block_eq_ok_iff] at hblock
  have hat : (f.instsOf i.block).idxOf? anchor = some pos := by
    rw [instsOf_eq hblock]
    exact elim_eq_ok_iff.mp hpos
  exact after_create h (hplace i pos hi hat)

theorem keeps_insertBefore (anchor : InstId) (d : Draft) : Keeps Coherent (insertBefore anchor d) := by
  intro f hf
  exact after_insertBefore hf fun i pos hi hpos hop => hf.place (hf.block_lt hi) (idxOf?_le hpos) hop

theorem keeps_mark (id : InstId) (change : Marks → Marks) : Keeps Coherent (mark id change) := by
  intro f hf
  refine Keeps.after_ask_bind hf fun i hi => ?_
  rw [inst_eq_ok_iff] at hi
  exact hf.modifyInst hi rfl rfl rfl (hf.inRange id i hi)

/-! ## Edges -/

/-- What `askPhi` answers is the operation that is there. -/
theorem askPhi_eq_ok {id : InstId} {incoming : List (Value × BlockId)}
    (h : (do match (← f.inst id).op with
      | .phi incoming => .ok incoming
      | _ => .error (.wrongForm id .phi) : Except Fault (List (Value × BlockId))) = .ok incoming) :
    ∃ i, f.insts[id]? = some i ∧ i.op = .phi incoming := by
  cases hi : f.inst id with
  | error e => rw [hi] at h; exact absurd h (by simp [bind, Except.bind])
  | ok i =>
    refine ⟨i, inst_eq_ok_iff.mp hi, ?_⟩
    simp only [hi, bind, Except.bind] at h
    cases hop : i.op <;> simp_all

theorem keeps_rekeyIncoming (phi : InstId) (old new : BlockId) :
    Keeps Coherent (rekeyIncoming phi old new) := by
  intro f hf
  refine Keeps.after_ask_bind hf fun _ hnew => ?_
  refine Keeps.after_ask_bind hf fun incoming hphi => ?_
  obtain ⟨i, hi, hop⟩ := askPhi_eq_ok hphi
  have hold := hf.inRange phi i hi
  rw [hop] at hold
  refine hf.modifyInst hi rfl rfl ?_ ⟨?_, by simp [Op.successors], ?_⟩
  · simp [hop, Op.uses, Op.operands, Function.comp_def]
  · simpa [Op.operands, Function.comp_def] using hold.operands
  · -- An entry for `old` now names `new`, which exists; the others are as before.
    intro b hb
    simp only [Op.incomingBlocks, List.map_map, List.mem_map] at hb
    obtain ⟨⟨v, c⟩, hc, rfl⟩ := hb
    by_cases h : c = old
    · simpa [h] using checkBlock_eq_ok_iff.mp hnew
    · simpa [h] using hold.incoming c (List.mem_map_of_mem hc)

/-- An invoke that is to go elsewhere is one that is there. -/
theorem askInvoke_eq_ok {invoke : InstId} {dest : BlockId} {op : Op}
    (h : (do match (← f.inst invoke).op with
      | .invoke callee args _ unwind => .ok (Op.invoke callee args dest unwind)
      | _ => .error (.wrongForm invoke .invoke) : Except Fault Op) = .ok op) :
    ∃ i callee args normal unwind, f.insts[invoke]? = some i ∧
      i.op = .invoke callee args normal unwind ∧ op = .invoke callee args dest unwind := by
  obtain ⟨i, hi, h⟩ := bind_eq_ok_iff.mp h
  cases hop : i.op with
  | invoke callee args normal unwind =>
    rw [hop] at h
    exact ⟨i, callee, args, normal, unwind, inst_eq_ok_iff.mp hi, hop, (Except.ok.inj h).symm⟩
  | _ =>
    rw [hop] at h
    cases h

theorem keeps_setNormalDest (invoke : InstId) (dest : BlockId) :
    Keeps Coherent (setNormalDest invoke dest) := by
  intro f hf
  refine Keeps.after_ask_bind hf fun _ hdest => ?_
  refine Keeps.after_ask_bind hf fun op hask => ?_
  obtain ⟨i, callee, args, normal, unwind, hi, hop, rfl⟩ := askInvoke_eq_ok hask
  have hold := hf.inRange invoke i hi
  rw [hop] at hold
  refine hf.modifyInst hi rfl rfl (by simp [hop, Op.uses, Op.operands])
    ⟨hold.operands, fun b hb => ?_, by simp [Op.incomingBlocks]⟩
  rcases List.mem_pair.mp hb with rfl | rfl
  · exact checkBlock_eq_ok_iff.mp hdest
  · exact hold.successors b (by simp [Op.successors])

/-- A phi that gains an edge is rewired: the value of the edge has one more use. -/
theorem rewires_addIncoming (hf : f.Coherent) {phi : InstId} {i : Inst}
    {incoming : List (Value × BlockId)} (hi : f.insts[phi]? = some i) (hop : i.op = .phi incoming)
    (value : Value) (b : BlockId) :
    f.Rewires phi (.phi (incoming ++ [(value, b)]))
      ((f.modifyInst phi fun inst => { inst with op := .phi (incoming ++ [(value, b)]) }).registerUses
        phi value.asInst?.toList) := by
  have huses : ∀ id, (Op.phi (incoming ++ [(value, b)])).uses.count id =
      i.op.uses.count id + value.asInst?.toList.count id := by
    intro id
    rw [hop]
    simp only [Op.uses, Op.operands, List.map_append, List.filterMap_append, List.count_append]
    cases value <;> rfl
  refine ⟨by rw [order_registerUses]; rfl, by rw [blocks_registerUses]; rfl,
    by rw [params_registerUses]; rfl, by simp, fun id j hj => ?_⟩
  rw [getElem?_registerUses, getElem?_modifyInst, hj]
  -- The use lists were right before the edge came, so they only have to follow the difference.
  have hcount : j.users.count phi = i.op.uses.count id := by
    rw [hf.users id j hj, useCount_of_inst hi]
  have hnew : ∀ user, (j.users ++ List.replicate (value.asInst?.toList.count id) phi).count user =
      if user = phi then (Op.phi (incoming ++ [(value, b)])).uses.count id
        else j.users.count user := by
    intro user
    rw [huses, List.count_append]
    by_cases hu : user = phi
    · simp [hu, hcount]
    · simp [hu, Ne.symm hu, List.count_replicate]
  by_cases hid : phi = id
  · rw [if_pos hid]
    exact ⟨_, rfl, rfl, by simp [hid, Inst.withUsers], hnew⟩
  · rw [if_neg hid]
    exact ⟨_, rfl, rfl, by simp [Ne.symm hid, Inst.withUsers], hnew⟩

theorem keeps_addIncoming (phi : InstId) (value : Value) (b : BlockId) :
    Keeps Coherent (addIncoming phi value b) := by
  intro f hf
  refine Keeps.after_ask_bind hf fun _ hvalue => ?_
  refine Keeps.after_ask_bind hf fun _ hb => ?_
  refine Keeps.after_ask_bind hf fun incoming hphi => ?_
  obtain ⟨i, hi, hop⟩ := askPhi_eq_ok hphi
  have hold := hf.inRange phi i hi
  rw [hop] at hold
  refine hf.rewire (rewires_addIncoming hf hi hop value b) (lt_of_inst hi)
    ⟨fun v hv => ?_, by simp [Op.successors], fun c hc => ?_⟩
  · simp only [Op.operands, List.map_append, List.mem_append] at hv
    rcases hv with hv | hv
    · exact hold.operands v hv
    · obtain rfl : v = value := by simpa using hv
      exact checkValue_eq_ok_iff.mp hvalue
  · simp only [Op.incomingBlocks, List.map_append, List.mem_append] at hc
    rcases hc with hc | hc
    · exact hold.incoming c hc
    · obtain rfl : c = b := by simpa using hc
      exact checkBlock_eq_ok_iff.mp hb

/-! ## Replacing uses -/

/-- Redirecting a user that has `times` uses of `gone` is a rewiring. -/
theorem rewires_redirect (hf : f.Coherent) {user gone : InstId} {u : Inst}
    (hu : f.insts[user]? = some u) (repl : Value) :
    f.Rewires user (u.op.mapOperands (.subst gone repl))
      (f.redirect user gone repl (u.op.uses.count gone)) := by
  obtain ⟨insts, heq, hsize⟩ := f.redirect_eq user gone repl (u.op.uses.count gone)
  refine ⟨by rw [heq], by rw [heq], by rw [heq], by rw [heq]; exact hsize, fun id i hi => ?_⟩
  rw [getElem?_redirect, hi]
  refine ⟨_, rfl, rfl, ?_, fun w => ?_⟩
  · by_cases hid : user = id
    · subst hid
      obtain rfl : u = i := Option.some.inj (hu.symm.trans hi)
      simp
    · simp [hid, Ne.symm hid]
  · -- The entries of `user` are counted anew; those of every other instruction stay.
    have hcount := hf.users id i hi
    have hself : i.users.count user = u.op.uses.count id := by
      rw [hcount, useCount_of_inst hu]
    rw [Op.count_uses_subst, List.count_append]
    by_cases hw : w = user
    · subst hw
      by_cases hg : gone = id
      · subst hg
        have hfilter : (i.users.filter (· != w)).count w = 0 :=
          List.count_eq_zero.mpr (by simp)
        by_cases hr : repl = .inst gone <;> simp [hr, hfilter]
      · by_cases hr : repl = .inst id <;> simp [hg, Ne.symm hg, hr, hself]
    · have hfilter : (i.users.filter (· != user)).count w = i.users.count w :=
        List.count_filter (by simpa using hw)
      by_cases hg : gone = id
      · by_cases hr : repl = .inst id <;> simp [hg, hr, hw, hfilter, List.count_replicate, Ne.symm hw]
      · by_cases hr : repl = .inst id <;> simp [hg, hr, hw, List.count_replicate, Ne.symm hw]

theorem inRange_subst {op : Op} {gone : InstId} {repl : Value} (h : f.InRange op)
    (hrepl : f.HasValue repl) : f.InRange (op.mapOperands (.subst gone repl)) where
  operands := fun v hv => by
    rw [Op.operands_mapOperands, List.mem_map] at hv
    obtain ⟨w, hw, rfl⟩ := hv
    by_cases hg : w = .inst gone
    · subst hg
      simpa [Value.subst] using hrepl
    · rw [Value.subst_of_ne hg]
      exact h.operands w hw
  successors := by simpa using h.successors
  incoming := by simpa using h.incoming

theorem coherent_redirect (hf : f.Coherent) {user : InstId} {u : Inst} {repl : Value}
    (hu : f.insts[user]? = some u) (hrepl : f.HasValue repl) (gone : InstId) :
    (f.redirect user gone repl (u.op.uses.count gone)).Coherent :=
  hf.rewire (rewires_redirect hf hu repl) (lt_of_inst hu)
    (inRange_subst (hf.inRange user u hu) hrepl)

/-- Nothing happens, or the user is redirected. -/
theorem after_replaceUses {P : Func → Prop} {user gone : InstId} {repl : Value} (h : P f)
    (hredirect : ∀ u, f.insts[user]? = some u → f.HasValue repl →
      P (f.redirect user gone repl (u.op.uses.count gone))) :
    P ((replaceUses user gone repl).after f) := by
  refine Keeps.after_ask_bind h fun _ hrepl => ?_
  refine Keeps.after_ask_bind h fun _ _ => ?_
  refine Keeps.after_ask_bind h fun u hu => ?_
  by_cases htimes : u.op.uses.count gone = 0
  · simp only [htimes, if_true]
    exact h
  · simp only [htimes, if_false]
    exact hredirect u (inst_eq_ok_iff.mp hu) (checkValue_eq_ok_iff.mp hrepl)

theorem keeps_replaceUses (user gone : InstId) (repl : Value) :
    Keeps Coherent (replaceUses user gone repl) := by
  intro f hf
  exact after_replaceUses hf fun u hu hrepl => coherent_redirect hf hu hrepl gone

section ReplaceUses

variable {P : Func → Prop} {gone : InstId} {repl : Value}

/-- What survives the replacement in one user survives it in all of them. -/
theorem Keeps.replaceUsesIn (h : ∀ user, Keeps P (replaceUses user gone repl)) (users : List InstId) :
    Keeps P (replaceUsesIn gone repl users) := by
  induction users with
  | nil => exact Keeps.pure _
  | cons user rest ih => exact (h user).bind fun _ => ih.bind fun _ => Keeps.pure _

theorem Keeps.replaceAllUses (h : ∀ user, Keeps P (replaceUses user gone repl)) :
    Keeps P (replaceAllUses gone repl) :=
  (Keeps.ask _).bind fun _ => Keeps.replaceUsesIn h _

end ReplaceUses

/-! ## Emitted code

Whatever survives one piece of arithmetic before the anchor survives everything that is emitted there:
the emitters ask questions, and put arithmetic before the anchor. -/

theorem keeps_emit (anchor : InstId) (op : Op) (ty : Ty) (name : Option String) :
    Keeps Coherent (emit anchor op ty name) :=
  keeps_insertBefore _ _

/-- `P` survives arithmetic that is put right before `anchor`. -/
def KeepsArith (P : Func → Prop) (anchor : InstId) : Prop :=
  ∀ (op : Op) (ty : Ty) (name : Option String), op.isArith → Keeps P (emit anchor op ty name)

theorem keepsArith_coherent (anchor : InstId) : KeepsArith Coherent anchor :=
  fun op ty name _ => keeps_emit anchor op ty name

namespace KeepsArith

variable {P : Func → Prop} {anchor : InstId}

theorem emitBinary (h : KeepsArith P anchor) (op : BinOp) (lhs rhs : Value) (name : Option String) :
    Keeps P (emitBinary anchor op lhs rhs name) := by
  refine (Keeps.ask _).bind fun ty => ?_
  split
  · exact Keeps.pure _
  · exact (h _ _ _ rfl).map

theorem emitNeg (h : KeepsArith P anchor) (v : Value) (name : Option String) :
    Keeps P (emitNeg anchor v name) :=
  (Keeps.ask _).bind fun _ => h.emitBinary _ _ _ _

theorem emitPtrToInt (h : KeepsArith P anchor) (v : Value) (ty : Ty) (name : Option String) :
    Keeps P (emitPtrToInt anchor v ty name) := by
  unfold Edit.emitPtrToInt
  split
  · exact Keeps.pure _
  · exact (h _ _ _ rfl).map

theorem emitIntToPtr (h : KeepsArith P anchor) (v : Value) (ty : Ty) (name : Option String) :
    Keeps P (emitIntToPtr anchor v ty name) :=
  h _ _ _ rfl

theorem emitResize (h : KeepsArith P anchor) (v : Value) (ty : Ty) (name : Option String) :
    Keeps P (emitResize anchor v ty name) := by
  refine (Keeps.ask _).bind fun bits => ?_
  split
  · exact Keeps.pure _
  · split
    · exact Keeps.pure _
    · exact (h _ _ _ rfl).map

theorem emitScaled (h : KeepsArith P anchor) (bits stride : Nat) (index : Value)
    (name : Option String) : Keeps P (emitScaled anchor bits stride index name) := by
  refine (h.emitResize _ _ _).bind fun index => ?_
  split
  · exact Keeps.pure _
  · exact h.emitBinary _ _ _ _

theorem emitPlus (h : KeepsArith P anchor) (sum : Option Value) (v : Value) (name : Option String) :
    Keeps P (emitPlus anchor sum v name) := by
  unfold Edit.emitPlus
  split
  · exact Keeps.pure _
  · exact h.emitBinary _ _ _ _

theorem emitTerms (h : KeepsArith P anchor) (bits : Nat) (name : Option String) (known : Word)
    (sum : Option Value) (terms : List (Step × Value)) :
    Keeps P (emitTerms anchor bits name known sum terms) := by
  fun_induction Edit.emitTerms anchor bits name known sum terms with
  | case1 => exact Keeps.pure _
  | case2 known sum offset index rest ih => exact ih
  | case3 known sum stride index rest w hw ih => exact ih
  | case4 known sum index rest hw ih => exact ih
  | case5 known sum stride index rest hw hs ih =>
    exact (h.emitScaled _ _ _ _).bind fun _ => (h.emitPlus _ _ _).bind fun _ => ih _

theorem emitOffset (h : KeepsArith P anchor) (L : Layout) (gep : InstId) (name : Option String) :
    Keeps P (emitOffset anchor L gep name) := by
  refine (Keeps.ask _).bind fun terms => (h.emitTerms _ _ _ _ _).bind fun r => ?_
  obtain ⟨known, sum⟩ := r
  cases sum with
  | none => exact Keeps.pure _
  | some sum =>
    dsimp only
    split
    · exact Keeps.pure _
    · exact h.emitPlus _ _ _

theorem emitDisplacement (h : KeepsArith P anchor) (L : Layout) (gep : InstId)
    (name : Option String) : Keeps P (emitDisplacement anchor L gep name) := by
  refine (Keeps.ask _).bind fun bytes => ?_
  split
  · exact Keeps.pure _
  · exact (h.emitOffset _ _ _).map

theorem emitTagged (h : KeepsArith P anchor) (s : Scheme) (L : Layout) (gep : InstId) (ty : Ty)
    (name : Option String) : Keeps P (emitTagged s L anchor gep ty name) :=
  (h.emitPtrToInt _ _ _).bind fun _ => (h.emitBinary _ _ _ _).bind fun _ =>
    (h.emitBinary _ _ _ _).bind fun _ => (h.emitNeg _ _).bind fun _ =>
      (h.emitDisplacement _ _ _).bind fun _ => (h.emitResize _ _ _).bind fun _ =>
        (h.emitBinary _ _ _ _).bind fun _ => (h.emitBinary _ _ _ _).bind fun _ =>
          (h.emitBinary _ _ _ _).bind fun _ => (h.emitIntToPtr _ _ _).bind fun _ =>
            Keeps.pure _

end KeepsArith

/-! ## Sites

A site is looked up, unless an edge has to be split for it. -/

/-- `P` survives the edits that split an edge. -/
structure KeepsEdges (P : Func → Prop) : Prop where
  insertBlockBefore : ∀ base before, Keeps P (insertBlockBefore base before)
  append : ∀ b d, Keeps P (append b d)
  setNormalDest : ∀ invoke dest, Keeps P (setNormalDest invoke dest)
  rekeyIncoming : ∀ phi old new, Keeps P (rekeyIncoming phi old new)

theorem keepsEdges_coherent : KeepsEdges Coherent :=
  ⟨keeps_insertBlockBefore, keeps_append, keeps_setNormalDest, keeps_rekeyIncoming⟩

namespace KeepsEdges

variable {P : Func → Prop}

theorem rekeyPhis (h : KeepsEdges P) (old new : BlockId) (phis : List InstId) :
    Keeps P (rekeyPhis old new phis) := by
  induction phis with
  | nil => exact Keeps.pure _
  | cons phi rest ih => exact (h.rekeyIncoming phi old new).bind fun _ => ih

theorem splitNormalEdge (h : KeepsEdges P) (invoke : InstId) : Keeps P (splitNormalEdge invoke) :=
  (Keeps.ask _).bind fun _ => (Keeps.ask _).bind fun _ =>
    (h.insertBlockBefore _ _).bind fun _ => (h.append _ _).bind fun _ =>
      (h.setNormalDest _ _).bind fun _ => (Keeps.ask _).bind fun _ =>
        (h.rekeyPhis _ _ _).bind fun _ => Keeps.pure _

theorem siteAfter (h : KeepsEdges P) (producer : Producer) : Keeps P (siteAfter producer) := by
  cases producer with
  | arg index =>
    exact (Keeps.ask _).bind fun _ => (Keeps.ask _).bind fun _ => (Keeps.ask _).bind fun _ =>
      Keeps.pure _
  | inst id =>
    refine (Keeps.ask _).bind fun i => ?_
    split
    · exact (h.splitNormalEdge _).bind fun _ => (Keeps.ask _).bind fun _ => Keeps.pure _
    · exact (Keeps.ask _).bind fun _ => Keeps.pure _
    · split
      · exact Keeps.ask _
      · exact (Keeps.ask _).bind fun _ => (Keeps.ask _).bind fun _ => Keeps.pure _

end KeepsEdges

theorem keeps_splitNormalEdge (invoke : InstId) : Keeps Coherent (splitNormalEdge invoke) :=
  keepsEdges_coherent.splitNormalEdge invoke

/-! ## Tagging -/

/-- What survives a site, the code there, the replacement of uses and the mark survives a tag. -/
theorem KeepsEdges.tagGep {P : Func → Prop} (h : KeepsEdges P) (harith : ∀ anchor, KeepsArith P anchor)
    (hreplace : ∀ user gone repl, Keeps P (replaceUses user gone repl))
    (hmark : ∀ id change, Keeps P (mark id change)) (s : Scheme) (L : Layout) (globals : List String)
    (gep : InstId) : Keeps P (tagGep s L globals gep) := by
  refine (Keeps.ask _).bind fun why => ?_
  cases why with
  | some why => exact Keeps.pure _
  | none =>
    exact (Keeps.ask _).bind fun _ => (Keeps.ask _).bind fun _ => (Keeps.ask _).bind fun _ =>
      (h.siteAfter _).bind fun _ => ((harith _).emitTagged _ _ _ _ _).bind fun _ =>
        (Keeps.replaceUsesIn (fun user => hreplace user _ _) _).bind fun _ =>
          (hmark _ _).bind fun _ => Keeps.pure _

theorem keeps_tagGep (s : Scheme) (L : Layout) (globals : List String) (gep : InstId) :
    Keeps Coherent (tagGep s L globals gep) :=
  keepsEdges_coherent.tagGep keepsArith_coherent keeps_replaceUses keeps_mark s L globals gep

end Edit

namespace Func

/-- What survives every single step survives a pass over any list of address computations. -/
theorem keeps_tagEach {P : Func → Prop} {s : Scheme} {L : Layout} {globals : List String}
    (h : ∀ gep, Edit.Keeps P (Edit.tagGep s L globals gep)) (geps : List InstId) {f : Func}
    (hf : P f) : P (tagEach s L globals geps f).state := by
  induction geps generalizing f with
  | nil => exact hf
  | cons gep rest ih =>
    unfold tagEach
    cases hr : Edit.tagGep s L globals gep f with
    | ok outcome f' => exact ih ((h gep).of_ok hf hr)
    | error e f' =>
      have hafter := h gep f hf
      rwa [Edit.after_of_error hr] at hafter

theorem keeps_tag {P : Func → Prop} {s : Scheme} {L : Layout} {globals : List String}
    (h : ∀ gep, Edit.Keeps P (Edit.tagGep s L globals gep)) {f : Func} (hf : P f) :
    P (f.tag s L globals).state := by
  unfold tag
  cases f.geps.forM (f.checkCandidate s L globals) with
  | ok u => exact keeps_tagEach h f.geps hf
  | error e => exact hf

end Func

end PtrTag
