import PtrTag.Proofs.Func.Reachable

/-!
# `PtrTag/Proofs/Func/Substitution.lean` — replacing uses is a substitution

The users of a result are redirected one after the other, along a list that was read **before** the
first of them was changed. The list may name a user more than once, also with others in between, and a
user may have no use left when its turn comes. None of that does harm: putting `repl` in the place of
`gone` twice is putting it there once.

What a step counts and what it takes out of the use list of `gone` are in balance
(`Substitutes.balance`). When every user has had its turn the list is empty, so the count is its length
at the start.
-/

set_option autoImplicit false

namespace PtrTag

/-- The instruction `i'` is `i` with the operation `op`; only its use list may differ besides. -/
structure Inst.Recast (i : Inst) (op : Op) (i' : Inst) : Prop where
  op : i'.op = op
  ty : i'.ty = i.ty
  name : i'.name = i.name
  block : i'.block = i.block
  marks : i'.marks = i.marks

theorem mem_dropRepeats {ids : List InstId} {id : InstId} : id ∈ dropRepeats ids ↔ id ∈ ids := by
  fun_induction dropRepeats ids with
  | case1 => exact Iff.rfl
  | case2 a => exact Iff.rfl
  | case3 a rest ih => simp [ih]
  | case4 a b rest hne ih => rw [List.mem_cons, ih, List.mem_cons (a := id) (b := a)]

namespace Func

variable {f f₁ f₂ f' : Func} {user gone : InstId} {users : List InstId} {repl : Value} {n m : Nat}

theorem users_eq_ok_iff {id : InstId} {us : List InstId} :
    f.users id = .ok us ↔ ∃ i, f.insts[id]? = some i ∧ i.users = us := by
  simp only [Func.users, bind_eq_ok_iff, inst_eq_ok_iff, pure, Except.pure, Except.ok.injEq]

/-! ## One user -/

/-- The listed users have `repl` in the place of `gone`, and the function is otherwise as before. -/
structure Redirects (f : Func) (users : List InstId) (gone : InstId) (repl : Value) (f' : Func) :
    Prop where
  order : f'.order = f.order
  blocks : f'.blocks = f.blocks
  params : f'.params = f.params
  size : f'.insts.size = f.insts.size
  inst : ∀ (id : InstId) (i : Inst), f.insts[id]? = some i → ∃ i', f'.insts[id]? = some i' ∧
    i.Recast (if id ∈ users then i.op.mapOperands (.subst gone repl) else i.op) i'

theorem Redirects.cons (h₁ : f.Redirects [user] gone repl f₁) (h₂ : f₁.Redirects users gone repl f₂) :
    f.Redirects (user :: users) gone repl f₂ where
  order := h₂.order.trans h₁.order
  blocks := h₂.blocks.trans h₁.blocks
  params := h₂.params.trans h₁.params
  size := h₂.size.trans h₁.size
  inst := fun id i hi => by
    obtain ⟨i₁, hi₁, hr₁⟩ := h₁.inst id i hi
    obtain ⟨i₂, hi₂, hr₂⟩ := h₂.inst id i₁ hi₁
    refine ⟨i₂, hi₂, ?_, hr₂.ty.trans hr₁.ty, hr₂.name.trans hr₁.name, hr₂.block.trans hr₁.block,
      hr₂.marks.trans hr₁.marks⟩
    rw [hr₂.op, hr₁.op]
    by_cases hid : id = user
    · simp [hid, Op.mapOperands_subst_subst]
    · simp [hid]

theorem redirects_redirect (f : Func) (user gone : InstId) (repl : Value) (times : Nat) :
    f.Redirects [user] gone repl (f.redirect user gone repl times) := by
  obtain ⟨insts, heq, hsize⟩ := f.redirect_eq user gone repl times
  refine ⟨by rw [heq], by rw [heq], by rw [heq], by rw [heq]; exact hsize, fun id i hi => ?_⟩
  rw [getElem?_redirect, hi]
  refine ⟨_, rfl, ?_, rfl, rfl, rfl, rfl⟩
  by_cases hid : id = user
  · simp [hid]
  · simp [hid, Ne.symm hid]

/-- The listed users have `repl` in the place of `gone`, which changed `n` operands, and the use lists
have followed. -/
structure Substitutes (f : Func) (users : List InstId) (gone : InstId) (repl : Value) (n : Nat)
    (f' : Func) : Prop extends Redirects f users gone repl f' where
  coherent : f'.Coherent
  header : f' = { f with insts := f'.insts }
  /-- No use list is touched but those of `gone` and `repl`. -/
  aside : ∀ id, id ≠ gone → repl ≠ .inst id → f'.users id = f.users id
  /-- What was counted and what is left make up the old use list. -/
  balance : repl ≠ .inst gone → ∀ old, f.users gone = .ok old →
    ∃ left, f'.users gone = .ok left ∧ n + left.length = old.length

/-- Users that have no use of `gone` are left alone. -/
theorem Coherent.substitutes_self (hf : f.Coherent) (repl : Value)
    (h : ∀ user ∈ users, f.useCount user gone = 0) : f.Substitutes users gone repl 0 f where
  order := rfl
  blocks := rfl
  params := rfl
  size := rfl
  inst := fun id i hi => by
    refine ⟨i, hi, ?_, rfl, rfl, rfl, rfl⟩
    by_cases hid : id ∈ users
    · have hcount := h id hid
      rw [useCount_of_inst hi, List.count_eq_zero] at hcount
      rw [if_pos hid, Op.mapOperands_subst_of_notMem hcount]
    · rw [if_neg hid]
  coherent := hf
  header := rfl
  aside := fun id _ _ => rfl
  balance := fun _ old hold => ⟨old, hold, Nat.zero_add _⟩

theorem users_redirect (f : Func) (user gone : InstId) (repl : Value) (times : Nat) (id : InstId) :
    (f.redirect user gone repl times).users id = (f.users id).map fun us =>
      (if gone = id then us.filter (· != user) else us) ++
        (if repl = .inst id then List.replicate times user else []) := by
  simp only [Func.users, Func.inst, getElem?_redirect]
  cases f.insts[id]? <;> rfl

theorem Coherent.substitutes_redirect (hf : f.Coherent) {u : Inst} (hu : f.insts[user]? = some u)
    (hrepl : f.HasValue repl) (gone : InstId) :
    f.Substitutes [user] gone repl (u.op.uses.count gone)
      (f.redirect user gone repl (u.op.uses.count gone)) where
  toRedirects := redirects_redirect f user gone repl _
  coherent := Edit.coherent_redirect hf hu hrepl gone
  header := by
    obtain ⟨insts, heq, -⟩ := f.redirect_eq user gone repl (u.op.uses.count gone)
    rw [heq]
  aside := fun id hid hr => by
    rw [users_redirect]
    cases f.users id with
    | error e => rfl
    | ok us => simp [Except.map, Ne.symm hid, hr]
  balance := fun hr old hold => by
    refine ⟨old.filter (· != user), by simp [users_redirect, hold, Except.map, hr], ?_⟩
    -- The use list has as many entries of the user as the user has operands.
    obtain ⟨i, hi, rfl⟩ := users_eq_ok_iff.mp hold
    rw [← useCount_of_inst hu, ← hf.users gone i hi, ← List.countP_eq_length_filter,
      List.length_eq_countP_add_countP (· == user)]
    exact congrArg _ (List.countP_congr fun w _ => by simp)

/-! ## Users in a row -/

theorem Substitutes.cons (h₁ : f.Substitutes [user] gone repl n f₁)
    (h₂ : f₁.Substitutes users gone repl m f₂) :
    f.Substitutes (user :: users) gone repl (n + m) f₂ where
  toRedirects := h₁.toRedirects.cons h₂.toRedirects
  coherent := h₂.coherent
  header := h₂.header.trans (congrArg (fun F : Func => { F with insts := f₂.insts }) h₁.header)
  aside := fun id hid hr => (h₂.aside id hid hr).trans (h₁.aside id hid hr)
  balance := fun hr old hold => by
    obtain ⟨left₁, hleft₁, hn⟩ := h₁.balance hr old hold
    obtain ⟨left₂, hleft₂, hm⟩ := h₂.balance hr left₁ hleft₁
    exact ⟨left₂, hleft₂, by omega⟩

end Func

namespace Edit

open Func

variable {f : Func} {user gone : InstId} {users : List InstId} {repl : Value}

theorem yields_replaceUses (hf : f.Coherent) (hrepl : f.HasValue repl) (hgone : gone < f.insts.size)
    (huser : user < f.insts.size) :
    Yields (replaceUses user gone repl) f (f.Substitutes [user] gone repl) := by
  obtain ⟨_, hg⟩ := exists_inst hgone
  obtain ⟨u, hu⟩ := exists_inst huser
  refine Yields.ask_bind (checkValue_eq_ok_iff.mpr hrepl)
    (Yields.ask_bind (inst_eq_ok_iff.mpr hg) (Yields.ask_bind (inst_eq_ok_iff.mpr hu) ?_))
  by_cases htimes : u.op.uses.count gone = 0
  · simp only [htimes, if_true]
    refine Yields.pure (hf.substitutes_self repl fun w hw => ?_)
    rw [List.mem_singleton.mp hw, useCount_of_inst hu, htimes]
  · simp only [htimes, if_false]
    exact ⟨_, _, rfl, hf.substitutes_redirect hu hrepl gone⟩

/-- The induction is on the users still to come. Nothing is assumed of how often one of them is listed. -/
theorem yields_replaceUsesIn (hf : f.Coherent) (hrepl : f.HasValue repl) (hgone : gone < f.insts.size)
    (husers : ∀ u ∈ users, u < f.insts.size) :
    Yields (replaceUsesIn gone repl users) f (f.Substitutes users gone repl) := by
  induction users generalizing f with
  | nil => exact Yields.pure (hf.substitutes_self repl (by simp))
  | cons user rest ih =>
    rw [List.forall_mem_cons] at husers
    refine (yields_replaceUses hf hrepl hgone husers.1).bind fun n f₁ h₁ => ?_
    have hsize : f₁.insts.size = f.insts.size := h₁.size
    have hrest := ih h₁.coherent (hrepl.mono (Nat.le_of_eq hsize.symm) h₁.params)
      (by rw [hsize]; exact hgone) (by rw [hsize]; exact husers.2)
    exact hrest.bind fun m f₂ h₂ => Yields.pure (h₁.cons h₂)

end Edit

/-! ## All users -/

namespace Func

variable {f f' : Func} {gone : InstId} {users : List InstId} {repl : Value} {n : Nat}

/-- `f'` is `f` with `repl` in the place of the result of `gone`, wherever that was an operand, and `n`
operands were changed. -/
structure Substituted (f : Func) (gone : InstId) (repl : Value) (n : Nat) (f' : Func) : Prop where
  header : f' = { f with insts := f'.insts }
  size : f'.insts.size = f.insts.size
  /-- Nothing of an instruction is changed but operands, … -/
  inst : ∀ (id : InstId) (i : Inst), f.insts[id]? = some i → ∃ i', f'.insts[id]? = some i' ∧
    i.Recast (i.op.mapOperands (.subst gone repl)) i' ∧
      i'.op.operands = i.op.operands.map (.subst gone repl) ∧
        i'.op.successors = i.op.successors ∧ i'.op.incomingBlocks = i.op.incomingBlocks
  /-- … and the use lists that account for them. -/
  users : ∀ (id : InstId) (i' : Inst), f'.insts[id]? = some i' →
    ∀ user, i'.users.count user = f'.useCount user id
  aside : ∀ id, id ≠ gone → repl ≠ .inst id → f'.users id = f.users id
  unused : repl ≠ .inst gone → f'.users gone = .ok []
  counted : repl ≠ .inst gone → ∃ old, f.users gone = .ok old ∧ n = old.length

/-- Nobody uses what was replaced everywhere, unless by itself. -/
theorem useCount_gone (hr : repl ≠ .inst gone)
    (h : ∀ (id : InstId) (i : Inst), f.insts[id]? = some i → ∃ i', f'.insts[id]? = some i' ∧
      i'.op = i.op.mapOperands (.subst gone repl))
    (hsize : f'.insts.size = f.insts.size) (user : InstId) : f'.useCount user gone = 0 := by
  by_cases hlt : user < f.insts.size
  · obtain ⟨i, hi⟩ := exists_inst hlt
    obtain ⟨i', hi', hop⟩ := h user i hi
    rw [useCount_of_inst hi', hop, Op.count_uses_subst, if_pos rfl, if_neg hr]
  · exact useCount_of_none (Array.getElem?_eq_none (by rw [hsize]; exact Nat.not_lt.mp hlt)) gone

/-- If no user was left out, the result is replaced everywhere. -/
theorem Substitutes.substituted (h : f.Substitutes users gone repl n f') (hgone : gone < f.insts.size)
    (hall : ∀ user ∉ users, f.useCount user gone = 0) : f.Substituted gone repl n f' := by
  have hrecast : ∀ (id : InstId) (i : Inst), f.insts[id]? = some i → ∃ i', f'.insts[id]? = some i' ∧
      i.Recast (i.op.mapOperands (.subst gone repl)) i' := by
    intro id i hi
    obtain ⟨i', hi', hr⟩ := h.inst id i hi
    refine ⟨i', hi', ?_⟩
    by_cases hid : id ∈ users
    · rwa [if_pos hid] at hr
    · have hcount := hall id hid
      rw [useCount_of_inst hi, List.count_eq_zero] at hcount
      rw [if_neg hid] at hr
      rwa [Op.mapOperands_subst_of_notMem hcount]
  obtain ⟨i, hi⟩ := exists_inst hgone
  have hempty : repl ≠ .inst gone → ∀ left, f'.users gone = .ok left → left = [] := by
    intro hr left hleft
    obtain ⟨i', hi', rfl⟩ := users_eq_ok_iff.mp hleft
    refine List.eq_nil_iff_forall_not_mem.mpr fun user => List.count_eq_zero.mp ?_
    rw [h.coherent.users gone i' hi']
    refine useCount_gone hr (fun id k hk => ?_) h.size user
    obtain ⟨k', hk', hk⟩ := hrecast id k hk
    exact ⟨k', hk', hk.op⟩
  refine ⟨h.header, h.size, fun id k hk => ?_, h.coherent.users, h.aside, fun hr => ?_, fun hr => ?_⟩
  · obtain ⟨k', hk', hr⟩ := hrecast id k hk
    refine ⟨k', hk', hr, ?_, ?_, ?_⟩
    · rw [hr.op, Op.operands_mapOperands]
    · rw [hr.op, Op.successors_mapOperands]
    · rw [hr.op, Op.incomingBlocks_mapOperands]
  · obtain ⟨left, hleft, -⟩ := h.balance hr i.users (users_eq_ok_iff.mpr ⟨i, hi, rfl⟩)
    rw [hleft, hempty hr left hleft]
  · obtain ⟨left, hleft, hn⟩ := h.balance hr i.users (users_eq_ok_iff.mpr ⟨i, hi, rfl⟩)
    refine ⟨i.users, users_eq_ok_iff.mpr ⟨i, hi, rfl⟩, ?_⟩
    rw [hempty hr left hleft] at hn
    exact hn

/-- Replacing every use of a result is an exact substitution. It succeeds for every replacement that
exists, also the result itself and a result that is computed from it, and the count that it returns is
the length that the use list had. -/
theorem Reachable.replaceAllUses_substituted (h : f.Reachable) (hgone : gone < f.insts.size)
    (hrepl : f.HasValue repl) :
    ∃ n f', Edit.replaceAllUses gone repl f = .ok n f' ∧ f.Substituted gone repl n f' := by
  have hf := h.coherent
  obtain ⟨i, hi⟩ := exists_inst hgone
  have husers : f.users gone = .ok i.users := users_eq_ok_iff.mpr ⟨i, hi, rfl⟩
  have hlt : ∀ u ∈ dropRepeats i.users, u < f.insts.size := fun u hu =>
    hf.lt_of_mem_users hi (mem_dropRepeats.mp hu)
  have hall : ∀ user ∉ dropRepeats i.users, f.useCount user gone = 0 := by
    intro user huser
    rw [mem_dropRepeats] at huser
    rw [← hf.users gone i hi, List.count_eq_zero.mpr huser]
  obtain ⟨n, f', hrun, hsubst⟩ := Edit.yields_replaceUsesIn hf hrepl hgone hlt
  exact ⟨n, f', (Edit.ask_bind_of_ok husers).trans hrun, hsubst.substituted hgone hall⟩

/-- A pointer that goes round in a loop. Two phis take it, the second twice and the first from itself,
and both are extended only after the other uses were made. -/
def revolving : Func :=
  (fresh "f" .void [⟨"p", .ptr⟩]).mutate
    [.addBlock "entry",
      .append 0 { op := .phi [(.arg 0, 0)], ty := .ptr, name := some "a" },
      .append 0 { op := .phi [(.inst 0, 0)], ty := .ptr, name := some "b" },
      .append 0 { op := .store (.inst 0) (.inst 0), ty := .void },
      .append 0 { op := .gep ⟨.int 32, .inst 0, [.ofWord 1 64], false⟩, ty := .ptr, name := some "c" },
      .addIncoming 1 (.inst 0) 0,
      .addIncoming 0 (.inst 0) 0]

theorem revolving_reachable : revolving.Reachable := (Reachable.fresh _ _ _).mutate _

/-- The replacement is the step that is computed from the pointer itself. -/
theorem revolving_substituted :
    0 < revolving.insts.size ∧ revolving.HasValue (.inst 3) ∧
      revolving.users 0 = .ok [1, 2, 2, 3, 1, 0] ∧
        ∃ f', Edit.replaceAllUses 0 (.inst 3) revolving = .ok 6 f' ∧ f'.users 0 = .ok [] ∧
          revolving.Substituted 0 (.inst 3) 6 f' := by
  have hgone : 0 < revolving.insts.size := by decide
  have hrepl : revolving.HasValue (.inst 3) := by
    show 3 < revolving.insts.size
    decide
  have husers : revolving.users 0 = .ok [1, 2, 2, 3, 1, 0] := by decide
  obtain ⟨n, f', hrun, hsubst⟩ := revolving_reachable.replaceAllUses_substituted hgone hrepl
  obtain ⟨old, hold, hn⟩ := hsubst.counted (by decide)
  obtain rfl : [1, 2, 2, 3, 1, 0] = old := Except.ok.inj (husers.symm.trans hold)
  obtain rfl : n = 6 := hn
  exact ⟨hgone, hrepl, husers, f', hrun, hsubst.unused (by decide), hsubst⟩

end Func

end PtrTag
