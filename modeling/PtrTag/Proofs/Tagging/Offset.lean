import PtrTag.Proofs.Func.Frame
import PtrTag.Proofs.Tagging.Termination

/-!
# `PtrTag/Proofs/Tagging/Offset.lean` — the emitted displacement at full width

The tag of a pointer shows only some bits of its displacement. The code for the displacement itself is
right in all of them: it comes to the pointer minus its base, modulo two to the pointer width, for every
mixture of fields, constant indices and variable ones. It can be emitted before any instruction of the
function, not only behind the address computation, and nothing that was there before has another value
for it (`Func.Measures`).

The code is given its meaning by `Displaces`, about any valuation that satisfies the equations of the
new instructions. Here the valuation is that of the function with the code in it, which is acyclic
because the one before was.
-/

set_option autoImplicit false

namespace PtrTag

namespace Func

variable {f f' : Func} {L : Layout} {env : Env}

/-- An integer is evaluated to a word that has no bits above its width. -/
theorem low_eval {v : Value} {bits : Nat} {x : Word} (hty : f.valueType v = .ok (.int bits))
    (hx : f.eval L env v = .ok x) : Word.low x bits = x := by
  cases v with
  | inst id =>
    obtain ⟨i, hi⟩ := exists_inst (hasValue_of_valueType hty)
    have hity : i.ty = .int bits := by
      simpa [valueType, inst_eq_ok_iff.mpr hi, Except.map] using hty
    have hcomputed := (evalInst_succ hi f.insts.size).symm.trans hx
    obtain ⟨w, -, hw⟩ := bind_eq_ok_iff.mp hcomputed
    obtain rfl : Word.low w (L.width i.ty) = x := Except.ok.inj hw
    rw [hity, Layout.width_int, Word.low_low]
  | arg index =>
    simp only [eval, evalValue, bind_eq_ok_iff] at hx
    obtain ⟨raw, -, p, hp, hx⟩ := hx
    have hpty : p.ty = .int bits := by
      cases hparam : f.param index with
      | error e => simp [hparam, found] at hp
      | ok q =>
        obtain rfl : q = p := by simpa [hparam, found] using hp
        simpa [valueType, hparam, Except.map] using hty
    obtain rfl : Word.low raw (L.width p.ty) = x := Except.ok.inj hx
    rw [hpty, Layout.width_int, Word.low_low]
  | const c =>
    cases c with
    | int value width =>
      obtain rfl : width = bits := Ty.int.inj (Except.ok.inj hty)
      obtain rfl : Word.low value width = x := Except.ok.inj hx
      exact Word.low_low value width
    | null => simp [valueType, Const.ty] at hty
    | undef ty => simp [eval, evalValue] at hx
  | global name => simp [valueType] at hty

/-- The operand `v` measures the address computation `gep`: it is an integer of pointer width that comes
to the pointer minus its base, and every value that was there before is what it was. -/
structure Measures (L : Layout) (f : Func) (gep : InstId) (g : Gep) (v : Value) (f' : Func) : Prop where
  type : f'.valueType v = .ok (.int L.pointerBits)
  value : ∀ env o, f.eval L env (.inst gep) = .ok o → ∃ b, f.eval L env g.base = .ok b ∧
    f'.eval L env v = .ok (Word.low (o - b) L.pointerBits)
  others : ∀ env w, f.HasValue w → f'.eval L env w = f.eval L env w

theorem Displaces.measures {deps : InstId → Prop} {anchor gep : InstId} {i : Inst} {g : Gep}
    {steps : List Step} {v : Value} (h : Displaces L deps anchor f (steps.zip g.indices) v f')
    (hf : f.Grounded) (hf' : f'.Grounded) (houtline : f'.outline = f.outline)
    (hi : f.insts[gep]? = some i) (hop : i.op = .gep g) (hty : i.ty = .ptr)
    (hsteps : L.steps g.source g.indices = .ok steps) (hnormal : ∀ w ∈ g.indices, w.IsNormal) :
    Measures L f gep g v f' := by
  have hext : f.Extends f' := h.grows.extends houtline
  have hothers : ∀ env w, f.HasValue w → f'.eval L env w = f.eval L env w := fun env w hw =>
    hext.eval hf.coherent hf.acyclic hw
  refine ⟨h.usable.type, fun env o ho => ?_, hothers⟩
  have hbase : f.HasValue g.base := by
    refine (hf.coherent.inRange gep i hi).operands g.base ?_
    rw [hop]
    exact List.mem_cons_self
  -- In the function with the code, the pointer is its base moved by its terms.
  obtain ⟨more, hi'⟩ := hext.kept gep i hi
  have hsolves := hf'.acyclic.solves hf'.coherent L env
  have ho' : f'.values L env gep = .ok o := (hothers env (.inst gep) (lt_of_inst hi)).trans ho
  obtain ⟨b, d, hb, hd, rfl⟩ := (hsolves gep).gep_value hi' hop hsteps ho'
  have hobeys : Obeys L env f' (f'.values L env) f f' :=
    ⟨fun _ _ hv => hv, fun id k _ hk => hsolves id k hk⟩
  obtain ⟨x, hx, hlow⟩ := h.means env f' (f'.values L env) d hobeys hd
  have hx' : f'.eval L env v = .ok x := hx
  refine ⟨b, (hothers env g.base hbase).symm.trans hb, ?_⟩
  have hwidth : L.width (i.withUsers more).ty = L.pointerBits := by
    show L.width i.ty = _
    rw [hty]
    rfl
  rw [hx', hwidth, ← low_eval h.usable.type hx',
    hlow fun t ht => hnormal t.2 (List.of_mem_zip ht).2]
  exact congrArg _ (Word.low_sub_of_low_add (Word.low_low _ _)).symm

/-- The displacement of a pointer can be emitted before every instruction, and what is emitted comes to
the displacement, modulo two to the pointer width, whenever the pointer has a value. So does the
displacement that is folded if it can be. -/
theorem Reachable.emitOffset_measures (h : f.Reachable) (hacyclic : f.Acyclic) {gep : InstId} {i : Inst}
    {g : Gep} (hi : f.insts[gep]? = some i) (hop : i.op = .gep g) (hty : i.ty = .ptr)
    (hcheck : f.checkGep L gep = .ok ()) (hnormal : ∀ v ∈ g.indices, v.IsNormal) {anchor : InstId}
    (hanchor : anchor < f.insts.size) (name : Option String) :
    (∃ v f', Edit.emitOffset anchor L gep name f = .ok v f' ∧ Measures L f gep g v f') ∧
      ∃ d f', Edit.emitDisplacement anchor L gep name f = .ok d f' ∧
        Measures L f gep g (d.toValue L.pointerBits) f' := by
  have hf : f.Grounded := ⟨h.coherent, hacyclic⟩
  obtain ⟨terms, hterms⟩ := checkGep_eq_ok_iff.mp hcheck
  obtain ⟨g', steps, hgep, hindices, hsteps, rfl⟩ := gepTerms_eq_ok_iff.mp hterms
  obtain rfl : g = g' := by
    have hgep' : f.gep gep = .ok g := gep_eq_ok_iff.mpr ⟨i, hi, hop⟩
    exact Except.ok.inj (hgep'.symm.trans hgep)
  have hready : f.Ready (fun _ => True) anchor := ⟨h.coherent, hanchor, fun _ _ => trivial⟩
  have husable : Edit.TermsUsable L (fun _ => True) f (steps.zip g.indices) :=
    termsUsable_of_checked hindices fun _ _ => trivial
  constructor
  · obtain ⟨v, f', hrun, hv⟩ := Edit.yields_emitOffset L hready hterms husable name
    have hf' := ((Edit.keepsArith_grounded anchor).emitOffset L gep name).of_ok hf hrun
    have houtline := ((keepsArith_hasOutline f.outline anchor).emitOffset L gep name).of_ok rfl hrun
    exact ⟨v, f', hrun, hv.measures hf hf' houtline hi hop hty hsteps hnormal⟩
  · obtain ⟨d, f', hrun, hd, -⟩ := Edit.yields_emitDisplacement L hready hterms husable name
    have hf' := ((Edit.keepsArith_grounded anchor).emitDisplacement L gep name).of_ok hf hrun
    have houtline :=
      ((keepsArith_hasOutline f.outline anchor).emitDisplacement L gep name).of_ok rfl hrun
    exact ⟨d, f', hrun, hd.measures hf hf' houtline hi hop hty hsteps hnormal⟩

/-- A step back by a narrow index, into a record and on to an element, with pointers of 32 bits. The
first instruction stands before the pointer and is where the code goes. -/
def steppedBack : Func :=
  (fresh "f" .void [⟨"p", .ptr⟩, ⟨"n", .int 16⟩, ⟨"m", .int 8⟩]).mutate
    [.addBlock "entry",
      .append 0 { op := .load (.arg 0), ty := .ptr },
      .append 0 { op := .gep ⟨.struct [.int 8, .array 4 (.int 32)] false, .arg 0,
        [.arg 1, .ofWord 1 32, .arg 2], false⟩, ty := .ptr, name := some "q" }]

theorem steppedBack_measures :
    let L := Layout.lp64.withPointerBits 32
    let env : Env := { args := [0x1000, 0xffff, 3] }
    steppedBack.Reachable ∧ steppedBack.Acyclic ∧ steppedBack.checkGep L 1 = .ok () ∧
      steppedBack.eval L env (.inst 1) = .ok 0xffc ∧
        (∃ v f', Edit.emitOffset 0 L 1 (some "q") steppedBack = .ok v f' ∧
          f'.eval L env v = .ok 0xfffffffc) ∧
          ∃ d f', Edit.emitDisplacement 0 L 1 (some "q") steppedBack = .ok d f' ∧
            f'.eval L env (d.toValue 32) = .ok 0xfffffffc ∧
              f'.eval L env (.inst 1) = .ok 0xffc := by
  intro L env
  have hreachable : steppedBack.Reachable := (Reachable.fresh _ _ _).mutate _
  have hacyclic : steppedBack.Acyclic := acyclic_of_uses_lt (by decide +kernel)
  have hcheck : steppedBack.checkGep L 1 = .ok () := by decide +kernel
  have heval : steppedBack.eval L env (.inst 1) = .ok 0xffc := by decide +kernel
  have hbase : steppedBack.eval L env (.arg 0) = .ok 0x1000 := by decide +kernel
  have hsize : 1 < steppedBack.insts.size := by decide +kernel
  have hlow : Word.low (0xffc - 0x1000) L.pointerBits = 0xfffffffc := by decide
  obtain ⟨⟨v, f', hrun, hv⟩, d, F, hrun', hd⟩ :=
    hreachable.emitOffset_measures hacyclic rfl rfl rfl hcheck (by decide +kernel)
      (Nat.lt_of_succ_lt hsize) (some "q")
  refine ⟨hreachable, hacyclic, hcheck, heval, ⟨v, f', hrun, ?_⟩, d, F, hrun', ?_, ?_⟩
  · obtain ⟨b, hb, hvalue⟩ := hv.value env _ heval
    obtain rfl : 0x1000 = b := Except.ok.inj (hbase.symm.trans hb)
    rw [hvalue, hlow]
  · obtain ⟨b, hb, hvalue⟩ := hd.value env _ heval
    obtain rfl : 0x1000 = b := Except.ok.inj (hbase.symm.trans hb)
    exact hvalue.trans (congrArg _ hlow)
  · rw [hd.others env (.inst 1) hsize, heval]

end Func

end PtrTag
