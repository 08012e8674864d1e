import PtrTag.Proofs.Func.Keep

/-!
# `PtrTag/Proofs/Func/Reachable.lean` — the functions that can be built

A function starts without a body and grows by mutations. `Mutation` lists every operation that a
client can apply, from a single new block to a whole tagging run. Each is an edit (`Mutation.edit`), and
`Mutation.apply` says what it leaves behind: also a mutation that **fails** counts, with whatever state it
stops in.

`Func.Reachable` is what finitely many of them can produce, in any order and on any arguments. It is
the class of functions that the rest of the theory speaks about. A property that survives the edits that
mutations are made of survives them all (`Mutation.Kept.keeps_edit`), and one induction then shows that all
functions of the class have it. The first such property is coherence (`Reachable.coherent`).
-/

set_option autoImplicit false

namespace PtrTag

/-- A run over the address computations of a function as an edit, without its events. -/
def Edit.tagAll (s : Scheme) (L : Layout) (globals : List String) : Edit Outcomes := fun f =>
  let run := f.tag s L globals
  match run.result with
  | .ok outcomes => .ok outcomes run.state
  | .error e => .error e run.state

theorem Edit.after_tagAll (s : Scheme) (L : Layout) (globals : List String) (f : Func) :
    (tagAll s L globals).after f = (f.tag s L globals).state := by
  unfold after tagAll
  cases h : (f.tag s L globals).result <;> simp only [h]

inductive Mutation where
  | withLinkage (linkage : Linkage)
  | withAttribute (a : Attribute)
  | addBlock (base : String)
  | insertBlockBefore (base : String) (before : BlockId)
  | append (b : BlockId) (d : Draft)
  | insertBefore (anchor : InstId) (d : Draft)
  | mark (id : InstId) (change : Marks → Marks)
  | addIncoming (phi : InstId) (value : Value) (b : BlockId)
  | rekeyIncoming (phi : InstId) (old new : BlockId)
  | setNormalDest (invoke : InstId) (dest : BlockId)
  | replaceUses (user gone : InstId) (repl : Value)
  | replaceAllUses (gone : InstId) (repl : Value)
  | emit (anchor : InstId) (op : Op) (ty : Ty) (name : Option String)
  | emitBinary (anchor : InstId) (op : BinOp) (lhs rhs : Value) (name : Option String)
  | emitNeg (anchor : InstId) (v : Value) (name : Option String)
  | emitPtrToInt (anchor : InstId) (v : Value) (ty : Ty) (name : Option String)
  | emitIntToPtr (anchor : InstId) (v : Value) (ty : Ty) (name : Option String)
  | emitResize (anchor : InstId) (v : Value) (ty : Ty) (name : Option String)
  | emitOffset (anchor : InstId) (L : Layout) (gep : InstId) (name : Option String)
  | emitDisplacement (anchor : InstId) (L : Layout) (gep : InstId) (name : Option String)
  | splitNormalEdge (invoke : InstId)
  | siteAfter (producer : Producer)
  | tagGep (s : Scheme) (L : Layout) (globals : List String) (gep : InstId)
  | tag (s : Scheme) (L : Layout) (globals : List String)

namespace Mutation

/-- The edit that a mutation is, less its result. -/
def edit : Mutation → Edit Unit
  | .withLinkage linkage => modify (·.withLinkage linkage)
  | .withAttribute a => modify (·.withAttribute a)
  | .addBlock base => discard (Edit.addBlock base)
  | .insertBlockBefore base before => discard (Edit.insertBlockBefore base before)
  | .append b d => discard (Edit.append b d)
  | .insertBefore anchor d => discard (Edit.insertBefore anchor d)
  | .mark id change => Edit.mark id change
  | .addIncoming phi value b => Edit.addIncoming phi value b
  | .rekeyIncoming phi old new => discard (Edit.rekeyIncoming phi old new)
  | .setNormalDest invoke dest => Edit.setNormalDest invoke dest
  | .replaceUses user gone repl => discard (Edit.replaceUses user gone repl)
  | .replaceAllUses gone repl => discard (Edit.replaceAllUses gone repl)
  | .emit anchor op ty name => discard (Edit.emit anchor op ty name)
  | .emitBinary anchor op lhs rhs name => discard (Edit.emitBinary anchor op lhs rhs name)
  | .emitNeg anchor v name => discard (Edit.emitNeg anchor v name)
  | .emitPtrToInt anchor v ty name => discard (Edit.emitPtrToInt anchor v ty name)
  | .emitIntToPtr anchor v ty name => discard (Edit.emitIntToPtr anchor v ty name)
  | .emitResize anchor v ty name => discard (Edit.emitResize anchor v ty name)
  | .emitOffset anchor L gep name => discard (Edit.emitOffset anchor L gep name)
  | .emitDisplacement anchor L gep name => discard (Edit.emitDisplacement anchor L gep name)
  | .splitNormalEdge invoke => discard (Edit.splitNormalEdge invoke)
  | .siteAfter producer => discard (Edit.siteAfter producer)
  | .tagGep s L globals gep => discard (Edit.tagGep s L globals gep)
  | .tag s L globals => discard (Edit.tagAll s L globals)

/-- What a mutation leaves of a function, whether it succeeded or failed. -/
def apply (m : Mutation) (f : Func) : Func := m.edit.after f

/-- Whether a client chooses what takes the place of a result. -/
def replaces : Mutation → Bool
  | .replaceUses .. | .replaceAllUses .. => true
  | _ => false

/-- `P` survives the edits that mutations are made of, those apart that replace a result. -/
structure Kept (P : Func → Prop) : Prop extends Edit.KeepsEdges P where
  /-- `P` is about the body of a function. -/
  body : ∀ {f f' : Func}, P f → f'.insts = f.insts → f'.blocks = f.blocks → f'.order = f.order →
    f'.params = f.params → P f'
  addBlock : ∀ base, Edit.Keeps P (Edit.addBlock base)
  insertBefore : ∀ anchor d, Edit.Keeps P (Edit.insertBefore anchor d)
  mark : ∀ id change, Edit.Keeps P (Edit.mark id change)
  addIncoming : ∀ phi value b, Edit.Keeps P (Edit.addIncoming phi value b)
  tagGep : ∀ s L globals gep, Edit.Keeps P (Edit.tagGep s L globals gep)

namespace Kept

variable {P : Func → Prop}

theorem arith (h : Kept P) (anchor : InstId) : Edit.KeepsArith P anchor :=
  fun _ _ _ _ => h.insertBefore _ _

/-- What survives the edits survives every mutation. -/
theorem keeps_edit (h : Kept P) (m : Mutation)
    (hreplace : m.replaces → ∀ user gone repl, Edit.Keeps P (Edit.replaceUses user gone repl)) :
    Edit.Keeps P m.edit := by
  cases m with
  | withLinkage linkage =>
    intro f hf
    exact h.body hf rfl rfl rfl rfl
  | withAttribute a =>
    intro f hf
    show P (f.withAttribute a)
    unfold Func.withAttribute
    split
    · exact hf
    · exact h.body hf rfl rfl rfl rfl
  | addBlock base => exact (h.addBlock _).discard
  | insertBlockBefore base before => exact (h.insertBlockBefore _ _).discard
  | append b d => exact (h.append _ _).discard
  | insertBefore anchor d => exact (h.insertBefore _ _).discard
  | mark id change => exact h.mark _ _
  | addIncoming phi value b => exact h.addIncoming _ _ _
  | rekeyIncoming phi old new => exact (h.rekeyIncoming _ _ _).discard
  | setNormalDest invoke dest => exact h.setNormalDest _ _
  | replaceUses user gone repl => exact (hreplace rfl _ _ _).discard
  | replaceAllUses gone repl =>
    exact (Edit.Keeps.replaceAllUses fun user => hreplace rfl user gone repl).discard
  | emit anchor op ty name => exact (h.insertBefore _ _).discard
  | emitBinary anchor op lhs rhs name => exact ((h.arith _).emitBinary _ _ _ _).discard
  | emitNeg anchor v name => exact ((h.arith _).emitNeg _ _).discard
  | emitPtrToInt anchor v ty name => exact ((h.arith _).emitPtrToInt _ _ _).discard
  | emitIntToPtr anchor v ty name => exact ((h.arith _).emitIntToPtr _ _ _).discard
  | emitResize anchor v ty name => exact ((h.arith _).emitResize _ _ _).discard
  | emitOffset anchor L gep name => exact ((h.arith _).emitOffset _ _ _).discard
  | emitDisplacement anchor L gep name => exact ((h.arith _).emitDisplacement _ _ _).discard
  | splitNormalEdge invoke => exact (h.splitNormalEdge _).discard
  | siteAfter producer => exact (h.siteAfter _).discard
  | tagGep s L globals gep => exact (h.tagGep _ _ _ _).discard
  | tag s L globals =>
    refine Edit.Keeps.discard fun f hf => ?_
    rw [Edit.after_tagAll]
    exact Func.keeps_tag (h.tagGep s L globals) hf

end Kept

open Func Edit in
theorem kept_coherent : Kept Coherent where
  toKeepsEdges := keepsEdges_coherent
  body := Coherent.of_same_body
  addBlock := keeps_addBlock
  insertBefore := keeps_insertBefore
  mark := keeps_mark
  addIncoming := keeps_addIncoming
  tagGep := keeps_tagGep

theorem coherent_apply (m : Mutation) {f : Func} (hf : f.Coherent) : (m.apply f).Coherent :=
  kept_coherent.keeps_edit m (fun _ => Edit.keeps_replaceUses) f hf

end Mutation

namespace Func

/-- What can be built from a function without a body. -/
inductive Reachable : Func → Prop
  | fresh (name : String) (ret : Ty) (params : List Param) : Reachable (Func.fresh name ret params)
  | step {f : Func} (m : Mutation) : Reachable f → Reachable (m.apply f)

theorem Reachable.coherent {f : Func} (h : f.Reachable) : f.Coherent := by
  induction h with
  | fresh name ret params => exact coherent_fresh name ret params
  | step m _ ih => exact m.coherent_apply ih

/-- The function after a list of mutations. -/
def mutate (f : Func) (ms : List Mutation) : Func := ms.foldl (fun f m => m.apply f) f

theorem Reachable.mutate {f : Func} (h : f.Reachable) (ms : List Mutation) :
    (f.mutate ms).Reachable := by
  unfold Func.mutate
  induction ms generalizing f with
  | nil => exact h
  | cons m ms ih => exact ih (h.step m)

end Func

end PtrTag
