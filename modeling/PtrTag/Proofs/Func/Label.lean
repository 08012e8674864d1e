import PtrTag.Proofs.Func.Enrich

/-!
# `PtrTag/Proofs/Func/Label.lean` — block names

A new block gets the name that was wished for if no block has it, or else that name with a number behind
it. To find the number is a loop that nothing bounds: it tries one number after the other until a name is
free (`LabelSearch`). It ends by pigeonhole. The names that it tries are all different
(`numbered_injective`), so among one more of them than there are blocks one is free, whatever the blocks
are called. `freshLabel` looks that far and no further, and finds what the loop finds.

So a new block never takes the name of another, and no edit renames a block. In every function that can be
built the names tell the blocks apart (`Reachable.distinct`), and a name leads back to its block
(`Distinct.blockNamed?_eq_some_iff`).
-/

set_option autoImplicit false

namespace PtrTag

/-! ## Looking for a name -/

/-- The names that are tried for `base`, in order: first `base` itself, then `base` with 1, 2, … behind
it. -/
def numbered (base : String) : Nat → String
  | 0 => base
  | n + 1 => base ++ toString (n + 1)

/-- The loop that looks for a name: begun at the `n`-th name, it looks at `k` names and ends with `name`.
All of them are taken but the last. -/
inductive LabelSearch (taken : List String) (base : String) : Nat → Nat → String → Prop
  | found {n : Nat} : numbered base n ∉ taken → LabelSearch taken base n 1 (numbered base n)
  | next {n k : Nat} {name : String} : numbered base n ∈ taken →
    LabelSearch taken base (n + 1) k name → LabelSearch taken base n (k + 1) name

theorem numbered_injective (base : String) : Function.Injective (numbered base) := by
  have hbase : ∀ n, base ++ toString (n + 1) ≠ base := fun n h =>
    Nat.repr_ne_empty (String.append_eq_left_iff.mp h)
  intro m n h
  cases m with
  | zero =>
    cases n with
    | zero => rfl
    | succ n => exact absurd h.symm (hbase n)
  | succ m =>
    cases n with
    | zero => exact absurd h (hbase m)
    | succ n =>
      -- The number can be read back from its digits.
      have hnumber : (m + 1).repr = (n + 1).repr := (String.append_right_inj base).mp h
      have hdigits : Nat.toDigits 10 (m + 1) = Nat.toDigits 10 (n + 1) := by
        rw [← Nat.toList_repr, hnumber, Nat.toList_repr]
      rw [← Nat.ofDigitChars_ten_toDigits (n := m + 1), hdigits, Nat.ofDigitChars_ten_toDigits]

/-- More names are tried than are taken. -/
theorem exists_numbered_not_mem (taken : List String) (base : String) :
    ∃ n ≤ taken.length, numbered base n ∉ taken := by
  by_contra! hall
  let tried := (List.range (taken.length + 1)).map (numbered base)
  have hnodup : tried.Nodup := List.nodup_range.map (numbered_injective base)
  have hsub : tried ⊆ taken := by
    intro name hname
    obtain ⟨n, hn, rfl⟩ := List.mem_map.mp hname
    exact hall n (Nat.le_of_lt_succ (List.mem_range.mp hn))
  have hlen : tried.length ≤ taken.length := (hnodup.subperm hsub).length_le
  rw [List.length_map, List.length_range] at hlen
  exact Nat.not_succ_le_self _ hlen

namespace LabelSearch

variable {taken : List String} {base : String}

/-- The loop passes over the names that are taken and stops at the first that is not. -/
theorem of_least {n k : Nat} (htaken : ∀ m < k, numbered base (n + m) ∈ taken)
    (hfree : numbered base (n + k) ∉ taken) :
    LabelSearch taken base n (k + 1) (numbered base (n + k)) := by
  induction k generalizing n with
  | zero => exact found hfree
  | succ k ih =>
    have hshift : ∀ m, n + (m + 1) = n + 1 + m := fun m => Nat.add_right_comm n m 1
    rw [hshift] at hfree ⊢
    refine next (htaken 0 (Nat.succ_pos k)) (ih (fun m hm => ?_) hfree)
    rw [← hshift]
    exact htaken (m + 1) (Nat.succ_lt_succ hm)

/-- There is one way in which the loop can end. -/
theorem unique {n k j : Nat} {name other : String} (h : LabelSearch taken base n k name)
    (h' : LabelSearch taken base n j other) : j = k ∧ other = name := by
  induction h generalizing j other with
  | found hfree =>
    cases h' with
    | found _ => exact ⟨rfl, rfl⟩
    | next htaken _ => exact absurd htaken hfree
  | next htaken _ ih =>
    cases h' with
    | found hfree => exact absurd htaken hfree
    | next _ hrest =>
      obtain ⟨rfl, rfl⟩ := ih hrest
      exact ⟨rfl, rfl⟩

end LabelSearch

namespace Func

variable {f f' : Func}

/-- The names of the blocks. -/
def labels (f : Func) : List String := f.blocks.toList.map Block.name

theorem length_labels (f : Func) : f.labels.length = f.blocks.size := by
  rw [labels, List.length_map, Array.length_toList]

theorem label?_eq_getElem? (f : Func) (b : BlockId) : f.label? b = f.labels[b]? := by
  rw [labels, List.getElem?_map, Array.getElem?_toList]
  rfl

theorem freshLabel_eq_find? (f : Func) (base : String) :
    f.freshLabel base = (((List.range (f.labels.length + 1)).find? fun n =>
      !f.labels.contains (numbered base n)).map (numbered base)).getD base := by
  have htried : base :: (List.range f.labels.length).map (fun n => base ++ toString (n + 1)) =
      (List.range (f.labels.length + 1)).map (numbered base) := by
    rw [List.range_succ_eq_map, List.map_cons, List.map_map]
    rfl
  show ((base :: (List.range f.labels.length).map fun n => base ++ toString (n + 1)).find? fun name =>
    !f.labels.contains name).getD base = _
  rw [htried, List.find?_map]
  rfl

/-- A new block gets the first of the names that no block has, and there is one within as many numbers as
there are blocks. -/
theorem freshLabel_eq_numbered (f : Func) (base : String) :
    ∃ n ≤ f.blocks.size, f.freshLabel base = numbered base n ∧ numbered base n ∉ f.labels ∧
      ∀ m < n, numbered base m ∈ f.labels := by
  rw [freshLabel_eq_find?]
  cases hfind : (List.range (f.labels.length + 1)).find? fun n =>
      !f.labels.contains (numbered base n) with
  | none =>
    -- Then every name that is looked at would be taken.
    obtain ⟨n, hle, hfree⟩ := exists_numbered_not_mem f.labels base
    have htaken := List.find?_eq_none.mp hfind n (List.mem_range.mpr (Nat.lt_succ_of_le hle))
    exact absurd (by simpa using htaken) hfree
  | some n =>
    obtain ⟨hfree, hn, hbefore⟩ := List.find?_range_eq_some.mp hfind
    rw [List.mem_range, length_labels] at hn
    exact ⟨n, Nat.le_of_lt_succ hn, rfl, by simpa using hfree, fun m hm => by simpa using hbefore m hm⟩

theorem freshLabel_not_mem (f : Func) (base : String) : f.freshLabel base ∉ f.labels := by
  obtain ⟨n, -, heq, hfree, -⟩ := f.freshLabel_eq_numbered base
  rwa [heq]

theorem freshLabel_eq_base_iff (f : Func) (base : String) :
    f.freshLabel base = base ↔ base ∉ f.labels := by
  obtain ⟨n, -, heq, hfree, hbefore⟩ := f.freshLabel_eq_numbered base
  constructor
  · intro hbase
    rwa [← heq, hbase] at hfree
  · intro hbase
    cases n with
    | zero => exact heq
    | succ n => exact absurd (hbefore 0 (Nat.succ_pos n)) hbase

/-- The loop ends, with the name that a new block gets. -/
theorem labelSearch_freshLabel (f : Func) (base : String) :
    ∃ k ≤ f.blocks.size + 1, LabelSearch f.labels base 0 k (f.freshLabel base) := by
  obtain ⟨n, hn, heq, hfree, hbefore⟩ := f.freshLabel_eq_numbered base
  refine ⟨n + 1, Nat.succ_le_succ hn, ?_⟩
  have hrun : LabelSearch f.labels base 0 (n + 1) (numbered base (0 + n)) :=
    .of_least (by simpa only [Nat.zero_add] using hbefore) (by rwa [Nat.zero_add])
  rwa [Nat.zero_add, ← heq] at hrun

/-! ## Names that differ -/

/-- No two blocks have the same name. -/
def Distinct (f : Func) : Prop := f.labels.Nodup

theorem distinct_fresh (name : String) (ret : Ty) (params : List Param) :
    (fresh name ret params).Distinct := List.nodup_nil

theorem Distinct.of_blocks (hf : f.Distinct) (h : f'.blocks = f.blocks) : f'.Distinct := by
  rwa [Distinct, labels, h]

theorem Distinct.of_outline (hf : f.Distinct) (h : f'.outline = f.outline) : f'.Distinct := by
  have hlabels : f'.labels = f.labels := by
    refine List.ext_getElem? fun b => ?_
    rw [← label?_eq_getElem?, ← label?_eq_getElem?, label?_eq_of_outline h]
  rwa [Distinct, hlabels]

/-- A new block is told apart from all others. -/
theorem Distinct.insertBlock (hf : f.Distinct) (base : String) (pos : Nat) :
    (f.insertBlock base pos).Distinct := by
  have hlabels : (f.insertBlock base pos).labels = f.labels.concat (f.freshLabel base) := by
    simp [Func.insertBlock, labels]
  rw [Distinct, hlabels]
  exact hf.concat (f.freshLabel_not_mem base)

end Func

/-! ## Edits -/

namespace Edit

open Func

theorem keeps_distinct_addBlock (base : String) : Keeps Distinct (addBlock base) := by
  intro f hf
  rw [after_of_ok (addBlock_run base f)]
  exact hf.insertBlock base _

theorem keeps_distinct_insertBlockBefore (base : String) (before : BlockId) :
    Keeps Distinct (insertBlockBefore base before) := by
  intro f hf
  exact Keeps.after_ask_bind hf fun pos _ => hf.insertBlock base pos

theorem keeps_distinct_append (b : BlockId) (d : Draft) : Keeps Distinct (append b d) := by
  intro f hf
  refine Keeps.after_ask_bind hf fun _ _ => ?_
  exact after_create hf fun _ => hf.of_outline (outline_place _ _ _)

theorem keeps_distinct_insertBefore (anchor : InstId) (d : Draft) :
    Keeps Distinct (insertBefore anchor d) := by
  intro f hf
  exact after_insertBefore hf fun _ _ _ _ _ => hf.of_outline (outline_place _ _ _)

theorem keeps_distinct_mark (id : InstId) (change : Marks → Marks) :
    Keeps Distinct (mark id change) := by
  intro f hf
  exact Keeps.after_ask_bind hf fun _ _ => hf

theorem keeps_distinct_addIncoming (phi : InstId) (value : Value) (b : BlockId) :
    Keeps Distinct (addIncoming phi value b) := by
  intro f hf
  refine Keeps.after_ask_bind hf fun _ _ => ?_
  refine Keeps.after_ask_bind hf fun _ _ => ?_
  exact Keeps.after_ask_bind hf fun _ _ => hf.of_blocks (blocks_registerUses _ _)

theorem keeps_distinct_rekeyIncoming (phi : InstId) (old new : BlockId) :
    Keeps Distinct (rekeyIncoming phi old new) := by
  intro f hf
  exact Keeps.after_ask_bind hf fun _ _ => Keeps.after_ask_bind hf fun _ _ => hf

theorem keeps_distinct_setNormalDest (invoke : InstId) (dest : BlockId) :
    Keeps Distinct (setNormalDest invoke dest) := by
  intro f hf
  exact Keeps.after_ask_bind hf fun _ _ => Keeps.after_ask_bind hf fun _ _ => hf

theorem keeps_distinct_replaceUses (user gone : InstId) (repl : Value) :
    Keeps Distinct (replaceUses user gone repl) := by
  intro f hf
  refine after_replaceUses hf fun u _ _ => ?_
  obtain ⟨insts, heq, -⟩ := f.redirect_eq user gone repl (u.op.uses.count gone)
  exact hf.of_blocks (by rw [heq])

theorem keepsEdges_distinct : KeepsEdges Distinct :=
  ⟨keeps_distinct_insertBlockBefore, keeps_distinct_append, keeps_distinct_setNormalDest,
    keeps_distinct_rekeyIncoming⟩

end Edit

open Edit in
theorem Mutation.kept_distinct : Kept Func.Distinct where
  toKeepsEdges := keepsEdges_distinct
  body := fun hf _ hb _ _ => hf.of_blocks hb
  addBlock := keeps_distinct_addBlock
  insertBefore := keeps_distinct_insertBefore
  mark := keeps_distinct_mark
  addIncoming := keeps_distinct_addIncoming
  tagGep := keepsEdges_distinct.tagGep (fun _ _ _ _ _ => keeps_distinct_insertBefore _ _)
    keeps_distinct_replaceUses keeps_distinct_mark

namespace Func

variable {f : Func}

theorem Reachable.distinct (h : f.Reachable) : f.Distinct := by
  induction h with
  | fresh name ret params => exact distinct_fresh name ret params
  | step m _ ih =>
    exact Mutation.kept_distinct.keeps_edit m (fun _ => Edit.keeps_distinct_replaceUses) _ ih

/-! ## From a name to its block -/

theorem blockNamed?_eq_find? (f : Func) (name : String) :
    f.blockNamed? name = f.order.find? fun b => f.label? b == some name := by
  unfold blockNamed? label?
  congr 1
  funext b
  cases f.blocks[b]? <;> rfl

theorem label?_of_blockNamed? {name : String} {b : BlockId} (h : f.blockNamed? name = some b) :
    f.label? b = some name := by
  rw [blockNamed?_eq_find?] at h
  exact beq_iff_eq.mp (List.find?_some (p := fun b => f.label? b == some name) h)

theorem lt_of_label? {name : String} {b : BlockId} (h : f.label? b = some name) :
    b < f.labels.length := by
  rw [label?_eq_getElem?] at h
  exact (List.getElem?_eq_some_iff.mp h).1

/-- Blocks with the same name are the same block. -/
theorem Distinct.label?_inj (hf : f.Distinct) {name : String} {b c : BlockId}
    (hb : f.label? b = some name) (hc : f.label? c = some name) : b = c := by
  have hsame : f.labels[b]? = f.labels[c]? := by
    rw [← label?_eq_getElem?, ← label?_eq_getElem?, hb, hc]
  exact (List.getElem?_inj (lt_of_label? hb) hf).mp hsame

/-- The block that is found under a name is the one that has it. -/
theorem Distinct.blockNamed?_eq_some_iff (hf : f.Distinct) (hc : f.Coherent) {name : String}
    {b : BlockId} : f.blockNamed? name = some b ↔ f.label? b = some name := by
  refine ⟨label?_of_blockNamed?, fun hlabel => ?_⟩
  cases hfind : f.blockNamed? name with
  | none =>
    have hb : b ∈ f.order := hc.mem_order.mpr (f.length_labels ▸ lt_of_label? hlabel)
    rw [blockNamed?_eq_find?] at hfind
    exact absurd (beq_iff_eq.mpr hlabel) (List.find?_eq_none.mp hfind b hb)
  | some c => rw [hf.label?_inj (label?_of_blockNamed? hfind) hlabel]

/-- Whatever the blocks of a function are called and whatever name is wished for, the loop that looks for
a free name ends, after one name more than there are blocks at the latest, and in one way only: with the
name that a new block gets. No block has that name, and it is the wished one if no block has that. So in
every function that can be built the names of the blocks differ, and looking for a name finds the block
that has it. -/
theorem labelSearch_ends_and_labels_nodup (f : Func) (base : String) :
    (∃ k ≤ f.blocks.size + 1, ∀ (j : Nat) (name : String),
      LabelSearch f.labels base 0 j name ↔ j = k ∧ name = f.freshLabel base) ∧
    f.freshLabel base ∉ f.labels ∧ (f.freshLabel base = base ↔ base ∉ f.labels) ∧
    (f.Reachable → f.labels.Nodup ∧
      ∀ (name : String) (b : BlockId), f.blockNamed? name = some b ↔ f.label? b = some name) := by
  refine ⟨?_, f.freshLabel_not_mem base, f.freshLabel_eq_base_iff base, fun h =>
    ⟨h.distinct, fun name b => h.distinct.blockNamed?_eq_some_iff h.coherent⟩⟩
  obtain ⟨k, hk, hends⟩ := f.labelSearch_freshLabel base
  refine ⟨k, hk, fun j name => ⟨hends.unique, ?_⟩⟩
  rintro ⟨rfl, rfl⟩
  exact hends

/-- Blocks whose names look like another name with a number behind it. The third was to have no name, the
fifth comes from a split edge and the sixth was to be called `1`. -/
def lookalikes : Func :=
  (fresh "f" .void [⟨"callee", .ptr⟩]).mutate
    [.addBlock "", .addBlock "1", .addBlock "", .addBlock "invoke_insert_point",
      .append 0 { op := .invoke (.arg 0) [] 1 2, ty := .void },
      .splitNormalEdge 0, .insertBlockBefore "1" 2]

theorem lookalikes_labels :
    lookalikes.labels = ["", "1", "2", "invoke_insert_point", "invoke_insert_point1", "11"] := by
  decide +kernel

theorem lookalikes_reachable : lookalikes.Reachable := (Reachable.fresh _ _ _).mutate _

/-- One more block without a name would be called `3`: the loop passes over the three names before it. The
block that the split made is found under its name. -/
theorem lookalikes_labelSearch :
    lookalikes.Reachable ∧ LabelSearch lookalikes.labels "" 0 4 "3" ∧
      lookalikes.freshLabel "" = "3" ∧ lookalikes.freshLabel "4" = "4" ∧ lookalikes.labels.Nodup ∧
        lookalikes.blockNamed? "invoke_insert_point1" = some 4 := by
  have hsearch : LabelSearch lookalikes.labels "" 0 4 "3" := by
    have hname : numbered "" 3 = "3" := by decide +kernel
    rw [lookalikes_labels, ← hname]
    exact .next (by decide +kernel) (.next (by decide +kernel) (.next (by decide +kernel)
      (.found (by decide +kernel))))
  have hlabel : lookalikes.label? 4 = some "invoke_insert_point1" := by decide +kernel
  obtain ⟨⟨k, -, hends⟩, -, -, hreachable⟩ := labelSearch_ends_and_labels_nodup lookalikes ""
  obtain ⟨-, -, hbase, -⟩ := labelSearch_ends_and_labels_nodup lookalikes "4"
  obtain ⟨hnodup, hnamed⟩ := hreachable lookalikes_reachable
  refine ⟨lookalikes_reachable, hsearch, ((hends 4 "3").mp hsearch).2.symm, hbase.mpr ?_, hnodup,
    (hnamed _ 4).mpr hlabel⟩
  rw [lookalikes_labels]
  decide

end Func

end PtrTag
