import PtrTag.Layout.Path
import PtrTag.Tagging.Displacement
import PtrTag.Proofs.Func.Lookup
import PtrTag.Proofs.Layout.Extent

/-!
# `PtrTag/Proofs/Layout/Path.lean` — constant paths select parts of an object

A path of constant indices that goes through structures and arrays and never past the end of an array
selects a **part** of an object. Parts lie inside the object, they are aligned for their types unless
the path goes through a packed structure, and two paths that part ways lead to bytes that do not overlap.

The argument is about parts (`Part`), by induction along the path: an index selects a field or an
element of what is reached so far, and the rest of the path stays inside it. That a path which the
layout accepts leads to such a part, at the offset that its steps add up to, is `Layout.Selects.part`.
-/

set_option autoImplicit false

namespace PtrTag

/-! ## Fields and elements -/

namespace Ty

variable {fields : List Ty} {packed : Bool} {j k a b : Nat} {t t' : Ty}

/-- Whether a type is a structure without padding. -/
def isPacked : Ty → Bool
  | .struct _ packed => packed
  | _ => false

/-- Where the fields of a structure begin. -/
def starts (fields : List Ty) (packed : Bool) : List Nat :=
  Extent.starts packed 0 (fields.map (·.natural.padded))

theorem getElem?_map_padded (ht : fields[k]? = some t) :
    (fields.map (·.natural.padded))[k]? = some (natural t).padded := by
  rw [List.getElem?_map, ht]
  rfl

theorem map_padded_naturals (fields : List Ty) :
    (naturals fields).map Extent.padded = fields.map (·.natural.padded) := by
  rw [naturals_eq_map, List.map_map]
  rfl

theorem field_end_le (ha : (starts fields packed)[k]? = some a) (ht : fields[k]? = some t) :
    a + (natural t).stride ≤ (natural (.struct fields packed)).stride := by
  refine Nat.le_trans ?_ (Extent.size_le_stride _)
  rw [natural, Extent.struct, map_padded_naturals]
  exact Nat.le_trans (Extent.start_add_size_le_finish ha (getElem?_map_padded ht)) (le_alignUp _ _)

/-- Two fields do not overlap. -/
theorem fields_apart (hne : j ≠ k) (ha : (starts fields packed)[j]? = some a)
    (ht : fields[j]? = some t) (hb : (starts fields packed)[k]? = some b)
    (ht' : fields[k]? = some t') : a + (natural t).stride ≤ b ∨ b + (natural t').stride ≤ a := by
  have he := getElem?_map_padded ht
  have he' := getElem?_map_padded ht'
  rcases Nat.lt_or_gt_of_ne hne with hlt | hlt
  · exact .inl (Extent.start_add_size_le_start hlt ha he hb he')
  · exact .inr (Extent.start_add_size_le_start hlt hb he' ha he)

theorem align_dvd_start (ha : (starts fields false)[k]? = some a) (ht : fields[k]? = some t) :
    (natural t).align ∣ a := by
  show (natural t).padded.align ∣ a
  exact Extent.dvd_start (align_pos t) ha (getElem?_map_padded ht)

theorem align_dvd_struct (ht : fields[k]? = some t) :
    (natural t).align ∣ (natural (.struct fields false)).align := by
  show _ ∣ Extent.maxAlign (naturals fields)
  refine Extent.dvd_maxAlign (isPowerOfTwo_aligns fields) ?_
  rw [naturals_eq_map]
  exact List.mem_map_of_mem (List.mem_of_getElem? ht)

theorem element_end_le (t : Ty) {len : Nat} (hk : k < len) :
    (k + 1) * (natural t).stride ≤ (natural (.array len t)).stride := by
  refine Nat.le_trans (Nat.mul_le_mul_right _ hk) (?_ : _ ≤ (natural (.array len t)).stride)
  exact Extent.size_le_stride (natural (.array len t))

theorem elements_apart (t : Ty) (hne : j ≠ k) :
    j * (natural t).stride + (natural t).stride ≤ k * (natural t).stride ∨
      k * (natural t).stride + (natural t).stride ≤ j * (natural t).stride := by
  simp only [← Nat.succ_mul]
  rcases Nat.lt_or_gt_of_ne hne with hlt | hlt
  · exact .inl (Nat.mul_le_mul_right _ hlt)
  · exact .inr (Nat.mul_le_mul_right _ hlt)

end Ty

/-! ## Parts of an object -/

/-- The indices lead from an object of type `ty` to a part of type `part` that begins `offset` bytes
behind it. All types that they step into satisfy `P`. -/
inductive Part (P : Ty → Prop) : Ty → List Nat → Nat → Ty → Prop
  | here (ty : Ty) : Part P ty [] 0 ty
  | field {fields : List Ty} {packed : Bool} {k start offset : Nat} {t part : Ty} {ks : List Nat}
      (enter : P (.struct fields packed)) (begins : (Ty.starts fields packed)[k]? = some start)
      (type : fields[k]? = some t) (rest : Part P t ks offset part) :
      Part P (.struct fields packed) (k :: ks) (start + offset) part
  | element {len k offset : Nat} {elem part : Ty} {ks : List Nat} (enter : P (.array len elem))
      (inside : k < len) (rest : Part P elem ks offset part) :
      Part P (.array len elem) (k :: ks) (k * (Ty.natural elem).stride + offset) part

namespace Part

open Ty

variable {P Q : Ty → Prop} {ty part part' : Ty} {ks ks' : List Nat} {offset offset' : Nat}

/-- A part lies inside the object. -/
theorem end_le (h : Part P ty ks offset part) :
    offset + (natural part).stride ≤ (natural ty).stride := by
  induction h with
  | here ty => exact Nat.le_of_eq (Nat.zero_add _)
  | field _ begins type _ ih =>
    have hend := field_end_le begins type
    omega
  | @element len k _ elem _ _ _ inside _ ih =>
    have hend := element_end_le elem inside
    rw [Nat.succ_mul] at hend
    omega

/-- What is aligned for the object is aligned for the part, unless a packed structure is in between. -/
theorem align_dvd_align (h : Part (·.isPacked = false) ty ks offset part) :
    (natural part).align ∣ (natural ty).align := by
  induction h with
  | here ty => exact Nat.dvd_refl _
  | field enter _ type _ ih =>
    obtain rfl : _ = false := enter
    exact Nat.dvd_trans ih (align_dvd_struct type)
  | element _ _ _ ih => exact ih

theorem align_dvd (h : Part (·.isPacked = false) ty ks offset part) :
    (natural part).align ∣ offset := by
  induction h with
  | here ty => exact Nat.dvd_zero _
  | field enter begins type rest ih =>
    obtain rfl : _ = false := enter
    exact Nat.dvd_add (Nat.dvd_trans rest.align_dvd_align (align_dvd_start begins type)) ih
  | @element _ k _ elem _ _ _ _ rest ih =>
    have hstride : (natural elem).align ∣ k * (natural elem).stride :=
      Nat.dvd_mul_left_of_dvd (Extent.dvd_stride (align_pos elem)) k
    exact Nat.dvd_add (Nat.dvd_trans rest.align_dvd_align hstride) ih

/-- Paths that part ways lead to bytes that do not overlap: one part ends before the other begins. -/
theorem disjoint (h : Part P ty ks offset part) (h' : Part Q ty ks' offset' part') {n k k' : Nat}
    (hk : ks[n]? = some k) (hk' : ks'[n]? = some k') (hne : k ≠ k') :
    offset + (natural part).stride ≤ offset' ∨ offset' + (natural part').stride ≤ offset := by
  induction h generalizing ks' offset' n with
  | here ty => exact absurd hk (by simp)
  | @field fields packed i a offset t part ks _ begins type rest ih =>
    have hend := rest.end_le
    cases h' with
    | here => exact absurd hk' (by simp)
    | @field _ _ i' a' _ t' _ _ _ begins' type' rest' =>
      have hend' := rest'.end_le
      by_cases hi : i = i'
      · -- The same field: the paths part ways inside it.
        subst hi
        obtain rfl := Option.some.inj (begins.symm.trans begins')
        obtain rfl := Option.some.inj (type.symm.trans type')
        cases n with
        | zero => exact absurd ((Option.some.inj hk).symm.trans (Option.some.inj hk')) hne
        | succ n =>
          have hrest := ih rest' hk hk'
          omega
      · have hapart := fields_apart hi begins type begins' type'
        omega
  | @element len i offset elem part ks _ _ rest ih =>
    have hend := rest.end_le
    cases h' with
    | here => exact absurd hk' (by simp)
    | @element _ i' _ _ _ _ _ _ rest' =>
      have hend' := rest'.end_le
      by_cases hi : i = i'
      · subst hi
        cases n with
        | zero => exact absurd ((Option.some.inj hk).symm.trans (Option.some.inj hk')) hne
        | succ n =>
          have hrest := ih rest' hk hk'
          omega
      · have hapart := elements_apart elem hi
        omega

end Part

/-! ## Paths that a layout accepts -/

/-- What a step contributes to the byte offset if its index is the constant `w`. -/
def Step.bytes : Step → Word → Int
  | .field offset, _ => offset
  | .scaled stride, w => w.toInt * stride

/-- The value of a constant index, and zero for every other operand. -/
def Value.word (v : Value) : Word := v.asWord?.getD 0

theorem Value.word_eq {v : Value} {w : Word} (h : v.asWord? = some w) : v.word = w := by
  unfold word
  rw [h]
  rfl

/-- The byte offset that the steps of a constant path add up to. -/
def byteOffset : List Step → List Value → Int
  | step :: steps, index :: indices => step.bytes index.word + byteOffset steps indices
  | _, _ => 0

/-- Whether the index `w` stays inside a type: an array has an element of this number. Lanes of a vector
are not parts, and which fields there are is checked by the layout. -/
def Ty.Admits : Ty → Word → Prop
  | .array len _, w => 0 ≤ w.toInt ∧ w.toInt < len
  | .vector .., _ => False
  | _, _ => True

instance : ∀ (ty : Ty) (w : Word), Decidable (ty.Admits w)
  | .array .., _ => inferInstanceAs (Decidable (_ ∧ _))
  | .vector .., _ => inferInstanceAs (Decidable False)
  | .void, _ | .int _, _ | .ptr, _ | .struct .., _ | .func .., _ => inferInstanceAs (Decidable True)

namespace Layout

variable {L : Layout}

/-- The types that the indices step into, in turn. -/
def entered (L : Layout) : Ty → List Value → List Ty
  | _, [] => []
  | ty, index :: rest =>
    ty :: match L.stepInto ty index with
      | .ok (_, reached) => L.entered reached rest
      | .error _ => []

/-- The type that the indices reach. -/
def reached? (L : Layout) : Ty → List Value → Option Ty
  | ty, [] => some ty
  | ty, index :: rest =>
    match L.stepInto ty index with
    | .ok (_, reached) => L.reached? reached rest
    | .error _ => none

/-- A path that the layout accepts reaches a type. -/
theorem exists_reached {ty : Ty} {rest : List Value} {steps : List Step}
    (h : L.walk ty rest = .ok steps) : ∃ part, L.reached? ty rest = some part := by
  induction rest generalizing ty steps with
  | nil => exact ⟨ty, rfl⟩
  | cons v rest ih =>
    obtain ⟨⟨step, t⟩, hstep, h⟩ := Func.bind_eq_ok_iff.mp h
    obtain ⟨more, hmore, -⟩ := Func.bind_eq_ok_iff.mp h
    rw [reached?, hstep]
    exact ih hmore

/-- A path of constant indices that the layout accepts and that stays inside one object of the source
type: its first index is zero, and no index is past the end of an array or selects a lane. -/
structure Selects (L : Layout) (source : Ty) (indices : List Value) (steps : List Step) (part : Ty) :
    Prop where
  accepted : L.steps source indices = .ok steps
  constant : ∀ v ∈ indices, v.asWord?.isSome
  whole : indices.head?.map Value.word = some 0
  inside : ∀ p ∈ (L.entered source indices.tail).zip indices.tail, p.1.Admits p.2.word
  reached : L.reached? source indices.tail = some part

theorem toInt_eq_toNat {w : Word} (h : 0 ≤ w.toInt) : w.toInt = w.toNat := by
  have hcond := BitVec.toInt_eq_toNat_cond w
  have hlt := w.isLt
  split at hcond
  · exact hcond
  · omega

theorem field?_eq_some {fields : List Ty} {packed : Bool} {k start : Nat} {t : Ty}
    (h : L.field? fields packed k = some (start, t)) :
    L.fieldOffset? fields packed k = some start ∧ fields[k]? = some t := by
  unfold field? at h
  split at h
  · next hstart ht =>
    cases h
    exact ⟨hstart, ht⟩
  · cases h

theorem stepInto_struct {fields : List Ty} {packed : Bool} {t : Ty} {v : Value} {w : Word}
    {step : Step} (hw : v.asWord? = some w)
    (hstep : L.stepInto (.struct fields packed) v = .ok (step, t)) :
    ∃ start, fields[w.toNat]? = some t ∧ L.fieldOffset? fields packed w.toNat = some start ∧
      step = .field start := by
  simp only [stepInto, hw] at hstep
  cases hfield : (Word.index? w).bind (L.field? fields packed) with
  | none =>
    rw [hfield] at hstep
    cases hstep
  | some found =>
    rw [hfield] at hstep
    cases hstep
    obtain ⟨k, hk, hfield⟩ := Option.bind_eq_some_iff.mp hfield
    obtain rfl : w.toNat = k := by
      unfold Word.index? at hk
      split at hk
      · cases hk
      · exact Option.some.inj hk
    obtain ⟨hstart, ht⟩ := field?_eq_some hfield
    exact ⟨_, ht, hstart, rfl⟩

/-- One index that stays inside selects a field or an element. -/
theorem stepInto_cases {ty t : Ty} {v : Value} {step : Step} (hv : v.asWord?.isSome)
    (hstep : L.stepInto ty v = .ok (step, t)) (hadmits : ty.Admits v.word) :
    (∃ fields packed start, ty = .struct fields packed ∧ fields[v.word.toNat]? = some t ∧
      L.fieldOffset? fields packed v.word.toNat = some start ∧ step = .field start) ∨
      ∃ len, ty = .array len t ∧ v.word.toNat < len ∧ v.word.toInt = v.word.toNat ∧
        step = .scaled (L.stride t) := by
  obtain ⟨w, hw⟩ := Option.isSome_iff_exists.mp hv
  rw [Value.word_eq hw] at hadmits ⊢
  cases ty with
  | struct fields packed =>
    obtain ⟨start, ht, hstart, rfl⟩ := stepInto_struct hw hstep
    exact .inl ⟨fields, packed, start, rfl, ht, hstart, rfl⟩
  | array len elem =>
    obtain ⟨rfl, rfl⟩ := Prod.mk.inj (Except.ok.inj hstep)
    obtain ⟨hnonneg, hlt⟩ := hadmits
    have hint := toInt_eq_toNat hnonneg
    exact .inr ⟨len, rfl, by omega, hint, rfl⟩
  | vector len elem => exact absurd hadmits id
  | _ => cases hstep

/-- The rest of a path that stays inside leads to a part, at the offset that its steps add up to. -/
theorem exists_part {P : Ty → Prop} {ty part : Ty} {rest : List Value} {steps : List Step}
    (hwalk : lp64.walk ty rest = .ok steps) (hconstant : ∀ v ∈ rest, v.asWord?.isSome)
    (hinside : ∀ p ∈ (lp64.entered ty rest).zip rest, p.1.Admits p.2.word)
    (hreached : lp64.reached? ty rest = some part) (hP : ∀ t ∈ lp64.entered ty rest, P t) :
    ∃ offset : Nat, Part P ty (rest.map (·.word.toNat)) offset part ∧
      byteOffset steps rest = offset := by
  induction rest generalizing ty steps with
  | nil =>
    cases hwalk
    cases hreached
    exact ⟨0, .here _, rfl⟩
  | cons v rest ih =>
    cases hstep : lp64.stepInto ty v with
    | error e =>
      rw [reached?, hstep] at hreached
      cases hreached
    | ok reached =>
      obtain ⟨step, t⟩ := reached
      simp only [walk, hstep, Func.bind_eq_ok_iff, Except.ok.injEq, exists_eq_left', pure,
        Except.pure] at hwalk
      obtain ⟨more, hmore, rfl⟩ := hwalk
      rw [reached?, hstep] at hreached
      rw [List.forall_mem_cons] at hconstant
      simp only [entered, hstep, List.zip_cons_cons, List.forall_mem_cons] at hinside hP
      obtain ⟨offset, hpart, hoffset⟩ := ih hmore hconstant.2 hinside.2 hreached hP.2
      rcases stepInto_cases hconstant.1 hstep hinside.1 with
        ⟨fields, packed, start, rfl, ht, hstart, rfl⟩ | ⟨len, rfl, hlt, hint, rfl⟩
      · refine ⟨start + offset, .field hP.1 hstart ht hpart, ?_⟩
        rw [byteOffset, Step.bytes, hoffset, Int.natCast_add]
      · refine ⟨_, .element hP.1 hlt hpart, ?_⟩
        rw [byteOffset, Step.bytes, hoffset, hint, Int.natCast_add, Int.natCast_mul]
        rfl

/-- A path that stays inside an object selects a part of it. -/
theorem Selects.part {P : Ty → Prop} {source part : Ty} {indices : List Value} {steps : List Step}
    (h : lp64.Selects source indices steps part)
    (hP : ∀ t ∈ lp64.entered source indices.tail, P t) :
    ∃ offset : Nat, Part P source (indices.tail.map (·.word.toNat)) offset part ∧
      byteOffset steps indices = offset := by
  cases indices with
  | nil => cases h.whole
  | cons v rest =>
    have hzero : v.word = 0 := Option.some.inj h.whole
    obtain ⟨more, hmore, heq⟩ := Func.bind_eq_ok_iff.mp h.accepted
    cases heq
    obtain ⟨offset, hpart, hoffset⟩ := exists_part hmore
      (fun v hv => h.constant v (List.mem_cons_of_mem _ hv)) h.inside h.reached hP
    refine ⟨offset, hpart, ?_⟩
    simp [byteOffset, Step.bytes, hzero, hoffset]

end Layout

/-- What terms that depend on no variable come to in words is their sum, as far as a word goes. -/
theorem constantSum?_eq_of_fixed {steps : List Step} {indices : List Value}
    (h : ∀ t ∈ steps.zip indices, (∃ offset, t.1 = .field offset) ∨ t.2.asWord?.isSome) :
    constantSum? (steps.zip indices) = some (.ofInt 64 (byteOffset steps indices)) := by
  induction steps generalizing indices with
  | nil => rfl
  | cons step steps ih =>
    cases indices with
    | nil => rfl
    | cons v indices =>
      rw [List.zip_cons_cons, List.forall_mem_cons] at h
      rw [List.zip_cons_cons]
      cases step with
      | field offset =>
        simp [constantSum?, ih h.2, byteOffset, Step.bytes, BitVec.ofInt_add]
      | scaled stride =>
        obtain ⟨w, hw⟩ : ∃ w, v.asWord? = some w := by
          simpa [Option.isSome_iff_exists] using h.1
        simp [constantSum?, ih h.2, hw, byteOffset, Step.bytes, Value.word_eq hw, BitVec.ofInt_add,
          BitVec.ofInt_mul]

theorem constantSum?_eq_byteOffset {steps : List Step} {indices : List Value}
    (h : ∀ v ∈ indices, v.asWord?.isSome) :
    constantSum? (steps.zip indices) = some (.ofInt 64 (byteOffset steps indices)) :=
  constantSum?_eq_of_fixed fun t ht => .inr (h t.2 (List.of_mem_zip ht).2)

/-! ## The layout of 64-bit pointers -/

namespace Layout

variable {L : Layout} {source part part' : Ty} {indices indices' : List Value}
  {steps steps' : List Step}

/-- Two paths that part ways do so inside the object, because both start at its first byte. -/
theorem Selects.exists_tail_of_ne (h : L.Selects source indices steps part)
    (h' : L.Selects source indices' steps' part') {n : Nat} {v v' : Value} (hv : indices[n]? = some v)
    (hv' : indices'[n]? = some v') (hne : v.word ≠ v'.word) :
    ∃ m : Nat, indices.tail[m]? = some v ∧ indices'.tail[m]? = some v' := by
  cases n with
  | zero =>
    rw [← List.head?_eq_getElem?] at hv hv'
    have hzero := h.whole
    have hzero' := h'.whole
    rw [hv] at hzero
    rw [hv'] at hzero'
    exact absurd ((Option.some.inj hzero).trans (Option.some.inj hzero').symm) hne
  | succ m => exact ⟨m, by rw [List.getElem?_tail, hv], by rw [List.getElem?_tail, hv']⟩

/-- The fields up to one of them take the bytes up to its end, with the padding behind them. -/
theorem size_struct_take {fields : List Ty} {packed : Bool} {k : Nat} {t : Ty}
    (ht : fields[k]? = some t) : ∃ start, lp64.fieldOffset? fields packed k = some start ∧
      let upTo := lp64.extent (.struct (fields.take (k + 1)) packed)
      upTo.size = alignUp (start + lp64.stride t) upTo.align := by
  have he := Ty.getElem?_map_padded ht
  have hfinish : Extent.finish packed 0 ((Ty.naturals (fields.take (k + 1))).map Extent.padded) =
      (Ty.natural t).padded.place packed
        (Extent.finish packed 0 ((fields.map (·.natural.padded)).take k)) +
          (Ty.natural t).stride := by
    rw [Ty.map_padded_naturals, List.map_take, Extent.finish_take_succ he]
    rfl
  refine ⟨_, ?_, congrArg (alignUp · _) hfinish⟩
  show (Ty.starts fields packed)[k]? = _
  rw [Ty.starts, Extent.getElem?_starts, he]
  rfl

/-- Every path that is accepted reaches a type, and constant paths that stay inside an object of the
source type select parts of it. A part lies inside the object and begins where the sum of the steps says,
which is also what is computed in words. It is aligned for its type, unless the path goes through a packed
structure. Two paths that part ways lead to bytes that do not overlap. The offsets of fields and the sizes
of structures come from one placement: a structure ends with its last field. -/
theorem lp64_selects_parts (source : Ty) :
    (∀ (indices : List Value) (steps : List Step), lp64.steps source indices = .ok steps →
      ∃ part, lp64.reached? source indices.tail = some part) ∧
    (∀ (indices : List Value) (steps : List Step) (part : Ty),
      lp64.Selects source indices steps part →
      let offset := byteOffset steps indices
      0 ≤ offset ∧ offset + lp64.stride part ≤ lp64.stride source ∧
        constantSum? (steps.zip indices) = some (.ofInt 64 offset) ∧
          ((∀ t ∈ lp64.entered source indices.tail, t.isPacked = false) →
            ((lp64.extent part).align : Int) ∣ offset)) ∧
      (∀ (indices indices' : List Value) (steps steps' : List Step) (part part' : Ty),
        lp64.Selects source indices steps part → lp64.Selects source indices' steps' part' →
        (∃ (n : Nat) (v v' : Value),
          indices[n]? = some v ∧ indices'[n]? = some v' ∧ v.word ≠ v'.word) →
          byteOffset steps indices + lp64.stride part ≤ byteOffset steps' indices' ∨
            byteOffset steps' indices' + lp64.stride part' ≤ byteOffset steps indices) ∧
      ∀ (fields : List Ty) (packed : Bool) (k : Nat) (t : Ty), fields[k]? = some t →
        ∃ start, lp64.fieldOffset? fields packed k = some start ∧
          let upTo := lp64.extent (.struct (fields.take (k + 1)) packed)
          upTo.size = alignUp (start + lp64.stride t) upTo.align := by
  refine ⟨?_, ?_, ?_, fun _ _ _ _ ht => size_struct_take ht⟩
  · intro indices steps h
    cases indices with
    | nil => exact ⟨source, rfl⟩
    | cons v rest =>
      obtain ⟨more, hmore, -⟩ := Func.bind_eq_ok_iff.mp h
      exact exists_reached hmore
  · intro indices steps part h
    obtain ⟨offset, hpart, hoffset⟩ := h.part (P := fun _ => True) fun _ _ => trivial
    have hend : offset + lp64.stride part ≤ lp64.stride source := hpart.end_le
    refine ⟨by omega, by omega, constantSum?_eq_byteOffset h.constant, fun hunpacked => ?_⟩
    obtain ⟨offset, hpart, hoffset⟩ := h.part hunpacked
    rw [hoffset]
    exact Int.natCast_dvd_natCast.mpr hpart.align_dvd
  · rintro indices indices' steps steps' part part' h h' ⟨n, v, v', hv, hv', hne⟩
    obtain ⟨m, hm, hm'⟩ := h.exists_tail_of_ne h' hv hv' hne
    obtain ⟨offset, hpart, hoffset⟩ := h.part (P := fun _ => True) fun _ _ => trivial
    obtain ⟨offset', hpart', hoffset'⟩ := h'.part (P := fun _ => True) fun _ _ => trivial
    have hk : (indices.tail.map (·.word.toNat))[m]? = some v.word.toNat := by
      rw [List.getElem?_map, hm]
      rfl
    have hk' : (indices'.tail.map (·.word.toNat))[m]? = some v'.word.toNat := by
      rw [List.getElem?_map, hm']
      rfl
    have hapart := hpart.disjoint hpart' hk hk' fun heq => hne (BitVec.eq_of_toNat_eq heq)
    rw [hoffset, hoffset']
    exact_mod_cast hapart

/-- A structure with packed pairs, an empty field, a vector and an integer of odd width. -/
def record : Ty :=
  .struct [.int 1, .array 3 (.struct [.int 8, .int 32] true), .struct [] false, .vector 3 (.int 32),
    .int 24, .array 2 (.int 64)] false

/-- A path to the last word of the last pair, and one to the second element of the last field. -/
theorem record_selects_parts :
    let word := fun n => Value.ofWord n 64
    let pair := [word 0, word 1, word 2, word 1]
    let last := [word 0, word 5, word 1]
    let toPair : List Step := [.scaled 64, .field 1, .scaled 5, .field 1]
    let toLast : List Step := [.scaled 64, .field 40, .scaled 8]
    lp64.Selects record pair toPair (.int 32) ∧ lp64.Selects record last toLast (.int 64) ∧
      byteOffset toPair pair = 12 ∧ byteOffset toLast last = 48 ∧
      (byteOffset toPair pair + lp64.stride (.int 32) ≤ byteOffset toLast last ∨
        byteOffset toLast last + lp64.stride (.int 64) ≤ byteOffset toPair pair) ∧
      byteOffset toLast last + lp64.stride (.int 64) ≤ lp64.stride record ∧
        ((lp64.extent (.int 64)).align : Int) ∣ byteOffset toLast last := by
  intro word pair last toPair toLast
  have hpair : lp64.Selects record pair toPair (.int 32) :=
    ⟨rfl, by decide, by decide, by decide +kernel, by decide +kernel⟩
  have hlast : lp64.Selects record last toLast (.int 64) :=
    ⟨rfl, by decide, by decide, by decide +kernel, by decide +kernel⟩
  obtain ⟨-, hinside, hdisjoint, -⟩ := lp64_selects_parts record
  obtain ⟨-, hend, -, haligned⟩ := hinside last toLast _ hlast
  refine ⟨hpair, hlast, by decide, by decide, ?_, hend, haligned (by decide +kernel)⟩
  exact hdisjoint pair last toPair toLast _ _ hpair hlast ⟨1, word 1, word 5, rfl, rfl, by decide⟩

end Layout

end PtrTag
