import PtrTag.Layout.Extent

/-!
# `PtrTag/Proofs/Layout/Extent.lean` — alignments, and fields side by side

Two facts about extents carry everything that is said about addresses inside an object. All alignments
are powers of two, so of two alignments the smaller divides the larger, and what is aligned for a whole
structure is aligned for each of its fields. And fields are placed one behind the other: where a field
begins can be read off the fields before it (`Extent.getElem?_starts`), in the same way as the end of
the whole, so that the end of each field is not behind the beginning of the next.
-/

set_option autoImplicit false

namespace PtrTag

/-! ## Rounding up -/

theorem le_alignUp (n align : Nat) : n ≤ alignUp n align := by
  unfold alignUp
  split
  · exact Nat.le_refl n
  · next h =>
    have hdiv := Nat.div_add_mod (n + align - 1) align
    have hmod := Nat.mod_lt (n + align - 1) (by omega : 0 < align)
    rw [Nat.mul_comm]
    omega

theorem dvd_alignUp (n : Nat) {align : Nat} (h : 0 < align) : align ∣ alignUp n align := by
  unfold alignUp
  split
  · next hle =>
    obtain rfl : align = 1 := Nat.le_antisymm hle h
    exact Nat.one_dvd n
  · exact Nat.dvd_mul_left align _

/-! ## Powers of two -/

theorem isPowerOfTwo_ceilPow2 (n : Nat) : (ceilPow2 n).isPowerOfTwo := by
  unfold ceilPow2
  split
  · exact Nat.isPowerOfTwo_one
  · exact ⟨_, Nat.one_shiftLeft _⟩

theorem isPowerOfTwo_min {a b : Nat} (ha : a.isPowerOfTwo) (hb : b.isPowerOfTwo) :
    (min a b).isPowerOfTwo := by
  rcases Nat.le_total a b with h | h
  · rwa [Nat.min_eq_left h]
  · rwa [Nat.min_eq_right h]

theorem isPowerOfTwo_max {a b : Nat} (ha : a.isPowerOfTwo) (hb : b.isPowerOfTwo) :
    (max a b).isPowerOfTwo := by
  rcases Nat.le_total a b with h | h
  · rwa [Nat.max_eq_right h]
  · rwa [Nat.max_eq_left h]

/-- Of two powers of two, the smaller divides the larger. -/
theorem dvd_of_isPowerOfTwo {a b : Nat} (ha : a.isPowerOfTwo) (hb : b.isPowerOfTwo) (h : a ≤ b) :
    a ∣ b := by
  obtain ⟨j, rfl⟩ := ha
  obtain ⟨k, rfl⟩ := hb
  exact Nat.pow_dvd_pow 2 ((Nat.pow_le_pow_iff_right Nat.one_lt_two).mp h)

namespace Extent

variable {e : Extent} {es : List Extent} {packed : Bool} {cursor k : Nat}

theorem isPowerOfTwo_maxAlign (h : ∀ e ∈ es, e.align.isPowerOfTwo) : (maxAlign es).isPowerOfTwo := by
  induction es with
  | nil => exact Nat.isPowerOfTwo_one
  | cons e es ih =>
    rw [List.forall_mem_cons] at h
    exact isPowerOfTwo_max h.1 (ih h.2)

theorem le_maxAlign (h : e ∈ es) : e.align ≤ maxAlign es := by
  induction es with
  | nil => exact absurd h List.not_mem_nil
  | cons e' es ih =>
    rcases List.mem_cons.mp h with rfl | h
    · exact Nat.le_max_left _ _
    · exact Nat.le_trans (ih h) (Nat.le_max_right _ _)

/-- A structure is aligned for each of its fields, unless it is packed. -/
theorem dvd_maxAlign (h : ∀ e ∈ es, e.align.isPowerOfTwo) (he : e ∈ es) : e.align ∣ maxAlign es :=
  dvd_of_isPowerOfTwo (h e he) (isPowerOfTwo_maxAlign h) (le_maxAlign he)

/-! ## Fields side by side -/

theorem le_place (packed : Bool) (cursor : Nat) (e : Extent) : cursor ≤ e.place packed cursor := by
  unfold place
  split
  · exact Nat.le_refl cursor
  · exact le_alignUp cursor e.align

theorem le_finish (packed : Bool) (cursor : Nat) (es : List Extent) :
    cursor ≤ finish packed cursor es := by
  induction es generalizing cursor with
  | nil => exact Nat.le_refl cursor
  | cons e es ih =>
    calc cursor ≤ e.place packed cursor := le_place packed cursor e
      _ ≤ e.place packed cursor + e.size := Nat.le_add_right _ _
      _ ≤ finish packed (e.place packed cursor + e.size) es := ih _

theorem finish_append (packed : Bool) (cursor : Nat) (es es' : List Extent) :
    finish packed cursor (es ++ es') = finish packed (finish packed cursor es) es' := by
  induction es generalizing cursor with
  | nil => rfl
  | cons e es ih => exact ih _

/-- A field begins at the first place for it behind the fields before it. -/
theorem getElem?_starts (packed : Bool) (cursor : Nat) (es : List Extent) (k : Nat) :
    (starts packed cursor es)[k]? =
      es[k]?.map fun e => e.place packed (finish packed cursor (es.take k)) := by
  induction es generalizing cursor k with
  | nil => rfl
  | cons e es ih =>
    cases k with
    | zero => rfl
    | succ k => exact ih _ k

/-- Behind a field, the fields up to it end. -/
theorem finish_take_succ (h : es[k]? = some e) : finish packed cursor (es.take (k + 1)) =
    e.place packed (finish packed cursor (es.take k)) + e.size := by
  rw [List.take_add_one, h, finish_append]
  rfl

theorem finish_take_le {j : Nat} (h : j ≤ k) :
    finish packed cursor (es.take j) ≤ finish packed cursor (es.take k) := by
  have hsplit := List.take_append_drop j (es.take k)
  rw [List.take_take, Nat.min_eq_left h] at hsplit
  rw [← hsplit, finish_append]
  exact le_finish packed _ _

/-- A field ends before a later field begins. -/
theorem start_add_size_le_start {j a b : Nat} {e' : Extent} (hjk : j < k)
    (ha : (starts packed cursor es)[j]? = some a) (he : es[j]? = some e)
    (hb : (starts packed cursor es)[k]? = some b) (he' : es[k]? = some e') : a + e.size ≤ b := by
  rw [getElem?_starts, he] at ha
  rw [getElem?_starts, he'] at hb
  obtain rfl := Option.some.inj ha
  obtain rfl := Option.some.inj hb
  rw [← finish_take_succ he]
  exact Nat.le_trans (finish_take_le hjk) (le_place packed _ e')

/-- A field ends before the structure does. -/
theorem start_add_size_le_finish {a : Nat} (ha : (starts packed cursor es)[k]? = some a)
    (he : es[k]? = some e) : a + e.size ≤ finish packed cursor es := by
  rw [getElem?_starts, he] at ha
  obtain rfl := Option.some.inj ha
  rw [← finish_take_succ he]
  have hall : finish packed cursor (es.take (max (k + 1) es.length)) = finish packed cursor es := by
    rw [List.take_of_length_le (Nat.le_max_right _ _)]
  rw [← hall]
  exact finish_take_le (Nat.le_max_left _ _)

theorem dvd_start {a : Nat} (hpos : 0 < e.align) (ha : (starts false cursor es)[k]? = some a)
    (he : es[k]? = some e) : e.align ∣ a := by
  rw [getElem?_starts, he] at ha
  obtain rfl := Option.some.inj ha
  exact dvd_alignUp _ hpos

theorem size_le_stride (e : Extent) : e.size ≤ e.stride := le_alignUp e.size e.align

theorem dvd_stride (hpos : 0 < e.align) : e.align ∣ e.stride := dvd_alignUp e.size hpos

end Extent

/-! ## Types -/

namespace Ty

mutual

/-- Every type is aligned to a power of two. -/
theorem isPowerOfTwo_align : ∀ ty : Ty, (natural ty).align.isPowerOfTwo
  | .void | .func .. => Nat.isPowerOfTwo_one
  | .int bits => isPowerOfTwo_min (isPowerOfTwo_ceilPow2 _) ⟨4, rfl⟩
  | .ptr => ⟨3, rfl⟩
  | .array _ elem => isPowerOfTwo_align elem
  | .vector _ _ => isPowerOfTwo_ceilPow2 _
  | .struct fields packed => by
    show (if packed then 1 else Extent.maxAlign (naturals fields)).isPowerOfTwo
    split
    · exact Nat.isPowerOfTwo_one
    · exact Extent.isPowerOfTwo_maxAlign (isPowerOfTwo_aligns fields)

theorem isPowerOfTwo_aligns : ∀ tys : List Ty, ∀ e ∈ naturals tys, e.align.isPowerOfTwo
  | [] => fun _ he => absurd he List.not_mem_nil
  | ty :: tys => List.forall_mem_cons.mpr ⟨isPowerOfTwo_align ty, isPowerOfTwo_aligns tys⟩

end

theorem align_pos (ty : Ty) : 0 < (natural ty).align :=
  Nat.pos_of_isPowerOfTwo (isPowerOfTwo_align ty)

end Ty

end PtrTag
