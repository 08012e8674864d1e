import PtrTag.Ty.Text
import Mathlib.Data.List.Induction

/-!
# `PtrTag/Proofs/Ty/Text.lean` — a text stands for one type

Read from the front, the text of a type does not show where it ends: `i8` may go on to `i80`, and `ptr`
to `ptr (i8)`. Read **from the back** it does. Every form but an integer closes with a mark of its own,
the digits of an integer end at its `i`, and the result of a function type comes last. So whatever text
ends in the text of a type ends in that of no other one (`Ty.EndsAlone`), and nothing has to be known of
what stands before it.

One mark closes two forms: `>` ends a vector and a packed structure. Both have the text of a type before
it, the packed structure that of its padded twin, and what is left then tells them apart.
-/

set_option autoImplicit false

namespace PtrTag

/-! ## Texts from the back -/

/-- The characters of a text, the last one first. -/
def backwards (s : String) : List Char := s.toList.reverse

@[simp] theorem backwards_append (s t : String) : backwards (s ++ t) = backwards t ++ backwards s := by
  simp [backwards]

theorem backwards_toString (n : Nat) : backwards (toString n) = (Nat.toDigits 10 n).reverse := by
  rw [backwards, Nat.toString_eq_repr, Nat.toList_repr]

theorem isDigit_of_mem_backwards {n : Nat} {c : Char} (h : c ∈ backwards (toString n)) :
    c.isDigit = true := by
  rw [backwards_toString, List.mem_reverse] at h
  exact Nat.isDigit_of_mem_toDigits (by decide) (by decide) h

/-- A number is read up to the first character that is no digit. -/
theorem number_inj {m n : Nat} {c : Char} (hc : c.isDigit = false) {u v : List Char}
    (h : backwards (toString m) ++ c :: u = backwards (toString n) ++ c :: v) : m = n ∧ u = v := by
  have hread : ∀ (k : Nat) (w : List Char),
      (backwards (toString k) ++ c :: w).takeWhile Char.isDigit = backwards (toString k) := by
    intro k w
    rw [List.takeWhile_append_of_pos fun _ => isDigit_of_mem_backwards,
      List.takeWhile_cons_of_neg (by simp [hc]), List.append_nil]
  have hdigits : backwards (toString m) = backwards (toString n) := by
    rw [← hread m u, h, hread n v]
  constructor
  · rw [backwards_toString, backwards_toString, List.reverse_inj] at hdigits
    rw [← Nat.ofDigitChars_ten_toDigits (n := m), hdigits, Nat.ofDigitChars_ten_toDigits]
  · rw [hdigits, List.append_cancel_left_eq, List.cons.injEq] at h
    exact h.2

/-! ## Lists of texts -/

/-- A text that ends in neither a blank nor a bracket that opens a list. -/
def IsItem (x : String) : Prop := ∃ c cs, backwards x = c :: cs ∧ c ≠ ' ' ∧ c ≠ '('

/-- What stands before a list, from the back: the bracket that opens it. -/
inductive OpensList : List Char → Prop
  | curly (u : List Char) : OpensList (' ' :: '{' :: u)
  | round (u : List Char) : OpensList ('(' :: u)

theorem OpensList.ne_item {u : List Char} (h : OpensList u) {x : String} (hx : IsItem x)
    (w : List Char) : u ≠ backwards x ++ w := by
  obtain ⟨c, cs, hback, hblank, hround⟩ := hx
  rw [hback]
  intro heq
  cases h with
  | curly u => exact hblank (List.cons.inj heq).1.symm
  | round u => exact hround (List.cons.inj heq).1.symm

theorem OpensList.ne_comma {u : List Char} (h : OpensList u) (w : List Char) :
    u ≠ ' ' :: ',' :: w := by
  rintro rfl
  cases h

theorem backwards_commaSep_concat (xs : List String) (x : String) :
    backwards (commaSep (xs ++ [x])) =
      backwards x ++ if xs = [] then [] else ' ' :: ',' :: backwards (commaSep xs) := by
  induction xs with
  | nil => simp [commaSep]
  | cons y xs ih =>
    cases xs with
    | nil => simp [commaSep, backwards]
    | cons z xs =>
      simp only [List.cons_append, commaSep, backwards_append] at ih ⊢
      rw [ih]
      simp

/-- Lists of items are told apart by their texts if the items are. -/
theorem commaSep_inj {xs ys : List String} {u v : List Char}
    (hone : ∀ x ∈ xs, ∀ y ∈ ys, ∀ u v, backwards x ++ u = backwards y ++ v → x = y ∧ u = v)
    (hx : ∀ x ∈ xs, IsItem x) (hy : ∀ y ∈ ys, IsItem y) (hu : OpensList u) (hv : OpensList v)
    (h : backwards (commaSep xs) ++ u = backwards (commaSep ys) ++ v) : xs = ys ∧ u = v := by
  -- The last item is met first, so the induction is from the end of the list.
  induction xs using List.reverseRecOn generalizing ys with
  | nil =>
    cases ys using List.reverseRecOn with
    | nil => exact ⟨rfl, h⟩
    | append_singleton ys y =>
      rw [backwards_commaSep_concat, List.append_assoc] at h
      exact absurd h (hu.ne_item (hy y (by simp)) _)
  | append_singleton xs x ih =>
    cases ys using List.reverseRecOn with
    | nil =>
      rw [backwards_commaSep_concat, List.append_assoc] at h
      exact absurd h.symm (hv.ne_item (hx x (by simp)) _)
    | append_singleton ys y =>
      rw [backwards_commaSep_concat, backwards_commaSep_concat, List.append_assoc,
        List.append_assoc] at h
      obtain ⟨rfl, hrest⟩ := hone x (by simp) y (by simp) _ _ h
      by_cases hxs : xs = []
      · by_cases hys : ys = []
        · rw [if_pos hxs, if_pos hys] at hrest
          exact ⟨by rw [hxs, hys], hrest⟩
        · rw [if_pos hxs, if_neg hys] at hrest
          exact absurd hrest (hu.ne_comma _)
      · by_cases hys : ys = []
        · rw [if_neg hxs, if_pos hys] at hrest
          exact absurd hrest.symm (hv.ne_comma _)
        · rw [if_neg hxs, if_neg hys] at hrest
          obtain ⟨rfl, huv⟩ := ih (fun a ha b hb => hone a (by simp [ha]) b (by simp [hb]))
            (fun a ha => hx a (by simp [ha])) (fun b hb => hy b (by simp [hb]))
            (List.cons.inj (List.cons.inj hrest).2).2
          exact ⟨rfl, huv⟩

namespace Ty

/-! ## How a type closes -/

/-- What the last character of a text tells about the type. -/
inductive Closing where
  | void
  | digit
  | ptr
  | square
  | angle
  | curly
  | round
  deriving DecidableEq

def Closing.ofChar? (c : Char) : Option Closing :=
  if c.isDigit then some .digit
  else if c = 'd' then some .void
  else if c = 'r' then some .ptr
  else if c = ']' then some .square
  else if c = '>' then some .angle
  else if c = '}' then some .curly
  else if c = ')' then some .round
  else none

def closing : Ty → Closing
  | .void => .void
  | .int _ => .digit
  | .ptr => .ptr
  | .array .. => .square
  | .vector .. | .struct _ true => .angle
  | .struct _ false => .curly
  | .func .. => .round

/-! ## The texts from the back -/

theorem backwards_array (n : Nat) (e : Ty) : backwards (text (.array n e)) =
    ']' :: (backwards e.text ++ ' ' :: 'x' :: ' ' :: (backwards (toString n) ++ ['['])) := by
  simp [text, backwards]

theorem backwards_vector (n : Nat) (e : Ty) : backwards (text (.vector n e)) =
    '>' :: (backwards e.text ++ ' ' :: 'x' :: ' ' :: (backwards (toString n) ++ ['<'])) := by
  simp [text, backwards]

/-- The texts that stand in a list of types; the mark of a variable argument list is one of them. -/
def items (types : List Ty) (varargs : Bool) : List String :=
  types.map text ++ if varargs then ["..."] else []

theorem backwards_struct (fields : List Ty) : backwards (text (.struct fields false)) =
    '}' :: ' ' :: (backwards (commaSep (items fields false)) ++ [' ', '{']) := by
  simp [text, texts_eq_map, items, backwards]

theorem backwards_packed (fields : List Ty) : backwards (text (.struct fields true)) =
    '>' :: (backwards (text (.struct fields false)) ++ ['<']) := by
  simp [text, backwards]

theorem backwards_func (ret : Ty) (params : List Ty) (varargs : Bool) :
    backwards (text (.func ret params varargs)) =
      ')' :: (backwards (commaSep (items params varargs)) ++ '(' :: ' ' :: backwards ret.text) := by
  simp [text, texts_eq_map, items, backwards]

theorem exists_closing (t : Ty) :
    ∃ c cs, backwards t.text = c :: cs ∧ Closing.ofChar? c = some t.closing := by
  cases t with
  | void => exact ⟨'d', ['i', 'o', 'v'], by decide, by decide⟩
  | ptr => exact ⟨'r', ['t', 'p'], by decide, by decide⟩
  | int bits =>
    cases hd : backwards (toString bits) with
    | nil =>
      rw [backwards_toString, List.reverse_eq_nil_iff] at hd
      exact absurd hd Nat.toDigits_ne_nil
    | cons c cs =>
      have hc : c.isDigit = true := by
        refine isDigit_of_mem_backwards (n := bits) ?_
        rw [hd]
        exact List.mem_cons_self
      refine ⟨c, cs ++ ['i'], ?_, if_pos hc⟩
      rw [text, backwards_append, hd]
      rfl
  | array n e => exact ⟨_, _, backwards_array n e, rfl⟩
  | vector n e => exact ⟨_, _, backwards_vector n e, rfl⟩
  | struct fields packed =>
    cases packed with
    | false => exact ⟨_, _, backwards_struct fields, rfl⟩
    | true => exact ⟨_, _, backwards_packed fields, rfl⟩
  | func ret params varargs => exact ⟨_, _, backwards_func ret params varargs, rfl⟩

theorem closing_eq {s t : Ty} {u v : List Char}
    (h : backwards s.text ++ u = backwards t.text ++ v) : s.closing = t.closing := by
  obtain ⟨c, cs, hs, hc⟩ := exists_closing s
  obtain ⟨d, ds, ht, hd⟩ := exists_closing t
  rw [hs, ht, List.cons_append, List.cons_append, List.cons.injEq] at h
  rw [h.1, hd] at hc
  exact (Option.some.inj hc).symm

/-- A text of a type does not end in a character that closes no type. -/
theorem ne_cons {c : Char} (hc : Closing.ofChar? c = none) (t : Ty) (u w : List Char) :
    backwards t.text ++ u ≠ c :: w := by
  obtain ⟨d, ds, ht, hd⟩ := exists_closing t
  intro h
  rw [ht, List.cons_append, List.cons.injEq] at h
  rw [h.1, hc] at hd
  cases hd

theorem isItem_text (t : Ty) : IsItem t.text := by
  obtain ⟨c, cs, hback, -⟩ := exists_closing t
  refine ⟨c, cs, hback, ?_, ?_⟩
  · rintro rfl
    exact ne_cons (c := ' ') (by decide) t [] cs (by rw [hback, List.append_nil])
  · rintro rfl
    exact ne_cons (c := '(') (by decide) t [] cs (by rw [hback, List.append_nil])

theorem isItem_of_mem_items {types : List Ty} {varargs : Bool} {x : String}
    (hx : x ∈ items types varargs) : IsItem x := by
  rcases List.mem_append.mp hx with hx | hx
  · obtain ⟨t, -, rfl⟩ := List.mem_map.mp hx
    exact isItem_text t
  · cases varargs with
    | false => cases hx
    | true =>
      obtain rfl := List.mem_singleton.mp hx
      exact ⟨'.', ['.', '.'], by decide, by decide, by decide⟩

/-! ## One lemma for each form -/

/-- A text that ends in that of `s` ends in that of no other type. -/
def EndsAlone (s : Ty) : Prop :=
  ∀ (t : Ty) (u v : List Char), backwards s.text ++ u = backwards t.text ++ v → s = t ∧ u = v

/-- One type only closes as `s` does. -/
theorem endsAlone_of_closing {s : Ty} (h : ∀ t : Ty, s.closing = t.closing → s = t) :
    s.EndsAlone := by
  intro t u v heq
  obtain rfl := h t (closing_eq heq)
  exact ⟨rfl, List.append_cancel_left heq⟩

theorem endsAlone_void : EndsAlone .void := by
  refine endsAlone_of_closing fun t h => ?_
  cases t with
  | void => rfl
  | struct fields packed => cases packed <;> cases h
  | _ => cases h

theorem endsAlone_ptr : EndsAlone .ptr := by
  refine endsAlone_of_closing fun t h => ?_
  cases t with
  | ptr => rfl
  | struct fields packed => cases packed <;> cases h
  | _ => cases h

theorem endsAlone_int (bits : Nat) : EndsAlone (.int bits) := by
  intro t u v h
  have hclose := closing_eq h
  cases t with
  | int bits' =>
    simp only [text, backwards_append, List.append_assoc] at h
    obtain ⟨rfl, huv⟩ := number_inj (c := 'i') (by decide) h
    exact ⟨rfl, huv⟩
  | struct fields packed => cases packed <;> cases hclose
  | _ => cases hclose

/-- An element type, and how many elements there are, up to the bracket that opens the whole. -/
theorem EndsAlone.counted {e e' : Ty} (he : e.EndsAlone) {m n : Nat} {c : Char}
    (hc : c.isDigit = false) {u v : List Char}
    (h : backwards e.text ++ ' ' :: 'x' :: ' ' :: (backwards (toString m) ++ c :: u) =
      backwards e'.text ++ ' ' :: 'x' :: ' ' :: (backwards (toString n) ++ c :: v)) :
    e = e' ∧ m = n ∧ u = v := by
  obtain ⟨rfl, hrest⟩ := he e' _ _ h
  simp only [List.cons.injEq, true_and] at hrest
  exact ⟨rfl, number_inj hc hrest⟩

theorem EndsAlone.array {e : Ty} (he : e.EndsAlone) (n : Nat) : EndsAlone (.array n e) := by
  intro t u v h
  have hclose := closing_eq h
  cases t with
  | array m e' =>
    simp only [backwards_array, List.cons_append, List.append_assoc, List.nil_append,
      List.cons.injEq, true_and] at h
    obtain ⟨rfl, rfl, huv⟩ := he.counted (by decide) h
    exact ⟨rfl, huv⟩
  | struct fields packed => cases packed <;> cases hclose
  | _ => cases hclose

theorem EndsAlone.vector {e : Ty} (he : e.EndsAlone) (n : Nat) : EndsAlone (.vector n e) := by
  intro t u v h
  have hclose := closing_eq h
  cases t with
  | vector m e' =>
    simp only [backwards_vector, List.cons_append, List.append_assoc, List.nil_append,
      List.cons.injEq, true_and] at h
    obtain ⟨rfl, rfl, huv⟩ := he.counted (by decide) h
    exact ⟨rfl, huv⟩
  | struct fields packed =>
    cases packed with
    | false => cases hclose
    | true =>
      -- The element would be the padded twin, but before that stands the bracket at once.
      simp only [backwards_vector, backwards_packed, List.cons_append, List.append_assoc,
        List.nil_append, List.cons.injEq, true_and] at h
      obtain ⟨-, hrest⟩ := he _ _ _ h
      exact absurd (List.cons.inj hrest).1 (by decide)
  | _ => cases hclose

theorem EndsAlone.packed {fields : List Ty} (h : EndsAlone (.struct fields false)) :
    EndsAlone (.struct fields true) := by
  intro t u v heq
  have hclose := closing_eq heq
  cases t with
  | vector n e =>
    simp only [backwards_vector, backwards_packed, List.cons_append, List.append_assoc,
      List.nil_append, List.cons.injEq, true_and] at heq
    obtain ⟨-, hrest⟩ := h _ _ _ heq
    exact absurd (List.cons.inj hrest).1 (by decide)
  | struct fields' packed =>
    cases packed with
    | false => cases hclose
    | true =>
      simp only [backwards_packed, List.cons_append, List.append_assoc, List.nil_append,
        List.cons.injEq, true_and] at heq
      obtain ⟨htwin, hrest⟩ := h _ _ _ heq
      cases htwin
      exact ⟨rfl, (List.cons.inj hrest).2⟩
  | _ => cases hclose

/-! ## Lists of types -/

section Lists

variable {ss ts : List Ty} {varargs varargs' : Bool} {u v : List Char}

theorem eq_of_map_text_eq (hss : ∀ s ∈ ss, s.EndsAlone) (h : ss.map text = ts.map text) :
    ss = ts := by
  induction ss generalizing ts with
  | nil => exact (List.map_eq_nil_iff.mp h.symm).symm
  | cons s ss ih =>
    cases ts with
    | nil => cases h
    | cons t ts =>
      rw [List.map_cons, List.map_cons, List.cons.injEq] at h
      rw [List.forall_mem_cons] at hss
      obtain ⟨rfl, -⟩ := hss.1 t [] [] (by rw [h.1])
      rw [ih hss.2 h.2]

theorem item_inj (hss : ∀ s ∈ ss, s.EndsAlone) {x y : String} (hx : x ∈ items ss varargs)
    (hy : y ∈ items ts varargs') (h : backwards x ++ u = backwards y ++ v) : x = y ∧ u = v := by
  have hdots : ∀ {b : Bool} {z : String}, z ∈ (if b then ["..."] else []) → z = "..." := by
    intro b z hz
    cases b with
    | false => cases hz
    | true => exact List.mem_singleton.mp hz
  rcases List.mem_append.mp hx with hx | hx
  · obtain ⟨s, hs, rfl⟩ := List.mem_map.mp hx
    rcases List.mem_append.mp hy with hy | hy
    · obtain ⟨t, -, rfl⟩ := List.mem_map.mp hy
      obtain ⟨rfl, huv⟩ := hss s hs t u v h
      exact ⟨rfl, huv⟩
    · rw [hdots hy] at h
      exact absurd h (ne_cons (by decide) s _ _)
  · rw [hdots hx] at h ⊢
    rcases List.mem_append.mp hy with hy | hy
    · obtain ⟨t, -, rfl⟩ := List.mem_map.mp hy
      exact absurd h.symm (ne_cons (by decide) t _ _)
    · rw [hdots hy] at h ⊢
      exact ⟨rfl, List.append_cancel_left h⟩

theorem items_inj (hss : ∀ s ∈ ss, s.EndsAlone) (h : items ss varargs = items ts varargs') :
    ss = ts ∧ varargs = varargs' := by
  have hnot : ∀ types : List Ty, "..." ∉ types.map text := by
    intro types hmem
    obtain ⟨t, -, ht⟩ := List.mem_map.mp hmem
    exact ne_cons (c := '.') (by decide) t [] ['.', '.'] (by rw [ht]; rfl)
  cases varargs with
  | false =>
    cases varargs' with
    | false =>
      simp only [items, Bool.false_eq_true, if_false, List.append_nil] at h
      exact ⟨eq_of_map_text_eq hss h, rfl⟩
    | true =>
      have hmem : "..." ∈ items ss false := by rw [h]; simp [items]
      exact absurd (by simpa [items] using hmem) (hnot ss)
  | true =>
    cases varargs' with
    | false =>
      have hmem : "..." ∈ items ts false := by rw [← h]; simp [items]
      exact absurd (by simpa [items] using hmem) (hnot ts)
    | true => exact ⟨eq_of_map_text_eq hss (List.append_cancel_right h), rfl⟩

theorem commaSep_items_inj (hss : ∀ s ∈ ss, s.EndsAlone) (hu : OpensList u) (hv : OpensList v)
    (h : backwards (commaSep (items ss varargs)) ++ u =
      backwards (commaSep (items ts varargs')) ++ v) :
    ss = ts ∧ varargs = varargs' ∧ u = v := by
  obtain ⟨hitems, huv⟩ := commaSep_inj (fun x hx y hy _ _ => item_inj hss hx hy)
    (fun _ => isItem_of_mem_items) (fun _ => isItem_of_mem_items) hu hv h
  obtain ⟨rfl, rfl⟩ := items_inj hss hitems
  exact ⟨rfl, rfl, huv⟩

end Lists

theorem endsAlone_struct {fields : List Ty} (hfields : ∀ s ∈ fields, s.EndsAlone) :
    EndsAlone (.struct fields false) := by
  intro t u v h
  have hclose := closing_eq h
  cases t with
  | struct fields' packed =>
    cases packed with
    | true => cases hclose
    | false =>
      simp only [backwards_struct, List.cons_append, List.append_assoc, List.nil_append,
        List.cons.injEq, true_and] at h
      obtain ⟨rfl, -, huv⟩ := commaSep_items_inj hfields (.curly u) (.curly v) h
      exact ⟨rfl, (List.cons.inj (List.cons.inj huv).2).2⟩
  | _ => cases hclose

theorem EndsAlone.func {ret : Ty} (hret : ret.EndsAlone) {params : List Ty}
    (hparams : ∀ s ∈ params, s.EndsAlone) (varargs : Bool) :
    EndsAlone (.func ret params varargs) := by
  intro t u v h
  have hclose := closing_eq h
  cases t with
  | func ret' params' varargs' =>
    simp only [backwards_func, List.cons_append, List.append_assoc, List.cons.injEq, true_and] at h
    obtain ⟨rfl, rfl, hrest⟩ := commaSep_items_inj hparams (.round _) (.round _) h
    obtain ⟨rfl, huv⟩ := hret ret' u v (List.cons.inj (List.cons.inj hrest).2).2
    exact ⟨rfl, huv⟩
  | struct fields packed => cases packed <;> cases hclose
  | _ => cases hclose

/-! ## All types -/

mutual

theorem endsAlone : ∀ s : Ty, s.EndsAlone
  | .void => endsAlone_void
  | .int bits => endsAlone_int bits
  | .ptr => endsAlone_ptr
  | .array n e => (endsAlone e).array n
  | .vector n e => (endsAlone e).vector n
  | .struct fields false => endsAlone_struct (endsAlone_of_mem fields)
  | .struct fields true => (endsAlone_struct (endsAlone_of_mem fields)).packed
  | .func ret params varargs => (endsAlone ret).func (endsAlone_of_mem params) varargs

theorem endsAlone_of_mem : ∀ ss : List Ty, ∀ s ∈ ss, s.EndsAlone
  | [] => fun _ hs => absurd hs List.not_mem_nil
  | s :: ss => List.forall_mem_cons.mpr ⟨endsAlone s, endsAlone_of_mem ss⟩

end

/-- No two types have the same text. -/
theorem text_inj {s t : Ty} : s.text = t.text ↔ s = t := by
  constructor
  · intro h
    exact (endsAlone s t [] [] (by rw [h])).1
  · exact congrArg text

end Ty

end PtrTag
