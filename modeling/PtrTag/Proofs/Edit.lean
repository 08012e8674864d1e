import PtrTag.Func.Edit

/-!
# `PtrTag/Proofs/Edit.lean` — reasoning about edits

An edit has two kinds of contract, and both follow its sequencing.

* `Edit.Keeps P m`: a property `P` of functions that holds before `m` holds after it, **also if `m`
  fails**. The state of an edit survives a failure, so this is more than a statement about the
  successful runs: it speaks of every function that an edit can leave behind.
* `Edit.Yields m f Q`: from `f` the edit `m` **does succeed**, with a result and a function that `Q`
  accepts. A failure satisfies no `Yields`.

Neither rule looks into an edit. A proof about a composite edit peels one `bind` after the other, and
only the edits that change something are ever unfolded.
-/

set_option autoImplicit false

namespace PtrTag

namespace Edit

variable {α β : Type}

/-- The function that an edit leaves, whether it succeeded or failed. -/
def after (m : Edit α) (f : Func) : Func :=
  match m f with
  | .ok _ f' => f'
  | .error _ f' => f'

theorem after_of_ok {m : Edit α} {f f' : Func} {a : α} (h : m f = .ok a f') : m.after f = f' := by
  unfold after
  rw [h]

theorem after_of_error {m : Edit α} {f f' : Func} {e : Fault} (h : m f = .error e f') :
    m.after f = f' := by
  unfold after
  rw [h]

/-! ## Running a sequence -/

theorem bind_of_ok {m : Edit α} {k : α → Edit β} {f f' : Func} {a : α} (h : m f = .ok a f') :
    (m >>= k) f = k a f' := by
  show EStateM.bind m k f = _
  unfold EStateM.bind
  rw [h]

theorem bind_of_error {m : Edit α} {k : α → Edit β} {f f' : Func} {e : Fault}
    (h : m f = .error e f') : (m >>= k) f = .error e f' := by
  show EStateM.bind m k f = _
  unfold EStateM.bind
  rw [h]

theorem after_bind_of_ok {m : Edit α} {k : α → Edit β} {f f' : Func} {a : α} (h : m f = .ok a f') :
    (m >>= k).after f = (k a).after f' := by
  unfold after
  rw [bind_of_ok h]

theorem after_bind_of_error {m : Edit α} {k : α → Edit β} {f f' : Func} {e : Fault}
    (h : m f = .error e f') : (m >>= k).after f = f' :=
  after_of_error (bind_of_error h)

/-- A sequence that succeeds is a success of its first part, and then of the rest. -/
theorem ok_of_bind {m : Edit α} {k : α → Edit β} {f f' : Func} {b : β}
    (h : (m >>= k) f = .ok b f') : ∃ a f₁, m f = .ok a f₁ ∧ k a f₁ = .ok b f' := by
  cases hr : m f with
  | ok a f₁ => exact ⟨a, f₁, rfl, (bind_of_ok hr).symm.trans h⟩
  | error e f₁ => cases (bind_of_error hr).symm.trans h

theorem ask_of_ok {question : Func → Except Fault α} {f : Func} {a : α} (h : question f = .ok a) :
    ask question f = .ok a f := by
  unfold ask
  rw [h]

theorem ask_of_error {question : Func → Except Fault α} {f : Func} {e : Fault}
    (h : question f = .error e) : ask question f = .error e f := by
  unfold ask
  rw [h]

theorem ask_bind_of_ok {question : Func → Except Fault α} {k : α → Edit β} {f : Func} {a : α}
    (h : question f = .ok a) : (ask question >>= k) f = k a f :=
  bind_of_ok (ask_of_ok h)

theorem ask_bind_of_error {question : Func → Except Fault α} {k : α → Edit β} {f : Func}
    {e : Fault} (h : question f = .error e) : (ask question >>= k) f = .error e f :=
  bind_of_error (ask_of_error h)

theorem ok_of_ask_bind {question : Func → Except Fault α} {k : α → Edit β} {f f' : Func} {b : β}
    (h : (ask question >>= k) f = .ok b f') : ∃ a, question f = .ok a ∧ k a f = .ok b f' := by
  cases hq : question f with
  | ok a => exact ⟨a, rfl, (ask_bind_of_ok hq).symm.trans h⟩
  | error e => cases (ask_bind_of_error hq).symm.trans h

/-! ## What an edit keeps -/

/-- `P` survives the edit, success or not. -/
def Keeps (P : Func → Prop) (m : Edit α) : Prop := ∀ f, P f → P (m.after f)

namespace Keeps

variable {P : Func → Prop}

theorem pure (a : α) : Keeps P (Pure.pure a : Edit α) := fun _ h => h

theorem ask (question : Func → Except Fault α) : Keeps P (Edit.ask question) := by
  intro f h
  cases hq : question f with
  | ok a => rw [after_of_ok (ask_of_ok hq)]; exact h
  | error e => rw [after_of_error (ask_of_error hq)]; exact h

/-- The rule for a question at one function. The answer may be used in what follows: it is about the
very function that the rest of the edit starts from. -/
theorem after_ask_bind {question : Func → Except Fault α} {k : α → Edit β} {f : Func} (h : P f)
    (hk : ∀ a, question f = .ok a → P ((k a).after f)) : P ((Edit.ask question >>= k).after f) := by
  cases hq : question f with
  | ok a => rw [after_bind_of_ok (ask_of_ok hq)]; exact hk a hq
  | error e => rw [after_bind_of_error (ask_of_error hq)]; exact h

/-- The rule for a sequence at one function. The first part may leave a stronger property than the one
that is to be kept, and the second part may start from it. -/
theorem after_bind {Q : Func → Prop} {m : Edit α} {k : α → Edit β} {f : Func} (hm : Q (m.after f))
    (hweak : ∀ f', Q f' → P f') (hk : ∀ a f', Q f' → P ((k a).after f')) :
    P ((m >>= k).after f) := by
  cases hr : m f with
  | ok a f' =>
    rw [after_of_ok hr] at hm
    rw [after_bind_of_ok hr]
    exact hk a f' hm
  | error e f' =>
    rw [after_of_error hr] at hm
    rw [after_bind_of_error hr]
    exact hweak f' hm

theorem bind {m : Edit α} {k : α → Edit β} (hm : Keeps P m) (hk : ∀ a, Keeps P (k a)) :
    Keeps P (m >>= k) := by
  intro f h
  exact after_bind (hm f h) (fun _ h' => h') fun a f' h' => hk a f' h'

theorem map {g : α → β} {m : Edit α} (hm : Keeps P m) : Keeps P (g <$> m) := by
  rw [← bind_pure_comp]
  exact hm.bind fun _ => pure _

/-- An edit whose result nobody wants keeps the same. -/
theorem discard {m : Edit α} (hm : Keeps P m) : Keeps P (discard m) := hm.map

theorem of_ok {m : Edit α} {f f' : Func} {a : α} (hm : Keeps P m) (h : P f) (hr : m f = .ok a f') :
    P f' := by
  have hafter := hm f h
  rwa [after_of_ok hr] at hafter

end Keeps

/-! ## What an edit yields -/

/-- From `f` the edit succeeds, with a result and a function in `Q`. -/
def Yields (m : Edit α) (f : Func) (Q : α → Func → Prop) : Prop :=
  ∃ a f', m f = .ok a f' ∧ Q a f'

namespace Yields

variable {f : Func} {Q : β → Func → Prop}

theorem pure {b : β} (h : Q b f) : Yields (Pure.pure b) f Q := ⟨b, f, rfl, h⟩

theorem bind {R : α → Func → Prop} {m : Edit α} {k : α → Edit β} (hm : Yields m f R)
    (hk : ∀ a f', R a f' → Yields (k a) f' Q) : Yields (m >>= k) f Q := by
  obtain ⟨a, f', hr, ha⟩ := hm
  obtain ⟨b, f'', hr', hb⟩ := hk a f' ha
  exact ⟨b, f'', (bind_of_ok hr).trans hr', hb⟩

theorem ask_bind {question : Func → Except Fault α} {k : α → Edit β} {a : α}
    (h : question f = .ok a) (hk : Yields (k a) f Q) : Yields (Edit.ask question >>= k) f Q := by
  obtain ⟨b, f', hr, hb⟩ := hk
  exact ⟨b, f', (ask_bind_of_ok h).trans hr, hb⟩

theorem map {g : α → β} {m : Edit α} (hm : Yields m f fun a f' => Q (g a) f') :
    Yields (g <$> m) f Q := by
  rw [← bind_pure_comp]
  exact hm.bind fun _ _ h => pure h

theorem mono {R : β → Func → Prop} {m : Edit β} (hm : Yields m f R)
    (h : ∀ b f', R b f' → Q b f') : Yields m f Q := by
  obtain ⟨b, f', hr, hb⟩ := hm
  exact ⟨b, f', hr, h b f' hb⟩

end Yields

end Edit

end PtrTag
