import Mathlib

/-! What a computation with a state and exceptions leaves, said of both of its ends: of the value and the state where it
returns, and of the exception and the state where it raises. -/

namespace Base

variable {ε σ α β ι : Type} {act : EStateM ε σ α} {s : σ} {Q Q' : α → σ → Prop} {E E' : ε → σ → Prop}

/-- From `s`, a return meets `Q` and an exception meets `E`. -/
def Leaves (act : EStateM ε σ α) (s : σ) (Q : α → σ → Prop) (E : ε → σ → Prop) : Prop :=
  match act s with
  | .ok a t => Q a t
  | .error e t => E e t

namespace Leaves

theorem mono (h : Leaves act s Q E) (hQ : ∀ a t, Q a t → Q' a t) (hE : ∀ e t, E e t → E' e t) : Leaves act s Q' E' := by
  unfold Leaves at h ⊢
  cases hact : act s with
  | ok a t =>
      rw [hact] at h
      exact hQ a t h
  | error e t =>
      rw [hact] at h
      exact hE e t h

theorem of_ok {a : α} {t : σ} (h : Leaves act s Q E) (hact : act s = .ok a t) : Q a t := by
  unfold Leaves at h
  rwa [hact] at h

theorem of_error {e : ε} {t : σ} (h : Leaves act s Q E) (hact : act s = .error e t) : E e t := by
  unfold Leaves at h
  rwa [hact] at h

theorem raises (h : Leaves act s (fun _ _ => False) E) : ∃ e t, act s = .error e t ∧ E e t := by
  unfold Leaves at h
  cases hact : act s with
  | ok a t =>
      rw [hact] at h
      exact h.elim
  | error e t =>
      rw [hact] at h
      exact ⟨e, t, rfl, h⟩

theorem pure_iff {a : α} : Leaves (pure a) s Q E ↔ Q a s := Iff.rfl

theorem throw_iff {e : ε} : Leaves (throw e : EStateM ε σ α) s Q E ↔ E e s := Iff.rfl

theorem get_iff {Q : σ → σ → Prop} : Leaves (get : EStateM ε σ σ) s Q E ↔ Q s s := Iff.rfl

theorem modify_iff {f : σ → σ} {Q : Unit → σ → Prop} : Leaves (modify f : EStateM ε σ Unit) s Q E ↔ Q () (f s) := Iff.rfl

/-- The rule of sequences. -/
theorem bind_iff {f : α → EStateM ε σ β} {Q : β → σ → Prop} :
    Leaves (act >>= f) s Q E ↔ Leaves act s (fun a t => Leaves (f a) t Q E) E := by
  show (match EStateM.bind act f s with
    | .ok b t => Q b t
    | .error e t => E e t) ↔ _
  unfold Leaves EStateM.bind
  cases act s with
  | ok a t => exact Iff.rfl
  | error e t => exact Iff.rfl

theorem bind {f : α → EStateM ε σ β} {Q : β → σ → Prop} {P : α → σ → Prop} (hact : Leaves act s P E)
    (hf : ∀ a t, P a t → Leaves (f a) t Q E) : Leaves (act >>= f) s Q E :=
  bind_iff.mpr (hact.mono hf fun _ _ h => h)

/-- The rule of handlers: what a handler makes of an exception starts where the exception was raised. -/
theorem tryCatch_iff {handler : ε → EStateM ε σ α} :
    Leaves (tryCatch act handler) s Q E ↔ Leaves act s Q (fun e t => Leaves (handler e) t Q E) := by
  show (match EStateM.tryCatch act handler s with
    | .ok a t => Q a t
    | .error e t => E e t) ↔ _
  unfold Leaves EStateM.tryCatch
  cases act s with
  | ok a t => exact Iff.rfl
  | error e t => exact Iff.rfl

/-- The rule of loops: an invariant over the items that are done. -/
theorem forM {items : List ι} {body : ι → EStateM ε σ Unit} {I : List ι → σ → Prop} (hstart : I [] s)
    (hbody : ∀ done item rest t, items = done ++ item :: rest → I done t →
      Leaves (body item) t (fun _ u => I (done ++ [item]) u) E) :
    Leaves (items.forM body) s (fun _ t => I items t) E := by
  suffices h : ∀ rest done t, items = done ++ rest → I done t → Leaves (rest.forM body) t (fun _ u => I items u) E from
    h items [] s rfl hstart
  intro rest
  induction rest with
  | nil =>
      intro done t hsplit hI
      rw [List.append_nil] at hsplit
      subst hsplit
      exact pure_iff.mpr hI
  | cons item rest ih =>
      intro done t hsplit hI
      have hlater : items = (done ++ [item]) ++ rest := by rw [hsplit, List.append_assoc, List.singleton_append]
      exact bind (hbody done item rest t hsplit hI) fun _ u hu => ih (done ++ [item]) u hlater hu

end Leaves

end Base
