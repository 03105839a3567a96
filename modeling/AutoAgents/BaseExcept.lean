import Mathlib

/-! Fallible computations, taken apart at their binds. -/

namespace Base

variable {ε α β : Type}

theorem bind_ok {x : Except ε α} {f : α → Except ε β} {b : β} :
    (x >>= f) = .ok b ↔ ∃ a, x = .ok a ∧ f a = .ok b := by
  cases x with
  | error e =>
      constructor
      · intro h
        cases h
      · rintro ⟨_, h, _⟩
        cases h
  | ok a =>
      constructor
      · exact fun h => ⟨a, rfl, h⟩
      · rintro ⟨_, h, hf⟩
        cases h
        exact hf

theorem pure_ok {a b : α} : (pure a : Except ε α) = .ok b ↔ a = b := by
  constructor
  · intro h
    cases h
    rfl
  · rintro rfl
    rfl

/-- A guard that let the computation go on. -/
theorem guard_ok {p : Prop} [Decidable p] {e : ε} {x : Except ε α} {a : α} :
    (if p then .error e else x) = .ok a ↔ ¬ p ∧ x = .ok a := by
  split
  · next h => simp only [reduceCtorEq, h, not_true_eq_false, false_and]
  · next h => simp only [h, not_false_eq_true, true_and]

/-- An error is that of the guard, or of what it let go on. -/
theorem guard_error {p : Prop} [Decidable p] {e e' : ε} {x : Except ε α}
    (h : (if p then .error e else x) = .error e') : e = e' ∨ x = .error e' := by
  split at h
  · cases h
    exact Or.inl rfl
  · exact Or.inr h

/-- A guarded computation fails where the guard holds, and where what it lets go on fails. -/
theorem guard_fails {p : Prop} [Decidable p] {e : ε} {x : Except ε α} :
    (∃ e', (if p then .error e else x) = .error e') ↔ p ∨ ∃ e', x = .error e' := by
  split
  · next h => simp only [h, true_or, iff_true]; exact ⟨e, rfl⟩
  · next h => simp only [h, false_or]

/-- What every step of a fold keeps, the fold keeps. -/
theorem foldlM_keeps (P : α → Prop) {f : α → β → Except ε α}
    (hf : ∀ a b a', P a → f a b = .ok a' → P a') {l : List β} :
    ∀ {a a' : α}, P a → l.foldlM f a = .ok a' → P a' := by
  induction l with
  | nil =>
      intro a a' ha h
      rw [List.foldlM_nil, pure_ok] at h
      exact h ▸ ha
  | cons b l ih =>
      intro a a' ha h
      rw [List.foldlM_cons, bind_ok] at h
      obtain ⟨mid, hmid, hrest⟩ := h
      exact ih (hf _ _ _ ha hmid) hrest

theorem foldlM_keeps_mem (P : α → Prop) {f : α → β → Except ε α} {l : List β}
    (hf : ∀ b ∈ l, ∀ a a', P a → f a b = .ok a' → P a') :
    ∀ {a a' : α}, P a → l.foldlM f a = .ok a' → P a' := by
  induction l with
  | nil =>
      intro a a' ha h
      rw [List.foldlM_nil, pure_ok] at h
      exact h ▸ ha
  | cons b l ih =>
      intro a a' ha h
      rw [List.foldlM_cons, bind_ok] at h
      obtain ⟨mid, hmid, hrest⟩ := h
      exact ih (fun c hc => hf c (List.mem_cons_of_mem b hc)) (hf b List.mem_cons_self _ _ ha hmid) hrest

/-- What every step keeps, and what each element brings, is there at the end of a fold. -/
theorem foldlM_gathers {γ : Type} {P : α → γ → Prop} {Q : β → γ → Prop} {f : α → β → Except ε α}
    (hkeep : ∀ a b a', f a b = .ok a' → ∀ c, P a c → P a' c) (hnew : ∀ a b a', f a b = .ok a' → ∀ c, Q b c → P a' c)
    {l : List β} : ∀ {a a' : α}, l.foldlM f a = .ok a' → (∀ c, P a c → P a' c) ∧ ∀ b ∈ l, ∀ c, Q b c → P a' c := by
  induction l with
  | nil =>
      intro a a' h
      rw [List.foldlM_nil, pure_ok] at h
      exact ⟨fun c hc => h ▸ hc, nofun⟩
  | cons b l ih =>
      intro a a' h
      rw [List.foldlM_cons, bind_ok] at h
      obtain ⟨mid, hmid, hrest⟩ := h
      obtain ⟨hold, hlater⟩ := ih hrest
      refine ⟨fun c hc => hold c (hkeep _ _ _ hmid c hc), ?_⟩
      rw [List.forall_mem_cons]
      exact ⟨fun c hc => hold c (hnew _ _ _ hmid c hc), hlater⟩

/-- Every element of a list that was read comes from one that was read from. -/
theorem mapM_mem {f : α → Except ε β} {l : List α} {l' : List β}
    (h : l.mapM f = .ok l') : ∀ b ∈ l', ∃ a ∈ l, f a = .ok b := by
  induction l generalizing l' with
  | nil =>
      simp only [List.mapM_nil, pure_ok] at h
      subst h
      exact fun _ hb => absurd hb List.not_mem_nil
  | cons a l ih =>
      simp only [List.mapM_cons, bind_ok, pure_ok] at h
      obtain ⟨b, hb, rest, hrest, rfl⟩ := h
      intro b' hb'
      rcases List.mem_cons.mp hb' with rfl | hmem
      · exact ⟨a, List.mem_cons_self, hb⟩
      · obtain ⟨a', ha', hf⟩ := ih hrest b' hmem
        exact ⟨a', List.mem_cons_of_mem _ ha', hf⟩

/-- Every element of a list that was read from is among those that were read. -/
theorem mapM_mem_of_mem {f : α → Except ε β} {l : List α} {l' : List β}
    (h : l.mapM f = .ok l') : ∀ a ∈ l, ∃ b ∈ l', f a = .ok b := by
  induction l generalizing l' with
  | nil => exact fun _ ha => absurd ha List.not_mem_nil
  | cons a l ih =>
      simp only [List.mapM_cons, bind_ok, pure_ok] at h
      obtain ⟨b, hb, rest, hrest, rfl⟩ := h
      intro a' ha'
      rcases List.mem_cons.mp ha' with rfl | hmem
      · exact ⟨b, List.mem_cons_self, hb⟩
      · obtain ⟨b', hb', hf⟩ := ih hrest a' hmem
        exact ⟨b', List.mem_cons_of_mem _ hb', hf⟩

theorem mapM_congr {f g : α → Except ε β} {l : List α} (h : ∀ a ∈ l, f a = g a) : l.mapM f = l.mapM g := by
  induction l with
  | nil => rfl
  | cons a l ih =>
      rw [List.mapM_cons, List.mapM_cons, h a List.mem_cons_self, ih fun a' ha' => h a' (List.mem_cons_of_mem _ ha')]

/-- A list that could not be read has an element that could not. -/
theorem mapM_error {f : α → Except ε β} {l : List α} {e : ε} (h : l.mapM f = .error e) :
    ∃ a ∈ l, f a = .error e := by
  induction l with
  | nil => cases h
  | cons a l ih =>
      rw [List.mapM_cons] at h
      cases ha : f a with
      | error e' =>
          rw [ha] at h
          cases h
          exact ⟨a, List.mem_cons_self, ha⟩
      | ok b =>
          rw [ha] at h
          cases hrest : l.mapM f with
          | error e' =>
              rw [hrest] at h
              cases h
              obtain ⟨a', ha', hf⟩ := ih hrest
              exact ⟨a', List.mem_cons_of_mem a ha', hf⟩
          | ok bs =>
              rw [hrest] at h
              cases h

/-- A fold none of whose steps fails. -/
theorem foldlM_total {f : α → β → Except ε α} {l : List β} (h : ∀ b ∈ l, ∀ a, ∃ a', f a b = .ok a') (a : α) :
    ∃ a', l.foldlM f a = .ok a' := by
  induction l generalizing a with
  | nil => exact ⟨a, rfl⟩
  | cons b l ih =>
      obtain ⟨mid, hmid⟩ := h b List.mem_cons_self a
      obtain ⟨a', ha'⟩ := ih (fun c hc => h c (List.mem_cons_of_mem b hc)) mid
      exact ⟨a', by rw [List.foldlM_cons, hmid]; exact ha'⟩

theorem exists_of_isOk {x : Except ε α} (h : x.isOk = true) : ∃ a, x = .ok a := by
  cases x with
  | ok a => exact ⟨a, rfl⟩
  | error e => cases h

end Base
