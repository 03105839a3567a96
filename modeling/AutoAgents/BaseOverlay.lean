import Mathlib

/-! Maps laid over a base. Each layer changes the base at some points; where layers that change the same
point agree on it, the order in which they are laid does not matter, and neither does laying one twice. -/

namespace Base

variable {α β : Type} [DecidableEq β]

/-- The base, with what the layers change of it. -/
def overlay (base : α → β) : List (α → β) → α → β
  | [], a => base a
  | layer :: layers, a => if layer a = base a then overlay base layers a else layer a

/-- Layers that change a point agree on it. -/
def Agree (base : α → β) (layers : List (α → β)) : Prop :=
  ∀ l ∈ layers, ∀ l' ∈ layers, ∀ a, l a ≠ base a → l' a ≠ base a → l a = l' a

section

variable {base : α → β} {layers layers' : List (α → β)} {l : α → β} {a : α}

theorem overlay_base (h : ∀ l ∈ layers, l a = base a) : overlay base layers a = base a := by
  induction layers with
  | nil => rfl
  | cons l layers ih =>
      rw [overlay, if_pos (h l List.mem_cons_self)]
      exact ih fun l' hl' => h l' (List.mem_cons_of_mem l hl')

/-- Either no layer changes the point, or one of those that do decides. -/
theorem overlay_cases : (∀ l ∈ layers, l a = base a) ∧ overlay base layers a = base a ∨
    ∃ l ∈ layers, l a ≠ base a ∧ overlay base layers a = l a := by
  induction layers with
  | nil => exact Or.inl ⟨fun _ h => absurd h List.not_mem_nil, rfl⟩
  | cons l layers ih =>
      by_cases hl : l a = base a
      · rw [overlay, if_pos hl]
        rcases ih with ⟨hnone, heq⟩ | ⟨l', hmem, hchanges, heq⟩
        · exact Or.inl ⟨List.forall_mem_cons.mpr ⟨hl, hnone⟩, heq⟩
        · exact Or.inr ⟨l', List.mem_cons_of_mem l hmem, hchanges, heq⟩
      · rw [overlay, if_neg hl]
        exact Or.inr ⟨l, List.mem_cons_self, hl, rfl⟩

theorem overlay_of_mem (h : Agree base layers) (hl : l ∈ layers) (hchanges : l a ≠ base a) :
    overlay base layers a = l a := by
  rcases @overlay_cases _ _ _ base layers a with ⟨hnone, -⟩ | ⟨l', hmem, hchanges', heq⟩
  · exact absurd (hnone l hl) hchanges
  · rw [heq]
    exact h l' hmem l hl a hchanges' hchanges

/-- Two lists whose layers change the base alike make the same map. -/
theorem overlay_congr (h : Agree base layers)
    (hsub : ∀ l ∈ layers', l ∈ layers) (hall : ∀ l ∈ layers, l ∈ layers' ∨ ∀ a, l a = base a) :
    overlay base layers' = overlay base layers := by
  have h' : Agree base layers' := fun l hl l' hl' => h l (hsub l hl) l' (hsub l' hl')
  funext a
  rcases @overlay_cases _ _ _ base layers a with ⟨hnone, heq⟩ | ⟨l, hmem, hchanges, heq⟩
  · rw [heq]
    exact overlay_base fun l hl => hnone l (hsub l hl)
  · rw [heq]
    rcases hall l hmem with hl | hidle
    · exact overlay_of_mem h' hl hchanges
    · exact absurd (hidle a) hchanges

end

end Base
