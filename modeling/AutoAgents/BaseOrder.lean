import AutoAgents.BaseExcept

/-! Lists in which everything comes before what it depends on, as a depth-first search leaves them. Such
a list has no cycle, and of the elements that are left of it some element depends on none that is left. -/

namespace Base

open Relation

variable {α : Type} {deps : α → List α} {a : α} {l : List α}

/-- The first element of the relation is something the second depends on. -/
def Needs (deps : α → List α) (d a : α) : Prop := d ∈ deps a

/-- Every element depends only on elements that follow it. -/
def Settled (deps : α → List α) : List α → Prop
  | [] => True
  | a :: rest => (∀ d ∈ deps a, d ∈ rest) ∧ Settled deps rest

namespace Settled

/-- What follows the dependencies can be built up in finitely many steps. -/
theorem acc (h : Settled deps l) : ∀ a ∈ l, Acc (Needs deps) a := by
  induction l with
  | nil => exact fun _ ha => absurd ha List.not_mem_nil
  | cons b rest ih =>
      obtain ⟨hdeps, hrest⟩ := h
      intro a ha
      rcases List.mem_cons.mp ha with rfl | hmem
      · exact Acc.intro a fun d hd => ih hrest d (hdeps d hd)
      · exact ih hrest a hmem

/-- Nothing depends on itself. -/
theorem acyclic (h : Settled deps l) (ha : a ∈ l) : ¬ TransGen (Needs deps) a a := by
  have hirrefl : ∀ b, Acc (TransGen (Needs deps)) b → ¬ TransGen (Needs deps) b b := by
    intro b hb
    induction hb with
    | intro b _ ih => exact fun hcycle => ih b hcycle hcycle
  exact hirrefl a (h.acc a ha).transGen

/-- Of the elements with a property, one depends on none that has it. -/
theorem exists_first {p : α → Prop} (h : Settled deps l) (ha : a ∈ l) (hp : p a) :
    ∃ first ∈ l, p first ∧ ∀ d ∈ deps first, ¬ p d := by
  induction l generalizing a with
  | nil => exact absurd ha List.not_mem_nil
  | cons b rest ih =>
      by_cases hrest : ∃ c ∈ rest, p c
      · obtain ⟨c, hmem, hc⟩ := hrest
        obtain ⟨first, hfirst, hall⟩ := ih h.2 hmem hc
        exact ⟨first, List.mem_cons_of_mem b hfirst, hall⟩
      · rcases List.mem_cons.mp ha with rfl | hmem
        · exact ⟨a, List.mem_cons_self, hp, fun d hd hpd => hrest ⟨d, h.1 d hd, hpd⟩⟩
        · exact absurd ⟨a, hmem, hp⟩ hrest

/-- One element after the other is settled, with all that was settled before. -/
theorem foldlM {ε : Type} {f : List α → α → Except ε (List α)} {l' items : List α}
    (hf : ∀ l a l', Settled deps l → f l a = .ok l' → Settled deps l' ∧ a ∈ l' ∧ ∀ b ∈ l, b ∈ l')
    (hl : Settled deps l) (h : items.foldlM f l = .ok l') :
    Settled deps l' ∧ (∀ a ∈ items, a ∈ l') ∧ ∀ b ∈ l, b ∈ l' := by
  induction items generalizing l with
  | nil =>
      rw [List.foldlM_nil, pure_ok] at h
      subst h
      exact ⟨hl, fun _ ha => absurd ha List.not_mem_nil, fun _ hb => hb⟩
  | cons a items ih =>
      rw [List.foldlM_cons, bind_ok] at h
      obtain ⟨mid, hmid, hrest⟩ := h
      obtain ⟨hsettled, hmem, hkept⟩ := hf l a mid hl hmid
      obtain ⟨hsettled', hall, hkept'⟩ := ih hsettled hrest
      refine ⟨hsettled', fun b hb => ?_, fun b hb => hkept' b (hkept b hb)⟩
      rcases List.mem_cons.mp hb with rfl | hb
      · exact hkept' b hmem
      · exact hall b hb

end Settled
end Base
