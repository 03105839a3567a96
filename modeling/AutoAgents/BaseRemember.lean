import Mathlib

/-! A table that admits each name once and remembers it for a while. Every claim first forgets the names that its own time finds
expired, so that a name is admitted again as soon as some claim has come late enough. -/

namespace Base

namespace Remember

variable {ν τ : Type} [DecidableEq ν] (live : τ → τ → Bool)

/-- One claim: the names that are still live at its time are kept, and the name is added if it is not among them. -/
def claim (table : List (ν × τ)) (name : ν) (now : τ) : Bool × List (ν × τ) :=
  if name ∈ (table.filter fun entry => live now entry.2).map Prod.fst then (false, table.filter fun entry => live now entry.2)
  else (true, (name, now) :: table.filter fun entry => live now entry.2)

/-- The claims that are admitted, from the first to the last. -/
def admitted (table : List (ν × τ)) : List (ν × τ) → List (ν × τ)
  | [] => []
  | (name, now) :: rest =>
      (if (claim live table name now).1 = true then [(name, now)] else []) ++ admitted (claim live table name now).2 rest

/-- No claim of the name comes after the name was forgotten: up to each later claim of it, all times find the first one live. -/
def Kept (name : ν) (claims : List (ν × τ)) : Prop :=
  ∀ earlier seen between now later, claims = earlier ++ (name, seen) :: (between ++ (name, now) :: later) →
    name ∉ earlier.map Prod.fst → ∀ other ∈ between ++ [(name, now)], live other.2 seen = true

variable {live} {table : List (ν × τ)} {name other : ν} {now seen : τ} {claims : List (ν × τ)}

theorem claim_new (h : name ∉ table.map Prod.fst) : claim live table name now =
    (true, (name, now) :: table.filter fun entry => live now entry.2) := by
  have hnew : name ∉ (table.filter fun entry => live now entry.2).map Prod.fst := by
    intro hmem
    obtain ⟨entry, hentry, hname⟩ := List.mem_map.mp hmem
    exact h (List.mem_map.mpr ⟨entry, (List.mem_filter.mp hentry).1, hname⟩)
  rw [claim, if_neg hnew]

/-- A claim of another name adds nothing to what the table has of the name. -/
theorem claim_other (h : other ≠ name) {entry : ν × τ} (hentry : entry.1 = name) :
    entry ∈ (claim live table other now).2 ↔ entry ∈ table ∧ live now entry.2 = true := by
  have hne : entry ≠ (other, now) := by
    rintro rfl
    exact h hentry
  unfold claim
  split <;> simp [hne]

/-- The table has the name, seen at one time only. -/
def Holds (table : List (ν × τ)) (name : ν) (seen : τ) : Prop := ∀ entry, entry ∈ table ∧ entry.1 = name ↔ entry = (name, seen)

theorem holds_claim_new (h : name ∉ table.map Prod.fst) : Holds (claim live table name now).2 name now := by
  intro entry
  rw [claim_new h]
  constructor
  · rintro ⟨hmem, rfl⟩
    rcases List.mem_cons.mp hmem with hnew | hold
    · exact hnew
    · exact absurd (List.mem_map.mpr ⟨entry, (List.mem_filter.mp hold).1, rfl⟩) h
  · rintro rfl
    exact ⟨List.mem_cons_self, rfl⟩

theorem Holds.claim_live (h : Holds table name seen) (hlive : live now seen = true) (other : ν) :
    Holds (claim live table other now).2 name seen ∧ (other = name → (claim live table other now).1 = false) := by
  have hmem : (name, seen) ∈ table := ((h _).mpr rfl).1
  by_cases hother : other = name
  · subst hother
    have hkept : other ∈ (table.filter fun entry => live now entry.2).map Prod.fst :=
      List.mem_map.mpr ⟨_, List.mem_filter.mpr ⟨hmem, hlive⟩, rfl⟩
    rw [claim, if_pos hkept]
    refine ⟨fun entry => ?_, fun _ => rfl⟩
    constructor
    · rintro ⟨hentry, hname⟩
      exact (h entry).mp ⟨(List.mem_filter.mp hentry).1, hname⟩
    · rintro rfl
      exact ⟨List.mem_filter.mpr ⟨hmem, hlive⟩, rfl⟩
  · refine ⟨fun entry => ?_, fun heq => absurd heq hother⟩
    constructor
    · rintro ⟨hentry, hname⟩
      exact (h entry).mp ⟨((claim_other hother hname).mp hentry).1, hname⟩
    · rintro rfl
      exact ⟨(claim_other hother rfl).mpr ⟨hmem, hlive⟩, rfl⟩

/-- Once a claim comes too late, the name is gone: a claim of it is admitted, and one of another name leaves the table without it. -/
theorem Holds.claim_late (h : Holds table name seen) (hlate : live now seen = false) (other : ν) :
    (other = name → (claim live table other now).1 = true) ∧ (other ≠ name → name ∉ (claim live table other now).2.map Prod.fst) := by
  constructor
  · rintro rfl
    have hnot : other ∉ (table.filter fun entry => live now entry.2).map Prod.fst := by
      intro hmem
      obtain ⟨entry, hentry, hname⟩ := List.mem_map.mp hmem
      obtain ⟨hentry, hlive⟩ := List.mem_filter.mp hentry
      rw [(h entry).mp ⟨hentry, hname⟩, hlate] at hlive
      cases hlive
    rw [claim, if_neg hnot]
  · intro hother hmem
    obtain ⟨entry, hentry, hname⟩ := List.mem_map.mp hmem
    obtain ⟨hentry, hlive⟩ := (claim_other hother hname).mp hentry
    rw [(h entry).mp ⟨hentry, hname⟩, hlate] at hlive
    cases hlive

theorem claim_absent (h : name ∉ table.map Prod.fst) (hother : other ≠ name) :
    name ∉ (claim live table other now).2.map Prod.fst := by
  intro hmem
  obtain ⟨entry, hentry, hname⟩ := List.mem_map.mp hmem
  exact h (List.mem_map.mpr ⟨entry, ((claim_other hother hname).mp hentry).1, hname⟩)

/-- How often the name is admitted. -/
def count (live : τ → τ → Bool) (table claims : List (ν × τ)) (name : ν) : Nat :=
  ((admitted live table claims).map Prod.fst).count name

theorem count_cons (table : List (ν × τ)) (other : ν) (now : τ) (rest : List (ν × τ)) (name : ν) :
    count live table ((other, now) :: rest) name =
      (if other = name ∧ (claim live table other now).1 = true then 1 else 0) + count live (claim live table other now).2 rest name := by
  rw [count, admitted, List.map_append, List.count_append]
  congr 1
  by_cases hother : other = name
  · subst hother
    by_cases hallowed : (claim live table other now).1 = true <;> simp [hallowed]
  · by_cases hallowed : (claim live table other now).1 = true <;> simp [hallowed, hother]

/-- A name that the table does not have is admitted if it is claimed. -/
theorem count_absent (h : name ∉ table.map Prod.fst) : count live table claims name = 0 ↔ name ∉ claims.map Prod.fst := by
  induction claims generalizing table with
  | nil => simp [count, admitted]
  | cons first rest ih =>
      obtain ⟨other, now⟩ := first
      rw [count_cons]
      by_cases hother : other = name
      · subst hother
        simp [claim_new h]
      · rw [if_neg (by simp [hother]), Nat.zero_add, ih (claim_absent h hother)]
        simp [Ne.symm hother]

/-- While the table has the name, it is not admitted as long as no claim of it comes after one that was too late. -/
theorem Holds.count_eq_zero (h : Holds table name seen) : count live table claims name = 0 ↔
    ∀ between now later, claims = between ++ (name, now) :: later → ∀ other ∈ between ++ [(name, now)], live other.2 seen = true := by
  induction claims generalizing table with
  | nil => simp [count, admitted]
  | cons first rest ih =>
      obtain ⟨other, now⟩ := first
      rw [count_cons]
      cases hlive : live now seen with
      | true =>
          obtain ⟨hholds, hrefused⟩ := h.claim_live hlive other
          have hnone : ¬(other = name ∧ (claim live table other now).1 = true) := by
            rintro ⟨heq, hallowed⟩
            rw [hrefused heq] at hallowed
            cases hallowed
          rw [if_neg hnone, Nat.zero_add, ih hholds]
          constructor
          · intro hlater between now' later hsplit
            cases between with
            | nil =>
                obtain ⟨hfirst, rfl⟩ := List.cons.inj hsplit
                simp only [Prod.mk.injEq] at hfirst
                simp [← hfirst.2, hlive]
            | cons first' between =>
                obtain ⟨rfl, hrest⟩ := List.cons.inj hsplit
                intro entry hentry
                rcases List.mem_cons.mp hentry with rfl | hentry
                · exact hlive
                · exact hlater between now' later hrest entry hentry
          · intro hall between now' later hsplit entry hentry
            exact hall ((other, now) :: between) now' later (by rw [hsplit, List.cons_append]) entry (List.mem_cons_of_mem _ hentry)
      | false =>
          obtain ⟨hallowed, habsent⟩ := h.claim_late hlive other
          by_cases hother : other = name
          · subst hother
            simp only [hallowed rfl, and_self, if_true]
            constructor
            · intro hzero
              omega
            · intro hall
              have := hall [] now rest rfl (other, now) (by simp)
              rw [hlive] at this
              cases this
          · rw [if_neg (by simp [hother]), Nat.zero_add, count_absent (habsent hother)]
            constructor
            · intro hnot between now' later hsplit
              exfalso
              cases between with
              | nil => exact hother (congrArg Prod.fst (List.cons.inj hsplit).1)
              | cons first' between =>
                  apply hnot
                  rw [(List.cons.inj hsplit).2]
                  simp
            · intro hall hmem
              obtain ⟨⟨name', now'⟩, hclaim, rfl⟩ := List.mem_map.mp hmem
              obtain ⟨between, later, rfl⟩ := List.append_of_mem hclaim
              have := hall ((other, now) :: between) now' later (by simp) (other, now) (by simp)
              rw [hlive] at this
              cases this

/-- A name that the table does not have is admitted at most once exactly if no claim of it comes after one that was too late. -/
theorem count_le_one_iff (h : name ∉ table.map Prod.fst) : count live table claims name ≤ 1 ↔ Kept live name claims := by
  induction claims generalizing table with
  | nil => simp [count, admitted, Kept]
  | cons first rest ih =>
      obtain ⟨other, now⟩ := first
      rw [count_cons]
      by_cases hother : other = name
      · subst hother
        rw [claim_new h, if_pos ⟨rfl, rfl⟩]
        have hholds : Holds (claim live table other now).2 other now := holds_claim_new h
        rw [claim_new h] at hholds
        have hcount := @Holds.count_eq_zero _ _ _ live _ _ _ rest hholds
        constructor
        · intro hle earlier seen between now' later hsplit hearlier
          cases earlier with
          | nil =>
              obtain ⟨hfirst, hrest⟩ := List.cons.inj hsplit
              simp only [Prod.mk.injEq, true_and] at hfirst
              rw [← hfirst]
              exact hcount.mp (by omega) between now' later hrest
          | cons first' earlier =>
              obtain ⟨rfl, _⟩ := List.cons.inj hsplit
              simp at hearlier
        · intro hkept
          have hzero := hcount.mpr fun between now' later hsplit =>
            hkept [] now between now' later (by rw [hsplit]; rfl) List.not_mem_nil
          omega
      · rw [if_neg (by simp [hother]), Nat.zero_add, ih (claim_absent h hother)]
        constructor
        · intro hkept earlier seen between now' later hsplit hearlier
          cases earlier with
          | nil => exact absurd (congrArg Prod.fst (List.cons.inj hsplit).1) hother
          | cons first' earlier =>
              obtain ⟨rfl, hrest⟩ := List.cons.inj hsplit
              exact hkept earlier seen between now' later hrest fun hmem => hearlier (List.mem_cons_of_mem _ hmem)
        · intro hkept earlier seen between now' later hsplit hearlier
          refine hkept ((other, now) :: earlier) seen between now' later (by rw [hsplit]; rfl) fun hmem => ?_
          rcases List.mem_cons.mp hmem with heq | hmem
          · exact hother heq.symm
          · exact hearlier hmem

end Remember

end Base
