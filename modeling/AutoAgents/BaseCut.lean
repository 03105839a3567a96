import Mathlib

/-! Search for a part of a list: what stands before and behind its first occurrence, and how often it occurs. An occurrence
cannot lie across two pieces where the part has a sign of the border only at its own border. -/

namespace Base

variable {α : Type} [DecidableEq α] {part a b : List α}

/-- What stands before and behind the first occurrence of a part. -/
def cut (part : List α) : List α → Option (List α × List α)
  | [] => if part = [] then some ([], []) else none
  | c :: rest =>
      if part.isPrefixOf (c :: rest) then some ([], (c :: rest).drop part.length)
      else (cut part rest).map fun found => (c :: found.1, found.2)

/-- The occurrences that do not overlap, from the left, behind some signs that are passed over. -/
def countFrom (part : List α) : Nat → List α → Nat
  | _, [] => 0
  | skip + 1, _ :: rest => countFrom part skip rest
  | 0, c :: rest => if part.isPrefixOf (c :: rest) then countFrom part (part.length - 1) rest + 1 else countFrom part 0 rest

def count (part list : List α) : Nat := countFrom part 0 list

theorem cut_self (hpart : part ≠ []) (b : List α) : cut part (part ++ b) = some ([], b) := by
  cases part with
  | nil => exact absurd rfl hpart
  | cons p part =>
      rw [List.cons_append, cut, if_pos]
      · simp
      · simp [List.isPrefixOf_iff_prefix]

theorem cut_some {before behind : List α} (h : cut part a = some (before, behind)) : a = before ++ part ++ behind := by
  induction a generalizing before behind with
  | nil =>
      rw [cut] at h
      split at h
      · next hpart =>
        obtain ⟨rfl, rfl⟩ := Prod.mk.inj (Option.some.inj h)
        simp [hpart]
      · cases h
  | cons c rest ih =>
      rw [cut] at h
      split at h
      · next hbegins =>
        obtain ⟨tail, htail⟩ := List.isPrefixOf_iff_prefix.mp hbegins
        obtain ⟨rfl, rfl⟩ := Prod.mk.inj (Option.some.inj h)
        rw [← htail, List.drop_left, List.nil_append]
      · obtain ⟨⟨first, last⟩, hfound, heq⟩ := Option.map_eq_some_iff.mp h
        obtain ⟨rfl, rfl⟩ := Prod.mk.inj heq
        rw [ih hfound]
        simp

/-- Nothing is found exactly where the part does not occur. -/
theorem cut_eq_none : cut part a = none ↔ ¬ part <:+: a := by
  induction a with
  | nil =>
      rw [cut]
      split
      · next hpart => simp [hpart]
      · next hpart => simp [hpart]
  | cons c rest ih =>
      rw [cut, List.infix_cons_iff]
      split
      · next hbegins => simp [List.isPrefixOf_iff_prefix.mp hbegins]
      · next hbegins =>
        rw [List.isPrefixOf_iff_prefix] at hbegins
        simp [ih, hbegins]

theorem cut_none_of_part {a' : List α} (h : cut part a = none) (hin : a' <:+: a) : cut part a' = none :=
  cut_eq_none.mpr fun hpart => cut_eq_none.mp h (hpart.trans hin)

/-- Two pieces that no occurrence lies across. -/
def Apart (part a b : List α) : Prop := ∀ x y z, a = x ++ y → part = y ++ z → y ≠ [] → z <+: b → z = []

/-- Behind a piece without the part, the first occurrence is the one in the next piece. -/
theorem cut_append (happart : Apart part a b) (h : cut part a = none) :
    cut part (a ++ b) = (cut part b).map fun found => (a ++ found.1, found.2) := by
  induction a with
  | nil => simp
  | cons c a ih =>
      rw [cut] at h
      split at h
      · cases h
      next hbegins =>
      have hacross : ¬ part.isPrefixOf (c :: (a ++ b)) = true := by
        rw [List.isPrefixOf_iff_prefix] at hbegins ⊢
        rintro ⟨tail, htail⟩
        rw [← List.cons_append] at htail
        rcases List.append_eq_append_iff.mp htail with ⟨more, hin, -⟩ | ⟨z, hz, hb⟩
        · exact hbegins ⟨more, hin.symm⟩
        · have hnil := happart [] (c :: a) z rfl hz (List.cons_ne_nil c a) ⟨tail, hb.symm⟩
          rw [hnil, List.append_nil] at hz
          exact hbegins ⟨[], by rw [hz, List.append_nil]⟩
      have hrest : Apart part a b := fun x y z hx hy hne hz => happart (c :: x) y z (by rw [hx, List.cons_append]) hy hne hz
      rw [List.cons_append, cut, if_neg hacross, ih hrest (by simpa using h)]
      cases cut part b <;> simp

omit [DecidableEq α] in
/-- The next piece begins with a sign that stands in the part only at its head. -/
theorem apart_of_head {c : α} (hc : c ∉ part.tail) : Apart part a (c :: b) := by
  rintro x y z - rfl hne hz
  cases y with
  | nil => exact absurd rfl hne
  | cons d y =>
      cases z with
      | nil => rfl
      | cons e z =>
          obtain rfl := (List.cons_prefix_cons.mp hz).1
          simp at hc

omit [DecidableEq α] in
/-- The piece ends with a sign that is not in the part. -/
theorem apart_of_last {c : α} (hc : c ∉ part) : Apart part (a ++ [c]) b := by
  rintro x y z hx rfl hne -
  exfalso
  obtain ⟨y', d, rfl⟩ := List.eq_nil_or_concat y |>.resolve_left hne
  rw [List.concat_eq_append, ← List.append_assoc] at hx
  obtain rfl : c = d := by simpa using (List.append_inj' hx rfl).2
  simp at hc

/-- The head of the part does not stand further on in the piece. -/
theorem cut_skip {c : α} {rest : List α} (hc : c ∉ a) : cut (c :: rest) (a ++ b) = (cut (c :: rest) b).map fun found => (a ++ found.1, found.2) := by
  induction a with
  | nil => simp
  | cons d a ih =>
      have hd : ¬ (c :: rest).isPrefixOf (d :: (a ++ b)) = true := by
        rw [List.isPrefixOf_iff_prefix, List.cons_prefix_cons]
        rintro ⟨rfl, -⟩
        simp at hc
      rw [List.cons_append, cut, if_neg hd, ih fun hmem => hc (List.mem_cons_of_mem d hmem)]
      cases cut (c :: rest) b <;> simp

/-- A first occurrence does not depend on what stands behind it. -/
theorem cut_behind {before behind : List α} (h : cut part (before ++ part ++ behind) = some (before, behind)) (other : List α) :
    cut part (before ++ part ++ other) = some (before, other) := by
  induction before with
  | nil =>
      cases part with
      | nil => cases other <;> simp [cut]
      | cons p part =>
          rw [List.nil_append]
          exact cut_self (List.cons_ne_nil p part) other
  | cons c before ih =>
      rw [List.cons_append, List.cons_append, cut] at h ⊢
      split at h
      · cases h
      next hbegins =>
      have hshort : ¬ part.isPrefixOf (c :: (before ++ part ++ other)) = true := by
        rw [List.isPrefixOf_iff_prefix] at hbegins ⊢
        intro hlong
        have hcommon : c :: (before ++ part) <+: c :: (before ++ part ++ other) := ⟨other, by simp⟩
        have hin := List.prefix_of_prefix_length_le hlong hcommon (by simp; omega)
        exact hbegins (hin.trans ⟨behind, by simp⟩)
      rw [if_neg hshort]
      obtain ⟨⟨first, last⟩, hfound, heq⟩ := Option.map_eq_some_iff.mp h
      obtain ⟨hfirst, rfl⟩ := Prod.mk.inj heq
      obtain rfl := (List.cons.inj hfirst).2
      rw [ih hfound]
      rfl

/-! ### How often -/

theorem countFrom_drop (skip : Nat) (list : List α) : countFrom part skip list = countFrom part 0 (list.drop skip) := by
  induction list generalizing skip with
  | nil => cases skip <;> simp [countFrom]
  | cons c rest ih =>
      cases skip with
      | zero => rfl
      | succ skip => rw [countFrom, ih, List.drop_succ_cons]

/-- The occurrences behind the first one are counted on their own. -/
theorem count_cut (hpart : part ≠ []) : count part a = match cut part a with
    | none => 0
    | some (_, behind) => count part behind + 1 := by
  unfold count
  induction a with
  | nil => simp [countFrom, cut, hpart]
  | cons c rest ih =>
      rw [countFrom, cut]
      split
      · obtain ⟨p, part, rfl⟩ := List.exists_cons_of_ne_nil hpart
        simpa using countFrom_drop part.length rest
      · rw [ih]
        cases cut part rest <;> rfl

theorem count_eq_zero (hpart : part ≠ []) (h : cut part a = none) : count part a = 0 := by
  rw [count_cut hpart, h]

theorem count_eq_one (hpart : part ≠ []) {before behind : List α} (h : cut part a = some (before, behind))
    (hbehind : cut part behind = none) : count part a = 1 := by
  rw [count_cut hpart, h]
  simp [count_eq_zero hpart hbehind]

end Base
