import Mathlib

/-! A log that is kept to a size. Once it grows over the limit, a mark and its last entries are kept, from the first of
them at which the log may be cut; what is left depends on all that was written, and not on how it was written. -/

namespace Base

variable {α : Type}

/-- A limit, the mark that stands for what was cut off, and the entries that a cut may not leave in front. -/
structure Bound (α : Type) where
  limit : Nat
  mark : List α
  skips : α → Bool
  fits : mark.length ≤ limit

namespace Bound

/-- How much of a log is kept behind the mark. -/
def room (b : Bound α) : Nat := b.limit - b.mark.length

/-- The last entries of a log, from one at which it may be cut. -/
def tail (b : Bound α) (log : List α) : List α := (log.drop (log.length - b.room)).dropWhile b.skips

def keep (b : Bound α) (log : List α) : List α := if log.length ≤ b.limit then log else b.mark ++ b.tail log

/-- The log after a text is written to it. -/
def append (b : Bound α) (log text : List α) : List α := b.keep (log ++ text)

variable {b : Bound α} {log text : List α}

theorem tail_eq (b : Bound α) (log : List α) : b.tail log = (log.drop (log.length - b.room)).dropWhile b.skips := rfl

theorem length_tail_le : (b.tail log).length ≤ b.room := by
  have hdropped : (b.tail log).length ≤ (log.drop (log.length - b.room)).length := (List.dropWhile_suffix _).length_le
  rw [List.length_drop] at hdropped
  omega

theorem keep_short (h : log.length ≤ b.limit) : b.keep log = log := if_pos h

theorem keep_long (h : ¬ log.length ≤ b.limit) : b.keep log = b.mark ++ b.tail log := if_neg h

/-- A log that was written to is within the limit. -/
theorem length_keep_le : (b.keep log).length ≤ b.limit := by
  unfold keep
  split
  · assumption
  · have hfits := b.fits
    have htail : (b.tail log).length ≤ b.room := length_tail_le
    rw [List.length_append]
    rw [room] at htail
    omega

theorem dropWhile_behind {front rest : List α} (hfront : ∀ a ∈ front, b.skips a = true)
    (hrest : ∀ a ∈ rest.head?, b.skips a = false) : (front ++ rest).dropWhile b.skips = rest := by
  induction front with
  | nil =>
      cases rest with
      | nil => rfl
      | cons a rest => exact List.dropWhile_cons_of_neg (by simp [hrest a rfl])
  | cons a front ih =>
      rw [List.cons_append, List.dropWhile_cons_of_pos (hfront a List.mem_cons_self)]
      exact ih fun c hc => hfront c (List.mem_cons_of_mem _ hc)

/-- What a cut leaves of the kept end of a log, with what is written after it. -/
theorem tail_append (hlong : b.room ≤ log.length) (htext : ∀ a ∈ text.head?, b.skips a = false) :
    b.tail (log ++ text) =
      if (b.tail log).length + text.length ≤ b.room then b.tail log ++ text else b.tail (b.tail log ++ text) := by
  obtain ⟨front, hfront⟩ : ∃ front, log.drop (log.length - b.room) = front ++ b.tail log ∧ ∀ a ∈ front, b.skips a = true :=
    ⟨_, (List.takeWhile_append_dropWhile).symm, fun a ha => List.mem_takeWhile_imp ha⟩
  obtain ⟨hsplit, hskips⟩ := hfront
  have hroom : front.length + (b.tail log).length = b.room := by
    have := congrArg List.length hsplit
    rw [List.length_drop, List.length_append] at this
    omega
  have hdrop : (log ++ text).drop ((log ++ text).length - b.room) = (front ++ (b.tail log ++ text)).drop text.length := by
    rw [List.length_append, show log.length + text.length - b.room = (log.length - b.room) + text.length by omega,
      ← List.drop_drop, List.drop_append_of_le_length (by omega), hsplit, List.append_assoc]
  rw [tail_eq b (log ++ text), hdrop]
  split
  · next hfits =>
      rw [List.drop_append_of_le_length (by omega)]
      refine dropWhile_behind (fun a ha => hskips a (List.mem_of_mem_drop ha)) fun a ha => ?_
      rcases htail : b.tail log with _ | ⟨c, rest⟩
      · rw [htail] at ha
        exact htext a ha
      · rw [htail] at ha
        obtain rfl : c = a := by simpa using ha
        have hhead := List.head?_dropWhile_not b.skips (log.drop (log.length - b.room))
        rw [← tail, htail] at hhead
        simpa using hhead
  · next hover =>
      rw [tail_eq b (b.tail log ++ text), List.length_append, List.drop_append, List.drop_eq_nil_of_le (by omega),
        List.nil_append]
      congr 2
      omega

/-- Cutting a log before it grows leaves what cutting it afterwards leaves. -/
theorem append_keep (htext : ∀ a ∈ text.head?, b.skips a = false) : b.append (b.keep log) text = b.keep (log ++ text) := by
  by_cases hshort : log.length ≤ b.limit
  · rw [append, keep_short hshort]
  · have hfits := b.fits
    have hroom : b.room = b.limit - b.mark.length := rfl
    have hlong : ¬ (log ++ text).length ≤ b.limit := by
      rw [List.length_append]
      omega
    have hcut : b.tail (log ++ text) = _ := tail_append (show b.room ≤ log.length by omega) htext
    rw [append, keep_long hshort, keep_long hlong, hcut]
    have hlength : (b.mark ++ b.tail log ++ text).length = b.mark.length + ((b.tail log).length + text.length) := by
      rw [List.append_assoc, List.length_append, List.length_append]
    split
    · next hfit => rw [keep_short (by omega), List.append_assoc]
    · next hover =>
        rw [keep_long (by omega), tail_eq b (b.mark ++ b.tail log ++ text), tail_eq b (b.tail log ++ text), hlength, List.append_assoc, List.drop_append, List.drop_eq_nil_of_le (by omega), List.nil_append]
        congr 3
        rw [List.length_append]
        omega

end Bound

end Base
