import Mathlib.Data.List.DropRight

/-!
# Texts with a separator

Cutting a list at the first separator, and trimming separators off both ends.
-/

namespace DoltSwarm.Lib

set_option autoImplicit false

variable {α : Type} [DecidableEq α] {c : α} {l a b : List α}

/-- What stands before the first separator, and the rest with that separator. -/
def cutAt (c : α) (l : List α) : List α × List α := (l.takeWhile (· ≠ c), l.dropWhile (· ≠ c))

def trimBoth (c : α) (l : List α) : List α := (l.dropWhile (· = c)).rdropWhile (· = c)

theorem cutAt_append_cons (ha : c ∉ a) : cutAt c (a ++ c :: b) = (a, c :: b) := by
  have hkeep : ∀ x ∈ a, decide (x ≠ c) = true := by
    intro x hx
    rw [decide_eq_true_eq]
    rintro rfl
    exact ha hx
  rw [cutAt, List.takeWhile_append_of_pos hkeep, List.dropWhile_append_of_pos hkeep]
  simp

theorem cutAt_of_notMem (hl : c ∉ l) : cutAt c l = (l, []) := by
  have hkeep : ∀ x ∈ l, decide (x ≠ c) = true := by
    intro x hx
    rw [decide_eq_true_eq]
    rintro rfl
    exact hl hx
  rw [cutAt, List.takeWhile_eq_self_iff.mpr hkeep, List.dropWhile_eq_nil_iff.mpr hkeep]

theorem trimBoth_nil : trimBoth c ([] : List α) = [] := by simp [trimBoth]

theorem trimBoth_cons_self : trimBoth c (c :: l) = trimBoth c l := by simp [trimBoth]

theorem length_trimBoth_le (c : α) (l : List α) : (trimBoth c l).length ≤ l.length :=
  (List.rdropWhile_prefix _ _).length_le.trans (List.dropWhile_suffix _).length_le

theorem trimBoth_eq_self_iff : trimBoth c l = l ↔ l.head? ≠ some c ∧ l.getLast? ≠ some c := by
  constructor
  · intro h
    constructor
    · intro hhead
      obtain ⟨t, rfl⟩ := List.head?_eq_some_iff.mp hhead
      rw [trimBoth_cons_self] at h
      have hlen := length_trimBoth_le c t
      rw [h, List.length_cons] at hlen
      omega
    · intro hlast
      have hself : l.rdropWhile (· = c) = l := by
        rw [← h]
        exact List.rdropWhile_idempotent _ _
      obtain ⟨t, rfl⟩ := List.getLast?_eq_some_iff.mp hlast
      exact List.rdropWhile_eq_self_iff.mp hself (by simp) (by simp)
  · rintro ⟨hhead, hlast⟩
    cases l with
    | nil => exact trimBoth_nil
    | cons x t =>
      have hx : x ≠ c := fun heq => hhead (congrArg some heq)
      have hdrop : (x :: t).dropWhile (· = c) = x :: t := by simp [hx]
      rw [trimBoth, hdrop, List.rdropWhile_eq_self_iff]
      intro hne hc
      apply hlast
      rw [List.getLast?_eq_some_getLast hne, of_decide_eq_true hc]

end DoltSwarm.Lib
