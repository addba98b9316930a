import Mathlib.Data.Int.CardIntervalMod
import Mathlib.Data.List.Nodup

/-!
# Taking turns

A counter that goes up by one with every choice picks the element of a list at its residue. In
every stretch of choices the elements get their turns evenly, wherever the counter started.
-/

namespace DoltSwarm.Lib

set_option autoImplicit false

variable {α : Type}

def turn (l : List α) (n : ℕ) : Option α := l[n % l.length]?

theorem turn_mem {l : List α} {n : ℕ} {x : α} (h : turn l n = some x) : x ∈ l :=
  List.mem_of_getElem? h

theorem exists_turn {l : List α} (hl : l ≠ []) (n : ℕ) : ∃ x, turn l n = some x := by
  have hlt : n % l.length < l.length := Nat.mod_lt _ (List.length_pos_of_ne_nil hl)
  exact ⟨l[n % l.length], List.getElem?_eq_getElem hlt⟩

theorem exists_residue {l : List α} (hl : l.Nodup) {x : α} (hx : x ∈ l) (c : ℕ) :
    ∃ v, ∀ i, turn l (c + i) = some x ↔ i ≡ v [MOD l.length] := by
  obtain ⟨j, hj, rfl⟩ := List.getElem_of_mem hx
  have hpos : 0 < l.length := Nat.zero_lt_of_lt hj
  refine ⟨j + (l.length - c % l.length), fun i => ?_⟩
  have hturn : turn l (c + i) = some l[j] ↔ (c + i) % l.length = j := by
    have hlt : (c + i) % l.length < l.length := Nat.mod_lt _ hpos
    rw [turn, List.getElem?_eq_getElem hlt, Option.some.injEq, hl.getElem_inj_iff]
  -- adding the distance from `c` to the next multiple of the length turns `c` into 0
  have hround : c + (l.length - c % l.length) ≡ 0 [MOD l.length] := by
    have hlt : c % l.length < l.length := Nat.mod_lt _ hpos
    have hdecomp := Nat.div_add_mod c l.length
    have hsum : c + (l.length - c % l.length) = l.length * (c / l.length + 1) := by
      rw [Nat.mul_add, Nat.mul_one]
      omega
    rw [hsum]
    exact (Nat.modEq_zero_iff_dvd).mpr (Nat.dvd_mul_right _ _)
  have hi : i ≡ c + i + (l.length - c % l.length) [MOD l.length] := by
    have hadd := (hround.add_right i).symm
    rw [Nat.zero_add] at hadd
    rwa [Nat.add_right_comm] at hadd
  rw [hturn]
  constructor
  · intro h
    have hmod : c + i ≡ j [MOD l.length] := by
      rw [Nat.ModEq, h, Nat.mod_eq_of_lt hj]
    exact hi.trans (hmod.add_right _)
  · intro h
    have hmod : c + i ≡ j [MOD l.length] := (hi.symm.trans h).add_right_cancel' _
    rwa [Nat.ModEq, Nat.mod_eq_of_lt hj] at hmod

/-- Out of `m` turns in a row everyone gets the `m`-th part, or one more. -/
theorem count_turn [DecidableEq α] {l : List α} (hl : l.Nodup) {x : α} (hx : x ∈ l) (c m : ℕ) :
    m / l.length ≤ Nat.count (fun i => turn l (c + i) = some x) m ∧
    Nat.count (fun i => turn l (c + i) = some x) m ≤ m / l.length + 1 := by
  obtain ⟨v, hv⟩ := exists_residue hl hx c
  have hpos : 0 < l.length := List.length_pos_of_mem hx
  simp only [hv, Nat.count_modEq_card m hpos]
  split <;> omega

end DoltSwarm.Lib
