import Mathlib.Algebra.Order.Group.Nat
import Mathlib.Tactic.Common

/-!
# Batches

A loop over `0 .. total` in steps of a batch size, with a callback that may stop it. The fuel is
the total: a batch is never empty, so that many rounds always suffice.
-/

namespace DoltSwarm.Lib

set_option autoImplicit false

variable {σ : Type}

def batchLoop (total batchSize : ℕ) (cb : ℕ → ℕ → σ → σ × Bool) : ℕ → ℕ → σ → σ
  | 0, _, s => s
  | fuel + 1, st, s =>
    if st < total then
      let called := cb st (min (st + batchSize) total) s
      if called.2 then called.1
      else batchLoop total batchSize cb fuel (st + batchSize) called.1
    else s

def batchItr (total batchSize : ℕ) (cb : ℕ → ℕ → σ → σ × Bool) (s : σ) : σ :=
  batchLoop total (if batchSize ≤ 0 then total else batchSize) cb total 0 s

/-- From what the callback does to one batch: the loop is stopped, or it gets to the end. -/
theorem batchLoop_rule {total batchSize : ℕ} (hsize : 0 < batchSize)
    {cb : ℕ → ℕ → σ → σ × Bool} {I : ℕ → σ → Prop} {Q : σ → Prop}
    (hstop : ∀ st s, batchSize ∣ st → st < total → I st s →
      (cb st (min (st + batchSize) total) s).2 = true →
      Q (cb st (min (st + batchSize) total) s).1)
    (hnext : ∀ st s, batchSize ∣ st → st < total → I st s →
      (cb st (min (st + batchSize) total) s).2 = false →
      I (min (st + batchSize) total) (cb st (min (st + batchSize) total) s).1)
    {fuel st : ℕ} {s : σ} (hst : batchSize ∣ st) (hfuel : total ≤ st + fuel)
    (hI : I (min st total) s) :
    Q (batchLoop total batchSize cb fuel st s) ∨
      I total (batchLoop total batchSize cb fuel st s) := by
  induction fuel generalizing st s with
  | zero =>
    rw [Nat.min_eq_right (by omega)] at hI
    exact Or.inr hI
  | succ fuel ih =>
    simp only [batchLoop]
    split
    · rename_i hlt
      rw [Nat.min_eq_left (by omega)] at hI
      cases hcalled : (cb st (min (st + batchSize) total) s).2 with
      | true => exact Or.inl (hstop st s hst hlt hI hcalled)
      | false =>
        exact ih (Nat.dvd_add hst (Nat.dvd_refl _)) (by omega) (hnext st s hst hlt hI hcalled)
    · rw [Nat.min_eq_right (by omega)] at hI
      exact Or.inr hI

theorem batchItr_rule {total batchSize : ℕ} (hsize : 0 < batchSize)
    {cb : ℕ → ℕ → σ → σ × Bool} {I : ℕ → σ → Prop} {Q : σ → Prop}
    (hstop : ∀ st s, batchSize ∣ st → st < total → I st s →
      (cb st (min (st + batchSize) total) s).2 = true →
      Q (cb st (min (st + batchSize) total) s).1)
    (hnext : ∀ st s, batchSize ∣ st → st < total → I st s →
      (cb st (min (st + batchSize) total) s).2 = false →
      I (min (st + batchSize) total) (cb st (min (st + batchSize) total) s).1)
    {s : σ} (hI : I 0 s) :
    Q (batchItr total batchSize cb s) ∨ I total (batchItr total batchSize cb s) := by
  rw [batchItr, if_neg (by omega)]
  refine batchLoop_rule hsize hstop hnext (Nat.dvd_zero _) (by omega) ?_
  rw [Nat.zero_min]
  exact hI

end DoltSwarm.Lib
