import Mathlib.Data.Fintype.Basic
import Mathlib.Data.Finset.Basic

/-!
# Edits made one after the other

A store has several independent fields. An edit records the fields its writer saw and those it
left; it fits a store in which every field it changed still has the old value, or has the new one
already. Edits are tried in a fixed order and those that do not fit are set aside.
-/

namespace DoltSwarm.Lib

set_option autoImplicit false

structure Edit (ι α : Type) where
  base : ι → α
  new : ι → α

namespace Edit

variable {ι α : Type} (e e' : Edit ι α)

def changes (i : ι) : Prop := e.new i ≠ e.base i

/-- Both change a field, and not to the same value. -/
def clashes : Prop := ∃ i, e.changes i ∧ e'.changes i ∧ e.new i ≠ e'.new i

def fits (s : ι → α) : Prop := ∀ i, e.changes i → s i = e.base i ∨ s i = e.new i

variable [DecidableEq α]

instance (i : ι) : Decidable (e.changes i) := inferInstanceAs (Decidable (_ ≠ _))

instance [Fintype ι] (s : ι → α) : Decidable (e.fits s) :=
  inferInstanceAs (Decidable (∀ _, _))

instance [Fintype ι] : Decidable (e.clashes e') := inferInstanceAs (Decidable (∃ _, _))

def appliedTo (s : ι → α) (i : ι) : α := if e.changes i then e.new i else s i

end Edit

section Serial

variable {κ ι α : Type} [DecidableEq κ] [Fintype ι] [DecidableEq α] (edit : κ → Edit ι α)

def serialStep (acc : (ι → α) × Finset κ) (k : κ) : (ι → α) × Finset κ :=
  if (edit k).fits acc.1 then ((edit k).appliedTo acc.1, acc.2) else (acc.1, acc.2 ∪ {k})

/-- The store after all edits have been tried, and the edits set aside. -/
def serial (s : ι → α) (ks : List κ) : (ι → α) × Finset κ := ks.foldl (serialStep edit) (s, ∅)

variable {edit} {s : ι → α} {ks : List κ} {k : κ}

theorem serial_concat : serial edit s (ks ++ [k]) = serialStep edit (serial edit s ks) k := by
  rw [serial, List.foldl_append]
  rfl

theorem serialStep_of_fits {acc : (ι → α) × Finset κ} (h : (edit k).fits acc.1) :
    serialStep edit acc k = ((edit k).appliedTo acc.1, acc.2) := if_pos h

theorem serialStep_of_not_fits {acc : (ι → α) × Finset κ} (h : ¬(edit k).fits acc.1) :
    serialStep edit acc k = (acc.1, acc.2 ∪ {k}) := if_neg h

/-- What edits over one and the same store come to: each field is as some edit left it, or as it
was, and an edit is set aside for one before it that stayed. -/
structure Overlaid (edit : κ → Edit ι α) (s : ι → α) (ks : List κ) : Prop where
  applied : ∀ k ∈ ks, k ∉ (serial edit s ks).2 → ∀ i, (edit k).changes i →
    (serial edit s ks).1 i = (edit k).new i
  untouched : ∀ i, (∀ k ∈ ks, k ∉ (serial edit s ks).2 → ¬(edit k).changes i) →
    (serial edit s ks).1 i = s i
  refused : ∀ k ∈ (serial edit s ks).2, ∃ k', [k', k].Sublist ks ∧
    k' ∉ (serial edit s ks).2 ∧ (edit k').clashes (edit k)

omit [DecidableEq κ] in
theorem mem_of_pair_sublist {k k' : κ} (h : [k', k].Sublist ks) : k' ∈ ks ∧ k ∈ ks :=
  ⟨h.subset (by simp), h.subset (by simp)⟩

section Concat

variable (h : Overlaid edit s ks) (hk : k ∉ ks)

include h hk

theorem Overlaid.notMem_refused : k ∉ (serial edit s ks).2 := by
  intro hrefused
  obtain ⟨_, hsub, -⟩ := h.refused k hrefused
  exact hk (mem_of_pair_sublist hsub).2

theorem Overlaid.concat_of_fits (hbase : ∀ k' ∈ ks ++ [k], (edit k').base = s)
    (hfits : (edit k).fits (serial edit s ks).1) : Overlaid edit s (ks ++ [k]) := by
  have hserial : serial edit s (ks ++ [k]) = ((edit k).appliedTo (serial edit s ks).1, _) :=
    serial_concat.trans (serialStep_of_fits hfits)
  constructor
  · intro k' hk' hkept i hchanges
    rw [hserial] at hkept ⊢
    rcases List.mem_append.mp hk' with hmem | hmem
    · have hvalue := h.applied k' hmem hkept i hchanges
      by_cases hboth : (edit k).changes i
      · -- the earlier edit has left a value other than the old one, so it is the new one
        have hold : (serial edit s ks).1 i ≠ (edit k).base i := by
          rw [hvalue, hbase k (by simp), ← hbase k' hk']
          exact hchanges
        simp only [Edit.appliedTo, if_pos hboth, ← (hfits i hboth).resolve_left hold, hvalue]
      · simp only [Edit.appliedTo, if_neg hboth, hvalue]
    · rw [List.mem_singleton.mp hmem] at hchanges ⊢
      exact if_pos hchanges
  · intro i hnone
    rw [hserial] at hnone ⊢
    have hchanges : ¬(edit k).changes i := hnone k (by simp) (h.notMem_refused hk)
    simp only [Edit.appliedTo, if_neg hchanges]
    exact h.untouched i fun k' hk' => hnone k' (List.mem_append_left _ hk')
  · intro k' hk'
    rw [hserial] at hk' ⊢
    obtain ⟨k'', hsub, hkept, hclash⟩ := h.refused k' hk'
    exact ⟨k'', hsub.trans (List.sublist_append_left ks [k]), hkept, hclash⟩

theorem Overlaid.concat_of_not_fits (hbase : (edit k).base = s)
    (hfits : ¬(edit k).fits (serial edit s ks).1) : Overlaid edit s (ks ++ [k]) := by
  have hserial : serial edit s (ks ++ [k]) = ((serial edit s ks).1, _) :=
    serial_concat.trans (serialStep_of_not_fits hfits)
  have hkept : ∀ k' ∈ ks, k' ∉ (serial edit s ks).2 → k' ∉ (serial edit s ks).2 ∪ {k} := by
    intro k' hk' hkept hmem
    rcases Finset.mem_union.mp hmem with hmem | hmem
    · exact hkept hmem
    · exact hk (Finset.mem_singleton.mp hmem ▸ hk')
  constructor
  · intro k' hk' hnot i hchanges
    rw [hserial, Finset.mem_union, Finset.mem_singleton, not_or] at hnot
    rw [hserial]
    have hmem : k' ∈ ks := by simpa [hnot.2] using hk'
    exact h.applied k' hmem hnot.1 i hchanges
  · intro i hnone
    rw [hserial] at hnone ⊢
    exact h.untouched i fun k' hk' hstays =>
      hnone k' (List.mem_append_left _ hk') (hkept k' hk' hstays)
  · intro k' hk'
    rw [hserial] at hk' ⊢
    rcases Finset.mem_union.mp hk' with hk' | hk'
    · obtain ⟨k'', hsub, hstays, hclash⟩ := h.refused k' hk'
      exact ⟨k'', hsub.trans (List.sublist_append_left ks [k]),
        hkept k'' (mem_of_pair_sublist hsub).1 hstays, hclash⟩
    · -- the field that stops `k` has been changed, and by an edit that stayed
      rw [Finset.mem_singleton.mp hk']
      simp only [Edit.fits, not_forall, not_or] at hfits
      obtain ⟨i, hchanges, hold, hnew⟩ := hfits
      have hex : ∃ k' ∈ ks, k' ∉ (serial edit s ks).2 ∧ (edit k').changes i := by
        by_contra hnone
        push Not at hnone
        exact hold ((h.untouched i hnone).trans (congrFun hbase i).symm)
      obtain ⟨k', hmem, hstays, hchanges'⟩ := hex
      refine ⟨k', ?_, hkept k' hmem hstays, i, hchanges', hchanges, ?_⟩
      · exact (List.singleton_sublist.mpr hmem).append (List.Sublist.refl [k])
      · rw [← h.applied k' hmem hstays i hchanges']
        exact hnew

end Concat

/-- Edits over one store overlay it. -/
theorem overlaid_of_common_base (hnodup : ks.Nodup) (hbase : ∀ k ∈ ks, (edit k).base = s) :
    Overlaid edit s ks := by
  induction ks using List.reverseRecOn with
  | nil => exact ⟨by simp, fun _ _ => rfl, by simp [serial]⟩
  | append_singleton ks k ih =>
    obtain ⟨hks, -, hapart⟩ := List.nodup_append.mp hnodup
    have hk : k ∉ ks := fun hmem => hapart k hmem k (by simp) rfl
    have h := ih hks fun k' hk' => hbase k' (List.mem_append_left _ hk')
    by_cases hfits : (edit k).fits (serial edit s ks).1
    · exact h.concat_of_fits hk hbase hfits
    · exact h.concat_of_not_fits hk (hbase k (by simp)) hfits

end Serial

end DoltSwarm.Lib
