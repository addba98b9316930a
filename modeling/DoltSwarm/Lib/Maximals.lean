import Mathlib.Data.Finset.Card
import DoltSwarm.Lib.MergeRing

/-!
# Maximal elements when one element goes up

One element of a finite set is replaced by an element above it, and a copy may stay behind. The
number of maximal elements grows by one at most. If the element was maximal and goes to a join with
another maximal one, the two give way to the join.
-/

namespace DoltSwarm.Lib

set_option autoImplicit false

universe u

variable {α : Type u} {le : α → α → Prop} {s t : Finset α} {a b x : α}

open Classical in
/-- The elements of `s` with no other element of `s` above them. -/
noncomputable def maximals (le : α → α → Prop) (s : Finset α) : Finset α :=
  s.filter fun a => ∀ b ∈ s, le a b → b = a

theorem mem_maximals : a ∈ maximals le s ↔ a ∈ s ∧ ∀ b ∈ s, le a b → b = a := by
  classical exact Finset.mem_filter

/-- `t` is `s` with `a` gone up to `x`. -/
structure Raised (le : α → α → Prop) (s t : Finset α) (a x : α) : Prop where
  up : le a x
  mem : x ∈ t
  kept : ∀ b ∈ s, b = a ∨ b ∈ t
  added : ∀ b ∈ t, b = x ∨ b ∈ s

namespace Raised

variable (h : Raised le s t a x)

include h

theorem eq_or_mem_maximals [IsTrans α le] (hb : b ∈ maximals le t) :
    b = x ∨ b ∈ maximals le s := by
  obtain ⟨hbt, hmax⟩ := mem_maximals.mp hb
  rcases h.added b hbt with heq | hbs
  · exact Or.inl heq
  · by_cases hne : b = x
    · exact Or.inl hne
    · refine Or.inr (mem_maximals.mpr ⟨hbs, fun c hc hle => ?_⟩)
      rcases h.kept c hc with rfl | hct
      · exact absurd (hmax x h.mem (trans_of le hle h.up)).symm hne
      · exact hmax c hct hle

theorem maximals_subset_of_mem [IsTrans α le] [Std.Antisymm le] (hx : x ∈ s) :
    maximals le t ⊆ maximals le s := by
  intro b hb
  rcases h.eq_or_mem_maximals hb with rfl | hbs
  · obtain ⟨-, hmax⟩ := mem_maximals.mp hb
    refine mem_maximals.mpr ⟨hx, fun c hc hle => ?_⟩
    rcases h.kept c hc with rfl | hct
    · exact antisymm_of le h.up hle
    · exact hmax c hct hle
  · exact hbs

theorem card_maximals_le [IsTrans α le] :
    (maximals le t).card ≤ (maximals le s).card + 1 := by
  classical
  calc (maximals le t).card
      ≤ (insert x (maximals le s)).card := by
        refine Finset.card_le_card fun b hb => ?_
        exact Finset.mem_insert.mpr (h.eq_or_mem_maximals hb)
    _ ≤ (maximals le s).card + 1 := Finset.card_insert_le _ _

theorem of_card_lt [IsTrans α le] [Std.Antisymm le]
    (hlt : (maximals le s).card < (maximals le t).card) : x ∉ s ∧ x ∈ maximals le t := by
  constructor
  · intro hx
    exact absurd (Finset.card_le_card (h.maximals_subset_of_mem hx)) (not_le.mpr hlt)
  · by_contra hx
    refine absurd (Finset.card_le_card fun b hb => ?_) (not_le.mpr hlt)
    rcases h.eq_or_mem_maximals hb with rfl | hbs
    · exact absurd hb hx
    · exact hbs

/-- Two maximal elements give way to their join. -/
theorem card_maximals_of_join [IsTrans α le] [Std.Antisymm le] (hjoin : JoinOf le x a b)
    (hne : a ≠ b) (ha : a ∈ maximals le s) (hb : b ∈ maximals le s) :
    (maximals le t).card + 1 = (maximals le s).card := by
  classical
  obtain ⟨has, hamax⟩ := mem_maximals.mp ha
  obtain ⟨hbs, hbmax⟩ := mem_maximals.mp hb
  have hxs : x ∉ s := by
    intro hx
    exact hne ((hamax x hx hjoin.left).symm.trans (hbmax x hx hjoin.right))
  have heq : maximals le t = insert x ((maximals le s \ {a}) \ {b}) := by
    ext c
    simp only [Finset.mem_insert, Finset.mem_sdiff, Finset.mem_singleton]
    constructor
    · intro hc
      obtain ⟨-, hcmax⟩ := mem_maximals.mp hc
      rcases h.eq_or_mem_maximals hc with rfl | hcs
      · exact Or.inl rfl
      · refine Or.inr ⟨⟨hcs, ?_⟩, ?_⟩
        · rintro rfl
          exact hxs (hcmax x h.mem hjoin.left ▸ has)
        · rintro rfl
          exact hxs (hcmax x h.mem hjoin.right ▸ hbs)
    · rintro (rfl | ⟨⟨hc, hca⟩, hcb⟩)
      · refine mem_maximals.mpr ⟨h.mem, fun d hd hle => ?_⟩
        rcases h.added d hd with rfl | hds
        · rfl
        · obtain rfl := hamax d hds (trans_of le hjoin.left hle)
          exact antisymm_of le hjoin.left hle
      · obtain ⟨hcs, hcmax⟩ := mem_maximals.mp hc
        refine mem_maximals.mpr ⟨(h.kept c hcs).resolve_left hca, fun d hd hle => ?_⟩
        rcases h.added d hd with rfl | hds
        · rcases hjoin.below c hle with rfl | hle | hle
          · rfl
          · exact absurd (hcmax a has hle).symm hca
          · exact absurd (hcmax b hbs hle).symm hcb
        · exact hcmax d hds hle
  have hx : x ∉ (maximals le s \ {a}) \ {b} := by
    intro hmem
    exact hxs (mem_maximals.mp (Finset.mem_sdiff.mp (Finset.mem_sdiff.mp hmem).1).1).1
  have hb' : b ∈ maximals le s \ {a} :=
    Finset.mem_sdiff.mpr ⟨hb, by simpa using hne.symm⟩
  rw [heq, Finset.card_insert_of_notMem hx, Finset.sdiff_singleton_eq_erase,
    Finset.card_erase_of_mem hb', Finset.sdiff_singleton_eq_erase, Finset.card_erase_of_mem ha]
  have hpos : 1 < (maximals le s).card := Finset.one_lt_card.mpr ⟨a, ha, b, hb, hne⟩
  omega

end Raised

end DoltSwarm.Lib
