import DoltSwarm.Lib.Closure
import DoltSwarm.Lib.Runs

/-!
# Taking marked tops off a finite graph

Elements of a finite set are linked without cycles, and some of them are marked. A marked element
that nothing links to may be taken away, one at a time and in any order. Whatever the order, what
is left in the end is what can be reached from an element that is not marked.
-/

namespace DoltSwarm.Lib

set_option autoImplicit false

variable {α : Type} [DecidableEq α]

/-- The marked elements of `s` that no element of `s` links to. -/
def prunable (next : α → Finset α) (marked s : Finset α) : Finset α :=
  (s ∩ marked).filter fun x => ∀ y ∈ s, x ∉ next y

def PruneStep (next : α → Finset α) (marked : Finset α) (s : Finset α) (x : α) (s' : Finset α) :
    Prop := x ∈ prunable next marked s ∧ s' = s.erase x

/-- What is reached from an element that is not marked; no chain of links is longer than there
are elements. -/
def reachedFromUnmarked (next : α → Finset α) (marked s : Finset α) : Finset α :=
  s ∩ unrolledClosure s.card next (s \ marked)

theorem mem_prunable {next : α → Finset α} {marked s : Finset α} {x : α} :
    x ∈ prunable next marked s ↔ x ∈ s ∧ x ∈ marked ∧ ∀ y ∈ s, x ∉ next y := by
  simp [prunable, and_assoc]

section

variable {next : α → Finset α} {marked s : Finset α} (hacyclic : Acyclic next)
  (hsrc : ∀ a b, b ∈ next a → a ∈ s)

include hacyclic hsrc

theorem mem_reachedFromUnmarked {a : α} :
    a ∈ reachedFromUnmarked next marked s ↔
      a ∈ s ∧ ∃ live ∈ s, live ∉ marked ∧ Path next live a := by
  have hchains := hacyclic.chainsWithin hsrc
  rw [reachedFromUnmarked, Finset.mem_inter, mem_unrolledClosure_iff_of_seed]
  refine and_congr_right fun _ => exists_congr fun live => ?_
  rw [hchains.mem_unrolledClosure_iff, Finset.mem_sdiff, and_assoc]

theorem notMem_prunable_of_reached {t : Finset α} (ht : reachedFromUnmarked next marked s ⊆ t)
    {x : α} (hx : x ∈ reachedFromUnmarked next marked s) : x ∉ prunable next marked t := by
  intro hprune
  obtain ⟨-, hmarked, hfree⟩ := mem_prunable.mp hprune
  obtain ⟨-, live, hlive, hunmarked, hpath⟩ := (mem_reachedFromUnmarked hacyclic hsrc).mp hx
  rcases hpath.cases_tail with rfl | ⟨y, hpath, hlink⟩
  · exact hunmarked hmarked
  · have hy : y ∈ reachedFromUnmarked next marked s :=
      (mem_reachedFromUnmarked hacyclic hsrc).mpr ⟨hsrc y x hlink, live, hlive, hunmarked, hpath⟩
    exact hfree y (ht hy) hlink

theorem reached_subset_of_prunes {tr : List (Finset α × α)} {t : Finset α}
    (h : Run (PruneStep next marked) s tr t) :
    reachedFromUnmarked next marked s ⊆ t ∧ t ⊆ s ∧ t.card + tr.length = s.card := by
  induction h with
  | nil => exact ⟨Finset.inter_subset_left, Finset.Subset.refl _, rfl⟩
  | snoc _ hstep ih =>
    obtain ⟨hreached, hsub, hcard⟩ := ih
    obtain ⟨hprune, rfl⟩ := hstep
    have hmem := (mem_prunable.mp hprune).1
    refine ⟨fun y hy => Finset.mem_erase.mpr ⟨?_, hreached hy⟩,
      (Finset.erase_subset _ _).trans hsub, ?_⟩
    · rintro rfl
      exact notMem_prunable_of_reached hacyclic hsrc hreached hy hprune
    · rw [List.length_cons, ← hcard, ← Finset.card_erase_add_one hmem]
      omega

/-- Nothing left to take: only what is needed is left. -/
theorem eq_reached_of_settled {t : Finset α} (hreached : reachedFromUnmarked next marked s ⊆ t)
    (hsub : t ⊆ s) (hnone : prunable next marked t = ∅) :
    t = reachedFromUnmarked next marked s := by
  refine Finset.Subset.antisymm (fun a ha => ?_) hreached
  obtain ⟨top, htop, hpath, hfree⟩ := hacyclic.exists_top ha
  refine (mem_reachedFromUnmarked hacyclic hsrc).mpr ⟨hsub ha, top, hsub htop, ?_, hpath⟩
  intro hmarked
  have hprune : top ∈ prunable next marked t := mem_prunable.mpr ⟨htop, hmarked, hfree⟩
  rw [hnone] at hprune
  exact Finset.notMem_empty top hprune

end

end DoltSwarm.Lib
