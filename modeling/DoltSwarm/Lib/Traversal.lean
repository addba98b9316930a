import Mathlib.Algebra.BigOperators.Group.Finset.Basic
import Mathlib.Data.Finset.SDiff
import Mathlib.Data.List.Nodup
import Mathlib.Logic.Relation

/-!
# Breadth-first traversal with a queue and a seen list

Nodes that are to be skipped are neither returned nor expanded. The fuel bounds the number
of queue entries taken; one more than the number of links of the graph is enough.
-/

namespace DoltSwarm.Lib

set_option autoImplicit false

variable {K : Type} [DecidableEq K]

/-- The nodes in the order they are visited; `none` when the fuel runs out. -/
def traverse (next : K → List K) (skip : K → Bool) : ℕ → List K → List K → Option (List K)
  | _, [], seen => some seen.reverse
  | 0, _ :: _, _ => none
  | fuel + 1, k :: queue, seen =>
    if skip k ∨ k ∈ seen then traverse next skip fuel queue seen
    else
      traverse next skip fuel
        (queue ++ (next k).filter fun p => ¬skip p ∧ p ∉ k :: seen) (k :: seen)

section Spec

variable {next : K → List K} {skip : K → Bool} {start : K}

/-- One link, to a node that is not skipped. -/
def openLink (next : K → List K) (skip : K → Bool) (a b : K) : Prop :=
  b ∈ next a ∧ skip b = false

abbrev OpenPath (next : K → List K) (skip : K → Bool) : K → K → Prop :=
  Relation.ReflTransGen (openLink next skip)

/-- What holds of queue and seen list each time round: all is reached from the start, and a
node can only be missing if it is still queued. -/
structure TraversalInv (next : K → List K) (skip : K → Bool) (start : K)
    (queue seen : List K) : Prop where
  nodup : seen.Nodup
  sound : ∀ k ∈ queue ++ seen, skip k = false ∧ OpenPath next skip start k
  started : start ∈ queue ++ seen
  closed : ∀ k ∈ seen, ∀ p, openLink next skip k p → p ∈ queue ++ seen

omit [DecidableEq K] in
theorem TraversalInv.initial (hstart : skip start = false) :
    TraversalInv next skip start [start] [] where
  nodup := List.nodup_nil
  sound := by
    intro k hk
    simp only [List.append_nil, List.mem_singleton] at hk
    subst hk
    exact ⟨hstart, .refl⟩
  started := by simp
  closed := by simp

omit [DecidableEq K] in
theorem TraversalInv.drop {k : K} {queue seen : List K}
    (h : TraversalInv next skip start (k :: queue) seen) (hk : skip k = true ∨ k ∈ seen) :
    TraversalInv next skip start queue seen := by
  have hseen : k ∈ seen := by
    rcases hk with hk | hk
    · rw [(h.sound k (by simp)).1] at hk
      cases hk
    · exact hk
  have hmem : ∀ p, p ∈ (k :: queue) ++ seen → p ∈ queue ++ seen := by
    intro p hp
    rw [List.cons_append, List.mem_cons] at hp
    rcases hp with rfl | hp
    · exact List.mem_append_right _ hseen
    · exact hp
  exact ⟨h.nodup, fun p hp => h.sound p (List.mem_cons_of_mem _ hp), hmem _ h.started,
    fun q hq p hl => hmem p (h.closed q hq p hl)⟩

theorem TraversalInv.visit {k : K} {queue seen : List K}
    (h : TraversalInv next skip start (k :: queue) seen) (hseen : k ∉ seen) :
    TraversalInv next skip start
      (queue ++ (next k).filter fun p => ¬skip p ∧ p ∉ k :: seen) (k :: seen) := by
  have hk := h.sound k (by simp)
  refine ⟨List.nodup_cons.mpr ⟨hseen, h.nodup⟩, fun p hp => ?_, ?_, fun q hq p hl => ?_⟩
  · simp only [List.mem_append, List.mem_filter, List.mem_cons, decide_eq_true_eq] at hp
    rcases hp with (hp | hp) | rfl | hp
    · exact h.sound p (by simp [hp])
    · have hskip : skip p = false := by simpa using hp.2.1
      exact ⟨hskip, hk.2.tail ⟨hp.1, hskip⟩⟩
    · exact hk
    · exact h.sound p (by simp [hp])
  · have hs := h.started
    simp only [List.cons_append, List.mem_cons, List.mem_append] at hs ⊢
    tauto
  · -- a link of the visited node is seen already, or filtered into the queue
    by_cases hpk : p ∈ k :: seen
    · exact List.mem_append_right _ hpk
    · rcases List.mem_cons.mp hq with rfl | hq
      · refine List.mem_append_left _ (List.mem_append_right _ (List.mem_filter.mpr ⟨hl.1, ?_⟩))
        simp [hl.2, hpk]
      · have hp := h.closed q hq p hl
        simp only [List.cons_append, List.mem_cons, List.mem_append] at hp hpk ⊢
        tauto

/-- The queue entries still to be taken: those queued, and one for each link of a node not
yet visited. -/
def pending (next : K → List K) (nodes : Finset K) (queue seen : List K) : ℕ :=
  queue.length + ∑ k ∈ nodes \ seen.toFinset, (next k).length

theorem pending_visit (next : K → List K) {nodes : Finset K} {k : K} (queue : List K)
    {seen : List K} (hk : k ∈ nodes) (hseen : k ∉ seen) (q : K → Bool) :
    pending next nodes (queue ++ (next k).filter q) (k :: seen) <
      pending next nodes (k :: queue) seen := by
  have hmem : k ∈ nodes \ seen.toFinset := by simp [hk, hseen]
  have hsplit := Finset.add_sum_erase (nodes \ seen.toFinset) (fun k => (next k).length) hmem
  have herase : nodes \ (k :: seen).toFinset = (nodes \ seen.toFinset).erase k := by
    ext x
    simp only [List.toFinset_cons, Finset.mem_sdiff, Finset.mem_insert, Finset.mem_erase]
    tauto
  have hle := List.length_filter_le q (next k)
  simp only [pending, herase, List.length_append, List.length_cons] at hsplit ⊢
  omega

theorem traverse_of_inv {nodes : Finset K} (hnext : ∀ k ∈ nodes, ∀ p ∈ next k, p ∈ nodes)
    (fuel : ℕ) {queue seen : List K} (hinv : TraversalInv next skip start queue seen)
    (hnodes : ∀ k ∈ queue ++ seen, k ∈ nodes) (hfuel : pending next nodes queue seen ≤ fuel) :
    ∃ l, traverse next skip fuel queue seen = some l ∧
      TraversalInv next skip start [] l.reverse := by
  induction fuel generalizing queue seen with
  | zero =>
    cases queue with
    | nil => exact ⟨seen.reverse, rfl, by rwa [List.reverse_reverse]⟩
    | cons k queue => simp [pending] at hfuel
  | succ fuel ih =>
    cases queue with
    | nil => exact ⟨seen.reverse, rfl, by rwa [List.reverse_reverse]⟩
    | cons k queue =>
      rw [traverse]
      split
      · next hk =>
        refine ih (hinv.drop hk) (fun p hp => hnodes p (List.mem_cons_of_mem _ hp)) ?_
        simp only [pending, List.length_cons] at hfuel ⊢
        omega
      · next hk =>
        have hseen : k ∉ seen := fun h => hk (Or.inr h)
        have hkn := hnodes k (by simp)
        refine ih (hinv.visit hseen) (fun p hp => ?_) ?_
        · simp only [List.mem_append, List.mem_filter, List.mem_cons] at hp
          rcases hp with (hp | hp) | rfl | hp
          · exact hnodes p (by simp [hp])
          · exact hnext k hkn p hp.1
          · exact hkn
          · exact hnodes p (by simp [hp])
        · have hlt := pending_visit next queue hkn hseen
            fun p => ¬skip p ∧ p ∉ k :: seen
          omega

/-- Every node an open path leads to is visited, once, and no other. -/
theorem traverse_spec (next : K → List K) (skip : K → Bool) {nodes : Finset K}
    (hnext : ∀ k ∈ nodes, ∀ p ∈ next k, p ∈ nodes) {fuel : ℕ}
    (hfuel : 1 + ∑ k ∈ nodes, (next k).length ≤ fuel) (hmem : start ∈ nodes)
    (hstart : skip start = false) :
    ∃ l, traverse next skip fuel [start] [] = some l ∧ l.Nodup ∧
      ∀ x, x ∈ l ↔ OpenPath next skip start x := by
  obtain ⟨l, hl, hinv⟩ := traverse_of_inv hnext fuel (TraversalInv.initial hstart)
    (by simpa using hmem) (by simpa [pending] using hfuel)
  refine ⟨l, hl, List.nodup_reverse.mp hinv.nodup, fun x => ⟨fun hx => ?_, fun hx => ?_⟩⟩
  · exact (hinv.sound x (by simpa using hx)).2
  · induction hx with
    | refl => simpa using hinv.started
    | tail _ hlink ih => simpa using hinv.closed _ (by simpa using ih) _ hlink

end Spec

end DoltSwarm.Lib
