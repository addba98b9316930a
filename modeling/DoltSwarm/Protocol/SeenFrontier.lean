import Mathlib.Order.Antichain
import DoltSwarm.Protocol.BoundedClosure
import DoltSwarm.Protocol.Frontier

/-!
# What the seen frontier says

Peers exchange frontiers in place of clocks. As long as the rounds of the closure cover every
chain of parent links, the frontier of a clock says exactly which events are there with their
whole ancestry: no frontier event is an ancestor of another, and the ancestors of frontier
events are the parent-closed ones.
-/

namespace DoltSwarm.Protocol

open Lib

set_option autoImplicit false

theorem mem_keys_of_mem_clockParents {clock : Clock} {id x : EventID}
    (h : x ∈ clockParents clock id) : id ∈ clock.keys := by
  by_contra hid
  rw [clockParents, if_neg hid] at h
  exact Finset.notMem_empty x h

theorem clockParents_subMap {clock clock' : Clock} (h : Map.SubMap clock' clock) (id : EventID) :
    clockParents clock' id ⊆ clockParents clock id := by
  intro x hx
  have hid := mem_keys_of_mem_clockParents hx
  rw [clockParents, if_pos hid, h.get_eq hid] at hx
  rw [clockParents, if_pos (h.keys_subset hid)]
  exact hx

theorem mem_observedFrontier {clock : Clock} {id : EventID} :
    id ∈ observedFrontier clock ↔ isParentClosed clock id ∧
      ∀ child, isParentClosed clock child → id ∉ clockParents clock child := by
  simp only [observedFrontier, Finset.mem_filter, not_exists, not_and]
  constructor
  · rintro ⟨⟨-, hclosed⟩, htop⟩
    refine ⟨hclosed, fun child hchild hlink => ?_⟩
    rw [clockParents, if_pos hchild.1] at hlink
    exact htop child ⟨hchild.1, hchild⟩ hlink
  · rintro ⟨hclosed, htop⟩
    refine ⟨⟨hclosed.1, hclosed⟩, fun child hchild hlink => ?_⟩
    apply htop child hchild.2
    rw [clockParents, if_pos hchild.1]
    exact hlink

/-! ## Clocks whose chains the rounds cover -/

section Covered

variable {clock : Clock} (h : ChainsWithin (clockParents clock) maxEvents)

include h

theorem mem_ancestorIdClosure_iff {id x : EventID} :
    x ∈ ancestorIdClosure {id} clock ↔ Path (clockParents clock) id x :=
  h.mem_unrolledClosure_iff

theorem isParentClosed_iff_allAncestorsPresent {id : EventID} :
    isParentClosed clock id ↔ allAncestorsPresent clock id := by
  constructor
  · rintro ⟨-, hsub⟩ x hpath
    exact hsub ((mem_ancestorIdClosure_iff h).mpr hpath)
  · intro hall
    exact ⟨hall id .refl, fun x hx => hall x ((mem_ancestorIdClosure_iff h).mp hx)⟩

theorem isParentClosed_of_path {id x : EventID} (hclosed : isParentClosed clock id)
    (hpath : Path (clockParents clock) id x) : isParentClosed clock x := by
  rw [isParentClosed_iff_allAncestorsPresent h] at hclosed ⊢
  exact fun y hy => hclosed y (hpath.trans hy)

theorem observedFrontier_antichain :
    IsAntichain (Path (clockParents clock)) (observedFrontier clock : Set EventID) := by
  intro a ha b hb hne hpath
  obtain ⟨hclosed, -⟩ := mem_observedFrontier.mp ha
  obtain ⟨-, htop⟩ := mem_observedFrontier.mp hb
  -- the last event before `b` on the way down from `a` is a parent-closed child of `b`
  rcases hpath.cases_tail with heq | ⟨child, hchild, hlink⟩
  · exact hne heq.symm
  · exact htop child (isParentClosed_of_path h hclosed hchild) hlink

/-- Above every parent-closed event there is a frontier event. -/
theorem exists_observedFrontier_above {id : EventID} (hclosed : isParentClosed clock id) :
    ∃ fid ∈ observedFrontier clock, Path (clockParents clock) fid id := by
  have hid : id ∈ clock.keys.filter fun x => isParentClosed clock x :=
    Finset.mem_filter.mpr ⟨hclosed.1, hclosed⟩
  obtain ⟨fid, hfid, hpath, htop⟩ := h.acyclic.exists_top hid
  refine ⟨fid, mem_observedFrontier.mpr ⟨(Finset.mem_filter.mp hfid).2, ?_⟩, hpath⟩
  intro child hchild
  exact htop child (Finset.mem_filter.mpr ⟨hchild.1, hchild⟩)

theorem frontierCovers_observedFrontier_iff {id : EventID} :
    frontierCovers clock (observedFrontier clock) id ↔ isParentClosed clock id := by
  constructor
  · rintro ⟨fid, hfid, -, hmem⟩
    have hclosed := (mem_observedFrontier.mp hfid).1
    exact isParentClosed_of_path h hclosed ((mem_ancestorIdClosure_iff h).mp hmem)
  · intro hclosed
    obtain ⟨fid, hfid, hpath⟩ := exists_observedFrontier_above h hclosed
    have hkey := (mem_observedFrontier.mp hfid).1.1
    exact ⟨fid, hfid, hkey, (mem_ancestorIdClosure_iff h).mpr hpath⟩

end Covered

/-- If no chain of parent links has more than `maxEvents` links, which leaves no room for a
cycle, the frontier is an antichain and covers exactly the parent-closed events. -/
theorem seen_frontier_is_exact {clock : Clock}
    (h : ChainsWithin (clockParents clock) maxEvents) :
    IsAntichain (Path (clockParents clock)) (observedFrontier clock : Set EventID) ∧
    ∀ id ∈ clock.keys,
      frontierCovers clock (observedFrontier clock) id ↔ isParentClosed clock id :=
  ⟨observedFrontier_antichain h, fun _ _ => frontierCovers_observedFrontier_iff h⟩

/-! ## Reachable clocks -/

theorem LedgerInv.clock_acyclic {s : State} (h : LedgerInv s) {p : PeerID} (hp : p ∈ peers) :
    Acyclic (clockParents (s.nodes.get p).clock) := by
  intro id hcycle
  obtain ⟨child, hpath, hlink⟩ := Relation.TransGen.tail'_iff.mp hcycle
  have hchild := mem_keys_of_mem_clockParents hlink
  obtain ⟨below, hlink', -⟩ := Relation.TransGen.head'_iff.mp hcycle
  have hid := mem_keys_of_mem_clockParents hlink'
  obtain ⟨hmem, heq⟩ := (h.node p hp).get_mem hid
  obtain ⟨hmem', heq'⟩ := (h.node p hp).get_mem hchild
  have hnewer := h.path_not_newer hp hpath _ hmem heq _ hmem' heq'
  rw [clockParents, if_pos hchild] at hlink
  rw [h.parent_older hp hchild hid hlink] at hnewer
  cases hnewer

theorem LedgerInv.chainsWithin {s : State} (h : LedgerInv s) {p : PeerID} (hp : p ∈ peers)
    (hcard : (s.nodes.get p).clock.keys.card ≤ maxEvents) :
    ChainsWithin (clockParents (s.nodes.get p).clock) maxEvents := by
  have hchains := (h.clock_acyclic hp).chainsWithin
    (s := (s.nodes.get p).clock.keys) fun _ _ hlink => mem_keys_of_mem_clockParents hlink
  exact fun id l hl => (hchains id l hl).trans hcard

/-- Peer 1 holds an event whose parent it has collected; the frontier leaves it out. -/
theorem seen_frontier_is_exact_on_orphan :
    observedFrontier (lostAncestorState.nodes.get 1).clock = {⟨1, 1, 3⟩} ∧
    ¬frontierCovers (lostAncestorState.nodes.get 1).clock
      (observedFrontier (lostAncestorState.nodes.get 1).clock) ⟨3, 1, 5⟩ := by
  have hled : LedgerInv lostAncestorState := ledgerInv_of_reachable ⟨_, lostAncestorRun_runs⟩
  have hchains := hled.chainsWithin (p := 1) (by decide) (by decide +kernel)
  refine ⟨by decide +kernel, ?_⟩
  rw [(seen_frontier_is_exact hchains).2 ⟨3, 1, 5⟩ (by decide +kernel)]
  decide +kernel

end DoltSwarm.Protocol
