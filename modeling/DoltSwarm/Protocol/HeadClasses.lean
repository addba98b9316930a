import DoltSwarm.Protocol.GarbageCollection

/-!
# Every head is in one class

The parked heads come from the conflicts of a fold, from a safety test on the ready heads and
from what was parked before; the basis is what the fold merged; the subsumed events come from
resolution links. No id is in two of these sets, and once something is ready no ready head is
in none of them.
-/

namespace DoltSwarm.Protocol

open Lib

set_option autoImplicit false

/-- Parked heads and basis as two classes of live heads. -/
structure HeadClasses (st : NodeState) : Prop where
  parked_heads : st.parkedConflicts ⊆ st.headEventIds
  basis_heads : st.projectionBasis ⊆ st.headEventIds
  parked_basis : Disjoint st.parkedConflicts st.projectionBasis
  parked_finalized : Disjoint st.parkedConflicts st.finalizedEvents.keys
  basis_finalized : Disjoint st.projectionBasis st.finalizedEvents.keys
  parked_subsumed : Disjoint st.parkedConflicts (subsumedEvents st.clock)
  basis_subsumed : Disjoint st.projectionBasis (subsumedEvents st.clock)
  ready : ∀ id ∈ mergeableHeadEventIDs st, Xor (id ∈ st.parkedConflicts) (id ∈ st.projectionBasis)
  unready : mergeableHeadEventIDs st ≠ ∅ →
    ∀ id ∈ tentativeHeadEventIDs st, id ∉ mergeableHeadEventIDs st → id ∉ st.projectionBasis

/-! ## Parked heads and basis -/

section Projection

variable [FoldOrder] {st : NodeState}

theorem disjoint_of_ready (hready : mergeableHeadEventIDs st ≠ ∅) :
    Disjoint (computeTentativeProjection st).2.1 (computeTentativeProjection st).2.2 := by
  rw [projection_of_ready hready, Finset.disjoint_left]
  intro id hparked hbasis
  obtain ⟨hproj, hmerged⟩ := Finset.mem_sdiff.mp hbasis
  obtain ⟨hmerge, hsafe⟩ := Finset.mem_sdiff.mp hproj
  rcases Finset.mem_union.mp hparked with hparked | hunsafe
  · rcases Finset.mem_union.mp hparked with hconflict | hretained
    · exact hmerged hconflict
    · exact (Finset.mem_sdiff.mp (Finset.mem_inter.mp hretained).2).2 hmerge
  · exact hsafe hunsafe

theorem disjoint_projection (h : Disjoint st.parkedConflicts st.projectionBasis) :
    Disjoint (computeTentativeProjection st).2.1 (computeTentativeProjection st).2.2 := by
  by_cases hnone : tentativeHeadEventIDs st = ∅
  · rw [projection_of_no_head hnone]
    exact Finset.disjoint_empty_left _
  by_cases hready : mergeableHeadEventIDs st = ∅
  · rw [projection_of_unready hnone hready]
    exact h.mono Finset.inter_subset_left Finset.inter_subset_left
  · exact disjoint_of_ready hready

theorem mem_parked_or_basis_of_ready {id : EventID} (hid : id ∈ mergeableHeadEventIDs st) :
    id ∈ (computeTentativeProjection st).2.1 ∨ id ∈ (computeTentativeProjection st).2.2 := by
  rw [projection_of_ready (Finset.ne_empty_of_mem hid)]
  by_cases hunsafe : id ∈ replayUnsafeEligibleHeads st (mergeableHeadEventIDs st)
  · exact Or.inl (Finset.mem_union_right _ hunsafe)
  by_cases hconflict : id ∈ (anchoredFold (projectionReadyHeads st) st.clock
      st.finalizedProllyRootHash).2
  · exact Or.inl (Finset.mem_union_left _ (Finset.mem_union_left _ hconflict))
  · exact Or.inr (Finset.mem_sdiff.mpr ⟨Finset.mem_sdiff.mpr ⟨hid, hunsafe⟩, hconflict⟩)

theorem basis_subset_ready (hready : mergeableHeadEventIDs st ≠ ∅) :
    (computeTentativeProjection st).2.2 ⊆ mergeableHeadEventIDs st := by
  rw [projection_of_ready hready]
  exact Finset.sdiff_subset.trans (projectionReadyHeads_subset st)

end Projection

/-! ## The invariant -/

structure ClassesInv (s : State) : Prop extends SettledInv s where
  apart : ∀ p ∈ peers, Disjoint (s.nodes.get p).parkedConflicts (s.nodes.get p).projectionBasis

theorem classesInv_init : ClassesInv init where
  toSettledInv := settledInv_init
  apart := by
    intro p hp
    have hget : init.nodes.get p = emptyNodeState p := Map.get_mapBy_of_mem _ hp
    rw [hget]
    exact Finset.disjoint_empty_left _

theorem classesInv_effect [FoldOrder] {s s' : State} {a : Action} (h : ClassesInv s)
    (heff : Effect s a s') : ClassesInv s' := by
  refine ⟨settledInv_effect h.toSettledInv heff, ?_⟩
  have hput : ∀ p st, s'.nodes = s.nodes.put p st →
      Disjoint st.parkedConflicts st.projectionBasis → ∀ q ∈ peers,
      Disjoint (s'.nodes.get q).parkedConflicts (s'.nodes.get q).projectionBasis := by
    intro p st hnodes hst
    rw [hnodes]
    exact Map.forall_get_put
      (P := fun _ (st : NodeState) => Disjoint st.parkedConflicts st.projectionBasis) h.apart hst
  cases heff with
  | emit p e hp _ _ => exact hput p _ rfl (disjoint_projection (h.apart p hp))
  | receive p e hp _ => exact hput p _ rfl (disjoint_projection (h.apart p hp))
  | touch p st hp ht =>
    cases ht with
    | chunksReady id _ _ => exact hput p _ rfl (disjoint_projection (h.apart p hp))
    | reconcile _ => exact hput p _ rfl (disjoint_projection (h.apart p hp))
    | tick _ => exact hput p _ rfl (h.apart p hp)
    | evict q _ _ _ _ => exact hput p _ rfl (h.apart p hp)
  | heartbeat p q hp _ _ _ => exact hput p _ rfl (h.apart p hp)
  | finalize p hp he =>
    rcases finalizeResult_cases _ he with ⟨_, heq⟩ | ⟨_, _, heq⟩
    · exact hput p _ (congrArg (s.nodes.put p) heq) (disjoint_projection (h.apart p hp))
    · refine hput p _ (congrArg (s.nodes.put p) heq) (disjoint_projection ?_)
      rw [replayNextEvent_frame]
      exact h.apart p hp
  | gc p id hp _ => exact hput p _ rfl (disjoint_projection (h.apart p hp))
  | sync p q hp hq _ =>
    obtain ⟨clock, ready, _, heq⟩ := syncResult_eq p (s.nodes.get p) (s.nodes.get q)
    refine hput p _ (congrArg (s.nodes.put p) heq) (disjoint_projection ?_)
    rw [syncFinalizedCoreResult_frame]
    exact h.apart p hp
  | network conn _ => exact h.apart

theorem classesInv_of_reachable {s : State} (h : Reachable Step init s) : ClassesInv s :=
  invariant_of_effect classesInv_init
    (fun o _ _ _ hI heff => @classesInv_effect o _ _ _ hI heff) h

/-! ## Subsumed events -/

theorem exists_child_of_subsumed {clock : Clock}
    (hresolved : ∀ e ∈ clock.keys, ∀ pid ∈ (clock.get e).resolvedParkedEventId,
      pid ∈ (clock.get e).parentEventIds) {id : EventID} (hid : id ∈ subsumedEvents clock) :
    ∃ e ∈ clock.keys, id ∈ (clock.get e).parentEventIds := by
  obtain ⟨root, hroot, hpath⟩ := path_of_mem_unrolledClosure hid
  rcases hpath.cases_tail with heq | ⟨child, -, hlink⟩
  · obtain ⟨e, he, hres⟩ := mem_resolvedParkedRoots.mp hroot
    rw [heq]
    exact ⟨e, he, hresolved e he root hres⟩
  · have hchild := mem_keys_of_mem_clockParents hlink
    rw [clockParents, if_pos hchild] at hlink
    exact ⟨child, hchild, hlink⟩

theorem LedgerInv.disjoint_heads_subsumed {s : State} (h : LedgerInv s) {p : PeerID}
    (hp : p ∈ peers) :
    Disjoint (s.nodes.get p).headEventIds (subsumedEvents (s.nodes.get p).clock) := by
  rw [Finset.disjoint_left]
  intro id hhead hsubsumed
  have hresolved : ∀ e ∈ (s.nodes.get p).clock.keys,
      ∀ pid ∈ ((s.nodes.get p).clock.get e).resolvedParkedEventId,
      pid ∈ ((s.nodes.get p).clock.get e).parentEventIds := fun e he =>
    (h.shape _ ((h.node p hp).get_mem he).1).resolved_mem
  obtain ⟨e, he, hlink⟩ := exists_child_of_subsumed hresolved hsubsumed
  rw [(h.node p hp).heads] at hhead
  exact (mem_computeHeadEventIDs.mp hhead).2 e he hlink

/-- At every peer of a reachable state the heads are classified. -/
theorem heads_are_classified {s : State} (h : Reachable Step init s) {p : PeerID}
    (hp : p ∈ peers) : HeadClasses (s.nodes.get p) := by
  have hinv := classesInv_of_reachable h
  have hst := hinv.settled p hp
  have hsubsumed := hinv.disjoint_heads_subsumed hp
  have hparked := Finset.subset_sdiff.mp hst.parked_subset
  have hbasis := Finset.subset_sdiff.mp hst.basis_subset
  have hproj := hst.projected ascendingFolds
  constructor
  case parked_heads => exact hparked.1
  case basis_heads => exact hbasis.1
  case parked_basis => exact hinv.apart p hp
  case parked_finalized => exact hparked.2
  case basis_finalized => exact hbasis.2
  case parked_subsumed => exact hsubsumed.mono_left hparked.1
  case basis_subsumed => exact hsubsumed.mono_left hbasis.1
  case ready =>
    intro id hid
    have hclass := @mem_parked_or_basis_of_ready ascendingFolds _ id hid
    rw [hproj] at hclass
    have hapart := Finset.disjoint_left.mp (hinv.apart p hp)
    rcases hclass with hin | hin
    · exact Or.inl ⟨hin, hapart hin⟩
    · exact Or.inr ⟨hin, fun hin' => hapart hin' hin⟩
  case unready =>
    intro hready id _ hid hin
    have hsub := @basis_subset_ready ascendingFolds _ hready
    rw [hproj] at hsub
    exact hid (hsub hin)

/-- Both classes are inhabited at a peer that holds two conflicting writes. -/
theorem heads_are_classified_on_conflict :
    mergeableHeadEventIDs (conflictState.nodes.get 1) = {⟨1, 1, 1⟩, ⟨2, 1, 1⟩} ∧
    ⟨1, 1, 1⟩ ∈ (conflictState.nodes.get 1).projectionBasis ∧
    ⟨1, 1, 1⟩ ∉ (conflictState.nodes.get 1).parkedConflicts := by
  have hclasses := heads_are_classified ⟨_, conflictRun_runs⟩ (p := 1) (by decide)
  have hbasis : ⟨1, 1, 1⟩ ∈ (conflictState.nodes.get 1).projectionBasis := by decide +kernel
  exact ⟨by decide +kernel, hbasis, Finset.disjoint_right.mp hclasses.parked_basis hbasis⟩

end DoltSwarm.Protocol
