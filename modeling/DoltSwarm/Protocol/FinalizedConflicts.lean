import DoltSwarm.Protocol.CanonicalHistory

/-!
# Conflicts at the finalized layer

A finalized conflict is recorded when a sync joins two tips of which neither is an ancestor of
the other. Peers that finalize in the order of the hybrid clocks never get there; peers that do
not can, with every link up and nobody evicted.
-/

namespace DoltSwarm.Protocol

open Lib

set_option autoImplicit false

/-- Finalized state is exchanged between peers of which one has the tip of the other in its
lineage. -/
def onOneLine (s : State) : Action → Prop
  | .syncFinalized p q =>
    let links := mergeSetMap (s.nodes.get p).finalizedCommitParents
      (s.nodes.get q).finalizedCommitParents
    finalizedCommitIsAncestor (s.nodes.get p).finalizedCommitId
        (s.nodes.get q).finalizedCommitId links ∨
      finalizedCommitIsAncestor (s.nodes.get q).finalizedCommitId
        (s.nodes.get p).finalizedCommitId links
  | _ => True

instance (s : State) (a : Action) : Decidable (onOneLine s a) :=
  match a with
  | .syncFinalized _ _ => inferInstanceAs (Decidable (_ ∨ _))
  | .write _ _ | .receive _ _ | .chunksReady _ _ | .reconcile _ | .tick _ | .heartbeat _ _
  | .finalize _ | .gc _ _ | .partition _ _ | .heal _ _ | .evict _ _ | .resolveConflict _ _ _
  | .resolveFinalizedConflict _ _ _ => instDecidableTrue

/-! ## Without a merge there is no conflict -/

def conflictFree (st : NodeState) : Prop := st.finalizedConflicts.keys = ∅

section

variable [FoldOrder] {L : Finset Event} {st st' remote : NodeState}

omit [FoldOrder] in
theorem conflictFree.of_subset (h : conflictFree st)
    (hsub : st'.finalizedConflicts.keys ⊆ st.finalizedConflicts.keys) : conflictFree st' :=
  Finset.subset_empty.mp (hsub.trans h.le)

omit [FoldOrder] in
theorem keys_dropFinalizedConflicts (m : ConflictMap) (ids : Finset FinalizedConflictID) :
    (dropFinalizedConflicts m ids).keys ⊆ m.keys := by
  rw [dropFinalizedConflicts, Map.keys_removeAll]
  exact Finset.sdiff_subset

theorem conflictFree.finalize (h : conflictFree st) (he : finalizeEnabled st) :
    conflictFree (finalizeResult st) := by
  rcases finalizeResult_cases st he with ⟨_, heq⟩ | ⟨_, _, heq⟩
  · rw [heq]
    exact h.of_subset (keys_dropFinalizedConflicts _ _)
  · have hreplay : (replayNextEvent st).finalizedConflicts.keys ⊆ st.finalizedConflicts.keys := by
      simp only [replayNextEvent]
      split <;> exact keys_dropFinalizedConflicts _ _
    rw [heq]
    exact h.of_subset hreplay

theorem conflictFree.syncMetadata (h : conflictFree st) (hr : conflictFree remote)
    (tip : FinalizedCommitID) (root : ProllyRootHash) :
    conflictFree (syncMetadata st remote tip root) := by
  refine Finset.subset_empty.mp ((keys_dropFinalizedConflicts _ _).trans ?_)
  rw [mergeFinalizedConflictMap, Map.keys_firstWins, h, hr, Finset.empty_union]

theorem conflictFree.sync (h : conflictFree st) (hr : conflictFree remote)
    (hmode : syncMode st remote ≠ .merge) : conflictFree (syncFinalizedCoreResult st remote) := by
  simp only [syncFinalizedCoreResult]
  split
  · exact h.syncMetadata hr _ _
  · exact h.syncMetadata hr _ _
  · exact absurd ‹_› hmode

end

theorem syncMode_ne_merge {s : State} (h : SwarmInv s) {p q : PeerID} (hp : p ∈ peers)
    (hq : q ∈ peers) (hline : onOneLine s (.syncFinalized p q)) :
    syncMode (s.nodes.get p) (s.nodes.get q) ≠ .merge := by
  have hP := mergedParents_faithful (h.finalized p hp) (h.finalized q hq)
  rcases hline with hpq | hqp
  · by_cases heq : (s.nodes.get p).finalizedCommitId = (s.nodes.get q).finalizedCommitId
    · rw [syncMode_of_descendant hP (heq ▸ self_mem_lineageAncestors _ _)]
      simp
    · rw [syncMode_of_ancestor hP heq hpq]
      simp
  · rw [syncMode_of_descendant hP hqp]
    simp

theorem conflictFree_of_run {tr : List (State × Action)} {s : State} (h : Run Step init tr s)
    (hline : ∀ x ∈ tr, onOneLine x.1 x.2) : ∀ p ∈ peers, conflictFree (s.nodes.get p) := by
  refine Run.induct (I := fun _ s => ∀ p ∈ peers, conflictFree (s.nodes.get p)) (G := onOneLine)
    ?_ ?_ h hline
  · intro p hp
    have hget : init.nodes.get p = emptyNodeState p := Map.get_mapBy_of_mem _ hp
    rw [hget]
    simp [conflictFree, emptyNodeState]
  · rintro tr s a s' hr ih hG ⟨o, hs⟩ p hp
    have hinv := swarmInv_of_reachable ⟨tr, hr⟩
    rcases @finalized_effect o s s' a (@effect_of_step o _ _ _ hs) p with
      ⟨_, _, _, _, _, hcon, _⟩ | ⟨_, he, hst⟩ | ⟨r, hr, rfl, _, _, _, _, _, hcon, _⟩
    · rw [conflictFree, hcon]
      exact ih p hp
    · rw [hst]
      exact @conflictFree.finalize o _ (ih p hp) he
    · rw [conflictFree, hcon]
      exact @conflictFree.sync o _ _ (ih p hp) (ih r hr) (syncMode_ne_merge hinv hp hr hG)

/-! ## In the order of the hybrid clocks -/

theorem CanonicalInv.onOneLine {s : State} (h : CanonicalInv s) {a : Action}
    (horder : inHlcOrder s a) (henabled : ∀ p q, a = .syncFinalized p q → p ∈ peers ∧ q ∈ peers) :
    onOneLine s a := by
  cases a
  case syncFinalized p q =>
    obtain ⟨hp, hq⟩ := henabled p q rfl
    have hP := mergedParents_faithful (h.finalized p hp) (h.finalized q hq)
    have hclosed := ((h.lineages p hp).merge (h.lineages q hq)).closed
    have hcard : (mergeSetMap (s.nodes.get p).finalizedCommitParents
        (s.nodes.get q).finalizedCommitParents).keys.card ≤ maxEvents + 4 := by
      rw [keys_mergeSetMap]
      exact horder
    obtain ⟨H, hH⟩ := h.history
    obtain ⟨Hp, hsp, hfp⟩ := hH.follows p hp
    obtain ⟨Hq, hsq, hfq⟩ := hH.follows q hq
    simp only [Protocol.onOneLine, finalizedCommitIsAncestor]
    rw [hfp.tip, hfq.tip]
    rcases List.suffix_or_suffix_of_suffix hsp hsq with hpq | hqp
    · refine Or.inl ((hH.recorded.of_suffix hsq).tip_mem_walk hP hclosed hcard ?_ hpq)
      rw [keys_mergeSetMap, ← hfq.commits]
      exact Finset.subset_union_right
    · refine Or.inr ((hH.recorded.of_suffix hsp).tip_mem_walk hP hclosed hcard ?_ hqp)
      rw [keys_mergeSetMap, ← hfp.commits]
      exact Finset.subset_union_left
  all_goals trivial

/-- Without partition and eviction, no finalized conflict arises as long as finalized state is
exchanged along one line, which is so when peers finalize in the order of the hybrid clocks. -/
theorem no_finalized_conflict_on_one_line {tr : List (State × Action)} {s : State}
    (h : Run Step init tr s) (hquiet : ∀ x ∈ tr, undisturbed x.2) :
    ((∀ x ∈ tr, onOneLine x.1 x.2) → ∀ p ∈ peers, (s.nodes.get p).finalizedConflicts.keys = ∅) ∧
    ((∀ x ∈ tr, inHlcOrder x.1 x.2) → ∀ x ∈ tr, onOneLine x.1 x.2) := by
  refine ⟨fun hline => conflictFree_of_run h hline, fun horder x hx => ?_⟩
  obtain ⟨tr₀, hrun, hsub⟩ := h.initial_of_mem hx
  have hinv := canonicalInv_of_run hrun fun y hy =>
    ⟨hquiet y (hsub hy), horder y (hsub hy)⟩
  obtain ⟨_, _, ⟨o, hstep⟩, _⟩ := h.step_of_mem hx
  refine hinv.onOneLine (horder x hx) fun p q ha => ?_
  rw [ha] at hstep
  simp only [step, Option.ite_none_right_eq_some] at hstep
  exact ⟨hstep.1.1, hstep.1.2.1⟩

/-- Peers 1 and 2 write competing contents and pass each other the events without their chunks,
so that each finalizes its own write first. -/
def competingRun : List Action :=
  let first := writtenEvent (emptyNodeState 1) 1 11
  let second := writtenEvent (emptyNodeState 2) 2 14
  [.write 1 11, .write 2 14, .receive 1 second, .receive 2 first, .receive 3 first,
    .receive 3 second, .heartbeat 1 2, .heartbeat 1 3, .heartbeat 2 1, .heartbeat 2 3,
    .finalize 1, .finalize 2, .syncFinalized 1 2]

theorem finalized_conflict_undisturbed : ∃ tr s, Run Step init tr s ∧
    (∀ x ∈ tr, undisturbed x.2) ∧ ∃ p ∈ peers, (s.nodes.get p).finalizedConflicts.keys ≠ ∅ := by
  have hrun : Run Step init (runOutcome competingRun).1 (runOutcome competingRun).2 :=
    run_runOutcome (by decide +kernel)
  exact ⟨_, _, hrun, by decide +kernel, 1, by decide, by decide +kernel⟩

theorem no_finalized_conflict_on_one_line_on_ordered :
    (orderedState.nodes.get 3).finalizedCommitId ≠ emptyFinalizedCommitId ∧
    (orderedState.nodes.get 3).finalizedConflicts.keys = ∅ := by
  have hquiet : ∀ x ∈ (runOutcome orderedRun).1, undisturbed x.2 := by decide +kernel
  obtain ⟨hfree, hline⟩ := no_finalized_conflict_on_one_line orderedRun_runs hquiet
  exact ⟨by decide +kernel, hfree (hline (by decide +kernel)) 3 (by decide)⟩

end DoltSwarm.Protocol
