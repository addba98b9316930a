import DoltSwarm.Protocol.Convergence
import DoltSwarm.Protocol.Replay

/-!
# The lineage under a finalized tip

A peer stands on top of all it has on record: every known commit is an ancestor of its tip,
and each step moves the tip to a descendant of where it was.
-/

namespace DoltSwarm.Protocol

open Lib

set_option autoImplicit false

/-- Every commit on record is an ancestor of the tip. -/
def Topped (st : NodeState) : Prop :=
  ∀ c ∈ st.finalizedCommitParents.keys,
    ancestorThrough st.finalizedCommitParents c st.finalizedCommitId

structure LineageInv (s : State) : Prop extends ContentInv s where
  topped : ∀ p ∈ peers, Topped (s.nodes.get p)

/-- The record has only grown and the tip has moved to a descendant. -/
structure TipMoved (st st' : NodeState) : Prop where
  keys : st.finalizedCommitParents.keys ⊆ st'.finalizedCommitParents.keys
  tip : ancestorThrough st'.finalizedCommitParents st.finalizedCommitId st'.finalizedCommitId

section

variable {L L' : Finset Event} {st st' remote : NodeState}

theorem TipMoved.of_same (h : sameFinalizedState st' st) : TipMoved st st' := by
  obtain ⟨htip, _, _, _, hpar, _⟩ := h
  exact ⟨by rw [hpar], htip ▸ Or.inr .refl⟩

theorem TipMoved.topped (h : TipMoved st st') (hst : FinalizedOk L st)
    (hst' : FinalizedOk L' st') (ht : Topped st) {c : FinalizedCommitID}
    (hc : c ∈ st.finalizedCommitParents.keys) :
    ancestorThrough st'.finalizedCommitParents c st'.finalizedCommitId :=
  hst.lineage.ancestorThrough_extend hst'.lineage h.keys (ht c hc) h.tip

theorem topped_of_same (h : sameFinalizedState st' st) (ht : Topped st) : Topped st' := by
  obtain ⟨htip, _, _, _, hpar, _⟩ := h
  intro c hc
  rw [hpar] at hc ⊢
  rw [htip]
  exact ht c hc

variable [FoldOrder]

theorem tipMoved_finalize (hst : FinalizedOk L st) (he : finalizeEnabled st) :
    TipMoved st (finalizeResult st) ∧ (finalizeResult st).finalizedCommitParents.keys ⊆
      insert (finalizeResult st).finalizedCommitId st.finalizedCommitParents.keys := by
  rcases finalizeResult_cases st he with ⟨_, heq⟩ | ⟨_, _, heq⟩
  · rw [heq]
    exact ⟨⟨Finset.Subset.refl _, Or.inr .refl⟩, Finset.subset_insert _ _⟩
  · rw [heq, hst.replayNextEvent_eq]
    refine ⟨⟨?_, ?_⟩, ?_⟩
    · exact (Finset.subset_insert _ _).trans (Map.keys_put _ _ _).ge
    · by_cases hempty : st.finalizedCommitId = emptyFinalizedCommitId
      · exact Or.inl hempty
      · refine Or.inr (.single ?_)
        change st.finalizedCommitId ∈ parentsAt (st.finalizedCommitParents.put
          (nextFinalizedCommit st) (nextParents st)) (nextFinalizedCommit st)
        rw [parentsAt_of_lookup (Map.lookup_put_self _ _ _), nextParents, if_neg hempty]
        exact Finset.mem_singleton_self _
    · exact (Map.keys_put _ _ _).le

omit [FoldOrder] in
theorem tipMoved_of_below {a b : NodeState} (h : Below a.synced b.synced) : TipMoved a b :=
  ⟨h.parents, path_of_mem_lineageAncestors h.tip⟩

theorem keys_syncFinalizedCoreResult (hl : FinalizedOk L st) (hr : FinalizedOk L remote) :
    (syncFinalizedCoreResult st remote).finalizedCommitParents.keys ⊆
      insert (syncFinalizedCoreResult st remote).finalizedCommitId
        (st.finalizedCommitParents.keys ∪ remote.finalizedCommitParents.keys) := by
  simp only [syncFinalizedCoreResult]
  split
  · exact (keys_mergeSetMap _ _).le.trans (Finset.subset_insert _ _)
  · exact (keys_mergeSetMap _ _).le.trans (Finset.subset_insert _ _)
  · rw [syncMergeResult_parents hl hr, Map.keys_put, keys_mergeSetMap]
    exact Finset.Subset.refl _

end

section

variable {s s' : State} {a : Action}

theorem tipMoved_effect [o : FoldOrder] (h : SwarmInv s) (heff : Effect s a s')
    {p : PeerID} (hp : p ∈ peers) : TipMoved (s.nodes.get p) (s'.nodes.get p) := by
  rcases finalized_effect heff p with hsame | ⟨_, he, hst⟩ | ⟨r, hr, _, hsame⟩
  · exact .of_same hsame
  · rw [hst]
    exact (tipMoved_finalize (h.finalized p hp) he).1
  · have hmoved := tipMoved_of_below
      (below_core h.toLedgerInv o (h.finalized p hp) (h.finalized r hr)).1
    obtain ⟨htip, _, _, _, hpar, _⟩ := hsame
    exact ⟨hpar ▸ hmoved.keys, by rw [hpar, htip]; exact hmoved.tip⟩

theorem topped_finalize [FoldOrder] (h : LineageInv s) {p : PeerID} (hp : p ∈ peers)
    (he : finalizeEnabled (s.nodes.get p)) : Topped (finalizeResult (s.nodes.get p)) := by
  have hok := h.finalized p hp
  have hok' := hok.finalizeResult (fun _ hid => (h.node p hp).get_mem hid) he
  obtain ⟨hmoved, hkeys⟩ := tipMoved_finalize hok he
  intro c hc
  rcases Finset.mem_insert.mp (hkeys hc) with rfl | hc
  · exact Or.inr .refl
  · exact hmoved.topped hok hok' (h.topped p hp) hc

theorem topped_sync [o : FoldOrder] (h : LineageInv s) {p q : PeerID} (hp : p ∈ peers)
    (hq : q ∈ peers) : Topped (syncFinalizedCoreResult (s.nodes.get p) (s.nodes.get q)) := by
  have hl := h.finalized p hp
  have hr := h.finalized q hq
  have hok := finalizedOk_core hl hr
  obtain ⟨hbelow, hbelow'⟩ := below_core h.toLedgerInv o hl hr
  intro c hc
  rcases Finset.mem_insert.mp (keys_syncFinalizedCoreResult hl hr hc) with rfl | hc
  · exact Or.inr .refl
  · rcases Finset.mem_union.mp hc with hc | hc
    · exact (tipMoved_of_below hbelow).topped hl hok (h.topped p hp) hc
    · exact (tipMoved_of_below hbelow').topped hr hok (h.topped q hq) hc

theorem lineageInv_effect [FoldOrder] (h : LineageInv s) (heff : Effect s a s') :
    LineageInv s' where
  toContentInv := contentInv_effect h.toContentInv heff
  topped := by
    intro p hp
    rcases finalized_effect heff p with hsame | ⟨_, he, hst⟩ | ⟨r, hr, _, hsame⟩
    · exact topped_of_same hsame (h.topped p hp)
    · rw [hst]
      exact topped_finalize h hp he
    · exact topped_of_same hsame (topped_sync h hp hr)

end

theorem lineageInv_init : LineageInv init where
  toContentInv := contentInv_init
  topped := by
    intro p hp
    have hget : init.nodes.get p = emptyNodeState p := Map.get_mapBy_of_mem _ hp
    rw [hget]
    intro c hc
    have hempty : c = emptyFinalizedCommitId := by simpa [emptyNodeState] using hc
    exact Or.inl hempty

theorem lineageInv_of_reachable {s : State} (h : Reachable Step init s) : LineageInv s :=
  invariant_of_effect lineageInv_init
    (fun o _ _ _ hI heff => @lineageInv_effect _ _ _ o hI heff) h

/-! ## Order of the lineage -/

/-- A finalized lineage in which ids spell out parents, parents are on record, no commit is
below itself and all commits lie under the tip the peer stands on. -/
structure OrderedLineage (st : NodeState) : Prop where
  faithful : ∀ c ∈ st.finalizedCommitParents.keys, ∀ o : FoldOrder,
    c = @makeFinalizedCommitID o c.root (st.finalizedCommitParents.get c) c.kind
  bottom : st.finalizedCommitParents.lookup emptyFinalizedCommitId = some ∅
  closed : ∀ c ∈ st.finalizedCommitParents.keys,
    st.finalizedCommitParents.get c ⊆ st.finalizedCommitParents.keys
  acyclic : ∀ c, ¬Relation.TransGen
    (fun child parent => parent ∈ parentsAt st.finalizedCommitParents child) c c
  topped : ∀ c ∈ st.finalizedCommitParents.keys,
    ancestorThrough st.finalizedCommitParents c st.finalizedCommitId
  root_eq : st.finalizedProllyRootHash = st.finalizedCommitId.root

theorem LineageInv.ordered {s : State} (h : LineageInv s) {p : PeerID} (hp : p ∈ peers) :
    OrderedLineage (s.nodes.get p) where
  faithful := fun c hc => ((h.finalized p hp).lineage c _ (Map.lookup_of_mem hc)).id_eq
  bottom := by
    have hmem := (h.finalized p hp).empty_mem
    have hpar := (h.finalized p hp).lineage.parentsAt_empty
    rw [parentsAt, if_pos hmem] at hpar
    rw [Map.lookup_of_mem hmem, hpar]
  closed := by
    intro c hc
    have hclosed := (h.lineages p hp).closed c
    rwa [parentsAt, if_pos hc] at hclosed
  acyclic := (h.finalized p hp).lineage.acyclic
  topped := h.topped p hp
  root_eq := (h.finalized p hp).root_eq

/-- Finalized lineages are faithful, acyclic and topped by their tip, peers agree on the
commits they share, and no step moves a tip off the line it stands on. -/
theorem finalized_lineage_is_ordered {s : State} (h : Reachable Step init s) {p : PeerID}
    (hp : p ∈ peers) :
    OrderedLineage (s.nodes.get p) ∧
    (∀ q ∈ peers, ∀ c ∈ (s.nodes.get p).finalizedCommitParents.keys,
      c ∈ (s.nodes.get q).finalizedCommitParents.keys →
      (s.nodes.get p).finalizedCommitParents.get c =
        (s.nodes.get q).finalizedCommitParents.get c) ∧
    ∀ a s', Step s a s' →
      ancestorThrough (s'.nodes.get p).finalizedCommitParents (s.nodes.get p).finalizedCommitId
        (s'.nodes.get p).finalizedCommitId := by
  have hinv := lineageInv_of_reachable h
  refine ⟨hinv.ordered hp, ?_, ?_⟩
  · intro q hq c hcp hcq
    exact ((hinv.finalized p hp).lineage c _ (Map.lookup_of_mem hcp)).unique
      ((hinv.finalized q hq).lineage c _ (Map.lookup_of_mem hcq))
  · rintro a s' ⟨o, hstep⟩
    exact (tipMoved_effect hinv.toSwarmInv (@effect_of_step o _ _ _ hstep) hp).tip

/-- After the fork peer 1 syncs with peer 2 and stands on the merge of both tips. -/
def mergedForkState : State := (runOutcome (forkRun ++ [.syncFinalized 1 2])).2

theorem finalized_lineage_is_ordered_on_fork :
    (forkState.nodes.get 1).finalizedCommitId ≠ (mergedForkState.nodes.get 1).finalizedCommitId ∧
    ancestorThrough (mergedForkState.nodes.get 1).finalizedCommitParents
      (forkState.nodes.get 1).finalizedCommitId
      (mergedForkState.nodes.get 1).finalizedCommitId := by
  have hstep : Step forkState (.syncFinalized 1 2) mergedForkState :=
    ⟨ascendingFolds, by decide +kernel⟩
  have hreach : Reachable Step init forkState := ⟨_, forkRun_runs⟩
  exact ⟨by decide +kernel,
    (finalized_lineage_is_ordered hreach (p := 1) (by decide)).2.2 _ _ hstep⟩

end DoltSwarm.Protocol
