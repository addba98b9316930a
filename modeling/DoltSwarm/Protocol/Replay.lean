import DoltSwarm.Protocol.FinalizedMerge
import DoltSwarm.Protocol.Parking

/-!
# Contents of roots, and what a replay makes of a write

All roots in play are contents or the empty root, so every merge of the protocol is the
dimension-wise one. The base that an event is replayed on is the root its author saw.
-/

namespace DoltSwarm.Protocol

open Lib

set_option autoImplicit false

/-! ## Merging contents -/

def contentRoots : Finset ProllyRootHash := insert emptyRoot contents

theorem mergeRoots_mem {a b c : ProllyRootHash} (ha : a ∈ contentRoots) (hb : b ∈ contentRoots)
    (hc : c ∈ contentRoots) (hne : mergeRoots a b c ≠ conflictHash) :
    mergeRoots a b c ∈ contentRoots := by
  have hall : ∀ a ∈ contentRoots, ∀ b ∈ contentRoots, ∀ c ∈ contentRoots,
      mergeRoots a b c ≠ conflictHash → mergeRoots a b c ∈ contentRoots := by decide +kernel
  exact hall a ha b hb c hc hne

theorem foldl_anchoredStep_mem {clock : Clock} (l : List EventID)
    (hl : ∀ id ∈ l, (clock.get id).prollyRootHash ∈ contentRoots ∧
      (clock.get id).anchorProllyRootHash ∈ contentRoots)
    (acc : ProllyRootHash × Finset EventID) (hacc : acc.1 ∈ contentRoots) :
    (l.foldl (anchoredStep clock) acc).1 ∈ contentRoots := by
  induction l generalizing acc with
  | nil => exact hacc
  | cons id ids ih =>
    simp only [List.mem_cons, forall_eq_or_imp] at hl
    refine ih hl.2 _ ?_
    simp only [anchoredStep]
    split
    · exact hacc
    · exact mergeRoots_mem hacc hl.1.1 hl.1.2 ‹_›

theorem conflictHash_notMem : conflictHash ∉ contentRoots := by decide

/-- Every event writes a content over a content root. -/
def ContentClock (clock : Clock) : Prop :=
  ∀ id ∈ clock.keys, (clock.get id).prollyRootHash ∈ contents ∧
    (clock.get id).anchorProllyRootHash ∈ contentRoots

namespace ContentClock

variable [FoldOrder] {clock : Clock}

theorem fold_mem (h : ContentClock clock) {ids : Finset EventID} (hids : ids ⊆ clock.keys)
    {start : ProllyRootHash} (hstart : start ∈ contentRoots) :
    (anchoredFold ids clock start).1 ∈ contentRoots := by
  refine foldl_anchoredStep_mem _ (fun id hid => ?_) _ hstart
  have hroots := h id (hids ((mem_sortEventIDsByHLC _ _ _).mp hid))
  exact ⟨Finset.mem_insert_of_mem hroots.1, hroots.2⟩

theorem replayBase_mem (h : ContentClock clock) {id : EventID} (hid : id ∈ clock.keys)
    (hne : finalizationReplayBase clock id ≠ conflictHash) :
    finalizationReplayBase clock id ∈ contentRoots := by
  have hanchor := (h id hid).2
  revert hne
  simp only [finalizationReplayBase]
  split_ifs with hempty hsub hfold
  · exact fun _ => hanchor
  · exact fun _ => h.fold_mem hsub hanchor
  · exact fun hne => absurd rfl hne
  · exact fun hne => absurd rfl hne

end ContentClock

/-! ## The invariant -/

/-- Commits with content roots, each with its parents on record. -/
structure ContentLineage (P : ParentsMap) : Prop where
  root_mem : ∀ c ∈ P.keys, c.root ∈ contentRoots
  closed : ∀ c, parentsAt P c ⊆ P.keys

structure ContentInv (s : State) : Prop extends SwarmInv s where
  anchors : ∀ e ∈ s.ledger, e.anchorProllyRootHash ∈ contentRoots
  lineages : ∀ p ∈ peers, ContentLineage (s.nodes.get p).finalizedCommitParents

namespace ContentLineage

variable {P Q : ParentsMap}

theorem put (h : ContentLineage P) {c : FinalizedCommitID} {ps : Finset FinalizedCommitID}
    (hroot : c.root ∈ contentRoots) (hps : ps ⊆ P.keys) : ContentLineage (P.put c ps) where
  root_mem := by
    intro d hd
    rw [Map.keys_put] at hd
    rcases Finset.mem_insert.mp hd with rfl | hd
    · exact hroot
    · exact h.root_mem d hd
  closed := by
    intro d x hx
    rw [Map.keys_put]
    apply Finset.mem_insert_of_mem
    by_cases hd : d = c
    · subst hd
      rw [parentsAt_of_lookup (Map.lookup_put_self _ _ _)] at hx
      exact hps hx
    · have hlook := lookup_of_mem_parentsAt hx
      rw [Map.lookup_put_of_ne _ _ hd] at hlook
      rw [← parentsAt_of_lookup hlook] at hx
      exact h.closed d hx

theorem merge (hP : ContentLineage P) (hQ : ContentLineage Q) :
    ContentLineage (mergeSetMap P Q) where
  root_mem := by
    intro c hc
    rw [keys_mergeSetMap] at hc
    exact (Finset.mem_union.mp hc).elim (hP.root_mem c) (hQ.root_mem c)
  closed := by
    intro c
    rw [parentsAt_mergeSetMap, keys_mergeSetMap]
    exact Finset.union_subset_union (hP.closed c) (hQ.closed c)

theorem ancestors_subset (h : ContentLineage P) (hempty : emptyFinalizedCommitId ∈ P.keys)
    {c : FinalizedCommitID} (hc : c ∈ P.keys) : lineageAncestors P c ⊆ P.keys := by
  intro d hd
  rcases path_of_mem_lineageAncestors hd with rfl | hpath
  · exact hempty
  · rcases Relation.ReflTransGen.cases_tail hpath with rfl | ⟨x, _, hx⟩
    · exact hc
    · exact h.closed x hx

end ContentLineage

section

variable [FoldOrder] {s : State} (h : ContentInv s) {p : PeerID} (hp : p ∈ peers)

include h hp

omit [FoldOrder] in
theorem ContentInv.contentClock : ContentClock (s.nodes.get p).clock := by
  intro id hid
  have hmem := ((h.node p hp).get_mem hid).1
  exact ⟨(h.shape _ hmem).root_mem, h.anchors _ hmem⟩

omit [FoldOrder] in
theorem ContentInv.finalized_root :
    (s.nodes.get p).finalizedProllyRootHash ∈ contentRoots := by
  rw [(h.finalized p hp).root_eq]
  exact (h.lineages p hp).root_mem _ (h.finalized p hp).tip_mem

theorem ContentInv.mergeRoot_spec (hid : nextFinalizationEventID (s.nodes.get p) ≠ emptyEventId)
    (hroot : nextFinalizationMergeRoot (s.nodes.get p) ≠ conflictHash) :
    let id := nextFinalizationEventID (s.nodes.get p)
    let base := finalizationReplayBase (s.nodes.get p).clock id
    id ∈ (s.nodes.get p).clock.keys ∧ base ∈ contentRoots ∧
      nextFinalizationMergeRoot (s.nodes.get p) =
        mergeRoots (s.nodes.get p).finalizedProllyRootHash
          ((s.nodes.get p).clock.get id).prollyRootHash base := by
  intro id base
  have hkeys : id ∈ (s.nodes.get p).clock.keys :=
    nextFinalizationEventID_mem_keys _ ⟨hid, Or.inr hroot⟩
  have hbase : base ≠ conflictHash := by
    intro hb
    apply hroot
    simp only [nextFinalizationMergeRoot, hid, if_false]
    exact if_pos hb
  refine ⟨hkeys, (h.contentClock hp).replayBase_mem hkeys hbase, ?_⟩
  simp only [nextFinalizationMergeRoot, hid, if_false]
  exact if_neg hbase

theorem ContentInv.nextRoot_mem (hid : nextFinalizationEventID (s.nodes.get p) ≠ emptyEventId)
    (hroot : nextFinalizationMergeRoot (s.nodes.get p) ≠ conflictHash) :
    nextFinalizationMergeRoot (s.nodes.get p) ∈ contentRoots := by
  obtain ⟨hkeys, hbase, heq⟩ := h.mergeRoot_spec hp hid hroot
  rw [heq] at hroot ⊢
  exact mergeRoots_mem (h.finalized_root hp)
    (Finset.mem_insert_of_mem (h.contentClock hp _ hkeys).1) hbase hroot

theorem ContentInv.lineage_finalize (he : finalizeEnabled (s.nodes.get p)) :
    ContentLineage (finalizeResult (s.nodes.get p)).finalizedCommitParents := by
  rcases finalizeResult_cases _ he with ⟨_, heq⟩ | ⟨_, hroot, heq⟩
  · rw [heq]
    exact h.lineages p hp
  · rw [heq, (h.finalized p hp).replayNextEvent_eq]
    refine (h.lineages p hp).put (h.nextRoot_mem hp he.1 hroot) ?_
    simp only [nextParents]
    split
    · exact Finset.empty_subset _
    · exact Finset.singleton_subset_iff.mpr (h.finalized p hp).tip_mem

theorem ContentInv.plan_mem {q : PeerID} (hq : q ∈ peers) :
    let P := mergeSetMap (s.nodes.get p).finalizedCommitParents
      (s.nodes.get q).finalizedCommitParents
    let plan := mergePlan (s.nodes.get p) (s.nodes.get q)
    plan.oursFinalizedCommit ∈ P.keys ∧ plan.theirsFinalizedCommit ∈ P.keys ∧
      plan.commonFinalizedCommit ∈ P.keys := by
  intro P plan
  have hl := h.finalized p hp
  have hr := h.finalized q hq
  have hptip : (s.nodes.get p).finalizedCommitId ∈ P.keys := by
    rw [keys_mergeSetMap]
    exact Finset.mem_union_left _ hl.tip_mem
  have hqtip : (s.nodes.get q).finalizedCommitId ∈ P.keys := by
    rw [keys_mergeSetMap]
    exact Finset.mem_union_right _ hr.tip_mem
  have hempty : emptyFinalizedCommitId ∈ P.keys := by
    rw [keys_mergeSetMap]
    exact Finset.mem_union_left _ hl.empty_mem
  refine ⟨?_, ?_, ?_⟩
  · simp only [plan, mergePlan]
    split
    · exact hptip
    · exact hqtip
  · simp only [plan, mergePlan]
    split
    · exact hqtip
    · exact hptip
  · simp only [plan, mergePlan]
    rw [lca_eq_best]
    rcases List.mem_cons.mp (best_mem (deeperFirst _) _ _) with heq | hmem
    · rw [heq]
      exact hempty
    · rw [Enumeration.mem_list] at hmem
      exact ((h.lineages p hp).merge (h.lineages q hq)).ancestors_subset hempty hptip
        (Finset.mem_inter.mp hmem).1

theorem ContentInv.lineage_sync {q : PeerID} (hq : q ∈ peers) :
    ContentLineage (syncFinalizedCoreResult (s.nodes.get p)
      (s.nodes.get q)).finalizedCommitParents := by
  have hl := h.finalized p hp
  have hr := h.finalized q hq
  have hmerged := (h.lineages p hp).merge (h.lineages q hq)
  simp only [syncFinalizedCoreResult]
  split
  · exact hmerged
  · exact hmerged
  · rw [syncMergeResult_parents hl hr]
    obtain ⟨hours, htheirs, hcommon⟩ := h.plan_mem hp hq
    refine hmerged.put ?_ ?_
    · change (mergePlan (s.nodes.get p) (s.nodes.get q)).effectiveRoot ∈ contentRoots
      simp only [MergePlan.effectiveRoot]
      split
      · exact hmerged.root_mem _ hours
      · exact mergeRoots_mem (hmerged.root_mem _ hours) (hmerged.root_mem _ htheirs)
          (hmerged.root_mem _ hcommon) ‹_›
    · intro c hc
      rw [keys_mergeSetMap]
      rcases Finset.mem_insert.mp hc with rfl | hc
      · exact Finset.mem_union_left _ hl.tip_mem
      · rw [Finset.mem_singleton.mp hc]
        exact Finset.mem_union_right _ hr.tip_mem

end

theorem contentInv_init : ContentInv init where
  toSwarmInv := swarmInv_init
  anchors := by
    have hL : init.ledger = ∅ := by decide
    simp [hL]
  lineages := by
    intro p hp
    have hget : init.nodes.get p = emptyNodeState p := Map.get_mapBy_of_mem _ hp
    have hnone : ContentLineage ∅ := ⟨by simp, by simp [parentsAt]⟩
    rw [hget]
    exact hnone.put (by decide) (Finset.empty_subset _)

theorem contentInv_effect [FoldOrder] {s s' : State} {a : Action} (h : ContentInv s)
    (heff : Effect s a s') : ContentInv s' where
  toSwarmInv := swarmInv_effect h.toSwarmInv heff
  anchors := by
    rcases ledger_effect h.toLedgerInv heff with ⟨p, e, hp, he, hL⟩ | hL
    · rw [hL]
      intro x hx
      rcases Finset.mem_insert.mp hx with rfl | hx
      · -- a new event is anchored at its author's finalized root
        obtain ⟨_, _, _, _, _, rfl, _, _⟩ := emission_spec he
        exact h.finalized_root hp
      · exact h.anchors x hx
    · rw [hL]
      exact h.anchors
  lineages := by
    intro q hq
    rcases finalized_effect heff q with ⟨_, _, _, _, hpar, _⟩ | ⟨_, he, hst⟩ |
      ⟨r, hr, _, _, _, _, _, hpar, _⟩
    · rw [hpar]
      exact h.lineages q hq
    · rw [hst]
      exact h.lineage_finalize hq he
    · rw [hpar]
      exact h.lineage_sync hq hr

theorem contentInv_of_reachable {s : State} (h : Reachable Step init s) : ContentInv s :=
  invariant_of_effect contentInv_init
    (fun o _ _ _ hI heff => @contentInv_effect o _ _ _ hI heff) h

/-! ## The replay base of an event is its writer's root -/

theorem subset_foldl_anchoredStep (clock : Clock) (l : List EventID)
    (acc : ProllyRootHash × Finset EventID) : acc.2 ⊆ (l.foldl (anchoredStep clock) acc).2 := by
  induction l generalizing acc with
  | nil => exact Finset.Subset.refl _
  | cons id ids ih =>
    refine Finset.Subset.trans ?_ (ih _)
    simp only [anchoredStep]
    split
    · exact Finset.subset_union_left
    · exact Finset.Subset.refl _

theorem foldl_anchoredStep_filter (clock : Clock) (l : List EventID) (hl : l.Nodup)
    (acc : ProllyRootHash × Finset EventID) (hacc : ∀ id ∈ l, id ∉ acc.2) :
    (l.filter fun id => id ∉ (l.foldl (anchoredStep clock) acc).2).foldl (anchoredStep clock)
      (acc.1, ∅) = ((l.foldl (anchoredStep clock) acc).1, ∅) := by
  induction l generalizing acc with
  | nil => rfl
  | cons id ids ih =>
    obtain ⟨hid, hids⟩ := List.nodup_cons.mp hl
    simp only [List.mem_cons, forall_eq_or_imp] at hacc
    rw [List.foldl_cons]
    by_cases hconf : mergeRoots acc.1 (clock.get id).prollyRootHash
        (clock.get id).anchorProllyRootHash = conflictHash
    · -- `id` is set aside, now and in the end
      have hstep : anchoredStep clock acc id = (acc.1, acc.2 ∪ {id}) := by
        simp only [anchoredStep, hconf, if_true]
      rw [hstep]
      have hin : id ∈ (ids.foldl (anchoredStep clock) (acc.1, acc.2 ∪ {id})).2 :=
        subset_foldl_anchoredStep clock ids _
          (Finset.mem_union_right _ (Finset.mem_singleton_self id))
      rw [List.filter_cons_of_neg (by simpa using hin)]
      refine ih hids (acc.1, acc.2 ∪ {id}) fun x hx hmem => ?_
      rcases Finset.mem_union.mp hmem with hx' | hx'
      · exact hacc.2 x hx hx'
      · exact hid (Finset.mem_singleton.mp hx' ▸ hx)
    · have hstep : ∀ set : Finset EventID, anchoredStep clock (acc.1, set) id =
          (mergeRoots acc.1 (clock.get id).prollyRootHash
            (clock.get id).anchorProllyRootHash, set) := by
        intro set
        simp only [anchoredStep, hconf, if_false]
      rw [hstep acc.2]
      have hout : id ∉ (ids.foldl (anchoredStep clock) (mergeRoots acc.1
          (clock.get id).prollyRootHash (clock.get id).anchorProllyRootHash, acc.2)).2 := by
        intro hmem
        have hids' : ∀ x ∈ ids, x ∈ acc.2 ∪ ids.toFinset := fun x hx =>
          Finset.mem_union_right _ (List.mem_toFinset.mpr hx)
        have hsub : (ids.foldl (anchoredStep clock) (mergeRoots acc.1
            (clock.get id).prollyRootHash (clock.get id).anchorProllyRootHash, acc.2)).2 ⊆
            acc.2 ∪ ids.toFinset := anchoredStep_conflicts_subset hids' Finset.subset_union_left
        rcases Finset.mem_union.mp (hsub hmem) with hx | hx
        · exact hacc.1 hx
        · exact hid (List.mem_toFinset.mp hx)
      rw [List.filter_cons_of_pos (by simpa using hout), List.foldl_cons, hstep ∅]
      exact ih hids (_, acc.2) hacc.2

theorem anchoredFold_without_conflicts [FoldOrder] {clock : Clock} (hk : Keyed clock)
    {heads : Finset EventID} (hheads : heads ⊆ clock.keys) (start : ProllyRootHash) :
    anchoredFold (heads \ (anchoredFold heads clock start).2) clock start =
      ((anchoredFold heads clock start).1, ∅) := by
  have hperm : (FoldOrder.events.list (heads \ (anchoredFold heads clock start).2)).Perm
      ((FoldOrder.events.list heads).filter fun id =>
        id ∉ (anchoredFold heads clock start).2) := by
    refine (List.perm_ext_iff_of_nodup (Enumeration.nodup_list _ _)
      ((Enumeration.nodup_list _ _).filter _)).mpr fun id => ?_
    simp [Enumeration.mem_list]
  have hsort : sortEventIDsByHLC (heads \ (anchoredFold heads clock start).2) clock =
      (sortEventIDsByHLC heads clock).filter fun id =>
        id ∉ (anchoredFold heads clock start).2 :=
    sortList_of_perm_filter hk.hlc_strictTotal hperm fun id hid =>
      hheads ((Enumeration.mem_list _ _ _).mp hid)
  have hnodup : (sortEventIDsByHLC heads clock).Nodup :=
    (sortList_perm _ _).nodup_iff.mpr (Enumeration.nodup_list _ _)
  have hfold := foldl_anchoredStep_filter clock (sortEventIDsByHLC heads clock) hnodup
    (start, ∅) (by simp)
  rw [anchoredFold, hsort]
  exact hfold

/-- With heads to merge, or none, the stored root is the conflict-free fold of the basis from
the finalized root, and no parked head is in the basis. -/
theorem Settled.basis_fold {p : PeerID} {st : NodeState} (h : Settled p st)
    (hk : Keyed st.clock) (hheads : st.headEventIds = computeHeadEventIDs st.clock)
    (hlive : tentativeHeadEventIDs st = ∅ ∨ mergeableHeadEventIDs st ≠ ∅) (o : FoldOrder) :
    @anchoredFold o st.projectionBasis st.clock st.finalizedProllyRootHash =
      (st.tentativeProllyRootHash, ∅) ∧ Disjoint st.parkedConflicts st.projectionBasis := by
  have hproj := h.projected o
  rcases hlive with hnone | hready
  · rw [projection_of_no_head hnone] at hproj
    simp only [Prod.mk.injEq] at hproj
    obtain ⟨hroot, hparked, hbasis⟩ := hproj
    rw [← hroot, ← hbasis, ← hparked]
    exact ⟨anchoredFold_empty _ _, Finset.disjoint_empty_left _⟩
  · rw [projection_of_ready hready] at hproj
    simp only [Prod.mk.injEq] at hproj
    obtain ⟨hroot, hparked, hbasis⟩ := hproj
    have hkeys : projectionReadyHeads st ⊆ st.clock.keys :=
      (projectionReadyHeads_subset st).trans ((mergeable_subset_tentative st).trans
        (Finset.sdiff_subset.trans (hheads ▸ computeHeadEventIDs_subset _)))
    refine ⟨?_, ?_⟩
    · rw [← hroot, ← hbasis]
      exact anchoredFold_without_conflicts hk hkeys _
    · rw [← hparked, ← hbasis, Finset.disjoint_left]
      intro id hid hmem
      obtain ⟨hin, hfold⟩ := Finset.mem_sdiff.mp hmem
      obtain ⟨hmerge, hsafe⟩ := Finset.mem_sdiff.mp hin
      simp only [Finset.mem_union] at hid
      rcases hid with (hid | hid) | hid
      · exact hfold hid
      · exact (Finset.mem_sdiff.mp (Finset.mem_inter.mp hid).2).2 hmerge
      · exact hsafe hid

theorem emission_replay {st : NodeState} {p : PeerID} {a : Action} {e : Event}
    (he : Emission st p a e) (hdisj : Disjoint st.parkedConflicts st.projectionBasis) :
    finalizationReplayParents e = st.projectionBasis ∧
      e.anchorProllyRootHash = st.finalizedProllyRootHash := by
  cases he with
  | write content _ => exact ⟨rfl, rfl⟩
  | resolveConflict parked content _ hparked _ =>
    refine ⟨?_, rfl⟩
    change (st.projectionBasis ∪ {parked}) \ {parked} = st.projectionBasis
    rw [Finset.union_sdiff_right]
    exact Finset.sdiff_eq_self_of_disjoint
      (Finset.disjoint_singleton_right.mpr (Finset.disjoint_left.mp hdisj hparked))
  | resolveFinalizedConflict cid content _ _ => exact ⟨rfl, rfl⟩

/-- Wherever an event arrives together with its replay parents, they fold to what its author's
basis merged to. -/
theorem replayBase_of_emission {tr : List (State × Action)} {s : State}
    (h : Run Step init tr s) {t : State} {a : Action} (hstep : (t, a) ∈ tr) {p : PeerID}
    {e : Event} (he : Emission (t.nodes.get p) p a e)
    (hdisj : Disjoint (t.nodes.get p).parkedConflicts (t.nodes.get p).projectionBasis)
    {q : PeerID} (hq : q ∈ peers) (hmem : e.eventId ∈ (s.nodes.get q).clock.keys)
    (hpar : finalizationReplayParents e ⊆ (s.nodes.get q).clock.keys) (o : FoldOrder) :
    @finalizationReplayBase o (s.nodes.get q).clock e.eventId =
      let folded := @anchoredFold o (t.nodes.get p).projectionBasis (t.nodes.get p).clock
        (t.nodes.get p).finalizedProllyRootHash
      if folded.2 = ∅ then folded.1 else conflictHash := by
  obtain ⟨t', tr', ⟨o', hs⟩, hrest⟩ := h.step_of_mem hstep
  obtain ⟨hp, rfl⟩ := @emit_of_step o' _ _ _ _ _ he hs
  have hled := ledgerInv_of_reachable (h.reachable_of_mem hstep)
  have hok := hled.node p hp
  obtain ⟨hparents, hanchor⟩ := emission_replay he hdisj
  -- every event of the author's clock, and the new one, is still in the ledger at the end
  obtain ⟨hs', hsub⟩ := ledger_subset_of_run (hled.emit hp he) hrest
  have hL : (@State.emit o' t p e).ledger = insert e t.ledger :=
    @ledger_emit o' _ _ _ (by rw [(emission_hlc he).1, hled.inbox_keys]; exact hp)
  rw [hL, Finset.insert_subset_iff] at hsub
  have hget : (s.nodes.get q).clock.get e.eventId = e := by
    obtain ⟨hx, hid⟩ := (hs'.node q hq).get_mem hmem
    exact hs'.unique _ hx e hsub.1 hid
  have hsame : ∀ id ∈ (t.nodes.get p).projectionBasis,
      (s.nodes.get q).clock.get id = (t.nodes.get p).clock.get id := by
    intro id hid
    obtain ⟨hx, hidx⟩ := (hs'.node q hq).get_mem (hpar (hparents ▸ hid))
    obtain ⟨hy, hidy⟩ := hok.get_mem (hok.basis_subset_keys hid)
    exact hs'.unique _ hx _ (hsub.2 hy) (hidx.trans hidy.symm)
  rw [← hget] at hpar
  rw [@finalizationReplayBase_of_parents o _ _ hpar, hget, hparents, hanchor,
    @anchoredFold_congr o _ _ _ hsame]

/-- Wherever an event arrives together with its replay parents, its replay base is the root its
author saw when it was emitted. -/
theorem replay_base_is_writers_root {tr : List (State × Action)} {s : State}
    (h : Run Step init tr s) {t : State} {a : Action} (hstep : (t, a) ∈ tr) {p : PeerID}
    {e : Event} (he : Emission (t.nodes.get p) p a e)
    (hlive : tentativeHeadEventIDs (t.nodes.get p) = ∅ ∨
      mergeableHeadEventIDs (t.nodes.get p) ≠ ∅) {q : PeerID} (hq : q ∈ peers)
    (hmem : e.eventId ∈ (s.nodes.get q).clock.keys)
    (hpar : finalizationReplayParents e ⊆ (s.nodes.get q).clock.keys) (o : FoldOrder) :
    @finalizationReplayBase o (s.nodes.get q).clock e.eventId ≠ conflictHash ∧
    @finalizationReplayBase o (s.nodes.get q).clock e.eventId =
      (t.nodes.get p).tentativeProllyRootHash := by
  have ht : Reachable Step init t := h.reachable_of_mem hstep
  obtain ⟨t', -, ⟨o', hs⟩, -⟩ := h.step_of_mem hstep
  obtain ⟨hp, -⟩ := @emit_of_step o' _ _ _ _ _ he hs
  have hcontent := contentInv_of_reachable ht
  have hsettled := settledInv_of_reachable ht
  have hok := hcontent.node p hp
  obtain ⟨hfold, hdisj⟩ := (hsettled.settled p hp).basis_fold (hcontent.keyed hp) hok.heads hlive o
  have hbase : @finalizationReplayBase o (s.nodes.get q).clock e.eventId =
      (t.nodes.get p).tentativeProllyRootHash := by
    rw [replayBase_of_emission h hstep he hdisj hq hmem hpar o, hfold]
    exact if_pos rfl
  refine ⟨fun hconf => conflictHash_notMem ?_, hbase⟩
  have hroot : (@anchoredFold o (t.nodes.get p).projectionBasis (t.nodes.get p).clock
      (t.nodes.get p).finalizedProllyRootHash).1 = (t.nodes.get p).tentativeProllyRootHash := by
    rw [hfold]
  rw [← hconf, hbase, ← hroot]
  exact @ContentClock.fold_mem o _ (hcontent.contentClock hp) _ hok.basis_subset_keys _
    (hcontent.finalized_root hp)

theorem replay_base_is_writers_root_on_relay :
    @finalizationReplayBase ascendingFolds (relayState.nodes.get 2).clock ⟨2, 1, 3⟩ =
      ((runOutcome (relayRun.take 3)).2.nodes.get 2).tentativeProllyRootHash ∧
    ((runOutcome (relayRun.take 3)).2.nodes.get 2).tentativeProllyRootHash = 12 := by
  have hstep : ((runOutcome (relayRun.take 3)).2, Action.write 2 13) ∈
      (runOutcome relayRun).1 := by decide +kernel
  have he : Emission ((runOutcome (relayRun.take 3)).2.nodes.get 2) 2 (.write 2 13)
      (writtenEvent ((runOutcome (relayRun.take 3)).2.nodes.get 2) 2 13) :=
    .write 13 (by decide)
  exact ⟨(replay_base_is_writers_root relayRun_runs hstep he (Or.inr (by decide +kernel))
    (q := 2) (by decide) (by decide +kernel) (by decide +kernel) ascendingFolds).2,
    by decide +kernel⟩

end DoltSwarm.Protocol
