import Mathlib.Data.List.Permutation
import DoltSwarm.Protocol.FinalizedMerge

/-!
# Convergence of SYNC_FINALIZED

The core result of a sync is above both inputs, and a state above the other side absorbs
it. So a two-way exchange equalizes two peers, and one exchange per pair equalizes three.
-/

namespace DoltSwarm.Protocol

open Lib

set_option autoImplicit false

/-- The finalized fields peers exchange. -/
structure SyncedFields where
  finalizedCommitId : FinalizedCommitID
  finalizedProllyRootHash : ProllyRootHash
  finalizedCommitParents : ParentsMap
  finalizedCheckpointEvents : CheckpointMap
  finalizedConflicts : ConflictMap
  resolvedFinalizedConflictIds : Finset FinalizedConflictID
  deriving DecidableEq

def NodeState.synced (st : NodeState) : SyncedFields :=
  ⟨st.finalizedCommitId, st.finalizedProllyRootHash, st.finalizedCommitParents,
    st.finalizedCheckpointEvents, st.finalizedConflicts, st.resolvedFinalizedConflictIds⟩

theorem finalizedSyncNeeded_iff (a b : NodeState) :
    finalizedSyncNeeded a b ↔ a.synced ≠ b.synced := by
  simp only [finalizedSyncNeeded, NodeState.synced, ne_eq, SyncedFields.mk.injEq, not_and_or]

theorem syncMode_eq_adopt {a b : NodeState} (h : syncMode a b = .adopt) :
    finalizedCommitIsAncestor a.finalizedCommitId b.finalizedCommitId
      (mergeSetMap a.finalizedCommitParents b.finalizedCommitParents) := by
  simp only [syncMode] at h
  split_ifs at h with h₁ h₂ h₃
  exact h₂.1

theorem syncMode_eq_noop {a b : NodeState} (h : syncMode a b = .noop) :
    finalizedCommitIsAncestor b.finalizedCommitId a.finalizedCommitId
      (mergeSetMap a.finalizedCommitParents b.finalizedCommitParents) := by
  simp only [syncMode] at h
  split_ifs at h with h₁ h₂ h₃
  · rw [h₁]
    exact self_mem_lineageAncestors _ _
  · exact h₃.1

theorem syncEnabled_of_differ {L : Finset Event} {a b : NodeState} (ha : FinalizedOk L a)
    (hb : FinalizedOk L b) {conn : Finset (PeerID × PeerID)} {p q : PeerID} (hne : p ≠ q)
    (hconn : (p, q) ∈ conn) (hdiff : a.synced ≠ b.synced) : syncEnabled conn p q a b := by
  refine ⟨hne, hconn, (finalizedSyncNeeded_iff a b).mpr hdiff, ?_, ?_, ?_, ?_⟩
  · simp only [syncAdoptionReady]
    split
    · exact syncMode_eq_adopt ‹_›
    · trivial
  · rw [keys_mergeSetMap]
    exact Finset.mem_union_left _ ha.empty_mem
  · refine Finset.mem_union_left _ (Finset.mem_union_left _ ?_)
    rw [keys_mergeSetMap]
    exact Finset.mem_union_left _ ha.tip_mem
  · refine Finset.mem_union_left _ (Finset.mem_union_left _ ?_)
    rw [keys_mergeSetMap]
    exact Finset.mem_union_right _ hb.tip_mem

/-! ## The order in which sync moves -/

/-- All `a` knows is known to `b`, and `b` stands on a descendant of `a`'s tip that one
ancestor walk recognizes. -/
structure Below (a b : SyncedFields) : Prop where
  tip : a.finalizedCommitId ∈ lineageAncestors b.finalizedCommitParents b.finalizedCommitId
  parents : a.finalizedCommitParents.keys ⊆ b.finalizedCommitParents.keys
  checkpoints : a.finalizedCheckpointEvents.keys ⊆ b.finalizedCheckpointEvents.keys
  descriptors : ∀ c, Map.SubMap (descriptorAt a.finalizedCheckpointEvents c)
    (descriptorAt b.finalizedCheckpointEvents c)
  conflicts : a.finalizedConflicts.keys ⊆
    b.finalizedConflicts.keys ∪ b.resolvedFinalizedConflictIds
  resolved : a.resolvedFinalizedConflictIds ⊆ b.resolvedFinalizedConflictIds

theorem Below.refl (a : SyncedFields) : Below a a :=
  ⟨self_mem_lineageAncestors _ _, Finset.Subset.refl _, Finset.Subset.refl _,
    fun _ => Map.SubMap.refl _, Finset.subset_union_left, Finset.Subset.refl _⟩

section

variable {L : Finset Event} {a b : NodeState}

theorem subMap_mergeFinalizedEventMap {s : State} (hs : LedgerInv s)
    {d d' : FinalizedCheckpoint} (hd : DescribedBy s.ledger d) (hd' : DescribedBy s.ledger d') :
    Map.SubMap d (mergeFinalizedEventMap d d') ∧ Map.SubMap d' (mergeFinalizedEventMap d d') := by
  have hleft : ∀ d₁ d₂ : FinalizedCheckpoint, Map.SubMap d₁ (mergeFinalizedEventMap d₁ d₂) := by
    intro d₁ d₂ id r hr
    rw [mergeFinalizedEventMap, Map.lookup_firstWins, hr, Option.some_or]
  refine ⟨hleft d d', ?_⟩
  rw [mergeFinalizedEventMap, Map.firstWins_comm (hd.agree hs hd')]
  exact hleft d' d

theorem conflicts_subset_drop (m m' : ConflictMap) (ids : Finset FinalizedConflictID) :
    m.keys ∪ m'.keys ⊆
      (dropFinalizedConflicts (mergeFinalizedConflictMap m m') ids).keys ∪ ids := by
  intro k hk
  rw [dropFinalizedConflicts, Map.keys_removeAll, mergeFinalizedConflictMap, Map.keys_firstWins,
    Finset.sdiff_union_self_eq_union]
  exact Finset.mem_union_left _ hk

theorem below_syncMetadata {s : State} (hs : LedgerInv s) [FoldOrder]
    (ha : FinalizedOk s.ledger a) (hb : FinalizedOk s.ledger b) {P : ParentsMap}
    {C : ConflictMap} {tip : FinalizedCommitID} {root : ProllyRootHash}
    (hP : a.finalizedCommitParents.keys ∪ b.finalizedCommitParents.keys ⊆ P.keys)
    (hC : (syncMetadata a b tip root).finalizedConflicts.keys ⊆ C.keys)
    (hta : a.finalizedCommitId ∈ lineageAncestors P tip)
    (htb : b.finalizedCommitId ∈ lineageAncestors P tip) :
    let r : SyncedFields := { (syncMetadata a b tip root).synced with
      finalizedCommitParents := P, finalizedConflicts := C }
    Below a.synced r ∧ Below b.synced r := by
  have hdesc : ∀ c, _ := fun c => subMap_mergeFinalizedEventMap hs (ha.described c)
    (hb.described c)
  have hcon : a.finalizedConflicts.keys ∪ b.finalizedConflicts.keys ⊆
      C.keys ∪ (a.resolvedFinalizedConflictIds ∪ b.resolvedFinalizedConflictIds) :=
    (conflicts_subset_drop _ _ _).trans (Finset.union_subset_union_left hC)
  constructor
  · refine ⟨hta, Finset.subset_union_left.trans hP, ?_, fun c => ?_,
      Finset.subset_union_left.trans hcon, Finset.subset_union_left⟩
    · simp [NodeState.synced, syncMetadata, mergeFinalizedCheckpointMap]
    · simp only [NodeState.synced, syncMetadata, descriptorAt_merge]
      exact (hdesc c).1
  · refine ⟨htb, Finset.subset_union_right.trans hP, ?_, fun c => ?_,
      Finset.subset_union_right.trans hcon, Finset.subset_union_right⟩
    · simp [NodeState.synced, syncMetadata, mergeFinalizedCheckpointMap]
    · simp only [NodeState.synced, syncMetadata, descriptorAt_merge]
      exact (hdesc c).2

theorem below_core {s : State} (hs : LedgerInv s) (o : FoldOrder)
    (ha : FinalizedOk s.ledger a) (hb : FinalizedOk s.ledger b) :
    Below a.synced (@syncFinalizedCoreResult o a b).synced ∧
      Below b.synced (@syncFinalizedCoreResult o a b).synced := by
  have hkeys : a.finalizedCommitParents.keys ∪ b.finalizedCommitParents.keys ⊆
      (mergeSetMap a.finalizedCommitParents b.finalizedCommitParents).keys :=
    (keys_mergeSetMap _ _).ge
  simp only [syncFinalizedCoreResult]
  split
  case h_1 hmode =>
    exact below_syncMetadata hs ha hb hkeys (Finset.Subset.refl _) (syncMode_eq_adopt hmode)
      (self_mem_lineageAncestors _ _)
  case h_2 hmode =>
    exact below_syncMetadata hs ha hb hkeys (Finset.Subset.refl _)
      (self_mem_lineageAncestors _ _) (syncMode_eq_noop hmode)
  case h_3 _ =>
    have hpar := @syncMergeResult_parents o _ _ _ ha hb
    have htips : parentsAt (@syncMergeResult o a b).finalizedCommitParents
        (@effectiveFinalizedCommit o a b) = {a.finalizedCommitId, b.finalizedCommitId} := by
      rw [hpar]
      exact parentsAt_of_lookup (Map.lookup_put_self _ _ _)
    refine below_syncMetadata (P := (@syncMergeResult o a b).finalizedCommitParents) hs ha hb
      ?_ ?_ (parent_mem_lineageAncestors (by rw [htips]; simp))
      (parent_mem_lineageAncestors (by rw [htips]; simp))
    · rw [hpar, Map.keys_put]
      exact hkeys.trans (Finset.subset_insert _ _)
    · simp only [syncMergeResult, MergePlan.recordConflict]
      split
      · rw [Map.keys_put]
        exact Finset.subset_insert _ _
      · exact Finset.Subset.refl _

theorem metadata_absorbed (ha : FinalizedOk L a) (hb : FinalizedOk L b)
    (h : Below a.synced b.synced) :
    mergeSetMap a.finalizedCommitParents b.finalizedCommitParents = b.finalizedCommitParents ∧
    mergeFinalizedCheckpointMap a.finalizedCheckpointEvents b.finalizedCheckpointEvents =
      b.finalizedCheckpointEvents ∧
    a.resolvedFinalizedConflictIds ∪ b.resolvedFinalizedConflictIds =
      b.resolvedFinalizedConflictIds ∧
    dropFinalizedConflicts (mergeFinalizedConflictMap a.finalizedConflicts b.finalizedConflicts)
      b.resolvedFinalizedConflictIds = b.finalizedConflicts := by
  refine ⟨?_, ?_, Finset.union_eq_right.mpr h.resolved, ?_⟩
  · rw [mergeSetMap_comm]
    exact hb.lineage.merge_eq_left ha.lineage h.parents
  · refine Map.ext_get ?_ fun c hc => ?_
    · rw [mergeFinalizedCheckpointMap, Map.keys_mapBy]
      exact Finset.union_eq_right.mpr h.checkpoints
    · have hcb : c ∈ b.finalizedCheckpointEvents.keys := by
        simp only [mergeFinalizedCheckpointMap, Map.keys_mapBy, Finset.mem_union] at hc
        exact hc.elim (fun hca => h.checkpoints hca) id
      have hget : ∀ m : CheckpointMap, c ∈ m.keys → m.get c = descriptorAt m c :=
        fun m hm => (if_pos hm).symm
      rw [hget _ hc, hget _ hcb, descriptorAt_merge]
      apply Map.ext
      intro id
      rw [mergeFinalizedEventMap, Map.lookup_firstWins]
      cases hla : (descriptorAt a.finalizedCheckpointEvents c).lookup id with
      | none => rfl
      | some r => exact (h.descriptors c id r hla).symm
  · refine Map.ext_get ?_ fun k hk => ?_
    · have hdisj := hb.unresolved
      rw [dropFinalizedConflicts, Map.keys_removeAll, mergeFinalizedConflictMap,
        Map.keys_firstWins]
      ext k
      simp only [Finset.mem_sdiff, Finset.mem_union]
      constructor
      · rintro ⟨hk | hk, hnr⟩
        · exact (Finset.mem_union.mp (h.conflicts hk)).resolve_right hnr
        · exact hk
      · exact fun hk => ⟨Or.inr hk, Finset.disjoint_left.mp hdisj hk⟩
    · have hdrop := ((ha.spelledOut.firstWins hb.spelledOut).drop
        b.resolvedFinalizedConflictIds) k _ (Map.lookup_of_mem hk)
      have hkb : k ∈ b.finalizedConflicts.keys := by
        rw [dropFinalizedConflicts, Map.keys_removeAll, mergeFinalizedConflictMap,
          Map.keys_firstWins, Finset.mem_sdiff, Finset.mem_union] at hk
        exact hk.1.elim
          (fun hka => (Finset.mem_union.mp (h.conflicts hka)).resolve_right hk.2) id
      rw [hdrop]
      exact (hb.spelledOut k _ (Map.lookup_of_mem hkb)).symm

theorem core_absorbed {s : State} (hs : LedgerInv s) (o : FoldOrder)
    (ha : FinalizedOk s.ledger a) (hb : FinalizedOk s.ledger b) (h : Below a.synced b.synced) :
    (@syncFinalizedCoreResult o a b).synced = b.synced ∧
      (@syncFinalizedCoreResult o b a).synced = b.synced := by
  obtain ⟨hpar, hck, hres, hcon⟩ := metadata_absorbed ha hb h
  have hmeta : ∀ tip root, (@syncMetadata o a b tip root).synced =
      { b.synced with finalizedCommitId := tip, finalizedProllyRootHash := root } := by
    intro tip root
    simp only [NodeState.synced, syncMetadata, hpar, hck, hres, hcon]
  have hpar' : mergeSetMap b.finalizedCommitParents a.finalizedCommitParents =
      b.finalizedCommitParents := (mergeSetMap_comm _ _).trans hpar
  have hmeta' : ∀ tip root, (@syncMetadata o b a tip root).synced =
      { b.synced with finalizedCommitId := tip, finalizedProllyRootHash := root } := by
    intro tip root
    have hck' := (mergeFinalizedCheckpointMap_comm hs hb.described ha.described).trans hck
    have hres' := (Finset.union_comm b.resolvedFinalizedConflictIds _).trans hres
    have hcon' : mergeFinalizedConflictMap b.finalizedConflicts a.finalizedConflicts =
        mergeFinalizedConflictMap a.finalizedConflicts b.finalizedConflicts :=
      Map.firstWins_comm (hb.spelledOut.agree ha.spelledOut)
    simp only [NodeState.synced, syncMetadata, hpar', hck', hres', hcon', hcon]
  by_cases htip : a.finalizedCommitId = b.finalizedCommitId
  · have hmode : syncMode a b = .noop := by simp [syncMode, htip]
    have hmode' : syncMode b a = .noop := by simp [syncMode, htip]
    have hroot : a.finalizedProllyRootHash = b.finalizedProllyRootHash := by
      rw [ha.root_eq, hb.root_eq, htip]
    constructor
    · simp only [syncFinalizedCoreResult, hmode]
      rw [hmeta, htip, hroot]
      rfl
    · simp only [syncFinalizedCoreResult, hmode']
      rw [hmeta']
      rfl
  · -- strictly below: the walk finds the lower tip, and only in this direction
    have hanc : a.finalizedCommitId ∈
        lineageAncestors b.finalizedCommitParents b.finalizedCommitId := h.tip
    have hnot : b.finalizedCommitId ∉
        lineageAncestors b.finalizedCommitParents a.finalizedCommitId :=
      fun hmem => htip (hb.lineage.ancestors_antisymm hanc hmem)
    have hmode : syncMode a b = .adopt := by
      simp [syncMode, htip, hpar, finalizedCommitIsAncestor, hanc, hnot]
    have hmode' : syncMode b a = .noop := by
      simp [syncMode, Ne.symm htip, hpar', finalizedCommitIsAncestor, hanc, hnot]
    constructor
    · simp only [syncFinalizedCoreResult, hmode]
      rw [hmeta]
      rfl
    · simp only [syncFinalizedCoreResult, hmode']
      rw [hmeta']
      rfl

end

/-! ## Exchanges between peers -/

/-- SYNC_FINALIZED of `p` from `q`, applied when enabled. -/
def syncIfEnabled (o : FoldOrder) (s : State) (p q : PeerID) : State :=
  (@step o s (.syncFinalized p q)).getD s

/-- A two-way exchange of `p` and `q`, with the enumeration order of each half. -/
structure Exchange where
  p : PeerID
  q : PeerID
  first : FoldOrder
  second : FoldOrder

def Exchange.apply (s : State) (x : Exchange) : State :=
  syncIfEnabled x.second (syncIfEnabled x.first s x.p x.q) x.q x.p

theorem synced_syncResult [FoldOrder] (p : PeerID) (a b : NodeState) :
    (syncResult p a b).synced = (syncFinalizedCoreResult a b).synced := by
  obtain ⟨htip, hroot, _, hck, hpar, hcon, hres⟩ := syncResult_finalized p a b
  simp only [NodeState.synced, htip, hroot, hpar, hck, hcon, hres]

/-- What one half of an exchange does: the synced fields become those of the core result, or
they were equal before. -/
theorem syncIfEnabled_spec {s : State} (h : Reachable Step init s) (o : FoldOrder)
    {p q : PeerID} (hp : p ∈ peers) (hq : q ∈ peers) (hne : p ≠ q)
    (hconn : (p, q) ∈ s.connected) :
    Reachable Step init (syncIfEnabled o s p q) ∧
    (syncIfEnabled o s p q).connected = s.connected ∧
    (syncIfEnabled o s p q).ledger = s.ledger ∧
    (∀ r, r ≠ p → (syncIfEnabled o s p q).nodes.get r = s.nodes.get r) ∧
    (((syncIfEnabled o s p q).nodes.get p).synced =
        (@syncFinalizedCoreResult o (s.nodes.get p) (s.nodes.get q)).synced ∨
      (s.nodes.get p).synced = (s.nodes.get q).synced ∧ syncIfEnabled o s p q = s) := by
  have hinv := swarmInv_of_reachable h
  by_cases he : syncEnabled s.connected p q (s.nodes.get p) (s.nodes.get q)
  · have hstep : @step o s (.syncFinalized p q) =
        some (s.setNode p (@syncResult o p (s.nodes.get p) (s.nodes.get q))) :=
      if_pos ⟨hp, hq, he⟩
    have heq : syncIfEnabled o s p q =
        s.setNode p (@syncResult o p (s.nodes.get p) (s.nodes.get q)) := by
      rw [syncIfEnabled, hstep, Option.getD_some]
    rw [heq]
    refine ⟨h.tail ⟨o, hstep⟩, rfl, rfl, fun r hr => Map.get_put_of_ne _ _ hr, Or.inl ?_⟩
    simp only [State.setNode, Map.get_put_self]
    exact @synced_syncResult o p _ _
  · have hstep : @step o s (.syncFinalized p q) = none := if_neg fun hg => he hg.2.2
    have heq : syncIfEnabled o s p q = s := by rw [syncIfEnabled, hstep, Option.getD_none]
    have hsame : (s.nodes.get p).synced = (s.nodes.get q).synced := by
      by_contra hdiff
      exact he (syncEnabled_of_differ (hinv.finalized p hp) (hinv.finalized q hq) hne hconn
        hdiff)
    rw [heq]
    exact ⟨h, rfl, rfl, fun _ _ => rfl, Or.inr ⟨hsame, rfl⟩⟩

/-- After an exchange both sides hold one state `c` above what each had; if one side was
already above the other, `c` is that side. -/
structure Exchanged (s s' : State) (p q : PeerID) (c : SyncedFields) : Prop where
  reachable : Reachable Step init s'
  connected : s'.connected = s.connected
  others : ∀ r, r ≠ p → r ≠ q → s'.nodes.get r = s.nodes.get r
  left : (s'.nodes.get p).synced = c
  right : (s'.nodes.get q).synced = c
  below_left : Below (s.nodes.get p).synced c
  below_right : Below (s.nodes.get q).synced c
  absorb : Below (s.nodes.get p).synced (s.nodes.get q).synced → c = (s.nodes.get q).synced
  absorb' : Below (s.nodes.get q).synced (s.nodes.get p).synced → c = (s.nodes.get p).synced

theorem exchanged_apply {s : State} (h : Reachable Step init s) (x : Exchange)
    (hp : x.p ∈ peers) (hq : x.q ∈ peers) (hne : x.p ≠ x.q) (hconn : (x.p, x.q) ∈ s.connected) :
    ∃ c, Exchanged s (x.apply s) x.p x.q c := by
  have hinv := swarmInv_of_reachable h
  have hfp := hinv.finalized x.p hp
  have hfq := hinv.finalized x.q hq
  obtain ⟨hr₁, hc₁, hL₁, ho₁, hs₁⟩ := syncIfEnabled_spec h x.first hp hq hne hconn
  have hconn' : (x.q, x.p) ∈ (syncIfEnabled x.first s x.p x.q).connected :=
    hc₁ ▸ hinv.symmetric _ _ hconn
  obtain ⟨hr₂, hc₂, _, ho₂, hs₂⟩ := syncIfEnabled_spec hr₁ x.second hq hp hne.symm hconn'
  have hq₁ := ho₁ x.q hne.symm
  have hp₂ := ho₂ x.p hne
  have hothers : ∀ r, r ≠ x.p → r ≠ x.q → (x.apply s).nodes.get r = s.nodes.get r :=
    fun r hrp hrq => (ho₂ r hrq).trans (ho₁ r hrp)
  rcases hs₁ with hcore | ⟨hsame, hid⟩
  · -- the first half moved `p` to the core result, which absorbs `q`
    obtain ⟨hbp, hbq⟩ := below_core hinv.toLedgerInv x.first hfp hfq
    have hinv₁ := swarmInv_of_reachable hr₁
    have hbq₁ : Below ((syncIfEnabled x.first s x.p x.q).nodes.get x.q).synced
        ((syncIfEnabled x.first s x.p x.q).nodes.get x.p).synced := by
      rw [hq₁, hcore]
      exact hbq
    have hright : ((x.apply s).nodes.get x.q).synced =
        ((syncIfEnabled x.first s x.p x.q).nodes.get x.p).synced := by
      rcases hs₂ with hcore₂ | ⟨hsame₂, hid₂⟩
      · exact hcore₂.trans (core_absorbed hinv₁.toLedgerInv x.second (hinv₁.finalized x.q hq)
          (hinv₁.finalized x.p hp) hbq₁).1
      · rw [Exchange.apply, hid₂]
        exact hsame₂
    refine ⟨_, hr₂, hc₂.trans hc₁, hothers, (congrArg NodeState.synced hp₂).trans hcore,
      hright.trans hcore, hbp, hbq, fun hb => ?_, fun hb => ?_⟩
    · exact (core_absorbed hinv.toLedgerInv x.first hfp hfq hb).1
    · exact (core_absorbed hinv.toLedgerInv x.first hfq hfp hb).2
  · have hid₂ : x.apply s = s := by
      rcases hs₂ with hcore₂ | ⟨_, hid₂⟩
      · -- the fields are equal, so the second half is not enabled either
        have hnot : ¬syncEnabled s.connected x.q x.p (s.nodes.get x.q) (s.nodes.get x.p) :=
          fun he => (finalizedSyncNeeded_iff _ _).mp he.2.2.1 hsame.symm
        have hstep : @step x.second s (.syncFinalized x.q x.p) = none :=
          if_neg fun hg => hnot hg.2.2
        rw [Exchange.apply, hid, syncIfEnabled, hstep, Option.getD_none]
      · rw [Exchange.apply, hid₂, hid]
    rw [hid₂]
    exact ⟨_, h, rfl, fun _ _ _ => rfl, rfl, hsame.symm, Below.refl _,
      hsame ▸ Below.refl _, fun _ => hsame, fun _ => rfl⟩

theorem Exchanged.symm {s s' : State} {p q : PeerID} {c : SyncedFields}
    (h : Exchanged s s' p q c) : Exchanged s s' q p c :=
  ⟨h.reachable, h.connected, fun r hq hp => h.others r hp hq, h.right, h.left, h.below_right,
    h.below_left, h.absorb', h.absorb⟩

/-! ## Three peers -/

/-- Each of the three pairs of peers occurs once, in either orientation. -/
def coversEachPairOnce (rounds : List Exchange) : Prop :=
  (rounds.map fun x => ({x.p, x.q} : Finset PeerID)).Perm [{1, 2}, {1, 3}, {2, 3}]

theorem Below.ancestorThrough {a b : SyncedFields} (ha : Faithful a.finalizedCommitParents)
    (hb : Faithful b.finalizedCommitParents) (h : Below a b) {c : FinalizedCommitID}
    (hc : Protocol.ancestorThrough a.finalizedCommitParents c a.finalizedCommitId) :
    Protocol.ancestorThrough b.finalizedCommitParents c b.finalizedCommitId :=
  ha.ancestorThrough_extend hb h.parents hc (path_of_mem_lineageAncestors h.tip)

theorem exchanged_of_pair {s : State} (h : Reachable Step init s)
    (hfull : ∀ p ∈ peers, ∀ q ∈ peers, p ≠ q → (p, q) ∈ s.connected) {x : Exchange}
    {a b : PeerID} (ha : a ∈ peers) (hb : b ∈ peers) (hne : a ≠ b)
    (hx : ({x.p, x.q} : Finset PeerID) = {a, b}) : ∃ c, Exchanged s (x.apply s) a b c := by
  have hor : x.p = a ∧ x.q = b ∨ x.p = b ∧ x.q = a := by
    have hset : ({x.p, x.q} : Set PeerID) = {a, b} := by
      have := congrArg (fun t : Finset PeerID => (t : Set PeerID)) hx
      simpa using this
    exact Set.pair_eq_pair_iff.mp hset
  rcases hor with ⟨hp, hq⟩ | ⟨hp, hq⟩
  · have hex := exchanged_apply h x (hp ▸ ha) (hq ▸ hb) (hp ▸ hq ▸ hne)
      (by rw [hp, hq]; exact hfull a ha b hb hne)
    rwa [hp, hq] at hex
  · have hex := exchanged_apply h x (hp ▸ hb) (hq ▸ ha) (hp ▸ hq ▸ hne.symm)
      (by rw [hp, hq]; exact hfull b hb a ha hne.symm)
    rw [hp, hq] at hex
    exact hex.imp fun _ => Exchanged.symm

/-- Pairs `{x, y}`, `{y, z}`, `{x, z}` in this order; any order of the three pairs is of this
form. -/
theorem three_exchanges {s : State} (h : Reachable Step init s)
    (hfull : ∀ p ∈ peers, ∀ q ∈ peers, p ≠ q → (p, q) ∈ s.connected)
    {x₁ x₂ x₃ : Exchange} {x y z : PeerID} (hx : x ∈ peers) (hy : y ∈ peers) (hz : z ∈ peers)
    (hxy : x ≠ y) (hyz : y ≠ z) (hxz : x ≠ z)
    (h₁ : ({x₁.p, x₁.q} : Finset PeerID) = {x, y})
    (h₂ : ({x₂.p, x₂.q} : Finset PeerID) = {y, z})
    (h₃ : ({x₃.p, x₃.q} : Finset PeerID) = {x, z}) :
    let s' := x₃.apply (x₂.apply (x₁.apply s))
    ∃ c : SyncedFields, ∀ r, r = x ∨ r = y ∨ r = z → (s'.nodes.get r).synced = c ∧
      ancestorThrough c.finalizedCommitParents (s.nodes.get r).finalizedCommitId
        c.finalizedCommitId := by
  intro s'
  obtain ⟨A, e₁⟩ := exchanged_of_pair h hfull hx hy hxy h₁
  obtain ⟨B, e₂⟩ := exchanged_of_pair e₁.reachable (e₁.connected ▸ hfull) hy hz hyz h₂
  obtain ⟨C, e₃⟩ := exchanged_of_pair e₂.reachable
    (e₂.connected ▸ e₁.connected ▸ hfull) hx hz hxz h₃
  have hAx : ((x₂.apply (x₁.apply s)).nodes.get x).synced = A := by
    rw [e₂.others x hxy hxz]
    exact e₁.left
  have hAB : Below A B := e₁.right ▸ e₂.below_left
  have hCB : C = B := by
    have hb := e₃.absorb
    rw [hAx, e₂.right] at hb
    exact hb hAB
  have hBy : (s'.nodes.get y).synced = B := by
    rw [e₃.others y hxy.symm hyz]
    exact e₂.left
  have hzs : (x₁.apply s).nodes.get z = s.nodes.get z := e₁.others z hxz.symm hyz.symm
  -- faithfulness of the maps along the chain
  have hfaith : ∀ {t : State} {r : PeerID}, Reachable Step init t → r ∈ peers →
      Faithful (t.nodes.get r).synced.finalizedCommitParents :=
    fun ht hr => ((swarmInv_of_reachable ht).finalized _ hr).lineage
  have hA : Faithful A.finalizedCommitParents := e₁.left ▸ hfaith e₁.reachable hx
  have hB : Faithful B.finalizedCommitParents := e₂.left ▸ hfaith e₂.reachable hy
  have hself : ∀ r, ancestorThrough (s.nodes.get r).synced.finalizedCommitParents
      (s.nodes.get r).finalizedCommitId (s.nodes.get r).synced.finalizedCommitId :=
    fun _ => Or.inr .refl
  refine ⟨B, fun r hr => ?_⟩
  rcases hr with rfl | rfl | rfl
  · exact ⟨e₃.left.trans hCB, hAB.ancestorThrough hA hB
      (e₁.below_left.ancestorThrough (hfaith h hx) hA (hself _))⟩
  · exact ⟨hBy, hAB.ancestorThrough hA hB
      (e₁.below_right.ancestorThrough (hfaith h hy) hA (hself _))⟩
  · have hbz := e₂.below_right
    rw [hzs] at hbz
    exact ⟨e₃.right.trans hCB, hbz.ancestorThrough (hfaith h hz) hB (hself _)⟩

theorem exchanges_converge {s : State} (h : Reachable Step init s)
    (hfull : ∀ p ∈ peers, ∀ q ∈ peers, p ≠ q → (p, q) ∈ s.connected) {rounds : List Exchange}
    (hcov : coversEachPairOnce rounds) : ∃ c : SyncedFields, ∀ r ∈ peers,
      ((rounds.foldl Exchange.apply s).nodes.get r).synced = c ∧
      ancestorThrough c.finalizedCommitParents (s.nodes.get r).finalizedCommitId
        c.finalizedCommitId := by
  have hlen : rounds.length = 3 := by simpa using hcov.length_eq
  obtain ⟨x₁, x₂, x₃, rfl⟩ := List.length_eq_three.mp hlen
  have h1 : (1 : PeerID) ∈ peers := by decide
  have h2 : (2 : PeerID) ∈ peers := by decide
  have h3 : (3 : PeerID) ∈ peers := by decide
  have hmem := List.mem_permutations'.mpr hcov
  simp only [List.permutations', List.permutations'Aux, List.flatMap_cons, List.flatMap_nil,
    List.map_cons, List.map_nil, List.append_nil, List.cons_append, List.nil_append,
    List.mem_cons, List.cons.injEq, and_true, List.not_mem_nil, or_false] at hmem
  have key : ∀ {x y z : PeerID}, (∀ r ∈ peers, r = x ∨ r = y ∨ r = z) → x ∈ peers → y ∈ peers →
      z ∈ peers → x ≠ y → y ≠ z → x ≠ z → ({x₁.p, x₁.q} : Finset PeerID) = {x, y} →
      ({x₂.p, x₂.q} : Finset PeerID) = {y, z} → ({x₃.p, x₃.q} : Finset PeerID) = {x, z} → _ :=
    fun hall hx hy hz hxy hyz hxz k₁ k₂ k₃ =>
      (three_exchanges h hfull hx hy hz hxy hyz hxz k₁ k₂ k₃).imp fun c hc r hr =>
        hc r (hall r hr)
  rcases hmem with ⟨k₁, k₂, k₃⟩ | ⟨k₁, k₂, k₃⟩ | ⟨k₁, k₂, k₃⟩ | ⟨k₁, k₂, k₃⟩ | ⟨k₁, k₂, k₃⟩ |
    ⟨k₁, k₂, k₃⟩
  · exact key (x := 2) (y := 1) (z := 3) (by decide) h2 h1 h3 (by decide) (by decide)
      (by decide) (k₁.trans (Finset.pair_comm _ _)) k₂ k₃
  · exact key (x := 3) (y := 1) (z := 2) (by decide) h3 h1 h2 (by decide) (by decide)
      (by decide) (k₁.trans (Finset.pair_comm _ _)) k₂ (k₃.trans (Finset.pair_comm _ _))
  · exact key (x := 1) (y := 3) (z := 2) (by decide) h1 h3 h2 (by decide) (by decide)
      (by decide) k₁ (k₂.trans (Finset.pair_comm _ _)) k₃
  · exact key (x := 1) (y := 2) (z := 3) (by decide) h1 h2 h3 (by decide) (by decide)
      (by decide) k₁ k₂ k₃
  · exact key (x := 3) (y := 2) (z := 1) (by decide) h3 h2 h1 (by decide) (by decide)
      (by decide) (k₁.trans (Finset.pair_comm _ _)) (k₂.trans (Finset.pair_comm _ _))
      (k₃.trans (Finset.pair_comm _ _))
  · exact key (x := 2) (y := 3) (z := 1) (by decide) h2 h3 h1 (by decide) (by decide)
      (by decide) k₁ (k₂.trans (Finset.pair_comm _ _)) (k₃.trans (Finset.pair_comm _ _))

/-- Convergence of the finalized layer: peers that differ can sync, a two-way exchange makes
them agree, and one exchange per pair, in any order, makes three fully connected peers agree
on a tip that descends from every initial one. -/
theorem pairwise_sync_converges {s : State} (h : Reachable Step init s) :
    (∀ p ∈ peers, ∀ q ∈ peers, (p, q) ∈ s.connected →
      (s.nodes.get p).synced ≠ (s.nodes.get q).synced →
      syncEnabled s.connected p q (s.nodes.get p) (s.nodes.get q)) ∧
    (∀ x : Exchange, x.p ∈ peers → x.q ∈ peers → (x.p, x.q) ∈ s.connected →
      ((x.apply s).nodes.get x.p).synced = ((x.apply s).nodes.get x.q).synced) ∧
    (∀ rounds, coversEachPairOnce rounds →
      (∀ p ∈ peers, ∀ q ∈ peers, p ≠ q → (p, q) ∈ s.connected) →
      ∀ p ∈ peers, ∀ q ∈ peers,
        ((rounds.foldl Exchange.apply s).nodes.get p).synced =
          ((rounds.foldl Exchange.apply s).nodes.get q).synced ∧
        ancestorThrough ((rounds.foldl Exchange.apply s).nodes.get q).finalizedCommitParents
          (s.nodes.get p).finalizedCommitId
          ((rounds.foldl Exchange.apply s).nodes.get q).finalizedCommitId) := by
  have hinv := swarmInv_of_reachable h
  refine ⟨fun p hp q hq hconn hdiff => ?_, fun x hp hq hconn => ?_,
    fun rounds hcov hfull p hp q hq => ?_⟩
  · have hne : p ≠ q := fun heq => hdiff (by rw [heq])
    exact syncEnabled_of_differ (hinv.finalized p hp) (hinv.finalized q hq) hne hconn hdiff
  · by_cases hne : x.p = x.q
    · rw [hne]
    · obtain ⟨c, hex⟩ := exchanged_apply h x hp hq hne hconn
      exact hex.left.trans hex.right.symm
  · obtain ⟨c, hc⟩ := exchanges_converge h hfull hcov
    obtain ⟨hcp, hanc⟩ := hc p hp
    obtain ⟨hcq, _⟩ := hc q hq
    refine ⟨hcp.trans hcq.symm, ?_⟩
    rw [← hcq] at hanc
    exact hanc

theorem pairwise_sync_converges_on_fork :
    ((Exchange.apply forkState ⟨1, 2, ascendingFolds, ascendingFolds⟩).nodes.get 1).synced =
      ((Exchange.apply forkState ⟨1, 2, ascendingFolds, ascendingFolds⟩).nodes.get 2).synced :=
  (pairwise_sync_converges ⟨_, forkRun_runs⟩).2.1 ⟨1, 2, ascendingFolds, ascendingFolds⟩
    (by decide) (by decide) (by decide +kernel)

end DoltSwarm.Protocol
