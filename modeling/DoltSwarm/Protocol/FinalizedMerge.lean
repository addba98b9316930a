import DoltSwarm.Protocol.FinalizedLayer

/-!
# Merging two incomparable finalized tips

Both sides of a merge compute the same commit and the same metadata, in whatever order
they enumerate sets: the lowest common ancestor is the best element of a strict total
order, and the unions are commutative because shared keys carry equal values.
-/

namespace DoltSwarm.Protocol

open Lib

set_option autoImplicit false

/-! ## The lowest common ancestor -/

/-- Deeper first, then the smaller id. -/
def deeperFirst (depth : FinalizedCommitID → Nat) (candidate current : FinalizedCommitID) : Bool :=
  if depth candidate > depth current then true
  else if depth candidate < depth current then false
  else finalizedCommitLess candidate current

theorem deeperFirst_iff (depth : FinalizedCommitID → Nat) (a b : FinalizedCommitID) :
    deeperFirst depth a b = true ↔ depth b < depth a ∨
      depth a = depth b ∧ finalizedCommitLess a b = true := by
  simp only [deeperFirst]
  split_ifs with h₁ h₂
  · simp [h₁]
  · simp only [false_iff, not_or, not_and]
    exact ⟨h₁, fun heq => absurd heq (by omega)⟩
  · have heq : depth a = depth b := by omega
    simp [heq]

theorem deeperFirst_strictTotal (depth : FinalizedCommitID → Nat) :
    StrictTotalOn (deeperFirst depth) fun _ => True := by
  apply strictTotalOn_of_key fun c => toLex (OrderDual.toDual (depth c), c.key)
  · intro a b
    rw [deeperFirst_iff, finalizedCommitLess_iff_key, Prod.Lex.toLex_lt_toLex,
      OrderDual.toDual_lt_toDual, OrderDual.toDual_inj]
  · intro a b hkey
    simp only [toLex_inj, Prod.mk.injEq] at hkey
    exact FinalizedCommitID.key_injective hkey.2

def depthOf (P : ParentsMap) (c : FinalizedCommitID) : Nat :=
  if c ∈ (lineageDepthMap P).keys then (lineageDepthMap P).get c else 0

theorem lca_eq_best (o : FoldOrder) (a b : FinalizedCommitID) (P : ParentsMap) :
    @lineageLcaFinalizedCommit o a b P = best (deeperFirst (depthOf P)) emptyFinalizedCommitId
      (o.commits.list (lineageAncestors P a ∩ lineageAncestors P b)) := by
  simp only [lineageLcaFinalizedCommit, best]
  congr 1
  funext current candidate
  simp only [deeperFirst, depthOf]
  split_ifs <;> simp_all

theorem lca_comm (o o' : FoldOrder) (a b : FinalizedCommitID) (P : ParentsMap) :
    @lineageLcaFinalizedCommit o a b P = @lineageLcaFinalizedCommit o' b a P := by
  rw [lca_eq_best, lca_eq_best]
  refine best_eq_of_mem_iff (deeperFirst_strictTotal _) fun c => ?_
  rw [List.mem_cons, List.mem_cons, Enumeration.mem_list, Enumeration.mem_list,
    Finset.inter_comm]

/-! ## Derived finalized events -/

theorem lookup_foldl_merge {L : Finset Event} {checkpoints : CheckpointMap}
    (hd : ∀ c, DescribedBy L (descriptorAt checkpoints c))
    (hagree : ∀ d d' : FinalizedCheckpoint, DescribedBy L d → DescribedBy L d' → Map.Agree d d')
    (l : List FinalizedCommitID) (hl : ∀ c ∈ l, c ∈ checkpoints.keys)
    (acc : FinalizedCheckpoint) (hacc : DescribedBy L acc) (id : EventID) (r : ProllyRootHash) :
    (l.foldl (fun acc c => mergeFinalizedEventMap acc (checkpoints.get c)) acc).lookup id = some r ↔
      acc.lookup id = some r ∨ ∃ c ∈ l, (descriptorAt checkpoints c).lookup id = some r := by
  induction l generalizing acc with
  | nil => simp
  | cons c cs ih =>
    simp only [List.mem_cons, forall_eq_or_imp] at hl
    have hget : checkpoints.get c = descriptorAt checkpoints c := (if_pos hl.1).symm
    rw [List.foldl_cons, hget, ih hl.2 _ (hacc.merge (hd c))]
    have hmerge : (mergeFinalizedEventMap acc (descriptorAt checkpoints c)).lookup id = some r ↔
        acc.lookup id = some r ∨ (descriptorAt checkpoints c).lookup id = some r := by
      constructor
      · exact Map.lookup_firstWins_some
      · rw [mergeFinalizedEventMap, Map.lookup_firstWins, Option.or_eq_some_iff]
        rintro (h | h)
        · exact Or.inl h
        · cases ha : acc.lookup id with
          | none => exact Or.inr ⟨rfl, h⟩
          | some r' => exact Or.inl (congrArg some (hagree _ _ hacc (hd c) id r' r ha h))
    rw [hmerge]
    simp only [List.mem_cons, exists_eq_or_imp, or_assoc]

theorem lookup_derivedFinalizedEventMap {s : State} (hs : LedgerInv s) (o : FoldOrder)
    {checkpoints : CheckpointMap} (hd : ∀ c, DescribedBy s.ledger (descriptorAt checkpoints c))
    (tip : FinalizedCommitID) (P : ParentsMap) (id : EventID) (r : ProllyRootHash) :
    (@derivedFinalizedEventMap o tip P checkpoints).lookup id = some r ↔
      ∃ c ∈ lineageAncestors P tip, (descriptorAt checkpoints c).lookup id = some r := by
  have hkeys : ∀ c ∈ o.commits.list (lineageAncestors P tip ∩ checkpoints.keys),
      c ∈ checkpoints.keys := by
    intro c hc
    rw [Enumeration.mem_list] at hc
    exact (Finset.mem_inter.mp hc).2
  rw [derivedFinalizedEventMap, lookup_foldl_merge hd (fun _ _ => DescribedBy.agree hs) _ hkeys ∅
    (describedBy_empty _)]
  simp only [Finmap.lookup_empty, reduceCtorEq, false_or, Enumeration.mem_list, Finset.mem_inter]
  constructor
  · rintro ⟨c, ⟨hc, _⟩, hr⟩
    exact ⟨c, hc, hr⟩
  · rintro ⟨c, hc, hr⟩
    refine ⟨c, ⟨hc, ?_⟩, hr⟩
    by_contra hk
    rw [descriptorAt, if_neg hk] at hr
    simp at hr

theorem derivedFinalizedEventMap_order {s : State} (hs : LedgerInv s) (o o' : FoldOrder)
    {checkpoints : CheckpointMap} (hd : ∀ c, DescribedBy s.ledger (descriptorAt checkpoints c))
    (tip : FinalizedCommitID) (P : ParentsMap) :
    @derivedFinalizedEventMap o tip P checkpoints =
      @derivedFinalizedEventMap o' tip P checkpoints := by
  apply Map.ext
  intro id
  apply Option.ext
  intro r
  rw [lookup_derivedFinalizedEventMap hs o hd, lookup_derivedFinalizedEventMap hs o' hd]

/-! ## Metadata unions -/

theorem mergeFinalizedCheckpointMap_comm {s : State} (hs : LedgerInv s) {m m' : CheckpointMap}
    (hm : ∀ c, DescribedBy s.ledger (descriptorAt m c))
    (hm' : ∀ c, DescribedBy s.ledger (descriptorAt m' c)) :
    mergeFinalizedCheckpointMap m m' = mergeFinalizedCheckpointMap m' m := by
  simp only [mergeFinalizedCheckpointMap, Finset.union_comm m.keys]
  congr 1
  funext c
  exact Map.firstWins_comm ((hm c).agree hs (hm' c))

section

variable {stLocal stRemote : NodeState}

theorem syncMode_eq_merge_iff : syncMode stLocal stRemote = .merge ↔
    stLocal.finalizedCommitId ≠ stRemote.finalizedCommitId ∧
    (finalizedCommitIsAncestor stLocal.finalizedCommitId stRemote.finalizedCommitId
        (mergeSetMap stLocal.finalizedCommitParents stRemote.finalizedCommitParents) ↔
      finalizedCommitIsAncestor stRemote.finalizedCommitId stLocal.finalizedCommitId
        (mergeSetMap stLocal.finalizedCommitParents stRemote.finalizedCommitParents)) := by
  simp only [syncMode]
  split_ifs with h₁ h₂ h₃
  · simp [h₁]
  · simp [h₁, h₂.1, h₂.2]
  · simp [h₁, h₃.1, h₃.2]
  · refine iff_of_true rfl ⟨h₁, fun hl => ?_, fun hr => ?_⟩
    · by_contra hr
      exact h₂ ⟨hl, hr⟩
    · by_contra hl
      exact h₃ ⟨hr, hl⟩

theorem syncMode_of_ancestor (hP : Faithful (mergeSetMap stLocal.finalizedCommitParents
      stRemote.finalizedCommitParents))
    (hne : stLocal.finalizedCommitId ≠ stRemote.finalizedCommitId)
    (h : finalizedCommitIsAncestor stLocal.finalizedCommitId stRemote.finalizedCommitId
      (mergeSetMap stLocal.finalizedCommitParents stRemote.finalizedCommitParents)) :
    syncMode stLocal stRemote = .adopt := by
  have hnot : ¬finalizedCommitIsAncestor stRemote.finalizedCommitId stLocal.finalizedCommitId
      (mergeSetMap stLocal.finalizedCommitParents stRemote.finalizedCommitParents) :=
    fun h' => hne (hP.ancestors_antisymm h h')
  simp [syncMode, hne, h, hnot]

theorem syncMode_of_descendant (hP : Faithful (mergeSetMap stLocal.finalizedCommitParents
      stRemote.finalizedCommitParents))
    (h : finalizedCommitIsAncestor stRemote.finalizedCommitId stLocal.finalizedCommitId
      (mergeSetMap stLocal.finalizedCommitParents stRemote.finalizedCommitParents)) :
    syncMode stLocal stRemote = .noop := by
  by_cases heq : stLocal.finalizedCommitId = stRemote.finalizedCommitId
  · simp [syncMode, heq]
  · have hnot : ¬finalizedCommitIsAncestor stLocal.finalizedCommitId
        stRemote.finalizedCommitId
        (mergeSetMap stLocal.finalizedCommitParents stRemote.finalizedCommitParents) :=
      fun h' => heq (hP.ancestors_antisymm h' h)
    simp [syncMode, heq, h, hnot]

theorem syncMode_merge_symm (h : syncMode stLocal stRemote = .merge) :
    syncMode stRemote stLocal = .merge := by
  rw [syncMode_eq_merge_iff] at h ⊢
  rw [mergeSetMap_comm]
  exact ⟨h.1.symm, h.2.symm⟩

theorem mergePlan_comm (o o' : FoldOrder)
    (hne : stLocal.finalizedCommitId ≠ stRemote.finalizedCommitId) :
    @mergePlan o stLocal stRemote = @mergePlan o' stRemote stLocal := by
  have hlca := lca_comm o o' stLocal.finalizedCommitId stRemote.finalizedCommitId
    (mergeSetMap stLocal.finalizedCommitParents stRemote.finalizedCommitParents)
  have hmap := mergeSetMap_comm stRemote.finalizedCommitParents stLocal.finalizedCommitParents
  simp only [mergePlan, hlca, hmap]
  rcases finalizedCommitLess_strictTotal.tri stLocal.finalizedCommitId
    stRemote.finalizedCommitId trivial trivial with hlt | heq | hlt
  · simp [hlt, finalizedCommitLess_strictTotal.asymm trivial trivial hlt]
  · exact absurd heq hne
  · simp [hlt, finalizedCommitLess_strictTotal.asymm trivial trivial hlt]

theorem effectiveFinalizedCommit_comm (o o' : FoldOrder)
    (hne : stLocal.finalizedCommitId ≠ stRemote.finalizedCommitId) :
    @effectiveFinalizedCommit o stLocal stRemote =
      @effectiveFinalizedCommit o' stRemote stLocal := by
  simp only [effectiveFinalizedCommit, mergePlan_comm o o' hne, Finset.pair_comm
    stLocal.finalizedCommitId]
  exact makeFinalizedCommitID_order o o' _ _ _

end

theorem syncMergeResult_comm {s : State} (hs : LedgerInv s) (o o' : FoldOrder)
    {stLocal stRemote : NodeState} (hl : FinalizedOk s.ledger stLocal)
    (hr : FinalizedOk s.ledger stRemote)
    (hne : stLocal.finalizedCommitId ≠ stRemote.finalizedCommitId) :
    sameFinalizedState (@syncMergeResult o stLocal stRemote)
      (@syncMergeResult o' stRemote stLocal) := by
  have hplan := mergePlan_comm o o' hne
  have htip := effectiveFinalizedCommit_comm o o' hne
  have hpar : (@syncMergeResult o stLocal stRemote).finalizedCommitParents =
      (@syncMergeResult o' stRemote stLocal).finalizedCommitParents := by
    rw [@syncMergeResult_parents o _ _ _ hl hr, @syncMergeResult_parents o' _ _ _ hr hl, htip,
      mergeSetMap_comm stRemote.finalizedCommitParents,
      Finset.pair_comm stLocal.finalizedCommitId]
  have hck := mergeFinalizedCheckpointMap_comm hs hl.described hr.described
  have hres := Finset.union_comm stLocal.resolvedFinalizedConflictIds
    stRemote.resolvedFinalizedConflictIds
  have hcon : mergeFinalizedConflictMap stLocal.finalizedConflicts stRemote.finalizedConflicts =
      mergeFinalizedConflictMap stRemote.finalizedConflicts stLocal.finalizedConflicts :=
    Map.firstWins_comm (hl.spelledOut.agree hr.spelledOut)
  refine ⟨htip, ?_, ?_, hck, hpar, ?_, hres⟩
  · simp only [syncMergeResult, syncMetadata, hplan]
  · have hd := (@finalizedOk_syncMergeResult o _ _ _ hl hr).described
    have horder := derivedFinalizedEventMap_order hs o o' hd
      (@effectiveFinalizedCommit o stLocal stRemote)
      (@syncMergeResult o stLocal stRemote).finalizedCommitParents
    refine horder.trans ?_
    rw [hpar, htip]
    simp only [syncMergeResult, syncMetadata, hck]
  · simp only [syncMergeResult, syncMetadata, hplan, hcon, hres]

/-- Two peers that merge incomparable tips end with the same finalized state, whichever side
merges and however sets are enumerated, and the new tip has exactly the two old ones as
parents. -/
theorem finalized_merge_commutes {s : State} (h : Reachable Step init s) {p q : PeerID}
    (hp : p ∈ peers) (hq : q ∈ peers) (o o' : FoldOrder)
    (hmode : syncMode (s.nodes.get p) (s.nodes.get q) = .merge) :
    syncMode (s.nodes.get q) (s.nodes.get p) = .merge ∧
    sameFinalizedState (@syncFinalizedCoreResult o (s.nodes.get p) (s.nodes.get q))
      (@syncFinalizedCoreResult o' (s.nodes.get q) (s.nodes.get p)) ∧
    parentsAt (@syncFinalizedCoreResult o (s.nodes.get p) (s.nodes.get q)).finalizedCommitParents
        (@syncFinalizedCoreResult o (s.nodes.get p) (s.nodes.get q)).finalizedCommitId =
      {(s.nodes.get p).finalizedCommitId, (s.nodes.get q).finalizedCommitId} := by
  have hinv := swarmInv_of_reachable h
  have hl := hinv.finalized p hp
  have hr := hinv.finalized q hq
  have hmode' := syncMode_merge_symm hmode
  have hcore : @syncFinalizedCoreResult o (s.nodes.get p) (s.nodes.get q) =
      @syncMergeResult o (s.nodes.get p) (s.nodes.get q) := by
    simp only [syncFinalizedCoreResult, hmode]
  have hcore' : @syncFinalizedCoreResult o' (s.nodes.get q) (s.nodes.get p) =
      @syncMergeResult o' (s.nodes.get q) (s.nodes.get p) := by
    simp only [syncFinalizedCoreResult, hmode']
  rw [hcore, hcore']
  refine ⟨hmode', syncMergeResult_comm hinv.toLedgerInv o o' hl hr
    (syncMode_eq_merge_iff.mp hmode).1, ?_⟩
  rw [@syncMergeResult_parents o _ _ _ hl hr]
  exact parentsAt_of_lookup (Map.lookup_put_self _ _ _)

/-! ## A fork without a partition -/

/-- Peers 1 and 2 write concurrently. Peer 3 has received only the second write when peer 1
asks for its frontier, so peer 1 finalizes that one first; peer 2 asks later and starts with
the first write. -/
def forkRun : List Action :=
  let first := writtenEvent (emptyNodeState 1) 1 11
  let second := writtenEvent (emptyNodeState 2) 2 12
  [.write 1 11, .write 2 12, .receive 1 second, .receive 2 first, .receive 3 second,
    .chunksReady 1 second.eventId, .chunksReady 2 first.eventId,
    .heartbeat 1 3, .heartbeat 1 2, .finalize 1,
    .receive 3 first, .chunksReady 3 first.eventId, .chunksReady 3 second.eventId,
    .heartbeat 2 3, .heartbeat 2 1, .finalize 2]

def forkState : State := (runOutcome forkRun).2

theorem forkRun_runs : Run Step init (runOutcome forkRun).1 forkState :=
  run_runOutcome (by decide +kernel)

theorem finalized_merge_commutes_on_fork :
    syncMode (forkState.nodes.get 1) (forkState.nodes.get 2) = .merge ∧
    sameFinalizedState
      (@syncFinalizedCoreResult ascendingFolds (forkState.nodes.get 1) (forkState.nodes.get 2))
      (@syncFinalizedCoreResult ascendingFolds (forkState.nodes.get 2)
        (forkState.nodes.get 1)) := by
  have hmode : syncMode (forkState.nodes.get 1) (forkState.nodes.get 2) = .merge := by
    decide +kernel
  have h := finalized_merge_commutes ⟨_, forkRun_runs⟩ (p := 1) (q := 2) (by decide) (by decide)
    ascendingFolds ascendingFolds hmode
  exact ⟨hmode, h.2.1⟩

end DoltSwarm.Protocol
