import DoltSwarm.Protocol.FinalizedConflicts
import DoltSwarm.Protocol.Sentinels

/-!
# The ledger of finalized conflicts

Conflicts are recorded where two tips are merged, passed on by SYNC_FINALIZED, and leave the
ledger only into the set of resolved ids. A resolved id goes back to an event that was written
against an open conflict. `LedgerMove` says what one step does to both sets at one peer.
-/

namespace DoltSwarm.Protocol

open Lib

set_option autoImplicit false

/-- The triple of two different recorded commits and a common one whose roots conflict. -/
structure Authentic (P : ParentsMap) (k : FinalizedConflictID) : Prop where
  ne : k.ours ≠ k.theirs
  ours_mem : k.ours ∈ P.keys
  theirs_mem : k.theirs ∈ P.keys
  common_mem : k.common ∈ P.keys
  conflict : mergeRoots k.ours.root k.theirs.root k.common.root = conflictHash

theorem Authentic.mono {P Q : ParentsMap} {k : FinalizedConflictID} (h : Authentic P k)
    (hsub : P.keys ⊆ Q.keys) : Authentic Q k :=
  ⟨h.ne, hsub h.ours_mem, hsub h.theirs_mem, hsub h.common_mem, h.conflict⟩

/-- The id was an open conflict at some peer. -/
def openAt (s : State) (k : FinalizedConflictID) : Prop :=
  ∃ q ∈ peers, k ∈ (s.nodes.get q).finalizedConflicts.keys

/-- The conflict is open at a peer whose commits are all recorded, or it is authentic itself. -/
def Accounted (s : State) (P : ParentsMap) (k : FinalizedConflictID) : Prop :=
  (∃ q ∈ peers, k ∈ (s.nodes.get q).finalizedConflicts.keys ∧
    (s.nodes.get q).finalizedCommitParents.keys ⊆ P.keys) ∨ Authentic P k

theorem Accounted.mono {s : State} {P Q : ParentsMap} {k : FinalizedConflictID}
    (h : Accounted s P k) (hsub : P.keys ⊆ Q.keys) : Accounted s Q k := by
  rcases h with ⟨q, hq, hk, hknown⟩ | hauth
  · exact Or.inl ⟨q, hq, hk, hknown.trans hsub⟩
  · exact Or.inr (hauth.mono hsub)

/-- What a step from `s` does to the conflicts of one peer. -/
structure LedgerMove (s : State) (before after : NodeState) : Prop where
  resolved : before.resolvedFinalizedConflictIds ⊆ after.resolvedFinalizedConflictIds
  kept : ∀ k v, before.finalizedConflicts.lookup k = some v →
    after.finalizedConflicts.lookup k = some v ∨ k ∈ after.resolvedFinalizedConflictIds
  entered : ∀ k ∈ after.finalizedConflicts.keys, Accounted s after.finalizedCommitParents k
  hardened : ∀ k ∈ after.resolvedFinalizedConflictIds,
    (∃ q ∈ peers, k ∈ (s.nodes.get q).resolvedFinalizedConflictIds) ∨
    ∃ e ∈ s.ledger, e.resolvedFinalizedConflictId = some k

theorem lookup_dropFinalizedConflicts {m : ConflictMap} {ids : Finset FinalizedConflictID}
    {k : FinalizedConflictID} {v : FinalizedConflict} (h : m.lookup k = some v) :
    (dropFinalizedConflicts m ids).lookup k = some v ∨ k ∈ ids := by
  by_cases hk : k ∈ ids
  · exact Or.inr hk
  · refine Or.inl ?_
    rw [dropFinalizedConflicts, Map.lookup_removeAll, if_neg hk]
    exact h

theorem mem_resolvedClaims {e : Event} {k : FinalizedConflictID} (h : k ∈ resolvedClaims e) :
    e.resolvedFinalizedConflictId = some k := by
  unfold resolvedClaims at h
  split at h
  · next cid hcid => rw [hcid, Finset.mem_singleton.mp h]
  · simp at h

section

variable [FoldOrder]

theorem finalizeResult_conflicts {L : Finset Event} {st : NodeState} (h : FinalizedOk L st)
    (he : finalizeEnabled st) :
    let resolved := st.resolvedFinalizedConflictIds ∪
      resolvedClaims (st.clock.get (nextFinalizationEventID st))
    (finalizeResult st).resolvedFinalizedConflictIds = resolved ∧
    (finalizeResult st).finalizedConflicts =
      dropFinalizedConflicts st.finalizedConflicts resolved ∧
    st.finalizedCommitParents.keys ⊆ (finalizeResult st).finalizedCommitParents.keys := by
  rcases finalizeResult_cases st he with ⟨_, heq⟩ | ⟨_, _, heq⟩
  · rw [heq]
    exact ⟨rfl, rfl, Finset.Subset.refl _⟩
  · rw [heq, h.replayNextEvent_eq]
    refine ⟨rfl, rfl, ?_⟩
    simp only [reconcileResult_finalizedCommitParents, Map.keys_put]
    exact Finset.subset_insert _ _

variable {s : State} (h : ContentInv s) {p : PeerID} (hp : p ∈ peers)

include h hp

theorem ledgerMove_finalize (he : finalizeEnabled (s.nodes.get p)) :
    LedgerMove s (s.nodes.get p) (finalizeResult (s.nodes.get p)) := by
  obtain ⟨hres, hcon, hpar⟩ := finalizeResult_conflicts (h.finalized p hp) he
  constructor
  case resolved =>
    rw [hres]
    exact Finset.subset_union_left
  case kept =>
    intro k v hv
    rw [hres, hcon]
    exact lookup_dropFinalizedConflicts hv
  case entered =>
    intro k hk
    rw [hcon] at hk
    refine Or.inl ⟨p, hp, ?_, hpar⟩
    rw [dropFinalizedConflicts, Map.keys_removeAll] at hk
    exact (Finset.mem_sdiff.mp hk).1
  case hardened =>
    intro k hk
    rw [hres] at hk
    rcases Finset.mem_union.mp hk with hk | hk
    · exact Or.inl ⟨p, hp, hk⟩
    · have hmem := (h.node p hp).get_mem (nextFinalizationEventID_mem_keys _ he)
      exact Or.inr ⟨_, hmem.1, mem_resolvedClaims hk⟩

omit h in
theorem ledgerMove_metadata {q : PeerID} (hq : q ∈ peers) (tip : FinalizedCommitID)
    (root : ProllyRootHash) :
    LedgerMove s (s.nodes.get p) (syncMetadata (s.nodes.get p) (s.nodes.get q) tip root) := by
  constructor
  case resolved => exact Finset.subset_union_left
  case kept =>
    intro k v hv
    refine lookup_dropFinalizedConflicts ?_
    rw [mergeFinalizedConflictMap, Map.lookup_firstWins, hv, Option.some_or]
  case entered =>
    intro k hk
    simp only [syncMetadata, dropFinalizedConflicts, mergeFinalizedConflictMap,
      Map.keys_removeAll, Map.keys_firstWins] at hk
    simp only [Accounted, syncMetadata, keys_mergeSetMap]
    rcases Finset.mem_union.mp (Finset.mem_sdiff.mp hk).1 with hk | hk
    · exact Or.inl ⟨p, hp, hk, Finset.subset_union_left⟩
    · exact Or.inl ⟨q, hq, hk, Finset.subset_union_right⟩
  case hardened =>
    intro k hk
    rcases Finset.mem_union.mp hk with hk | hk
    · exact Or.inl ⟨p, hp, hk⟩
    · exact Or.inl ⟨q, hq, hk⟩

theorem authentic_plan {q : PeerID} (hq : q ∈ peers)
    (hmode : syncMode (s.nodes.get p) (s.nodes.get q) = .merge)
    (hconflict : (mergePlan (s.nodes.get p) (s.nodes.get q)).merged = conflictHash) :
    Authentic (mergeSetMap (s.nodes.get p).finalizedCommitParents
        (s.nodes.get q).finalizedCommitParents)
      (mergePlan (s.nodes.get p) (s.nodes.get q)).conflictId := by
  obtain ⟨hours, htheirs, hcommon⟩ := h.plan_mem hp hq
  refine ⟨?_, hours, htheirs, hcommon, hconflict⟩
  have htips := (syncMode_eq_merge_iff.mp hmode).1
  simp only [MergePlan.conflictId, mergePlan]
  split
  · exact htips
  · exact htips.symm

theorem ledgerMove_merge {q : PeerID} (hq : q ∈ peers)
    (hmode : syncMode (s.nodes.get p) (s.nodes.get q) = .merge) :
    LedgerMove s (s.nodes.get p) (syncMergeResult (s.nodes.get p) (s.nodes.get q)) := by
  have hbase := ledgerMove_metadata (s := s) hp hq
    (effectiveFinalizedCommit (s.nodes.get p) (s.nodes.get q))
    (mergePlan (s.nodes.get p) (s.nodes.get q)).effectiveRoot
  have hkeys : (mergeSetMap (s.nodes.get p).finalizedCommitParents
      (s.nodes.get q).finalizedCommitParents).keys ⊆
      (syncMergeResult (s.nodes.get p) (s.nodes.get q)).finalizedCommitParents.keys := by
    rw [syncMergeResult_parents (h.finalized p hp) (h.finalized q hq), Map.keys_put]
    exact Finset.subset_insert _ _
  constructor
  case resolved => exact hbase.resolved
  case kept =>
    intro k v hv
    refine (hbase.kept k v hv).imp_left fun hl => ?_
    simp only [syncMergeResult, MergePlan.recordConflict]
    split
    · rw [Map.lookup_put]
      split
      · next heq =>
        -- the record is determined by its key, so writing it again changes nothing
        rw [(h.finalized p hp).spelledOut k v hv, heq]
        rfl
      · exact hl
    · exact hl
  case entered =>
    intro k hk
    have hold := fun hk => (hbase.entered k hk).mono hkeys
    simp only [syncMergeResult, MergePlan.recordConflict] at hk
    split at hk
    · next hnew =>
      rw [Map.keys_put] at hk
      rcases Finset.mem_insert.mp hk with rfl | hk
      · exact Or.inr ((authentic_plan h hp hq hmode hnew.1).mono hkeys)
      · exact hold hk
    · exact hold hk
  case hardened => exact hbase.hardened

theorem ledgerMove_core {q : PeerID} (hq : q ∈ peers) :
    LedgerMove s (s.nodes.get p) (syncFinalizedCoreResult (s.nodes.get p) (s.nodes.get q)) := by
  have hmerge := ledgerMove_merge h hp hq
  simp only [syncFinalizedCoreResult]
  generalize syncMode (s.nodes.get p) (s.nodes.get q) = mode at hmerge ⊢
  cases mode with
  | adopt => exact ledgerMove_metadata hp hq _ _
  | noop => exact ledgerMove_metadata hp hq _ _
  | merge => exact hmerge rfl

/-- Every step moves the conflicts of every peer this way. -/
theorem ledgerMove_effect {a : Action} {s' : State} (heff : Effect s a s') :
    LedgerMove s (s.nodes.get p) (s'.nodes.get p) := by
  rcases finalized_effect heff p with ⟨_, _, _, _, hpar, hcon, hres⟩ | ⟨_, he, hst⟩ |
    ⟨r, hr, _, _, _, _, _, hpar, hcon, hres⟩
  · refine ⟨hres.ge, fun k v hv => Or.inl (hcon ▸ hv), fun k hk => Or.inl ⟨p, hp, hcon ▸ hk, ?_⟩,
      fun k hk => Or.inl ⟨p, hp, hres ▸ hk⟩⟩
    rw [hpar]
  · rw [hst]
    exact ledgerMove_finalize h hp he
  · have hcore := ledgerMove_core h hp hr
    constructor
    case resolved => exact hres ▸ hcore.resolved
    case kept =>
      rw [hcon, hres]
      exact hcore.kept
    case entered =>
      rw [hcon, hpar]
      exact hcore.entered
    case hardened => exact hres ▸ hcore.hardened

end

/-! ## Runs -/

/-- Open conflicts are authentic, and resolved ids and claims were open before. -/
structure ConflictInv (tr : List (State × Action)) (s : State) : Prop where
  authentic : ∀ p ∈ peers, ∀ k ∈ (s.nodes.get p).finalizedConflicts.keys,
    Authentic (s.nodes.get p).finalizedCommitParents k
  resolved : ∀ p ∈ peers, ∀ k ∈ (s.nodes.get p).resolvedFinalizedConflictIds,
    ∃ x ∈ tr, openAt x.1 k
  claimed : ∀ e ∈ s.ledger, ∀ k ∈ e.resolvedFinalizedConflictId, ∃ x ∈ tr, openAt x.1 k

theorem conflictInv_init : ConflictInv [] init := by
  have hL : init.ledger = ∅ := by decide
  have hget : ∀ p ∈ peers, init.nodes.get p = emptyNodeState p :=
    fun p hp => Map.get_mapBy_of_mem _ hp
  refine ⟨fun p hp k hk => ?_, fun p hp k hk => ?_, by simp [hL]⟩
  · rw [hget p hp] at hk
    simp [emptyNodeState] at hk
  · rw [hget p hp] at hk
    simp [emptyNodeState] at hk

theorem ConflictInv.effect [FoldOrder] {tr : List (State × Action)} {s s' : State} {a : Action}
    (h : ConflictInv tr s) (hinv : ContentInv s) (heff : Effect s a s') :
    ConflictInv ((s, a) :: tr) s' := by
  have hlater : ∀ k, (∃ x ∈ tr, openAt x.1 k) → ∃ x ∈ (s, a) :: tr, openAt x.1 k := by
    rintro k ⟨x, hx, hopen⟩
    exact ⟨x, List.mem_cons_of_mem _ hx, hopen⟩
  constructor
  case authentic =>
    intro p hp k hk
    rcases (ledgerMove_effect hinv hp heff).entered k hk with ⟨q, hq, hk, hsub⟩ | hauth
    · exact (h.authentic q hq k hk).mono hsub
    · exact hauth
  case resolved =>
    intro p hp k hk
    rcases (ledgerMove_effect hinv hp heff).hardened k hk with ⟨q, hq, hk⟩ | ⟨e, he, hclaim⟩
    · exact hlater k (h.resolved q hq k hk)
    · exact hlater k (h.claimed e he k hclaim)
  case claimed =>
    intro e he k hk
    rcases ledger_effect hinv.toLedgerInv heff with ⟨p, e', hp, hem, hL⟩ | hL
    · rw [hL] at he
      rcases Finset.mem_insert.mp he with rfl | he
      · -- the only claims are made against an open conflict of the author
        cases hem with
        | write content _ => cases hk
        | resolveConflict parked content _ _ _ => cases hk
        | resolveFinalizedConflict cid content _ hopen =>
          obtain rfl : cid = k := Option.some.inj hk
          exact ⟨_, List.mem_cons_self, p, hp, hopen⟩
      · exact hlater k (h.claimed e he k hk)
    · exact hlater k (h.claimed e (hL ▸ he) k hk)

theorem conflictInv_of_run {tr : List (State × Action)} {s : State} (h : Run Step init tr s) :
    ConflictInv tr s := by
  induction h with
  | nil => exact conflictInv_init
  | snoc hrun hstep ih =>
    obtain ⟨o, hs⟩ := hstep
    exact @ConflictInv.effect o _ _ _ _ ih (contentInv_of_reachable ⟨_, hrun⟩)
      (@effect_of_step o _ _ _ hs)

/-- The ledger of finalized conflicts along a run. In one more step, an entry that enters is the
record of an authentic triple, one that leaves is resolved, and resolved ids stay. No id is
open and resolved at one peer, before the step or after it, and every resolved id was open at
some peer before. -/
theorem finalized_conflict_ledger {tr : List (State × Action)} {s s' : State} {a : Action}
    (hrun : Run Step init tr s) (hstep : Step s a s') {p : PeerID} (hp : p ∈ peers) :
    let before := s.nodes.get p
    let after := s'.nodes.get p
    (∀ k v, after.finalizedConflicts.lookup k = some v →
      before.finalizedConflicts.lookup k ≠ some v →
      v = recordOf k ∧ Authentic after.finalizedCommitParents k) ∧
    (∀ k v, before.finalizedConflicts.lookup k = some v →
      after.finalizedConflicts.lookup k ≠ some v → k ∈ after.resolvedFinalizedConflictIds) ∧
    before.resolvedFinalizedConflictIds ⊆ after.resolvedFinalizedConflictIds ∧
    Disjoint before.finalizedConflicts.keys before.resolvedFinalizedConflictIds ∧
    Disjoint after.finalizedConflicts.keys after.resolvedFinalizedConflictIds ∧
    (∀ k ∈ before.resolvedFinalizedConflictIds, ∃ x ∈ tr, openAt x.1 k) := by
  intro before after
  have hbefore := swarmInv_of_reachable ⟨tr, hrun⟩
  have hafter := swarmInv_of_reachable ⟨_, hrun.snoc hstep⟩
  have hledger := conflictInv_of_run (hrun.snoc hstep)
  obtain ⟨o, hs⟩ := hstep
  have hmove := @ledgerMove_effect o s (contentInv_of_reachable ⟨tr, hrun⟩) p hp a s'
    (@effect_of_step o _ _ _ hs)
  refine ⟨fun k v hv _ => ?_, fun k v hv hgone => ?_, hmove.resolved,
    (hbefore.finalized p hp).unresolved, (hafter.finalized p hp).unresolved,
    (conflictInv_of_run hrun).resolved p hp⟩
  · exact ⟨(hafter.finalized p hp).spelledOut k v hv,
      hledger.authentic p hp k (Map.mem_keys_of_lookup hv)⟩
  · exact (hmove.kept k v hv).resolve_left hgone

/-- The sync of two competing tips puts their triple on record. -/
theorem finalized_conflict_ledger_on_competing :
    ∃ k ∈ ((runOutcome competingRun).2.nodes.get 1).finalizedConflicts.keys,
      Authentic ((runOutcome competingRun).2.nodes.get 1).finalizedCommitParents k := by
  let before := runOutcome competingRun.dropLast
  have hrun : Run Step init before.1 before.2 := run_runOutcome (by decide +kernel)
  have hstep : Step before.2 (.syncFinalized 1 2) (runOutcome competingRun).2 :=
    ⟨ascendingFolds, by decide +kernel⟩
  let k : FinalizedConflictID :=
    ⟨⟨11, [11, 1, 0], 1⟩, ⟨14, [14, 1, 0], 1⟩, emptyFinalizedCommitId⟩
  have hentered : k ∈ ((runOutcome competingRun).2.nodes.get 1).finalizedConflicts.keys := by
    decide +kernel
  have hnew : (before.2.nodes.get 1).finalizedConflicts.lookup k = none := by decide +kernel
  have hledger := (finalized_conflict_ledger hrun hstep (p := 1) (by decide)).1 k _
    (Map.lookup_of_mem hentered) (by simp [hnew])
  exact ⟨k, hentered, hledger.2⟩

end DoltSwarm.Protocol
