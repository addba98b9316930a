import DoltSwarm.Protocol.Lineage
import DoltSwarm.Protocol.Projection

/-!
# Finalization and SYNC_FINALIZED on one peer's state

`finalizeResult` extends the finalized history by one event. `syncFinalizedCoreResult`
reconciles the finalized fields with those of another peer, and `applySyncFinalizedResult`
brings the retained clock and the projection in line with the outcome.
-/

namespace DoltSwarm.Protocol

open Lib

set_option autoImplicit false

inductive SyncMode where
  | adopt
  | noop
  | merge
  deriving DecidableEq, Repr

def syncMode (stLocal stRemote : NodeState) : SyncMode :=
  let mergedParents := mergeSetMap stLocal.finalizedCommitParents stRemote.finalizedCommitParents
  if stLocal.finalizedCommitId = stRemote.finalizedCommitId then .noop
  else
    let localAncestorRemote := finalizedCommitIsAncestor stLocal.finalizedCommitId
      stRemote.finalizedCommitId mergedParents
    let remoteAncestorLocal := finalizedCommitIsAncestor stRemote.finalizedCommitId
      stLocal.finalizedCommitId mergedParents
    if localAncestorRemote ∧ ¬remoteAncestorLocal then .adopt
    else if remoteAncestorLocal ∧ ¬localAncestorRemote then .noop
    else .merge

/-- Heartbeats carry a digest of this metadata; the digest is compared as the payload. -/
def finalizedSyncNeeded (stLocal stRemote : NodeState) : Prop :=
  stLocal.finalizedCommitId ≠ stRemote.finalizedCommitId ∨
  stLocal.finalizedProllyRootHash ≠ stRemote.finalizedProllyRootHash ∨
  stLocal.finalizedCommitParents ≠ stRemote.finalizedCommitParents ∨
  stLocal.finalizedCheckpointEvents ≠ stRemote.finalizedCheckpointEvents ∨
  stLocal.finalizedConflicts ≠ stRemote.finalizedConflicts ∨
  stLocal.resolvedFinalizedConflictIds ≠ stRemote.resolvedFinalizedConflictIds

instance (stLocal stRemote : NodeState) : Decidable (finalizedSyncNeeded stLocal stRemote) :=
  inferInstanceAs (Decidable (_ ∨ _))

def syncAdoptionReady (stLocal stRemote : NodeState) : Prop :=
  if syncMode stLocal stRemote = .adopt then
    finalizedCommitIsAncestor stLocal.finalizedCommitId stRemote.finalizedCommitId
      (mergeSetMap stLocal.finalizedCommitParents stRemote.finalizedCommitParents)
  else True

instance (stLocal stRemote : NodeState) : Decidable (syncAdoptionReady stLocal stRemote) :=
  inferInstanceAs (Decidable (ite _ _ _))

def syncLineageReady (stLocal stRemote : NodeState) : Prop :=
  let mergedParents := mergeSetMap stLocal.finalizedCommitParents stRemote.finalizedCommitParents
  let known := lineageKnownFinalizedCommits mergedParents ∪ {emptyFinalizedCommitId}
  emptyFinalizedCommitId ∈ mergedParents.keys ∧
  stLocal.finalizedCommitId ∈ known ∧
  stRemote.finalizedCommitId ∈ known

instance (stLocal stRemote : NodeState) : Decidable (syncLineageReady stLocal stRemote) :=
  inferInstanceAs (Decidable (_ ∧ _))

def syncEnabled (conn : Finset (PeerID × PeerID)) (p q : PeerID) (stLocal stRemote : NodeState) :
    Prop :=
  p ≠ q ∧ (p, q) ∈ conn ∧ finalizedSyncNeeded stLocal stRemote ∧
  syncAdoptionReady stLocal stRemote ∧ syncLineageReady stLocal stRemote

instance (conn : Finset (PeerID × PeerID)) (p q : PeerID) (stLocal stRemote : NodeState) :
    Decidable (syncEnabled conn p q stLocal stRemote) := inferInstanceAs (Decidable (_ ∧ _))

variable [FoldOrder]

omit [FoldOrder] in
/-- The finalized-conflict claim an event carries, as a set. -/
def resolvedClaims (event : Event) : Finset FinalizedConflictID :=
  match event.resolvedFinalizedConflictId with
  | some cid => {cid}
  | none => ∅

omit [FoldOrder] in
/-- What both kinds of finalization do: enter the event under `commit` and harden its claim. -/
def hardenEvent (st : NodeState) (commit : FinalizedCommitID) (eventId : EventID)
    (event : Event) : NodeState :=
  let checkpoint := (descriptorAt st.finalizedCheckpointEvents commit).put eventId
    event.prollyRootHash
  let resolved := st.resolvedFinalizedConflictIds ∪ resolvedClaims event
  { st with
    finalizedEvents := st.finalizedEvents.put eventId event.prollyRootHash
    finalizedCheckpointEvents := st.finalizedCheckpointEvents.put commit checkpoint
    resolvedFinalizedConflictIds := resolved
    finalizedConflicts := dropFinalizedConflicts st.finalizedConflicts resolved }

omit [FoldOrder] in
def nextParents (st : NodeState) : Finset FinalizedCommitID :=
  if st.finalizedCommitId = emptyFinalizedCommitId then ∅ else {st.finalizedCommitId}

def nextFinalizedCommit (st : NodeState) : FinalizedCommitID :=
  makeFinalizedCheckpointCommitID (nextFinalizationMergeRoot st) (nextParents st)

/-- Replay finalization: the next event hardens under a new checkpoint commit. -/
def replayNextEvent (st : NodeState) : NodeState :=
  let nextEventId := nextFinalizationEventID st
  let withBatch : NodeState :=
    { hardenEvent st (nextFinalizedCommit st) nextEventId (st.clock.get nextEventId) with
      finalizedCommitId := nextFinalizedCommit st
      finalizedProllyRootHash := nextFinalizationMergeRoot st }
  if nextFinalizedCommit st ≠ st.finalizedCommitId then
    { withBatch with
      finalizedCommitParents := lineageAddFinalizedCommit st.finalizedCommitParents
        (nextFinalizedCommit st) (nextParents st) }
  else withBatch

/-- Finalize the next event: a subsumed one is only entered into the descriptor of the current
tip, any other is replayed into a new checkpoint commit. -/
def finalizeResult (st : NodeState) : NodeState :=
  let nextEventId := nextFinalizationEventID st
  if nextEventId = emptyEventId then st
  else if nextEventId ∈ subsumedEvents st.clock then
    reconcileResult (hardenEvent st st.finalizedCommitId nextEventId (st.clock.get nextEventId))
  else if nextFinalizationMergeRoot st = conflictHash then st
  else reconcileResult (replayNextEvent st)

/-- The fields both modes without a new commit share: merged metadata under a given tip. -/
def syncMetadata (stLocal stRemote : NodeState) (tip : FinalizedCommitID)
    (root : ProllyRootHash) : NodeState :=
  let mergedResolvedIds :=
    stLocal.resolvedFinalizedConflictIds ∪ stRemote.resolvedFinalizedConflictIds
  let mergedParents := mergeSetMap stLocal.finalizedCommitParents stRemote.finalizedCommitParents
  let mergedCheckpoints := mergeFinalizedCheckpointMap stLocal.finalizedCheckpointEvents
    stRemote.finalizedCheckpointEvents
  { stLocal with
    finalizedCommitParents := mergedParents
    finalizedCheckpointEvents := mergedCheckpoints
    resolvedFinalizedConflictIds := mergedResolvedIds
    finalizedCommitId := tip
    finalizedProllyRootHash := root
    finalizedEvents := derivedFinalizedEventMap tip mergedParents mergedCheckpoints
    finalizedConflicts := dropFinalizedConflicts
      (mergeFinalizedConflictMap stLocal.finalizedConflicts stRemote.finalizedConflicts)
      mergedResolvedIds }

/-- How two incomparable tips are merged: the lower id is ours. -/
structure MergePlan where
  commonFinalizedCommit : FinalizedCommitID
  oursFinalizedCommit : FinalizedCommitID
  theirsFinalizedCommit : FinalizedCommitID
  deriving DecidableEq

namespace MergePlan

variable (plan : MergePlan)

omit [FoldOrder] in
def merged : ProllyRootHash :=
  mergeRoots plan.oursFinalizedCommit.root plan.theirsFinalizedCommit.root
    plan.commonFinalizedCommit.root

omit [FoldOrder] in
/-- On a conflict the root of ours is kept. -/
def effectiveRoot : ProllyRootHash :=
  if plan.merged = conflictHash then plan.oursFinalizedCommit.root else plan.merged

omit [FoldOrder] in
def conflictId : FinalizedConflictID :=
  ⟨plan.oursFinalizedCommit, plan.theirsFinalizedCommit, plan.commonFinalizedCommit⟩

omit [FoldOrder] in
def conflictInfo : FinalizedConflict :=
  ⟨plan.conflictId, plan.oursFinalizedCommit, plan.theirsFinalizedCommit,
    plan.commonFinalizedCommit⟩

omit [FoldOrder] in
/-- A conflict that is not durably resolved yet is put on record. -/
def recordConflict (resolvedIds : Finset FinalizedConflictID) (conflicts : ConflictMap) :
    ConflictMap :=
  if plan.merged = conflictHash ∧ plan.conflictId ∉ resolvedIds
  then conflicts.put plan.conflictId plan.conflictInfo else conflicts

end MergePlan

def mergePlan (stLocal stRemote : NodeState) : MergePlan :=
  let mergedParents := mergeSetMap stLocal.finalizedCommitParents stRemote.finalizedCommitParents
  let localFirst := finalizedCommitLess stLocal.finalizedCommitId stRemote.finalizedCommitId
  ⟨lineageLcaFinalizedCommit stLocal.finalizedCommitId stRemote.finalizedCommitId mergedParents,
    if localFirst then stLocal.finalizedCommitId else stRemote.finalizedCommitId,
    if localFirst then stRemote.finalizedCommitId else stLocal.finalizedCommitId⟩

def effectiveFinalizedCommit (stLocal stRemote : NodeState) : FinalizedCommitID :=
  makeFinalizedMergeCommitID (mergePlan stLocal stRemote).effectiveRoot
    {stLocal.finalizedCommitId, stRemote.finalizedCommitId}

def syncMergeResult (stLocal stRemote : NodeState) : NodeState :=
  let plan := mergePlan stLocal stRemote
  let tip := effectiveFinalizedCommit stLocal stRemote
  let base := syncMetadata stLocal stRemote tip plan.effectiveRoot
  let lineage := lineageAddFinalizedCommit base.finalizedCommitParents tip
    {stLocal.finalizedCommitId, stRemote.finalizedCommitId}
  { base with
    finalizedConflicts := plan.recordConflict base.resolvedFinalizedConflictIds
      base.finalizedConflicts
    finalizedEvents := derivedFinalizedEventMap tip lineage base.finalizedCheckpointEvents
    finalizedCommitParents := lineage }

/-- Finalized-state update of SYNC_FINALIZED. -/
def syncFinalizedCoreResult (stLocal stRemote : NodeState) : NodeState :=
  match syncMode stLocal stRemote with
  | .adopt => syncMetadata stLocal stRemote stRemote.finalizedCommitId
      stRemote.finalizedProllyRootHash
  | .noop => syncMetadata stLocal stRemote stLocal.finalizedCommitId
      stLocal.finalizedProllyRootHash
  | .merge => syncMergeResult stLocal stRemote

omit [FoldOrder] in
/-- Retained finalized bodies completed from a remote clock and marked ready. -/
def hydrateRetained (st : NodeState) (remoteClock : Clock) (hydrated : Finset EventID) :
    NodeState :=
  let hydratedClock := applyRemoteEvents st.clock remoteClock hydrated
  { st with
    clock := hydratedClock
    headEventIds := computeHeadEventIDs hydratedClock
    chunksReady := st.chunksReady ∪ (hydratedClock.keys ∩ st.finalizedEvents.keys) }

/-- Full local result of SYNC_FINALIZED. -/
def applySyncFinalizedResult (stLocal stRemote : NodeState) : NodeState :=
  let syncedState := syncFinalizedCoreResult stLocal stRemote
  let tipChanged := syncedState.finalizedCommitId ≠ stLocal.finalizedCommitId ∨
    syncedState.finalizedProllyRootHash ≠ stLocal.finalizedProllyRootHash
  let bookkeepingChanged := syncedState.finalizedEvents ≠ stLocal.finalizedEvents
  let cleaned := if bookkeepingChanged then compactRetainedFinalized syncedState else syncedState
  if tipChanged then
    let hydratedClosure := pullClosureEventIDs cleaned.clock stRemote.clock cleaned.clock.keys ∅
    reconcileResult (compactRetainedFinalized
      (hydrateRetained cleaned stRemote.clock hydratedClosure))
  else
    let hydratedClosure := if bookkeepingChanged
      then pullClosureEventIDs cleaned.clock stRemote.clock (retainedFinalizedEventIDs cleaned) ∅
      else ∅
    let hydratedState := hydrateRetained cleaned stRemote.clock hydratedClosure
    reconcileResult (if bookkeepingChanged then compactRetainedFinalized hydratedState
      else hydratedState)

end DoltSwarm.Protocol
