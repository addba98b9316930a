import DoltSwarm.Protocol.Clock

/-!
# Tentative projection and finalization of one event

The anchored fold that both share, the replay base an event is finalized against, the
projection of the tentative heads, and the choice of the next event to finalize.
-/

namespace DoltSwarm.Protocol

open Lib

set_option autoImplicit false

variable [FoldOrder]

def sortEventIDsByHLC (eventIds : Finset EventID) (clock : Clock) : List EventID :=
  sortList (fun a b => less (clock.get a).hlc (clock.get b).hlc) (FoldOrder.events.list eventIds)

theorem mem_sortEventIDsByHLC (eventIds : Finset EventID) (clock : Clock) (id : EventID) :
    id ∈ sortEventIDsByHLC eventIds clock ↔ id ∈ eventIds := by
  rw [sortEventIDsByHLC, mem_sortList, Enumeration.mem_list]

omit [FoldOrder] in
/-- One merge of the fold: a conflicting head is set aside and the root stays. -/
def anchoredStep (clock : Clock) (acc : ProllyRootHash × Finset EventID) (eventId : EventID) :
    ProllyRootHash × Finset EventID :=
  let event := clock.get eventId
  let merged := mergeRoots acc.1 event.prollyRootHash event.anchorProllyRootHash
  if merged = conflictHash then (acc.1, acc.2 ∪ {eventId}) else (merged, acc.2)

def anchoredFold (headEventIds : Finset EventID) (clock : Clock) (start : ProllyRootHash) :
    ProllyRootHash × Finset EventID :=
  (sortEventIDsByHLC headEventIds clock).foldl (anchoredStep clock) (start, ∅)

omit [FoldOrder] in
/-- A resolution event replays against its basis without the parked head it resolves. -/
def finalizationReplayParents (event : Event) : Finset EventID :=
  match event.resolvedParkedEventId with
  | some parkedEventId => event.parentEventIds \ {parkedEventId}
  | none => event.parentEventIds

def finalizationReplayBase (clock : Clock) (eventId : EventID) : ProllyRootHash :=
  let event := clock.get eventId
  let replayParents := finalizationReplayParents event
  if replayParents = ∅ then event.anchorProllyRootHash
  else if ¬replayParents ⊆ clock.keys then conflictHash
  else
    let parentFold := anchoredFold replayParents clock event.anchorProllyRootHash
    if parentFold.2 = ∅ then parentFold.1 else conflictHash

def replayFinalizationSafe (st : NodeState) (eventId : EventID) : Prop :=
  finalizationReplayBase st.clock eventId ≠ conflictHash ∧
  mergeRoots st.finalizedProllyRootHash (st.clock.get eventId).prollyRootHash
    (finalizationReplayBase st.clock eventId) ≠ conflictHash

instance (st : NodeState) (eventId : EventID) : Decidable (replayFinalizationSafe st eventId) :=
  inferInstanceAs (Decidable (_ ∧ _))

def replayUnsafeEligibleHeads (st : NodeState) (readyHeads : Finset EventID) : Finset EventID :=
  readyHeads.filter fun eventId =>
    eventId ∉ subsumedEvents st.clock ∧
    (st.clock.get eventId).parentEventIds ⊆ st.finalizedEvents.keys ∧
    ¬replayFinalizationSafe st eventId

/-- (merged root, parked set, projection basis). The branches for no head and no ready head
come first; the second one hands back what the peer already holds. -/
def computeTentativeProjection (st : NodeState) :
    ProllyRootHash × Finset EventID × Finset EventID :=
  let tentativeHeads := tentativeHeadEventIDs st
  let readyHeads := mergeableHeadEventIDs st
  if tentativeHeads = ∅ then (st.finalizedProllyRootHash, ∅, ∅)
  else if readyHeads = ∅ then
    (st.tentativeProllyRootHash, st.parkedConflicts ∩ tentativeHeads,
      st.projectionBasis ∩ tentativeHeads)
  else
    let replayUnsafeHeads := replayUnsafeEligibleHeads st readyHeads
    let projectionReadyHeads := readyHeads \ replayUnsafeHeads
    let folded := anchoredFold projectionReadyHeads st.clock st.finalizedProllyRootHash
    let unreadyHeads := tentativeHeads \ readyHeads
    let retainedUnreadyParked := st.parkedConflicts ∩ unreadyHeads
    (folded.1, folded.2 ∪ retainedUnreadyParked ∪ replayUnsafeHeads,
      projectionReadyHeads \ folded.2)

omit [FoldOrder] in
def applyTentativeProjection (st : NodeState)
    (result : ProllyRootHash × Finset EventID × Finset EventID) : NodeState :=
  { st with
    tentativeProllyRootHash := result.1
    parkedConflicts := result.2.1
    projectionBasis := result.2.2 }

def reconcileResult (st : NodeState) : NodeState :=
  applyTentativeProjection st (computeTentativeProjection st)

section

variable (st : NodeState)

@[simp] theorem reconcileResult_clock : (reconcileResult st).clock = st.clock := rfl
@[simp] theorem reconcileResult_headEventIds :
    (reconcileResult st).headEventIds = st.headEventIds := rfl
@[simp] theorem reconcileResult_chunksReady :
    (reconcileResult st).chunksReady = st.chunksReady := rfl
@[simp] theorem reconcileResult_hlcClock : (reconcileResult st).hlcClock = st.hlcClock := rfl
@[simp] theorem reconcileResult_peerSeenFrontier :
    (reconcileResult st).peerSeenFrontier = st.peerSeenFrontier := rfl
@[simp] theorem reconcileResult_finalizedCommitId :
    (reconcileResult st).finalizedCommitId = st.finalizedCommitId := rfl
@[simp] theorem reconcileResult_finalizedProllyRootHash :
    (reconcileResult st).finalizedProllyRootHash = st.finalizedProllyRootHash := rfl
@[simp] theorem reconcileResult_finalizedEvents :
    (reconcileResult st).finalizedEvents = st.finalizedEvents := rfl
@[simp] theorem reconcileResult_finalizedCommitParents :
    (reconcileResult st).finalizedCommitParents = st.finalizedCommitParents := rfl
@[simp] theorem reconcileResult_finalizedCheckpointEvents :
    (reconcileResult st).finalizedCheckpointEvents = st.finalizedCheckpointEvents := rfl
@[simp] theorem reconcileResult_finalizedConflicts :
    (reconcileResult st).finalizedConflicts = st.finalizedConflicts := rfl
@[simp] theorem reconcileResult_resolvedFinalizedConflictIds :
    (reconcileResult st).resolvedFinalizedConflictIds = st.resolvedFinalizedConflictIds := rfl
@[simp] theorem reconcileResult_activePeers :
    (reconcileResult st).activePeers = st.activePeers := rfl
@[simp] theorem reconcileResult_localWall : (reconcileResult st).localWall = st.localWall := rfl

end

def reconcileEnabled (st : NodeState) : Prop :=
  let post := reconcileResult st
  1 < st.headEventIds.card ∧
  (post.tentativeProllyRootHash ≠ st.tentativeProllyRootHash ∨
    post.parkedConflicts ≠ st.parkedConflicts)

instance (st : NodeState) : Decidable (reconcileEnabled st) :=
  inferInstanceAs (Decidable (_ ∧ _))

omit [FoldOrder] in
def finalizationEventLess (clock : Clock) (a b : EventID) : Bool :=
  if less (clock.get a).hlc (clock.get b).hlc then true
  else if less (clock.get b).hlc (clock.get a).hlc then false
  else eventIDLess a b

omit [FoldOrder] in
/-- Stable events at the current stability boundary. -/
def finalizationCandidates (st : NodeState) : Finset EventID :=
  st.clock.keys.filter fun eventId =>
    eventId ∉ st.finalizedEvents.keys ∧
    eventId ∉ parkedBranchEvents st ∧
    isParentClosed st.clock eventId ∧
    eventId ∈ st.chunksReady ∧
    coveredByActivePeers st eventId

def finalizationEligible (st : NodeState) : Finset EventID :=
  (finalizationCandidates st).filter fun eventId =>
    (st.clock.get eventId).parentEventIds ⊆ st.finalizedEvents.keys ∧
    (eventId ∈ subsumedEvents st.clock ∨ replayFinalizationSafe st eventId)

omit [FoldOrder] in
/-- One comparison of the fold below. -/
def earlierEvent (clock : Clock) (best eventId : EventID) : EventID :=
  if best = emptyEventId ∨ finalizationEventLess clock eventId best then eventId else best

def nextFinalizationEventID (st : NodeState) : EventID :=
  (FoldOrder.events.list (finalizationEligible st)).foldl (earlierEvent st.clock) emptyEventId

def nextFinalizationMergeRoot (st : NodeState) : ProllyRootHash :=
  let eventId := nextFinalizationEventID st
  if eventId = emptyEventId then st.finalizedProllyRootHash
  else
    let replayBase := finalizationReplayBase st.clock eventId
    if replayBase = conflictHash then conflictHash
    else mergeRoots st.finalizedProllyRootHash (st.clock.get eventId).prollyRootHash replayBase

def nextFinalizationIsSubsumed (st : NodeState) : Prop :=
  nextFinalizationEventID st ≠ emptyEventId ∧
  nextFinalizationEventID st ∈ subsumedEvents st.clock

instance (st : NodeState) : Decidable (nextFinalizationIsSubsumed st) :=
  inferInstanceAs (Decidable (_ ∧ _))

def finalizeEnabled (st : NodeState) : Prop :=
  nextFinalizationEventID st ≠ emptyEventId ∧
  (nextFinalizationIsSubsumed st ∨ nextFinalizationMergeRoot st ≠ conflictHash)

instance (st : NodeState) : Decidable (finalizeEnabled st) :=
  inferInstanceAs (Decidable (_ ∧ _))

end DoltSwarm.Protocol
