import DoltSwarm.Lib.Closure
import DoltSwarm.Protocol.Content

/-!
# The Merkle clock of one peer

Heads, ancestor closures, parent-closedness, the observed frontier, and the sets derived
from parked and resolved heads.
-/

namespace DoltSwarm.Protocol

open Lib

set_option autoImplicit false

/-- The parent links that leave `eventId` inside a clock; none for an absent event. -/
def clockParents (clock : Clock) (eventId : EventID) : Finset EventID :=
  if eventId ∈ clock.keys then (clock.get eventId).parentEventIds else ∅

def computeHeadEventIDs (clock : Clock) : Finset EventID :=
  clock.keys \ clock.keys.biUnion fun eventId => (clock.get eventId).parentEventIds

/-- Ancestor ids of a seed, with missing parents included; unrolled `maxEvents` times. -/
def ancestorIdClosure (seed : Finset EventID) (clock : Clock) : Finset EventID :=
  unrolledClosure maxEvents (clockParents clock) seed

/-- The parked heads some event of the clock claims to resolve. -/
def resolvedParkedRoots (clock : Clock) : Finset EventID :=
  clock.keys.biUnion fun eventId =>
    match (clock.get eventId).resolvedParkedEventId with
    | some pid => {pid}
    | none => ∅

def subsumedEvents (clock : Clock) : Finset EventID :=
  ancestorIdClosure (resolvedParkedRoots clock) clock

def parkedBranchEvents (st : NodeState) : Finset EventID :=
  ancestorIdClosure st.parkedConflicts st.clock

def isParentClosed (clock : Clock) (eventId : EventID) : Prop :=
  eventId ∈ clock.keys ∧ ancestorIdClosure {eventId} clock ⊆ clock.keys

instance (clock : Clock) (eventId : EventID) : Decidable (isParentClosed clock eventId) :=
  inferInstanceAs (Decidable (_ ∧ _))

def tentativeHeadEventIDs (st : NodeState) : Finset EventID :=
  st.headEventIds \ st.finalizedEvents.keys

def mergeableHeadEventIDs (st : NodeState) : Finset EventID :=
  (tentativeHeadEventIDs st).filter fun eventId =>
    isParentClosed st.clock eventId ∧ eventId ∈ st.chunksReady

/-- Maximal events whose whole ancestry is present. -/
def observedFrontier (clock : Clock) : Finset EventID :=
  let observed := clock.keys.filter fun eventId => isParentClosed clock eventId
  observed.filter fun eventId =>
    ¬∃ child ∈ observed, eventId ∈ (clock.get child).parentEventIds

def frontierCovers (clock : Clock) (frontier : Finset EventID) (eventId : EventID) : Prop :=
  ∃ fid ∈ frontier, fid ∈ clock.keys ∧ eventId ∈ ancestorIdClosure {fid} clock

instance (clock : Clock) (frontier : Finset EventID) (eventId : EventID) :
    Decidable (frontierCovers clock frontier eventId) :=
  inferInstanceAs (Decidable (∃ fid ∈ frontier, _))

def coveredByActivePeers (st : NodeState) (eventId : EventID) : Prop :=
  ∀ q ∈ st.activePeers, frontierCovers st.clock (st.peerSeenFrontier.get q) eventId

instance (st : NodeState) (eventId : EventID) : Decidable (coveredByActivePeers st eventId) :=
  inferInstanceAs (Decidable (∀ q ∈ st.activePeers, _))

/-- Remote heads and seen frontier with their ancestors, less what is already here. -/
def pullClosureEventIDs (localClock remoteClock : Clock)
    (remoteHeads remoteSeenFrontier : Finset EventID) : Finset EventID :=
  (ancestorIdClosure (remoteHeads ∪ remoteSeenFrontier) remoteClock).filter fun eventId =>
    eventId ∈ remoteClock.keys ∧ eventId ∉ localClock.keys

/-- The ids are distinct keys, so the order of the writes does not matter and the result is
written as one map. -/
def applyRemoteEvents (localClock remoteClock : Clock) (eventIds : Finset EventID) : Clock :=
  Map.mapBy (localClock.keys ∪ eventIds.filter (· ∈ remoteClock.keys)) fun eventId =>
    if eventId ∈ eventIds ∧ eventId ∈ remoteClock.keys then remoteClock.get eventId
    else localClock.get eventId

def dropEvent (clock : Clock) (eventId : EventID) : Clock := clock.removeAll {eventId}

def retainedFinalizedEventIDs (st : NodeState) : Finset EventID :=
  st.finalizedEvents.keys ∩ st.clock.keys

def invalidRetainedFinalizedEventIDs (st : NodeState) : Finset EventID :=
  (retainedFinalizedEventIDs st).filter fun eventId =>
    ¬(isParentClosed st.clock eventId ∧ eventId ∈ st.chunksReady)

def gcPruneable (st : NodeState) : Finset EventID :=
  (retainedFinalizedEventIDs st).filter fun finalizedEventId =>
    ¬∃ eventId ∈ st.clock.keys, eventId ≠ finalizedEventId ∧
      finalizedEventId ∈ ancestorIdClosure {eventId} st.clock

theorem mem_finalized_of_gcPruneable {st : NodeState} {x : EventID} (hx : x ∈ gcPruneable st) :
    x ∈ st.finalizedEvents.keys :=
  (Finset.mem_inter.mp (Finset.mem_filter.mp hx).1).1

/-- One pass of `compactRetainedFinalized`. -/
def compactPass (st : NodeState) : NodeState :=
  let pruneable := gcPruneable st ∪ invalidRetainedFinalizedEventIDs st
  { st with
    clock := st.clock.removeAll pruneable
    chunksReady := st.chunksReady \ pruneable }

def compactRetainedFinalized (st : NodeState) : NodeState :=
  let compacted := compactPass^[maxEvents] st
  { compacted with headEventIds := computeHeadEventIDs compacted.clock }

end DoltSwarm.Protocol
