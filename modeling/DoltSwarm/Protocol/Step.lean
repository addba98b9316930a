import Mathlib.Data.Finset.Prod
import DoltSwarm.Protocol.Sync

/-!
# Actions of the protocol

The whole swarm: one state per peer, the events on their way to each peer, and who can
reach whom. `step` runs one action with its choices made explicit, and gives `none` when
the action is not enabled.
-/

namespace DoltSwarm.Protocol

open Lib

set_option autoImplicit false

structure State where
  nodes : Map PeerID NodeState
  inbox : Map PeerID (Finset Event)
  connected : Finset (PeerID × PeerID)
  deriving DecidableEq

inductive Action where
  | write (p : PeerID) (content : Int)
  | receive (p : PeerID) (e : Event)
  | chunksReady (p : PeerID) (eventId : EventID)
  | reconcile (p : PeerID)
  | tick (p : PeerID)
  | heartbeat (p q : PeerID)
  | finalize (p : PeerID)
  | gc (p : PeerID) (eventId : EventID)
  | partition (p q : PeerID)
  | heal (p q : PeerID)
  | evict (p q : PeerID)
  | syncFinalized (p q : PeerID)
  | resolveConflict (p : PeerID) (parkedEventId : EventID) (content : Int)
  | resolveFinalizedConflict (p : PeerID) (conflictId : FinalizedConflictID) (content : Int)
  deriving DecidableEq

def allPairs (ps : Finset PeerID) : Finset (PeerID × PeerID) :=
  (ps ×ˢ ps).filter fun pq => pq.1 ≠ pq.2

def init : State where
  nodes := Map.mapBy peers emptyNodeState
  inbox := Map.mapBy peers fun _ => ∅
  connected := allPairs peers

/-- Deliver an event to its author and to the peers the author reaches. -/
def disseminateToConnected (inbox : Map PeerID (Finset Event)) (e : Event)
    (conn : Finset (PeerID × PeerID)) : Map PeerID (Finset Event) :=
  Map.mapBy inbox.keys fun p =>
    if p = e.peer ∨ (e.peer, p) ∈ conn then inbox.get p ∪ {e} else inbox.get p

/-- The event a local write emits; the two resolutions fill the fields a plain write leaves
empty and may add a parent. -/
def emittedEvent (st : NodeState) (p : PeerID) (content : Int) (parents : Finset EventID)
    (resolvedParked : Option EventID) (resolvedFinalized : Option FinalizedConflictID) : Event :=
  let newHLC := Protocol.tick st.hlcClock st.localWall p
  { eventId := ⟨p, newHLC.wall, newHLC.logical⟩
    prollyRootHash := content
    anchorProllyRootHash := st.finalizedProllyRootHash
    parentEventIds := parents
    resolvedParkedEventId := resolvedParked
    resolvedFinalizedConflictId := resolvedFinalized
    hlc := newHLC
    peer := p }

def writtenEvent (st : NodeState) (p : PeerID) (content : Int) : Event :=
  emittedEvent st p content st.projectionBasis none none

def resolutionEvent (st : NodeState) (p : PeerID) (parkedEventId : EventID) (content : Int) :
    Event :=
  emittedEvent st p content (st.projectionBasis ∪ {parkedEventId}) (some parkedEventId) none

def finalizedResolutionEvent (st : NodeState) (p : PeerID) (conflictId : FinalizedConflictID)
    (content : Int) : Event :=
  emittedEvent st p content st.projectionBasis none (some conflictId)

def writeEnabled (st : NodeState) : Prop := st.localWall ≤ maxWall ∧ st.clock.keys.card < maxEvents

instance (st : NodeState) : Decidable (writeEnabled st) := inferInstanceAs (Decidable (_ ∧ _))

/-- Put a new event into the clock and derive heads and own frontier again. -/
def addToClock (st : NodeState) (p : PeerID) (e : Event) (hlc : HLC) : NodeState :=
  let newClock := st.clock.put e.eventId e
  { st with
    clock := newClock
    headEventIds := computeHeadEventIDs newClock
    hlcClock := hlc
    peerSeenFrontier := st.peerSeenFrontier.put p (observedFrontier newClock) }

def gcBaseResult (st : NodeState) (p : PeerID) (eventId : EventID) : NodeState :=
  let newClock := dropEvent st.clock eventId
  { st with
    clock := newClock
    headEventIds := computeHeadEventIDs newClock
    chunksReady := st.chunksReady ∩ newClock.keys
    peerSeenFrontier := st.peerSeenFrontier.put p (observedFrontier newClock) }

def heartbeatResult (st remote : NodeState) (q : PeerID) : NodeState :=
  { st with
    peerSeenFrontier := st.peerSeenFrontier.put q (remote.peerSeenFrontier.get q)
    activePeers := st.activePeers ∪ {q} }

def evictResult (st : NodeState) (q : PeerID) : NodeState :=
  { st with activePeers := st.activePeers \ {q} }

/-- Events a heartbeat pulls: the closure of the remote heads and of the remote frontier. -/
def pulledEvents (st remote : NodeState) (q : PeerID) : Finset Event :=
  (pullClosureEventIDs st.clock remote.clock remote.headEventIds
    (remote.peerSeenFrontier.get q)).image remote.clock.get

/-- Events of the inbox that are valid and neither held nor finalized. -/
def processable (st : NodeState) (inbox : Finset Event) : Finset Event :=
  inbox.filter fun e =>
    validEvent e ∧ e.eventId ∉ st.clock.keys ∧ e.eventId ∉ st.finalizedEvents.keys

variable [FoldOrder]

def emitResult (st : NodeState) (p : PeerID) (e : Event) : NodeState :=
  let added := addToClock st p e e.hlc
  reconcileResult { added with chunksReady := st.chunksReady ∪ {e.eventId} }

def receiveResult (st : NodeState) (p : PeerID) (e : Event) : NodeState :=
  reconcileResult (addToClock st p e (observe st.hlcClock e.hlc st.localWall p))

def chunksReadyResult (st : NodeState) (eventId : EventID) : NodeState :=
  reconcileResult { st with chunksReady := st.chunksReady ∪ {eventId} }

def gcResult (st : NodeState) (p : PeerID) (eventId : EventID) : NodeState :=
  reconcileResult (gcBaseResult st p eventId)

/-- SYNC_FINALIZED with the own frontier refreshed from the new clock. -/
def syncResult (p : PeerID) (stLocal stRemote : NodeState) : NodeState :=
  let syncedState := applySyncFinalizedResult stLocal stRemote
  { syncedState with
    peerSeenFrontier := syncedState.peerSeenFrontier.put p (observedFrontier syncedState.clock) }

omit [FoldOrder] in
def State.setNode (s : State) (p : PeerID) (st : NodeState) : State :=
  { s with nodes := s.nodes.put p st }

omit [FoldOrder] in
/-- Refresh the view of `q` and put what is pulled from it into the inbox. -/
def State.heartbeat (s : State) (p q : PeerID) : State :=
  { s with
    nodes := s.nodes.put p (heartbeatResult (s.nodes.get p) (s.nodes.get q) q)
    inbox := s.inbox.put p
      (s.inbox.get p ∪ pulledEvents (s.nodes.get p) (s.nodes.get q) q) }

/-- Install the author's state and send the event to the peers in reach. -/
def State.emit (s : State) (p : PeerID) (e : Event) : State :=
  { s with
    nodes := s.nodes.put p (emitResult (s.nodes.get p) p e)
    inbox := disseminateToConnected s.inbox e s.connected }

def step (s : State) : Action → Option State
  | .write p content =>
    let st := s.nodes.get p
    if p ∈ peers ∧ content ∈ contents ∧ writeEnabled st
    then some (s.emit p (writtenEvent st p content)) else none
  | .receive p e =>
    let st := s.nodes.get p
    if p ∈ peers ∧ e ∈ processable st (s.inbox.get p)
    then some (s.setNode p (receiveResult st p e)) else none
  | .chunksReady p eventId =>
    let st := s.nodes.get p
    if p ∈ peers ∧ eventId ∈ st.clock.keys ∧ eventId ∉ st.chunksReady
    then some (s.setNode p (chunksReadyResult st eventId)) else none
  | .reconcile p =>
    let st := s.nodes.get p
    if p ∈ peers ∧ reconcileEnabled st then some (s.setNode p (reconcileResult st)) else none
  | .tick p =>
    let st := s.nodes.get p
    if p ∈ peers ∧ st.localWall < maxWall
    then some (s.setNode p { st with localWall := st.localWall + 1 }) else none
  | .heartbeat p q =>
    if p ∈ peers ∧ q ∈ peers ∧ p ≠ q ∧ (p, q) ∈ s.connected
    then some (s.heartbeat p q) else none
  | .finalize p =>
    let st := s.nodes.get p
    if p ∈ peers ∧ finalizeEnabled st then some (s.setNode p (finalizeResult st)) else none
  | .gc p eventId =>
    let st := s.nodes.get p
    if p ∈ peers ∧ eventId ∈ gcPruneable st
    then some (s.setNode p (gcResult st p eventId)) else none
  | .partition p q =>
    if p ∈ peers ∧ q ∈ peers ∧ p ≠ q ∧ (p, q) ∈ s.connected
    then some { s with connected := s.connected \ {(p, q), (q, p)} } else none
  | .heal p q =>
    if p ∈ peers ∧ q ∈ peers ∧ p ≠ q ∧ (p, q) ∉ s.connected
    then some { s with connected := s.connected ∪ {(p, q), (q, p)} } else none
  | .evict p q =>
    let st := s.nodes.get p
    if p ∈ peers ∧ q ∈ peers ∧ p ≠ q ∧ q ∈ st.activePeers ∧ (p, q) ∉ s.connected
    then some (s.setNode p (evictResult st q)) else none
  | .syncFinalized p q =>
    let st := s.nodes.get p
    let remote := s.nodes.get q
    if p ∈ peers ∧ q ∈ peers ∧ syncEnabled s.connected p q st remote
    then some (s.setNode p (syncResult p st remote)) else none
  | .resolveConflict p parkedEventId content =>
    let st := s.nodes.get p
    if p ∈ peers ∧ content ∈ contents ∧ parkedEventId ∈ st.parkedConflicts ∧
      parkedEventId ∈ st.clock.keys ∧ writeEnabled st
    then some (s.emit p (resolutionEvent st p parkedEventId content)) else none
  | .resolveFinalizedConflict p conflictId content =>
    let st := s.nodes.get p
    if p ∈ peers ∧ content ∈ contents ∧ conflictId ∈ st.finalizedConflicts.keys ∧ writeEnabled st
    then some (s.emit p (finalizedResolutionEvent st p conflictId content)) else none

end DoltSwarm.Protocol
