import DoltSwarm.Lib.FinMap
import DoltSwarm.Lib.Enumeration
import DoltSwarm.Protocol.Hlc

/-!
# Data model of the protocol (specs/model/doltswarm_model.qnt)

Constants, event and commit identities, events, and the state one peer holds. Sets are
`Finset`, maps are finite maps, and the bounds are the ones the specification fixes.
-/

namespace DoltSwarm.Protocol

open Lib

set_option autoImplicit false

abbrev ProllyRootHash := Int

def peers : Finset PeerID := {1, 2, 3}

/-- Encoded contents: dimension A in {0,1,2} and B in {0,1}; see `decodeDimA`, `decodeDimB`. -/
def contents : Finset Int := {10, 11, 12, 13, 14, 15}

def maxWall : Int := 6
def maxEvents : Nat := 8
def emptyRoot : ProllyRootHash := 0
def finalizedKindNone : Int := 0
def finalizedKindCheckpoint : Int := 1
def finalizedKindMerge : Int := 2

/-- What `mergeRoots` returns when two writes conflict. -/
def conflictHash : ProllyRootHash := -1

structure EventID where
  peer : Int
  wall : Int
  logical : Int
  deriving DecidableEq, Repr, Inhabited

/-- Content root, canonical tokens of the exact parent ids, and kind of a finalized commit. -/
structure FinalizedCommitID where
  root : ProllyRootHash
  tokens : List Int
  kind : Int
  deriving DecidableEq, Repr, Inhabited

/-- (ours, theirs, common). -/
structure FinalizedConflictID where
  ours : FinalizedCommitID
  theirs : FinalizedCommitID
  common : FinalizedCommitID
  deriving DecidableEq, Repr, Inhabited

structure Event where
  eventId : EventID
  prollyRootHash : ProllyRootHash
  anchorProllyRootHash : ProllyRootHash
  parentEventIds : Finset EventID
  resolvedParkedEventId : Option EventID
  resolvedFinalizedConflictId : Option FinalizedConflictID
  hlc : HLC
  peer : PeerID
  deriving DecidableEq

instance : Inhabited Event := ⟨⟨⟨0, 0, 0⟩, 0, 0, ∅, none, none, ⟨0, 0, 0⟩, 0⟩⟩

structure FinalizedConflict where
  id : FinalizedConflictID
  oursFinalizedCommitId : FinalizedCommitID
  theirsFinalizedCommitId : FinalizedCommitID
  commonFinalizedCommitId : FinalizedCommitID
  deriving DecidableEq, Inhabited

abbrev Clock := Map EventID Event
abbrev FinalizedCheckpoint := Map EventID ProllyRootHash
abbrev ParentsMap := Map FinalizedCommitID (Finset FinalizedCommitID)
abbrev CheckpointMap := Map FinalizedCommitID FinalizedCheckpoint
abbrev ConflictMap := Map FinalizedConflictID FinalizedConflict

structure NodeState where
  clock : Clock
  headEventIds : Finset EventID
  chunksReady : Finset EventID
  tentativeProllyRootHash : ProllyRootHash
  projectionBasis : Finset EventID
  hlcClock : HLC
  peerSeenFrontier : Map PeerID (Finset EventID)
  finalizedCommitId : FinalizedCommitID
  finalizedProllyRootHash : ProllyRootHash
  finalizedEvents : Map EventID ProllyRootHash
  finalizedCommitParents : ParentsMap
  finalizedCheckpointEvents : CheckpointMap
  parkedConflicts : Finset EventID
  finalizedConflicts : ConflictMap
  resolvedFinalizedConflictIds : Finset FinalizedConflictID
  activePeers : Finset PeerID
  localWall : Int
  deriving DecidableEq

/-- The order in which folds over sets visit their elements. The specification leaves it
open, so every step may use another one. -/
class FoldOrder where
  events : Enumeration EventID
  commits : Enumeration FinalizedCommitID

def emptyFinalizedCommitId : FinalizedCommitID :=
  ⟨emptyRoot, [emptyRoot, finalizedKindNone, 0], finalizedKindNone⟩

def emptyEventId : EventID := ⟨0, 0, 0⟩

def eventIDLess (a b : EventID) : Bool :=
  if a.peer ≠ b.peer then a.peer < b.peer
  else if a.wall ≠ b.wall then a.wall < b.wall
  else a.logical < b.logical

/-- Lexicographic comparison by one pass over `a` with a cursor into `b`. -/
def intListLess (a b : List Int) : Bool :=
  let comparison := a.foldl (fun (acc : Nat × Bool × Bool) value =>
    if acc.2.1 then acc
    else if acc.1 ≥ b.length then (acc.1, true, false)
    else if value < b.getD acc.1 0 then (acc.1, true, true)
    else if value > b.getD acc.1 0 then (acc.1, true, false)
    else (acc.1 + 1, false, false)) (0, false, false)
  if comparison.2.1 then comparison.2.2 else comparison.1 < b.length

def finalizedCommitLess (a b : FinalizedCommitID) : Bool :=
  if a.root ≠ b.root then a.root < b.root
  else if a.kind ≠ b.kind then a.kind < b.kind
  else intListLess a.tokens b.tokens

def appendTaggedIntList (acc suffix : List Int) : List Int :=
  acc ++ [(suffix.length : Int)] ++ suffix

/-- The parents are listed in some order, sorted, and written out one after the other, each
preceded by the length of its own tokens. -/
def makeFinalizedCommitID [FoldOrder] (contentRoot : ProllyRootHash)
    (parentFinalizedCommits : Finset FinalizedCommitID) (kind : Int) : FinalizedCommitID :=
  let sortedParents := sortList finalizedCommitLess
    (FoldOrder.commits.list parentFinalizedCommits)
  ⟨contentRoot, sortedParents.foldl (fun acc parent => appendTaggedIntList acc parent.tokens)
    [contentRoot, kind, sortedParents.length], kind⟩

def makeFinalizedCheckpointCommitID [FoldOrder] (contentRoot : ProllyRootHash)
    (parentFinalizedCommits : Finset FinalizedCommitID) : FinalizedCommitID :=
  makeFinalizedCommitID contentRoot parentFinalizedCommits finalizedKindCheckpoint

def makeFinalizedMergeCommitID [FoldOrder] (contentRoot : ProllyRootHash)
    (parentFinalizedCommits : Finset FinalizedCommitID) : FinalizedCommitID :=
  makeFinalizedCommitID contentRoot parentFinalizedCommits finalizedKindMerge

/-- The empty, already bootstrapped state of one peer. -/
def emptyNodeState (self : PeerID) : NodeState where
  clock := ∅
  headEventIds := ∅
  chunksReady := ∅
  tentativeProllyRootHash := emptyRoot
  projectionBasis := ∅
  hlcClock := ⟨1, 0, self⟩
  peerSeenFrontier := Map.mapBy peers fun _ => ∅
  finalizedCommitId := emptyFinalizedCommitId
  finalizedProllyRootHash := emptyRoot
  finalizedEvents := ∅
  finalizedCommitParents := Map.put ∅ emptyFinalizedCommitId ∅
  finalizedCheckpointEvents := ∅
  parkedConflicts := ∅
  finalizedConflicts := ∅
  resolvedFinalizedConflictIds := ∅
  activePeers := peers
  localWall := 1

instance : Inhabited NodeState := ⟨emptyNodeState 0⟩

end DoltSwarm.Protocol
