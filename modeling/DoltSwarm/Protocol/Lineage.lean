import Mathlib.Order.Lattice.Nat
import DoltSwarm.Lib.Closure
import DoltSwarm.Protocol.Content

/-!
# Finalized-commit lineage

The parents map, its unrolled ancestor walk, depths, the lowest common ancestor, and the
unions by which two peers exchange finalized metadata.
-/

namespace DoltSwarm.Protocol

open Lib

set_option autoImplicit false

/-- Parents recorded for a commit; none for a commit that is not a key. -/
def parentsAt (parentsMap : ParentsMap) (commit : FinalizedCommitID) : Finset FinalizedCommitID :=
  if commit ∈ parentsMap.keys then parentsMap.get commit else ∅

/-- Union of the keys, union of the values. -/
def mergeSetMap (m₁ m₂ : ParentsMap) : ParentsMap :=
  Map.mapBy (m₁.keys ∪ m₂.keys) fun k => parentsAt m₁ k ∪ parentsAt m₂ k

def mergeFinalizedEventMap (m₁ m₂ : Map EventID ProllyRootHash) : Map EventID ProllyRootHash :=
  Map.firstWins m₁ m₂

/-- The descriptor recorded for a commit; empty for a commit that is not a key. -/
def descriptorAt (checkpoints : CheckpointMap) (commit : FinalizedCommitID) :
    FinalizedCheckpoint :=
  if commit ∈ checkpoints.keys then checkpoints.get commit else ∅

/-- Union of the outer keys, union of the inner maps. -/
def mergeFinalizedCheckpointMap (m₁ m₂ : CheckpointMap) : CheckpointMap :=
  Map.mapBy (m₁.keys ∪ m₂.keys) fun k =>
    mergeFinalizedEventMap (descriptorAt m₁ k) (descriptorAt m₂ k)

def mergeFinalizedConflictMap (m₁ m₂ : ConflictMap) : ConflictMap := Map.firstWins m₁ m₂

def dropFinalizedConflicts (conflicts : ConflictMap) (conflictIds : Finset FinalizedConflictID) :
    ConflictMap := conflicts.removeAll conflictIds

/-- Transitive ancestors with self and the empty commit, unrolled `maxEvents + 4` times. -/
def lineageAncestors (parentsMap : ParentsMap) (commit : FinalizedCommitID) :
    Finset FinalizedCommitID :=
  unrolledClosure (maxEvents + 4) (parentsAt parentsMap) {commit} ∪ {emptyFinalizedCommitId}

def finalizedCommitIsAncestor (ancestor descendant : FinalizedCommitID)
    (parentsMap : ParentsMap) : Prop := ancestor ∈ lineageAncestors parentsMap descendant

instance (ancestor descendant : FinalizedCommitID) (parentsMap : ParentsMap) :
    Decidable (finalizedCommitIsAncestor ancestor descendant parentsMap) :=
  inferInstanceAs (Decidable (_ ∈ _))

/-- Record a commit with its parents, less itself and less what descends from it. -/
def lineageAddFinalizedCommit (parentsMap : ParentsMap) (child : FinalizedCommitID)
    (parents : Finset FinalizedCommitID) : ParentsMap :=
  let sanitizedParents := parents \ {child}
  let acyclicParents := sanitizedParents.filter fun parent =>
    child ∉ lineageAncestors parentsMap parent
  parentsMap.put child (parentsAt parentsMap child ∪ acyclicParents)

def lineageKnownFinalizedCommits (parentsMap : ParentsMap) : Finset FinalizedCommitID :=
  parentsMap.keys ∪ parentsMap.keys.biUnion fun commit => parentsMap.get commit

/-- One round of the depth computation. -/
def depthRound (parentsMap : ParentsMap) (commits : Finset FinalizedCommitID)
    (depths : Map FinalizedCommitID Nat) : Map FinalizedCommitID Nat :=
  Map.mapBy commits fun commit =>
    if commit = emptyFinalizedCommitId then 0
    else
      let parents := if commit ∈ parentsMap.keys ∧ parentsMap.get commit ≠ ∅
        then parentsMap.get commit else {emptyFinalizedCommitId}
      parents.sup (fun p =>
        if p ∈ depths.keys then depths.get p
        else if p = emptyFinalizedCommitId then 0 else 1) + 1

def lineageDepthMap (parentsMap : ParentsMap) : Map FinalizedCommitID Nat :=
  let commits := lineageKnownFinalizedCommits parentsMap ∪ {emptyFinalizedCommitId}
  (depthRound parentsMap commits)^[maxEvents + 4]
    (Map.mapBy commits fun commit => if commit = emptyFinalizedCommitId then 0 else 1)

/-- Deepest common ancestor; ties go to the smaller id. -/
def lineageLcaFinalizedCommit [FoldOrder] (a b : FinalizedCommitID) (parentsMap : ParentsMap) :
    FinalizedCommitID :=
  let depthMap := lineageDepthMap parentsMap
  let common := lineageAncestors parentsMap a ∩ lineageAncestors parentsMap b
  (FoldOrder.commits.list common).foldl (fun best candidate =>
    let bestDepth := if best ∈ depthMap.keys then depthMap.get best else 0
    let candidateDepth := if candidate ∈ depthMap.keys then depthMap.get candidate else 0
    if candidateDepth > bestDepth then candidate
    else if candidateDepth < bestDepth then best
    else if finalizedCommitLess candidate best then candidate
    else best) emptyFinalizedCommitId

/-- Rebuild the finalized events from the descriptors reachable from a tip. -/
def derivedFinalizedEventMap [FoldOrder] (tip : FinalizedCommitID) (parentsMap : ParentsMap)
    (checkpoints : CheckpointMap) : Map EventID ProllyRootHash :=
  (FoldOrder.commits.list (lineageAncestors parentsMap tip ∩ checkpoints.keys)).foldl
    (fun acc commit => mergeFinalizedEventMap acc (checkpoints.get commit)) ∅

end DoltSwarm.Protocol
