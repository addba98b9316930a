import DoltSwarm.Protocol.Types

/-!
# Content roots and their three-way merge

A content is a pair of independent dimensions. Two writes conflict when both changed one
dimension of the ancestor, to different values.
-/

namespace DoltSwarm.Protocol

set_option autoImplicit false

def isContentHash (h : ProllyRootHash) : Bool := h = emptyRoot ∨ h ∈ contents

def isProtocolRootHash (h : ProllyRootHash) : Bool := h = emptyRoot ∨ h ∈ contents ∨ h ≥ 1000

def decodeDimA (h : ProllyRootHash) : Int :=
  if h = 11 ∨ h = 13 then 1 else if h = 14 ∨ h = 15 then 2 else 0

def decodeDimB (h : ProllyRootHash) : Int :=
  if h = 12 ∨ h = 13 ∨ h = 15 then 1 else 0

def encodeContent (a b : Int) : ProllyRootHash :=
  if a = 0 ∧ b = 0 then 10
  else if a = 1 ∧ b = 0 then 11
  else if a = 0 ∧ b = 1 then 12
  else if a = 1 ∧ b = 1 then 13
  else if a = 2 ∧ b = 0 then 14
  else 15

def mergeRoots (ours theirs ancestor : ProllyRootHash) : ProllyRootHash :=
  if ours = theirs then ours
  else if ours = ancestor then theirs
  else if theirs = ancestor then ours
  else if isContentHash ours ∧ isContentHash theirs ∧ isContentHash ancestor then
    let oursChangedA := decodeDimA ours ≠ decodeDimA ancestor
    let oursChangedB := decodeDimB ours ≠ decodeDimB ancestor
    let theirsChangedA := decodeDimA theirs ≠ decodeDimA ancestor
    let theirsChangedB := decodeDimB theirs ≠ decodeDimB ancestor
    let conflictA := oursChangedA ∧ theirsChangedA ∧ decodeDimA ours ≠ decodeDimA theirs
    let conflictB := oursChangedB ∧ theirsChangedB ∧ decodeDimB ours ≠ decodeDimB theirs
    if conflictA ∨ conflictB then conflictHash
    else
      let mergedA := if theirsChangedA then decodeDimA theirs else decodeDimA ours
      let mergedB := if theirsChangedB then decodeDimB theirs else decodeDimB ours
      encodeContent mergedA mergedB
  else
    -- values outside the content range are only hashed together
    1000 + ours * 31 + theirs * 17 + ancestor * 7

/-- The admission rule every peer applies to an event. -/
def validEvent (e : Event) : Prop :=
  e.peer ∈ peers ∧
  e.hlc.peer = e.peer ∧
  e.eventId = ⟨e.peer, e.hlc.wall, e.hlc.logical⟩ ∧
  isProtocolRootHash e.prollyRootHash ∧
  isProtocolRootHash e.anchorProllyRootHash ∧
  e.prollyRootHash ≠ conflictHash ∧
  e.anchorProllyRootHash ≠ conflictHash ∧
  ¬(e.resolvedParkedEventId ≠ none ∧ e.resolvedFinalizedConflictId ≠ none) ∧
  (∀ pid ∈ e.resolvedParkedEventId, pid ∈ e.parentEventIds) ∧
  e.eventId ∉ e.parentEventIds

instance (e : Event) : Decidable (validEvent e) := inferInstanceAs (Decidable (_ ∧ _))

end DoltSwarm.Protocol
