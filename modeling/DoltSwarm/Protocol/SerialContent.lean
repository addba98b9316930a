import Mathlib.Data.Fin.VecNotation
import DoltSwarm.Lib.SerialEdits
import DoltSwarm.Protocol.Replay

/-!
# Contents as a store with two fields

A root stands for the values of two dimensions, an event for an edit of them: from its anchor, or
from its replay base when it is finalized, to its own root. The merge of three roots is the test
whether the edit fits, so the projection tries the ready heads one after the other in the order of
their timestamps, and FINALIZE goes on where the finalized root stands.
-/

namespace DoltSwarm.Protocol

open Lib

set_option autoImplicit false

def contentOf (root : ProllyRootHash) : Fin 2 → Int := ![decodeDimA root, decodeDimB root]

def editOf (root base : ProllyRootHash) : Edit (Fin 2) Int := ⟨contentOf base, contentOf root⟩

/-- On contents the merge is the edit, and a conflict is an edit that does not fit. -/
theorem mergeRoots_spec {ours theirs base : ProllyRootHash} (ho : ours ∈ contentRoots)
    (ht : theirs ∈ contentRoots) (hb : base ∈ contentRoots) :
    (mergeRoots ours theirs base ≠ conflictHash ↔ (editOf theirs base).fits (contentOf ours)) ∧
    (mergeRoots ours theirs base ≠ conflictHash → contentOf (mergeRoots ours theirs base) =
      (editOf theirs base).appliedTo (contentOf ours)) := by
  have hall : ∀ ours ∈ contentRoots, ∀ theirs ∈ contentRoots, ∀ base ∈ contentRoots,
      (mergeRoots ours theirs base ≠ conflictHash ↔
        (editOf theirs base).fits (contentOf ours)) ∧
      (mergeRoots ours theirs base ≠ conflictHash → ∀ i, contentOf (mergeRoots ours theirs base) i =
        (editOf theirs base).appliedTo (contentOf ours) i) := by decide +kernel
  obtain ⟨hfits, hover⟩ := hall ours ho theirs ht base hb
  exact ⟨hfits, fun hne => funext (hover hne)⟩

/-! ## The projection -/

/-- What an event changes relative to the root it was written over. -/
def headEdit (clock : Clock) (id : EventID) : Edit (Fin 2) Int :=
  editOf (clock.get id).prollyRootHash (clock.get id).anchorProllyRootHash

theorem anchoredStep_serial {clock : Clock} {id : EventID}
    (hid : (clock.get id).prollyRootHash ∈ contentRoots ∧
      (clock.get id).anchorProllyRootHash ∈ contentRoots)
    (acc : ProllyRootHash × Finset EventID) (hacc : acc.1 ∈ contentRoots) :
    serialStep (headEdit clock) (contentOf acc.1, acc.2) id =
      (contentOf (anchoredStep clock acc id).1, (anchoredStep clock acc id).2) := by
  obtain ⟨hfits, hover⟩ := mergeRoots_spec hacc hid.1 hid.2
  simp only [anchoredStep]
  split
  · rename_i hconf
    exact serialStep_of_not_fits fun h => hfits.mpr h hconf
  · rename_i hconf
    rw [hover hconf]
    exact serialStep_of_fits (hfits.mp hconf)

theorem foldl_anchoredStep_serial {clock : Clock} (l : List EventID)
    (hl : ∀ id ∈ l, (clock.get id).prollyRootHash ∈ contentRoots ∧
      (clock.get id).anchorProllyRootHash ∈ contentRoots)
    (acc : ProllyRootHash × Finset EventID) (hacc : acc.1 ∈ contentRoots) :
    l.foldl (serialStep (headEdit clock)) (contentOf acc.1, acc.2) =
      (contentOf (l.foldl (anchoredStep clock) acc).1, (l.foldl (anchoredStep clock) acc).2) := by
  induction l generalizing acc with
  | nil => rfl
  | cons id l ih =>
    rw [List.forall_mem_cons] at hl
    rw [List.foldl_cons, List.foldl_cons, anchoredStep_serial hl.1 acc hacc]
    exact ih hl.2 _ (foldl_anchoredStep_mem [id] (by simpa using hl.1) acc hacc)

section

variable [FoldOrder]

/-- The ready heads tried in the order of their timestamps, starting from the finalized content. -/
def headsInTurn (st : NodeState) : (Fin 2 → Int) × Finset EventID :=
  serial (headEdit st.clock) (contentOf st.finalizedProllyRootHash)
    (sortEventIDsByHLC (projectionReadyHeads st) st.clock)

theorem readyHeads_subset_keys {L : Finset Event} {st : NodeState} (h : ClockOk L st) :
    projectionReadyHeads st ⊆ st.clock.keys := by
  intro id hid
  have hhead : id ∈ st.headEventIds := (Finset.mem_sdiff.mp (mergeable_subset_tentative st
    (projectionReadyHeads_subset st hid))).1
  rw [h.heads] at hhead
  exact computeHeadEventIDs_subset _ hhead

theorem headsInTurn_eq {s : State} (h : ContentInv s) {p : PeerID} (hp : p ∈ peers) :
    let st := s.nodes.get p
    headsInTurn st = (contentOf (anchoredFold (projectionReadyHeads st) st.clock
        st.finalizedProllyRootHash).1,
      (anchoredFold (projectionReadyHeads st) st.clock st.finalizedProllyRootHash).2) := by
  intro st
  refine foldl_anchoredStep_serial _ (fun id hid => ?_) (_, ∅) (h.finalized_root hp)
  have hmem := readyHeads_subset_keys (h.node p hp) ((mem_sortEventIDsByHLC _ _ _).mp hid)
  obtain ⟨hroot, hanchor⟩ := h.contentClock hp id hmem
  exact ⟨Finset.mem_insert_of_mem hroot, hanchor⟩

end

/-- What a peer shows as its tentative state is what trying the ready heads in turn gives: the
content, the heads that went in and those that were set aside. -/
theorem tentative_content_is_serial {s : State} (h : Reachable Step init s) {p : PeerID}
    (hp : p ∈ peers) (o : FoldOrder) (hready : mergeableHeadEventIDs (s.nodes.get p) ≠ ∅) :
    let st := s.nodes.get p
    contentOf st.tentativeProllyRootHash = (@headsInTurn o st).1 ∧
    st.projectionBasis = @projectionReadyHeads o st \ (@headsInTurn o st).2 ∧
    ∀ id ∈ @projectionReadyHeads o st, id ∈ st.parkedConflicts ↔ id ∈ (@headsInTurn o st).2 := by
  intro st
  have hserial := @headsInTurn_eq o s (contentInv_of_reachable h) p hp
  have hprojected := ((settledInv_of_reachable h).settled p hp).projected o
  rw [@projection_of_ready o _ hready, Prod.mk.injEq, Prod.mk.injEq] at hprojected
  obtain ⟨hroot, hparked, hbasis⟩ := hprojected
  rw [hserial]
  refine ⟨congrArg contentOf hroot.symm, hbasis.symm, fun id hid => ?_⟩
  rw [← hparked]
  obtain ⟨hmerge, hsafe⟩ := Finset.mem_sdiff.mp hid
  simp only [Finset.mem_union, retainedUnreadyParked, Finset.mem_inter, Finset.mem_sdiff]
  constructor
  · rintro ((hconflict | hretained) | hunsafe)
    · exact hconflict
    · exact absurd hmerge hretained.2.2
    · exact absurd hunsafe hsafe
  · exact fun hconflict => Or.inl (Or.inl hconflict)

theorem less_of_pair_sublist [FoldOrder] {clock : Clock} (hk : Keyed clock)
    {ids : Finset EventID} (hids : ids ⊆ clock.keys) {a b : EventID}
    (h : [a, b].Sublist (sortEventIDsByHLC ids clock)) :
    less (clock.get a).hlc (clock.get b).hlc = true := by
  have hmem : ∀ id ∈ FoldOrder.events.list ids, id ∈ clock.keys := fun id hid =>
    hids ((Enumeration.mem_list _ _ _).mp hid)
  have hkeys : ∀ id ∈ sortEventIDsByHLC ids clock, id ∈ clock.keys := fun id hid =>
    hids ((mem_sortEventIDsByHLC _ _ _).mp hid)
  have hnodup : (sortEventIDsByHLC ids clock).Nodup :=
    (sortList_perm _ _).nodup_iff.mpr (Enumeration.nodup_list _ _)
  have hsorted := (ascending_sortList hk.hlc_strictTotal hmem).sublist h
  have hne : a ≠ b := by simpa using hnodup.sublist h
  have hnot : less (clock.get b).hlc (clock.get a).hlc = false := by simpa using hsorted
  obtain ⟨ha, hb⟩ := mem_of_pair_sublist h
  rcases hk.hlc_strictTotal.tri a b (hkeys a ha) (hkeys b hb) with hlt | heq | hgt
  · exact hlt
  · exact absurd heq hne
  · rw [hnot] at hgt
    cases hgt

/-- Heads that were all written over the present finalized root lose no update: in the tentative
content every dimension that a head of the basis changed has the value of that head, every other
one has its finalized value, and a ready head is parked only for an older head of the basis that
changed the same dimension to something else. -/
theorem heads_over_one_root_overlay {s : State} (h : Reachable Step init s) {p : PeerID}
    (hp : p ∈ peers) (o : FoldOrder) (hready : mergeableHeadEventIDs (s.nodes.get p) ≠ ∅)
    (hanchor : ∀ id ∈ @projectionReadyHeads o (s.nodes.get p),
      ((s.nodes.get p).clock.get id).anchorProllyRootHash =
        (s.nodes.get p).finalizedProllyRootHash) :
    let st := s.nodes.get p
    (∀ id ∈ st.projectionBasis, ∀ i, (headEdit st.clock id).changes i →
      contentOf st.tentativeProllyRootHash i = contentOf (st.clock.get id).prollyRootHash i) ∧
    (∀ i, (∀ id ∈ st.projectionBasis, ¬(headEdit st.clock id).changes i) →
      contentOf st.tentativeProllyRootHash i = contentOf st.finalizedProllyRootHash i) ∧
    (∀ id ∈ @projectionReadyHeads o st, id ∈ st.parkedConflicts → ∃ older ∈ st.projectionBasis,
      less (st.clock.get older).hlc (st.clock.get id).hlc = true ∧
        (headEdit st.clock older).clashes (headEdit st.clock id)) := by
  intro st
  obtain ⟨hcontent, hbasis, hparked⟩ := tentative_content_is_serial h hp o hready
  have hinv := ledgerInv_of_reachable h
  have hkeys := @readyHeads_subset_keys o _ _ (hinv.node p hp)
  have hmem : ∀ {id}, id ∈ @sortEventIDsByHLC o (@projectionReadyHeads o st) st.clock ↔
      id ∈ @projectionReadyHeads o st := fun {id} => @mem_sortEventIDsByHLC o _ _ id
  have hover : Overlaid (headEdit st.clock) (contentOf st.finalizedProllyRootHash)
      (@sortEventIDsByHLC o (@projectionReadyHeads o st) st.clock) := by
    apply overlaid_of_common_base
    · exact (sortList_perm _ _).nodup_iff.mpr (Enumeration.nodup_list _ _)
    · intro id hid
      exact congrArg contentOf (hanchor id (hmem.mp hid))
  have hin : ∀ {id}, id ∈ st.projectionBasis ↔
      id ∈ @sortEventIDsByHLC o (@projectionReadyHeads o st) st.clock ∧
        id ∉ (@headsInTurn o st).2 := by
    intro id
    rw [hbasis, Finset.mem_sdiff, hmem]
  refine ⟨fun id hid i hchanges => ?_, fun i hnone => ?_, fun id hid hpark => ?_⟩
  · rw [hcontent]
    exact hover.applied id (hin.mp hid).1 (hin.mp hid).2 i hchanges
  · rw [hcontent]
    exact hover.untouched i fun id hid hkept => hnone id (hin.mpr ⟨hid, hkept⟩)
  · obtain ⟨older, hsub, hkept, hclash⟩ := hover.refused id ((hparked id hid).mp hpark)
    exact ⟨older, hin.mpr ⟨(mem_of_pair_sublist hsub).1, hkept⟩,
      @less_of_pair_sublist o _ (hinv.keyed hp) _ hkeys _ _ hsub, hclash⟩

/-- Peers 1 and 2 set the same dimension to different values, and peer 1 has both writes. -/
def clashRun : List Action :=
  let second := writtenEvent (emptyNodeState 2) 2 14
  [.write 1 11, .write 2 14, .receive 1 second, .chunksReady 1 second.eventId]

def clashState : State := (runOutcome clashRun).2

theorem heads_over_one_root_overlay_on_clash :
    (clashState.nodes.get 1).parkedConflicts = {⟨2, 1, 1⟩} ∧
    contentOf (clashState.nodes.get 1).tentativeProllyRootHash 0 = 1 ∧
    ∃ older ∈ (clashState.nodes.get 1).projectionBasis,
      (headEdit (clashState.nodes.get 1).clock older).clashes
        (headEdit (clashState.nodes.get 1).clock ⟨2, 1, 1⟩) := by
  have h := heads_over_one_root_overlay (s := clashState) (p := 1)
    ⟨_, run_runOutcome (by decide +kernel)⟩ (by decide) ascendingFolds (by decide +kernel)
    (by decide +kernel)
  refine ⟨by decide +kernel, (h.1 ⟨1, 1, 1⟩ (by decide +kernel) 0 (by decide +kernel)).trans
    (by decide +kernel), ?_⟩
  obtain ⟨older, holder, -, hclash⟩ := h.2.2 ⟨2, 1, 1⟩ (by decide +kernel) (by decide +kernel)
  exact ⟨older, holder, hclash⟩

/-! ## Finalization -/

def FinalizeStep (p : PeerID) (s : State) (_ : Unit) (s' : State) : Prop := Step s (.finalize p) s'

/-- What an event changes relative to its replay base. -/
def replayEdit [FoldOrder] (clock : Clock) (id : EventID) : Edit (Fin 2) Int :=
  editOf (clock.get id).prollyRootHash (finalizationReplayBase clock id)

theorem finalizeStep_iff {p : PeerID} (hp : p ∈ peers) {s s' : State} :
    FinalizeStep p s () s' ↔ ∃ o : FoldOrder, @finalizeEnabled o (s.nodes.get p) ∧
      s' = s.setNode p (@finalizeResult o (s.nodes.get p)) := by
  constructor
  · rintro ⟨o, hstep⟩
    simp only [step] at hstep
    split_ifs at hstep with hg
    exact ⟨o, hg.2, (Option.some.inj hstep).symm⟩
  · rintro ⟨o, he, rfl⟩
    exact ⟨o, if_pos ⟨hp, he⟩⟩

/-- What one FINALIZE does to the event it picks. -/
structure Finalized [FoldOrder] (st st' : NodeState) (id : EventID) : Prop where
  clock : st'.clock = st.clock
  fresh : id ∈ st.clock.keys ∧ id ∉ st.finalizedEvents.keys
  events : st'.finalizedEvents.keys = insert id st.finalizedEvents.keys
  subsumed : id ∈ subsumedEvents st.clock →
    st'.finalizedProllyRootHash = st.finalizedProllyRootHash
  replayed : id ∉ subsumedEvents st.clock →
    (replayEdit st.clock id).fits (contentOf st.finalizedProllyRootHash) ∧
    contentOf st'.finalizedProllyRootHash =
      (replayEdit st.clock id).appliedTo (contentOf st.finalizedProllyRootHash)

theorem finalized_finalizeResult [FoldOrder] {s : State} (h : ContentInv s) {p : PeerID}
    (hp : p ∈ peers) (he : finalizeEnabled (s.nodes.get p)) :
    Finalized (s.nodes.get p) (finalizeResult (s.nodes.get p))
      (nextFinalizationEventID (s.nodes.get p)) := by
  have hcand := Finset.mem_filter.mp (nextFinalizationEventID_mem (s.nodes.get p) he.1)
  obtain ⟨hmem, hnew, -⟩ := (Finset.mem_filter.mp hcand.1)
  rcases finalizeResult_cases _ he with ⟨hsub, heq⟩ | ⟨hsub, hroot, heq⟩
  · rw [heq]
    exact ⟨rfl, ⟨hmem, hnew⟩, Map.keys_put _ _ _, fun _ => rfl, fun hnot => absurd hsub hnot⟩
  · obtain ⟨-, hbase, hmerge⟩ := h.mergeRoot_spec hp he.1 hroot
    obtain ⟨hfits, hover⟩ := mergeRoots_spec (h.finalized_root hp)
      (Finset.mem_insert_of_mem (h.contentClock hp _ hmem).1) hbase
    rw [hmerge] at hroot
    rw [heq, (h.finalized p hp).replayNextEvent_eq]
    refine ⟨rfl, ⟨hmem, hnew⟩, Map.keys_put _ _ _, fun hin => absurd hin hsub, fun _ => ?_⟩
    refine ⟨hfits.mp hroot, ?_⟩
    rw [reconcileResult_finalizedProllyRootHash]
    exact (congrArg contentOf hmerge).trans (hover hroot)

def unfinalized (st : NodeState) : ℕ := (st.clock.keys \ st.finalizedEvents.keys).card

theorem replayEdit_order (o o' : FoldOrder) {clock : Clock} (h : Keyed clock) (id : EventID) :
    @replayEdit o clock id = @replayEdit o' clock id := by
  simp only [replayEdit, finalizationReplayBase_order o o' h]

section

variable {p : PeerID} (hp : p ∈ peers) {s s' : State} {tr : List (State × Unit)}

theorem reachable_of_finalizes (h : Reachable Step init s) (hrun : Run (FinalizeStep p) s tr s') :
    Reachable Step init s' := hrun.invariant h fun _ _ _ ht hstep => ht.tail hstep

/-- The events finalized by a run, in the order in which they were. -/
structure FinalizedInTurn (o : FoldOrder) (st st' : NodeState) (ids : List EventID) : Prop where
  clock : st'.clock = st.clock
  nodup : ids.Nodup
  fresh : ∀ id ∈ ids, id ∈ st.clock.keys ∧ id ∉ st.finalizedEvents.keys
  events : st'.finalizedEvents.keys = st.finalizedEvents.keys ∪ ids.toFinset
  content : serial (@replayEdit o st.clock) (contentOf st.finalizedProllyRootHash)
    (ids.filter fun id => id ∉ subsumedEvents st.clock) = (contentOf st'.finalizedProllyRootHash, ∅)

theorem FinalizedInTurn.snoc {o o' : FoldOrder} {st st' st'' : NodeState} {ids : List EventID}
    {id : EventID} (hk : Keyed st.clock) (h : FinalizedInTurn o st st' ids)
    (hnext : @Finalized o' st' st'' id) : FinalizedInTurn o st st'' (ids ++ [id]) := by
  obtain ⟨hclock, ⟨hmem, hnew⟩, hevents, hsubsumed, hreplayed⟩ := hnext
  rw [h.clock] at hmem hsubsumed hreplayed
  rw [h.events, Finset.mem_union, not_or, List.mem_toFinset] at hnew
  constructor
  · exact hclock.trans h.clock
  · rw [List.nodup_append]
    refine ⟨h.nodup, List.nodup_singleton id, ?_⟩
    rintro a ha b hb rfl
    exact hnew.2 (List.mem_singleton.mp hb ▸ ha)
  · intro x hx
    rcases List.mem_append.mp hx with hx | hx
    · exact h.fresh x hx
    · rw [List.mem_singleton.mp hx]
      exact ⟨hmem, hnew.1⟩
  · rw [hevents, h.events]
    ext x
    simp [or_comm]
  · rw [List.filter_append]
    by_cases hsub : id ∈ subsumedEvents st.clock
    · rw [List.filter_cons_of_neg (by simpa using hsub), List.filter_nil, List.append_nil,
        h.content, hsubsumed hsub]
    · obtain ⟨hfits, hover⟩ := hreplayed hsub
      rw [replayEdit_order o' o hk] at hfits hover
      rw [List.filter_cons_of_pos (by simpa using hsub), List.filter_nil, serial_concat, h.content,
        hover]
      exact serialStep_of_fits hfits

include hp

theorem finalizedInTurn_of_run (h : Reachable Step init s) (hrun : Run (FinalizeStep p) s tr s')
    (o : FoldOrder) : ∃ ids, ids.length = tr.length ∧
      FinalizedInTurn o (s.nodes.get p) (s'.nodes.get p) ids := by
  have hk := (ledgerInv_of_reachable h).keyed hp
  induction hrun with
  | nil => exact ⟨[], rfl, rfl, List.nodup_nil, by simp, by simp, rfl⟩
  | snoc hrun hstep ih =>
    obtain ⟨ids, hlen, hids⟩ := ih
    obtain ⟨o', he, rfl⟩ := (finalizeStep_iff hp).mp hstep
    have hcontent := contentInv_of_reachable (reachable_of_finalizes h hrun)
    refine ⟨_, ?_, hids.snoc hk (by
      rw [State.setNode, Map.get_put_self]
      exact @finalized_finalizeResult o' _ hcontent p hp he)⟩
    rw [List.length_append, hlen]
    rfl

/-- Finalization at one peer comes to an end, and whatever it has finalized by then, the finalized
content is that of the events replayed one after the other, each of which fitted when its turn
came; a subsumed event changes nothing. -/
theorem finalization_is_serial (h : Reachable Step init s) (o : FoldOrder) :
    (∃ tr s', Run (FinalizeStep p) s tr s' ∧
      ∀ o' : FoldOrder, ¬@finalizeEnabled o' (s'.nodes.get p)) ∧
    ∀ tr s', Run (FinalizeStep p) s tr s' → ∃ ids, ids.length = tr.length ∧
      FinalizedInTurn o (s.nodes.get p) (s'.nodes.get p) ids := by
  refine ⟨?_, fun tr s' hrun => finalizedInTurn_of_run hp h hrun o⟩
  -- every step leaves an event less that is not finalized
  have hshrinks : ∀ t (a : Unit) t', Reachable Step init t → FinalizeStep p t a t' →
      Reachable Step init t' ∧ unfinalized (t'.nodes.get p) < unfinalized (t.nodes.get p) := by
    intro t a t' ht hstep
    refine ⟨ht.tail hstep, ?_⟩
    obtain ⟨o', he, rfl⟩ := (finalizeStep_iff hp).mp hstep
    have hnext := @finalized_finalizeResult o' _ (contentInv_of_reachable ht) p hp he
    rw [State.setNode, Map.get_put_self, unfinalized, unfinalized, hnext.clock, hnext.events]
    refine Finset.card_lt_card ⟨Finset.sdiff_subset_sdiff (Finset.Subset.refl _)
      (Finset.subset_insert _ _), fun hsub => ?_⟩
    have hin := hsub (Finset.mem_sdiff.mpr hnext.fresh)
    exact (Finset.mem_sdiff.mp hin).2 (Finset.mem_insert_self _ _)
  obtain ⟨tr, s', hrun, hhalt⟩ := exists_halting_run _ hshrinks h
  exact ⟨tr, s', hrun, fun o' he => hhalt () _ ((finalizeStep_iff hp).mpr ⟨o', he, rfl⟩)⟩

end

/-- Peer 3 has heard from both writers of the fork and is about to finalize. -/
def finalizableState : State := (runOutcome (forkRun ++ [.heartbeat 3 1, .heartbeat 3 2])).2

def twoFinalizations : List (State × Unit) × State :=
  outcome (fun s _ => @step ascendingFolds s (.finalize 3)) finalizableState [(), ()]

theorem finalization_is_serial_on_fork :
    ∃ ids, ids.length = 2 ∧ FinalizedInTurn ascendingFolds (finalizableState.nodes.get 3)
      (twoFinalizations.2.nodes.get 3) ids := by
  have hrun : Run (FinalizeStep 3) finalizableState twoFinalizations.1 twoFinalizations.2 :=
    run_outcome (fun _ _ _ hs => ⟨ascendingFolds, hs⟩) (by decide +kernel)
  have hlen : twoFinalizations.1.length = 2 := by decide +kernel
  obtain ⟨ids, hids, hturn⟩ := (finalization_is_serial (p := 3) (by decide)
    ⟨_, run_runOutcome (by decide +kernel)⟩ ascendingFolds).2 _ _ hrun
  exact ⟨ids, hids.trans hlen, hturn⟩

end DoltSwarm.Protocol
