import DoltSwarm.Protocol.Replay

/-!
# No sentinel in the state

The conflict sentinel is only ever a return value, and the branch of `mergeRoots` that hashes
its arguments together is for values no peer stores. Both follow from one invariant: every
root in play is a content or the empty root, on every state that a step merges roots in.
-/

namespace DoltSwarm.Protocol

open Lib

set_option autoImplicit false

/-! ## The merges of a step -/

/-- `mergeRoots` returns before its last branch, which hashes the three roots together. -/
def mergedByDimension (ours theirs ancestor : ProllyRootHash) : Prop :=
  ours = theirs ∨ ours = ancestor ∨ theirs = ancestor ∨
    (isContentHash ours ∧ isContentHash theirs ∧ isContentHash ancestor)

variable [FoldOrder]

/-- The merges made when a state is projected or its next finalization is chosen: those of the
two folds, each after the events that come before, and the replay of an event. -/
inductive MergeCall (st : NodeState) : ProllyRootHash → ProllyRootHash → ProllyRootHash → Prop
  | projected {id : EventID} {before after : List EventID} :
      sortEventIDsByHLC (projectionReadyHeads st) st.clock = before ++ id :: after →
      MergeCall st (before.foldl (anchoredStep st.clock) (st.finalizedProllyRootHash, ∅)).1
        (st.clock.get id).prollyRootHash (st.clock.get id).anchorProllyRootHash
  | replayBase {event id : EventID} {before after : List EventID} : event ∈ st.clock.keys →
      finalizationReplayParents (st.clock.get event) ⊆ st.clock.keys →
      sortEventIDsByHLC (finalizationReplayParents (st.clock.get event)) st.clock =
        before ++ id :: after →
      MergeCall st
        (before.foldl (anchoredStep st.clock) ((st.clock.get event).anchorProllyRootHash, ∅)).1
        (st.clock.get id).prollyRootHash (st.clock.get id).anchorProllyRootHash
  | replay {event : EventID} : event ∈ st.clock.keys →
      finalizationReplayBase st.clock event ≠ conflictHash →
      MergeCall st st.finalizedProllyRootHash (st.clock.get event).prollyRootHash
        (finalizationReplayBase st.clock event)

/-- The states that an action projects or looks for the next finalization in. -/
inductive Evaluated (s : State) : Action → NodeState → Prop
  | emit {a : Action} {p : PeerID} {e : Event} : p ∈ peers → Emission (s.nodes.get p) p a e →
      Evaluated s a { addToClock (s.nodes.get p) p e e.hlc with
        chunksReady := (s.nodes.get p).chunksReady ∪ {e.eventId} }
  | receive {p : PeerID} {e : Event} : p ∈ peers →
      e ∈ processable (s.nodes.get p) (s.inbox.get p) →
      Evaluated s (.receive p e) (addToClock (s.nodes.get p) p e
        (observe (s.nodes.get p).hlcClock e.hlc (s.nodes.get p).localWall p))
  | chunksReady {p : PeerID} {id : EventID} : p ∈ peers → Evaluated s (.chunksReady p id)
      { s.nodes.get p with chunksReady := (s.nodes.get p).chunksReady ∪ {id} }
  | reconcile {p : PeerID} : p ∈ peers → Evaluated s (.reconcile p) (s.nodes.get p)
  | finalize {p : PeerID} : p ∈ peers → Evaluated s (.finalize p) (s.nodes.get p)
  | hardened {p : PeerID} (id : EventID) : p ∈ peers → Evaluated s (.finalize p)
      (hardenEvent (s.nodes.get p) (s.nodes.get p).finalizedCommitId id
        ((s.nodes.get p).clock.get id))
  | replayed {p : PeerID} : p ∈ peers → finalizeEnabled (s.nodes.get p) →
      nextFinalizationMergeRoot (s.nodes.get p) ≠ conflictHash →
      Evaluated s (.finalize p) (replayNextEvent (s.nodes.get p))
  | gc {p : PeerID} {id : EventID} : p ∈ peers →
      Evaluated s (.gc p id) (gcBaseResult (s.nodes.get p) p id)
  | sync {p q : PeerID} {st : NodeState} : p ∈ peers → q ∈ peers →
      Reworked (s.nodes.get q).clock
        (syncFinalizedCoreResult (s.nodes.get p) (s.nodes.get q)) st →
      st.headEventIds = computeHeadEventIDs st.clock → Evaluated s (.syncFinalized p q) st

/-- The merges that an action makes: in the states it evaluates, and of two finalized tips. -/
inductive ActionMerge (s : State) (a : Action) :
    ProllyRootHash → ProllyRootHash → ProllyRootHash → Prop
  | evaluated {st : NodeState} {ours theirs ancestor : ProllyRootHash} : Evaluated s a st →
      MergeCall st ours theirs ancestor → ActionMerge s a ours theirs ancestor
  | tips {p q : PeerID} : p ∈ peers → q ∈ peers → a = .syncFinalized p q →
      ActionMerge s a (mergePlan (s.nodes.get p) (s.nodes.get q)).oursFinalizedCommit.root
        (mergePlan (s.nodes.get p) (s.nodes.get q)).theirsFinalizedCommit.root
        (mergePlan (s.nodes.get p) (s.nodes.get q)).commonFinalizedCommit.root

/-! ## States with content roots only -/

structure ContentNode (st : NodeState) : Prop where
  events : ContentClock st.clock
  heads : st.headEventIds ⊆ st.clock.keys
  finalized : st.finalizedProllyRootHash ∈ contentRoots
  tentative : st.tentativeProllyRootHash ∈ contentRoots

namespace ContentNode

variable {st : NodeState}

omit [FoldOrder] in
theorem foldl_mem (h : ContentNode st) {ids : List EventID} (hids : ∀ id ∈ ids, id ∈ st.clock.keys)
    {start : ProllyRootHash} (hstart : start ∈ contentRoots) :
    (ids.foldl (anchoredStep st.clock) (start, ∅)).1 ∈ contentRoots := by
  refine foldl_anchoredStep_mem _ (fun id hid => ?_) _ hstart
  have hroots := h.events id (hids id hid)
  exact ⟨Finset.mem_insert_of_mem hroots.1, hroots.2⟩

theorem readyHeads_subset (h : ContentNode st) : projectionReadyHeads st ⊆ st.clock.keys :=
  (projectionReadyHeads_subset st).trans
    ((mergeable_subset_tentative st).trans (Finset.sdiff_subset.trans h.heads))

theorem split_mem {ids : Finset EventID} (hids : ids ⊆ st.clock.keys) {id : EventID}
    {before after : List EventID}
    (hsplit : sortEventIDsByHLC ids st.clock = before ++ id :: after) :
    (∀ x ∈ before, x ∈ st.clock.keys) ∧ id ∈ st.clock.keys := by
  have hmem : ∀ x ∈ before ++ id :: after, x ∈ st.clock.keys := by
    intro x hx
    rw [← hsplit] at hx
    exact hids ((mem_sortEventIDsByHLC _ _ _).mp hx)
  exact ⟨fun x hx => hmem x (List.mem_append_left _ hx),
    hmem id (List.mem_append_right _ List.mem_cons_self)⟩

theorem merge_roots (h : ContentNode st) {ours theirs ancestor : ProllyRootHash}
    (hcall : MergeCall st ours theirs ancestor) :
    ours ∈ contentRoots ∧ theirs ∈ contentRoots ∧ ancestor ∈ contentRoots := by
  cases hcall with
  | projected hsplit =>
    obtain ⟨hbefore, hid⟩ := split_mem h.readyHeads_subset hsplit
    have hroots := h.events _ hid
    exact ⟨h.foldl_mem hbefore h.finalized, Finset.mem_insert_of_mem hroots.1, hroots.2⟩
  | replayBase hevent hparents hsplit =>
    obtain ⟨hbefore, hid⟩ := split_mem hparents hsplit
    have hroots := h.events _ hid
    exact ⟨h.foldl_mem hbefore (h.events _ hevent).2, Finset.mem_insert_of_mem hroots.1,
      hroots.2⟩
  | replay hevent hbase =>
    exact ⟨h.finalized, Finset.mem_insert_of_mem (h.events _ hevent).1,
      h.events.replayBase_mem hevent hbase⟩

theorem projected (h : ContentNode st) : (computeTentativeProjection st).1 ∈ contentRoots := by
  by_cases hnone : tentativeHeadEventIDs st = ∅
  · rw [projection_of_no_head hnone]
    exact h.finalized
  · by_cases hready : mergeableHeadEventIDs st = ∅
    · rw [projection_of_unready hnone hready]
      exact h.tentative
    · rw [projection_of_ready hready]
      exact h.events.fold_mem h.readyHeads_subset h.finalized

end ContentNode

omit [FoldOrder] in
theorem ContentClock.mono {clock clock' : Clock} (h : ContentClock clock)
    (hsub : Map.SubMap clock' clock) : ContentClock clock' := by
  intro id hid
  rw [hsub.get_eq hid]
  exact h id (hsub.keys_subset hid)

omit [FoldOrder] in
theorem ContentClock.put {clock : Clock} (h : ContentClock clock) {e : Event}
    (hroot : e.prollyRootHash ∈ contents) (hanchor : e.anchorProllyRootHash ∈ contentRoots) :
    ContentClock (clock.put e.eventId e) := by
  intro id hid
  rw [Map.get_put]
  split
  · exact ⟨hroot, hanchor⟩
  · next hne =>
    rw [Map.keys_put] at hid
    exact h id ((Finset.mem_insert.mp hid).resolve_left hne)

/-! ## The invariant -/

structure SentinelInv (s : State) : Prop extends ContentInv s where
  oneClaim : ∀ e ∈ s.ledger,
    ¬(e.resolvedParkedEventId ≠ none ∧ e.resolvedFinalizedConflictId ≠ none)
  tentative : ∀ p ∈ peers, (s.nodes.get p).tentativeProllyRootHash ∈ contentRoots

namespace SentinelInv

variable {s : State} (h : SentinelInv s)

include h

omit [FoldOrder] in
theorem contentNode {p : PeerID} (hp : p ∈ peers) : ContentNode (s.nodes.get p) where
  events := h.contentClock hp
  heads := (h.node p hp).heads ▸ computeHeadEventIDs_subset _
  finalized := h.finalized_root hp
  tentative := h.tentative p hp

omit [FoldOrder] in
theorem added {p : PeerID} (hp : p ∈ peers) {e : Event} (hroot : e.prollyRootHash ∈ contents)
    (hanchor : e.anchorProllyRootHash ∈ contentRoots) (hlc : HLC) (ready : Finset EventID) :
    ContentNode { addToClock (s.nodes.get p) p e hlc with chunksReady := ready } where
  events := (h.contentClock hp).put hroot hanchor
  heads := computeHeadEventIDs_subset _
  finalized := h.finalized_root hp
  tentative := h.tentative p hp

theorem synced {p q : PeerID} (hp : p ∈ peers) (hq : q ∈ peers) {st : NodeState}
    (hre : Reworked (s.nodes.get q).clock
      (syncFinalizedCoreResult (s.nodes.get p) (s.nodes.get q)) st)
    (hheads : st.headEventIds = computeHeadEventIDs st.clock) : ContentNode st := by
  have hcore := finalizedOk_core (h.finalized p hp) (h.finalized q hq)
  have hclock : (syncFinalizedCoreResult (s.nodes.get p) (s.nodes.get q)).clock =
      (s.nodes.get p).clock := by rw [syncFinalizedCoreResult_frame]
  have hroot : (syncFinalizedCoreResult (s.nodes.get p) (s.nodes.get q)).tentativeProllyRootHash =
      (s.nodes.get p).tentativeProllyRootHash := by rw [syncFinalizedCoreResult_frame]
  have hfrom := hre.hydratedFrom hclock
  obtain ⟨clock, ready, heads, rfl⟩ := hre.frame
  refine ⟨fun id hid => ?_, hheads ▸ computeHeadEventIDs_subset _, ?_, hroot ▸ h.tentative p hp⟩
  · have hlook := Map.lookup_of_mem hid
    rcases hfrom id _ hlook with hl | ⟨hr, -⟩
    · rw [← Map.get_of_lookup hl]
      exact h.contentClock hp id (Map.mem_keys_of_lookup hl)
    · rw [← Map.get_of_lookup hr]
      exact h.contentClock hq id (Map.mem_keys_of_lookup hr)
  · change (syncFinalizedCoreResult (s.nodes.get p)
      (s.nodes.get q)).finalizedProllyRootHash ∈ contentRoots
    rw [hcore.root_eq]
    exact (h.lineage_sync hp hq).root_mem _ hcore.tip_mem

theorem evaluated {a : Action} {st : NodeState} (hev : Evaluated s a st) : ContentNode st := by
  cases hev with
  | emit hp he =>
    have hshape := shape_of_emission he hp
    obtain ⟨_, _, _, _, _, rfl, _, _⟩ := emission_spec he
    exact h.added hp hshape.root_mem (h.finalized_root hp) _ _
  | @receive p e hp he =>
    have hmem := h.mem_ledger_of_inbox hp (Finset.mem_filter.mp he).1
    exact h.added hp (h.shape _ hmem).root_mem (h.anchors _ hmem) _ _
  | chunksReady hp =>
    have hst := h.contentNode hp
    exact ⟨hst.events, hst.heads, hst.finalized, hst.tentative⟩
  | reconcile hp => exact h.contentNode hp
  | finalize hp => exact h.contentNode hp
  | hardened id hp =>
    have hst := h.contentNode hp
    exact ⟨hst.events, hst.heads, hst.finalized, hst.tentative⟩
  | @replayed p hp he hroot =>
    have hst := h.contentNode hp
    have hnext := h.nextRoot_mem hp he.1 hroot
    rw [(h.finalized p hp).replayNextEvent_eq]
    exact ⟨hst.events, hst.heads, hnext, hst.tentative⟩
  | gc hp =>
    have hst := h.contentNode hp
    exact ⟨hst.events.mono (Map.subMap_removeAll _ _), computeHeadEventIDs_subset _,
      hst.finalized, hst.tentative⟩
  | sync hp hq hre hheads => exact h.synced hp hq hre hheads

theorem tentative_effect {a : Action} {s' : State} (heff : Effect s a s') :
    ∀ q ∈ peers, (s'.nodes.get q).tentativeProllyRootHash ∈ contentRoots := by
  have hput : ∀ p st, s'.nodes = s.nodes.put p st → st.tentativeProllyRootHash ∈ contentRoots →
      ∀ q ∈ peers, (s'.nodes.get q).tentativeProllyRootHash ∈ contentRoots := by
    intro p st hnodes hst
    rw [hnodes]
    exact Map.forall_get_put
      (P := fun _ (st : NodeState) => st.tentativeProllyRootHash ∈ contentRoots) h.tentative hst
  cases heff with
  | emit p e hp _ he => exact hput p _ rfl (h.evaluated (.emit hp he)).projected
  | receive p e hp he => exact hput p _ rfl (h.evaluated (.receive hp he)).projected
  | touch p st hp ht =>
    cases ht with
    | chunksReady id _ _ => exact hput p _ rfl (h.evaluated (.chunksReady hp)).projected
    | reconcile _ => exact hput p _ rfl (h.evaluated (.reconcile hp)).projected
    | tick _ => exact hput p _ rfl (h.tentative p hp)
    | evict q _ _ _ _ => exact hput p _ rfl (h.tentative p hp)
  | heartbeat p q hp _ _ _ => exact hput p _ rfl (h.tentative p hp)
  | finalize p hp he =>
    rcases finalizeResult_cases _ he with ⟨_, heq⟩ | ⟨_, hroot, heq⟩
    · refine hput p _ (congrArg (s.nodes.put p) heq) ?_
      exact (h.evaluated (.hardened _ hp)).projected
    · refine hput p _ (congrArg (s.nodes.put p) heq) ?_
      exact (h.evaluated (.replayed hp he hroot)).projected
  | gc p id hp _ => exact hput p _ rfl (h.evaluated (.gc hp)).projected
  | sync p q hp hq _ =>
    obtain ⟨st, hre, hheads, heq⟩ :=
      applySyncFinalizedResult_reworked (s.nodes.get p) (s.nodes.get q)
    refine hput p _ rfl ?_
    rw [syncResult, heq]
    exact (h.evaluated (.sync hp hq hre hheads)).projected
  | network conn _ => exact h.tentative

theorem effect {a : Action} {s' : State} (heff : Effect s a s') : SentinelInv s' where
  toContentInv := contentInv_effect h.toContentInv heff
  oneClaim := by
    rcases ledger_effect h.toLedgerInv heff with ⟨p, e, _, he, hL⟩ | hL
    · rw [hL]
      intro x hx
      rcases Finset.mem_insert.mp hx with rfl | hx
      · cases he <;> simp [writtenEvent, resolutionEvent, finalizedResolutionEvent, emittedEvent]
      · exact h.oneClaim x hx
    · rw [hL]
      exact h.oneClaim
  tentative := h.tentative_effect heff

omit [FoldOrder] in
theorem valid {e : Event} (he : e ∈ s.ledger) : validEvent e := by
  have hshape := h.shape e he
  have hroot := hshape.root_mem
  have hanchor := h.anchors e he
  have hprotocol : ∀ r ∈ contentRoots, isProtocolRootHash r = true ∧ r ≠ conflictHash := by decide
  obtain ⟨hr, hr'⟩ := hprotocol _ (Finset.mem_insert_of_mem hroot)
  obtain ⟨ha, ha'⟩ := hprotocol _ hanchor
  refine ⟨hshape.peer_mem, hshape.hlc_peer, hshape.id_eq, hr, ha, hr', ha', h.oneClaim e he,
    hshape.resolved_mem, fun hself => ?_⟩
  obtain ⟨x, hx, hid, hlt⟩ := h.older e he _ hself
  rw [h.unique x hx e he hid, less_self] at hlt
  cases hlt

end SentinelInv

omit [FoldOrder] in
theorem sentinelInv_of_reachable {s : State} (h : Reachable Step init s) : SentinelInv s := by
  refine invariant_of_effect ⟨contentInv_init, ?_, ?_⟩
    (fun o _ _ _ hI heff => @SentinelInv.effect o _ hI _ _ heff) h
  · have hL : init.ledger = ∅ := by decide
    simp [hL]
  · decide

omit [FoldOrder] in
/-- All events are valid, all roots that peers hold or have finalized are contents or the empty
root, which the conflict sentinel is not, and no action merges roots by hashing them. -/
theorem no_sentinel_in_state {s : State} (h : Reachable Step init s) :
    (∀ e, s.occurs e → validEvent e ∧ e.prollyRootHash ∈ contentRoots ∧
      e.anchorProllyRootHash ∈ contentRoots) ∧
    (∀ p ∈ peers, (s.nodes.get p).tentativeProllyRootHash ∈ contentRoots ∧
      (s.nodes.get p).finalizedProllyRootHash ∈ contentRoots ∧
      ∀ c ∈ lineageKnownFinalizedCommits (s.nodes.get p).finalizedCommitParents,
        c.root ∈ contentRoots) ∧
    conflictHash ∉ contentRoots ∧
    ∀ (o : FoldOrder) (a : Action) (ours theirs ancestor : ProllyRootHash),
      @ActionMerge o s a ours theirs ancestor → mergedByDimension ours theirs ancestor := by
  have hinv := sentinelInv_of_reachable h
  refine ⟨fun e he => ?_, fun p hp => ⟨hinv.tentative p hp, hinv.finalized_root hp, ?_⟩,
    conflictHash_notMem, ?_⟩
  · have hmem := hinv.mem_ledger_of_occurs he
    exact ⟨hinv.valid hmem, Finset.mem_insert_of_mem (hinv.shape e hmem).root_mem,
      hinv.anchors e hmem⟩
  · intro c hc
    refine (hinv.lineages p hp).root_mem c ?_
    rcases Finset.mem_union.mp hc with hc | hc
    · exact hc
    · obtain ⟨child, hchild, hparent⟩ := Finset.mem_biUnion.mp hc
      have hrecorded := (hinv.lineages p hp).closed child
      rw [parentsAt, if_pos hchild] at hrecorded
      exact hrecorded hparent
  · intro o a ours theirs ancestor hmerge
    have hcontent : ∀ r ∈ contentRoots, isContentHash r = true := by decide
    have hroots : ours ∈ contentRoots ∧ theirs ∈ contentRoots ∧ ancestor ∈ contentRoots := by
      cases hmerge with
      | evaluated hev hcall => exact (hinv.evaluated hev).merge_roots hcall
      | @tips p q hp hq _ =>
        have hlineage := (hinv.lineages p hp).merge (hinv.lineages q hq)
        obtain ⟨hours, htheirs, hcommon⟩ := hinv.plan_mem hp hq
        exact ⟨hlineage.root_mem _ hours, hlineage.root_mem _ htheirs,
          hlineage.root_mem _ hcommon⟩
    exact Or.inr (Or.inr (Or.inr
      ⟨hcontent _ hroots.1, hcontent _ hroots.2.1, hcontent _ hroots.2.2⟩))

omit [FoldOrder] in
/-- With a conflict at hand, the sentinel was returned but not stored. -/
theorem no_sentinel_in_state_on_conflict :
    mergeRoots 11 14 emptyRoot = conflictHash ∧
    (conflictState.nodes.get 1).parkedConflicts ≠ ∅ ∧
    (conflictState.nodes.get 1).tentativeProllyRootHash ∈ contentRoots :=
  ⟨by decide, by decide +kernel,
    ((no_sentinel_in_state ⟨_, conflictRun_runs⟩).2.1 1 (by decide)).1⟩

end DoltSwarm.Protocol
