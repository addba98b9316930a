import DoltSwarm.Protocol.Ledger

/-!
# The stored projection is a fixed point

No fold of the projection depends on the order of enumeration. Of its old outputs the
projection reads back only the parked heads that are not ready, and it keeps exactly those,
so it gives its own output again. Every step that changes an input projects after the
change.
-/

namespace DoltSwarm.Protocol

open Lib

set_option autoImplicit false

/-! ## Replay does not depend on enumeration -/

/-- Entries stand under their own id, and the id repeats the timestamp. -/
def Keyed (clock : Clock) : Prop :=
  ∀ id e, clock.lookup id = some e → e.eventId = id ∧ Stamped e

theorem LedgerInv.keyed {s : State} (h : LedgerInv s) {p : PeerID} (hp : p ∈ peers) :
    Keyed (s.nodes.get p).clock := by
  intro id e he
  obtain ⟨hmem, hid⟩ := (h.node p hp).mem id e he
  exact ⟨hid, (h.shape e hmem).toStamped⟩

theorem Keyed.get {clock : Clock} (h : Keyed clock) {id : EventID} (hid : id ∈ clock.keys) :
    (clock.get id).eventId = id ∧ Stamped (clock.get id) := h id _ (Map.lookup_of_mem hid)

theorem Keyed.mono {clock clock' : Clock} (h : Keyed clock) (hsub : Map.SubMap clock' clock) :
    Keyed clock' := fun id e he => h id e (hsub id e he)

theorem Keyed.put {clock : Clock} (h : Keyed clock) {e : Event} (he : validEvent e) :
    Keyed (clock.put e.eventId e) := by
  intro id x hx
  rw [Map.lookup_put] at hx
  split at hx
  · rename_i hid
    rw [← Option.some.inj hx]
    exact ⟨hid.symm, ⟨he.1, he.2.1, he.2.2.1⟩⟩
  · exact h id x hx

theorem Keyed.hlc_strictTotal {clock : Clock} (h : Keyed clock) :
    StrictTotalOn (fun a b => less (clock.get a).hlc (clock.get b).hlc) (· ∈ clock.keys) := by
  refine ⟨fun a _ => less_self _, fun {a b c} _ _ _ hab hbc => less_trans hab hbc,
    fun a b ha hb => ?_⟩
  rcases less_strictTotal.tri (clock.get a).hlc (clock.get b).hlc trivial trivial with
    hlt | heq | hgt
  · exact Or.inl hlt
  · refine Or.inr (Or.inl ?_)
    obtain ⟨hida, hsa⟩ := h.get ha
    obtain ⟨hidb, hsb⟩ := h.get hb
    have hpeer : (clock.get a).peer = (clock.get b).peer := by
      rw [← hsa.hlc_peer, ← hsb.hlc_peer, heq]
    rw [← hida, ← hidb, hsa.id_eq, hsb.id_eq, hpeer, heq]
  · exact Or.inr (Or.inr hgt)

section

variable (o o' : FoldOrder) {clock : Clock} {st : NodeState}

theorem anchoredFold_order (h : Keyed clock) {ids : Finset EventID} (hids : ids ⊆ clock.keys)
    (start : ProllyRootHash) :
    @anchoredFold o ids clock start = @anchoredFold o' ids clock start := by
  have hsort : @sortEventIDsByHLC o ids clock = @sortEventIDsByHLC o' ids clock :=
    sortList_eq_of_perm h.hlc_strictTotal (o.events.list_perm o'.events ids)
      fun a ha => hids ((o.events.mem_list ids a).mp ha)
  simp only [anchoredFold, hsort]

theorem finalizationReplayBase_order (h : Keyed clock) (id : EventID) :
    @finalizationReplayBase o clock id = @finalizationReplayBase o' clock id := by
  by_cases hsub : finalizationReplayParents (clock.get id) ⊆ clock.keys
  · simp only [finalizationReplayBase, anchoredFold_order o o' h hsub]
  · simp only [finalizationReplayBase, hsub, not_false_eq_true, if_true]

theorem replayFinalizationSafe_order (h : Keyed st.clock) (id : EventID) :
    @replayFinalizationSafe o st id ↔ @replayFinalizationSafe o' st id := by
  simp only [replayFinalizationSafe, finalizationReplayBase_order o o' h]

end

theorem finalizationEligible_order (o o' : FoldOrder) {st : NodeState} (h : Keyed st.clock) :
    @finalizationEligible o st = @finalizationEligible o' st := by
  ext id
  simp only [finalizationEligible, Finset.mem_filter, replayFinalizationSafe_order o o' h]

theorem anchoredFold_congr [FoldOrder] {clock clock' : Clock} {ids : Finset EventID}
    (hsame : ∀ id ∈ ids, clock'.get id = clock.get id) (start : ProllyRootHash) :
    anchoredFold ids clock' start = anchoredFold ids clock start := by
  have hsort : sortEventIDsByHLC ids clock' = sortEventIDsByHLC ids clock := by
    refine sortList_congr fun a ha b hb => ?_
    rw [hsame a ((Enumeration.mem_list _ _ _).mp ha), hsame b ((Enumeration.mem_list _ _ _).mp hb)]
  rw [anchoredFold, anchoredFold, hsort]
  refine List.foldl_ext _ _ _ fun acc id hid => ?_
  simp only [anchoredStep, hsame id ((mem_sortEventIDsByHLC _ _ _).mp hid)]

theorem anchoredFold_empty [FoldOrder] (clock : Clock) (start : ProllyRootHash) :
    anchoredFold ∅ clock start = (start, ∅) := by
  have hnil : FoldOrder.events.list (∅ : Finset EventID) = [] :=
    List.eq_nil_iff_forall_not_mem.mpr fun id hid =>
      Finset.notMem_empty id ((Enumeration.mem_list _ _ _).mp hid)
  simp only [anchoredFold, sortEventIDsByHLC, hnil, sortList, List.foldl_nil]

theorem finalizationReplayBase_of_parents [FoldOrder] {clock : Clock} {id : EventID}
    (hpar : finalizationReplayParents (clock.get id) ⊆ clock.keys) :
    finalizationReplayBase clock id =
      let folded := anchoredFold (finalizationReplayParents (clock.get id)) clock
        (clock.get id).anchorProllyRootHash
      if folded.2 = ∅ then folded.1 else conflictHash := by
  simp only [finalizationReplayBase, hpar, not_true_eq_false, if_false]
  split
  · rename_i hnone
    rw [hnone, anchoredFold_empty, if_pos rfl]
  · rfl

theorem finalizationReplayBase_subMap (o o' : FoldOrder) {clock clock' : Clock}
    (hk : Keyed clock) (hsub : Map.SubMap clock clock') {id : EventID} (hid : id ∈ clock.keys)
    (hne : @finalizationReplayBase o clock id ≠ conflictHash) :
    @finalizationReplayBase o' clock' id = @finalizationReplayBase o clock id := by
  rw [finalizationReplayBase_order o o' hk] at hne ⊢
  have hget : clock'.get id = clock.get id := (hsub.get_eq hid).symm
  by_cases hpar : finalizationReplayParents (clock.get id) ⊆ clock.keys
  · have hpar' : finalizationReplayParents (clock'.get id) ⊆ clock'.keys :=
      hget ▸ hpar.trans hsub.keys_subset
    have hsame := @anchoredFold_congr o' _ _ (finalizationReplayParents (clock.get id))
      fun x hx => (hsub.get_eq (hpar hx)).symm
    rw [@finalizationReplayBase_of_parents o' _ _ hpar',
      @finalizationReplayBase_of_parents o' _ _ hpar, hget, hsame]
  · -- without all its parents the event has no replay base
    have hempty : finalizationReplayParents (clock.get id) ≠ ∅ := by
      intro h
      exact hpar (h ▸ Finset.empty_subset _)
    refine absurd ?_ hne
    simp only [finalizationReplayBase, hempty, hpar, not_false_eq_true, if_true, if_false]

/-! ## What the projection reads -/

/-- The parked heads that a projection takes over because they are not ready. -/
def retainedUnreadyParked (st : NodeState) : Finset EventID :=
  st.parkedConflicts ∩ (tentativeHeadEventIDs st \ mergeableHeadEventIDs st)

/-- The inputs in which two peers are compared; heads are a function of the clock. -/
def sameTentativeProjectionInputs (s1 s2 : NodeState) : Prop :=
  s1.clock = s2.clock ∧ s1.chunksReady = s2.chunksReady ∧
  s1.finalizedProllyRootHash = s2.finalizedProllyRootHash ∧
  s1.finalizedEvents = s2.finalizedEvents

instance (s1 s2 : NodeState) : Decidable (sameTentativeProjectionInputs s1 s2) :=
  inferInstanceAs (Decidable (_ ∧ _))

theorem mem_replayUnsafeEligibleHeads [FoldOrder] {st : NodeState} {ready : Finset EventID}
    {id : EventID} : id ∈ replayUnsafeEligibleHeads st ready ↔
      id ∈ ready ∧ id ∉ subsumedEvents st.clock ∧
      (st.clock.get id).parentEventIds ⊆ st.finalizedEvents.keys ∧
      ¬replayFinalizationSafe st id := Finset.mem_filter

theorem mergeable_subset_tentative (st : NodeState) :
    mergeableHeadEventIDs st ⊆ tentativeHeadEventIDs st := Finset.filter_subset _ _

section

variable [FoldOrder] {st st' : NodeState}

theorem projection_of_no_head (h : tentativeHeadEventIDs st = ∅) :
    computeTentativeProjection st = (st.finalizedProllyRootHash, ∅, ∅) := by
  simp only [computeTentativeProjection, h, if_true]

theorem projection_of_unready (h : tentativeHeadEventIDs st ≠ ∅)
    (hready : mergeableHeadEventIDs st = ∅) :
    computeTentativeProjection st = (st.tentativeProllyRootHash,
      st.parkedConflicts ∩ tentativeHeadEventIDs st,
      st.projectionBasis ∩ tentativeHeadEventIDs st) := by
  simp only [computeTentativeProjection, h, hready, if_true, if_false]

/-- The heads that a projection merges. -/
def projectionReadyHeads (st : NodeState) : Finset EventID :=
  mergeableHeadEventIDs st \ replayUnsafeEligibleHeads st (mergeableHeadEventIDs st)

theorem projection_of_ready (hready : mergeableHeadEventIDs st ≠ ∅) :
    computeTentativeProjection st =
      let folded := anchoredFold (projectionReadyHeads st) st.clock st.finalizedProllyRootHash
      (folded.1, folded.2 ∪ retainedUnreadyParked st ∪
        replayUnsafeEligibleHeads st (mergeableHeadEventIDs st),
        projectionReadyHeads st \ folded.2) := by
  have hne : tentativeHeadEventIDs st ≠ ∅ := by
    intro h
    exact hready (Finset.subset_empty.mp (h ▸ mergeable_subset_tentative st))
  simp only [computeTentativeProjection, hne, hready, if_false, projectionReadyHeads,
    retainedUnreadyParked]

theorem projectionReadyHeads_subset (st : NodeState) :
    projectionReadyHeads st ⊆ mergeableHeadEventIDs st := Finset.sdiff_subset

theorem replayUnsafe_subset (st : NodeState) (ready : Finset EventID) :
    replayUnsafeEligibleHeads st ready ⊆ ready := Finset.filter_subset _ _

/-- With heads to merge, or none at all, the old outputs count only through the parked heads
that are taken over. -/
theorem projection_congr (hin : sameTentativeProjectionInputs st st')
    (hheads : st.headEventIds = st'.headEventIds)
    (hret : retainedUnreadyParked st = retainedUnreadyParked st')
    (hlive : tentativeHeadEventIDs st = ∅ ∨ mergeableHeadEventIDs st ≠ ∅) :
    computeTentativeProjection st = computeTentativeProjection st' := by
  obtain ⟨hclock, hready, hroot, hfin⟩ := hin
  have hT : tentativeHeadEventIDs st = tentativeHeadEventIDs st' := by
    simp only [tentativeHeadEventIDs, hheads, hfin]
  have hR : mergeableHeadEventIDs st = mergeableHeadEventIDs st' := by
    simp only [mergeableHeadEventIDs, hT, hclock, hready]
  have hU : replayUnsafeEligibleHeads st (mergeableHeadEventIDs st) =
      replayUnsafeEligibleHeads st' (mergeableHeadEventIDs st') := by
    ext id
    simp only [mem_replayUnsafeEligibleHeads, replayFinalizationSafe, hR, hclock, hroot, hfin]
  have hP : projectionReadyHeads st = projectionReadyHeads st' := by
    rw [projectionReadyHeads, projectionReadyHeads, hU, hR]
  rcases hlive with hnone | hmerge
  · rw [projection_of_no_head hnone, projection_of_no_head (hT ▸ hnone), hroot]
  · rw [projection_of_ready hmerge, projection_of_ready (hR ▸ hmerge), hP, hU, hret, hclock,
      hroot]

theorem retained_reconcile (st : NodeState) :
    retainedUnreadyParked (reconcileResult st) = retainedUnreadyParked st := by
  change (computeTentativeProjection st).2.1 ∩
    (tentativeHeadEventIDs st \ mergeableHeadEventIDs st) = retainedUnreadyParked st
  by_cases hnone : tentativeHeadEventIDs st = ∅
  · simp [retainedUnreadyParked, hnone]
  · by_cases hready : mergeableHeadEventIDs st = ∅
    · rw [projection_of_unready hnone hready, retainedUnreadyParked, Finset.inter_assoc,
        Finset.inter_eq_right.mpr Finset.sdiff_subset]
    · rw [projection_of_ready hready]
      have hfold := (anchoredFold_conflicts_subset (projectionReadyHeads st) st.clock
        st.finalizedProllyRootHash).trans (projectionReadyHeads_subset st)
      have hblocked := replayUnsafe_subset st (mergeableHeadEventIDs st)
      ext id
      simp only [retainedUnreadyParked, Finset.mem_inter, Finset.mem_union, Finset.mem_sdiff]
      constructor
      · rintro ⟨(hid | hid) | hid, hlag⟩
        · exact absurd (hfold hid) hlag.2
        · exact hid
        · exact absurd (hblocked hid) hlag.2
      · exact fun hid => ⟨Or.inl (Or.inr hid), hid.2⟩

theorem projection_idempotent (st : NodeState) :
    computeTentativeProjection (reconcileResult st) = computeTentativeProjection st := by
  by_cases hlag : tentativeHeadEventIDs st ≠ ∅ ∧ mergeableHeadEventIDs st = ∅
  · -- nothing is ready: the outputs are cut down to the heads, which a second cut keeps
    have hheads : tentativeHeadEventIDs (reconcileResult st) ≠ ∅ := hlag.1
    rw [projection_of_unready hheads hlag.2]
    simp only [reconcileResult, applyTentativeProjection, projection_of_unready hlag.1 hlag.2]
    change (_, _ ∩ tentativeHeadEventIDs st ∩ tentativeHeadEventIDs st,
      _ ∩ tentativeHeadEventIDs st ∩ tentativeHeadEventIDs st) = _
    simp only [Finset.inter_assoc, Finset.inter_self]
  · refine projection_congr ⟨rfl, rfl, rfl, rfl⟩ rfl (retained_reconcile st) ?_
    change tentativeHeadEventIDs st = ∅ ∨ mergeableHeadEventIDs st ≠ ∅
    by_cases hnone : tentativeHeadEventIDs st = ∅
    · exact Or.inl hnone
    · exact Or.inr fun hready => hlag ⟨hnone, hready⟩

end

theorem projection_order (o o' : FoldOrder) {st : NodeState} (h : Keyed st.clock)
    (hheads : st.headEventIds ⊆ st.clock.keys) :
    @computeTentativeProjection o st = @computeTentativeProjection o' st := by
  have hblocked : @replayUnsafeEligibleHeads o st (mergeableHeadEventIDs st) =
      @replayUnsafeEligibleHeads o' st (mergeableHeadEventIDs st) := by
    ext id
    simp only [mem_replayUnsafeEligibleHeads, replayFinalizationSafe_order o o' h]
  have hkeys : mergeableHeadEventIDs st \
      @replayUnsafeEligibleHeads o' st (mergeableHeadEventIDs st) ⊆ st.clock.keys :=
    Finset.sdiff_subset.trans ((mergeable_subset_tentative st).trans
      (Finset.sdiff_subset.trans hheads))
  simp only [computeTentativeProjection, hblocked, anchoredFold_order o o' h hkeys]

/-! ## The invariant -/

/-- Projecting again, in any order, changes nothing, and the own frontier is that of the clock. -/
structure Settled (p : PeerID) (st : NodeState) : Prop where
  projected : ∀ o : FoldOrder, @computeTentativeProjection o st =
    (st.tentativeProllyRootHash, st.parkedConflicts, st.projectionBasis)
  frontier : st.peerSeenFrontier.get p = observedFrontier st.clock

structure SettledInv (s : State) : Prop extends LedgerInv s where
  settled : ∀ p ∈ peers, Settled p (s.nodes.get p)

theorem settled_reconcile [o : FoldOrder] {p : PeerID} {st : NodeState} (hk : Keyed st.clock)
    (hheads : st.headEventIds = computeHeadEventIDs st.clock)
    (hfrontier : st.peerSeenFrontier.get p = observedFrontier st.clock) :
    Settled p (reconcileResult st) where
  projected := by
    have hkeys : (reconcileResult st).headEventIds ⊆ (reconcileResult st).clock.keys := by
      rw [reconcileResult_headEventIds, hheads]
      exact computeHeadEventIDs_subset _
    have hkeyed : Keyed (reconcileResult st).clock := hk
    intro o'
    rw [projection_order o' o hkeyed hkeys, @projection_idempotent o]
    rfl
  frontier := hfrontier

/-- The own frontier may as well be set before the last projection of SYNC_FINALIZED. -/
theorem syncResult_eq [FoldOrder] (p : PeerID) (stLocal stRemote : NodeState) :
    ∃ clock ready, HydratedFrom stLocal stRemote clock ∧
      syncResult p stLocal stRemote =
        reconcileResult { withClock (syncFinalizedCoreResult stLocal stRemote) clock ready with
          peerSeenFrontier := (syncFinalizedCoreResult stLocal stRemote).peerSeenFrontier.put p
            (observedFrontier clock) } := by
  obtain ⟨clock, ready, hy, heq⟩ := applySyncFinalizedResult_eq stLocal stRemote
  refine ⟨clock, ready, hy, ?_⟩
  rw [syncResult, heq]
  rfl

theorem Settled.congr {p : PeerID} {st st' : NodeState} (h : Settled p st)
    (hin : sameTentativeProjectionInputs st' st) (hheads : st'.headEventIds = st.headEventIds)
    (hroot : st'.tentativeProllyRootHash = st.tentativeProllyRootHash)
    (hparked : st'.parkedConflicts = st.parkedConflicts)
    (hbasis : st'.projectionBasis = st.projectionBasis)
    (hfrontier : st'.peerSeenFrontier.get p = st.peerSeenFrontier.get p) : Settled p st' := by
  obtain ⟨hclock, hready, hfroot, hfin⟩ := hin
  refine ⟨fun o => ?_, ?_⟩
  · have hsame : @computeTentativeProjection o st' = @computeTentativeProjection o st := by
      cases st
      cases st'
      simp only at hclock hready hfroot hfin hheads hroot hparked hbasis
      subst hclock hready hfroot hfin hheads hroot hparked hbasis
      rfl
    rw [hsame, h.projected o, hroot, hparked, hbasis]
  · rw [hfrontier, h.frontier, hclock]

theorem Settled.parked_subset {p : PeerID} {st : NodeState} (h : Settled p st) :
    st.parkedConflicts ⊆ tentativeHeadEventIDs st := by
  have hsub := (@projection_subset ascendingFolds st).1
  rw [h.projected ascendingFolds] at hsub
  exact hsub

theorem Settled.basis_subset {p : PeerID} {st : NodeState} (h : Settled p st) :
    st.projectionBasis ⊆ tentativeHeadEventIDs st := by
  have hsub := (@projection_subset ascendingFolds st).2
  rw [h.projected ascendingFolds] at hsub
  exact hsub

theorem settledInv_init : SettledInv init where
  toLedgerInv := ledgerInv_init
  settled := by
    intro p hp
    have hget : init.nodes.get p = emptyNodeState p := Map.get_mapBy_of_mem _ hp
    rw [hget]
    exact ⟨fun o => projection_of_no_head (by simp [tentativeHeadEventIDs, emptyNodeState]),
      Map.get_mapBy_of_mem _ hp⟩

theorem settledInv_effect [FoldOrder] {s s' : State} {a : Action} (h : SettledInv s)
    (heff : Effect s a s') : SettledInv s' := by
  have hledger := ledgerInv_effect h.toLedgerInv heff
  refine ⟨hledger, ?_⟩
  have hput : ∀ p st, s'.nodes = s.nodes.put p st → Settled p st →
      ∀ q ∈ peers, Settled q (s'.nodes.get q) := by
    intro p st hnodes hst
    rw [hnodes]
    exact Map.forall_get_put (P := Settled) h.settled hst
  -- a step that ends in a projection, with the own frontier read off the new clock
  have hproject : ∀ p st, p ∈ peers → s'.nodes = s.nodes.put p (reconcileResult st) →
      st.peerSeenFrontier.get p = observedFrontier st.clock →
      ∀ q ∈ peers, Settled q (s'.nodes.get q) := by
    intro p st hp hnodes hfrontier
    have hk := hledger.keyed hp
    have hok := hledger.node p hp
    rw [hnodes, Map.get_put_self] at hk hok
    exact hput p _ hnodes (settled_reconcile hk hok.heads hfrontier)
  cases heff with
  | emit p e hp _ _ => exact hproject p _ hp rfl (Map.get_put_self _ _ _)
  | receive p e hp _ => exact hproject p _ hp rfl (Map.get_put_self _ _ _)
  | touch p st hp ht =>
    have hst := h.settled p hp
    cases ht with
    | chunksReady id _ _ => exact hproject p _ hp rfl hst.frontier
    | reconcile _ => exact hproject p _ hp rfl hst.frontier
    | tick _ => exact hput p _ rfl (hst.congr ⟨rfl, rfl, rfl, rfl⟩ rfl rfl rfl rfl rfl)
    | evict q _ _ _ _ => exact hput p _ rfl (hst.congr ⟨rfl, rfl, rfl, rfl⟩ rfl rfl rfl rfl rfl)
  | heartbeat p q hp _ hne _ =>
    exact hput p _ rfl ((h.settled p hp).congr ⟨rfl, rfl, rfl, rfl⟩ rfl rfl rfl rfl
      (Map.get_put_of_ne _ _ hne))
  | finalize p hp he =>
    have hfrontier := (h.settled p hp).frontier
    rcases finalizeResult_cases _ he with ⟨_, heq⟩ | ⟨_, _, heq⟩
    · exact hproject p _ hp (congrArg (s.nodes.put p) heq) hfrontier
    · refine hproject p _ hp (congrArg (s.nodes.put p) heq) ?_
      rw [replayNextEvent_frame]
      exact hfrontier
  | gc p id hp _ => exact hproject p _ hp rfl (Map.get_put_self _ _ _)
  | sync p q hp hq _ =>
    obtain ⟨clock, ready, _, heq⟩ := syncResult_eq p (s.nodes.get p) (s.nodes.get q)
    exact hproject p _ hp (congrArg (s.nodes.put p) heq) (Map.get_put_self _ _ _)
  | network conn _ => exact h.settled

theorem settledInv_of_reachable {s : State} (h : Reachable Step init s) : SettledInv s :=
  invariant_of_effect settledInv_init
    (fun o _ _ _ hI heff => @settledInv_effect o _ _ _ hI heff) h

theorem reconcileResult_of_settled (o : FoldOrder) {p : PeerID} {st : NodeState}
    (h : Settled p st) : @reconcileResult o st = st := by
  rw [reconcileResult, h.projected o, applyTentativeProjection]

/-- What a peer stores is what the projection computes from it, so RECONCILE has nothing to
do. -/
theorem projection_is_fixed_point {s : State} (h : Reachable Step init s) {p : PeerID}
    (hp : p ∈ peers) (o : FoldOrder) :
    let st := s.nodes.get p
    @computeTentativeProjection o st =
      (st.tentativeProllyRootHash, st.parkedConflicts, st.projectionBasis) ∧
    st.headEventIds = computeHeadEventIDs st.clock ∧
    st.peerSeenFrontier.get p = observedFrontier st.clock ∧
    @reconcileResult o st = st ∧ ¬@reconcileEnabled o st := by
  intro st
  have hinv := settledInv_of_reachable h
  have hst := hinv.settled p hp
  have hsame := reconcileResult_of_settled o hst
  refine ⟨hst.projected o, (hinv.node p hp).heads, hst.frontier, hsame, fun he => ?_⟩
  simp only [reconcileEnabled] at he
  rw [hsame] at he
  exact he.2.elim (fun hne => hne rfl) fun hne => hne rfl

/-- Peer 1 has parked the later of two conflicting writes; peer 2 lacks the chunks of the
other one. -/
def conflictRun : List Action :=
  let first := writtenEvent (emptyNodeState 1) 1 11
  let second := writtenEvent (emptyNodeState 2) 2 14
  [.write 1 11, .write 2 14, .receive 1 second, .chunksReady 1 second.eventId,
    .receive 2 first]

def conflictState : State := (runOutcome conflictRun).2

theorem conflictRun_runs : Run Step init (runOutcome conflictRun).1 conflictState :=
  run_runOutcome (by decide +kernel)

theorem projection_is_fixed_point_on_conflict :
    (conflictState.nodes.get 1).parkedConflicts = {⟨2, 1, 1⟩} ∧
    @computeTentativeProjection ascendingFolds (conflictState.nodes.get 1) =
      ((conflictState.nodes.get 1).tentativeProllyRootHash,
        (conflictState.nodes.get 1).parkedConflicts,
        (conflictState.nodes.get 1).projectionBasis) :=
  ⟨by decide +kernel, (projection_is_fixed_point ⟨_, conflictRun_runs⟩ (by decide)
    ascendingFolds).1⟩

end DoltSwarm.Protocol
