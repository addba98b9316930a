import DoltSwarm.Protocol.Delivery
import DoltSwarm.Protocol.SeenFrontier

/-!
# Garbage collection is not seen

GC_CLOCK drops a finalized event that no other event builds on. What the peer computes from its
clock afterwards starts from other heads, another own frontier and, if the event resolved a parked
head, from other resolution links. All of these differ only in finalized ids, a closure that
starts from finalized ids stays among them, and every computation whose result matters is about
ids that are not finalized.
-/

namespace DoltSwarm.Protocol

open Lib

set_option autoImplicit false

/-- Projection, heads and own frontier are up to date, and finalized events that are still in the
clock have finalized parents. -/
structure GcReady [FoldOrder] (p : PeerID) (st : NodeState) : Prop where
  projected : computeTentativeProjection st =
    (st.tentativeProllyRootHash, st.parkedConflicts, st.projectionBasis)
  heads : st.headEventIds = computeHeadEventIDs st.clock
  frontier : st.peerSeenFrontier.get p = observedFrontier st.clock
  finalized : ∀ id ∈ retainedFinalizedEventIDs st,
    (st.clock.get id).parentEventIds ⊆ st.finalizedEvents.keys

/-- What a peer must not notice when `x` goes, with `st` before and `st'` after. -/
structure GcInvisible [FoldOrder] (st st' : NodeState) (x : EventID) : Prop where
  removed : st'.clock.keys = st.clock.keys.erase x
  kept : ∀ id ∈ st.clock.keys, id ≠ x → st'.clock.lookup id = st.clock.lookup id ∧
    (id ∈ st'.chunksReady ↔ id ∈ st.chunksReady)
  closed : ∀ id ∈ st.clock.keys, id ≠ x → (isParentClosed st'.clock id ↔ isParentClosed st.clock id)
  root : st'.tentativeProllyRootHash = st.tentativeProllyRootHash
  parked : st'.parkedConflicts = st.parkedConflicts
  basis : st'.projectionBasis = st.projectionBasis
  eligible : finalizationEligible st' = finalizationEligible st

/-! ## The clock without the event -/

theorem mem_keys_dropEvent {clock : Clock} {x id : EventID} :
    id ∈ (dropEvent clock x).keys ↔ id ∈ clock.keys ∧ id ≠ x := by
  rw [dropEvent, Map.keys_removeAll, Finset.mem_sdiff, Finset.mem_singleton]

theorem lookup_dropEvent {clock : Clock} {x id : EventID} (hne : id ≠ x) :
    (dropEvent clock x).lookup id = clock.lookup id := by
  rw [dropEvent, Map.lookup_removeAll, if_neg (Finset.notMem_singleton.mpr hne)]

theorem get_dropEvent {clock : Clock} {x id : EventID} (hne : id ≠ x) :
    (dropEvent clock x).get id = clock.get id := by
  rw [Map.get, Map.get, lookup_dropEvent hne]

theorem mem_ancestorIdClosure_of_seed {seed : Finset EventID} {clock : Clock} {id : EventID} :
    id ∈ ancestorIdClosure seed clock ↔ ∃ a ∈ seed, id ∈ ancestorIdClosure {a} clock :=
  mem_unrolledClosure_iff_of_seed

theorem frontierCovers_iff_mem_closure {clock : Clock} {frontier : Finset EventID}
    {id : EventID} :
    frontierCovers clock frontier id ↔ id ∈ ancestorIdClosure (frontier ∩ clock.keys) clock := by
  rw [mem_ancestorIdClosure_of_seed]
  simp only [frontierCovers, Finset.mem_inter, and_assoc]

theorem mem_resolvedParkedRoots {clock : Clock} {id : EventID} :
    id ∈ resolvedParkedRoots clock ↔
      ∃ e ∈ clock.keys, (clock.get e).resolvedParkedEventId = some id := by
  simp only [resolvedParkedRoots, Finset.mem_biUnion]
  refine exists_congr fun e => and_congr_right fun _ => ?_
  cases (clock.get e).resolvedParkedEventId with
  | none => simp
  | some pid => simp [eq_comm]

theorem mem_finalizationCandidates {st : NodeState} {id : EventID} :
    id ∈ finalizationCandidates st ↔ id ∈ st.clock.keys ∧ id ∉ st.finalizedEvents.keys ∧
      id ∉ parkedBranchEvents st ∧ isParentClosed st.clock id ∧ id ∈ st.chunksReady ∧
      coveredByActivePeers st id := Finset.mem_filter

theorem mem_finalizationEligible [FoldOrder] {st : NodeState} {id : EventID} :
    id ∈ finalizationEligible st ↔ id ∈ finalizationCandidates st ∧
      (st.clock.get id).parentEventIds ⊆ st.finalizedEvents.keys ∧
      (id ∈ subsumedEvents st.clock ∨ replayFinalizationSafe st id) := Finset.mem_filter

section Dropped

variable {st : NodeState} {x : EventID} (hx : x ∈ gcPruneable st)

include hx

theorem ne_of_not_finalized {id : EventID} (hid : id ∉ st.finalizedEvents.keys) : id ≠ x := by
  rintro rfl
  exact hid (mem_finalized_of_gcPruneable hx)

theorem notMem_closure_of_gcPruneable {id : EventID} (hne : id ≠ x) :
    x ∉ ancestorIdClosure {id} st.clock := by
  intro hmem
  by_cases hid : id ∈ st.clock.keys
  · exact (Finset.mem_filter.mp hx).2 ⟨id, hid, hne, hmem⟩
  · -- an id without an event has no links to follow
    have hsub : ancestorIdClosure {id} st.clock ⊆ {id} := by
      apply unrolledClosure_subset (Finset.Subset.refl _)
      intro a ha
      rw [Finset.mem_singleton.mp ha, clockParents, if_neg hid]
      exact Finset.empty_subset _
    exact hne (Finset.mem_singleton.mp (hsub hmem)).symm

theorem notMem_clockParents_of_gcPruneable {id : EventID} (hne : id ≠ x) :
    x ∉ clockParents st.clock id := fun hlink =>
  notMem_closure_of_gcPruneable hx hne
    (next_subset_unrolledClosure (by decide) (Finset.mem_singleton_self id) hlink)

theorem ancestorIdClosure_dropEvent {id : EventID} (hne : id ≠ x) :
    ancestorIdClosure {id} (dropEvent st.clock x) = ancestorIdClosure {id} st.clock := by
  apply unrolledClosure_congr
  intro y hy
  apply clockParents_congr
  apply lookup_dropEvent
  rintro rfl
  exact notMem_closure_of_gcPruneable hx hne hy

theorem isParentClosed_dropEvent {id : EventID} (hne : id ≠ x) :
    isParentClosed (dropEvent st.clock x) id ↔ isParentClosed st.clock id := by
  constructor
  · rintro ⟨hid, hsub⟩
    rw [ancestorIdClosure_dropEvent hx hne] at hsub
    exact ⟨(mem_keys_dropEvent.mp hid).1, fun y hy => (mem_keys_dropEvent.mp (hsub hy)).1⟩
  · intro h
    exact isParentClosed_drop h hx hne

end Dropped

/-! ## Ids that are not finalized -/

section Finalized

variable {st : NodeState} {x : EventID}
  (hfinal : ∀ id ∈ retainedFinalizedEventIDs st,
    (st.clock.get id).parentEventIds ⊆ st.finalizedEvents.keys)

include hfinal

theorem clockParents_subset_finalized {id : EventID} (hid : id ∈ st.finalizedEvents.keys) :
    clockParents st.clock id ⊆ st.finalizedEvents.keys := by
  rw [clockParents]
  split
  · rename_i hmem
    exact hfinal id (Finset.mem_inter.mpr ⟨hid, hmem⟩)
  · exact Finset.empty_subset _

theorem ancestorIdClosure_subset_finalized {id : EventID} (hid : id ∈ st.finalizedEvents.keys) :
    ancestorIdClosure {id} st.clock ⊆ st.finalizedEvents.keys :=
  unrolledClosure_subset (Finset.singleton_subset_iff.mpr hid)
    (fun _ ha => clockParents_subset_finalized hfinal ha) maxEvents

variable (hx : x ∈ gcPruneable st)

include hx

theorem mem_closure_dropEvent_iff {seed seed' : Finset EventID}
    (hseed : ∀ id ∉ st.finalizedEvents.keys, id ∈ seed' ↔ id ∈ seed) {id : EventID}
    (hid : id ∉ st.finalizedEvents.keys) :
    id ∈ ancestorIdClosure seed' (dropEvent st.clock x) ↔ id ∈ ancestorIdClosure seed st.clock := by
  have hsub : ∀ a, ancestorIdClosure {a} (dropEvent st.clock x) ⊆ ancestorIdClosure {a} st.clock :=
    fun a => unrolledClosure_mono_next maxEvents
      (clockParents_subMap (Map.subMap_removeAll st.clock {x})) {a}
  have hlive : ∀ {a}, id ∈ ancestorIdClosure {a} st.clock → a ∉ st.finalizedEvents.keys :=
    fun hmem ha => hid (ancestorIdClosure_subset_finalized hfinal ha hmem)
  rw [mem_ancestorIdClosure_of_seed, mem_ancestorIdClosure_of_seed]
  constructor
  · rintro ⟨a, ha, hmem⟩
    have hmem' := hsub a hmem
    exact ⟨a, (hseed a (hlive hmem')).mp ha, hmem'⟩
  · rintro ⟨a, ha, hmem⟩
    refine ⟨a, (hseed a (hlive hmem)).mpr ha, ?_⟩
    rw [ancestorIdClosure_dropEvent hx (ne_of_not_finalized hx (hlive hmem))]
    exact hmem

theorem mem_heads_dropEvent_iff {id : EventID} (hid : id ∉ st.finalizedEvents.keys) :
    id ∈ computeHeadEventIDs (dropEvent st.clock x) ↔ id ∈ computeHeadEventIDs st.clock := by
  have hne := ne_of_not_finalized hx hid
  rw [mem_computeHeadEventIDs, mem_computeHeadEventIDs, mem_keys_dropEvent, and_iff_left hne]
  refine and_congr_right fun _ => ?_
  constructor
  · intro h child hchild hlink
    have hchildne : child ≠ x := by
      rintro rfl
      exact hid (hfinal child (Finset.mem_filter.mp hx).1 hlink)
    apply h child (mem_keys_dropEvent.mpr ⟨hchild, hchildne⟩)
    rw [get_dropEvent hchildne]
    exact hlink
  · intro h child hchild hlink
    obtain ⟨hmem, hchildne⟩ := mem_keys_dropEvent.mp hchild
    rw [get_dropEvent hchildne] at hlink
    exact h child hmem hlink

theorem mem_observedFrontier_dropEvent_iff {id : EventID} (hid : id ∉ st.finalizedEvents.keys) :
    id ∈ observedFrontier (dropEvent st.clock x) ↔ id ∈ observedFrontier st.clock := by
  have hne := ne_of_not_finalized hx hid
  rw [mem_observedFrontier, mem_observedFrontier, isParentClosed_dropEvent hx hne]
  refine and_congr_right fun _ => ?_
  constructor
  · intro h child hclosed hlink
    have hchild : child ≠ x := by
      rintro rfl
      exact hid (clockParents_subset_finalized hfinal (mem_finalized_of_gcPruneable hx) hlink)
    apply h child ((isParentClosed_dropEvent hx hchild).mpr hclosed)
    rw [clockParents_congr (lookup_dropEvent hchild)]
    exact hlink
  · intro h child hclosed hlink
    have hchild : child ≠ x := (mem_keys_dropEvent.mp hclosed.1).2
    apply h child ((isParentClosed_dropEvent hx hchild).mp hclosed)
    rw [← clockParents_congr (lookup_dropEvent hchild)]
    exact hlink

theorem mem_subsumedEvents_dropEvent_iff
    (hresolved : ∀ pid ∈ (st.clock.get x).resolvedParkedEventId,
      pid ∈ (st.clock.get x).parentEventIds)
    {id : EventID} (hid : id ∉ st.finalizedEvents.keys) :
    id ∈ subsumedEvents (dropEvent st.clock x) ↔ id ∈ subsumedEvents st.clock := by
  refine mem_closure_dropEvent_iff hfinal hx (fun pid hpid => ?_) hid
  rw [mem_resolvedParkedRoots, mem_resolvedParkedRoots]
  constructor
  · rintro ⟨e, he, hlink⟩
    obtain ⟨hmem, hne⟩ := mem_keys_dropEvent.mp he
    rw [get_dropEvent hne] at hlink
    exact ⟨e, hmem, hlink⟩
  · rintro ⟨e, he, hlink⟩
    -- the head that `x` resolves is a parent of `x`, hence finalized
    have hne : e ≠ x := by
      rintro rfl
      exact hpid (hfinal e (Finset.mem_filter.mp hx).1 (hresolved pid hlink))
    refine ⟨e, mem_keys_dropEvent.mpr ⟨he, hne⟩, ?_⟩
    rw [get_dropEvent hne]
    exact hlink

theorem frontierCovers_dropEvent_iff {frontier frontier' : Finset EventID}
    (hfrontier : ∀ id ∉ st.finalizedEvents.keys, id ∈ frontier' ↔ id ∈ frontier)
    {id : EventID} (hid : id ∉ st.finalizedEvents.keys) :
    frontierCovers (dropEvent st.clock x) frontier' id ↔ frontierCovers st.clock frontier id := by
  rw [frontierCovers_iff_mem_closure, frontierCovers_iff_mem_closure]
  refine mem_closure_dropEvent_iff hfinal hx (fun fid hfid => ?_) hid
  rw [Finset.mem_inter, Finset.mem_inter, hfrontier fid hfid, mem_keys_dropEvent,
    and_iff_left (ne_of_not_finalized hx hfid)]

end Finalized

theorem finalizationReplayParents_subset (e : Event) :
    finalizationReplayParents e ⊆ e.parentEventIds := by
  unfold finalizationReplayParents
  split
  · exact Finset.sdiff_subset
  · exact Finset.Subset.refl _

section Replay

variable [FoldOrder] {st : NodeState} {x : EventID} (hx : x ∈ gcPruneable st)

include hx

theorem finalizationReplayBase_dropEvent {id : EventID} (hid : id ∈ st.clock.keys) (hne : id ≠ x) :
    finalizationReplayBase (dropEvent st.clock x) id = finalizationReplayBase st.clock id := by
  have hparents : ∀ y ∈ finalizationReplayParents (st.clock.get id), y ≠ x := by
    rintro y hy rfl
    apply notMem_clockParents_of_gcPruneable hx hne
    rw [clockParents, if_pos hid]
    exact finalizationReplayParents_subset _ hy
  have hkeys : finalizationReplayParents (st.clock.get id) ⊆ (dropEvent st.clock x).keys ↔
      finalizationReplayParents (st.clock.get id) ⊆ st.clock.keys := by
    constructor
    · exact fun h y hy => (mem_keys_dropEvent.mp (h hy)).1
    · exact fun h y hy => mem_keys_dropEvent.mpr ⟨h hy, hparents y hy⟩
  have hget : ∀ y ∈ finalizationReplayParents (st.clock.get id),
      (dropEvent st.clock x).get y = st.clock.get y :=
    fun y hy => get_dropEvent (hparents y hy)
  have hfold := anchoredFold_congr hget (st.clock.get id).anchorProllyRootHash
  simp only [finalizationReplayBase, get_dropEvent hne, hkeys, hfold]

end Replay

/-! ## The collected state -/

theorem mem_chunksReady_gcBase (p : PeerID) {st : NodeState} {x id : EventID}
    (hid : id ∈ st.clock.keys) (hne : id ≠ x) :
    id ∈ (gcBaseResult st p x).chunksReady ↔ id ∈ st.chunksReady := by
  change id ∈ st.chunksReady ∩ (dropEvent st.clock x).keys ↔ _
  rw [Finset.mem_inter, mem_keys_dropEvent, and_iff_left ⟨hid, hne⟩]

theorem replayFinalizationSafe_gcBase [FoldOrder] (p : PeerID) {st : NodeState} {x id : EventID}
    (hx : x ∈ gcPruneable st) (hid : id ∈ st.clock.keys) (hne : id ≠ x) :
    replayFinalizationSafe (gcBaseResult st p x) id ↔ replayFinalizationSafe st id := by
  change (finalizationReplayBase (dropEvent st.clock x) id ≠ conflictHash ∧
    mergeRoots st.finalizedProllyRootHash ((dropEvent st.clock x).get id).prollyRootHash
      (finalizationReplayBase (dropEvent st.clock x) id) ≠ conflictHash) ↔ _
  rw [finalizationReplayBase_dropEvent hx hid hne, get_dropEvent hne]
  rfl

section Collected

variable [FoldOrder] {p : PeerID} {st : NodeState} {x : EventID} (h : GcReady p st)
  (hx : x ∈ gcPruneable st)

include h hx

theorem tentativeHeads_gcBase :
    tentativeHeadEventIDs (gcBaseResult st p x) = tentativeHeadEventIDs st := by
  change computeHeadEventIDs (dropEvent st.clock x) \ st.finalizedEvents.keys =
    st.headEventIds \ st.finalizedEvents.keys
  rw [h.heads]
  ext id
  rw [Finset.mem_sdiff, Finset.mem_sdiff]
  exact and_congr_left fun hid => mem_heads_dropEvent_iff h.finalized hx hid

theorem tentativeHead_live {id : EventID} (hid : id ∈ tentativeHeadEventIDs st) :
    id ∈ st.clock.keys ∧ id ∉ st.finalizedEvents.keys ∧ id ≠ x := by
  obtain ⟨hhead, hfin⟩ := Finset.mem_sdiff.mp hid
  rw [h.heads] at hhead
  exact ⟨computeHeadEventIDs_subset _ hhead, hfin, ne_of_not_finalized hx hfin⟩

theorem mergeableHeads_gcBase :
    mergeableHeadEventIDs (gcBaseResult st p x) = mergeableHeadEventIDs st := by
  rw [mergeableHeadEventIDs, mergeableHeadEventIDs, tentativeHeads_gcBase h hx]
  apply Finset.filter_congr
  intro id hid
  obtain ⟨hmem, -, hne⟩ := tentativeHead_live h hx hid
  exact and_congr (isParentClosed_dropEvent hx hne) (mem_chunksReady_gcBase p hmem hne)

variable (hresolved : ∀ pid ∈ (st.clock.get x).resolvedParkedEventId,
  pid ∈ (st.clock.get x).parentEventIds)

include hresolved

theorem replayUnsafe_gcBase :
    replayUnsafeEligibleHeads (gcBaseResult st p x) (mergeableHeadEventIDs st) =
      replayUnsafeEligibleHeads st (mergeableHeadEventIDs st) := by
  apply Finset.filter_congr
  intro id hid
  obtain ⟨hmem, hfin, hne⟩ := tentativeHead_live h hx (mergeable_subset_tentative st hid)
  refine and_congr (not_congr ?_) (and_congr ?_ (not_congr ?_))
  · exact mem_subsumedEvents_dropEvent_iff h.finalized hx hresolved hfin
  · change ((dropEvent st.clock x).get id).parentEventIds ⊆ st.finalizedEvents.keys ↔ _
    rw [get_dropEvent hne]
  · exact replayFinalizationSafe_gcBase p hx hmem hne

theorem projection_gcBase :
    computeTentativeProjection (gcBaseResult st p x) = computeTentativeProjection st := by
  have hfold : anchoredFold (projectionReadyHeads st) (gcBaseResult st p x).clock
      (gcBaseResult st p x).finalizedProllyRootHash =
      anchoredFold (projectionReadyHeads st) st.clock st.finalizedProllyRootHash := by
    apply anchoredFold_congr
    intro id hid
    have hhead := mergeable_subset_tentative st (projectionReadyHeads_subset st hid)
    exact get_dropEvent (tentativeHead_live h hx hhead).2.2
  have hheads := tentativeHeads_gcBase h hx
  have hmerge := mergeableHeads_gcBase h hx
  have hunsafe := replayUnsafe_gcBase h hx hresolved
  by_cases hnone : tentativeHeadEventIDs st = ∅
  · rw [projection_of_no_head hnone, projection_of_no_head (hheads.trans hnone)]
    rfl
  by_cases hready : mergeableHeadEventIDs st = ∅
  · rw [projection_of_unready hnone hready,
      projection_of_unready (hheads ▸ hnone) (hmerge.trans hready), hheads]
    rfl
  · have hproj : projectionReadyHeads (gcBaseResult st p x) = projectionReadyHeads st := by
      rw [projectionReadyHeads, projectionReadyHeads, hmerge, hunsafe]
    have hretained : retainedUnreadyParked (gcBaseResult st p x) = retainedUnreadyParked st := by
      rw [retainedUnreadyParked, retainedUnreadyParked, hheads, hmerge]
      rfl
    rw [projection_of_ready hready, projection_of_ready (hmerge ▸ hready), hproj, hretained,
      hmerge, hunsafe, hfold]

omit hresolved in
theorem coveredByActivePeers_gcBase {id : EventID} (hid : id ∉ st.finalizedEvents.keys) :
    coveredByActivePeers (gcBaseResult st p x) id ↔ coveredByActivePeers st id := by
  refine forall_congr' fun q => forall_congr' fun _ => ?_
  apply frontierCovers_dropEvent_iff h.finalized hx _ hid
  intro fid hfid
  change fid ∈ (st.peerSeenFrontier.put p (observedFrontier (dropEvent st.clock x))).get q ↔ _
  -- only the own frontier is computed anew
  by_cases hq : q = p
  · rw [hq, Map.get_put_self, h.frontier]
    exact mem_observedFrontier_dropEvent_iff h.finalized hx hfid
  · rw [Map.get_put_of_ne _ _ hq]

theorem gcResult_eq : gcResult st p x = gcBaseResult st p x := by
  rw [gcResult, reconcileResult, projection_gcBase h hx hresolved, h.projected]
  rfl

omit hresolved in
theorem mem_candidates_gcBase {id : EventID} :
    id ∈ finalizationCandidates (gcBaseResult st p x) ↔ id ∈ finalizationCandidates st := by
  rw [mem_finalizationCandidates, mem_finalizationCandidates]
  by_cases hfin : id ∈ st.finalizedEvents.keys
  · exact iff_of_false (fun hid => hid.2.1 hfin) fun hid => hid.2.1 hfin
  have hne := ne_of_not_finalized hx hfin
  have hkeys : id ∈ (gcBaseResult st p x).clock.keys ↔ id ∈ st.clock.keys :=
    mem_keys_dropEvent.trans (and_iff_left hne)
  have hbranch : id ∈ parkedBranchEvents (gcBaseResult st p x) ↔ id ∈ parkedBranchEvents st :=
    mem_closure_dropEvent_iff h.finalized hx (fun _ _ => Iff.rfl) hfin
  have hclosed : isParentClosed (gcBaseResult st p x).clock id ↔ isParentClosed st.clock id :=
    isParentClosed_dropEvent hx hne
  rw [hkeys, hbranch, hclosed, coveredByActivePeers_gcBase h hx hfin]
  refine and_congr_right fun hid => ?_
  rw [mem_chunksReady_gcBase p hid hne]
  exact Iff.rfl

theorem eligible_gcBase :
    finalizationEligible (gcBaseResult st p x) = finalizationEligible st := by
  ext id
  rw [mem_finalizationEligible, mem_finalizationEligible, mem_candidates_gcBase h hx]
  refine and_congr_right fun hcand => ?_
  obtain ⟨hid, hfin, -⟩ := mem_finalizationCandidates.mp hcand
  have hne := ne_of_not_finalized hx hfin
  have hparents : (gcBaseResult st p x).clock.get id = st.clock.get id := get_dropEvent hne
  have hsubsumed : id ∈ subsumedEvents (gcBaseResult st p x).clock ↔ id ∈ subsumedEvents st.clock :=
    mem_subsumedEvents_dropEvent_iff h.finalized hx hresolved hfin
  rw [hparents, hsubsumed, replayFinalizationSafe_gcBase p hx hid hne]
  exact Iff.rfl

end Collected

/-- Dropping a pruneable event whose resolution link, if it has one, goes to a parent changes
nothing that the peer computes. -/
theorem gc_is_invisible [FoldOrder] {p : PeerID} {st : NodeState} {x : EventID}
    (h : GcReady p st) (hx : x ∈ gcPruneable st)
    (hresolved : ∀ pid ∈ (st.clock.get x).resolvedParkedEventId,
      pid ∈ (st.clock.get x).parentEventIds) :
    GcInvisible st (gcResult st p x) x := by
  rw [gcResult_eq h hx hresolved]
  constructor
  case removed =>
    ext id
    exact mem_keys_dropEvent.trans (and_comm.trans Finset.mem_erase.symm)
  case kept =>
    intro id hid hne
    exact ⟨lookup_dropEvent hne, mem_chunksReady_gcBase p hid hne⟩
  case closed => exact fun id _ hne => isParentClosed_dropEvent hx hne
  case root => rfl
  case parked => rfl
  case basis => rfl
  case eligible => exact eligible_gcBase h hx hresolved

theorem gcReady_reconcile [FoldOrder] {p : PeerID} {st : NodeState}
    (hheads : st.headEventIds = computeHeadEventIDs st.clock)
    (hfrontier : st.peerSeenFrontier.get p = observedFrontier st.clock)
    (hfinal : ∀ id ∈ retainedFinalizedEventIDs st,
      (st.clock.get id).parentEventIds ⊆ st.finalizedEvents.keys) :
    GcReady p (reconcileResult st) where
  projected := projection_idempotent st
  heads := hheads
  frontier := hfrontier
  finalized := hfinal

/-- Two finalized roots that conflict, an event on top of both, and the finalized event `x`. -/
def twoRootsState (x : Event) : NodeState :=
  let event (logical : Int) (root : ProllyRootHash) (parents : Finset EventID) : Event :=
    ⟨⟨1, 1, logical⟩, root, 0, parents, none, none, ⟨1, logical, 1⟩, 1⟩
  let clock := [event 1 11 ∅, event 2 14 ∅, event 4 11 {⟨1, 1, 1⟩, ⟨1, 1, 2⟩}, x].foldl
    (fun clock e => clock.put e.eventId e) ∅
  @reconcileResult ascendingFolds { emptyNodeState 1 with
    clock
    headEventIds := computeHeadEventIDs clock
    chunksReady := clock.keys
    peerSeenFrontier := Map.put ∅ 1 (observedFrontier clock)
    finalizedEvents := Map.mapBy {⟨1, 1, 1⟩, ⟨1, 1, 2⟩, ⟨1, 1, 3⟩} fun _ => 11
    activePeers := {1} }

/-- The third finalized event, which resolves `pid`. -/
def resolver (pid : EventID) (parents : Finset EventID) : Event :=
  ⟨⟨1, 1, 3⟩, 12, 0, parents, some pid, none, ⟨1, 3, 1⟩, 1⟩

theorem gc_is_invisible_on_resolver :
    ⟨1, 1, 3⟩ ∈ gcPruneable (twoRootsState (resolver ⟨1, 1, 1⟩ {⟨1, 1, 1⟩})) ∧
    @GcInvisible ascendingFolds (twoRootsState (resolver ⟨1, 1, 1⟩ {⟨1, 1, 1⟩}))
      (@gcResult ascendingFolds (twoRootsState (resolver ⟨1, 1, 1⟩ {⟨1, 1, 1⟩})) 1 ⟨1, 1, 3⟩)
      ⟨1, 1, 3⟩ := by
  have hready : @GcReady ascendingFolds 1 (twoRootsState (resolver ⟨1, 1, 1⟩ {⟨1, 1, 1⟩})) :=
    @gcReady_reconcile ascendingFolds _ _ rfl (by decide +kernel) (by decide +kernel)
  have hgc : ⟨1, 1, 3⟩ ∈ gcPruneable (twoRootsState (resolver ⟨1, 1, 1⟩ {⟨1, 1, 1⟩})) := by
    decide +kernel
  exact ⟨hgc, @gc_is_invisible ascendingFolds _ _ _ hready hgc (by decide +kernel)⟩

/-- An event that resolves a head without naming it as a parent, which the admission rule
refuses: the head is live before the collection and parked after it. -/
theorem gc_shows_through_foreign_resolution :
    @GcReady ascendingFolds 1 (twoRootsState (resolver ⟨1, 1, 4⟩ ∅)) ∧
    ⟨1, 1, 3⟩ ∈ gcPruneable (twoRootsState (resolver ⟨1, 1, 4⟩ ∅)) ∧
    ¬@GcInvisible ascendingFolds (twoRootsState (resolver ⟨1, 1, 4⟩ ∅))
      (@gcResult ascendingFolds (twoRootsState (resolver ⟨1, 1, 4⟩ ∅)) 1 ⟨1, 1, 3⟩)
      ⟨1, 1, 3⟩ := by
  refine ⟨@gcReady_reconcile ascendingFolds _ _ rfl (by decide +kernel) (by decide +kernel),
    by decide +kernel, fun h => ?_⟩
  have hbefore : (twoRootsState (resolver ⟨1, 1, 4⟩ ∅)).parkedConflicts = ∅ := by decide +kernel
  have hafter : (@gcResult ascendingFolds (twoRootsState (resolver ⟨1, 1, 4⟩ ∅)) 1
      ⟨1, 1, 3⟩).parkedConflicts = {⟨1, 1, 4⟩} := by decide +kernel
  have hsame := @GcInvisible.parked ascendingFolds _ _ _ h
  rw [hbefore, hafter] at hsame
  exact absurd hsame (by decide)

end DoltSwarm.Protocol
