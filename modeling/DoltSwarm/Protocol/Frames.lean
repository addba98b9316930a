import DoltSwarm.Protocol.Transitions

/-!
# What the local results leave unchanged

Compaction and hydration touch clock, heads and ready chunks only; finalization and the core
of SYNC_FINALIZED touch the finalized fields only.
-/

namespace DoltSwarm.Protocol

open Lib

set_option autoImplicit false

/-! ## Clocks -/

theorem computeHeadEventIDs_subset (clock : Clock) : computeHeadEventIDs clock ⊆ clock.keys :=
  Finset.sdiff_subset

/-- A clock and a set of ready chunks put into a state, heads derived again. -/
def withClock (st : NodeState) (clock : Clock) (ready : Finset EventID) : NodeState :=
  { st with
    clock := clock
    chunksReady := ready
    headEventIds := computeHeadEventIDs clock }

theorem iterate_compactPass (n : ℕ) (st : NodeState) :
    ∃ clock ready, Map.SubMap clock st.clock ∧ ready ⊆ st.chunksReady ∧
      compactPass^[n] st = { st with clock := clock, chunksReady := ready } := by
  induction n with
  | zero => exact ⟨st.clock, st.chunksReady, Map.SubMap.refl _, Finset.Subset.refl _, rfl⟩
  | succ n ih =>
    obtain ⟨clock, ready, hc, hr, heq⟩ := ih
    rw [Function.iterate_succ_apply', heq]
    exact ⟨_, _, (Map.subMap_removeAll _ _).trans hc, Finset.sdiff_subset.trans hr, rfl⟩

theorem compactRetainedFinalized_eq (st : NodeState) :
    ∃ clock ready, Map.SubMap clock st.clock ∧ ready ⊆ st.chunksReady ∧
      compactRetainedFinalized st = withClock st clock ready := by
  obtain ⟨clock, ready, hc, hr, heq⟩ := iterate_compactPass maxEvents st
  refine ⟨clock, ready, hc, hr, ?_⟩
  simp only [compactRetainedFinalized, heq, withClock]

theorem lookup_applyRemoteEvents {localClock remoteClock : Clock} {ids : Finset EventID}
    {id : EventID} {e : Event}
    (h : (applyRemoteEvents localClock remoteClock ids).lookup id = some e) :
    localClock.lookup id = some e ∨ id ∈ ids ∧ remoteClock.lookup id = some e := by
  rw [applyRemoteEvents, Map.lookup_mapBy] at h
  split at h
  · rename_i hmem
    split at h
    · rename_i hid
      rw [← Option.some.inj h]
      exact Or.inr ⟨hid.1, Map.lookup_of_mem hid.2⟩
    · rename_i hid
      rw [← Option.some.inj h]
      refine Or.inl (Map.lookup_of_mem ?_)
      rcases Finset.mem_union.mp hmem with hl | hr
      · exact hl
      · exact absurd (Finset.mem_filter.mp hr) hid
  · cases h

theorem lookup_applyRemoteEvents_of_local {localClock remoteClock : Clock}
    {ids : Finset EventID} {id : EventID} (hid : id ∈ localClock.keys) (hnot : id ∉ ids) :
    (applyRemoteEvents localClock remoteClock ids).lookup id = localClock.lookup id := by
  rw [applyRemoteEvents, Map.lookup_mapBy_of_mem _ (Finset.mem_union_left _ hid),
    if_neg fun h => hnot h.1, Map.lookup_of_mem hid]

/-! ## Finalization -/

theorem finalizationEligible_subset (o : FoldOrder) (st : NodeState) :
    @finalizationEligible o st ⊆ finalizationCandidates st := Finset.filter_subset _ _

section

variable [FoldOrder] (st : NodeState)

omit [FoldOrder] in
theorem foldl_earlierEvent_mem (clock : Clock) (l : List EventID) (best : EventID) :
    l.foldl (earlierEvent clock) best ∈ best :: l := by
  induction l generalizing best with
  | nil => simp
  | cons x xs ih =>
    rw [List.foldl_cons, earlierEvent]
    split
    · exact List.mem_cons_of_mem _ (ih x)
    · rcases List.mem_cons.mp (ih best) with hb | hb
      · rw [hb]
        exact List.mem_cons_self
      · exact List.mem_cons_of_mem _ (List.mem_cons_of_mem _ hb)

theorem nextFinalizationEventID_mem (h : nextFinalizationEventID st ≠ emptyEventId) :
    nextFinalizationEventID st ∈ finalizationEligible st := by
  rcases List.mem_cons.mp (foldl_earlierEvent_mem st.clock
    (FoldOrder.events.list (finalizationEligible st)) emptyEventId) with hb | hb
  · exact absurd hb h
  · exact (FoldOrder.events.mem_list _ _).mp hb

omit [FoldOrder] in
theorem earlierEvent_cases (clock : Clock) {best : EventID} (hbest : best ≠ emptyEventId)
    (id : EventID) :
    (earlierEvent clock best id = id ∧ less (clock.get best).hlc (clock.get id).hlc = false) ∨
    (earlierEvent clock best id = best ∧
      less (clock.get id).hlc (clock.get best).hlc = false) := by
  simp only [earlierEvent, hbest, false_or, finalizationEventLess]
  cases hlt : less (clock.get id).hlc (clock.get best).hlc with
  | true => exact Or.inl ⟨by simp, not_less_of_less hlt⟩
  | false =>
    cases hgt : less (clock.get best).hlc (clock.get id).hlc with
    | true => exact Or.inr ⟨by simp, rfl⟩
    | false => cases hid : eventIDLess id best <;> simp

omit [FoldOrder] in
theorem foldl_earlierEvent_oldest (clock : Clock) (l : List EventID) {best : EventID}
    (hbest : best ≠ emptyEventId) (hl : ∀ id ∈ l, id ≠ emptyEventId) : ∀ x ∈ best :: l,
    less (clock.get x).hlc (clock.get (l.foldl (earlierEvent clock) best)).hlc = false := by
  induction l generalizing best with
  | nil =>
    intro x hx
    rw [List.mem_singleton.mp hx]
    exact less_strictTotal.irrefl _ trivial
  | cons c cs ih =>
    simp only [List.mem_cons, forall_eq_or_imp] at hl
    intro x hx
    rw [List.foldl_cons]
    -- `x` is still in the race, or it lost against the one kept
    rcases earlierEvent_cases clock hbest c with ⟨heq, hle⟩ | ⟨heq, hle⟩
    · rw [heq]
      rcases List.mem_cons.mp hx with rfl | hx
      · exact not_less_trans hle (ih hl.1 hl.2 c List.mem_cons_self)
      · exact ih hl.1 hl.2 x hx
    · rw [heq]
      rcases List.mem_cons.mp hx with rfl | hx
      · exact ih hbest hl.2 x List.mem_cons_self
      · rcases List.mem_cons.mp hx with rfl | hx
        · exact not_less_trans hle (ih hbest hl.2 best List.mem_cons_self)
        · exact ih hbest hl.2 x (List.mem_cons_of_mem _ hx)

section

variable (hids : ∀ id ∈ finalizationEligible st, id ≠ emptyEventId)

include hids

theorem nextFinalizationEventID_eq_foldl (hne : (finalizationEligible st).Nonempty) :
    ∃ y ys, FoldOrder.events.list (finalizationEligible st) = y :: ys ∧ y ≠ emptyEventId ∧
      (∀ id ∈ ys, id ≠ emptyEventId) ∧
      nextFinalizationEventID st = ys.foldl (earlierEvent st.clock) y := by
  have hlist : ∀ id ∈ FoldOrder.events.list (finalizationEligible st), id ≠ emptyEventId :=
    fun id hid => hids id ((FoldOrder.events.mem_list _ _).mp hid)
  obtain ⟨x, hx⟩ := hne
  have hx' := (FoldOrder.events.mem_list _ _).mpr hx
  simp only [nextFinalizationEventID]
  cases hl : FoldOrder.events.list (finalizationEligible st) with
  | nil => simp [hl] at hx'
  | cons y ys =>
    simp only [hl, List.mem_cons, forall_eq_or_imp] at hlist
    exact ⟨y, ys, rfl, hlist.1, hlist.2, by simp [earlierEvent]⟩

theorem nextFinalizationEventID_ne (hne : (finalizationEligible st).Nonempty) :
    nextFinalizationEventID st ≠ emptyEventId := by
  obtain ⟨y, ys, _, hy, hys, heq⟩ := nextFinalizationEventID_eq_foldl st hids hne
  rw [heq]
  rcases List.mem_cons.mp (foldl_earlierEvent_mem st.clock ys y) with hb | hb
  · rw [hb]
    exact hy
  · exact hys _ hb

/-- No eligible event is older than the one that is chosen. -/
theorem nextFinalizationEventID_oldest {x : EventID} (hx : x ∈ finalizationEligible st) :
    less (st.clock.get x).hlc (st.clock.get (nextFinalizationEventID st)).hlc = false := by
  obtain ⟨y, ys, hl, hy, hys, heq⟩ := nextFinalizationEventID_eq_foldl st hids ⟨x, hx⟩
  have hx' := (FoldOrder.events.mem_list _ _).mpr hx
  rw [hl] at hx'
  rw [heq]
  exact foldl_earlierEvent_oldest st.clock ys hy hys x hx'

end

theorem nextFinalizationEventID_mem_keys (h : finalizeEnabled st) :
    nextFinalizationEventID st ∈ st.clock.keys := by
  have hmem := nextFinalizationEventID_mem st h.1
  exact (Finset.mem_filter.mp (finalizationEligible_subset _ st hmem)).1

/-- An enabled finalization either books a subsumed event or replays the next one. -/
theorem finalizeResult_cases (h : finalizeEnabled st) :
    (nextFinalizationEventID st ∈ subsumedEvents st.clock ∧
      finalizeResult st = reconcileResult (hardenEvent st st.finalizedCommitId
        (nextFinalizationEventID st) (st.clock.get (nextFinalizationEventID st)))) ∨
    (nextFinalizationEventID st ∉ subsumedEvents st.clock ∧
      nextFinalizationMergeRoot st ≠ conflictHash ∧
      finalizeResult st = reconcileResult (replayNextEvent st)) := by
  obtain ⟨hne, hor⟩ := h
  simp only [finalizeResult, hne, if_false]
  by_cases hs : nextFinalizationEventID st ∈ subsumedEvents st.clock
  · exact Or.inl ⟨hs, if_pos hs⟩
  · have hroot : nextFinalizationMergeRoot st ≠ conflictHash := by
      rcases hor with hsub | hroot
      · exact absurd hsub.2 hs
      · exact hroot
    refine Or.inr ⟨hs, hroot, ?_⟩
    rw [if_neg hs, if_neg hroot]

theorem replayNextEvent_frame :
    replayNextEvent st = { st with
      finalizedCommitId := (replayNextEvent st).finalizedCommitId
      finalizedProllyRootHash := (replayNextEvent st).finalizedProllyRootHash
      finalizedEvents := (replayNextEvent st).finalizedEvents
      finalizedCommitParents := (replayNextEvent st).finalizedCommitParents
      finalizedCheckpointEvents := (replayNextEvent st).finalizedCheckpointEvents
      finalizedConflicts := (replayNextEvent st).finalizedConflicts
      resolvedFinalizedConflictIds := (replayNextEvent st).resolvedFinalizedConflictIds } := by
  simp only [replayNextEvent]
  split <;> rfl

theorem finalizeResult_finalizedEvents (h : finalizeEnabled st) :
    (finalizeResult st).clock = st.clock ∧
    (finalizeResult st).finalizedEvents = st.finalizedEvents.put (nextFinalizationEventID st)
      (st.clock.get (nextFinalizationEventID st)).prollyRootHash := by
  rcases finalizeResult_cases st h with ⟨_, heq⟩ | ⟨_, _, heq⟩
  · rw [heq]
    exact ⟨rfl, rfl⟩
  · have hentered : (replayNextEvent st).finalizedEvents = st.finalizedEvents.put
        (nextFinalizationEventID st)
        (st.clock.get (nextFinalizationEventID st)).prollyRootHash := by
      simp only [replayNextEvent]
      split <;> rfl
    rw [heq, replayNextEvent_frame]
    exact ⟨rfl, hentered⟩

theorem syncFinalizedCoreResult_frame (stLocal stRemote : NodeState) :
    let core := syncFinalizedCoreResult stLocal stRemote
    core = { stLocal with
      finalizedCommitId := core.finalizedCommitId
      finalizedProllyRootHash := core.finalizedProllyRootHash
      finalizedEvents := core.finalizedEvents
      finalizedCommitParents := core.finalizedCommitParents
      finalizedCheckpointEvents := core.finalizedCheckpointEvents
      finalizedConflicts := core.finalizedConflicts
      resolvedFinalizedConflictIds := core.resolvedFinalizedConflictIds } := by
  simp only [syncFinalizedCoreResult]
  split <;> rfl

/-- Where the entries of the clock after SYNC_FINALIZED come from. -/
def HydratedFrom (stLocal stRemote : NodeState) (clock : Clock) : Prop :=
  ∀ id e, clock.lookup id = some e → stLocal.clock.lookup id = some e ∨
    stRemote.clock.lookup id = some e ∧
      id ∈ ancestorIdClosure stLocal.clock.keys stRemote.clock

omit [FoldOrder] in
theorem HydratedFrom.mono {stLocal stRemote : NodeState} {clock clock' : Clock}
    (h : HydratedFrom stLocal stRemote clock) (hsub : Map.SubMap clock' clock) :
    HydratedFrom stLocal stRemote clock' := fun id e he => h id e (hsub id e he)

/-- How SYNC_FINALIZED reworks the retained clock: it compacts, and it pulls from the other side
starting from events that were there before. -/
inductive Reworked (remote : Clock) (st : NodeState) : NodeState → Prop
  | refl : Reworked remote st st
  | compact {st' : NodeState} : Reworked remote st st' →
      Reworked remote st (compactRetainedFinalized st')
  | hydrate {st' : NodeState} (seed : Finset EventID) : seed ⊆ st'.clock.keys →
      Map.SubMap st'.clock st.clock → Reworked remote st st' →
      Reworked remote st
        (hydrateRetained st' remote (pullClosureEventIDs st'.clock remote seed ∅))

section

variable {remote : Clock} {st st' : NodeState}

omit [FoldOrder] in
theorem compactRetainedFinalized_subMap (st : NodeState) :
    Map.SubMap (compactRetainedFinalized st).clock st.clock := by
  obtain ⟨clock, ready, hsub, _, heq⟩ := compactRetainedFinalized_eq st
  rw [heq]
  exact hsub

omit [FoldOrder] in
theorem Reworked.frame (h : Reworked remote st st') : ∃ clock ready heads,
    st' = { st with clock := clock, chunksReady := ready, headEventIds := heads } := by
  induction h with
  | refl => exact ⟨_, _, _, rfl⟩
  | compact _ ih =>
    obtain ⟨_, _, _, rfl⟩ := ih
    obtain ⟨clock, ready, _, _, heq⟩ := compactRetainedFinalized_eq _
    exact ⟨clock, ready, _, heq⟩
  | hydrate seed _ _ _ ih =>
    obtain ⟨_, _, _, rfl⟩ := ih
    exact ⟨_, _, _, rfl⟩

omit [FoldOrder] in
theorem Reworked.hydratedFrom {stLocal stRemote : NodeState}
    (h : Reworked stRemote.clock st st') (hclock : st.clock = stLocal.clock) :
    HydratedFrom stLocal stRemote st'.clock := by
  induction h with
  | refl => exact fun id e he => Or.inl (hclock ▸ he)
  | compact _ ih => exact ih.mono (compactRetainedFinalized_subMap _)
  | hydrate seed hseed hsub _ ih =>
    intro id e he
    rcases lookup_applyRemoteEvents he with hl | ⟨hid, hr⟩
    · exact ih id e hl
    · have hmem := (Finset.mem_filter.mp hid).1
      rw [Finset.union_empty] at hmem
      exact Or.inr ⟨hr, unrolledClosure_mono_seed _
        (hclock ▸ hseed.trans hsub.keys_subset) hmem⟩

omit [FoldOrder] in
theorem pullClosureEventIDs_empty (localClock remoteClock : Clock) :
    pullClosureEventIDs localClock remoteClock ∅ ∅ = ∅ := by
  have hnone : ancestorIdClosure (∅ ∪ ∅) remoteClock = ∅ :=
    Finset.subset_empty.mp (unrolledClosure_subset (Finset.empty_subset _) (by simp) _)
  rw [pullClosureEventIDs, hnone, Finset.filter_empty]

end

/-- The state that SYNC_FINALIZED projects in the end. -/
def syncBaseResult (stLocal stRemote : NodeState) : NodeState :=
  let syncedState := syncFinalizedCoreResult stLocal stRemote
  let tipChanged := syncedState.finalizedCommitId ≠ stLocal.finalizedCommitId ∨
    syncedState.finalizedProllyRootHash ≠ stLocal.finalizedProllyRootHash
  let bookkeepingChanged := syncedState.finalizedEvents ≠ stLocal.finalizedEvents
  let cleaned := if bookkeepingChanged then compactRetainedFinalized syncedState else syncedState
  if tipChanged then
    let hydratedClosure := pullClosureEventIDs cleaned.clock stRemote.clock cleaned.clock.keys ∅
    compactRetainedFinalized (hydrateRetained cleaned stRemote.clock hydratedClosure)
  else
    let hydratedClosure := if bookkeepingChanged
      then pullClosureEventIDs cleaned.clock stRemote.clock (retainedFinalizedEventIDs cleaned) ∅
      else ∅
    let hydratedState := hydrateRetained cleaned stRemote.clock hydratedClosure
    if bookkeepingChanged then compactRetainedFinalized hydratedState else hydratedState

theorem applySyncFinalizedResult_eq_reconcile (stLocal stRemote : NodeState) :
    applySyncFinalizedResult stLocal stRemote =
      reconcileResult (syncBaseResult stLocal stRemote) := by
  simp only [applySyncFinalizedResult, syncBaseResult]
  exact (apply_ite reconcileResult _ _ _).symm

theorem syncBaseResult_reworked (stLocal stRemote : NodeState) :
    Reworked stRemote.clock (syncFinalizedCoreResult stLocal stRemote)
      (syncBaseResult stLocal stRemote) ∧
    (syncBaseResult stLocal stRemote).headEventIds =
      computeHeadEventIDs (syncBaseResult stLocal stRemote).clock := by
  let core := syncFinalizedCoreResult stLocal stRemote
  have hcore : Reworked stRemote.clock core core := .refl
  simp only [syncBaseResult]
  by_cases hbook : core.finalizedEvents ≠ stLocal.finalizedEvents
  · have hclean := hcore.compact
    have hsub := compactRetainedFinalized_subMap core
    rw [if_pos hbook, if_pos hbook, if_pos hbook]
    split_ifs
    · exact ⟨(hclean.hydrate _ (Finset.Subset.refl _) hsub).compact, rfl⟩
    · exact ⟨(hclean.hydrate (retainedFinalizedEventIDs _) Finset.inter_subset_right
        hsub).compact, rfl⟩
  · have hsub := Map.SubMap.refl core.clock
    rw [if_neg hbook, if_neg hbook, if_neg hbook]
    split_ifs
    · exact ⟨(hcore.hydrate _ (Finset.Subset.refl _) hsub).compact, rfl⟩
    · refine ⟨?_, rfl⟩
      have hpull := hcore.hydrate ∅ (Finset.empty_subset _) hsub
      rw [pullClosureEventIDs_empty] at hpull
      exact hpull

theorem applySyncFinalizedResult_reworked (stLocal stRemote : NodeState) :
    ∃ st', Reworked stRemote.clock (syncFinalizedCoreResult stLocal stRemote) st' ∧
      st'.headEventIds = computeHeadEventIDs st'.clock ∧
      applySyncFinalizedResult stLocal stRemote = reconcileResult st' := by
  obtain ⟨hre, hheads⟩ := syncBaseResult_reworked stLocal stRemote
  exact ⟨_, hre, hheads, applySyncFinalizedResult_eq_reconcile stLocal stRemote⟩

/-- The outcome in terms of its clock, which is made of local and of pulled entries. -/
theorem applySyncFinalizedResult_eq (stLocal stRemote : NodeState) :
    ∃ clock ready, HydratedFrom stLocal stRemote clock ∧
      applySyncFinalizedResult stLocal stRemote =
        reconcileResult (withClock (syncFinalizedCoreResult stLocal stRemote) clock ready) := by
  obtain ⟨st', hre, hheads, heq⟩ := applySyncFinalizedResult_reworked stLocal stRemote
  have hcore : (syncFinalizedCoreResult stLocal stRemote).clock = stLocal.clock := by
    rw [syncFinalizedCoreResult_frame]
  have hy := hre.hydratedFrom hcore
  obtain ⟨clock, ready, heads, rfl⟩ := hre.frame
  simp only at hheads
  rw [heq, hheads]
  exact ⟨clock, ready, hy, rfl⟩

end

end DoltSwarm.Protocol
