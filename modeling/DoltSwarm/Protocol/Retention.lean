import DoltSwarm.Protocol.LineageOrder

/-!
# What a peer never loses

Collection and compaction drop finalized bodies only, so an event can be forgotten in one way:
SYNC_FINALIZED rebuilds the finalized events from the descriptors that an unrolled ancestor walk
finds, and a checkpoint further down than the walk goes is left out.
-/

namespace DoltSwarm.Protocol

open Lib

set_option autoImplicit false

/-! ## Retention in one step -/

/-- What is finalized stays so, and what is held or finalized stays one or the other. -/
structure Retains (st st' : NodeState) : Prop where
  finalized : st.finalizedEvents.keys ⊆ st'.finalizedEvents.keys
  known : st.clock.keys ∪ st.finalizedEvents.keys ⊆
    st'.clock.keys ∪ st'.finalizedEvents.keys

section

variable {st st' st'' remote : NodeState}

theorem Retains.of_clock (hfin : st.finalizedEvents.keys ⊆ st'.finalizedEvents.keys)
    (hclock : st.clock.keys ⊆ st'.clock.keys ∪ st'.finalizedEvents.keys) : Retains st st' :=
  ⟨hfin, Finset.union_subset hclock (hfin.trans Finset.subset_union_right)⟩

theorem Retains.refl (st : NodeState) : Retains st st :=
  ⟨Finset.Subset.refl _, Finset.Subset.refl _⟩

theorem Retains.trans (h : Retains st st') (h' : Retains st' st'') : Retains st st'' :=
  ⟨h.finalized.trans h'.finalized, h.known.trans h'.known⟩

theorem retains_compactPass (st : NodeState) : Retains st (compactPass st) := by
  refine .of_clock (Finset.Subset.refl _) fun id hid => ?_
  simp only [compactPass, Map.keys_removeAll]
  by_cases hpruned : id ∈ gcPruneable st ∪ invalidRetainedFinalizedEventIDs st
  · -- only finalized bodies are pruned
    have hret : id ∈ retainedFinalizedEventIDs st :=
      (Finset.mem_union.mp hpruned).elim (fun h => (Finset.mem_filter.mp h).1)
        fun h => (Finset.mem_filter.mp h).1
    exact Finset.mem_union_right _ (Finset.mem_inter.mp hret).1
  · exact Finset.mem_union_left _ (Finset.mem_sdiff.mpr ⟨hid, hpruned⟩)

theorem retains_compactRetainedFinalized (st : NodeState) :
    Retains st (compactRetainedFinalized st) := by
  have hiterate : ∀ n, Retains st (compactPass^[n] st) := by
    intro n
    induction n with
    | zero => exact .refl st
    | succ n ih =>
      rw [Function.iterate_succ_apply']
      exact ih.trans (retains_compactPass _)
  have hall := hiterate maxEvents
  simp only [compactRetainedFinalized]
  generalize compactPass^[maxEvents] st = compacted at hall ⊢
  exact ⟨hall.finalized, hall.known⟩

theorem Reworked.retains {clock : Clock} (h : Reworked clock st st') : Retains st st' := by
  induction h with
  | refl => exact .refl st
  | compact _ ih => exact ih.trans (retains_compactRetainedFinalized _)
  | @hydrate st₁ seed _ _ _ ih =>
    refine ih.trans (.of_clock (Finset.Subset.refl _) ?_)
    have hkeys : st₁.clock.keys ⊆ (applyRemoteEvents st₁.clock clock
        (pullClosureEventIDs st₁.clock clock seed ∅)).keys := by
      rw [applyRemoteEvents, Map.keys_mapBy]
      exact Finset.subset_union_left
    exact hkeys.trans Finset.subset_union_left

variable [FoldOrder]

theorem retains_syncResult (p : PeerID)
    (h : st.finalizedEvents.keys ⊆ (syncFinalizedCoreResult st remote).finalizedEvents.keys) :
    Retains st (syncResult p st remote) := by
  obtain ⟨st', hre, _, heq⟩ := applySyncFinalizedResult_reworked st remote
  have hclock : (syncFinalizedCoreResult st remote).clock = st.clock := by
    rw [syncFinalizedCoreResult_frame]
  have hcore : Retains st (syncFinalizedCoreResult st remote) :=
    .of_clock h (by rw [hclock]; exact Finset.subset_union_left)
  have hall := hcore.trans hre.retains
  simp only [syncResult, heq]
  exact ⟨hall.finalized, hall.known⟩

end

/-! ## Events on the books -/

/-- Every finalized event is named in the descriptor of a commit on record. -/
def Booked (st : NodeState) : Prop :=
  ∀ id ∈ st.finalizedEvents.keys, ∃ c ∈ st.finalizedCommitParents.keys,
    id ∈ (descriptorAt st.finalizedCheckpointEvents c).keys

structure BookedInv (s : State) : Prop extends ContentInv s where
  booked : ∀ p ∈ peers, Booked (s.nodes.get p)

theorem Booked.of_same {st st' : NodeState} (h : Booked st) (hsame : sameFinalizedState st' st) :
    Booked st' := by
  obtain ⟨_, _, hfin, hck, hpar, _⟩ := hsame
  intro id hid
  rw [hpar, hck]
  exact h id (hfin ▸ hid)

theorem Booked.harden {st : NodeState} (h : Booked st) (commit : FinalizedCommitID)
    (eventId : EventID) (e : Event) {parents : ParentsMap} (hcommit : commit ∈ parents.keys)
    (hparents : st.finalizedCommitParents.keys ⊆ parents.keys) :
    ∀ id ∈ (hardenEvent st commit eventId e).finalizedEvents.keys, ∃ c ∈ parents.keys,
      id ∈ (descriptorAt (hardenEvent st commit eventId e).finalizedCheckpointEvents c).keys := by
  intro id hid
  simp only [hardenEvent, Map.keys_put, Finset.mem_insert] at hid
  simp only [hardenEvent]
  rcases hid with rfl | hid
  · exact ⟨commit, hcommit, (mem_descriptorAt_put _ _ _ _ _ _).mpr (Or.inl ⟨rfl, rfl⟩)⟩
  · obtain ⟨c, hc, hdesc⟩ := h id hid
    exact ⟨c, hparents hc, (mem_descriptorAt_put _ _ _ _ _ _).mpr (Or.inr hdesc)⟩

section

variable [o : FoldOrder] {s s' : State} {a : Action}

theorem booked_finalize (h : BookedInv s) {p : PeerID} (hp : p ∈ peers)
    (he : finalizeEnabled (s.nodes.get p)) : Booked (finalizeResult (s.nodes.get p)) := by
  have hok := h.finalized p hp
  rcases finalizeResult_cases _ he with ⟨_, heq⟩ | ⟨_, _, heq⟩
  · rw [heq]
    exact (h.booked p hp).harden _ _ _ hok.tip_mem (Finset.Subset.refl _)
  · rw [heq, hok.replayNextEvent_eq]
    refine (h.booked p hp).harden _ _ _ ?_ ?_
    · exact (Map.keys_put _ _ _).ge (Finset.mem_insert_self _ _)
    · exact (Finset.subset_insert _ _).trans (Map.keys_put _ _ _).ge

theorem finalizedEvents_core (st remote : NodeState) :
    let core := syncFinalizedCoreResult st remote
    core.finalizedEvents = derivedFinalizedEventMap core.finalizedCommitId
      core.finalizedCommitParents core.finalizedCheckpointEvents := by
  simp only [syncFinalizedCoreResult]
  split <;> rfl

theorem mem_finalizedEvents_core (h : SwarmInv s) {p q : PeerID} (hp : p ∈ peers)
    (hq : q ∈ peers) (id : EventID) :
    let core := syncFinalizedCoreResult (s.nodes.get p) (s.nodes.get q)
    id ∈ core.finalizedEvents.keys ↔
      ∃ c ∈ lineageAncestors core.finalizedCommitParents core.finalizedCommitId,
        id ∈ (descriptorAt core.finalizedCheckpointEvents c).keys := by
  intro core
  have hok := finalizedOk_core (h.finalized p hp) (h.finalized q hq)
  rw [finalizedEvents_core, Map.mem_keys_iff]
  simp only [lookup_derivedFinalizedEventMap h.toLedgerInv o hok.described, Map.mem_keys_iff]
  constructor
  · rintro ⟨r, c, hc, hr⟩
    exact ⟨c, hc, r, hr⟩
  · rintro ⟨c, hc, r, hr⟩
    exact ⟨r, c, hc, hr⟩

theorem booked_core (h : BookedInv s) {p q : PeerID} (hp : p ∈ peers) (hq : q ∈ peers) :
    Booked (syncFinalizedCoreResult (s.nodes.get p) (s.nodes.get q)) := by
  have hok := finalizedOk_core (h.finalized p hp) (h.finalized q hq)
  intro id hid
  obtain ⟨c, hc, hdesc⟩ := (mem_finalizedEvents_core h.toSwarmInv hp hq id).mp hid
  exact ⟨c, (h.lineage_sync hp hq).ancestors_subset hok.empty_mem hok.tip_mem hc, hdesc⟩

theorem bookedInv_effect (h : BookedInv s) (heff : Effect s a s') : BookedInv s' where
  toContentInv := contentInv_effect h.toContentInv heff
  booked := by
    intro p hp
    rcases finalized_effect heff p with hsame | ⟨_, he, hst⟩ | ⟨r, hr, _, hsame⟩
    · exact (h.booked p hp).of_same hsame
    · rw [hst]
      exact booked_finalize h hp he
    · exact (booked_core h hp hr).of_same hsame

end

theorem bookedInv_init : BookedInv init where
  toContentInv := contentInv_init
  booked := by
    intro p hp
    have hget : init.nodes.get p = emptyNodeState p := Map.get_mapBy_of_mem _ hp
    rw [hget]
    intro id hid
    simp [emptyNodeState] at hid

theorem bookedInv_of_reachable {s : State} (h : Reachable Step init s) : BookedInv s :=
  invariant_of_effect bookedInv_init
    (fun o _ _ _ hI heff => @bookedInv_effect o _ _ _ hI heff) h

/-! ## Within the walk -/

/-- The walk that collects descriptors finds every commit the peer knows: from the tip that is
kept or adopted or, with one round spent on the merge commit, from the two tips it joins. -/
def withinWalk (stLocal stRemote : NodeState) : Prop :=
  let mergedParents := mergeSetMap stLocal.finalizedCommitParents stRemote.finalizedCommitParents
  stLocal.finalizedCommitParents.keys ⊆
    match syncMode stLocal stRemote with
    | .adopt => lineageAncestors mergedParents stRemote.finalizedCommitId
    | .noop => lineageAncestors mergedParents stLocal.finalizedCommitId
    | .merge => unrolledClosure (maxEvents + 3) (parentsAt mergedParents)
        {stLocal.finalizedCommitId, stRemote.finalizedCommitId} ∪ {emptyFinalizedCommitId}

instance (stLocal stRemote : NodeState) : Decidable (withinWalk stLocal stRemote) :=
  inferInstanceAs (Decidable (stLocal.finalizedCommitParents.keys ⊆ _))

/-- A sync fires only on a lineage that its walk covers. -/
def walkCovers (s : State) : Action → Prop
  | .syncFinalized p q => withinWalk (s.nodes.get p) (s.nodes.get q)
  | _ => True

instance (s : State) (a : Action) : Decidable (walkCovers s a) :=
  match a with
  | .syncFinalized p q => inferInstanceAs (Decidable (withinWalk (s.nodes.get p) (s.nodes.get q)))
  | .write _ _ | .receive _ _ | .chunksReady _ _ | .reconcile _ | .tick _ | .heartbeat _ _
  | .finalize _ | .gc _ _ | .partition _ _ | .heal _ _ | .evict _ _ | .resolveConflict _ _ _
  | .resolveFinalizedConflict _ _ _ => instDecidableTrue

section

variable [o : FoldOrder] {s s' : State} {a : Action}

theorem withinWalk.core {L : Finset Event} {st remote : NodeState} (h : withinWalk st remote)
    (hl : FinalizedOk L st) (hr : FinalizedOk L remote) :
    st.finalizedCommitParents.keys ⊆
      lineageAncestors (syncFinalizedCoreResult st remote).finalizedCommitParents
        (syncFinalizedCoreResult st remote).finalizedCommitId := by
  have hmerged := mergedParents_faithful hl hr
  simp only [withinWalk] at h
  simp only [syncFinalizedCoreResult]
  generalize syncMode st remote = mode at h ⊢
  cases mode with
  | adopt => exact h
  | noop => exact h
  | merge =>
    have hparents := syncMergeResult_parents hl hr
    have htips : parentsAt (syncMergeResult st remote).finalizedCommitParents
        (syncMergeResult st remote).finalizedCommitId =
          {st.finalizedCommitId, remote.finalizedCommitId} := by
      rw [hparents]
      exact parentsAt_of_lookup (Map.lookup_put_self _ _ _)
    have hgrown := hmerged.parentsAt_subset
      (finalizedOk_syncMergeResult hl hr).lineage (by
        rw [hparents, Map.keys_put]
        exact Finset.subset_insert _ _)
    refine h.trans (Finset.union_subset_union_left ?_)
    refine (unrolledClosure_mono_next _ hgrown _).trans ?_
    rw [← htips]
    exact unrolledClosure_next_subset (maxEvents + 3) _

theorem retains_sync (h : BookedInv s) {p q : PeerID} (hp : p ∈ peers) (hq : q ∈ peers)
    (hwalk : withinWalk (s.nodes.get p) (s.nodes.get q)) :
    Retains (s.nodes.get p) (syncResult p (s.nodes.get p) (s.nodes.get q)) := by
  have hl := h.finalized p hp
  have hr := h.finalized q hq
  refine retains_syncResult p fun id hid => ?_
  obtain ⟨c, hc, hdesc⟩ := h.booked p hp id hid
  have hgrown := (below_core h.toLedgerInv o hl hr).1.descriptors c
  exact (mem_finalizedEvents_core h.toSwarmInv hp hq id).mpr
    ⟨c, hwalk.core hl hr hc, hgrown.keys_subset hdesc⟩

theorem retains_finalize {st : NodeState} (he : finalizeEnabled st) :
    Retains st (finalizeResult st) := by
  obtain ⟨hclock, hfin⟩ := finalizeResult_finalizedEvents st he
  refine .of_clock ?_ ?_
  · rw [hfin, Map.keys_put]
    exact Finset.subset_insert _ _
  · rw [hclock]
    exact Finset.subset_union_left

theorem retains_gc {st : NodeState} (p : PeerID) {id : EventID} (hid : id ∈ gcPruneable st) :
    Retains st (gcResult st p id) := by
  have hfin := mem_finalized_of_gcPruneable hid
  refine .of_clock (Finset.Subset.refl _) fun x hx => ?_
  change x ∈ (dropEvent st.clock id).keys ∪ st.finalizedEvents.keys
  rw [dropEvent, Map.keys_removeAll, Finset.mem_union, Finset.mem_sdiff, Finset.mem_singleton]
  by_cases h : x = id
  · exact Or.inr (h ▸ hfin)
  · exact Or.inl ⟨hx, h⟩

theorem retains_effect (h : BookedInv s) (heff : Effect s a s') (hwalk : walkCovers s a)
    (q : PeerID) : Retains (s.nodes.get q) (s'.nodes.get q) := by
  -- a step writes the state of one peer
  have hput : ∀ p st, Retains (s.nodes.get p) st →
      Retains (s.nodes.get q) ((s.nodes.put p st).get q) :=
    fun p st hst => Map.rel_get_put .refl hst q
  have hadded : ∀ (st : NodeState) (id : EventID) (e : Event),
      st.clock.keys ⊆ (st.clock.put id e).keys ∪ st.finalizedEvents.keys := by
    intro st id e
    rw [Map.keys_put]
    exact (Finset.subset_insert _ _).trans Finset.subset_union_left
  cases heff with
  | emit p e _ _ _ => exact hput p _ (.of_clock (Finset.Subset.refl _) (hadded _ _ _))
  | receive p e _ _ => exact hput p _ (.of_clock (Finset.Subset.refl _) (hadded _ _ _))
  | touch p st _ ht => cases ht <;> exact hput p _ ⟨Finset.Subset.refl _, Finset.Subset.refl _⟩
  | heartbeat p r _ _ _ _ => exact hput p _ ⟨Finset.Subset.refl _, Finset.Subset.refl _⟩
  | finalize p _ he => exact hput p _ (retains_finalize he)
  | gc p id _ hid => exact hput p _ (retains_gc p hid)
  | sync p r hp hr _ => exact hput p _ (retains_sync h hp hr hwalk)
  | network conn _ => exact .refl _

end

/-- As long as no sync meets a lineage deeper than its walk, nothing finalized is forgotten,
nothing known disappears, and no event finalized before is received again. -/
theorem nothing_disappears_within_walk {tr : List (State × Action)} {s : State}
    (h : Run Step init tr s) (hwalk : ∀ x ∈ tr, walkCovers x.1 x.2) :
    ∀ x ∈ tr, ∀ p ∈ peers,
      (x.1.nodes.get p).finalizedEvents.keys ⊆ (s.nodes.get p).finalizedEvents.keys ∧
      (x.1.nodes.get p).clock.keys ∪ (x.1.nodes.get p).finalizedEvents.keys ⊆
        (s.nodes.get p).clock.keys ∪ (s.nodes.get p).finalizedEvents.keys ∧
      ∀ e : Event, e.eventId ∈ (x.1.nodes.get p).finalizedEvents.keys →
        e ∉ processable (s.nodes.get p) (s.inbox.get p) := by
  have hret : ∀ x ∈ tr, ∀ p, Retains (x.1.nodes.get p) (s.nodes.get p) := by
    refine Run.induct (I := fun tr s => ∀ x ∈ tr, ∀ p, Retains (x.1.nodes.get p) (s.nodes.get p))
      (G := walkCovers) (by simp) ?_ h hwalk
    rintro tr s a s' hr ih hG ⟨o, hs⟩ x hx p
    have hinv := bookedInv_of_reachable ⟨tr, hr⟩
    have hlast := @retains_effect o s s' a hinv (@effect_of_step o _ _ _ hs) hG p
    rcases List.mem_cons.mp hx with rfl | hx
    · exact hlast
    · exact (ih x hx p).trans hlast
  intro x hx p _
  refine ⟨(hret x hx p).finalized, (hret x hx p).known, fun e he hproc => ?_⟩
  exact (Finset.mem_filter.mp hproc).2.2.2 ((hret x hx p).finalized he)

/-- Peer 1, cut off from the others, writes, finalizes and collects fourteen times. -/
def longHistory : List Action :=
  [.partition 1 2, .partition 1 3, .evict 1 2, .evict 1 3] ++
    (List.range 14).flatMap fun n => [.write 1 11, .finalize 1, .gc 1 ⟨1, 1, n + 1⟩]

/-- When it reaches peer 2 again, a sync that moves no tip leaves out the first checkpoint. -/
def forgottenCheckpointRun : List Action := longHistory ++ [.heal 1 2, .syncFinalized 1 2]

theorem finalized_event_forgotten :
    ∃ tr s, Run Step init tr s ∧ ∃ x ∈ tr, ∃ id ∈ (x.1.nodes.get 1).finalizedEvents.keys,
      id ∉ (s.nodes.get 1).clock.keys ∪ (s.nodes.get 1).finalizedEvents.keys ∧
      ∃ e ∈ processable (s.nodes.get 1) (s.inbox.get 1), e.eventId = id :=
  exists_run_of_actions forgottenCheckpointRun (by decide +kernel)

/-- After the fork peer 1 merges the two tips and peer 2 adopts the merge. -/
def exchangedForkRun : List Action := forkRun ++ [.syncFinalized 1 2, .syncFinalized 2 1]

theorem nothing_disappears_within_walk_on_fork :
    ((forkState.nodes.get 2).finalizedEvents.keys).Nonempty ∧
    (forkState.nodes.get 2).finalizedEvents.keys ⊆
      ((runOutcome exchangedForkRun).2.nodes.get 2).finalizedEvents.keys := by
  have hrun : Run Step init (runOutcome exchangedForkRun).1 (runOutcome exchangedForkRun).2 :=
    run_runOutcome (by decide +kernel)
  have hwalk : ∀ x ∈ (runOutcome exchangedForkRun).1, walkCovers x.1 x.2 := by decide +kernel
  have hfork : (forkState, Action.syncFinalized 1 2) ∈ (runOutcome exchangedForkRun).1 := by
    decide +kernel
  exact ⟨by decide +kernel,
    (nothing_disappears_within_walk hrun hwalk _ hfork 2 (by decide)).1⟩

end DoltSwarm.Protocol
