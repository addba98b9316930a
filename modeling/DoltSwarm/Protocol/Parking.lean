import DoltSwarm.Protocol.FixedPoint

/-!
# Parked heads and stalled events

Every peer keeps its immediately replay-unsafe heads parked. When finalization is stuck
although everything has arrived, each waiting event stands on a parked branch or above an
unsafe replay.
-/

namespace DoltSwarm.Protocol

open Lib

set_option autoImplicit false

/-! ## Unsafe heads are parked -/

def UnsafeHeadsParked (st : NodeState) : Prop :=
  ∀ o : FoldOrder, @replayUnsafeEligibleHeads o st (mergeableHeadEventIDs st) ⊆ st.parkedConflicts

theorem Settled.unsafeHeadsParked {p : PeerID} {st : NodeState} (h : Settled p st) :
    UnsafeHeadsParked st := by
  intro o id hid
  have hready : mergeableHeadEventIDs st ≠ ∅ := Finset.ne_empty_of_mem (replayUnsafe_subset _ _ hid)
  have hparked : st.parkedConflicts = (computeTentativeProjection st).2.1 := by
    rw [h.projected o]
  rw [hparked, projection_of_ready hready]
  exact Finset.mem_union_right _ hid

structure ParkingInv (s : State) : Prop extends LedgerInv s where
  parked : ∀ p ∈ peers, UnsafeHeadsParked (s.nodes.get p)

theorem parkingInv_of_reachable {s : State} (h : Reachable Step init s) : ParkingInv s where
  toLedgerInv := ledgerInv_of_reachable h
  parked := fun p hp => ((settledInv_of_reachable h).settled p hp).unsafeHeadsParked

/-! ## Stalls -/

theorem Keyed.ne_emptyEventId {clock : Clock} (h : Keyed clock) {id : EventID}
    (hid : id ∈ clock.keys) : id ≠ emptyEventId := by
  rintro rfl
  obtain ⟨heq, hshape⟩ := h.get hid
  have hpeer := hshape.peer_mem
  rw [hshape.id_eq] at heq
  have hzero : (clock.get emptyEventId).peer = 0 := congrArg EventID.peer heq
  rw [hzero] at hpeer
  exact absurd hpeer (by decide)

theorem finalizeEnabled_of_eligible [FoldOrder] {st : NodeState} (hk : Keyed st.clock)
    (h : (finalizationEligible st).Nonempty) : finalizeEnabled st := by
  have hkeys : ∀ id ∈ finalizationEligible st, id ≠ emptyEventId := fun id hid =>
    hk.ne_emptyEventId (Finset.mem_filter.mp (Finset.mem_filter.mp hid).1).1
  have hne := nextFinalizationEventID_ne st hkeys h
  refine ⟨hne, ?_⟩
  rcases (Finset.mem_filter.mp (nextFinalizationEventID_mem st hne)).2.2 with hsub | hsafe
  · exact Or.inl ⟨hne, hsub⟩
  · refine Or.inr ?_
    simp only [nextFinalizationMergeRoot, hne, hsafe.1, if_false]
    exact hsafe.2

theorem LedgerInv.parent_older {s : State} (h : LedgerInv s) {p : PeerID} (hp : p ∈ peers)
    {id pid : EventID} (hid : id ∈ (s.nodes.get p).clock.keys)
    (hpid : pid ∈ (s.nodes.get p).clock.keys)
    (hpar : pid ∈ ((s.nodes.get p).clock.get id).parentEventIds) :
    less ((s.nodes.get p).clock.get pid).hlc ((s.nodes.get p).clock.get id).hlc = true := by
  obtain ⟨hmem, _⟩ := (h.node p hp).get_mem hid
  obtain ⟨hmem', hid'⟩ := (h.node p hp).get_mem hpid
  obtain ⟨e, he, heq, hlt⟩ := h.older _ hmem pid hpar
  rw [h.unique _ hmem' e he (hid'.trans heq.symm)]
  exact hlt

/-- Among the unfinalized ancestors of a waiting event, one has all its parents finalized. -/
theorem exists_lowest_unfinalized {s : State} (h : LedgerInv s) {p : PeerID} (hp : p ∈ peers)
    (hclosed : ∀ id ∈ (s.nodes.get p).clock.keys, isParentClosed (s.nodes.get p).clock id)
    {id : EventID} (hid : id ∈ (s.nodes.get p).clock.keys)
    (hfin : id ∉ (s.nodes.get p).finalizedEvents.keys) :
    ∃ m ∈ (s.nodes.get p).clock.keys, m ∉ (s.nodes.get p).finalizedEvents.keys ∧
      Path (clockParents (s.nodes.get p).clock) id m ∧
      ((s.nodes.get p).clock.get m).parentEventIds ⊆ (s.nodes.get p).finalizedEvents.keys := by
  classical
  let waiting := (s.nodes.get p).clock.keys.filter fun m =>
    m ∉ (s.nodes.get p).finalizedEvents.keys ∧ Path (clockParents (s.nodes.get p).clock) id m
  have hne : waiting.Nonempty := ⟨id, Finset.mem_filter.mpr ⟨hid, hfin, .refl⟩⟩
  obtain ⟨m, hm, hmin⟩ := (h.keyed hp).hlc_strictTotal.exists_first hne
    fun a ha => (Finset.mem_filter.mp ha).1
  obtain ⟨hmk, hmf, hmp⟩ := Finset.mem_filter.mp hm
  refine ⟨m, hmk, hmf, hmp, fun pid hpid => ?_⟩
  by_contra hpf
  have hlink : pid ∈ clockParents (s.nodes.get p).clock m := by
    rw [clockParents, if_pos hmk]
    exact hpid
  have hpk : pid ∈ (s.nodes.get p).clock.keys :=
    (hclosed m hmk).2 (next_subset_unrolledClosure (by decide) (Finset.mem_singleton_self m) hlink)
  have hlow := hmin pid (Finset.mem_filter.mpr ⟨hpk, hpf, hmp.tail hlink⟩)
  rw [h.parent_older hp hmk hpk hpid] at hlow
  cases hlow

/-- When finalization is stuck at a peer whose events have all arrived, every waiting event has
a waiting ancestor-or-self that stands on a parked branch, or that is not a head and cannot be
replayed safely. -/
theorem stalled_event_has_blocked_ancestor {s : State} (h : Reachable Step init s) {p : PeerID}
    (hp : p ∈ peers) (o : FoldOrder)
    (hall : ∀ id ∈ (s.nodes.get p).clock.keys, isParentClosed (s.nodes.get p).clock id ∧
      id ∈ (s.nodes.get p).chunksReady ∧ coveredByActivePeers (s.nodes.get p) id)
    (hstall : ¬@finalizeEnabled o (s.nodes.get p)) :
    ∀ id ∈ (s.nodes.get p).clock.keys, id ∉ (s.nodes.get p).finalizedEvents.keys →
      ∃ m ∈ (s.nodes.get p).clock.keys, m ∉ (s.nodes.get p).finalizedEvents.keys ∧
        Path (clockParents (s.nodes.get p).clock) id m ∧
        (m ∈ parkedBranchEvents (s.nodes.get p) ∨
          m ∉ (s.nodes.get p).headEventIds ∧
          ((s.nodes.get p).clock.get m).parentEventIds ⊆ (s.nodes.get p).finalizedEvents.keys ∧
          m ∉ subsumedEvents (s.nodes.get p).clock ∧
          ¬@replayFinalizationSafe o (s.nodes.get p) m) := by
  have hinv := parkingInv_of_reachable h
  intro id hid hfin
  obtain ⟨m, hmk, hmf, hpath, hpar⟩ := exists_lowest_unfinalized hinv.toLedgerInv hp
    (fun x hx => (hall x hx).1) hid hfin
  refine ⟨m, hmk, hmf, hpath, ?_⟩
  by_cases hbranch : m ∈ parkedBranchEvents (s.nodes.get p)
  · exact Or.inl hbranch
  · obtain ⟨hclosed, hready, hcov⟩ := hall m hmk
    have hcand : m ∈ finalizationCandidates (s.nodes.get p) :=
      Finset.mem_filter.mpr ⟨hmk, hmf, hbranch, hclosed, hready, hcov⟩
    have hnot : ¬(m ∈ subsumedEvents (s.nodes.get p).clock ∨
        @replayFinalizationSafe o (s.nodes.get p) m) := by
      intro hor
      exact hstall (finalizeEnabled_of_eligible (hinv.keyed hp)
        ⟨m, Finset.mem_filter.mpr ⟨hcand, hpar, hor⟩⟩)
    have hsub : m ∉ subsumedEvents (s.nodes.get p).clock := fun hs => hnot (Or.inl hs)
    have hblocked : ¬@replayFinalizationSafe o (s.nodes.get p) m := fun hs => hnot (Or.inr hs)
    refine Or.inr ⟨fun hhead => hbranch ?_, hpar, hsub, hblocked⟩
    -- an unsafe head is parked, hence on its own parked branch
    have hmerge : m ∈ mergeableHeadEventIDs (s.nodes.get p) :=
      Finset.mem_filter.mpr ⟨Finset.mem_sdiff.mpr ⟨hhead, hmf⟩, hclosed, hready⟩
    have hparked := hinv.parked p hp o
      (mem_replayUnsafeEligibleHeads.mpr ⟨hmerge, hsub, hpar, hblocked⟩)
    exact subset_unrolledClosure _ _ hparked

/-! ## A conflict over a shared ancestor -/

/-- Peer 1 writes a root and a child; peer 2 writes a conflicting child of the same root.
Everything is delivered and acknowledged, and the second child is parked. -/
def sharedAncestorRun : List Action :=
  let root : Event := ⟨⟨1, 1, 1⟩, 12, 0, ∅, none, none, ⟨1, 1, 1⟩, 1⟩
  let kept : Event := ⟨⟨1, 1, 2⟩, 13, 0, {⟨1, 1, 1⟩}, none, none, ⟨1, 2, 1⟩, 1⟩
  let parked : Event := ⟨⟨2, 1, 3⟩, 15, 0, {⟨1, 1, 1⟩}, none, none, ⟨1, 3, 2⟩, 2⟩
  [.write 1 12, .receive 2 root, .chunksReady 2 root.eventId, .write 1 13, .write 2 15,
    .receive 1 parked, .chunksReady 1 parked.eventId,
    .receive 2 kept, .chunksReady 2 kept.eventId,
    .receive 3 root, .receive 3 kept, .receive 3 parked, .chunksReady 3 root.eventId,
    .chunksReady 3 kept.eventId, .chunksReady 3 parked.eventId,
    .heartbeat 1 2, .heartbeat 1 3]

def sharedAncestorState : State := (runOutcome sharedAncestorRun).2

theorem sharedAncestorRun_runs : Run Step init (runOutcome sharedAncestorRun).1
    sharedAncestorState := run_runOutcome (by decide +kernel)

end DoltSwarm.Protocol
