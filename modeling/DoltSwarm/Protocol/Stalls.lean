import DoltSwarm.Protocol.Competition

/-!
# Stalls that nothing surfaces

Finalization stops below a parked head and at an event whose replay is unsafe. Only heads are
tested for a safe replay, and only what lies below a parked head counts as its branch, so an
unsafe event that has a child stalls without a trace, and so does a live event above an ancestor
that it shares with a parked head. Runs that stay clear of both surface every stall.
-/

namespace DoltSwarm.Protocol

open Lib

set_option autoImplicit false

/-! ## States without a hidden stall -/

section

variable [FoldOrder]

/-- The state a peer hands to its projection: the ancestor walk is long enough for its clock,
every event that is next in line below a head is subsumed or safe to replay, and a head that does
not merge in its turn shares no waiting ancestor with another head. -/
def branchesClear (st : NodeState) : Prop :=
  st.clock.keys.card ≤ maxEvents ∧
  (∀ id ∈ st.clock.keys, id ∉ st.finalizedEvents.keys → id ∉ st.headEventIds →
    (st.clock.get id).parentEventIds ⊆ st.finalizedEvents.keys →
    id ∉ subsumedEvents st.clock → replayFinalizationSafe st id) ∧
  ∀ k ∈ tentativeHeadEventIDs st, ¬mergesInTurn st k → ∀ head ∈ st.headEventIds, head ≠ k →
    ancestorIdClosure {k} st.clock ∩ ancestorIdClosure {head} st.clock ⊆ st.finalizedEvents.keys

instance (st : NodeState) : Decidable (branchesClear st) :=
  inferInstanceAs (Decidable (_ ∧ _ ∧ _))

/-- All events of the clock have arrived here and at the active peers, and still there is
nothing to finalize. -/
def stalled (st : NodeState) : Prop :=
  (∀ id ∈ st.clock.keys, isParentClosed st.clock id ∧ id ∈ st.chunksReady ∧
    coveredByActivePeers st id) ∧
  ¬finalizeEnabled st

instance (st : NodeState) : Decidable (stalled st) := inferInstanceAs (Decidable (_ ∧ _))

/-- A step that hands clear states to all projections. -/
def clearStep (s : State) (a : Action) : Option State :=
  if ∀ p ∈ peers, branchesClear ((unprojected s a).get p) then step s a else none

theorem parked_not_mergesInTurn {st : NodeState} (hk : Keyed st.clock)
    (hheads : st.headEventIds ⊆ st.clock.keys) {k : EventID}
    (hparked : k ∈ (computeTentativeProjection st).2.1) : ¬mergesInTurn st k := by
  rintro ⟨hin, hturn⟩
  have hmerge := projectionReadyHeads_subset st hin
  have hkeys : projectionReadyHeads st ⊆ st.clock.keys :=
    (projectionReadyHeads_subset st).trans ((mergeable_subset_tentative st).trans
      (Finset.sdiff_subset.trans hheads))
  rw [projection_of_ready (Finset.ne_empty_of_mem hmerge)] at hparked
  simp only [Finset.mem_union] at hparked
  rcases hparked with (hfold | hlag) | hblocked
  · exact hturn ((mem_anchoredFold_conflicts hk hkeys hin).mp hfold)
  · exact (Finset.mem_sdiff.mp (Finset.mem_inter.mp hlag).2).2 hmerge
  · exact (Finset.mem_sdiff.mp hin).2 hblocked

end

/-- A step as the protocol takes it, from a state to which `clearStep` applies. -/
def ClearStep (s : State) (a : Action) (s' : State) : Prop :=
  ∃ o : FoldOrder, @clearStep o s a = some s'

theorem clearStep_spec [FoldOrder] {s s' : State} {a : Action} (h : clearStep s a = some s') :
    (∀ p ∈ peers, branchesClear ((unprojected s a).get p)) ∧ step s a = some s' := by
  rw [clearStep] at h
  split at h
  · exact ⟨‹_›, h⟩
  · cases h

theorem run_of_clearRun {tr : List (State × Action)} {s : State} (h : Run ClearStep init tr s) :
    Run Step init tr s := by
  induction h with
  | nil => exact .nil
  | snoc _ hs ih =>
    obtain ⟨o, hs⟩ := hs
    exact ih.snoc ⟨o, (@clearStep_spec o _ _ _ hs).2⟩

/-! ## What a clear state tells about its projection -/

/-- Above every event of a clock there is a head. -/
theorem LedgerInv.exists_head_above {s : State} (h : LedgerInv s) {p : PeerID} (hp : p ∈ peers)
    {id : EventID} (hid : id ∈ (s.nodes.get p).clock.keys) :
    ∃ head ∈ (s.nodes.get p).headEventIds, Path (clockParents (s.nodes.get p).clock) head id := by
  obtain ⟨head, hkey, hpath, htop⟩ := (h.clock_acyclic hp).exists_top hid
  refine ⟨head, ?_, hpath⟩
  rw [(h.node p hp).heads, mem_computeHeadEventIDs]
  refine ⟨hkey, fun x hx hpar => htop x hx ?_⟩
  rw [clockParents, if_pos hx]
  exact hpar

/-- What a clear step leaves at a peer: events next in line below a head are subsumed or safe,
and a parked head shares no waiting ancestor with another head. -/
structure Surfaced (st : NodeState) : Prop where
  walk : st.clock.keys.card ≤ maxEvents
  inLine : ∀ o : FoldOrder, ∀ id ∈ st.clock.keys, id ∉ st.finalizedEvents.keys →
    id ∉ st.headEventIds → (st.clock.get id).parentEventIds ⊆ st.finalizedEvents.keys →
    id ∉ subsumedEvents st.clock → @replayFinalizationSafe o st id
  apart : ∀ k ∈ st.parkedConflicts, ∀ head ∈ st.headEventIds, head ≠ k →
    ancestorIdClosure {k} st.clock ∩ ancestorIdClosure {head} st.clock ⊆ st.finalizedEvents.keys

theorem surfaced_of_clearStep {s s' : State} (h : Reachable Step init s) {a : Action}
    (hstep : ClearStep s a s') {p : PeerID} (hp : p ∈ peers) : Surfaced (s'.nodes.get p) := by
  obtain ⟨o, hs⟩ := hstep
  obtain ⟨hclear, hs⟩ := @clearStep_spec o _ _ _ hs
  have heff := @effect_of_step o _ _ _ hs
  have hset' := @settledInv_effect o _ _ _ (settledInv_of_reachable h) heff
  obtain ⟨-, hparked, hheads, hclock, hfinalized, hroot⟩ :=
    @projectedFrom_of_effect o _ _ _ (settledInv_of_reachable h) heff _ hp
  obtain ⟨hcard, hline, hapart⟩ := hclear p hp
  have hkeyed := hset'.keyed hp
  -- the projection leaves all that is read here as it is
  generalize (@unprojected o s a).get p = u at *
  constructor
  case walk =>
    rw [hclock]
    exact hcard
  case inLine =>
    intro o' id
    have hsafe : @replayFinalizationSafe o' (s'.nodes.get p) id ↔
        @replayFinalizationSafe o u id := by
      rw [replayFinalizationSafe_order o' o hkeyed]
      simp only [replayFinalizationSafe, hclock, hroot]
    rw [hsafe, hclock, hfinalized, hheads]
    exact hline id
  case apart =>
    intro k hk
    have htent : k ∈ tentativeHeadEventIDs u := by
      rw [tentativeHeadEventIDs, ← hheads, ← hfinalized]
      exact (hset'.settled p hp).parked_subset hk
    have hkeys : u.headEventIds ⊆ u.clock.keys := by
      rw [← hheads, ← hclock, (hset'.node p hp).heads]
      exact computeHeadEventIDs_subset _
    rw [hparked] at hk
    rw [hclock, hfinalized, hheads]
    exact hapart k htent (@parked_not_mergesInTurn o _ (hclock ▸ hkeyed) hkeys _ hk)

/-- In a run of clear steps, every waiting event of a stalled peer stands on the branch of a
parked head. -/
theorem stalls_are_surfaced {tr : List (State × Action)} {s : State}
    (h : Run ClearStep init tr s) {p : PeerID} (hp : p ∈ peers) (o : FoldOrder)
    (hstall : @stalled o (s.nodes.get p)) :
    ∀ id ∈ (s.nodes.get p).clock.keys, id ∉ (s.nodes.get p).finalizedEvents.keys →
      id ∈ parkedBranchEvents (s.nodes.get p) := by
  intro id hid hfin
  have hrun : Reachable Step init s := ⟨tr, run_of_clearRun h⟩
  have hled := ledgerInv_of_reachable hrun
  have hsurf : Surfaced (s.nodes.get p) := by
    cases h with
    | nil =>
      have hget : init.nodes.get p = emptyNodeState p := Map.get_mapBy_of_mem _ hp
      rw [hget] at hid
      exact absurd hid (Finset.notMem_empty id)
    | snoc hr hs => exact surfaced_of_clearStep ⟨_, run_of_clearRun hr⟩ hs hp
  have hchains := hled.chainsWithin hp hsurf.walk
  obtain ⟨m, hmk, hmf, hpath, hbranch | ⟨hhead, hpar, hsub, hblocked⟩⟩ :=
    stalled_event_has_blocked_ancestor hrun hp o hstall.1 hstall.2 id hid hfin
  · obtain ⟨k, hk, hbelow⟩ := mem_unrolledClosure_iff_of_seed.mp hbranch
    obtain ⟨head, hhead, habove⟩ := hled.exists_head_above hp hid
    -- the event and its blocked ancestor are below one head, which is the parked one
    have hsame : head = k := by
      by_contra hne
      exact hmf (hsurf.apart k hk head hhead hne (Finset.mem_inter.mpr
        ⟨hbelow, (mem_ancestorIdClosure_iff hchains).mpr (habove.trans hpath)⟩))
    subst hsame
    exact mem_unrolledClosure_iff_of_seed.mpr
      ⟨head, hk, (mem_ancestorIdClosure_iff hchains).mpr habove⟩
  · exact absurd (hsurf.inLine o m hmk hmf hhead hpar hsub) hblocked

/-! ## A surfaced stall and two hidden ones -/

/-- Peer 1 writes once and peer 2 twice, knowing nothing of each other. All is delivered and
acknowledged, and peer 1 finalizes its own write. -/
def rivalRun (own low high : Int) : List Action :=
  let first : Event := ⟨⟨1, 1, 1⟩, own, 0, ∅, none, none, ⟨1, 1, 1⟩, 1⟩
  let second : Event := ⟨⟨2, 1, 1⟩, low, 0, ∅, none, none, ⟨1, 1, 2⟩, 2⟩
  let third : Event := ⟨⟨2, 1, 2⟩, high, 0, {⟨2, 1, 1⟩}, none, none, ⟨1, 2, 2⟩, 2⟩
  [.write 1 own, .write 2 low, .write 2 high] ++ deliver first ++ deliver second ++
    deliver third ++ heartbeats ++ [.finalize 1]

/-- The second write of peer 2 conflicts and is parked; the first one waits on its branch. -/
theorem stalls_are_surfaced_on_rivals : ∃ tr s, Run ClearStep init tr s ∧
    (s.nodes.get 1).parkedConflicts = {⟨2, 1, 2⟩} ∧
    (⟨2, 1, 1⟩ : EventID) ∉ (s.nodes.get 1).finalizedEvents.keys ∧
    (⟨2, 1, 1⟩ : EventID) ∈ parkedBranchEvents (s.nodes.get 1) := by
  have hrun : ∃ tr s, Run ClearStep init tr s ∧ @stalled ascendingFolds (s.nodes.get 1) ∧
      (s.nodes.get 1).parkedConflicts = {⟨2, 1, 2⟩} ∧
      (⟨2, 1, 1⟩ : EventID) ∈ (s.nodes.get 1).clock.keys ∧
      (⟨2, 1, 1⟩ : EventID) ∉ (s.nodes.get 1).finalizedEvents.keys :=
    exists_run_of_execute (f := @clearStep ascendingFolds)
      (fun _ _ _ hs => ⟨ascendingFolds, hs⟩) (rivalRun 14 12 13) (by decide +kernel)
  obtain ⟨tr, s, hrun, hstall, hparked, hheld, hwaits⟩ := hrun
  exact ⟨tr, s, hrun, hparked, hwaits,
    stalls_are_surfaced hrun (by decide) ascendingFolds hstall _ hheld hwaits⟩

def hiddenStallState : State := (runOutcome (rivalRun 14 11 10 ++ [.finalize 2, .finalize 3])).2

theorem reachable_hiddenStallState : Reachable Step init hiddenStallState :=
  ⟨_, run_runOutcome (by decide +kernel)⟩

/-- Peer 2 sets a dimension that peer 1 has set otherwise and takes it back again. Its second
write conflicts with nothing, so it is not parked, and its first one, which no peer can replay,
is not a head. No peer can finalize anything any more, and no peer has anything parked. Over a
shared root, the child that is not parked waits on no parked branch. -/
theorem stalls_are_hidden :
    (Reachable Step init hiddenStallState ∧ ∀ p ∈ peers,
      @stalled ascendingFolds (hiddenStallState.nodes.get p) ∧
      (hiddenStallState.nodes.get p).parkedConflicts = ∅ ∧
      (⟨2, 1, 1⟩ : EventID) ∈ (hiddenStallState.nodes.get p).clock.keys ∧
      (⟨2, 1, 1⟩ : EventID) ∉ (hiddenStallState.nodes.get p).finalizedEvents.keys ∧
      (⟨2, 1, 1⟩ : EventID) ∉ parkedBranchEvents (hiddenStallState.nodes.get p)) ∧
    Reachable Step init sharedAncestorState ∧
      @stalled ascendingFolds (sharedAncestorState.nodes.get 1) ∧
      (⟨1, 1, 2⟩ : EventID) ∈ (sharedAncestorState.nodes.get 1).clock.keys ∧
      (⟨1, 1, 2⟩ : EventID) ∉ (sharedAncestorState.nodes.get 1).finalizedEvents.keys ∧
      (⟨1, 1, 2⟩ : EventID) ∉ parkedBranchEvents (sharedAncestorState.nodes.get 1) :=
  ⟨⟨reachable_hiddenStallState, by decide +kernel⟩, ⟨_, sharedAncestorRun_runs⟩,
    by decide +kernel, by decide +kernel, by decide +kernel, by decide +kernel⟩

end DoltSwarm.Protocol
