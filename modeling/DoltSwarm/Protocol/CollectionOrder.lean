import DoltSwarm.Lib.Pruning
import DoltSwarm.Protocol.Compaction
import DoltSwarm.Protocol.GarbageCollection

/-!
# The order of garbage collection

GC_CLOCK drops one body at a time, and which one is up to the peer. Whatever it picks, the bodies
that are left once nothing can be dropped are the events that are not finalized and their
ancestors. The closure in the guard is cut off after a fixed number of rounds, which does not
matter here: an event with something above it has a child.
-/

namespace DoltSwarm.Protocol

open Lib

set_option autoImplicit false

def CollectStep (p : PeerID) (s : State) (eventId : EventID) (s' : State) : Prop :=
  Step s (.gc p eventId) s'

/-- The events that are not finalized, and what is below them. -/
def liveAncestors (st : NodeState) : Finset EventID :=
  reachedFromUnmarked (clockParents st.clock) st.finalizedEvents.keys st.clock.keys

/-- The state with another clock and all that GC_CLOCK derives from it. -/
def collectedTo (st : NodeState) (p : PeerID) (clock : Clock) : NodeState :=
  { st with
    clock
    headEventIds := computeHeadEventIDs clock
    chunksReady := st.chunksReady ∩ clock.keys
    peerSeenFrontier := st.peerSeenFrontier.put p (observedFrontier clock) }

/-! ## What may be dropped -/

section

variable {st st' : NodeState} (hacyclic : Acyclic (clockParents st.clock))

include hacyclic

theorem gcPruneable_eq_prunable : gcPruneable st =
    prunable (clockParents st.clock) st.finalizedEvents.keys st.clock.keys := by
  ext x
  rw [mem_prunable]
  constructor
  · intro hx
    obtain ⟨hfin, hmem⟩ := Finset.mem_inter.mp (Finset.mem_filter.mp hx).1
    refine ⟨hmem, hfin, fun y _ hlink => ?_⟩
    have hne : y ≠ x := by
      rintro rfl
      exact hacyclic y (.single hlink)
    exact notMem_clockParents_of_gcPruneable hx hne hlink
  · rintro ⟨hmem, hfin, hfree⟩
    refine Finset.mem_filter.mpr ⟨Finset.mem_inter.mpr ⟨hfin, hmem⟩, ?_⟩
    rintro ⟨y, -, hne, hclosure⟩
    obtain ⟨a, ha, hpath⟩ := path_of_mem_unrolledClosure hclosure
    rw [Finset.mem_singleton.mp ha] at hpath
    rcases hpath.cases_tail with heq | ⟨child, -, hlink⟩
    · exact hne heq.symm
    · exact hfree child (mem_keys_of_mem_clockParents hlink) hlink

theorem gcPruneable_of_subMap (hsub : Map.SubMap st'.clock st.clock)
    (hfin : st'.finalizedEvents = st.finalizedEvents) : gcPruneable st' =
      prunable (clockParents st.clock) st.finalizedEvents.keys st'.clock.keys := by
  rw [gcPruneable_eq_prunable (hacyclic.mono (clockParents_subMap hsub)), hfin]
  ext x
  rw [mem_prunable, mem_prunable]
  refine and_congr_right fun _ => and_congr_right fun _ => forall₂_congr fun y hy => ?_
  rw [clockParents, clockParents, if_pos hy, if_pos (hsub.keys_subset hy), hsub.get_eq hy]

end

/-! ## Runs of collections -/

theorem collectStep_iff {p : PeerID} (hp : p ∈ peers) {s s' : State} {id : EventID} :
    CollectStep p s id s' ↔ id ∈ gcPruneable (s.nodes.get p) ∧
      ∃ o : FoldOrder, s' = s.setNode p (@gcResult o (s.nodes.get p) p id) := by
  constructor
  · rintro ⟨o, hstep⟩
    simp only [step] at hstep
    split_ifs at hstep with hg
    exact ⟨hg.2, o, (Option.some.inj hstep).symm⟩
  · rintro ⟨hx, o, rfl⟩
    exact ⟨o, if_pos ⟨hp, hx⟩⟩

theorem dropEvent_subMap (clock : Clock) (id : EventID) : Map.SubMap (dropEvent clock id) clock :=
  Map.subMap_removeAll clock {id}

section

variable {p : PeerID} (hp : p ∈ peers) {s s' : State} {tr : List (State × EventID)}

theorem reachable_of_collects (h : Reachable Step init s) (hrun : Run (CollectStep p) s tr s') :
    Reachable Step init s' := hrun.invariant h fun _ _ _ ht hstep => ht.tail hstep

include hp

/-- Collections take events off the clock as tops are taken off a graph. -/
theorem prunes_of_collects (h : Reachable Step init s) (hrun : Run (CollectStep p) s tr s') :
    Map.SubMap (s'.nodes.get p).clock (s.nodes.get p).clock ∧
    (s'.nodes.get p).finalizedEvents = (s.nodes.get p).finalizedEvents ∧
    ∃ prunes, prunes.length = tr.length ∧
      Run (PruneStep (clockParents (s.nodes.get p).clock) (s.nodes.get p).finalizedEvents.keys)
        (s.nodes.get p).clock.keys prunes (s'.nodes.get p).clock.keys := by
  have hacyclic := (ledgerInv_of_reachable h).clock_acyclic hp
  induction hrun with
  | nil => exact ⟨Map.SubMap.refl _, rfl, [], rfl, .nil⟩
  | snoc _ hstep ih =>
    obtain ⟨hsub, hfin, prunes, hlen, hprunes⟩ := ih
    obtain ⟨hx, o, rfl⟩ := (collectStep_iff hp).mp hstep
    rw [gcPruneable_of_subMap hacyclic hsub hfin] at hx
    simp only [State.setNode, Map.get_put_self]
    refine ⟨(dropEvent_subMap _ _).trans hsub, hfin, _, ?_, hprunes.snoc ⟨hx, ?_⟩⟩
    · rw [List.length_cons, List.length_cons, hlen]
    ext id
    exact mem_keys_dropEvent.trans (and_comm.trans Finset.mem_erase.symm)

theorem clock_of_settled (h : Reachable Step init s) (hrun : Run (CollectStep p) s tr s')
    (hsettled : gcPruneable (s'.nodes.get p) = ∅) :
    (s'.nodes.get p).clock.keys = liveAncestors (s.nodes.get p) ∧
    Map.SubMap (s'.nodes.get p).clock (s.nodes.get p).clock ∧
    (liveAncestors (s.nodes.get p)).card + tr.length = (s.nodes.get p).clock.keys.card := by
  have hacyclic := (ledgerInv_of_reachable h).clock_acyclic hp
  have hsrc : ∀ a b, b ∈ clockParents (s.nodes.get p).clock a → a ∈ (s.nodes.get p).clock.keys :=
    fun _ _ => mem_keys_of_mem_clockParents
  obtain ⟨hsub, hfin, prunes, hlen, hprunes⟩ := prunes_of_collects hp h hrun
  rw [gcPruneable_of_subMap hacyclic hsub hfin] at hsettled
  obtain ⟨hreached, hkeys, hcard⟩ := reached_subset_of_prunes hacyclic hsrc hprunes
  have heq := eq_reached_of_settled hacyclic hsrc hreached hkeys hsettled
  refine ⟨heq, hsub, ?_⟩
  rw [← hlen, ← hcard, heq]
  rfl

end

/-! ## The rest of the state -/

theorem get_setNode (s : State) (p : PeerID) (st : NodeState) : (s.setNode p st).nodes.get p = st :=
  Map.get_put_self _ _ _

theorem setNode_setNode (s : State) (p : PeerID) (st st' : NodeState) :
    (s.setNode p st).setNode p st' = s.setNode p st' := by
  simp only [State.setNode, Map.put_put]

/-- Finalized events whose bodies are still there have finalized parents. -/
def finalizedBelow (st : NodeState) : Prop :=
  ∀ id ∈ retainedFinalizedEventIDs st, (st.clock.get id).parentEventIds ⊆ st.finalizedEvents.keys

instance (st : NodeState) : Decidable (finalizedBelow st) :=
  inferInstanceAs (Decidable (∀ id ∈ retainedFinalizedEventIDs st, _))

theorem gcBaseResult_collectedTo (st : NodeState) (p : PeerID) (clock : Clock) (x : EventID) :
    gcBaseResult (collectedTo st p clock) p x = collectedTo st p (dropEvent clock x) := by
  have hchunks : st.chunksReady ∩ clock.keys ∩ (dropEvent clock x).keys =
      st.chunksReady ∩ (dropEvent clock x).keys := by
    rw [Finset.inter_assoc, Finset.inter_eq_right.mpr (dropEvent_subMap clock x).keys_subset]
  have hput : (st.peerSeenFrontier.put p (observedFrontier clock)).put p
      (observedFrontier (dropEvent clock x)) =
      st.peerSeenFrontier.put p (observedFrontier (dropEvent clock x)) := Map.put_put _ _ _ _
  simp only [gcBaseResult, collectedTo, hchunks, hput]

section

variable {p : PeerID} (hp : p ∈ peers) {s s' : State} {tr : List (State × EventID)}

include hp

theorem gcReady_of_collects (h : Reachable Step init s) (hbelow : finalizedBelow (s.nodes.get p))
    (hrun : Run (CollectStep p) s tr s') (o : FoldOrder) : @GcReady o p (s'.nodes.get p) := by
  obtain ⟨hsub, hfin, -⟩ := prunes_of_collects hp h hrun
  have hinv := settledInv_of_reachable (reachable_of_collects h hrun)
  refine @GcReady.mk o p _ ((hinv.settled p hp).projected o) (hinv.node p hp).heads
    (hinv.settled p hp).frontier fun id hid => ?_
  obtain ⟨hidfin, hidmem⟩ := Finset.mem_inter.mp hid
  rw [hfin] at hidfin ⊢
  rw [hsub.get_eq hidmem]
  exact hbelow id (Finset.mem_inter.mpr ⟨hidfin, hsub.keys_subset hidmem⟩)

theorem state_of_collects (h : Reachable Step init s) (hbelow : finalizedBelow (s.nodes.get p))
    (hrun : Run (CollectStep p) s tr s') (hne : tr ≠ []) :
    s' = s.setNode p (collectedTo (s.nodes.get p) p (s'.nodes.get p).clock) := by
  induction hrun with
  | nil => exact absurd rfl hne
  | @snoc tr t x _ hrun hstep ih =>
    have hready := gcReady_of_collects hp h hbelow hrun
    have hinv := ledgerInv_of_reachable (reachable_of_collects h hrun)
    obtain ⟨hx, o, rfl⟩ := (collectStep_iff hp).mp hstep
    have hmem : x ∈ (t.nodes.get p).clock.keys :=
      (Finset.mem_inter.mp (Finset.mem_filter.mp hx).1).2
    have hresolved := (hinv.shape _ ((hinv.node p hp).get_mem hmem).1).resolved_mem
    rw [@gcResult_eq o p _ _ (hready o) hx hresolved]
    rcases eq_or_ne tr [] with rfl | htr
    · cases hrun
      simp only [State.setNode, Map.get_put_self]
      rfl
    · obtain ⟨clock, rfl⟩ : ∃ clock, t = s.setNode p (collectedTo (s.nodes.get p) p clock) :=
        ⟨_, ih htr⟩
      rw [get_setNode, gcBaseResult_collectedTo, setNode_setNode, get_setNode]
      rfl

/-- Garbage collection at one peer comes to an end in every order, always after the same number
of collections and with the same clock, that of the events that are not finalized and their
ancestors. If finalized events have finalized parents, the whole system ends in the same state. -/
theorem collection_order_is_irrelevant (h : Reachable Step init s) :
    (∃ tr s', Run (CollectStep p) s tr s' ∧ gcPruneable (s'.nodes.get p) = ∅) ∧
    ∀ tr s', Run (CollectStep p) s tr s' → gcPruneable (s'.nodes.get p) = ∅ →
      (s'.nodes.get p).clock.keys = liveAncestors (s.nodes.get p) ∧
      Map.SubMap (s'.nodes.get p).clock (s.nodes.get p).clock ∧
      (liveAncestors (s.nodes.get p)).card + tr.length = (s.nodes.get p).clock.keys.card ∧
      (finalizedBelow (s.nodes.get p) → ∀ tr₂ s₂, Run (CollectStep p) s tr₂ s₂ →
        gcPruneable (s₂.nodes.get p) = ∅ → s₂ = s') := by
  constructor
  · -- every collection leaves an event less
    have hshrinks : ∀ t id t', True → CollectStep p t id t' → True ∧
        (t'.nodes.get p).clock.keys.card < (t.nodes.get p).clock.keys.card := by
      intro t id t' _ hstep
      obtain ⟨hx, o, rfl⟩ := (collectStep_iff hp).mp hstep
      have hmem := (Finset.mem_inter.mp (Finset.mem_filter.mp hx).1).2
      rw [get_setNode]
      refine ⟨trivial, Finset.card_lt_card ⟨(dropEvent_subMap _ id).keys_subset, fun hsub => ?_⟩⟩
      exact (mem_keys_dropEvent.mp (hsub hmem)).2 rfl
    obtain ⟨tr, s', hrun, hhalt⟩ := exists_halting_run _ hshrinks (s := s) trivial
    refine ⟨tr, s', hrun, Finset.eq_empty_of_forall_notMem fun id hid => ?_⟩
    exact hhalt id _ ((collectStep_iff hp).mpr ⟨hid, ascendingFolds, rfl⟩)
  · intro tr s' hrun hsettled
    obtain ⟨hkeys, hsub, hcard⟩ := clock_of_settled hp h hrun hsettled
    refine ⟨hkeys, hsub, hcard, fun hbelow tr₂ s₂ hrun₂ hsettled₂ => ?_⟩
    obtain ⟨hkeys₂, hsub₂, hcard₂⟩ := clock_of_settled hp h hrun₂ hsettled₂
    have hlen : tr₂.length = tr.length := by omega
    rcases eq_or_ne tr [] with rfl | htr
    · rw [List.length_nil, List.length_eq_zero_iff] at hlen
      subst hlen
      cases hrun
      cases hrun₂
      rfl
    · have htr₂ : tr₂ ≠ [] := by
        rintro rfl
        exact htr (List.length_eq_zero_iff.mp hlen.symm)
      have hclock : (s₂.nodes.get p).clock = (s'.nodes.get p).clock := by
        refine Map.ext_get (hkeys₂.trans hkeys.symm) fun id hid => ?_
        rw [hsub₂.get_eq hid, hsub.get_eq (hkeys ▸ hkeys₂ ▸ hid)]
      rw [state_of_collects hp h hbelow hrun₂ htr₂, hclock]
      exact (state_of_collects hp h hbelow hrun htr).symm

end

/-- Peer 3 has finalized both events of the fork by itself and has written one since. -/
def collectableState : State :=
  (runOutcome (forkRun ++
    [.heartbeat 3 1, .heartbeat 3 2, .finalize 3, .finalize 3, .write 3 14])).2

theorem reachable_collectableState : Reachable Step init collectableState :=
  ⟨_, run_runOutcome (by decide +kernel)⟩

def collects (ids : List EventID) : List (State × EventID) × State :=
  outcome (fun s id => @step ascendingFolds s (.gc 3 id)) collectableState ids

theorem run_collects (ids : List EventID)
    (h : (execute (fun s id => @step ascendingFolds s (.gc 3 id))
      collectableState ids).isSome = true) :
    Run (CollectStep 3) collectableState (collects ids).1 (collects ids).2 :=
  run_outcome (fun _ _ _ hs => ⟨ascendingFolds, hs⟩) h

theorem collection_order_is_irrelevant_on_fork :
    (collects [⟨1, 1, 1⟩, ⟨2, 1, 1⟩]).2 = (collects [⟨2, 1, 1⟩, ⟨1, 1, 1⟩]).2 ∧
    ((collects [⟨1, 1, 1⟩, ⟨2, 1, 1⟩]).2.nodes.get 3).clock.keys = {⟨3, 1, 4⟩} := by
  have h := (collection_order_is_irrelevant (p := 3) (by decide) reachable_collectableState).2 _ _
    (run_collects [⟨2, 1, 1⟩, ⟨1, 1, 1⟩] (by decide +kernel)) (by decide +kernel)
  exact ⟨h.2.2.2 (by decide +kernel) _ _ (run_collects _ (by decide +kernel)) (by decide +kernel),
    by decide +kernel⟩

/-! ## Compaction -/

section

variable {st : NodeState}

theorem passPrunes_of_valid (hvalid : invalidRetainedFinalizedEventIDs st = ∅) :
    passPrunes st = gcPruneable st := by
  rw [passPrunes, hvalid, Finset.union_empty]

theorem compactPass_valid (hvalid : invalidRetainedFinalizedEventIDs st = ∅) :
    invalidRetainedFinalizedEventIDs (compactPass st) = ∅ := by
  refine Finset.eq_empty_of_forall_notMem fun id hid => ?_
  obtain ⟨hret, hbad⟩ := Finset.mem_filter.mp hid
  obtain ⟨hfin, hmem⟩ := Finset.mem_inter.mp hret
  rw [compactPass_clock, passPrunes_of_valid hvalid, Map.keys_removeAll, Finset.mem_sdiff] at hmem
  obtain ⟨hmem, hkept⟩ := hmem
  have hretained : id ∈ retainedFinalizedEventIDs st := Finset.mem_inter.mpr ⟨hfin, hmem⟩
  obtain ⟨hclosed, hready⟩ : isParentClosed st.clock id ∧ id ∈ st.chunksReady := by
    by_contra hnot
    have hinvalid : id ∈ invalidRetainedFinalizedEventIDs st :=
      Finset.mem_filter.mpr ⟨hretained, hnot⟩
    rw [hvalid] at hinvalid
    exact Finset.notMem_empty id hinvalid
  -- nothing below `id` is a top
  have hbelow : ∀ y ∈ ancestorIdClosure {id} st.clock, y ∉ gcPruneable st := by
    intro y hy hprune
    by_cases hne : id = y
    · exact hkept (hne ▸ hprune)
    · exact notMem_closure_of_gcPruneable hprune hne hy
  have hsame : ancestorIdClosure {id} (compactPass st).clock = ancestorIdClosure {id} st.clock := by
    apply unrolledClosure_congr
    intro y hy
    apply clockParents_congr
    rw [compactPass_clock, passPrunes_of_valid hvalid, Map.lookup_removeAll, if_neg (hbelow y hy)]
  apply hbad
  constructor
  · refine ⟨?_, ?_⟩
    · rw [compactPass_clock, passPrunes_of_valid hvalid, Map.keys_removeAll]
      exact Finset.mem_sdiff.mpr ⟨hmem, hkept⟩
    · rw [hsame]
      intro y hy
      rw [compactPass_clock, passPrunes_of_valid hvalid, Map.keys_removeAll]
      exact Finset.mem_sdiff.mpr ⟨hclosed.2 hy, hbelow y hy⟩
  · rw [compactPass_chunksReady, passPrunes_of_valid hvalid]
    exact Finset.mem_sdiff.mpr ⟨hready, hkept⟩

theorem liveAncestors_subset_passes (hacyclic : Acyclic (clockParents st.clock))
    (hvalid : invalidRetainedFinalizedEventIDs st = ∅) (n : ℕ) :
    liveAncestors st ⊆ (compactPass^[n] st).clock.keys ∧
      invalidRetainedFinalizedEventIDs (compactPass^[n] st) = ∅ := by
  induction n with
  | zero => exact ⟨Finset.inter_subset_left, hvalid⟩
  | succ n ih =>
    obtain ⟨hreached, hvalid'⟩ := ih
    obtain ⟨clock, ready, hsub, -, heq⟩ := iterate_compactPass n st
    rw [Function.iterate_succ_apply']
    refine ⟨fun id hid => ?_, compactPass_valid hvalid'⟩
    rw [compactPass_clock, passPrunes_of_valid hvalid', Map.keys_removeAll]
    refine Finset.mem_sdiff.mpr ⟨hreached hid, ?_⟩
    rw [heq] at hreached ⊢
    have hprunable := gcPruneable_of_subMap hacyclic hsub
      (show NodeState.finalizedEvents { st with clock := clock, chunksReady := ready } = _ from rfl)
    rw [hprunable]
    exact notMem_prunable_of_reached hacyclic (fun _ _ => mem_keys_of_mem_clockParents) hreached hid

/-- Compaction of a clock whose retained bodies are all in order leaves the events that are not
finalized and their ancestors. -/
theorem keys_compactRetainedFinalized (hacyclic : Acyclic (clockParents st.clock))
    (hcard : st.clock.keys.card ≤ maxEvents)
    (hvalid : invalidRetainedFinalizedEventIDs st = ∅) :
    (compactRetainedFinalized st).clock.keys = liveAncestors st := by
  have hsub := compactRetainedFinalized_subMap st
  have hfin : (compactRetainedFinalized st).finalizedEvents = st.finalizedEvents := by
    obtain ⟨_, _, _, _, heq⟩ := compactRetainedFinalized_eq st
    rw [heq]
    rfl
  have hnone : gcPruneable (compactRetainedFinalized st) = ∅ := by
    have hpasses := passPrunes_compactRetainedFinalized hcard
    rw [passPrunes, Finset.union_eq_empty] at hpasses
    exact hpasses.1
  rw [gcPruneable_of_subMap hacyclic hsub hfin] at hnone
  exact eq_reached_of_settled hacyclic (fun _ _ => mem_keys_of_mem_clockParents)
    (liveAncestors_subset_passes hacyclic hvalid maxEvents).1 hsub.keys_subset hnone

end

/-- As long as all retained bodies are parent-closed with their chunks and there are no more events
than passes, the compaction that SYNC_FINALIZED makes in one go and GC_CLOCK taken to its end, in
any order, keep the same bodies. -/
theorem compaction_agrees_with_collection {s s' : State} (h : Reachable Step init s) {p : PeerID}
    (hp : p ∈ peers) (hcard : (s.nodes.get p).clock.keys.card ≤ maxEvents)
    (hvalid : invalidRetainedFinalizedEventIDs (s.nodes.get p) = ∅)
    {tr : List (State × EventID)} (hrun : Run (CollectStep p) s tr s')
    (hsettled : gcPruneable (s'.nodes.get p) = ∅) :
    (compactRetainedFinalized (s.nodes.get p)).clock = (s'.nodes.get p).clock := by
  have hacyclic := (ledgerInv_of_reachable h).clock_acyclic hp
  obtain ⟨hkeys, hsub, -⟩ := clock_of_settled hp h hrun hsettled
  have hcompacted := keys_compactRetainedFinalized hacyclic hcard hvalid
  refine Map.ext_get (hcompacted.trans hkeys.symm) fun id hid => ?_
  rw [(compactRetainedFinalized_subMap _).get_eq hid, hsub.get_eq (hkeys ▸ hcompacted ▸ hid)]

theorem compaction_agrees_with_collection_on_fork :
    (compactRetainedFinalized (collectableState.nodes.get 3)).clock =
      ((collects [⟨1, 1, 1⟩, ⟨2, 1, 1⟩]).2.nodes.get 3).clock :=
  compaction_agrees_with_collection reachable_collectableState (by decide) (by decide +kernel)
    (by decide +kernel) (run_collects _ (by decide +kernel)) (by decide +kernel)

end DoltSwarm.Protocol
