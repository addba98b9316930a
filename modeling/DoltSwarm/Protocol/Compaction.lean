import DoltSwarm.Protocol.Retention
import DoltSwarm.Protocol.SeenFrontier

/-!
# The shape that compaction leaves

A pass drops two kinds of finalized bodies at once, and either may expose more of both: without
an orphaned body its finalized children are orphans, without a leaf its parents are leaves. Each
pass drops something or is the last one that counts, so as many passes as there are events end
in a clock that keeps a finalized body only under an event that still needs it.
-/

namespace DoltSwarm.Protocol

open Lib

set_option autoImplicit false

def passPrunes (st : NodeState) : Finset EventID :=
  gcPruneable st ∪ invalidRetainedFinalizedEventIDs st

/-- What compaction is for, with `st` before and `st'` after it. -/
structure CompactedFrom (st st' : NodeState) : Prop where
  ready : ∀ id ∈ retainedFinalizedEventIDs st', isParentClosed st'.clock id ∧ id ∈ st'.chunksReady
  needed : ∀ id ∈ retainedFinalizedEventIDs st', ∃ live ∈ st'.clock.keys,
    live ∉ st'.finalizedEvents.keys ∧ id ∈ ancestorIdClosure {live} st'.clock
  kept : ∀ id ∈ st.clock.keys, id ∉ st.finalizedEvents.keys →
    st'.clock.lookup id = st.clock.lookup id ∧ (id ∈ st'.chunksReady ↔ id ∈ st.chunksReady)
  heads : st'.headEventIds = computeHeadEventIDs st'.clock
  finalized : sameFinalizedState st' st

section Passes

variable {st : NodeState}

theorem passPrunes_subset (st : NodeState) : passPrunes st ⊆ retainedFinalizedEventIDs st :=
  Finset.union_subset (Finset.filter_subset _ _) (Finset.filter_subset _ _)

theorem passPrunes_setHeads (st : NodeState) (heads : Finset EventID) :
    passPrunes { st with headEventIds := heads } = passPrunes st := rfl

theorem compactPass_clock (st : NodeState) :
    (compactPass st).clock = st.clock.removeAll (passPrunes st) := rfl

theorem compactPass_chunksReady (st : NodeState) :
    (compactPass st).chunksReady = st.chunksReady \ passPrunes st := rfl

theorem compactPass_of_none (h : passPrunes st = ∅) : compactPass st = st := by
  have hclock : st.clock.removeAll (passPrunes st) = st.clock := by
    apply Map.ext
    intro id
    rw [Map.lookup_removeAll, h, if_neg (Finset.notMem_empty id)]
  have hready : st.chunksReady \ passPrunes st = st.chunksReady := by rw [h, Finset.sdiff_empty]
  change { st with
    clock := st.clock.removeAll (passPrunes st)
    chunksReady := st.chunksReady \ passPrunes st } = st
  rw [hclock, hready]

theorem compactPass_shrinks (st : NodeState) :
    compactPass st = st ∨ (compactPass st).clock.keys.card < st.clock.keys.card := by
  rcases (passPrunes st).eq_empty_or_nonempty with hnone | ⟨id, hid⟩
  · exact Or.inl (compactPass_of_none hnone)
  · refine Or.inr (Finset.card_lt_card ?_)
    rw [compactPass_clock, Map.keys_removeAll]
    exact Finset.sdiff_ssubset ((passPrunes_subset st).trans Finset.inter_subset_right) ⟨id, hid⟩

theorem passPrunes_of_fixed (h : compactPass st = st) : passPrunes st = ∅ := by
  have hkeys := congrArg (fun st => st.clock.keys) h
  simp only [compactPass_clock, Map.keys_removeAll] at hkeys
  refine Finset.eq_empty_of_forall_notMem fun id hid => ?_
  have hmem : id ∈ st.clock.keys := (Finset.mem_inter.mp (passPrunes_subset st hid)).2
  rw [← hkeys] at hmem
  exact (Finset.mem_sdiff.mp hmem).2 hid

theorem compactPass_live {id : EventID} (hfin : id ∉ st.finalizedEvents.keys) :
    (compactPass st).clock.lookup id = st.clock.lookup id ∧
      (id ∈ (compactPass st).chunksReady ↔ id ∈ st.chunksReady) := by
  have hnot : id ∉ passPrunes st := fun hid =>
    hfin (Finset.mem_inter.mp (passPrunes_subset st hid)).1
  rw [compactPass_clock, compactPass_chunksReady, Map.lookup_removeAll, if_neg hnot,
    Finset.mem_sdiff]
  exact ⟨rfl, and_iff_left hnot⟩

theorem iterate_compactPass_live (n : ℕ) {id : EventID} (hfin : id ∉ st.finalizedEvents.keys) :
    (compactPass^[n] st).clock.lookup id = st.clock.lookup id ∧
      (id ∈ (compactPass^[n] st).chunksReady ↔ id ∈ st.chunksReady) := by
  induction n with
  | zero => exact ⟨rfl, Iff.rfl⟩
  | succ n ih =>
    have hfin' : id ∉ (compactPass^[n] st).finalizedEvents.keys := by
      obtain ⟨_, _, _, _, heq⟩ := iterate_compactPass n st
      rw [heq]
      exact hfin
    obtain ⟨hlookup, hready⟩ := compactPass_live hfin'
    rw [Function.iterate_succ_apply']
    exact ⟨hlookup.trans ih.1, hready.trans ih.2⟩

theorem exists_live_above (hnone : passPrunes st = ∅)
    (hchains : ChainsWithin (clockParents st.clock) maxEvents) {id : EventID}
    (hid : id ∈ st.clock.keys) :
    ∃ live ∈ st.clock.keys, live ∉ st.finalizedEvents.keys ∧
      id ∈ ancestorIdClosure {live} st.clock := by
  obtain ⟨live, hlive, hpath, htop⟩ := hchains.acyclic.exists_top hid
  refine ⟨live, hlive, fun hfin => ?_, (mem_ancestorIdClosure_iff hchains).mpr hpath⟩
  -- a finalized event with nothing above it would have been collected
  have hgc : live ∉ gcPruneable st := by
    intro hgc
    have hpruned : live ∈ passPrunes st := Finset.mem_union_left _ hgc
    rw [hnone] at hpruned
    exact Finset.notMem_empty live hpruned
  apply hgc
  refine Finset.mem_filter.mpr ⟨Finset.mem_inter.mpr ⟨hfin, hlive⟩, ?_⟩
  rintro ⟨above, -, hne, hmem⟩
  rcases ((mem_ancestorIdClosure_iff hchains).mp hmem).cases_tail with heq | ⟨child, -, hlink⟩
  · exact hne heq.symm
  · exact htop child (mem_keys_of_mem_clockParents hlink) hlink

theorem compactRetainedFinalized_heads (st : NodeState) :
    (compactRetainedFinalized st).headEventIds =
      computeHeadEventIDs (compactRetainedFinalized st).clock := rfl

theorem compactRetainedFinalized_of_settled (hnone : passPrunes st = ∅)
    (hheads : st.headEventIds = computeHeadEventIDs st.clock) :
    compactRetainedFinalized st = st := by
  have hfixed : compactPass^[maxEvents] st = st :=
    Function.iterate_fixed (compactPass_of_none hnone) maxEvents
  rw [compactRetainedFinalized, hfixed, ← hheads]

end Passes

section Compaction

variable {st : NodeState} (hcard : st.clock.keys.card ≤ maxEvents)

include hcard

theorem passPrunes_compactRetainedFinalized : passPrunes (compactRetainedFinalized st) = ∅ := by
  -- a pass that changes something drops an event, and there are as many passes as events
  have hfixed : compactPass (compactPass^[maxEvents] st) = compactPass^[maxEvents] st :=
    iterate_settles (fun st => st.clock.keys.card) compactPass_shrinks hcard
  rw [compactRetainedFinalized, passPrunes_setHeads]
  exact passPrunes_of_fixed hfixed

theorem compactRetainedFinalized_idempotent :
    compactRetainedFinalized (compactRetainedFinalized st) = compactRetainedFinalized st := by
  have hnone := passPrunes_compactRetainedFinalized hcard
  exact compactRetainedFinalized_of_settled hnone (compactRetainedFinalized_heads st)

theorem chainsWithin_compactRetainedFinalized (hacyclic : Acyclic (clockParents st.clock)) :
    ChainsWithin (clockParents (compactRetainedFinalized st).clock) maxEvents := by
  have hsub := compactRetainedFinalized_subMap st
  have hchains := (hacyclic.mono (clockParents_subMap hsub)).chainsWithin
    (s := st.clock.keys) fun _ _ hlink => hsub.keys_subset (mem_keys_of_mem_clockParents hlink)
  exact fun id l hl => (hchains id l hl).trans hcard

theorem compactedFrom_compactRetainedFinalized (hacyclic : Acyclic (clockParents st.clock)) :
    CompactedFrom st (compactRetainedFinalized st) where
  ready := by
    have hnone := passPrunes_compactRetainedFinalized hcard
    intro id hid
    by_contra hbad
    have hpruned : id ∈ passPrunes (compactRetainedFinalized st) :=
      Finset.mem_union_right _ (Finset.mem_filter.mpr ⟨hid, hbad⟩)
    rw [hnone] at hpruned
    exact Finset.notMem_empty id hpruned
  needed := by
    intro id hid
    exact exists_live_above (passPrunes_compactRetainedFinalized hcard)
      (chainsWithin_compactRetainedFinalized hcard hacyclic) (Finset.mem_inter.mp hid).2
  kept := fun id _ hfin => iterate_compactPass_live maxEvents hfin
  heads := rfl
  finalized := by
    obtain ⟨_, _, _, _, heq⟩ := compactRetainedFinalized_eq st
    rw [heq]
    exact ⟨rfl, rfl, rfl, rfl, rfl, rfl, rfl⟩

end Compaction

/-- With at most as many events as there are passes and no cycle among the parent links,
compaction reaches the shape it is for, and has nothing to do a second time. -/
theorem compaction_reaches_target {st : NodeState} (hcard : st.clock.keys.card ≤ maxEvents)
    (hacyclic : Acyclic (clockParents st.clock)) :
    CompactedFrom st (compactRetainedFinalized st) ∧
    compactRetainedFinalized (compactRetainedFinalized st) = compactRetainedFinalized st :=
  ⟨compactedFrom_compactRetainedFinalized hcard hacyclic,
    compactRetainedFinalized_idempotent hcard⟩

/-- Four finalized bodies: an orphan under its child, and a root under a leaf and under an event
that is not finalized. -/
def mixedState : NodeState :=
  let event (logical : Int) (parents : Finset EventID) : Event :=
    ⟨⟨1, 1, logical⟩, 11, 0, parents, none, none, ⟨1, logical, 1⟩, 1⟩
  { emptyNodeState 1 with
    clock := [event 2 {⟨1, 1, 1⟩}, event 3 {⟨1, 1, 2⟩}, event 4 ∅, event 5 {⟨1, 1, 4⟩},
      event 6 {⟨1, 1, 4⟩}].foldl (fun clock e => clock.put e.eventId e) ∅
    chunksReady := {⟨1, 1, 2⟩, ⟨1, 1, 3⟩, ⟨1, 1, 4⟩, ⟨1, 1, 5⟩}
    finalizedEvents := Map.mapBy {⟨1, 1, 2⟩, ⟨1, 1, 3⟩, ⟨1, 1, 4⟩, ⟨1, 1, 5⟩} fun _ => 11 }

theorem acyclic_mixedState : Acyclic (clockParents mixedState.clock) := by
  apply acyclic_of_rank fun id => id.logical.toNat
  intro id parent hlink
  have hall : ∀ id ∈ mixedState.clock.keys, ∀ parent ∈ clockParents mixedState.clock id,
      parent.logical.toNat < id.logical.toNat := by decide +kernel
  exact hall id (mem_keys_of_mem_clockParents hlink) parent hlink

theorem compaction_reaches_target_on_mixed :
    (compactRetainedFinalized mixedState).clock.keys = {⟨1, 1, 4⟩, ⟨1, 1, 6⟩} ∧
    isParentClosed (compactRetainedFinalized mixedState).clock ⟨1, 1, 4⟩ := by
  have hcompacted := (compaction_reaches_target (by decide +kernel) acyclic_mixedState).1
  exact ⟨by decide +kernel, (hcompacted.ready ⟨1, 1, 4⟩ (by decide +kernel)).1⟩

end DoltSwarm.Protocol
