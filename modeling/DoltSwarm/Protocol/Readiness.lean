import DoltSwarm.Protocol.Parking

/-!
# Heads that are ready stay ready

Whether an event is parent-closed is decided by what stands around it, so arrivals and
GC_CLOCK leave a ready head ready. Only the compaction inside SYNC_FINALIZED can take an
ancestor away from one. As long as that spares parked heads, the projection is a function of
its inputs, and peers with equal inputs hold equal projections.
-/

namespace DoltSwarm.Protocol

open Lib

set_option autoImplicit false

/-! ## Parent-closed events -/

section

variable {clock clock' : Clock} {id : EventID}

theorem mem_keys_of_lookup_eq (h : clock'.lookup id = clock.lookup id)
    (hid : id ∈ clock.keys) : id ∈ clock'.keys := by
  rw [Map.mem_keys_iff, h, ← Map.mem_keys_iff]
  exact hid

theorem clockParents_congr (h : clock'.lookup id = clock.lookup id) :
    clockParents clock' id = clockParents clock id := by
  have hkeys : id ∈ clock'.keys ↔ id ∈ clock.keys :=
    ⟨mem_keys_of_lookup_eq h.symm, mem_keys_of_lookup_eq h⟩
  simp only [clockParents, hkeys, Map.get, h]

theorem isParentClosed_of_agree (h : isParentClosed clock id)
    (hsame : ∀ x ∈ ancestorIdClosure {id} clock, clock'.lookup x = clock.lookup x) :
    isParentClosed clock' id := by
  have hkeys : ancestorIdClosure {id} clock ⊆ clock'.keys := fun x hx =>
    mem_keys_of_lookup_eq (hsame x hx) (h.2 hx)
  have heq : ancestorIdClosure {id} clock' = ancestorIdClosure {id} clock :=
    unrolledClosure_congr fun x hx => clockParents_congr (hsame x hx)
  refine ⟨hkeys (subset_unrolledClosure _ _ (Finset.mem_singleton_self id)), ?_⟩
  rw [heq]
  exact hkeys

theorem isParentClosed_put (h : isParentClosed clock id) {e : Event}
    (hnew : e.eventId ∉ clock.keys) : isParentClosed (clock.put e.eventId e) id := by
  refine isParentClosed_of_agree h fun x hx => Map.lookup_put_of_ne _ _ ?_
  rintro rfl
  exact hnew (h.2 hx)

theorem isParentClosed_drop {st : NodeState} (h : isParentClosed st.clock id) {x : EventID}
    (hx : x ∈ gcPruneable st) (hne : id ≠ x) : isParentClosed (dropEvent st.clock x) id := by
  refine isParentClosed_of_agree h fun y hy => ?_
  have hyx : y ∉ ({x} : Finset EventID) := by
    intro hmem
    rw [Finset.mem_singleton.mp hmem] at hy
    exact (Finset.mem_filter.mp hx).2 ⟨id, h.1, hne, hy⟩
  rw [dropEvent, Map.lookup_removeAll, if_neg hyx]

end

/-! ## Events held with their whole ancestry -/

/-- All ancestors, however far back, are in the clock and have their chunks. -/
def fullyHeld (clock : Clock) (ready : Finset EventID) (id : EventID) : Prop :=
  ∀ x, Path (clockParents clock) id x → x ∈ clock.keys ∧ x ∈ ready

theorem fullyHeld_iff (clock : Clock) (ready : Finset EventID) (id : EventID) :
    fullyHeld clock ready id ↔
      unrolledClosure clock.keys.card (clockParents clock) {id} ⊆ clock.keys ∩ ready := by
  have hseed := Finset.mem_singleton_self id
  constructor
  · intro h x hx
    obtain ⟨y, hy, hpath⟩ := path_of_mem_unrolledClosure hx
    rw [Finset.mem_singleton.mp hy] at hpath
    exact Finset.mem_inter.mpr (h x hpath)
  · intro h x hpath
    have hkeys := h.trans Finset.inter_subset_left
    have hpos : 0 < clock.keys.card :=
      Finset.card_pos.mpr ⟨id, hkeys (subset_unrolledClosure _ _ hseed)⟩
    obtain ⟨n, hn⟩ := Nat.exists_eq_add_one_of_ne_zero hpos.ne'
    rw [hn] at h hkeys
    have hstable : unrolledClosure (n + 1) (clockParents clock) {id} =
        unrolledClosure n (clockParents clock) {id} :=
      unrolledClosure_stable_of_card ⟨id, hseed⟩ hkeys hn.le
    refine Finset.mem_inter.mp (h ?_)
    induction hpath with
    | refl => exact subset_unrolledClosure _ _ hseed
    | tail _ hlink ih =>
      rw [unrolledClosure_succ, ← hstable, mem_closureStep]
      exact Or.inr ⟨_, ih, hlink⟩

instance (clock : Clock) (ready : Finset EventID) (id : EventID) :
    Decidable (fullyHeld clock ready id) := decidable_of_iff _ (fullyHeld_iff clock ready id).symm

/-- No event names itself as a parent. -/
def noSelfParent (clock : Clock) : Prop :=
  ∀ x e, clock.lookup x = some e → x ∉ e.parentEventIds

theorem LedgerInv.no_self_parent {s : State} (h : LedgerInv s) {e : Event} (he : e ∈ s.ledger) :
    e.eventId ∉ e.parentEventIds := by
  intro hself
  obtain ⟨e', hmem, hid, hlt⟩ := h.older e he _ hself
  rw [h.unique e' hmem e he hid, less_self] at hlt
  cases hlt

theorem LedgerInv.clock_noSelfParent {s : State} (h : LedgerInv s) {p : PeerID} (hp : p ∈ peers) :
    noSelfParent (s.nodes.get p).clock := by
  intro x e he
  obtain ⟨hmem, rfl⟩ := (h.node p hp).mem x e he
  exact h.no_self_parent hmem

namespace fullyHeld

variable {clock clock' : Clock} {ready ready' : Finset EventID} {id : EventID}

theorem isParentClosed (h : fullyHeld clock ready id) :
    isParentClosed clock id ∧ id ∈ ready := by
  refine ⟨⟨(h id .refl).1, fun x hx => ?_⟩, (h id .refl).2⟩
  obtain ⟨y, hy, hpath⟩ := path_of_mem_unrolledClosure hx
  rw [Finset.mem_singleton.mp hy] at hpath
  exact (h x hpath).1

theorem of_agree (h : fullyHeld clock ready id)
    (hsame : ∀ x, Path (clockParents clock) id x →
      clock'.lookup x = clock.lookup x ∧ x ∈ ready') : fullyHeld clock' ready' id := by
  have hpath : ∀ x, Path (clockParents clock') id x → Path (clockParents clock) id x := by
    intro x hx
    induction hx with
    | refl => exact .refl
    | tail _ hlink ih =>
      rw [clockParents_congr (hsame _ ih).1] at hlink
      exact ih.tail hlink
  intro x hx
  obtain ⟨hlook, hready⟩ := hsame x (hpath x hx)
  exact ⟨mem_keys_of_lookup_eq hlook (h x (hpath x hx)).1, hready⟩

variable {st st' : NodeState}

/-- Compaction spares the ancestry of a fully held event that is not finalized itself. -/
theorem not_pruned (h : fullyHeld st.clock st.chunksReady id)
    (hfin : id ∉ st.finalizedEvents.keys) (hself : noSelfParent st.clock) {x : EventID}
    (hx : Path (clockParents st.clock) id x) :
    x ∉ gcPruneable st ∪ invalidRetainedFinalizedEventIDs st := by
  intro hmem
  rcases Finset.mem_union.mp hmem with hgc | hinvalid
  · obtain ⟨hret, hnone⟩ := Finset.mem_filter.mp hgc
    rcases Relation.ReflTransGen.cases_tail hx with rfl | ⟨y, hy, hlink⟩
    · exact hfin (Finset.mem_inter.mp hret).1
    · -- a child on the way from `id` depends on `x`
      refine hnone ⟨y, (h y hy).1, ?_,
        next_subset_unrolledClosure (by decide) (Finset.mem_singleton_self y) hlink⟩
      rintro rfl
      rw [clockParents, if_pos (h y hy).1] at hlink
      exact hself y _ (Map.lookup_of_mem (h y hy).1) hlink
  · have hbad := (Finset.mem_filter.mp hinvalid).2
    exact hbad (isParentClosed fun y hy => h y (hx.trans hy))

theorem compactPass (h : fullyHeld st.clock st.chunksReady id)
    (hfin : id ∉ st.finalizedEvents.keys) (hself : noSelfParent st.clock) :
    fullyHeld (compactPass st).clock (compactPass st).chunksReady id := by
  refine h.of_agree fun x hx => ?_
  have hkept := h.not_pruned hfin hself hx
  simp only [Protocol.compactPass, Map.lookup_removeAll, if_neg hkept, Finset.mem_sdiff]
  exact ⟨trivial, (h x hx).2, hkept⟩

theorem compactRetainedFinalized (h : fullyHeld st.clock st.chunksReady id)
    (hfin : id ∉ st.finalizedEvents.keys) (hself : noSelfParent st.clock) :
    fullyHeld (compactRetainedFinalized st).clock (compactRetainedFinalized st).chunksReady
      id := by
  have hiterate : ∀ n, fullyHeld (Protocol.compactPass^[n] st).clock
      (Protocol.compactPass^[n] st).chunksReady id := by
    intro n
    induction n with
    | zero => exact h
    | succ n ih =>
      rw [Function.iterate_succ_apply']
      obtain ⟨c, r, hsub, _, heq⟩ := iterate_compactPass n st
      rw [heq] at ih ⊢
      exact ih.compactPass hfin fun x e he => hself x e (hsub x e he)
  exact hiterate maxEvents

theorem reworked {remote : Clock} (hre : Reworked remote st st')
    (h : fullyHeld st.clock st.chunksReady id) (hfin : id ∉ st.finalizedEvents.keys)
    (hself : noSelfParent st.clock) (hremote : noSelfParent remote) :
    fullyHeld st'.clock st'.chunksReady id ∧ noSelfParent st'.clock := by
  induction hre with
  | refl => exact ⟨h, hself⟩
  | @compact st' hre ih =>
    have hfin' : id ∉ st'.finalizedEvents.keys := by
      obtain ⟨_, _, _, rfl⟩ := hre.frame
      exact hfin
    exact ⟨ih.1.compactRetainedFinalized hfin' ih.2,
      fun x e he => ih.2 x e (compactRetainedFinalized_subMap _ x e he)⟩
  | hydrate seed _ _ _ ih =>
    refine ⟨ih.1.of_agree fun x hx => ⟨?_, Finset.mem_union_left _ (ih.1 x hx).2⟩, ?_⟩
    · exact lookup_applyRemoteEvents_of_local (ih.1 x hx).1
        fun hpull => (Finset.mem_filter.mp hpull).2.2 (ih.1 x hx).1
    · intro x e he
      rcases lookup_applyRemoteEvents he with hl | ⟨_, hr⟩
      · exact ih.2 x e hl
      · exact hremote x e hr

end fullyHeld

/-! ## Parked heads -/

def ParkedReady (st : NodeState) : Prop := st.parkedConflicts ⊆ mergeableHeadEventIDs st

theorem ParkedReady.closed {st : NodeState} (h : ParkedReady st) {id : EventID}
    (hid : id ∈ st.parkedConflicts) :
    isParentClosed st.clock id ∧ id ∈ st.chunksReady ∧ id ∉ st.finalizedEvents.keys := by
  obtain ⟨htent, hclosed, hready⟩ := Finset.mem_filter.mp (h hid)
  exact ⟨hclosed, hready, (Finset.mem_sdiff.mp htent).2⟩

theorem parkedReady_reconcile [FoldOrder] {st : NodeState}
    (h : ∀ id ∈ st.parkedConflicts, id ∉ st.finalizedEvents.keys →
      isParentClosed st.clock id ∧ id ∈ st.chunksReady) : ParkedReady (reconcileResult st) := by
  have hnone : retainedUnreadyParked (reconcileResult st) = ∅ := by
    rw [retained_reconcile, Finset.eq_empty_iff_forall_notMem]
    intro id hid
    obtain ⟨hparked, hlag⟩ := Finset.mem_inter.mp hid
    obtain ⟨htent, hnot⟩ := Finset.mem_sdiff.mp hlag
    exact hnot (Finset.mem_filter.mpr ⟨htent, h id hparked (Finset.mem_sdiff.mp htent).2⟩)
  intro id hid
  by_contra hnot
  have htent : id ∈ tentativeHeadEventIDs st := (projection_subset st).1 hid
  have hret : id ∈ retainedUnreadyParked (reconcileResult st) :=
    Finset.mem_inter.mpr ⟨hid, Finset.mem_sdiff.mpr ⟨htent, hnot⟩⟩
  rw [hnone] at hret
  simp at hret

/-- Finalized state is exchanged only while the peer holds the whole ancestry of its parked
heads, chunks included. -/
def parkedBranchesHeld (s : State) : Action → Prop
  | .syncFinalized p _ => ∀ id ∈ (s.nodes.get p).parkedConflicts,
      fullyHeld (s.nodes.get p).clock (s.nodes.get p).chunksReady id
  | _ => True

instance (s : State) (a : Action) : Decidable (parkedBranchesHeld s a) :=
  match a with
  | .syncFinalized _ _ => inferInstanceAs (Decidable (∀ id ∈ _, _))
  | .write _ _ | .receive _ _ | .chunksReady _ _ | .reconcile _ | .tick _ | .heartbeat _ _
  | .finalize _ | .gc _ _ | .partition _ _ | .heal _ _ | .evict _ _ | .resolveConflict _ _ _
  | .resolveFinalizedConflict _ _ _ => instDecidableTrue

structure ReadyInv (s : State) : Prop extends SettledInv s where
  parkedReady : ∀ p ∈ peers, ParkedReady (s.nodes.get p)

theorem LedgerInv.parkedReady_sync [FoldOrder] {s : State} (h : LedgerInv s) {p q : PeerID}
    (hp : p ∈ peers) (hq : q ∈ peers) (hG : parkedBranchesHeld s (.syncFinalized p q)) :
    ParkedReady (syncResult p (s.nodes.get p) (s.nodes.get q)) := by
  obtain ⟨st', hre, _, heq⟩ := applySyncFinalizedResult_reworked (s.nodes.get p) (s.nodes.get q)
  have hcore := syncFinalizedCoreResult_frame (s.nodes.get p) (s.nodes.get q)
  have hready : ParkedReady (reconcileResult st') := by
    refine parkedReady_reconcile fun id hid hfin => ?_
    have hheld : fullyHeld (syncFinalizedCoreResult (s.nodes.get p) (s.nodes.get q)).clock
        (syncFinalizedCoreResult (s.nodes.get p) (s.nodes.get q)).chunksReady id := by
      obtain ⟨_, _, _, rfl⟩ := hre.frame
      rw [hcore] at hid ⊢
      exact hG id hid
    have hself : noSelfParent (syncFinalizedCoreResult (s.nodes.get p) (s.nodes.get q)).clock := by
      rw [hcore]
      exact h.clock_noSelfParent hp
    have hunfin : id ∉ (syncFinalizedCoreResult (s.nodes.get p)
        (s.nodes.get q)).finalizedEvents.keys := by
      obtain ⟨_, _, _, rfl⟩ := hre.frame
      exact hfin
    exact (fullyHeld.reworked hre hheld hunfin hself (h.clock_noSelfParent hq)).1.isParentClosed
  simp only [syncResult, heq]
  exact hready

theorem readyInv_init : ReadyInv init where
  toSettledInv := settledInv_init
  parkedReady := by
    intro p hp
    have hget : init.nodes.get p = emptyNodeState p := Map.get_mapBy_of_mem _ hp
    rw [hget]
    exact Finset.empty_subset _

theorem readyInv_effect [FoldOrder] {s s' : State} {a : Action} (h : ReadyInv s)
    (heff : Effect s a s') (hG : parkedBranchesHeld s a) : ReadyInv s' := by
  refine ⟨settledInv_effect h.toSettledInv heff, ?_⟩
  have hput : ∀ p st, s'.nodes = s.nodes.put p st → ParkedReady st →
      ∀ q ∈ peers, ParkedReady (s'.nodes.get q) := by
    intro p st hnodes hst
    rw [hnodes]
    exact Map.forall_get_put (P := fun _ (st : NodeState) => ParkedReady st) h.parkedReady hst
  cases heff with
  | emit p e hp _ he =>
    refine hput p _ rfl (parkedReady_reconcile fun id hid _ => ?_)
    obtain ⟨hclosed, hready, _⟩ := (h.parkedReady p hp).closed hid
    exact ⟨isParentClosed_put hclosed (h.emission_notMem hp he), Finset.mem_union_left _ hready⟩
  | receive p e hp he =>
    refine hput p _ rfl (parkedReady_reconcile fun id hid _ => ?_)
    obtain ⟨hclosed, hready, _⟩ := (h.parkedReady p hp).closed hid
    exact ⟨isParentClosed_put hclosed (Finset.mem_filter.mp he).2.2.1, hready⟩
  | touch p st hp ht =>
    have hst := h.parkedReady p hp
    cases ht with
    | chunksReady id _ _ =>
      refine hput p _ rfl (parkedReady_reconcile fun id hid _ => ?_)
      obtain ⟨hclosed, hready, _⟩ := hst.closed hid
      exact ⟨hclosed, Finset.mem_union_left _ hready⟩
    | reconcile _ =>
      refine hput p _ rfl (parkedReady_reconcile fun id hid _ => ?_)
      obtain ⟨hclosed, hready, _⟩ := hst.closed hid
      exact ⟨hclosed, hready⟩
    | tick _ => exact hput p _ rfl hst
    | evict q _ _ _ _ => exact hput p _ rfl hst
  | heartbeat p q hp _ _ _ => exact hput p _ rfl (h.parkedReady p hp)
  | finalize p hp he =>
    refine hput p _ rfl ?_
    have hkeep : ∀ id ∈ (s.nodes.get p).parkedConflicts,
        isParentClosed (s.nodes.get p).clock id ∧ id ∈ (s.nodes.get p).chunksReady := by
      intro id hid
      obtain ⟨hclosed, hready, _⟩ := (h.parkedReady p hp).closed hid
      exact ⟨hclosed, hready⟩
    rcases finalizeResult_cases _ he with ⟨_, heq⟩ | ⟨_, _, heq⟩
    · rw [heq]
      exact parkedReady_reconcile fun id hid _ => hkeep id hid
    · rw [heq]
      refine parkedReady_reconcile ?_
      rw [replayNextEvent_frame]
      exact fun id hid _ => hkeep id hid
  | gc p x hp hx =>
    refine hput p _ rfl (parkedReady_reconcile fun id hid _ => ?_)
    obtain ⟨hclosed, hready, hfin⟩ := (h.parkedReady p hp).closed hid
    have hne : id ≠ x := by
      rintro rfl
      exact hfin (mem_finalized_of_gcPruneable hx)
    have hdrop := isParentClosed_drop hclosed hx hne
    exact ⟨hdrop, Finset.mem_inter.mpr ⟨hready, hdrop.1⟩⟩
  | sync p q hp hq _ => exact hput p _ rfl (h.parkedReady_sync hp hq hG)
  | network conn _ => exact h.parkedReady

theorem readyInv_of_run {tr : List (State × Action)} {s : State} (h : Run Step init tr s)
    (hG : ∀ x ∈ tr, parkedBranchesHeld x.1 x.2) : ReadyInv s := by
  refine Run.induct (I := fun _ s => ReadyInv s) (G := parkedBranchesHeld) readyInv_init ?_ h hG
  rintro _ s a s' _ hI hGa ⟨o, hs⟩
  exact @readyInv_effect o _ _ _ hI (@effect_of_step o s s' a hs) hGa

/-! ## Equal inputs, equal projections -/

theorem SettledInv.projection_eq {s : State} (h : SettledInv s) {p q : PeerID} (hp : p ∈ peers)
    (hq : q ∈ peers) (hin : sameTentativeProjectionInputs (s.nodes.get p) (s.nodes.get q))
    (hret : retainedUnreadyParked (s.nodes.get p) = retainedUnreadyParked (s.nodes.get q))
    (hmerge : mergeableHeadEventIDs (s.nodes.get p) ≠ ∅) :
    ((s.nodes.get p).tentativeProllyRootHash, (s.nodes.get p).parkedConflicts,
        (s.nodes.get p).projectionBasis) =
      ((s.nodes.get q).tentativeProllyRootHash, (s.nodes.get q).parkedConflicts,
        (s.nodes.get q).projectionBasis) := by
  have hheads : (s.nodes.get p).headEventIds = (s.nodes.get q).headEventIds := by
    rw [(h.node p hp).heads, (h.node q hq).heads, hin.1]
  rw [← (h.settled p hp).projected ascendingFolds, ← (h.settled q hq).projected ascendingFolds]
  exact @projection_congr ascendingFolds _ _ hin hheads hret (Or.inr hmerge)

theorem ParkedReady.retained_eq_empty {st : NodeState} (h : ParkedReady st) :
    retainedUnreadyParked st = ∅ := by
  rw [Finset.eq_empty_iff_forall_notMem]
  intro id hid
  obtain ⟨hparked, hlag⟩ := Finset.mem_inter.mp hid
  exact (Finset.mem_sdiff.mp hlag).2 (h hparked)

/-- In a run whose finalized exchanges spare the branches of parked heads, peers with equal
inputs and a head to merge hold equal projections. -/
theorem data_converges_while_parked_branches_held {tr : List (State × Action)} {s : State}
    (h : Run Step init tr s) (hG : ∀ x ∈ tr, parkedBranchesHeld x.1 x.2) {p q : PeerID}
    (hp : p ∈ peers) (hq : q ∈ peers)
    (hin : sameTentativeProjectionInputs (s.nodes.get p) (s.nodes.get q))
    (hmerge : mergeableHeadEventIDs (s.nodes.get p) ≠ ∅) :
    (s.nodes.get p).tentativeProllyRootHash = (s.nodes.get q).tentativeProllyRootHash ∧
    (s.nodes.get p).parkedConflicts = (s.nodes.get q).parkedConflicts ∧
    (s.nodes.get p).projectionBasis = (s.nodes.get q).projectionBasis := by
  have hinv := readyInv_of_run h hG
  have hret : retainedUnreadyParked (s.nodes.get p) = retainedUnreadyParked (s.nodes.get q) := by
    rw [(hinv.parkedReady p hp).retained_eq_empty, (hinv.parkedReady q hq).retained_eq_empty]
  have heq := hinv.projection_eq hp hq hin hret hmerge
  simp only [Prod.mk.injEq] at heq
  exact heq

/-- Peer 1 finalizes and collects a write of peer 3, on which peer 3 then writes again. Peer 2
has the first write without its chunks and parks the second one; adopting the finalized tip
of peer 1 makes it drop the first. Peer 1 never parks the second write. -/
def lostAncestorRun : List Action :=
  let first : Event := ⟨⟨3, 1, 1⟩, 12, 0, ∅, none, none, ⟨1, 1, 3⟩, 3⟩
  let rival : Event := ⟨⟨1, 1, 3⟩, 15, 12, ∅, none, none, ⟨1, 3, 1⟩, 1⟩
  let second : Event := ⟨⟨3, 1, 5⟩, 13, 0, {⟨3, 1, 1⟩}, none, none, ⟨1, 5, 3⟩, 3⟩
  [.write 3 12, .receive 1 first, .chunksReady 1 first.eventId, .receive 2 first,
    .heartbeat 1 2, .heartbeat 1 3, .finalize 1, .gc 1 first.eventId, .write 1 15,
    .receive 3 rival, .write 3 13, .receive 2 rival, .receive 2 second,
    .chunksReady 2 rival.eventId, .chunksReady 2 second.eventId,
    .receive 1 second, .chunksReady 1 second.eventId, .syncFinalized 2 1]

def lostAncestorState : State := (runOutcome lostAncestorRun).2

theorem lostAncestorRun_runs : Run Step init (runOutcome lostAncestorRun).1 lostAncestorState :=
  run_runOutcome (by decide +kernel)

/-- The two peers hold the same clock, chunks and finalized state, and differ in what they
park. -/
theorem equal_inputs_different_parked : ∃ s, Reachable Step init s ∧ ∃ p ∈ peers, ∃ q ∈ peers,
    sameTentativeProjectionInputs (s.nodes.get p) (s.nodes.get q) ∧
    mergeableHeadEventIDs (s.nodes.get p) ≠ ∅ ∧
    (s.nodes.get p).parkedConflicts ≠ (s.nodes.get q).parkedConflicts :=
  ⟨lostAncestorState, ⟨_, lostAncestorRun_runs⟩, 1, by decide, 2, by decide, by decide +kernel,
    by decide +kernel, by decide +kernel⟩

/-- Peer 1 finalizes the older of two conflicting writes and peer 2 follows while it holds the
other one parked. -/
def adoptedConflictRun : List Action :=
  let first := writtenEvent (emptyNodeState 1) 1 11
  let second := writtenEvent (emptyNodeState 2) 2 14
  [.write 1 11, .write 2 14, .receive 1 second, .chunksReady 1 second.eventId,
    .receive 2 first, .chunksReady 2 first.eventId, .receive 3 first, .heartbeat 1 2,
    .heartbeat 1 3, .finalize 1, .gc 1 first.eventId, .syncFinalized 2 1]

def adoptedConflictState : State := (runOutcome adoptedConflictRun).2

theorem adoptedConflictRun_runs :
    Run Step init (runOutcome adoptedConflictRun).1 adoptedConflictState :=
  run_runOutcome (by decide +kernel)

theorem data_converges_while_parked_branches_held_on_adopted :
    (adoptedConflictState.nodes.get 1).parkedConflicts = {⟨2, 1, 1⟩} ∧
    (adoptedConflictState.nodes.get 1).parkedConflicts =
      (adoptedConflictState.nodes.get 2).parkedConflicts :=
  ⟨by decide +kernel, (data_converges_while_parked_branches_held adoptedConflictRun_runs
    (by decide +kernel) (p := 1) (q := 2) (by decide) (by decide) (by decide +kernel)
    (by decide +kernel)).2.1⟩

end DoltSwarm.Protocol
