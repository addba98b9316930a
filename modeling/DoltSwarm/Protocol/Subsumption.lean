import DoltSwarm.Protocol.Parking

/-!
# Subsumed branches and the events that stand on them

Resolving a parked head subsumes its whole ancestry. That is sound only while no live event
was written on the same ancestry; the condition is stated on the ledger before each step.
-/

namespace DoltSwarm.Protocol

open Lib

set_option autoImplicit false

def replayLinks (clock : Clock) (id : EventID) : Finset EventID :=
  if id ∈ clock.keys then finalizationReplayParents (clock.get id) else ∅

/-! ## Branches on the ledger -/

def resolvedHeads (L : Finset Event) : Finset EventID :=
  L.biUnion fun e => e.resolvedParkedEventId.toFinset

def parentsIn (L : Finset Event) (id : EventID) : Finset EventID :=
  (L.filter fun e => e.eventId = id).biUnion Event.parentEventIds

/-- The branches of the heads `K`, unrolled as far as the clock's own closure is. -/
def branchEvents (L : Finset Event) (K : Finset EventID) : Finset EventID :=
  unrolledClosure maxEvents (parentsIn L) K

/-- Nothing but the event `owner` continues the heads `K`, or a branch below them, at `v`. -/
def notShared (L : Finset Event) (K : Finset EventID) (owner : EventID → Prop) (v : EventID) :
    Prop :=
  v ∉ K ∧ ∀ w ∈ L, w.eventId ∈ branchEvents L K → v ∈ w.parentEventIds → owner w.eventId

instance (L : Finset Event) (K : Finset EventID) (owner : EventID → Prop) [DecidablePred owner]
    (v : EventID) : Decidable (notShared L K owner v) := inferInstanceAs (Decidable (_ ∧ _))

/-- Every event is the only branch event above each of its replay parents. -/
def unsharedBranches (L : Finset Event) (K : Finset EventID) : Prop :=
  ∀ u ∈ L, ∀ v ∈ finalizationReplayParents u, notShared L K (· = u.eventId) v

instance (L : Finset Event) (K : Finset EventID) : Decidable (unsharedBranches L K) :=
  inferInstanceAs (Decidable (∀ u ∈ L, _))

/-- The step writes on no branch that is resolved, and resolves none that is written on. -/
def keepsBranchesUnshared (s : State) : Action → Prop
  | .write p _ | .resolveFinalizedConflict p _ _ =>
    ∀ v ∈ (s.nodes.get p).projectionBasis,
      notShared s.ledger (resolvedHeads s.ledger) (fun _ => False) v
  | .resolveConflict p parked _ =>
    (∀ v ∈ (s.nodes.get p).projectionBasis,
      notShared s.ledger (insert parked (resolvedHeads s.ledger)) (fun _ => False) v) ∧
    unsharedBranches s.ledger (insert parked (resolvedHeads s.ledger))
  | _ => True

instance (s : State) (a : Action) : Decidable (keepsBranchesUnshared s a) :=
  match a with
  | .write _ _ | .resolveFinalizedConflict _ _ _ => inferInstanceAs (Decidable (∀ v ∈ _, _))
  | .resolveConflict _ _ _ => inferInstanceAs (Decidable (_ ∧ _))
  | .receive _ _ | .chunksReady _ _ | .reconcile _ | .tick _ | .heartbeat _ _ | .finalize _
  | .gc _ _ | .partition _ _ | .heal _ _ | .evict _ _ | .syncFinalized _ _ => instDecidableTrue

section

variable {L : Finset Event} {K : Finset EventID}

theorem mem_resolvedHeads {k : EventID} :
    k ∈ resolvedHeads L ↔ ∃ e ∈ L, e.resolvedParkedEventId = some k := by
  simp [resolvedHeads]

theorem mem_parentsIn {id v : EventID} :
    v ∈ parentsIn L id ↔ ∃ e ∈ L, e.eventId = id ∧ v ∈ e.parentEventIds := by
  simp only [parentsIn, Finset.mem_biUnion, Finset.mem_filter, and_assoc]

end

/-! ## A new event -/

section

variable {s : State} (h : LedgerInv s)

include h

theorem LedgerInv.parentsIn_subset (id : EventID) :
    parentsIn s.ledger id ⊆ s.ledger.image Event.eventId := by
  intro v hv
  obtain ⟨e, he, _, hpar⟩ := mem_parentsIn.mp hv
  obtain ⟨x, hx, hid, _⟩ := h.older e he v hpar
  exact Finset.mem_image.mpr ⟨x, hx, hid⟩

theorem LedgerInv.resolvedHeads_subset :
    resolvedHeads s.ledger ⊆ s.ledger.image Event.eventId := by
  intro k hk
  obtain ⟨e, he, hres⟩ := mem_resolvedHeads.mp hk
  obtain ⟨x, hx, hid, _⟩ := h.older e he k ((h.shape e he).resolved_mem k (by simp [hres]))
  exact Finset.mem_image.mpr ⟨x, hx, hid⟩

theorem LedgerInv.branchEvents_insert {K : Finset EventID}
    (hK : K ⊆ s.ledger.image Event.eventId) {e : Event}
    (hfresh : ∀ x ∈ s.ledger, x.eventId ≠ e.eventId) :
    branchEvents (insert e s.ledger) K = branchEvents s.ledger K ∧
      e.eventId ∉ branchEvents s.ledger K := by
  have hnot : e.eventId ∉ s.ledger.image Event.eventId := by
    intro hmem
    obtain ⟨x, hx, hid⟩ := Finset.mem_image.mp hmem
    exact hfresh x hx hid
  have hclosed : ∀ a ∈ s.ledger.image Event.eventId,
      parentsIn s.ledger a ⊆ s.ledger.image Event.eventId := fun a _ => h.parentsIn_subset a
  have hold := unrolledClosure_subset hK hclosed maxEvents
  refine ⟨unrolledClosure_congr fun a ha => ?_, fun hmem => hnot (hold hmem)⟩
  rw [parentsIn, parentsIn, Finset.filter_insert, if_neg]
  rintro rfl
  exact hnot (hold ha)

theorem LedgerInv.unshared_insert {K : Finset EventID}
    (hK : K ⊆ s.ledger.image Event.eventId) {e : Event}
    (hfresh : ∀ x ∈ s.ledger, x.eventId ≠ e.eventId)
    (hL : unsharedBranches s.ledger K)
    (he : ∀ v ∈ finalizationReplayParents e, notShared s.ledger K (fun _ => False) v) :
    unsharedBranches (insert e s.ledger) K := by
  obtain ⟨hbranch, hnot⟩ := h.branchEvents_insert hK hfresh
  intro u hu v hv
  have hclear : v ∉ K ∧ ∀ w ∈ s.ledger, w.eventId ∈ branchEvents s.ledger K →
      v ∈ w.parentEventIds → w.eventId = u.eventId := by
    rcases Finset.mem_insert.mp hu with rfl | hu
    · exact ⟨(he v hv).1, fun w hw hb hp => ((he v hv).2 w hw hb hp).elim⟩
    · exact hL u hu v hv
  refine ⟨hclear.1, ?_⟩
  rw [hbranch]
  intro w hw hb hp
  rcases Finset.mem_insert.mp hw with rfl | hw
  · exact absurd hb hnot
  · exact hclear.2 w hw hb hp

end

theorem resolvedHeads_insert (e : Event) (L : Finset Event) :
    resolvedHeads (insert e L) = e.resolvedParkedEventId.toFinset ∪ resolvedHeads L := by
  simp only [resolvedHeads, Finset.biUnion_insert]

theorem LedgerInv.unshared_emission {s : State} (h : LedgerInv s) {p : PeerID} {a : Action}
    {e : Event} (hp : p ∈ peers) (he : Emission (s.nodes.get p) p a e)
    (hG : keepsBranchesUnshared s a)
    (hJ : unsharedBranches s.ledger (resolvedHeads s.ledger)) :
    unsharedBranches (insert e s.ledger) (resolvedHeads (insert e s.ledger)) := by
  have hfresh : ∀ x ∈ s.ledger, x.eventId ≠ e.eventId := fun x hx => h.emission_fresh hp he hx
  rw [resolvedHeads_insert]
  cases he with
  | write content _ =>
    change unsharedBranches _ (∅ ∪ resolvedHeads s.ledger)
    rw [Finset.empty_union]
    exact h.unshared_insert h.resolvedHeads_subset hfresh hJ hG
  | resolveFinalizedConflict cid content _ _ =>
    change unsharedBranches _ (∅ ∪ resolvedHeads s.ledger)
    rw [Finset.empty_union]
    exact h.unshared_insert h.resolvedHeads_subset hfresh hJ hG
  | resolveConflict parked content _ _ hk =>
    obtain ⟨hbasis, hbranches⟩ := hG
    have hparked : parked ∈ s.ledger.image Event.eventId := by
      obtain ⟨hmem, hid⟩ := (h.node p hp).get_mem hk
      exact Finset.mem_image.mpr ⟨_, hmem, hid⟩
    change unsharedBranches _ ({parked} ∪ resolvedHeads s.ledger)
    rw [← Finset.insert_eq]
    refine h.unshared_insert (Finset.insert_subset hparked h.resolvedHeads_subset) hfresh
      hbranches ?_
    intro v hv
    -- the resolved head itself is no replay parent of its resolution
    simp only [resolutionEvent, emittedEvent, finalizationReplayParents, Finset.mem_sdiff,
      Finset.mem_union, Finset.mem_singleton] at hv
    exact hbasis v (hv.1.resolve_right hv.2)

/-! ## Clocks -/

structure UnsharedInv (s : State) : Prop extends LedgerInv s where
  unshared : unsharedBranches s.ledger (resolvedHeads s.ledger)

theorem unsharedInv_of_run {tr : List (State × Action)} {s : State} (h : Run Step init tr s)
    (hG : ∀ x ∈ tr, keepsBranchesUnshared x.1 x.2) : UnsharedInv s := by
  refine Run.induct (I := fun _ s => UnsharedInv s) (G := keepsBranchesUnshared) ?_ ?_ h hG
  · exact ⟨ledgerInv_init, by decide⟩
  · rintro _ s a s' _ hI hGa ⟨o, hs⟩
    have heff := @effect_of_step o s s' a hs
    refine ⟨@ledgerInv_effect o _ _ _ hI.toLedgerInv heff, ?_⟩
    rcases @ledger_effect o _ _ _ hI.toLedgerInv heff with ⟨p, e, hp, he, hL⟩ | hL
    · rw [hL]
      exact hI.unshared_emission hp he hGa hI.unshared
    · rw [hL]
      exact hI.unshared

section

variable {s : State} {p : PeerID}

theorem LedgerInv.resolvedParkedRoots_subset (h : LedgerInv s) (hp : p ∈ peers) :
    resolvedParkedRoots (s.nodes.get p).clock ⊆ resolvedHeads s.ledger := by
  intro k hk
  obtain ⟨id, hid, hmem⟩ := Finset.mem_biUnion.mp hk
  cases hres : ((s.nodes.get p).clock.get id).resolvedParkedEventId with
  | none => simp [hres] at hmem
  | some pid =>
    rw [hres, Finset.mem_singleton] at hmem
    exact mem_resolvedHeads.mpr ⟨_, ((h.node p hp).get_mem hid).1, hmem ▸ hres⟩

theorem LedgerInv.clockParents_subset (h : LedgerInv s) (hp : p ∈ peers) (id : EventID) :
    clockParents (s.nodes.get p).clock id ⊆ parentsIn s.ledger id := by
  intro v hv
  rw [clockParents] at hv
  split at hv
  · rename_i hid
    obtain ⟨hmem, heq⟩ := (h.node p hp).get_mem hid
    exact mem_parentsIn.mpr ⟨_, hmem, heq, hv⟩
  · simp at hv

/-- What stands on a subsumed event is subsumed with it. -/
theorem UnsharedInv.subsumed_of_replayParent (h : UnsharedInv s) (hp : p ∈ peers)
    {u v : EventID} (hv : v ∈ subsumedEvents (s.nodes.get p).clock)
    (hlink : v ∈ replayLinks (s.nodes.get p).clock u) :
    u ∈ subsumedEvents (s.nodes.get p).clock := by
  have hroots := h.resolvedParkedRoots_subset hp
  have hu : u ∈ (s.nodes.get p).clock.keys := by
    by_contra hu
    simp [replayLinks, hu] at hlink
  rw [replayLinks, if_pos hu] at hlink
  obtain ⟨hmem, hid⟩ := (h.node p hp).get_mem hu
  obtain ⟨hnot, honly⟩ := h.unshared _ hmem v hlink
  rw [hid] at honly
  -- `v` was collected below some branch event, which can only be `u`
  have hcollect : ∀ n ≤ maxEvents, v ∈ unrolledClosure n (clockParents (s.nodes.get p).clock)
      (resolvedParkedRoots (s.nodes.get p).clock) →
      u ∈ subsumedEvents (s.nodes.get p).clock := by
    intro n
    induction n with
    | zero => exact fun _ hroot => absurd (hroots hroot) hnot
    | succ n ih =>
      intro hn hmem'
      rw [unrolledClosure_succ, mem_closureStep] at hmem'
      rcases hmem' with hmem' | ⟨w, hw, hwv⟩
      · exact ih (by omega) hmem'
      · have hw' : w ∈ subsumedEvents (s.nodes.get p).clock := unrolledClosure_le (by omega) _ hw
        have hbranch : w ∈ branchEvents s.ledger (resolvedHeads s.ledger) :=
          unrolledClosure_mono_next _ (h.clockParents_subset hp) _
            (unrolledClosure_mono_seed _ hroots hw')
        obtain ⟨x, hx, hxid, hxv⟩ := mem_parentsIn.mp (h.clockParents_subset hp w hwv)
        have hwu := honly x hx (hxid ▸ hbranch) hxv
        rw [← hwu, hxid]
        exact hw'
  exact hcollect maxEvents le_rfl hv

theorem UnsharedInv.not_subsumed_of_path (h : UnsharedInv s) (hp : p ∈ peers) {u v : EventID}
    (hu : u ∉ subsumedEvents (s.nodes.get p).clock)
    (hpath : Path (replayLinks (s.nodes.get p).clock) u v) :
    v ∉ subsumedEvents (s.nodes.get p).clock := by
  induction hpath with
  | refl => exact hu
  | tail _ hlink ih => exact fun hv => ih (h.subsumed_of_replayParent hp hv hlink)

end

/-- In a run whose steps keep resolved branches unshared, no live event of any clock is based
on a subsumed one; in particular none is based on an event that is about to be finalized as
bookkeeping only. -/
theorem subsumption_covers_only_resolved_branches {tr : List (State × Action)} {s : State}
    (h : Run Step init tr s) (hG : ∀ x ∈ tr, keepsBranchesUnshared x.1 x.2) {p : PeerID}
    (hp : p ∈ peers) :
    (∀ u ∈ (s.nodes.get p).clock.keys, u ∉ subsumedEvents (s.nodes.get p).clock →
      ∀ v, Path (replayLinks (s.nodes.get p).clock) u v →
        v ∉ subsumedEvents (s.nodes.get p).clock) ∧
    ∀ o : FoldOrder, @nextFinalizationIsSubsumed o (s.nodes.get p) →
      ∀ u ∈ (s.nodes.get p).clock.keys, u ∉ subsumedEvents (s.nodes.get p).clock →
        ¬Path (replayLinks (s.nodes.get p).clock) u
          (@nextFinalizationEventID o (s.nodes.get p)) := by
  have hinv := unsharedInv_of_run h hG
  constructor
  · intro u _ hu v hpath
    exact hinv.not_subsumed_of_path hp hu hpath
  · intro o hsub u _ hu hpath
    exact hinv.not_subsumed_of_path hp hu hpath hsub.2

/-! ## A branch shared with a live event -/

/-- The parked child of a shared root is resolved. -/
def sharedResolutionRun : List Action := sharedAncestorRun ++ [.resolveConflict 1 ⟨2, 1, 3⟩ 13]

def sharedResolutionState : State := (runOutcome sharedResolutionRun).2

theorem sharedResolutionRun_runs : Run Step init (runOutcome sharedResolutionRun).1
    sharedResolutionState := run_runOutcome (by decide +kernel)

/-- The live child is replayed on the shared root, which is finalized as bookkeeping only. What
both wrote in dimension B is then missing from the finalized root. -/
theorem live_event_on_subsumed_root : ∃ s, Reachable Step init s ∧ ∃ p ∈ peers,
    ∃ u ∈ (s.nodes.get p).clock.keys, u ∉ subsumedEvents (s.nodes.get p).clock ∧
    ∃ v ∈ subsumedEvents (s.nodes.get p).clock, Path (replayLinks (s.nodes.get p).clock) u v ∧
      @finalizeEnabled ascendingFolds (s.nodes.get p) ∧
      @nextFinalizationIsSubsumed ascendingFolds (s.nodes.get p) ∧
      @nextFinalizationEventID ascendingFolds (s.nodes.get p) = v ∧
      decodeDimB ((s.nodes.get p).clock.get u).prollyRootHash = 1 ∧
      decodeDimB ((s.nodes.get p).clock.get v).prollyRootHash = 1 ∧
      decodeDimB (@finalizeResult ascendingFolds
        (@finalizeResult ascendingFolds (s.nodes.get p))).finalizedProllyRootHash = 0 :=
  ⟨sharedResolutionState, ⟨_, sharedResolutionRun_runs⟩, 1, by decide, ⟨1, 1, 2⟩,
    by decide +kernel, by decide +kernel, ⟨1, 1, 1⟩, by decide +kernel,
    .single (by decide +kernel), by decide +kernel, by decide +kernel, by decide +kernel,
    by decide +kernel, by decide +kernel, by decide +kernel⟩

/-- Two conflicting roots: the parked one is resolved, and nothing else stands on it. -/
def rootResolutionRun : List Action :=
  let kept := writtenEvent (emptyNodeState 1) 1 11
  let parked := writtenEvent (emptyNodeState 2) 2 14
  [.write 1 11, .write 2 14, .receive 1 parked, .chunksReady 1 parked.eventId,
    .resolveConflict 1 parked.eventId 14, .receive 2 kept]

def rootResolutionState : State := (runOutcome rootResolutionRun).2

theorem rootResolutionRun_runs : Run Step init (runOutcome rootResolutionRun).1
    rootResolutionState := run_runOutcome (by decide +kernel)

theorem subsumption_covers_only_resolved_branches_on_roots :
    subsumedEvents (rootResolutionState.nodes.get 1).clock = {⟨2, 1, 1⟩} ∧
    ¬Path (replayLinks (rootResolutionState.nodes.get 1).clock) ⟨1, 1, 3⟩ ⟨2, 1, 1⟩ := by
  have h := subsumption_covers_only_resolved_branches rootResolutionRun_runs (by decide +kernel)
    (p := 1) (by decide)
  have hsub : subsumedEvents (rootResolutionState.nodes.get 1).clock = {⟨2, 1, 1⟩} := by
    decide +kernel
  refine ⟨hsub, fun hpath => ?_⟩
  refine h.1 _ (by decide +kernel) (by decide +kernel) _ hpath ?_
  rw [hsub]
  exact Finset.mem_singleton_self _

end DoltSwarm.Protocol
