import DoltSwarm.Protocol.Parking

/-!
# Seen frontiers and hybrid clocks

A frontier recorded for a peer names only events that peer's hybrid clock has passed, so an
event covered by all active peers precedes everything any of them will emit.
-/

namespace DoltSwarm.Protocol

open Lib

set_option autoImplicit false

/-! ## One step -/

section

variable [FoldOrder] {s s' : State} {a : Action}

theorem hlcClock_effect (heff : Effect s a s') (q : PeerID) :
    less (s'.nodes.get q).hlcClock (s.nodes.get q).hlcClock = false := by
  have hput : ∀ p st, less st.hlcClock (s.nodes.get p).hlcClock = false →
      less ((s.nodes.put p st).get q).hlcClock (s.nodes.get q).hlcClock = false := by
    intro p st hst
    apply Map.rel_get_put (R := fun st st' : NodeState => less st'.hlcClock st.hlcClock = false)
    · exact fun st => less_self _
    · exact hst
  cases heff with
  | emit p e _ _ he =>
    refine hput p _ (not_less_of_less ?_)
    change less _ e.hlc = true
    rw [(emission_hlc he).2]
    exact less_tick _ _ _
  | receive p e _ _ => exact hput p _ (not_less_of_less (less_observe _ _ _ _).1)
  | touch p st _ ht =>
    refine hput p st ?_
    rw [(touch_frame ht).2.2]
    exact less_self _
  | heartbeat p r _ _ _ _ => exact hput p _ (less_self _)
  | finalize p _ he =>
    refine hput p _ ?_
    rcases finalizeResult_cases _ he with ⟨_, heq⟩ | ⟨_, _, heq⟩
    · rw [heq]
      exact less_self _
    · rw [heq, replayNextEvent_frame]
      exact less_self _
  | gc p id _ _ => exact hput p _ (less_self _)
  | sync p r _ _ _ =>
    refine hput p _ ?_
    rw [syncResult_hlcClock]
    exact less_self _
  | network conn _ => exact less_self _

omit [FoldOrder] in
theorem observedFrontier_subset (clock : Clock) : observedFrontier clock ⊆ clock.keys :=
  (Finset.filter_subset _ _).trans (Finset.filter_subset _ _)

/-- A recorded frontier is kept, copied from its owner, or read off the own clock. -/
theorem frontier_effect (heff : Effect s a s') (x y : PeerID) :
    (s'.nodes.get x).peerSeenFrontier.get y = (s.nodes.get x).peerSeenFrontier.get y ∨
    (s'.nodes.get x).peerSeenFrontier.get y = (s.nodes.get y).peerSeenFrontier.get y ∨
    x = y ∧ (s'.nodes.get x).peerSeenFrontier.get y ⊆ (s'.nodes.get x).clock.keys := by
  -- the cases differ in the entry that the new state of one peer replaces
  have hput : ∀ p st z new, st.peerSeenFrontier = (s.nodes.get p).peerSeenFrontier.put z new →
      (new = (s.nodes.get z).peerSeenFrontier.get z ∨ p = z ∧ new ⊆ st.clock.keys) →
      ((s.nodes.put p st).get x).peerSeenFrontier.get y =
          (s.nodes.get x).peerSeenFrontier.get y ∨
        ((s.nodes.put p st).get x).peerSeenFrontier.get y =
          (s.nodes.get y).peerSeenFrontier.get y ∨
        x = y ∧ ((s.nodes.put p st).get x).peerSeenFrontier.get y ⊆
          ((s.nodes.put p st).get x).clock.keys := by
    intro p st z new hst hnew
    rw [Map.get_put]
    split
    · rename_i hxp
      rw [hst, Map.get_put]
      split
      · rename_i hyz
        rcases hnew with hnew | ⟨hpz, hnew⟩
        · exact Or.inr (Or.inl (hyz ▸ hnew))
        · exact Or.inr (Or.inr ⟨hxp.trans (hpz.trans hyz.symm), hnew⟩)
      · exact Or.inl (hxp ▸ rfl)
    · exact Or.inl rfl
  have hkeep : ∀ p st, st.peerSeenFrontier = (s.nodes.get p).peerSeenFrontier →
      ((s.nodes.put p st).get x).peerSeenFrontier.get y =
        (s.nodes.get x).peerSeenFrontier.get y := by
    intro p st hst
    rw [Map.get_put]
    split
    · rename_i hxp
      rw [hst, hxp]
    · rfl
  cases heff with
  | emit p e _ _ _ => exact hput p _ p _ rfl (Or.inr ⟨rfl, observedFrontier_subset _⟩)
  | receive p e _ _ => exact hput p _ p _ rfl (Or.inr ⟨rfl, observedFrontier_subset _⟩)
  | touch p st _ ht => cases ht <;> exact Or.inl (hkeep p _ rfl)
  | heartbeat p q _ _ _ _ => exact hput p _ q _ rfl (Or.inl rfl)
  | finalize p _ he =>
    refine Or.inl (hkeep p _ ?_)
    rcases finalizeResult_cases _ he with ⟨_, heq⟩ | ⟨_, _, heq⟩
    · rw [heq]
      rfl
    · rw [heq, replayNextEvent_frame]
      rfl
  | gc p id _ _ => exact hput p _ p _ rfl (Or.inr ⟨rfl, observedFrontier_subset _⟩)
  | sync p q _ _ _ =>
    refine hput p _ p _ ?_ (Or.inr ⟨rfl, observedFrontier_subset _⟩)
    obtain ⟨clock, ready, _, heq⟩ := applySyncFinalizedResult_eq (s.nodes.get p) (s.nodes.get q)
    simp only [syncResult, heq, reconcileResult_peerSeenFrontier, withClock]
    rw [syncFinalizedCoreResult_frame]
  | network conn _ => exact Or.inl rfl

end

/-! ## The invariant -/

structure FrontierInv (s : State) : Prop extends LedgerInv s where
  passed : ∀ p ∈ peers, ∀ q ∈ peers, ∀ id ∈ (s.nodes.get p).peerSeenFrontier.get q,
    ∃ e ∈ s.ledger, e.eventId = id ∧ less (s.nodes.get q).hlcClock e.hlc = false

theorem frontierInv_init : FrontierInv init where
  toLedgerInv := ledgerInv_init
  passed := by
    intro p hp q hq id hid
    have hget : init.nodes.get p = emptyNodeState p := Map.get_mapBy_of_mem _ hp
    rw [hget] at hid
    simp only [emptyNodeState, Map.get_mapBy_of_mem _ hq] at hid
    simp at hid

theorem frontierInv_effect [FoldOrder] {s s' : State} {a : Action} (h : FrontierInv s)
    (heff : Effect s a s') : FrontierInv s' := by
  have hledger := ledgerInv_effect h.toLedgerInv heff
  have hsub := ledger_subset_effect h.toLedgerInv heff
  refine ⟨hledger, fun p hp q hq id hid => ?_⟩
  have hold : ∀ r ∈ peers, id ∈ (s.nodes.get r).peerSeenFrontier.get q →
      ∃ e ∈ s'.ledger, e.eventId = id ∧ less (s'.nodes.get q).hlcClock e.hlc = false := by
    intro r hr hmem
    obtain ⟨e, he, hide, hle⟩ := h.passed r hr q hq id hmem
    exact ⟨e, hsub he, hide, not_less_trans (hlcClock_effect heff q) hle⟩
  rcases frontier_effect heff p q with heq | heq | ⟨rfl, hkeys⟩
  · exact hold p hp (heq ▸ hid)
  · exact hold q hq (heq ▸ hid)
  · have hlook := Map.lookup_of_mem (hkeys hid)
    obtain ⟨hmem, hide⟩ := (hledger.node p hp).mem id _ hlook
    exact ⟨_, hmem, hide, (hledger.node p hp).seen id _ hlook⟩

theorem LedgerInv.path_not_newer {s : State} (h : LedgerInv s) {p : PeerID} (hp : p ∈ peers)
    {a b : EventID} (hpath : Path (clockParents (s.nodes.get p).clock) a b) :
    ∀ e ∈ s.ledger, e.eventId = a → ∀ x ∈ s.ledger, x.eventId = b → less e.hlc x.hlc = false := by
  induction hpath with
  | refl =>
    intro e he hea x hx hxa
    rw [h.unique e he x hx (hea.trans hxa.symm)]
    exact less_self _
  | tail _ hlink ih =>
    intro e he hea x hx hxc
    rename_i b c _
    rw [clockParents] at hlink
    split at hlink
    · rename_i hb
      obtain ⟨hmem, hid⟩ := (h.node p hp).get_mem hb
      obtain ⟨y, hy, hyc, hlt⟩ := h.older _ hmem c hlink
      rw [h.unique x hx y hy (hxc.trans hyc.symm)]
      exact not_less_trans (ih e he hea _ hmem hid) (not_less_of_less hlt)
    · simp at hlink

theorem FrontierInv.covered_passed {s : State} (h : FrontierInv s) {p q : PeerID}
    (hp : p ∈ peers) (hq : q ∈ peers) (hactive : q ∈ (s.nodes.get p).activePeers) {e : Event}
    (he : e ∈ s.ledger) (hcov : coveredByActivePeers (s.nodes.get p) e.eventId) :
    less (s.nodes.get q).hlcClock e.hlc = false := by
  obtain ⟨fid, hfid, _, hclosure⟩ := hcov q hactive
  obtain ⟨f, hf, hid, hle⟩ := h.passed p hp q hq fid hfid
  obtain ⟨x, hx, hpath⟩ := path_of_mem_unrolledClosure hclosure
  rw [Finset.mem_singleton.mp hx] at hpath
  exact not_less_trans hle (h.path_not_newer hp hpath f hf hid e he rfl)

end DoltSwarm.Protocol
