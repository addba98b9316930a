import DoltSwarm.Protocol.Frames

/-!
# The ledger of emitted events

Inboxes never shrink and an author delivers to itself, so the union of the inboxes holds
every event ever emitted. Event ids are unique in it, parents are older than their
children, and every clock is a part of it.
-/

namespace DoltSwarm.Protocol

open Lib

set_option autoImplicit false

def State.ledger (s : State) : Finset Event := s.inbox.keys.biUnion s.inbox.get

theorem State.mem_ledger (s : State) (e : Event) :
    e ∈ s.ledger ↔ ∃ p ∈ s.inbox.keys, e ∈ s.inbox.get p := Finset.mem_biUnion

/-- The id of an event repeats its author and timestamp. -/
structure Stamped (e : Event) : Prop where
  peer_mem : e.peer ∈ peers
  hlc_peer : e.hlc.peer = e.peer
  id_eq : e.eventId = ⟨e.peer, e.hlc.wall, e.hlc.logical⟩

/-- What every emitted event satisfies on its own. -/
structure EventShape (e : Event) : Prop extends Stamped e where
  root_mem : e.prollyRootHash ∈ contents
  resolved_mem : ∀ k ∈ e.resolvedParkedEventId, k ∈ e.parentEventIds

/-- The clock of a peer and what is derived from it, relative to a set of events. -/
structure ClockOk (L : Finset Event) (st : NodeState) : Prop where
  mem : ∀ id e, st.clock.lookup id = some e → e ∈ L ∧ e.eventId = id
  seen : ∀ id e, st.clock.lookup id = some e → less st.hlcClock e.hlc = false
  heads : st.headEventIds = computeHeadEventIDs st.clock
  basis : st.projectionBasis ⊆ st.headEventIds
  parked : st.parkedConflicts ⊆ st.headEventIds

structure LedgerInv (s : State) : Prop where
  nodes_keys : s.nodes.keys = peers
  inbox_keys : s.inbox.keys = peers
  shape : ∀ e ∈ s.ledger, EventShape e
  authored : ∀ e ∈ s.ledger, less (s.nodes.get e.peer).hlcClock e.hlc = false
  unique : ∀ e ∈ s.ledger, ∀ e' ∈ s.ledger, e.eventId = e'.eventId → e = e'
  older : ∀ e ∈ s.ledger, ∀ pid ∈ e.parentEventIds,
    ∃ e' ∈ s.ledger, e'.eventId = pid ∧ less e'.hlc e.hlc = true
  node : ∀ p ∈ peers, ClockOk s.ledger (s.nodes.get p)

/-! ## Heads, basis and parked set -/

section

variable [FoldOrder]

omit [FoldOrder] in
theorem anchoredStep_conflicts_subset {clock : Clock} {s : Finset EventID} {l : List EventID}
    (hl : ∀ id ∈ l, id ∈ s) {acc : ProllyRootHash × Finset EventID} (hacc : acc.2 ⊆ s) :
    (l.foldl (anchoredStep clock) acc).2 ⊆ s := by
  induction l generalizing acc with
  | nil => exact hacc
  | cons x xs ih =>
    simp only [List.mem_cons, forall_eq_or_imp] at hl
    apply ih hl.2
    simp only [anchoredStep]
    split
    · exact Finset.union_subset hacc (Finset.singleton_subset_iff.mpr hl.1)
    · exact hacc

theorem anchoredFold_conflicts_subset (heads : Finset EventID) (clock : Clock)
    (start : ProllyRootHash) : (anchoredFold heads clock start).2 ⊆ heads :=
  anchoredStep_conflicts_subset (fun id => (mem_sortEventIDsByHLC _ _ id).mp)
    (Finset.empty_subset _)

theorem projection_subset (st : NodeState) :
    (computeTentativeProjection st).2.1 ⊆ tentativeHeadEventIDs st ∧
      (computeTentativeProjection st).2.2 ⊆ tentativeHeadEventIDs st := by
  have hready : mergeableHeadEventIDs st ⊆ tentativeHeadEventIDs st := Finset.filter_subset _ _
  simp only [computeTentativeProjection]
  split_ifs
  · exact ⟨Finset.empty_subset _, Finset.empty_subset _⟩
  · exact ⟨Finset.inter_subset_right, Finset.inter_subset_right⟩
  · refine ⟨Finset.union_subset (Finset.union_subset ?_ ?_) ?_, ?_⟩
    · exact (anchoredFold_conflicts_subset _ _ _).trans (Finset.sdiff_subset.trans hready)
    · exact Finset.inter_subset_right.trans Finset.sdiff_subset
    · exact (Finset.filter_subset _ _).trans hready
    · exact Finset.sdiff_subset.trans (Finset.sdiff_subset.trans hready)

theorem clockOk_reconcile {L : Finset Event} {st : NodeState}
    (hmem : ∀ id e, st.clock.lookup id = some e → e ∈ L ∧ e.eventId = id)
    (hseen : ∀ id e, st.clock.lookup id = some e → less st.hlcClock e.hlc = false)
    (hheads : st.headEventIds = computeHeadEventIDs st.clock) :
    ClockOk L (reconcileResult st) where
  mem := hmem
  seen := hseen
  heads := hheads
  basis := (projection_subset st).2.trans Finset.sdiff_subset
  parked := (projection_subset st).1.trans Finset.sdiff_subset

end

namespace ClockOk

variable {L L' : Finset Event} {st : NodeState}

theorem mono (h : ClockOk L st) (hL : L ⊆ L') : ClockOk L' st :=
  ⟨fun id e he => ⟨hL (h.mem id e he).1, (h.mem id e he).2⟩, h.seen, h.heads, h.basis, h.parked⟩

theorem get_mem (h : ClockOk L st) {id : EventID} (hid : id ∈ st.clock.keys) :
    st.clock.get id ∈ L ∧ (st.clock.get id).eventId = id := h.mem id _ (Map.lookup_of_mem hid)

theorem basis_subset_keys (h : ClockOk L st) : st.projectionBasis ⊆ st.clock.keys :=
  h.basis.trans (h.heads ▸ computeHeadEventIDs_subset _)

theorem parked_subset_keys (h : ClockOk L st) : st.parkedConflicts ⊆ st.clock.keys :=
  h.parked.trans (h.heads ▸ computeHeadEventIDs_subset _)

theorem addToClock [FoldOrder] (h : ClockOk L st) {p : PeerID} {e : Event} {hlc : HLC}
    {ready : Finset EventID} (he : e ∈ L) (hc : less hlc st.hlcClock = false)
    (hhlc : less hlc e.hlc = false) :
    ClockOk L (reconcileResult { Protocol.addToClock st p e hlc with chunksReady := ready }) := by
  refine clockOk_reconcile ?_ ?_ rfl
  · intro id e' hl
    simp only [Protocol.addToClock, Map.lookup_put] at hl
    split at hl
    · rw [← Option.some.inj hl]
      exact ⟨he, by simp [*]⟩
    · exact h.mem id e' hl
  · intro id e' hl
    simp only [Protocol.addToClock, Map.lookup_put] at hl ⊢
    split at hl
    · rw [← Option.some.inj hl]
      exact hhlc
    · cases hlt : less hlc e'.hlc with
      | false => rfl
      | true =>
        have := less_of_not_less_of_less hc hlt
        rw [h.seen id e' hl] at this
        cases this

end ClockOk

/-! ## Steps that leave the ledger as it is -/

theorem ledger_eq_of_inbox {s s' : State} (h : s'.inbox = s.inbox) : s'.ledger = s.ledger := by
  simp only [State.ledger, h]

namespace LedgerInv

variable {s : State}

theorem mem_ledger_of_inbox (h : LedgerInv s) {p : PeerID} (hp : p ∈ peers) {e : Event}
    (he : e ∈ s.inbox.get p) : e ∈ s.ledger :=
  (s.mem_ledger e).mpr ⟨p, h.inbox_keys ▸ hp, he⟩

theorem update (h : LedgerInv s) {s' : State} {p : PeerID} {st : NodeState} (hp : p ∈ peers)
    (hnodes : s'.nodes = s.nodes.put p st) (hkeys : s'.inbox.keys = peers)
    (hL : s'.ledger = s.ledger) (hst : ClockOk s.ledger st)
    (hmono : less st.hlcClock (s.nodes.get p).hlcClock = false) : LedgerInv s' where
  nodes_keys := by
    rw [hnodes, Map.keys_put, h.nodes_keys]
    exact Finset.insert_eq_of_mem hp
  inbox_keys := hkeys
  shape := hL ▸ h.shape
  authored := by
    rw [hL, hnodes]
    intro e he
    rw [Map.get_put]
    split
    · rename_i heq
      have hle := h.authored e he
      rw [heq] at hle
      cases hlt : less st.hlcClock e.hlc with
      | false => rfl
      | true =>
        have := less_of_not_less_of_less hmono hlt
        rw [hle] at this
        cases this
    · exact h.authored e he
  unique := hL ▸ h.unique
  older := hL ▸ h.older
  node := by
    rw [hL, hnodes]
    exact Map.forall_get_put (P := fun _ (st : NodeState) => ClockOk s.ledger st) h.node hst

theorem setNode (h : LedgerInv s) {p : PeerID} {st : NodeState} (hp : p ∈ peers)
    (hst : ClockOk s.ledger st) (hmono : less st.hlcClock (s.nodes.get p).hlcClock = false) :
    LedgerInv (s.setNode p st) :=
  h.update hp rfl h.inbox_keys (ledger_eq_of_inbox rfl) hst hmono

end LedgerInv

theorem less_self (a : HLC) : less a a = false := less_strictTotal.irrefl a trivial

theorem touch_frame [FoldOrder] {conn : Finset (PeerID × PeerID)} {st st' : NodeState}
    {p : PeerID} {a : Action} (h : Touch conn st p a st') :
    st'.clock = st.clock ∧ st'.headEventIds = st.headEventIds ∧ st'.hlcClock = st.hlcClock := by
  cases h <;> exact ⟨rfl, rfl, rfl⟩

theorem clockOk_touch [FoldOrder] {L : Finset Event} {conn : Finset (PeerID × PeerID)}
    {st st' : NodeState} {p : PeerID} {a : Action} (h : Touch conn st p a st')
    (hst : ClockOk L st) : ClockOk L st' := by
  cases h with
  | chunksReady id _ _ => exact clockOk_reconcile hst.mem hst.seen hst.heads
  | reconcile _ => exact clockOk_reconcile hst.mem hst.seen hst.heads
  | tick _ => exact ⟨hst.mem, hst.seen, hst.heads, hst.basis, hst.parked⟩
  | evict q _ _ _ _ => exact ⟨hst.mem, hst.seen, hst.heads, hst.basis, hst.parked⟩

theorem clockOk_finalize [FoldOrder] {L : Finset Event} {st : NodeState} (hst : ClockOk L st)
    (he : finalizeEnabled st) :
    ClockOk L (finalizeResult st) ∧ (finalizeResult st).hlcClock = st.hlcClock := by
  rcases finalizeResult_cases st he with ⟨_, heq⟩ | ⟨_, _, heq⟩
  · rw [heq]
    exact ⟨clockOk_reconcile hst.mem hst.seen hst.heads, rfl⟩
  · rw [heq, replayNextEvent_frame]
    exact ⟨clockOk_reconcile hst.mem hst.seen hst.heads, rfl⟩

theorem clockOk_gc [FoldOrder] {L : Finset Event} {st : NodeState} (hst : ClockOk L st)
    (p : PeerID) (id : EventID) : ClockOk L (gcResult st p id) := by
  have hsub : Map.SubMap (gcBaseResult st p id).clock st.clock := Map.subMap_removeAll _ _
  exact clockOk_reconcile (fun i e he => hst.mem i e (hsub i e he))
    (fun i e he => hst.seen i e (hsub i e he)) rfl

theorem seen_of_mem_closure {s : State} (h : LedgerInv s) {p q : PeerID} (hp : p ∈ peers)
    (hq : q ∈ peers) {n : ℕ} {id : EventID}
    (hid : id ∈ unrolledClosure n (clockParents (s.nodes.get q).clock)
      (s.nodes.get p).clock.keys) :
    ∀ e ∈ s.ledger, e.eventId = id → less (s.nodes.get p).hlcClock e.hlc = false := by
  induction n generalizing id with
  | zero =>
    intro e he heq
    obtain ⟨hmem, hkey⟩ := (h.node p hp).get_mem hid
    rw [h.unique e he _ hmem (heq.trans hkey.symm)]
    exact (h.node p hp).seen id _ (Map.lookup_of_mem hid)
  | succ n ih =>
    rw [unrolledClosure_succ, mem_closureStep] at hid
    rcases hid with hid | ⟨child, hchild, hpar⟩
    · exact ih hid
    · intro e he heq
      simp only [clockParents] at hpar
      split at hpar
      · rename_i hk
        obtain ⟨hmem, hkey⟩ := (h.node q hq).get_mem hk
        obtain ⟨e', he', hid', hlt⟩ := h.older _ hmem id hpar
        rw [h.unique e he e' he' (heq.trans hid'.symm)]
        have hc := ih hchild _ hmem hkey
        cases hb : less (s.nodes.get p).hlcClock e'.hlc with
        | false => rfl
        | true =>
          rw [less_trans hb hlt] at hc
          cases hc
      · simp at hpar

theorem clockOk_sync [FoldOrder] {s : State} (h : LedgerInv s) {p q : PeerID} (hp : p ∈ peers)
    (hq : q ∈ peers) : ClockOk s.ledger (syncResult p (s.nodes.get p) (s.nodes.get q)) := by
  obtain ⟨clock, ready, hy, heq⟩ :=
    applySyncFinalizedResult_eq (s.nodes.get p) (s.nodes.get q)
  have hhlc : (syncFinalizedCoreResult (s.nodes.get p) (s.nodes.get q)).hlcClock =
      (s.nodes.get p).hlcClock := by rw [syncFinalizedCoreResult_frame]
  have hok : ClockOk s.ledger (applySyncFinalizedResult (s.nodes.get p) (s.nodes.get q)) := by
    rw [heq]
    refine clockOk_reconcile ?_ ?_ rfl
    · intro id e he
      rcases hy id e he with hl | ⟨hr, _⟩
      · exact (h.node p hp).mem id e hl
      · exact (h.node q hq).mem id e hr
    · intro id e he
      simp only [withClock, hhlc]
      rcases hy id e he with hl | ⟨hr, hcl⟩
      · exact (h.node p hp).seen id e hl
      · obtain ⟨hmem, hid⟩ := (h.node q hq).mem id e hr
        exact seen_of_mem_closure h hp hq hcl e hmem hid
  exact ⟨hok.mem, hok.seen, hok.heads, hok.basis, hok.parked⟩

theorem syncResult_hlcClock [FoldOrder] (p : PeerID) (stLocal stRemote : NodeState) :
    (syncResult p stLocal stRemote).hlcClock = stLocal.hlcClock := by
  obtain ⟨clock, ready, _, heq⟩ := applySyncFinalizedResult_eq stLocal stRemote
  simp only [syncResult, heq, reconcileResult_hlcClock, withClock]
  rw [syncFinalizedCoreResult_frame]

/-! ## Emission -/

theorem tick_peer (clock : HLC) (localWall : Int) (p : PeerID) :
    (tick clock localWall p).peer = p := by
  simp only [tick]
  split <;> rfl

/-- All three kinds of emission fill one template, with parents from basis and parked set. -/
theorem emission_spec {st : NodeState} {p : PeerID} {a : Action} {e : Event}
    (h : Emission st p a e) : ∃ content ∈ contents, ∃ parents parked claim,
      e = emittedEvent st p content parents parked claim ∧
      parents ⊆ st.projectionBasis ∪ st.parkedConflicts ∧ ∀ k ∈ parked, k ∈ parents := by
  cases h with
  | write content hc =>
    exact ⟨content, hc, _, _, _, rfl, Finset.subset_union_left, by simp⟩
  | resolveConflict parked content hc hk _ =>
    refine ⟨content, hc, _, _, _, rfl, ?_, by simp⟩
    exact Finset.union_subset_union_right (Finset.singleton_subset_iff.mpr hk)
  | resolveFinalizedConflict cid content hc _ =>
    exact ⟨content, hc, _, _, _, rfl, Finset.subset_union_left, by simp⟩

theorem emission_hlc {st : NodeState} {p : PeerID} {a : Action} {e : Event}
    (h : Emission st p a e) : e.peer = p ∧ e.hlc = tick st.hlcClock st.localWall p := by
  obtain ⟨_, _, _, _, _, rfl, _, _⟩ := emission_spec h
  exact ⟨rfl, rfl⟩

theorem shape_of_emission {st : NodeState} {p : PeerID} {a : Action} {e : Event}
    (h : Emission st p a e) (hp : p ∈ peers) : EventShape e := by
  obtain ⟨_, hc, _, _, _, rfl, _, hres⟩ := emission_spec h
  exact ⟨⟨hp, tick_peer _ _ _, rfl⟩, hc, hres⟩

theorem ledger_emit [FoldOrder] {s : State} {p : PeerID} {e : Event}
    (hp : e.peer ∈ s.inbox.keys) : (s.emit p e).ledger = insert e s.ledger := by
  ext x
  simp only [State.mem_ledger, State.emit, disseminateToConnected, Map.keys_mapBy,
    Finset.mem_insert]
  constructor
  · rintro ⟨q, hq, hx⟩
    rw [Map.get_mapBy_of_mem _ hq] at hx
    split at hx
    · rcases Finset.mem_union.mp hx with hx | hx
      · exact Or.inr ⟨q, hq, hx⟩
      · exact Or.inl (Finset.mem_singleton.mp hx)
    · exact Or.inr ⟨q, hq, hx⟩
  · rintro (rfl | ⟨q, hq, hx⟩)
    · refine ⟨x.peer, hp, ?_⟩
      rw [Map.get_mapBy_of_mem _ hp]
      simp
    · refine ⟨q, hq, ?_⟩
      rw [Map.get_mapBy_of_mem _ hq]
      split
      · exact Finset.mem_union_left _ hx
      · exact hx

theorem LedgerInv.less_emission {s : State} (h : LedgerInv s) {p : PeerID} {a : Action}
    {e : Event} (he : Emission (s.nodes.get p) p a e) :
    (∀ e' ∈ s.ledger, e'.peer = p → less e'.hlc e.hlc = true) ∧
      (p ∈ peers → ∀ id ∈ (s.nodes.get p).clock.keys,
        less ((s.nodes.get p).clock.get id).hlc e.hlc = true) := by
  rw [(emission_hlc he).2]
  have htick := less_tick (s.nodes.get p).hlcClock (s.nodes.get p).localWall p
  constructor
  · intro e' he' hpeer
    have hle := h.authored e' he'
    rw [hpeer] at hle
    exact less_of_not_less_of_less hle htick
  · intro hp id hid
    exact less_of_not_less_of_less ((h.node p hp).seen id _ (Map.lookup_of_mem hid)) htick

theorem LedgerInv.emission_fresh {s : State} (h : LedgerInv s) {p : PeerID} {a : Action}
    {e : Event} (hp : p ∈ peers) (he : Emission (s.nodes.get p) p a e) {e' : Event}
    (he' : e' ∈ s.ledger) : e'.eventId ≠ e.eventId := by
  intro hid
  have hshape := shape_of_emission he hp
  have hshape' := h.shape e' he'
  rw [hshape.id_eq, hshape'.id_eq] at hid
  simp only [EventID.mk.injEq] at hid
  have hhlc : e'.hlc = e.hlc := by
    have hpeer : e'.hlc.peer = e.hlc.peer := by
      rw [hshape.hlc_peer, hshape'.hlc_peer, hid.1]
    cases heq : e'.hlc
    cases heq' : e.hlc
    simp_all
  have hlt := (h.less_emission he).1 e' he' (hid.1.trans (emission_hlc he).1)
  rw [hhlc, less_self] at hlt
  cases hlt

theorem LedgerInv.emission_notMem {s : State} (h : LedgerInv s) {p : PeerID} {a : Action}
    {e : Event} (hp : p ∈ peers) (he : Emission (s.nodes.get p) p a e) :
    e.eventId ∉ (s.nodes.get p).clock.keys := by
  intro hmem
  obtain ⟨hget, hid⟩ := (h.node p hp).get_mem hmem
  exact h.emission_fresh hp he hget hid

theorem LedgerInv.emission_parents {s : State} (h : LedgerInv s) {p : PeerID} {a : Action}
    {e : Event} (hp : p ∈ peers) (he : Emission (s.nodes.get p) p a e) :
    e.parentEventIds ⊆ (s.nodes.get p).clock.keys := by
  obtain ⟨_, _, _, _, _, rfl, hpar, _⟩ := emission_spec he
  exact hpar.trans (Finset.union_subset (h.node p hp).basis_subset_keys
    (h.node p hp).parked_subset_keys)

theorem LedgerInv.emit [FoldOrder] {s : State} (h : LedgerInv s) {p : PeerID} {a : Action}
    {e : Event} (hp : p ∈ peers) (he : Emission (s.nodes.get p) p a e) :
    LedgerInv (s.emit p e) := by
  have hpe : e.peer = p := (emission_hlc he).1
  have hL : (s.emit p e).ledger = insert e s.ledger :=
    ledger_emit (by rw [hpe, h.inbox_keys]; exact hp)
  have hnodes : (s.emit p e).nodes = s.nodes.put p (emitResult (s.nodes.get p) p e) := rfl
  have hclock : (emitResult (s.nodes.get p) p e).hlcClock = e.hlc := rfl
  have hsub : s.ledger ⊆ insert e s.ledger := Finset.subset_insert _ _
  have htick : less (s.nodes.get p).hlcClock e.hlc = true := by
    rw [(emission_hlc he).2]
    exact less_tick _ _ _
  constructor
  case nodes_keys =>
    rw [hnodes, Map.keys_put, h.nodes_keys]
    exact Finset.insert_eq_of_mem hp
  case inbox_keys =>
    simp only [State.emit, disseminateToConnected, Map.keys_mapBy]
    exact h.inbox_keys
  case shape =>
    rw [hL]
    intro x hx
    rcases Finset.mem_insert.mp hx with rfl | hx
    · exact shape_of_emission he hp
    · exact h.shape x hx
  case authored =>
    rw [hL, hnodes]
    intro x hx
    rw [Map.get_put]
    rcases Finset.mem_insert.mp hx with rfl | hx
    · rw [if_pos hpe, hclock]
      exact less_self _
    · split
      · rename_i hxp
        rw [hclock]
        exact not_less_of_less ((h.less_emission he).1 x hx hxp)
      · exact h.authored x hx
  case unique =>
    rw [hL]
    intro x hx y hy hxy
    rcases Finset.mem_insert.mp hx with hxe | hxL
    · rcases Finset.mem_insert.mp hy with hye | hyL
      · rw [hxe, hye]
      · exact absurd (hxy.symm.trans (hxe ▸ rfl)) (h.emission_fresh hp he hyL)
    · rcases Finset.mem_insert.mp hy with hye | hyL
      · exact absurd (hxy.trans (hye ▸ rfl)) (h.emission_fresh hp he hxL)
      · exact h.unique x hxL y hyL hxy
  case older =>
    rw [hL]
    intro x hx pid hpid
    rcases Finset.mem_insert.mp hx with rfl | hx
    · have hkey := h.emission_parents hp he hpid
      obtain ⟨hmem, hid⟩ := (h.node p hp).get_mem hkey
      exact ⟨_, hsub hmem, hid, (h.less_emission he).2 hp pid hkey⟩
    · obtain ⟨y, hy, hid, hlt⟩ := h.older x hx pid hpid
      exact ⟨y, hsub hy, hid, hlt⟩
  case node =>
    rw [hL, hnodes]
    intro q hq
    rw [Map.get_put]
    split
    · exact ((h.node p hp).mono hsub).addToClock (Finset.mem_insert_self _ _)
        (not_less_of_less htick) (less_self _)
    · exact (h.node q hq).mono hsub

/-! ## The invariant -/

theorem ledger_heartbeat {s : State} (h : LedgerInv s) {p q : PeerID} (hp : p ∈ peers)
    (hq : q ∈ peers) : (s.heartbeat p q).ledger = s.ledger ∧
      (s.heartbeat p q).inbox.keys = peers := by
  have hinbox : (s.heartbeat p q).inbox = s.inbox.put p
      (s.inbox.get p ∪ pulledEvents (s.nodes.get p) (s.nodes.get q) q) := rfl
  have hkeys : (s.heartbeat p q).inbox.keys = s.inbox.keys := by
    rw [hinbox, Map.keys_put]
    exact Finset.insert_eq_of_mem (h.inbox_keys ▸ hp)
  refine ⟨?_, hkeys.trans h.inbox_keys⟩
  ext e
  simp only [State.mem_ledger, hkeys]
  constructor
  · rintro ⟨r, hr, he⟩
    rw [hinbox, Map.get_put] at he
    split at he
    · rename_i hrp
      subst hrp
      rcases Finset.mem_union.mp he with he | he
      · exact ⟨r, hr, he⟩
      · -- a pulled event stands in the remote clock, hence in the ledger
        obtain ⟨id, hid, rfl⟩ := Finset.mem_image.mp he
        have hk := (Finset.mem_filter.mp hid).2.1
        exact (s.mem_ledger _).mp ((h.node q hq).get_mem hk).1
    · exact ⟨r, hr, he⟩
  · rintro ⟨r, hr, he⟩
    refine ⟨r, hr, ?_⟩
    rw [hinbox, Map.get_put]
    split
    · rename_i hrp
      subst hrp
      exact Finset.mem_union_left _ he
    · exact he

theorem ledgerInv_init : LedgerInv init := by
  have hL : init.ledger = ∅ := by decide
  refine ⟨by decide, by decide, by simp [hL], by simp [hL], by simp [hL], by simp [hL], ?_⟩
  intro p hp
  have hget : init.nodes.get p = emptyNodeState p := Map.get_mapBy_of_mem _ hp
  rw [hget]
  refine ⟨?_, ?_, rfl, Finset.empty_subset _, Finset.empty_subset _⟩
  · intro id e he
    simp [emptyNodeState] at he
  · intro id e he
    simp [emptyNodeState] at he

theorem ledgerInv_effect [FoldOrder] {s s' : State} {a : Action} (h : LedgerInv s)
    (heff : Effect s a s') : LedgerInv s' := by
  cases heff with
  | emit p e hp _ he => exact h.emit hp he
  | receive p e hp he =>
    have hmem := h.mem_ledger_of_inbox hp (Finset.mem_filter.mp he).1
    have hobs := less_observe (s.nodes.get p).hlcClock e.hlc (s.nodes.get p).localWall p
    exact h.setNode hp ((h.node p hp).addToClock hmem (not_less_of_less hobs.1)
      (not_less_of_less hobs.2)) (not_less_of_less hobs.1)
  | touch p st hp ht =>
    refine h.setNode hp (clockOk_touch ht (h.node p hp)) ?_
    rw [(touch_frame ht).2.2]
    exact less_self _
  | heartbeat p q hp hq _ _ =>
    obtain ⟨hL, hkeys⟩ := ledger_heartbeat h hp hq
    have hok := h.node p hp
    exact h.update hp rfl hkeys hL ⟨hok.mem, hok.seen, hok.heads, hok.basis, hok.parked⟩
      (less_self _)
  | finalize p hp he =>
    obtain ⟨hok, hhlc⟩ := clockOk_finalize (h.node p hp) he
    refine h.setNode hp hok ?_
    rw [hhlc]
    exact less_self _
  | gc p id hp _ => exact h.setNode hp (clockOk_gc (h.node p hp) p id) (less_self _)
  | sync p q hp hq _ =>
    refine h.setNode hp (clockOk_sync h hp hq) ?_
    rw [syncResult_hlcClock]
    exact less_self _
  | network conn _ =>
    exact ⟨h.nodes_keys, h.inbox_keys, h.shape, h.authored, h.unique, h.older, h.node⟩

theorem ledgerInv_of_reachable {s : State} (h : Reachable Step init s) : LedgerInv s :=
  invariant_of_effect ledgerInv_init
    (fun o _ _ _ hI heff => @ledgerInv_effect o _ _ _ hI heff) h

/-- A step adds the event it emits to the ledger, and nothing else. -/
theorem ledger_effect [FoldOrder] {s s' : State} {a : Action} (h : LedgerInv s)
    (heff : Effect s a s') :
    (∃ p e, p ∈ peers ∧ Emission (s.nodes.get p) p a e ∧ s'.ledger = insert e s.ledger) ∨
      s'.ledger = s.ledger := by
  cases heff with
  | emit p e hp _ he =>
    refine Or.inl ⟨p, e, hp, he, ledger_emit ?_⟩
    rw [(emission_hlc he).1, h.inbox_keys]
    exact hp
  | receive p e _ _ => exact Or.inr rfl
  | touch p st _ _ => exact Or.inr rfl
  | heartbeat p q hp hq _ _ => exact Or.inr (ledger_heartbeat h hp hq).1
  | finalize p _ _ => exact Or.inr rfl
  | gc p id _ _ => exact Or.inr rfl
  | sync p q _ _ _ => exact Or.inr rfl
  | network conn _ => exact Or.inr rfl

theorem ledger_subset_effect [FoldOrder] {s s' : State} {a : Action} (h : LedgerInv s)
    (heff : Effect s a s') : s.ledger ⊆ s'.ledger := by
  rcases ledger_effect h heff with ⟨p, e, _, _, hL⟩ | hL
  · exact hL ▸ Finset.subset_insert _ _
  · exact hL.ge

theorem ledger_subset_of_run {s s' : State} (h : LedgerInv s) {tr : List (State × Action)}
    (hrun : Run Step s tr s') : LedgerInv s' ∧ s.ledger ⊆ s'.ledger := by
  induction hrun with
  | nil => exact ⟨h, Finset.Subset.refl _⟩
  | snoc _ hstep ih =>
    obtain ⟨o, hs⟩ := hstep
    have heff := @effect_of_step o _ _ _ hs
    exact ⟨@ledgerInv_effect o _ _ _ ih.1 heff,
      ih.2.trans (@ledger_subset_effect o _ _ _ ih.1 heff)⟩

theorem emit_of_step [FoldOrder] {s s' : State} {p : PeerID} {a : Action} {e : Event}
    (he : Emission (s.nodes.get p) p a e) (hs : step s a = some s') :
    p ∈ peers ∧ s' = s.emit p e := by
  cases he with
  | write content _ =>
    simp only [step, Option.ite_none_right_eq_some, Option.some.injEq] at hs
    exact ⟨hs.1.1, hs.2.symm⟩
  | resolveConflict parked content _ _ _ =>
    simp only [step, Option.ite_none_right_eq_some, Option.some.injEq] at hs
    exact ⟨hs.1.1, hs.2.symm⟩
  | resolveFinalizedConflict cid content _ _ =>
    simp only [step, Option.ite_none_right_eq_some, Option.some.injEq] at hs
    exact ⟨hs.1.1, hs.2.symm⟩

/-! ## Identity and causal order -/

/-- The timestamp that an event id repeats. -/
def EventID.timestamp (id : EventID) : HLC := ⟨id.wall, id.logical, id.peer⟩

theorem Stamped.timestamp_eq {e : Event} (h : Stamped e) : e.eventId.timestamp = e.hlc := by
  rw [h.id_eq]
  simp only [EventID.timestamp, ← h.hlc_peer]

/-- The event stands in a clock or is on its way to a peer. -/
def State.occurs (s : State) (e : Event) : Prop :=
  ∃ p ∈ peers, e ∈ s.inbox.get p ∨ ∃ id, (s.nodes.get p).clock.lookup id = some e

theorem LedgerInv.mem_ledger_of_occurs {s : State} (h : LedgerInv s) {e : Event}
    (he : s.occurs e) : e ∈ s.ledger := by
  obtain ⟨p, hp, hin | ⟨id, hid⟩⟩ := he
  · exact h.mem_ledger_of_inbox hp hin
  · exact ((h.node p hp).mem id e hid).1

/-- An event is determined by its id wherever it occurs, it is later than the ids it names as
parents, and no hybrid clock is behind an event of its peer. -/
theorem events_identified_and_ordered {s : State} (h : Reachable Step init s) :
    (∀ e e', s.occurs e → s.occurs e' → e.eventId = e'.eventId → e = e') ∧
    (∀ e, s.occurs e → ∀ pid ∈ e.parentEventIds, less pid.timestamp e.hlc = true) ∧
    ∀ p ∈ peers, ∀ id e, (s.nodes.get p).clock.lookup id = some e →
      e.hlc.wall < (s.nodes.get p).hlcClock.wall ∨
      e.hlc.wall = (s.nodes.get p).hlcClock.wall ∧
        e.hlc.logical ≤ (s.nodes.get p).hlcClock.logical := by
  have hinv := ledgerInv_of_reachable h
  refine ⟨fun e e' he he' hid => ?_, fun e he pid hpid => ?_, fun p hp id e he => ?_⟩
  · exact hinv.unique e (hinv.mem_ledger_of_occurs he) e' (hinv.mem_ledger_of_occurs he') hid
  · obtain ⟨parent, hparent, rfl, hlt⟩ :=
      hinv.older e (hinv.mem_ledger_of_occurs he) pid hpid
    rw [(hinv.shape parent hparent).timestamp_eq]
    exact hlt
  · have hseen := (hinv.node p hp).seen id e he
    rw [Bool.eq_false_iff, ne_eq, less_iff] at hseen
    omega

/-- Peer 2 writes on top of what it has received from peer 1. -/
def relayRun : List Action :=
  let first := writtenEvent (emptyNodeState 1) 1 12
  [.write 1 12, .receive 2 first, .chunksReady 2 first.eventId, .write 2 13]

def relayState : State := (runOutcome relayRun).2

theorem relayRun_runs : Run Step init (runOutcome relayRun).1 relayState :=
  run_runOutcome (by decide +kernel)

theorem events_identified_and_ordered_on_relay :
    ((relayState.nodes.get 2).clock.get ⟨2, 1, 3⟩).parentEventIds = {⟨1, 1, 1⟩} ∧
    less (EventID.timestamp ⟨1, 1, 1⟩)
      ((relayState.nodes.get 2).clock.get ⟨2, 1, 3⟩).hlc = true := by
  have hkey : (⟨2, 1, 3⟩ : EventID) ∈ (relayState.nodes.get 2).clock.keys := by decide +kernel
  have hpar : ((relayState.nodes.get 2).clock.get ⟨2, 1, 3⟩).parentEventIds = {⟨1, 1, 1⟩} := by
    decide +kernel
  refine ⟨hpar, (events_identified_and_ordered ⟨_, relayRun_runs⟩).2.1 _
    ⟨2, by decide, Or.inr ⟨_, Map.lookup_of_mem hkey⟩⟩ _ ?_⟩
  rw [hpar]
  exact Finset.mem_singleton_self _

end DoltSwarm.Protocol
