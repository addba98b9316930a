import DoltSwarm.Protocol.Frontier
import DoltSwarm.Protocol.History
import DoltSwarm.Protocol.Readiness
import DoltSwarm.Protocol.Sentinels

/-!
# What one peer knows of another

A recorded frontier is an old frontier of its owner, so coverage computed from it never
overstates what the owner has observed. A heartbeat pulls the missing events of the other
side, and the receive rule admits all of them but those finalized here.
-/

namespace DoltSwarm.Protocol

open Lib

set_option autoImplicit false

/-! ## Closures in two clocks of one ledger -/

theorem ancestorIdClosure_subset_of_closed {M clock clock' : Clock} (h : Map.SubMap clock M)
    (h' : Map.SubMap clock' M) {seed : Finset EventID}
    (hclosed : ancestorIdClosure seed clock' ⊆ clock'.keys) :
    ancestorIdClosure seed clock ⊆ ancestorIdClosure seed clock' := by
  refine unrolledClosure_mono_within fun id hid => ?_
  by_cases hmem : id ∈ clock.keys
  · rw [clockParents_congr (h.lookup_eq h' hmem (hclosed hid))]
  · rw [clockParents, if_neg hmem]
    exact Finset.empty_subset _

theorem clock_subMap_of_visited {tr : List (State × Action)} {s t : State}
    (h : Run Step init tr s) (ht : t ∈ visited tr s) {q : PeerID} (hq : q ∈ peers) :
    Map.SubMap (t.nodes.get q).clock (ledgerClock s.ledger) := by
  obtain ⟨hreach, _, hrest⟩ := h.of_visited ht
  have hinv := ledgerInv_of_reachable hreach
  obtain ⟨hend, hsub⟩ := ledger_subset_of_run hinv hrest
  exact (hinv.clock_subMap hq).trans (UniqueIds.ledgerClock_subMap hinv.unique hend.unique hsub)

/-! ## Recorded frontiers -/

theorem frontier_of_visited {tr : List (State × Action)} {s : State} (h : Run Step init tr s) :
    ∀ p ∈ peers, ∀ q ∈ peers, ∀ id ∈ (s.nodes.get p).peerSeenFrontier.get q,
      ∃ t ∈ visited tr s, id ∈ observedFrontier (t.nodes.get q).clock := by
  have hG : ∀ x ∈ tr, True := fun _ _ => trivial
  refine Run.induct (G := fun _ _ => True) (I := fun tr s => ∀ p ∈ peers, ∀ q ∈ peers,
    ∀ id ∈ (s.nodes.get p).peerSeenFrontier.get q,
      ∃ t ∈ visited tr s, id ∈ observedFrontier (t.nodes.get q).clock) ?_ ?_ h hG
  · intro p hp q hq id hid
    have hget : init.nodes.get p = emptyNodeState p := Map.get_mapBy_of_mem _ hp
    rw [hget] at hid
    simp only [emptyNodeState, Map.get_mapBy_of_mem _ hq] at hid
    simp at hid
  · rintro tr s a s' hr ih - ⟨o, hs⟩ p hp q hq id hid
    have hreach : Reachable Step init s := ⟨tr, hr⟩
    have hsettled := settledInv_of_reachable hreach
    have hsettled' := settledInv_of_reachable (hreach.tail ⟨o, hs⟩)
    rcases @frontier_effect o s s' a (@effect_of_step o _ _ _ hs) p q with heq | heq | ⟨rfl, _⟩
    · obtain ⟨t, ht, hobs⟩ := ih p hp q hq id (heq ▸ hid)
      exact ⟨t, mem_visited_snoc ht a s', hobs⟩
    · -- copied from its owner, who had just derived it from the own clock
      rw [heq, (hsettled.settled q hq).frontier] at hid
      exact ⟨s, mem_visited_snoc List.mem_cons_self a s', hid⟩
    · rw [(hsettled'.settled p hp).frontier] at hid
      exact ⟨s', List.mem_cons_self, hid⟩

theorem covered_was_held {tr : List (State × Action)} {s : State} (h : Run Step init tr s)
    {p q : PeerID} (hp : p ∈ peers) (hq : q ∈ peers) {id : EventID}
    (hcov : frontierCovers (s.nodes.get p).clock ((s.nodes.get p).peerSeenFrontier.get q) id) :
    ∃ t ∈ visited tr s, id ∈ (t.nodes.get q).clock.keys := by
  obtain ⟨fid, hfid, _, hclosure⟩ := hcov
  obtain ⟨t, ht, hobs⟩ := frontier_of_visited h p hp q hq fid hfid
  have hclosed : isParentClosed (t.nodes.get q).clock fid :=
    (Finset.mem_filter.mp (Finset.mem_filter.mp hobs).1).2
  have hpart := clock_subMap_of_visited h List.mem_cons_self hp
  have hpart' := clock_subMap_of_visited h ht hq
  exact ⟨t, ht, hclosed.2 (ancestorIdClosure_subset_of_closed hpart hpart' hclosed.2 hclosure)⟩

theorem covered_of_finalize [FoldOrder] {st : NodeState} (he : finalizeEnabled st) {id : EventID}
    (hnew : id ∈ (finalizeResult st).finalizedEvents.keys)
    (hold : id ∉ st.finalizedEvents.keys) :
    id ∈ st.clock.keys ∧ coveredByActivePeers st id := by
  rw [(finalizeResult_finalizedEvents st he).2, Map.keys_put] at hnew
  obtain rfl : id = nextFinalizationEventID st :=
    (Finset.mem_insert.mp hnew).resolve_right hold
  have hcand := finalizationEligible_subset _ st (nextFinalizationEventID_mem st he.1)
  exact ⟨(Finset.mem_filter.mp hcand).1, (Finset.mem_filter.mp hcand).2.2.2.2.2⟩

/-- Coverage never overstates what a peer has observed; in particular every active peer has
held an event before it is finalized. -/
theorem finalized_event_was_witnessed {tr : List (State × Action)} {s : State}
    (h : Run Step init tr s) {p q : PeerID} (hp : p ∈ peers) (hq : q ∈ peers) :
    (∀ id, frontierCovers (s.nodes.get p).clock ((s.nodes.get p).peerSeenFrontier.get q) id →
      ∃ t ∈ visited tr s, id ∈ (t.nodes.get q).clock.keys) ∧
    ∀ s' id, Step s (.finalize p) s' → id ∈ (s'.nodes.get p).finalizedEvents.keys →
      id ∉ (s.nodes.get p).finalizedEvents.keys → q ∈ (s.nodes.get p).activePeers →
      ∃ e, (s.nodes.get p).clock.lookup id = some e ∧
        ∃ t ∈ visited tr s, (t.nodes.get q).clock.lookup id = some e := by
  refine ⟨fun id hcov => covered_was_held h hp hq hcov, ?_⟩
  rintro s' id ⟨o, hs⟩ hnew hold hactive
  simp only [step, Option.ite_none_right_eq_some, Option.some.injEq] at hs
  obtain ⟨⟨_, he⟩, rfl⟩ := hs
  rw [State.setNode, Map.get_put_self] at hnew
  obtain ⟨hkey, hcov⟩ := covered_of_finalize he hnew hold
  obtain ⟨t, ht, hheld⟩ := covered_was_held h hp hq (hcov q hactive)
  obtain ⟨e, hlook⟩ := (Map.mem_keys_iff _ _).mp hkey
  refine ⟨e, hlook, t, ht, ?_⟩
  rw [← hlook]
  exact (clock_subMap_of_visited h ht hq).lookup_eq
    (clock_subMap_of_visited h List.mem_cons_self hp) hheld hkey

/-- Peer 2 finalizes the first write of the fork, which peer 3 has received late. -/
theorem finalized_event_was_witnessed_on_fork :
    (⟨1, 1, 1⟩ : EventID) ∈ (forkState.nodes.get 2).finalizedEvents.keys ∧
    ∃ t ∈ visited (runOutcome forkRun.dropLast).1 (runOutcome forkRun.dropLast).2,
      (⟨1, 1, 1⟩ : EventID) ∈ (t.nodes.get 3).clock.keys := by
  have hrun : Run Step init (runOutcome forkRun.dropLast).1 (runOutcome forkRun.dropLast).2 :=
    run_runOutcome (by decide +kernel)
  have hstep : Step (runOutcome forkRun.dropLast).2 (.finalize 2) forkState :=
    ⟨ascendingFolds, by decide +kernel⟩
  have hnew : (⟨1, 1, 1⟩ : EventID) ∈ (forkState.nodes.get 2).finalizedEvents.keys := by
    decide +kernel
  obtain ⟨_, _, t, ht, hlook⟩ := (finalized_event_was_witnessed hrun (p := 2) (q := 3) (by decide)
    (by decide)).2 _ _ hstep hnew (by decide +kernel) (by decide +kernel)
  exact ⟨hnew, t, ht, Map.mem_keys_of_lookup hlook⟩

/-! ## Catching up by heartbeat -/

/-- What receives at one peer change there. -/
structure Received (p : PeerID) (s s' : State) : Prop where
  inbox : s'.inbox = s.inbox
  finalized : (s'.nodes.get p).finalizedEvents = (s.nodes.get p).finalizedEvents
  clock : Map.SubMap (s.nodes.get p).clock (s'.nodes.get p).clock
  unfinalized : ∀ id ∈ (s'.nodes.get p).clock.keys,
    id ∈ (s.nodes.get p).clock.keys ∨ id ∉ (s.nodes.get p).finalizedEvents.keys

theorem received_step {s s' : State} {p : PeerID} {e : Event} (hs : Step s (.receive p e) s') :
    Received p s s' := by
  obtain ⟨o, hs⟩ := hs
  simp only [step, Option.ite_none_right_eq_some, Option.some.injEq] at hs
  obtain ⟨⟨_, he⟩, rfl⟩ := hs
  obtain ⟨_, _, hnew, hfin⟩ := Finset.mem_filter.mp he
  have hnode : (s.setNode p (receiveResult (s.nodes.get p) p e)).nodes.get p =
      receiveResult (s.nodes.get p) p e := Map.get_put_self _ _ _
  refine ⟨rfl, ?_, ?_, ?_⟩ <;> rw [hnode]
  · rfl
  · intro id x hx
    have hne : id ≠ e.eventId := by
      rintro rfl
      exact hnew (Map.mem_keys_of_lookup hx)
    exact (Map.lookup_put_of_ne _ _ hne).trans hx
  · intro id hid
    rcases Finset.mem_insert.mp ((Map.keys_put _ _ _).le hid) with rfl | hid
    · exact Or.inr hfin
    · exact Or.inl hid

theorem Received.trans {p : PeerID} {s s' s'' : State} (h : Received p s s')
    (h' : Received p s' s'') : Received p s s'' where
  inbox := h'.inbox.trans h.inbox
  finalized := h'.finalized.trans h.finalized
  clock := h.clock.trans h'.clock
  unfinalized := by
    intro id hid
    rcases h'.unfinalized id hid with hid | hid
    · exact h.unfinalized id hid
    · exact Or.inr (h.finalized ▸ hid)

def receivesAt (p : PeerID) (tr : List (State × Action)) : Prop :=
  ∀ x ∈ tr, ∃ e, x.2 = .receive p e

theorem received_of_run {p : PeerID} {s s' : State} {tr : List (State × Action)}
    (h : Run Step s tr s') (hrec : receivesAt p tr) : Received p s s' := by
  refine Run.induct (I := fun _ s' => Received p s s')
    (G := fun _ a => ∃ e, a = Action.receive p e)
    ⟨rfl, rfl, Map.SubMap.refl _, fun _ hid => Or.inl hid⟩ ?_ h hrec
  rintro tr u _ u' _ ih ⟨e, rfl⟩ hs
  exact ih.trans (received_step hs)

theorem exists_drained {p : PeerID} (hp : p ∈ peers) (events : Finset Event) (s : State) :
    ∃ tr s', Run Step s tr s' ∧ receivesAt p tr ∧
      Disjoint events (processable (s'.nodes.get p) (s'.inbox.get p)) := by
  -- by the number of events that can still be received
  induction hn : (events ∩ processable (s.nodes.get p) (s.inbox.get p)).card using
    Nat.strong_induction_on generalizing s with
  | _ n ih =>
    by_cases hdone : events ∩ processable (s.nodes.get p) (s.inbox.get p) = ∅
    · exact ⟨[], s, .nil, by simp [receivesAt], Finset.disjoint_iff_inter_eq_empty.mpr hdone⟩
    · obtain ⟨e, he⟩ := Finset.nonempty_iff_ne_empty.mpr hdone
      obtain ⟨hevents, hproc⟩ := Finset.mem_inter.mp he
      let s₁ := s.setNode p (@receiveResult ascendingFolds (s.nodes.get p) p e)
      have hstep : Step s (.receive p e) s₁ := by
        refine ⟨ascendingFolds, ?_⟩
        simp only [step]
        rw [if_pos ⟨hp, hproc⟩]
      have hrec := received_step hstep
      have hheld : e.eventId ∈ (s₁.nodes.get p).clock.keys := by
        have hnode : s₁.nodes.get p = @receiveResult ascendingFolds (s.nodes.get p) p e :=
          Map.get_put_self _ _ _
        rw [hnode]
        exact (Map.keys_put _ _ _).ge (Finset.mem_insert_self _ _)
      have hfewer : events ∩ processable (s₁.nodes.get p) (s₁.inbox.get p) ⊂
          events ∩ processable (s.nodes.get p) (s.inbox.get p) := by
        refine Finset.ssubset_iff_of_subset ?_ |>.mpr ⟨e, he, fun hmem => ?_⟩
        · refine Finset.inter_subset_inter_left fun x hx => ?_
          obtain ⟨hin, hvalid, hnew, hfin⟩ := Finset.mem_filter.mp hx
          rw [hrec.inbox] at hin
          rw [hrec.finalized] at hfin
          exact Finset.mem_filter.mpr ⟨hin, hvalid, fun h => hnew (hrec.clock.keys_subset h), hfin⟩
        · exact (Finset.mem_filter.mp (Finset.mem_inter.mp hmem).2).2.2.1 hheld
      obtain ⟨tr, s', hrun, htr, hdrained⟩ := ih _ (hn ▸ Finset.card_lt_card hfewer) s₁ rfl
      refine ⟨_, s', (Run.nil.snoc hstep).append hrun, ?_, hdrained⟩
      intro x hx
      rcases List.mem_append.mp hx with hx | hx
      · exact htr x hx
      · rw [List.mem_singleton.mp hx]
        exact ⟨e, rfl⟩

/-- A heartbeat from `q` at `p`, then receives at `p` until none of what it pulled is left. -/
def CaughtUp (s : State) (p q : PeerID) (s' : State) : Prop :=
  ∃ s₁ tr, Step s (.heartbeat p q) s₁ ∧ Run Step s₁ tr s' ∧ receivesAt p tr ∧
    Disjoint (pulledEvents (s.nodes.get p) (s.nodes.get q) q)
      (processable (s'.nodes.get p) (s'.inbox.get p))

theorem CaughtUp.run {s s' : State} {p q : PeerID} (h : CaughtUp s p q s') :
    ∃ tr, Run Step s tr s' := by
  obtain ⟨s₁, tr, hbeat, hrun, _, _⟩ := h
  exact ⟨_, (Run.nil.snoc hbeat).append hrun⟩

theorem exists_caughtUp {s : State} {p q : PeerID} (hp : p ∈ peers) (hq : q ∈ peers)
    (hne : p ≠ q) (hconn : (p, q) ∈ s.connected) : ∃ s', CaughtUp s p q s' := by
  obtain ⟨tr, s', hrun, hrec, hdrained⟩ := exists_drained hp
    (pulledEvents (s.nodes.get p) (s.nodes.get q) q) (s.heartbeat p q)
  exact ⟨s', _, tr, ⟨ascendingFolds, if_pos ⟨hp, hq, hne, hconn⟩⟩, hrun, hrec, hdrained⟩

theorem CaughtUp.spec {s s' : State} {p q : PeerID} (hup : CaughtUp s p q s') :
    (s'.nodes.get p).finalizedEvents = (s.nodes.get p).finalizedEvents ∧
    Map.SubMap (s.nodes.get p).clock (s'.nodes.get p).clock ∧
    (∀ id ∈ (s'.nodes.get p).clock.keys,
      id ∈ (s.nodes.get p).clock.keys ∨ id ∉ (s.nodes.get p).finalizedEvents.keys) ∧
    pulledEvents (s.nodes.get p) (s.nodes.get q) q ⊆ s'.inbox.get p := by
  obtain ⟨s₁, tr, ⟨o, hbeat⟩, hrun, hrec, _⟩ := hup
  simp only [step, Option.ite_none_right_eq_some, Option.some.injEq] at hbeat
  obtain ⟨_, rfl⟩ := hbeat
  have hreceived := received_of_run hrun hrec
  have hnode : (s.heartbeat p q).nodes.get p =
      heartbeatResult (s.nodes.get p) (s.nodes.get q) q := Map.get_put_self _ _ _
  obtain ⟨hinbox, hfin, hclock, hunfin⟩ := hreceived
  rw [hnode] at hfin hclock hunfin
  refine ⟨hfin, hclock, hunfin, ?_⟩
  rw [hinbox, State.heartbeat, Map.get_put_self]
  exact Finset.subset_union_right

/-- Of the ancestry of a remote head exactly those events are missing afterwards that were
finalized here and whose bodies are gone. -/
theorem CaughtUp.mem_keys_iff {s s' : State} {p q : PeerID} (hup : CaughtUp s p q s')
    (h : SentinelInv s) (hq : q ∈ peers) {head : EventID}
    (hhead : head ∈ (s.nodes.get q).headEventIds) {x : EventID}
    (hx : x ∈ ancestorIdClosure {head} (s.nodes.get q).clock)
    (hheld : x ∈ (s.nodes.get q).clock.keys) :
    x ∈ (s'.nodes.get p).clock.keys ↔
      (x ∈ (s.nodes.get p).finalizedEvents.keys → x ∈ (s.nodes.get p).clock.keys) := by
  obtain ⟨hfin, hclock, hunfin, hinbox⟩ := hup.spec
  obtain ⟨_, _, _, _, _, hdrained⟩ := hup
  constructor
  · intro hmem hxfin
    exact (hunfin x hmem).resolve_right fun hnot => hnot hxfin
  · intro himp
    by_cases hlocal : x ∈ (s.nodes.get p).clock.keys
    · exact hclock.keys_subset hlocal
    · -- `x` was pulled; nothing but its presence can keep it from being processable
      obtain ⟨hledger, hid⟩ := (h.node q hq).get_mem hheld
      have hpulled : (s.nodes.get q).clock.get x ∈
          pulledEvents (s.nodes.get p) (s.nodes.get q) q := by
        refine Finset.mem_image_of_mem _ (Finset.mem_filter.mpr ⟨?_, hheld, hlocal⟩)
        exact unrolledClosure_mono_seed _ (Finset.singleton_subset_iff.mpr
          (Finset.mem_union_left _ hhead)) hx
      by_contra hmissing
      refine Finset.disjoint_left.mp hdrained hpulled (Finset.mem_filter.mpr
        ⟨hinbox hpulled, h.valid hledger, ?_, ?_⟩)
      · rw [hid]
        exact hmissing
      · rw [hid, hfin]
        exact fun hxfin => hlocal (himp hxfin)

/-- A remote head whose ancestry is complete on the other side becomes parent-closed here by one
heartbeat and enough receives exactly if no ancestor was finalized and collected here before. -/
theorem heartbeat_closes_head_iff {s : State} (h : Reachable Step init s) {p q : PeerID}
    (hp : p ∈ peers) (hq : q ∈ peers) (hne : p ≠ q) (hconn : (p, q) ∈ s.connected)
    {head : EventID} (hhead : head ∈ (s.nodes.get q).headEventIds)
    (hanc : ∀ x, Path (clockParents (s.nodes.get q).clock) head x →
      x ∈ (s.nodes.get q).clock.keys) :
    (∃ s', CaughtUp s p q s') ∧ ∀ s', CaughtUp s p q s' →
      (isParentClosed (s'.nodes.get p).clock head ∨
          head ∈ (s'.nodes.get p).finalizedEvents.keys ↔
        (∀ x ∈ ancestorIdClosure {head} (s.nodes.get q).clock,
          x ∈ (s.nodes.get p).finalizedEvents.keys → x ∈ (s.nodes.get p).clock.keys) ∨
        head ∈ (s.nodes.get p).finalizedEvents.keys) := by
  have hinv := sentinelInv_of_reachable h
  have hheld : ancestorIdClosure {head} (s.nodes.get q).clock ⊆ (s.nodes.get q).clock.keys := by
    intro x hx
    obtain ⟨y, hy, hpath⟩ := path_of_mem_unrolledClosure hx
    rw [Finset.mem_singleton.mp hy] at hpath
    exact hanc x hpath
  have hclosed : isParentClosed (s.nodes.get q).clock head :=
    ⟨hheld (subset_unrolledClosure _ _ (Finset.mem_singleton_self _)), hheld⟩
  refine ⟨exists_caughtUp hp hq hne hconn, fun s' hup => ?_⟩
  obtain ⟨tr, hrun⟩ := hup.run
  obtain ⟨hinv', hledger⟩ := ledger_subset_of_run hinv.toLedgerInv hrun
  have hpart := hinv'.clock_subMap hp
  have hpart' := (hinv.clock_subMap hq).trans
    (UniqueIds.ledgerClock_subMap hinv.unique hinv'.unique hledger)
  have hkeys : isParentClosed (s'.nodes.get p).clock head ↔
      ∀ x ∈ ancestorIdClosure {head} (s.nodes.get q).clock,
        x ∈ (s'.nodes.get p).clock.keys := by
    constructor
    · intro hlocal x hx
      exact hlocal.2 (ancestorIdClosure_subset_of_closed hpart' hpart hlocal.2 hx)
    · intro hall
      exact isParentClosed_of_agree hclosed fun x hx =>
        hpart.lookup_eq hpart' (hall x hx) (hheld hx)
  refine or_congr (hkeys.trans (forall₂_congr fun x hx => ?_)) ?_
  · exact hup.mem_keys_iff hinv hq hhead hx (hheld hx)
  · rw [hup.spec.1]

/-- Peer 1 has finalized and collected a write of peer 3, which then writes on top of it. -/
def collectedAncestorRun : List Action :=
  let first := writtenEvent (emptyNodeState 3) 3 12
  [.write 3 12, .receive 1 first, .chunksReady 1 first.eventId, .receive 2 first,
    .heartbeat 1 2, .heartbeat 1 3, .finalize 1, .gc 1 first.eventId, .write 3 13]

def collectedAncestorState : State := (runOutcome collectedAncestorRun).2

theorem collectedAncestorRun_runs :
    Run Step init (runOutcome collectedAncestorRun).1 collectedAncestorState :=
  run_runOutcome (by decide +kernel)

/-- Peer 3 holds its head with the whole ancestry, peer 1 catches up with it, and the head is
neither parent-closed at peer 1 nor finalized there. -/
theorem heartbeat_leaves_head_open : ∃ s s', Reachable Step init s ∧ (1, 3) ∈ s.connected ∧
    CaughtUp s 1 3 s' ∧ ∃ head ∈ (s.nodes.get 3).headEventIds,
      (∀ x, Path (clockParents (s.nodes.get 3).clock) head x →
        x ∈ (s.nodes.get 3).clock.keys) ∧
      ¬isParentClosed (s'.nodes.get 1).clock head ∧
      head ∉ (s'.nodes.get 1).finalizedEvents.keys := by
  let second := (collectedAncestorState.nodes.get 3).clock.get ⟨3, 1, 2⟩
  let beat := collectedAncestorState.heartbeat 1 3
  have hbeat : Step collectedAncestorState (.heartbeat 1 3) beat :=
    ⟨ascendingFolds, by decide +kernel⟩
  let rest := outcome (@step ascendingFolds) beat [.receive 1 second]
  have hrun : Run Step beat rest.1 rest.2 :=
    run_outcome (fun _ _ _ hs => ⟨ascendingFolds, hs⟩) (by decide +kernel)
  have htr : rest.1 = [(beat, .receive 1 second)] := by decide +kernel
  refine ⟨collectedAncestorState, _, ⟨_, collectedAncestorRun_runs⟩, by decide +kernel,
    ⟨beat, _, hbeat, hrun, ?_, by decide +kernel⟩, ⟨3, 1, 2⟩, by decide +kernel, ?_,
    by decide +kernel, by decide +kernel⟩
  · intro x hx
    rw [htr, List.mem_singleton] at hx
    exact ⟨second, hx ▸ rfl⟩
  · have hheld : fullyHeld (collectedAncestorState.nodes.get 3).clock
        (collectedAncestorState.nodes.get 3).chunksReady ⟨3, 1, 2⟩ := by decide +kernel
    exact fun x hx => (hheld x hx).1

theorem heartbeat_closes_head_iff_on_relay :
    ∃ s', CaughtUp relayState 3 2 s' ∧
      (isParentClosed (s'.nodes.get 3).clock ⟨2, 1, 3⟩ ∨
        ⟨2, 1, 3⟩ ∈ (s'.nodes.get 3).finalizedEvents.keys) := by
  have hheld : fullyHeld (relayState.nodes.get 2).clock
      (relayState.nodes.get 2).chunksReady ⟨2, 1, 3⟩ := by decide +kernel
  have hhead : (⟨2, 1, 3⟩ : EventID) ∈ (relayState.nodes.get 2).headEventIds := by decide +kernel
  obtain ⟨⟨s', hup⟩, hiff⟩ := heartbeat_closes_head_iff ⟨_, relayRun_runs⟩ (p := 3)
    (by decide) (by decide) (by decide) (by decide +kernel) hhead fun x hx => (hheld x hx).1
  exact ⟨s', hup, (hiff s' hup).mpr (Or.inl (by decide +kernel))⟩

end DoltSwarm.Protocol
