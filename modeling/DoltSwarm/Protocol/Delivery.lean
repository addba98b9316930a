import DoltSwarm.Protocol.Readiness

/-!
# The order of delivery does not matter

While a peer only receives events and gets their chunks, readiness grows and heads that gave
way to a child do not come back. The parked heads a projection takes over are then the ones
parked at the start that are still lagging, whatever was projected in between, so the
outcome is a function of what was delivered.
-/

namespace DoltSwarm.Protocol

open Lib

set_option autoImplicit false

/-! ## Actions of one peer -/

/-- The peer whose state an action changes. -/
def actor : Action → Option PeerID
  | .write p _ | .receive p _ | .chunksReady p _ | .reconcile p | .tick p | .heartbeat p _
  | .finalize p | .gc p _ | .evict p _ | .syncFinalized p _ | .resolveConflict p _ _
  | .resolveFinalizedConflict p _ _ => some p
  | .partition _ _ | .heal _ _ => none

def isDelivery : Action → Bool
  | .receive _ _ | .chunksReady _ _ => true
  | _ => false

def actionsAt (p : PeerID) (tr : List (State × Action)) : List Action :=
  (tr.map Prod.snd).filter fun a => actor a = some p

theorem node_of_other_actor [FoldOrder] {s s' : State} {a : Action} (heff : Effect s a s')
    {p : PeerID} (hp : actor a ≠ some p) : s'.nodes.get p = s.nodes.get p := by
  have hput : ∀ q st, actor a = some q → (s.nodes.put q st).get p = s.nodes.get p := by
    intro q st hq
    refine Map.get_put_of_ne _ _ ?_
    rintro rfl
    exact hp hq
  cases heff with
  | emit q e _ _ he => cases he <;> exact hput q _ rfl
  | receive q e _ _ => exact hput q _ rfl
  | touch q st _ ht => cases ht <;> exact hput q _ rfl
  | heartbeat q r _ _ _ _ => exact hput q _ rfl
  | finalize q _ _ => exact hput q _ rfl
  | gc q id _ _ => exact hput q _ rfl
  | sync q r _ _ _ => exact hput q _ rfl
  | network conn _ => rfl

/-! ## Heads and retained parked heads under growth -/

theorem mem_computeHeadEventIDs {clock : Clock} {id : EventID} :
    id ∈ computeHeadEventIDs clock ↔
      id ∈ clock.keys ∧ ∀ x ∈ clock.keys, id ∉ (clock.get x).parentEventIds := by
  simp [computeHeadEventIDs]

theorem head_of_head_put {clock : Clock} {e : Event} (hnew : e.eventId ∉ clock.keys)
    {id : EventID} (hid : id ∈ clock.keys)
    (h : id ∈ computeHeadEventIDs (clock.put e.eventId e)) : id ∈ computeHeadEventIDs clock := by
  refine mem_computeHeadEventIDs.mpr ⟨hid, fun x hx => ?_⟩
  have hne : x ≠ e.eventId := fun heq => hnew (heq ▸ hx)
  have hx' : x ∈ (clock.put e.eventId e).keys := by
    rw [Map.keys_put]
    exact Finset.mem_insert_of_mem hx
  have hnot := (mem_computeHeadEventIDs.mp h).2 x hx'
  rw [Map.get_put_of_ne _ _ hne] at hnot
  exact hnot

/-- The heads parked in `parked₀` that a state has neither lost as heads nor got ready. -/
def laggingOf (parked₀ : Finset EventID) (st : NodeState) : Finset EventID :=
  parked₀ ∩ (tentativeHeadEventIDs st \ mergeableHeadEventIDs st)

/-- If old heads come from old heads and ready ones stay ready, the parked heads taken over are
still those of the start. -/
theorem retained_of_growth {parked₀ : Finset EventID} (st : NodeState) {st' : NodeState}
    (hparked : st'.parkedConflicts = st.parkedConflicts)
    (hret : retainedUnreadyParked st = laggingOf parked₀ st)
    (hkeys₀ : parked₀ ⊆ st.clock.keys) (hkeys : st.parkedConflicts ⊆ st.clock.keys)
    (hheads : ∀ x ∈ st.clock.keys, x ∈ tentativeHeadEventIDs st' → x ∈ tentativeHeadEventIDs st)
    (hready : ∀ x ∈ mergeableHeadEventIDs st, x ∈ tentativeHeadEventIDs st' →
      x ∈ mergeableHeadEventIDs st') :
    retainedUnreadyParked st' = laggingOf parked₀ st' := by
  ext x
  simp only [retainedUnreadyParked, laggingOf, hparked, Finset.mem_inter]
  refine and_congr_left fun hlag => ?_
  obtain ⟨htent, hnot⟩ := Finset.mem_sdiff.mp hlag
  by_cases hx : x ∈ st.clock.keys
  · have hlag' : x ∈ tentativeHeadEventIDs st \ mergeableHeadEventIDs st :=
      Finset.mem_sdiff.mpr ⟨hheads x hx htent, fun hr => hnot (hready x hr htent)⟩
    have hiff := Finset.ext_iff.mp hret x
    simp only [retainedUnreadyParked, laggingOf, Finset.mem_inter, hlag', and_true] at hiff
    exact hiff
  · exact iff_of_false (fun h => hx (hkeys h)) fun h => hx (hkeys₀ h)

/-! ## Deliveries -/

/-- The state of `p` after the deliveries `l`, described by what was delivered. -/
structure Delivered (p : PeerID) (st₀ : NodeState) (l : List Action) (st : NodeState) : Prop where
  clock : ∀ id e, st.clock.lookup id = some e ↔
    st₀.clock.lookup id = some e ∨ e.eventId = id ∧ Action.receive p e ∈ l
  ready : ∀ id, id ∈ st.chunksReady ↔ id ∈ st₀.chunksReady ∨ Action.chunksReady p id ∈ l
  root : st.finalizedProllyRootHash = st₀.finalizedProllyRootHash
  events : st.finalizedEvents = st₀.finalizedEvents
  heads : st.headEventIds = computeHeadEventIDs st.clock
  keyed : Keyed st.clock
  settled : Settled p st
  retained : retainedUnreadyParked st = laggingOf st₀.parkedConflicts st

namespace Delivered

variable {p : PeerID} {st₀ st : NodeState} {l : List Action}

theorem keys_subset (h : Delivered p st₀ l st) : st₀.clock.keys ⊆ st.clock.keys :=
  fun _ hid => Map.mem_keys_of_lookup ((h.clock _ _).mpr (Or.inl (Map.lookup_of_mem hid)))

theorem parked_subset (h : Delivered p st₀ l st) : st.parkedConflicts ⊆ st.clock.keys :=
  h.settled.parked_subset.trans (Finset.sdiff_subset.trans
    (h.heads ▸ computeHeadEventIDs_subset _))

theorem receive [FoldOrder] (h : Delivered p st₀ l st) (h₀ : st₀.parkedConflicts ⊆ st₀.clock.keys)
    {e : Event} (hvalid : validEvent e) (hnew : e.eventId ∉ st.clock.keys) :
    Delivered p st₀ (.receive p e :: l) (receiveResult st p e) where
  clock := by
    intro id x
    have hold : st.clock.lookup id = some x → id ≠ e.eventId := by
      rintro hx rfl
      exact hnew (Map.mem_keys_of_lookup hx)
    change (st.clock.put e.eventId e).lookup id = some x ↔ _
    by_cases hid : id = e.eventId
    · have hnone : ¬(st₀.clock.lookup id = some x ∨ x.eventId = id ∧ Action.receive p x ∈ l) :=
        fun hx => hold ((h.clock id x).mpr hx) hid
      rw [not_or, not_and] at hnone
      rw [hid, Map.lookup_put_self, Option.some.injEq, ← hid]
      constructor
      · rintro rfl
        exact Or.inr ⟨hid.symm, List.mem_cons_self⟩
      · rintro (hx | ⟨hx, hmem⟩)
        · exact absurd hx hnone.1
        · rcases List.mem_cons.mp hmem with heq | hmem
          · simp only [Action.receive.injEq, true_and] at heq
            exact heq.symm
          · exact absurd hmem (hnone.2 hx)
    · rw [Map.lookup_put_of_ne _ _ hid, h.clock]
      refine or_congr Iff.rfl (and_congr_right fun hx => ?_)
      simp only [List.mem_cons, Action.receive.injEq, true_and]
      refine ⟨Or.inr, fun hor => hor.resolve_left ?_⟩
      rintro rfl
      exact hid hx.symm
  ready := by
    intro id
    simp only [List.mem_cons, reduceCtorEq, false_or]
    exact h.ready id
  root := h.root
  events := h.events
  heads := rfl
  keyed := h.keyed.put hvalid
  settled := settled_reconcile (h.keyed.put hvalid) rfl (Map.get_put_self _ _ _)
  retained := by
    rw [receiveResult, retained_reconcile]
    refine retained_of_growth st rfl h.retained (h₀.trans h.keys_subset) h.parked_subset ?_ ?_
    · intro x hx htent
      obtain ⟨hhead, hfin⟩ := Finset.mem_sdiff.mp htent
      rw [tentativeHeadEventIDs, h.heads]
      exact Finset.mem_sdiff.mpr ⟨head_of_head_put hnew hx hhead, hfin⟩
    · intro x hx htent
      obtain ⟨_, hclosed, hready⟩ := Finset.mem_filter.mp hx
      exact Finset.mem_filter.mpr ⟨htent, isParentClosed_put hclosed hnew, hready⟩

theorem chunksReady [FoldOrder] (h : Delivered p st₀ l st)
    (h₀ : st₀.parkedConflicts ⊆ st₀.clock.keys) (id : EventID) :
    Delivered p st₀ (.chunksReady p id :: l) (chunksReadyResult st id) where
  clock := by
    intro x e
    simp only [List.mem_cons, reduceCtorEq, false_or]
    exact h.clock x e
  ready := by
    intro x
    change x ∈ st.chunksReady ∪ {id} ↔ _
    simp only [Finset.mem_union, Finset.mem_singleton, h.ready x, List.mem_cons,
      Action.chunksReady.injEq, true_and]
    rw [or_assoc, or_comm (a := _ ∈ l)]
  root := h.root
  events := h.events
  heads := h.heads
  keyed := h.keyed
  settled := settled_reconcile h.keyed h.heads h.settled.frontier
  retained := by
    rw [chunksReadyResult, retained_reconcile]
    refine retained_of_growth st rfl h.retained (h₀.trans h.keys_subset) h.parked_subset
      (fun _ _ htent => htent) fun x hx htent => ?_
    obtain ⟨_, hclosed, hready⟩ := Finset.mem_filter.mp hx
    exact Finset.mem_filter.mpr ⟨htent, hclosed, Finset.mem_union_left _ hready⟩

theorem same_inputs {l' : List Action} {st' : NodeState} (h : Delivered p st₀ l st)
    (h' : Delivered p st₀ l' st') (hperm : l.Perm l') :
    sameTentativeProjectionInputs st st' := by
  refine ⟨Map.ext fun id => Option.ext fun e => ?_, Finset.ext fun id => ?_,
    h.root.trans h'.root.symm, h.events.trans h'.events.symm⟩
  · rw [h.clock, h'.clock, hperm.mem_iff]
  · rw [h.ready, h'.ready, hperm.mem_iff]

end Delivered

theorem delivered_of_run {s t t' : State} (h : SettledInv s) {p : PeerID} (hp : p ∈ peers)
    (ht : t.nodes.get p = s.nodes.get p) {tr : List (State × Action)} (hrun : Run Step t tr t')
    (hd : ∀ a ∈ actionsAt p tr, isDelivery a = true) :
    Delivered p (s.nodes.get p) (actionsAt p tr) (t'.nodes.get p) := by
  have h₀ := (h.node p hp).parked_subset_keys
  induction hrun with
  | nil =>
    rw [ht]
    exact ⟨by simp [actionsAt], by simp [actionsAt], rfl, rfl, (h.node p hp).heads, h.keyed hp,
      h.settled p hp, rfl⟩
  | @snoc tr u a u' _ hstep ih =>
    obtain ⟨o, hs⟩ := hstep
    have heff := @effect_of_step o u u' a hs
    by_cases ha : actor a = some p
    · have hcons : actionsAt p ((u, a) :: tr) = a :: actionsAt p tr := by
        simp [actionsAt, ha]
      rw [hcons] at hd ⊢
      simp only [List.mem_cons, forall_eq_or_imp] at hd
      have hu := ih hd.2
      cases a <;> simp only [isDelivery, Bool.false_eq_true, false_and] at hd
      case receive q e =>
        obtain rfl : q = p := Option.some.inj ha
        simp only [step, Option.ite_none_right_eq_some, Option.some.injEq] at hs
        obtain ⟨⟨_, he⟩, rfl⟩ := hs
        obtain ⟨_, hvalid, hnew, _⟩ := Finset.mem_filter.mp he
        simp only [State.setNode, Map.get_put_self]
        exact hu.receive h₀ hvalid hnew
      case chunksReady q id =>
        obtain rfl : q = p := Option.some.inj ha
        simp only [step, Option.ite_none_right_eq_some, Option.some.injEq] at hs
        obtain ⟨_, rfl⟩ := hs
        simp only [State.setNode, Map.get_put_self]
        exact hu.chunksReady h₀ id
    · have hskip : actionsAt p ((u, a) :: tr) = actionsAt p tr := by simp [actionsAt, ha]
      rw [hskip] at hd ⊢
      rw [@node_of_other_actor o _ _ _ heff _ ha]
      exact ih hd

/-- From a reachable state of a peer, with any events in its inbox, two runs in which the peer
makes the same deliveries in different orders leave it with the same clock, heads, chunks and
own frontier, and with the same projection if some head is ready or none is left. -/
theorem delivery_order_is_irrelevant {s : State} (h : Reachable Step init s) {p : PeerID}
    (hp : p ∈ peers) {t t₁ t₂ : State} (ht : t.nodes.get p = s.nodes.get p)
    {tr₁ tr₂ : List (State × Action)} (h₁ : Run Step t tr₁ t₁) (h₂ : Run Step t tr₂ t₂)
    (hd : ∀ a ∈ actionsAt p tr₁, isDelivery a = true)
    (hperm : (actionsAt p tr₁).Perm (actionsAt p tr₂)) :
    let st₁ := t₁.nodes.get p
    let st₂ := t₂.nodes.get p
    st₁.clock = st₂.clock ∧ st₁.headEventIds = st₂.headEventIds ∧
    st₁.chunksReady = st₂.chunksReady ∧
    st₁.peerSeenFrontier.get p = st₂.peerSeenFrontier.get p ∧
    (tentativeHeadEventIDs st₁ = ∅ ∨ mergeableHeadEventIDs st₁ ≠ ∅ →
      st₁.tentativeProllyRootHash = st₂.tentativeProllyRootHash ∧
      st₁.parkedConflicts = st₂.parkedConflicts ∧ st₁.projectionBasis = st₂.projectionBasis) := by
  intro st₁ st₂
  have hinv := settledInv_of_reachable h
  have hst₁ := delivered_of_run hinv hp ht h₁ hd
  have hst₂ := delivered_of_run hinv hp ht h₂ fun a ha => hd a (hperm.mem_iff.mpr ha)
  have hin := hst₁.same_inputs hst₂ hperm
  have hheads : st₁.headEventIds = st₂.headEventIds := by
    rw [hst₁.heads, hst₂.heads, hin.1]
  have hfrontier : st₁.peerSeenFrontier.get p = st₂.peerSeenFrontier.get p := by
    rw [hst₁.settled.frontier, hst₂.settled.frontier, hin.1]
  refine ⟨hin.1, hheads, hin.2.1, hfrontier, fun hlive => ?_⟩
  have hret : retainedUnreadyParked st₁ = retainedUnreadyParked st₂ := by
    rw [hst₁.retained, hst₂.retained]
    simp only [laggingOf, mergeableHeadEventIDs, tentativeHeadEventIDs]
    rw [hheads, hin.1, hin.2.1, hin.2.2.2]
  have heq := @projection_congr ascendingFolds _ _ hin hheads hret hlive
  rw [hst₁.settled.projected ascendingFolds, hst₂.settled.projected ascendingFolds] at heq
  simp only [Prod.mk.injEq] at heq
  exact heq

/-- Two conflicting writes on their way to peer 3. -/
def concurrentWrites : State := (runOutcome [.write 1 11, .write 2 14]).2

def olderFirst : List Action :=
  [.receive 3 (writtenEvent (emptyNodeState 1) 1 11), .chunksReady 3 ⟨1, 1, 1⟩,
    .receive 3 (writtenEvent (emptyNodeState 2) 2 14), .chunksReady 3 ⟨2, 1, 1⟩]

def newerFirst : List Action :=
  [.receive 3 (writtenEvent (emptyNodeState 2) 2 14),
    .receive 3 (writtenEvent (emptyNodeState 1) 1 11), .chunksReady 3 ⟨2, 1, 1⟩,
    .chunksReady 3 ⟨1, 1, 1⟩]

theorem delivery_order_is_irrelevant_on_concurrent :
    ((outcome (@step ascendingFolds) concurrentWrites olderFirst).2.nodes.get 3).parkedConflicts =
      {⟨2, 1, 1⟩} ∧
    ((outcome (@step ascendingFolds) concurrentWrites olderFirst).2.nodes.get 3).parkedConflicts =
      ((outcome (@step ascendingFolds) concurrentWrites newerFirst).2.nodes.get
        3).parkedConflicts := by
  have hstart : Run Step init (runOutcome [.write 1 11, .write 2 14]).1 concurrentWrites :=
    run_runOutcome (by decide +kernel)
  have hstep : ∀ s a s', @step ascendingFolds s a = some s' → Step s a s' :=
    fun _ _ _ hs => ⟨ascendingFolds, hs⟩
  have h₁ : Run Step concurrentWrites
      (outcome (@step ascendingFolds) concurrentWrites olderFirst).1
      (outcome (@step ascendingFolds) concurrentWrites olderFirst).2 :=
    run_outcome hstep (by decide +kernel)
  have h₂ : Run Step concurrentWrites
      (outcome (@step ascendingFolds) concurrentWrites newerFirst).1
      (outcome (@step ascendingFolds) concurrentWrites newerFirst).2 :=
    run_outcome hstep (by decide +kernel)
  have h := delivery_order_is_irrelevant ⟨_, hstart⟩ (p := 3) (by decide) rfl h₁ h₂
    (by decide +kernel) (by decide +kernel)
  exact ⟨by decide +kernel, (h.2.2.2.2 (Or.inr (by decide +kernel))).2.1⟩

end DoltSwarm.Protocol
