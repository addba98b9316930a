import DoltSwarm.Protocol.Frontier
import DoltSwarm.Protocol.History
import DoltSwarm.Protocol.Replay
import DoltSwarm.Protocol.Subsumption

/-!
# One finalized history for the whole swarm

When peers finalize in the order of the hybrid clocks, and no resolution reaches back into
what is finalized, all of them record one history. Without that the tips can fork although
no link ever fails.
-/

namespace DoltSwarm.Protocol

open Lib

set_option autoImplicit false

/-! ## The schedule -/

def undisturbed : Action → Prop
  | .partition _ _ | .evict _ _ => False
  | _ => True

instance (a : Action) : Decidable (undisturbed a) :=
  match a with
  | .partition _ _ | .evict _ _ => instDecidableFalse
  | .write _ _ | .receive _ _ | .chunksReady _ _ | .reconcile _ | .tick _ | .heartbeat _ _
  | .finalize _ | .gc _ _ | .heal _ _ | .syncFinalized _ _ | .resolveConflict _ _ _
  | .resolveFinalizedConflict _ _ _ => instDecidableTrue

/-- `e` is the oldest event of the swarm that `p` has not finalized. It is eligible at `p`, and
if a resolution anywhere subsumes it, the clock of `p` shows that. -/
def oldestIsEligible (s : State) (p : PeerID) (e : Event) : Prop :=
  e.eventId ∈ @finalizationEligible ascendingFolds (s.nodes.get p) ∧
  (∀ x ∈ s.ledger, x.eventId ∉ (s.nodes.get p).finalizedEvents.keys →
    x = e ∨ less e.hlc x.hlc = true) ∧
  (e.eventId ∈ branchEvents s.ledger (resolvedHeads s.ledger) →
    e.eventId ∈ subsumedEvents (s.nodes.get p).clock)

instance (s : State) (p : PeerID) (e : Event) : Decidable (oldestIsEligible s p e) :=
  inferInstanceAs (Decidable (_ ∧ _))

/-- A peer finalizes the oldest event left, a resolution subsumes nothing that is finalized
anywhere, and finalized state is exchanged while the ancestor walk covers both lineages. -/
def inHlcOrder (s : State) : Action → Prop
  | .finalize p => ∃ e ∈ s.ledger, oldestIsEligible s p e
  | .resolveConflict _ parked _ =>
    ∀ q ∈ peers, ∀ id ∈ (s.nodes.get q).finalizedEvents.keys,
      id ∈ branchEvents s.ledger (insert parked (resolvedHeads s.ledger)) →
      id ∈ branchEvents s.ledger (resolvedHeads s.ledger)
  | .syncFinalized p q =>
    ((s.nodes.get p).finalizedCommitParents.keys ∪
      (s.nodes.get q).finalizedCommitParents.keys).card ≤ maxEvents + 4
  | _ => True

instance (s : State) (a : Action) : Decidable (inHlcOrder s a) :=
  match a with
  | .finalize _ => inferInstanceAs (Decidable (∃ e ∈ _, _))
  | .resolveConflict _ _ _ => inferInstanceAs (Decidable (∀ q ∈ _, _))
  | .syncFinalized _ _ => inferInstanceAs (Decidable (_ ≤ _))
  | .write _ _ | .receive _ _ | .chunksReady _ _ | .reconcile _ | .tick _ | .heartbeat _ _
  | .gc _ _ | .partition _ _ | .heal _ _ | .evict _ _
  | .resolveFinalizedConflict _ _ _ => instDecidableTrue

/-! ## The history of a state -/

/-- `H` is the oldest part of the ledger, and every hybrid clock is past it. -/
structure Chronicle (s : State) (H : List Entry) : Prop where
  recorded : Recorded s.ledger H
  oldest : ∀ e ∈ s.ledger, (∀ x ∈ H, x.event ≠ e) → ∀ x ∈ H, less x.event.hlc e.hlc = true
  booked : ∀ x ∈ H, x.booked = true ↔
    x.event.eventId ∈ branchEvents s.ledger (resolvedHeads s.ledger)
  passed : ∀ x ∈ H, ∀ q ∈ peers, less (s.nodes.get q).hlcClock x.event.hlc = false

/-- The history of the swarm: its entries are finalized somewhere, and each peer follows a part
of it that reaches back to the start. -/
structure HistoryInv (s : State) (H : List Entry) : Prop extends Chronicle s H where
  held : ∀ x ∈ H, ∃ q ∈ peers, x.event.eventId ∈ (s.nodes.get q).finalizedEvents.keys
  follows : ∀ p ∈ peers, ∃ Hp, Hp <:+ H ∧ Follows Hp (s.nodes.get p)

structure CanonicalInv (s : State) : Prop extends ContentInv s, FrontierInv s where
  active : ∀ p ∈ peers, peers ⊆ (s.nodes.get p).activePeers
  history : ∃ H, HistoryInv s H

theorem HistoryInv.keep {s s' : State} {H : List Entry} (h : HistoryInv s H) (hs : LedgerInv s)
    (hs' : LedgerInv s') (hsub : s.ledger ⊆ s'.ledger)
    (hsame : ∀ q, sameFinalizedState (s'.nodes.get q) (s.nodes.get q))
    (hhlc : ∀ q, less (s'.nodes.get q).hlcClock (s.nodes.get q).hlcClock = false)
    (hnew : ∀ e ∈ s'.ledger, e ∉ s.ledger → ∀ x ∈ H, less x.event.hlc e.hlc = true)
    (hbranch : ∀ x ∈ H, x.event.eventId ∈ branchEvents s'.ledger (resolvedHeads s'.ledger) ↔
      x.event.eventId ∈ branchEvents s.ledger (resolvedHeads s.ledger)) :
    HistoryInv s' H where
  recorded := h.recorded.mono hs hs'.unique hsub
  oldest := by
    intro e he hnot
    by_cases hold : e ∈ s.ledger
    · exact h.oldest e hold hnot
    · exact hnew e he hold
  booked := fun x hx => (h.booked x hx).trans (hbranch x hx).symm
  passed := fun x hx q hq => not_less_trans (hhlc q) (h.passed x hx q hq)
  held := by
    intro x hx
    obtain ⟨q, hq, hmem⟩ := h.held x hx
    exact ⟨q, hq, (hsame q).2.2.1 ▸ hmem⟩
  follows := by
    intro p hp
    obtain ⟨Hp, hsuf, hf⟩ := h.follows p hp
    exact ⟨Hp, hsuf, hf.congr (hsame p)⟩

/-! ## Emission -/

/-- A scheduled emission changes no finalized event's standing. -/
theorem branch_emission {s : State} (hs : LedgerInv s) {p : PeerID} {a : Action} {e : Event}
    (hp : p ∈ peers) (he : Emission (s.nodes.get p) p a e) (hG : inHlcOrder s a) {id : EventID}
    (hheld : ∃ q ∈ peers, id ∈ (s.nodes.get q).finalizedEvents.keys) :
    id ∈ branchEvents (insert e s.ledger) (resolvedHeads (insert e s.ledger)) ↔
      id ∈ branchEvents s.ledger (resolvedHeads s.ledger) := by
  have hfresh : ∀ x ∈ s.ledger, x.eventId ≠ e.eventId := fun x hx => hs.emission_fresh hp he hx
  rw [resolvedHeads_insert]
  cases he with
  | write content _ =>
    change id ∈ branchEvents _ (∅ ∪ resolvedHeads s.ledger) ↔ _
    rw [Finset.empty_union, (hs.branchEvents_insert hs.resolvedHeads_subset hfresh).1]
  | resolveFinalizedConflict cid content _ _ =>
    change id ∈ branchEvents _ (∅ ∪ resolvedHeads s.ledger) ↔ _
    rw [Finset.empty_union, (hs.branchEvents_insert hs.resolvedHeads_subset hfresh).1]
  | resolveConflict parked content _ _ hk =>
    obtain ⟨hmem, hid⟩ := (hs.node p hp).get_mem hk
    have hheads : insert parked (resolvedHeads s.ledger) ⊆ s.ledger.image Event.eventId :=
      Finset.insert_subset (Finset.mem_image.mpr ⟨_, hmem, hid⟩) hs.resolvedHeads_subset
    change id ∈ branchEvents _ ({parked} ∪ resolvedHeads s.ledger) ↔ _
    rw [← Finset.insert_eq, (hs.branchEvents_insert hheads hfresh).1]
    obtain ⟨q, hq, hfin⟩ := hheld
    exact ⟨hG q hq id hfin, fun hold =>
      unrolledClosure_mono_seed _ (Finset.subset_insert _ _) hold⟩

/-! ## Finalization -/

section

variable {s : State} {p : PeerID} {e : Event}

theorem next_eq_oldest (hs : LedgerInv s) (hp : p ∈ peers) (o : FoldOrder) (he : e ∈ s.ledger)
    (hold : oldestIsEligible s p e) :
    @nextFinalizationEventID o (s.nodes.get p) = e.eventId ∧
      (s.nodes.get p).clock.get e.eventId = e := by
  have hk := hs.keyed hp
  have helig : e.eventId ∈ @finalizationEligible o (s.nodes.get p) := by
    rw [finalizationEligible_order o ascendingFolds hk]
    exact hold.1
  have hkey : ∀ id ∈ @finalizationEligible o (s.nodes.get p), id ∈ (s.nodes.get p).clock.keys :=
    fun id hid => (Finset.mem_filter.mp (finalizationEligible_subset _ _ hid)).1
  have hids : ∀ id ∈ @finalizationEligible o (s.nodes.get p), id ≠ emptyEventId :=
    fun id hid => hk.ne_emptyEventId (hkey id hid)
  have hget : (s.nodes.get p).clock.get e.eventId = e := by
    obtain ⟨hmem, hid⟩ := (hs.node p hp).get_mem (hkey _ helig)
    exact hs.unique _ hmem e he hid
  refine ⟨?_, hget⟩
  have hnext := nextFinalizationEventID_mem (s.nodes.get p)
    (nextFinalizationEventID_ne _ hids ⟨_, helig⟩)
  obtain ⟨hmem, hid⟩ := (hs.node p hp).get_mem (hkey _ hnext)
  have hunfin := (Finset.mem_filter.mp (finalizationEligible_subset _ _ hnext)).2.1
  rcases hold.2.1 _ hmem (hid.symm ▸ hunfin) with heq | hlt
  · rw [← hid, heq]
  · have hnot := nextFinalizationEventID_oldest (s.nodes.get p) hids helig
    rw [hget, hlt] at hnot
    cases hnot

theorem subsumed_subset_branch (hs : LedgerInv s) (hp : p ∈ peers) :
    subsumedEvents (s.nodes.get p).clock ⊆ branchEvents s.ledger (resolvedHeads s.ledger) :=
  (unrolledClosure_mono_seed _ (hs.resolvedParkedRoots_subset hp)).trans
    (unrolledClosure_mono_next _ (hs.clockParents_subset hp) _)

theorem nextFinalizedCommit_eq_replayTip (hs : SwarmInv s) (hp : p ∈ peers) [FoldOrder]
    {H : List Entry} (hf : Follows H (s.nodes.get p))
    (hnext : nextFinalizationEventID (s.nodes.get p) = e.eventId)
    (hget : (s.nodes.get p).clock.get e.eventId = e)
    (henabled : finalizeEnabled (s.nodes.get p))
    (hroot : nextFinalizationMergeRoot (s.nodes.get p) ≠ conflictHash) :
    ledgerReplayBase s.ledger e.eventId ≠ conflictHash ∧
      nextFinalizedCommit (s.nodes.get p) = replayTip s.ledger (historyTip H) e := by
  have hkey : e.eventId ∈ (s.nodes.get p).clock.keys :=
    hnext ▸ nextFinalizationEventID_mem_keys _ henabled
  have hne : e.eventId ≠ emptyEventId := hnext ▸ henabled.1
  simp only [nextFinalizationMergeRoot, hnext, hne, if_false, hget] at hroot
  have hbase : finalizationReplayBase (s.nodes.get p).clock e.eventId ≠ conflictHash := by
    intro hb
    exact hroot (if_pos hb)
  have heq : ledgerReplayBase s.ledger e.eventId =
      finalizationReplayBase (s.nodes.get p).clock e.eventId :=
    finalizationReplayBase_subMap _ _ (hs.keyed hp) (hs.clock_subMap hp) hkey hbase
  refine ⟨heq ▸ hbase, ?_⟩
  have hmerge : nextFinalizationMergeRoot (s.nodes.get p) =
      mergeRoots (historyTip H).root e.prollyRootHash (ledgerReplayBase s.ledger e.eventId) := by
    rw [heq, ← hf.tip, ← (hs.finalized p hp).root_eq]
    simp only [nextFinalizationMergeRoot, hnext, hne, if_false, hget]
    exact if_neg hbase
  rw [nextFinalizedCommit, replayTip, hmerge, nextParents, hf.tip]
  exact makeFinalizedCommitID_order _ _ _ _ _

theorem exists_nextEntry (hs : SwarmInv s) (hp : p ∈ peers) [o : FoldOrder] (he : e ∈ s.ledger)
    (hold : oldestIsEligible s p e) (henabled : finalizeEnabled (s.nodes.get p))
    {H : List Entry} (hf : Follows H (s.nodes.get p))
    (hnewer : ∀ y ∈ H, less y.event.hlc e.hlc = true) :
    ∃ x, x.event = e ∧ NextEntry s.ledger H x ∧
      (x.booked = true ↔ e.eventId ∈ branchEvents s.ledger (resolvedHeads s.ledger)) ∧
      Follows (x :: H) (finalizeResult (s.nodes.get p)) := by
  obtain ⟨hnext, hget⟩ := next_eq_oldest hs.toLedgerInv hp o he hold
  rcases finalizeResult_cases _ henabled with ⟨hsub, heq⟩ | ⟨hsub, hroot, heq⟩
  · rw [hnext] at hsub
    rw [hnext, hget] at heq
    refine ⟨⟨e, true, historyTip H⟩, rfl, ⟨he, hnewer, Or.inl ⟨rfl, rfl⟩⟩, ?_, ?_⟩
    · exact iff_of_true rfl (subsumed_subset_branch hs.toLedgerInv hp hsub)
    · rw [heq]
      exact hf.book e
  · rw [hnext] at hsub
    obtain ⟨hbase, htip⟩ := nextFinalizedCommit_eq_replayTip hs hp hf hnext hget henabled hroot
    refine ⟨⟨e, false, nextFinalizedCommit (s.nodes.get p)⟩, rfl,
      ⟨he, hnewer, Or.inr ⟨rfl, hbase, htip⟩⟩, ?_, ?_⟩
    · exact iff_of_false Bool.false_ne_true fun hb => hsub (hold.2.2 hb)
    · rw [heq]
      exact hf.replay (hs.finalized p hp) hnext hget

end

theorem HistoryInv.setNode {s : State} {H H' : List Entry} (h : HistoryInv s H)
    (hgrow : H <:+ H') (hc : Chronicle s H') {p : PeerID} {st : NodeState}
    (hp : p ∈ peers) (hhlc : st.hlcClock = (s.nodes.get p).hlcClock) {Hp Hp' : List Entry}
    (hf : Follows Hp (s.nodes.get p)) (hlonger : Hp <:+ Hp') (hsuf : Hp' <:+ H')
    (hf' : Follows Hp' st) (hnew : ∀ x ∈ H', x ∈ H ∨ x ∈ Hp') :
    HistoryInv (s.setNode p st) H' where
  recorded := hc.recorded
  oldest := hc.oldest
  booked := hc.booked
  passed := by
    intro x hx q hq
    simp only [State.setNode, Map.get_put]
    split
    · rw [hhlc]
      exact hc.passed x hx p hp
    · exact hc.passed x hx q hq
  held := by
    intro x hx
    rcases hnew x hx with hx | hx
    · obtain ⟨q, hq, hmem⟩ := h.held x hx
      refine ⟨q, hq, ?_⟩
      simp only [State.setNode, Map.get_put]
      split
      · rename_i hqp
        rw [hqp] at hmem
        obtain ⟨y, hy, hid⟩ := (hf.events _).mp hmem
        exact (hf'.events _).mpr ⟨y, hlonger.subset hy, hid⟩
      · exact hmem
    · refine ⟨p, hp, ?_⟩
      simp only [State.setNode, Map.get_put_self]
      exact (hf'.events _).mpr ⟨x, hx, rfl⟩
  follows := by
    intro q hq
    simp only [State.setNode, Map.get_put]
    split
    · exact ⟨Hp', hsuf, hf'⟩
    · obtain ⟨Hq, hs, hfq⟩ := h.follows q hq
      exact ⟨Hq, hs.trans hgrow, hfq⟩

section

variable {s : State} {p : PeerID} {e : Event} {H : List Entry}

theorem Follows.event_ne {Hp : List Entry} (hf : Follows Hp (s.nodes.get p))
    (hunfin : e.eventId ∉ (s.nodes.get p).finalizedEvents.keys) : ∀ x ∈ Hp, x.event ≠ e := by
  rintro x hx rfl
  exact hunfin ((hf.events _).mpr ⟨x, hx, rfl⟩)

theorem Chronicle.extend (hc : Chronicle s H) (hs : LedgerInv s)
    (hf : Follows H (s.nodes.get p)) (hold : oldestIsEligible s p e)
    (hpassed : ∀ q ∈ peers, less (s.nodes.get q).hlcClock e.hlc = false) {x : Entry}
    (hevent : x.event = e) (hnext : NextEntry s.ledger H x)
    (hbooked : x.booked = true ↔
      e.eventId ∈ branchEvents s.ledger (resolvedHeads s.ledger)) : Chronicle s (x :: H) where
  recorded := ⟨hnext, hc.recorded⟩
  oldest := by
    intro e' he' hnot y hy
    simp only [List.mem_cons, forall_eq_or_imp] at hnot
    rcases List.mem_cons.mp hy with rfl | hy
    · have hunfin : e'.eventId ∉ (s.nodes.get p).finalizedEvents.keys := by
        intro hmem
        obtain ⟨z, hz, hid⟩ := (hf.events _).mp hmem
        exact hnot.2 z hz (hs.unique _ (hc.recorded.mem_ledger z hz) e' he' hid)
      rcases hold.2.1 e' he' hunfin with heq | hlt
      · exact absurd (hevent.trans heq.symm) hnot.1
      · rw [hevent]
        exact hlt
    · exact hc.oldest e' he' hnot.2 y hy
  booked := by
    intro y hy
    rcases List.mem_cons.mp hy with rfl | hy
    · rw [hevent]
      exact hbooked
    · exact hc.booked y hy
  passed := by
    intro y hy
    rcases List.mem_cons.mp hy with rfl | hy
    · rw [hevent]
      exact hpassed
    · exact hc.passed y hy

/-- A peer behind the history finalizes the next event of it. -/
theorem Chronicle.next_event {t Hp : List Entry} {y : Entry}
    (hc : Chronicle s (t ++ y :: Hp)) (hs : LedgerInv s) (hf : Follows Hp (s.nodes.get p))
    (he : e ∈ s.ledger) (hunfin : e.eventId ∉ (s.nodes.get p).finalizedEvents.keys)
    (hold : oldestIsEligible s p e) : y.event = e := by
  have hy : y ∈ t ++ y :: Hp := by simp
  have hrec := hc.recorded.of_suffix (List.suffix_append t (y :: Hp))
  have hyunfin : y.event.eventId ∉ (s.nodes.get p).finalizedEvents.keys := by
    intro hmem
    obtain ⟨z, hz, hid⟩ := (hf.events _).mp hmem
    have hlt := hrec.1.newer z hz
    rw [hs.unique _ (hrec.2.mem_ledger z hz) _ hrec.1.mem hid, less_self] at hlt
    cases hlt
  rcases hold.2.1 _ hrec.1.mem hyunfin with heq | hlt
  · exact heq
  · -- an older event would stand in the history, and above `y`, hence be newer
    exfalso
    have hnewer : ∀ z ∈ t, less y.event.hlc z.event.hlc = true := by
      intro z hz
      obtain ⟨t₁, t₂, rfl⟩ := List.append_of_mem hz
      have hsuf : z :: (t₂ ++ y :: Hp) <:+ t₁ ++ z :: t₂ ++ y :: Hp :=
        ⟨t₁, by simp⟩
      exact (hc.recorded.of_suffix hsuf).1.newer y (by simp)
    by_cases hin : ∀ x ∈ t ++ y :: Hp, x.event ≠ e
    · have hlt' := hc.oldest e he hin y hy
      rw [not_less_of_less hlt] at hlt'
      cases hlt'
    · simp only [not_forall, not_not, exists_prop] at hin
      obtain ⟨x, hx, rfl⟩ := hin
      rcases List.mem_append.mp hx with hx | hx
      · have hlt' := hnewer x hx
        rw [not_less_of_less hlt] at hlt'
        cases hlt'
      · rcases List.mem_cons.mp hx with rfl | hx
        · rw [less_self] at hlt
          cases hlt
        · exact hf.event_ne hunfin x hx rfl

end

theorem CanonicalInv.finalize [o : FoldOrder] {s : State} (h : CanonicalInv s) {p : PeerID}
    (hp : p ∈ peers) (henabled : finalizeEnabled (s.nodes.get p))
    (hG : inHlcOrder s (.finalize p)) :
    ∃ H, HistoryInv (s.setNode p (finalizeResult (s.nodes.get p))) H := by
  obtain ⟨e, he, hold⟩ := hG
  obtain ⟨H, hH⟩ := h.history
  obtain ⟨Hp, ⟨t, rfl⟩, hf⟩ := hH.follows p hp
  have hs := h.toLedgerInv
  have hhlc := (clockOk_finalize (hs.node p hp) henabled).2
  have hcand := (Finset.mem_filter.mp (finalizationEligible_subset _ _ hold.1)).2
  rcases List.eq_nil_or_concat t with rfl | ⟨t, y, rfl⟩
  · have hnewer := hH.oldest e he (hf.event_ne hcand.1)
    obtain ⟨x, hevent, hnext, hbooked, hf'⟩ :=
      exists_nextEntry h.toSwarmInv hp he hold henabled hf hnewer
    have hpassed : ∀ q ∈ peers, less (s.nodes.get q).hlcClock e.hlc = false := fun q hq =>
      h.toFrontierInv.covered_passed hp hq (h.active p hp hq) he hcand.2.2.2.2
    exact ⟨x :: Hp, hH.setNode (List.suffix_cons x Hp)
      (hH.toChronicle.extend hs hf hold hpassed hevent hnext hbooked) hp hhlc hf
      (List.suffix_cons x Hp) (List.suffix_refl _) hf' fun z hz => Or.inr hz⟩
  · rw [List.concat_eq_append, List.append_assoc, List.singleton_append] at hH
    have hy := hH.next_event hs hf he hcand.1 hold
    have hrec := hH.recorded.of_suffix (List.suffix_append t (y :: Hp))
    obtain ⟨x, hevent, hnext, hbooked, hf'⟩ :=
      exists_nextEntry h.toSwarmInv hp he hold henabled hf (hy ▸ hrec.1.newer)
    -- the entry the peer adds is the one already on record
    have hflag : x.booked = y.booked := by
      have hyb := hH.booked y (by simp)
      rw [hy, ← hbooked] at hyb
      exact (Bool.eq_iff_iff.mpr hyb).symm
    rw [hnext.unique hrec.1 (hevent.trans hy.symm) hflag] at hf'
    exact ⟨t ++ y :: Hp, hH.setNode (List.suffix_refl _) hH.toChronicle hp hhlc hf
      (List.suffix_cons y Hp) (List.suffix_append t _) hf' fun z hz => Or.inl hz⟩

theorem CanonicalInv.sync [FoldOrder] {s : State} (h : CanonicalInv s) {p q : PeerID}
    (hp : p ∈ peers) (hq : q ∈ peers) (hG : inHlcOrder s (.syncFinalized p q)) :
    ∃ H, HistoryInv (s.setNode p (syncResult p (s.nodes.get p) (s.nodes.get q))) H := by
  obtain ⟨H, hH⟩ := h.history
  obtain ⟨Hp, hsp, hfp⟩ := hH.follows p hp
  obtain ⟨Hq, hsq, hfq⟩ := hH.follows q hq
  have hclosed := ((h.lineages p hp).merge (h.lineages q hq)).closed
  obtain ⟨Hm, hor, hlonger, hf⟩ := follows_syncFinalizedCoreResult h.toLedgerInv
    (h.finalized p hp) (h.finalized q hq) hH.recorded hclosed hG hsp hsq hfp hfq
  have hsm : Hm <:+ H := by
    rcases hor with rfl | rfl
    · exact hsp
    · exact hsq
  exact ⟨H, hH.setNode (List.suffix_refl _) hH.toChronicle hp (syncResult_hlcClock _ _ _) hfp
    hlonger hsm (hf.congr (syncResult_finalized p _ _)) fun z hz => Or.inl hz⟩

/-! ## Runs -/

theorem canonicalInv_init : CanonicalInv init where
  toContentInv := contentInv_init
  passed := frontierInv_init.passed
  active := by
    intro p hp
    have hget : init.nodes.get p = emptyNodeState p := Map.get_mapBy_of_mem _ hp
    rw [hget]
    exact Finset.Subset.refl _
  history := by
    refine ⟨[], ⟨⟨trivial, by simp, by simp, by simp⟩, by simp, fun p hp => ?_⟩⟩
    have hget : init.nodes.get p = emptyNodeState p := Map.get_mapBy_of_mem _ hp
    rw [hget]
    exact ⟨[], List.suffix_refl _, ⟨rfl, by simp [emptyNodeState, commitsOf],
      by simp [emptyNodeState], by simp [emptyNodeState, descriptorAt]⟩⟩

theorem activePeers_effect [FoldOrder] {s s' : State} {a : Action} (heff : Effect s a s')
    (hquiet : undisturbed a) (q : PeerID) :
    (s.nodes.get q).activePeers ⊆ (s'.nodes.get q).activePeers := by
  have hput : ∀ p st, (s.nodes.get p).activePeers ⊆ st.activePeers →
      (s.nodes.get q).activePeers ⊆ ((s.nodes.put p st).get q).activePeers := by
    intro p st hst
    apply Map.rel_get_put (R := fun st st' : NodeState => st.activePeers ⊆ st'.activePeers)
    · exact fun st => Finset.Subset.refl _
    · exact hst
  cases heff with
  | emit p e _ _ _ => exact hput p _ (Finset.Subset.refl _)
  | receive p e _ _ => exact hput p _ (Finset.Subset.refl _)
  | touch p st _ ht =>
    cases ht with
    | chunksReady id _ _ => exact hput p _ (Finset.Subset.refl _)
    | reconcile _ => exact hput p _ (Finset.Subset.refl _)
    | tick _ => exact hput p _ (Finset.Subset.refl _)
    | evict r _ _ _ _ => exact hquiet.elim
  | heartbeat p r _ _ _ _ => exact hput p _ Finset.subset_union_left
  | finalize p _ he =>
    refine hput p _ ?_
    rcases finalizeResult_cases _ he with ⟨_, heq⟩ | ⟨_, _, heq⟩
    · rw [heq]
      exact Finset.Subset.refl _
    · rw [heq, replayNextEvent_frame]
      exact Finset.Subset.refl _
  | gc p id _ _ => exact hput p _ (Finset.Subset.refl _)
  | sync p r _ _ _ =>
    refine hput p _ ?_
    obtain ⟨clock, ready, _, heq⟩ := applySyncFinalizedResult_eq (s.nodes.get p) (s.nodes.get r)
    simp only [syncResult, heq, reconcileResult_activePeers, withClock]
    rw [syncFinalizedCoreResult_frame]
  | network conn _ => exact Finset.Subset.refl _

theorem CanonicalInv.history_effect [FoldOrder] {s s' : State} {a : Action}
    (h : CanonicalInv s) (heff : Effect s a s') (hG : inHlcOrder s a) :
    ∃ H, HistoryInv s' H := by
  have hs' := ledgerInv_effect h.toLedgerInv heff
  have hsub := ledger_subset_effect h.toLedgerInv heff
  have hhlc := hlcClock_effect heff
  obtain ⟨H, hH⟩ := h.history
  have hsame : (∀ q, a ≠ .finalize q) → (∀ q r, a ≠ .syncFinalized q r) →
      ∀ q, sameFinalizedState (s'.nodes.get q) (s.nodes.get q) := by
    intro hfin hsync q
    rcases finalized_effect heff q with hq | ⟨ha, _⟩ | ⟨r, _, ha, _⟩
    · exact hq
    · exact absurd ha (hfin q)
    · exact absurd ha (hsync q r)
  -- steps that neither finalize nor emit
  have hidle : (∀ q, a ≠ .finalize q) → (∀ q r, a ≠ .syncFinalized q r) →
      s'.ledger = s.ledger → HistoryInv s' H := by
    intro hfin hsync hL
    exact hH.keep h.toLedgerInv hs' hsub (hsame hfin hsync) hhlc
      (fun e he hnot => absurd (hL ▸ he) hnot) fun x _ => by rw [hL]
  cases heff with
  | emit p e hp hw he =>
    have hL : (s.emit p e).ledger = insert e s.ledger :=
      ledger_emit (by rw [(emission_hlc he).1, h.inbox_keys]; exact hp)
    refine ⟨H, hH.keep h.toLedgerInv hs' hsub (hsame ?_ ?_) hhlc ?_ ?_⟩
    · rintro q rfl
      cases he
    · rintro q r rfl
      cases he
    · intro x hx hnot y hy
      rw [hL] at hx
      rcases Finset.mem_insert.mp hx with rfl | hx
      · -- a new event is after its author's clock, which is past the history
        refine less_of_not_less_of_less (hH.passed y hy p hp) ?_
        rw [(emission_hlc he).2]
        exact less_tick _ _ _
      · exact absurd hx hnot
    · intro x hx
      rw [hL]
      exact branch_emission h.toLedgerInv hp he hG (hH.held x hx)
  | finalize p hp he => exact h.finalize hp he hG
  | sync p q hp hq _ => exact h.sync hp hq hG
  | receive p e _ _ => exact ⟨H, hidle (by simp) (by simp) rfl⟩
  | touch p st _ ht =>
    exact ⟨H, hidle (by rintro q rfl; cases ht) (by rintro q r rfl; cases ht) rfl⟩
  | heartbeat p q hp hq _ _ =>
    exact ⟨H, hidle (by simp) (by simp) (ledger_heartbeat h.toLedgerInv hp hq).1⟩
  | gc p id _ _ => exact ⟨H, hidle (by simp) (by simp) rfl⟩
  | network conn hn =>
    exact ⟨H, hidle (by rintro q rfl; cases hn) (by rintro q r rfl; cases hn) rfl⟩

theorem canonicalInv_of_run {tr : List (State × Action)} {s : State} (h : Run Step init tr s)
    (hG : ∀ x ∈ tr, undisturbed x.2 ∧ inHlcOrder x.1 x.2) : CanonicalInv s := by
  refine Run.induct (I := fun _ s => CanonicalInv s)
    (G := fun s a => undisturbed a ∧ inHlcOrder s a) canonicalInv_init ?_ h hG
  rintro _ s a s' _ hI ⟨hquiet, hGa⟩ ⟨o, hs⟩
  have heff := @effect_of_step o s s' a hs
  exact {
    toContentInv := @contentInv_effect o _ _ _ hI.toContentInv heff
    passed := (@frontierInv_effect o _ _ _ hI.toFrontierInv heff).passed
    active := fun p hp => (hI.active p hp).trans (@activePeers_effect o _ _ _ heff hquiet p)
    history := @CanonicalInv.history_effect o _ _ _ hI heff hGa }

/-- In a run without partition and eviction whose peers finalize in the order of the hybrid
clocks, any two finalized tips are comparable. -/
theorem finalized_tips_comparable_in_hlc_order {tr : List (State × Action)} {s : State}
    (h : Run Step init tr s) (hquiet : ∀ x ∈ tr, undisturbed x.2)
    (horder : ∀ x ∈ tr, inHlcOrder x.1 x.2) {p q : PeerID} (hp : p ∈ peers) (hq : q ∈ peers) :
    let links := mergeSetMap (s.nodes.get p).finalizedCommitParents
      (s.nodes.get q).finalizedCommitParents
    ancestorThrough links (s.nodes.get p).finalizedCommitId (s.nodes.get q).finalizedCommitId ∨
    ancestorThrough links (s.nodes.get q).finalizedCommitId
      (s.nodes.get p).finalizedCommitId := by
  have hinv := canonicalInv_of_run h fun x hx => ⟨hquiet x hx, horder x hx⟩
  have hP := mergedParents_faithful (hinv.finalized p hp) (hinv.finalized q hq)
  obtain ⟨H, hH⟩ := hinv.history
  obtain ⟨Hp, hsp, hfp⟩ := hH.follows p hp
  obtain ⟨Hq, hsq, hfq⟩ := hH.follows q hq
  intro links
  rw [hfp.tip, hfq.tip]
  rcases List.suffix_or_suffix_of_suffix hsp hsq with hpq | hqp
  · refine Or.inl ((hH.recorded.of_suffix hsq).ancestorThrough hP ?_ hpq)
    rw [keys_mergeSetMap, ← hfq.commits]
    exact Finset.subset_union_right
  · refine Or.inr ((hH.recorded.of_suffix hsp).ancestorThrough hP ?_ hqp)
    rw [keys_mergeSetMap, ← hfp.commits]
    exact Finset.subset_union_left

/-! ## A fork, and a run in order -/

theorem not_ancestorThrough_of_no_parents {P : ParentsMap} {a b : FinalizedCommitID}
    (hne : a ≠ b) (hempty : a ≠ emptyFinalizedCommitId) (hpar : parentsAt P b = ∅) :
    ¬ancestorThrough P a b := by
  rintro (h | hpath)
  · exact hempty h
  · rcases Relation.ReflTransGen.cases_head hpath with heq | ⟨c, hc, _⟩
    · exact hne heq.symm
    · rw [hpar] at hc
      simp at hc

/-- The fork of two concurrent writes needs neither a partition nor an eviction. -/
theorem finalized_tips_fork_undisturbed : ∃ tr s, Run Step init tr s ∧
    (∀ x ∈ tr, undisturbed x.2) ∧ ∃ p ∈ peers, ∃ q ∈ peers,
    ¬(ancestorThrough (mergeSetMap (s.nodes.get p).finalizedCommitParents
          (s.nodes.get q).finalizedCommitParents)
        (s.nodes.get p).finalizedCommitId (s.nodes.get q).finalizedCommitId ∨
      ancestorThrough (mergeSetMap (s.nodes.get p).finalizedCommitParents
          (s.nodes.get q).finalizedCommitParents)
        (s.nodes.get q).finalizedCommitId (s.nodes.get p).finalizedCommitId) := by
  refine ⟨_, forkState, forkRun_runs, by decide +kernel, 1, by decide, 2, by decide, ?_⟩
  rintro (h | h)
  · exact not_ancestorThrough_of_no_parents (by decide +kernel) (by decide +kernel)
      (by decide +kernel) h
  · exact not_ancestorThrough_of_no_parents (by decide +kernel) (by decide +kernel)
      (by decide +kernel) h

/-- Peers 1 and 2 write concurrently and everything is acknowledged everywhere. Peer 1 finalizes
both writes, peer 2 the first of them, and peer 3 takes over what peer 1 has. -/
def orderedRun : List Action :=
  [.write 1 11, .write 2 12] ++ deliver (writtenEvent (emptyNodeState 1) 1 11) ++
    deliver (writtenEvent (emptyNodeState 2) 2 12) ++ heartbeats ++
    [.finalize 1, .finalize 2, .finalize 1, .syncFinalized 3 1]

def orderedState : State := (runOutcome orderedRun).2

theorem orderedRun_runs : Run Step init (runOutcome orderedRun).1 orderedState :=
  run_runOutcome (by decide +kernel)

theorem finalized_tips_comparable_in_hlc_order_on_ordered :
    (orderedState.nodes.get 1).finalizedEvents.keys = {⟨1, 1, 1⟩, ⟨2, 1, 1⟩} ∧
    (orderedState.nodes.get 2).finalizedEvents.keys = {⟨1, 1, 1⟩} ∧
    (orderedState.nodes.get 1).finalizedCommitId ≠ (orderedState.nodes.get 2).finalizedCommitId ∧
    let links := mergeSetMap (orderedState.nodes.get 1).finalizedCommitParents
      (orderedState.nodes.get 2).finalizedCommitParents
    ancestorThrough links (orderedState.nodes.get 1).finalizedCommitId
        (orderedState.nodes.get 2).finalizedCommitId ∨
      ancestorThrough links (orderedState.nodes.get 2).finalizedCommitId
        (orderedState.nodes.get 1).finalizedCommitId :=
  ⟨by decide +kernel, by decide +kernel, by decide +kernel,
    finalized_tips_comparable_in_hlc_order orderedRun_runs (by decide +kernel) (by decide +kernel)
      (p := 1) (q := 2) (by decide) (by decide)⟩

end DoltSwarm.Protocol
