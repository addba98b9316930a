import DoltSwarm.Protocol.HeadClasses
import DoltSwarm.Protocol.Retention
import DoltSwarm.Protocol.Sentinels

/-!
# Competing heads

The projection merges the ready heads in the order of their timestamps and parks those that
conflict when their turn comes. A write takes the basis away from the heads and puts itself
last, so a head that was parked against the basis may merge now, and the write be parked
against it.
-/

namespace DoltSwarm.Protocol

open Lib

set_option autoImplicit false

/-! ## The turn of a head -/

/-- The heads that a fold merges before `k`. -/
def earlierHeads (heads : Finset EventID) (clock : Clock) (k : EventID) : Finset EventID :=
  heads.filter fun id => less (clock.get id).hlc (clock.get k).hlc = true

section

variable [FoldOrder]

/-- `k` conflicts with what the finalized root and the heads before it merge to. -/
def conflictsInTurn (st : NodeState) (heads : Finset EventID) (k : EventID) : Prop :=
  mergeRoots (anchoredFold (earlierHeads heads st.clock k) st.clock st.finalizedProllyRootHash).1
    (st.clock.get k).prollyRootHash (st.clock.get k).anchorProllyRootHash = conflictHash

instance (st : NodeState) (heads : Finset EventID) (k : EventID) :
    Decidable (conflictsInTurn st heads k) := inferInstanceAs (Decidable (_ = _))

omit [FoldOrder] in
/-- A fold sets an element aside at its own turn or not at all. -/
theorem mem_foldl_anchoredStep_iff {clock : Clock} {before after : List EventID} {k : EventID}
    (hnodup : (before ++ k :: after).Nodup) (start : ProllyRootHash) :
    k ∈ ((before ++ k :: after).foldl (anchoredStep clock) (start, ∅)).2 ↔
      mergeRoots (before.foldl (anchoredStep clock) (start, ∅)).1 (clock.get k).prollyRootHash
        (clock.get k).anchorProllyRootHash = conflictHash := by
  obtain ⟨-, hrest, hapart⟩ := List.nodup_append.mp hnodup
  have hafter : k ∉ after := (List.nodup_cons.mp hrest).1
  rw [List.foldl_append, List.foldl_cons]
  generalize hacc : before.foldl (anchoredStep clock) (start, ∅) = acc
  have hbefore : k ∉ acc.2 := by
    intro hmem
    have hsub : (before.foldl (anchoredStep clock) (start, ∅)).2 ⊆ before.toFinset :=
      anchoredStep_conflicts_subset (fun id hid => List.mem_toFinset.mpr hid)
        (Finset.empty_subset _)
    rw [hacc] at hsub
    exact hapart k (List.mem_toFinset.mp (hsub hmem)) k List.mem_cons_self rfl
  by_cases hconf : mergeRoots acc.1 (clock.get k).prollyRootHash
      (clock.get k).anchorProllyRootHash = conflictHash
  · have hstep : anchoredStep clock acc k = (acc.1, acc.2 ∪ {k}) := by
      simp only [anchoredStep, hconf, if_true]
    rw [hstep]
    refine iff_of_true (subset_foldl_anchoredStep clock after _ ?_) hconf
    exact Finset.mem_union_right _ (Finset.mem_singleton_self k)
  · have hstep : anchoredStep clock acc k = (mergeRoots acc.1 (clock.get k).prollyRootHash
        (clock.get k).anchorProllyRootHash, acc.2) := by
      simp only [anchoredStep, hconf, if_false]
    rw [hstep]
    refine iff_of_false (fun hmem => ?_) hconf
    have hsub : (after.foldl (anchoredStep clock) (mergeRoots acc.1 (clock.get k).prollyRootHash
        (clock.get k).anchorProllyRootHash, acc.2)).2 ⊆ acc.2 ∪ after.toFinset :=
      anchoredStep_conflicts_subset
        (fun id hid => Finset.mem_union_right _ (List.mem_toFinset.mpr hid))
        Finset.subset_union_left
    rcases Finset.mem_union.mp (hsub hmem) with hin | hin
    · exact hbefore hin
    · exact hafter (List.mem_toFinset.mp hin)

theorem sortEventIDsByHLC_earlier {clock : Clock} (hk : Keyed clock) {heads : Finset EventID}
    (hheads : heads ⊆ clock.keys) {k : EventID} {before after : List EventID}
    (hsplit : sortEventIDsByHLC heads clock = before ++ k :: after) :
    sortEventIDsByHLC (earlierHeads heads clock k) clock = before := by
  have hmem : ∀ id ∈ FoldOrder.events.list heads, id ∈ clock.keys := fun id hid =>
    hheads ((Enumeration.mem_list _ _ _).mp hid)
  have hperm : (FoldOrder.events.list (earlierHeads heads clock k)).Perm
      ((FoldOrder.events.list heads).filter fun id =>
        less (clock.get id).hlc (clock.get k).hlc) := by
    refine (List.perm_ext_iff_of_nodup (Enumeration.nodup_list _ _)
      ((Enumeration.nodup_list _ _).filter _)).mpr fun id => ?_
    simp [Enumeration.mem_list, earlierHeads]
  have hnodup : (sortEventIDsByHLC heads clock).Nodup :=
    (sortList_perm _ _).nodup_iff.mpr (Enumeration.nodup_list _ _)
  have hsorted : Ascending (fun a b => less (clock.get a).hlc (clock.get b).hlc)
      (sortEventIDsByHLC heads clock) := ascending_sortList hk.hlc_strictTotal hmem
  have hkeys : ∀ id ∈ sortEventIDsByHLC heads clock, id ∈ clock.keys := fun id hid =>
    hheads ((mem_sortEventIDsByHLC _ _ _).mp hid)
  rw [sortEventIDsByHLC, sortList_of_perm_filter hk.hlc_strictTotal hperm hmem,
    ← sortEventIDsByHLC]
  rw [hsplit] at hnodup hsorted hkeys ⊢
  exact hsorted.filter_lt hk.hlc_strictTotal hkeys hnodup

theorem mem_anchoredFold_conflicts {st : NodeState} (hk : Keyed st.clock)
    {heads : Finset EventID} (hheads : heads ⊆ st.clock.keys) {k : EventID} (hmem : k ∈ heads) :
    k ∈ (anchoredFold heads st.clock st.finalizedProllyRootHash).2 ↔
      conflictsInTurn st heads k := by
  obtain ⟨before, after, hsplit⟩ :=
    List.append_of_mem ((mem_sortEventIDsByHLC heads st.clock k).mpr hmem)
  have hnodup : (sortEventIDsByHLC heads st.clock).Nodup :=
    (sortList_perm _ _).nodup_iff.mpr (Enumeration.nodup_list _ _)
  rw [hsplit] at hnodup
  rw [conflictsInTurn, anchoredFold, anchoredFold, sortEventIDsByHLC_earlier hk hheads hsplit,
    hsplit]
  exact mem_foldl_anchoredStep_iff hnodup _

theorem conflictsInTurn_congr {st st' : NodeState} {heads heads' : Finset EventID} {k : EventID}
    (hroot : st'.finalizedProllyRootHash = st.finalizedProllyRootHash)
    (hk : st'.clock.get k = st.clock.get k)
    (hsame : ∀ id ∈ earlierHeads heads st.clock k, st'.clock.get id = st.clock.get id)
    (hearlier : earlierHeads heads' st'.clock k = earlierHeads heads st.clock k) :
    conflictsInTurn st' heads' k ↔ conflictsInTurn st heads k := by
  rw [conflictsInTurn, conflictsInTurn, hearlier, hroot, hk, anchoredFold_congr hsame]

/-- Ready, and neither unsafe to replay nor in conflict when its turn comes. -/
def mergesInTurn (st : NodeState) (k : EventID) : Prop :=
  k ∈ projectionReadyHeads st ∧ ¬conflictsInTurn st (projectionReadyHeads st) k

instance (st : NodeState) (k : EventID) : Decidable (mergesInTurn st k) :=
  inferInstanceAs (Decidable (_ ∧ _))

section

variable {st : NodeState} (hk : Keyed st.clock) (hheads : st.headEventIds ⊆ st.clock.keys)

include hk hheads

theorem mem_basis_projection_iff {k : EventID} (hbasis : k ∉ st.projectionBasis)
    (hparked : k ∉ st.parkedConflicts) :
    (k ∈ (computeTentativeProjection st).2.2 ∧ k ∉ (computeTentativeProjection st).2.1) ↔
      mergesInTurn st k := by
  have hkeys : projectionReadyHeads st ⊆ st.clock.keys :=
    (projectionReadyHeads_subset st).trans ((mergeable_subset_tentative st).trans
      (Finset.sdiff_subset.trans hheads))
  by_cases hready : mergeableHeadEventIDs st = ∅
  · have hnone : ¬mergesInTurn st k := by
      intro hmerge
      have hin := projectionReadyHeads_subset st hmerge.1
      rw [hready] at hin
      exact Finset.notMem_empty k hin
    refine iff_of_false (fun hmem => ?_) hnone
    by_cases htent : tentativeHeadEventIDs st = ∅
    · rw [projection_of_no_head htent] at hmem
      exact Finset.notMem_empty k hmem.1
    · rw [projection_of_unready htent hready] at hmem
      exact hbasis (Finset.mem_inter.mp hmem.1).1
  · rw [projection_of_ready hready]
    simp only [Finset.mem_union, Finset.mem_sdiff, mergesInTurn, not_or]
    constructor
    · rintro ⟨⟨hin, hfold⟩, -⟩
      exact ⟨hin, fun hturn => hfold ((mem_anchoredFold_conflicts hk hkeys hin).mpr hturn)⟩
    · rintro ⟨hin, hturn⟩
      have hfold : k ∉ (anchoredFold (projectionReadyHeads st) st.clock
          st.finalizedProllyRootHash).2 := fun hmem =>
        hturn ((mem_anchoredFold_conflicts hk hkeys hin).mp hmem)
      have hlag : k ∉ retainedUnreadyParked st := fun hmem =>
        hparked (Finset.mem_inter.mp hmem).1
      exact ⟨⟨hin, hfold⟩, ⟨hfold, hlag⟩, (Finset.mem_sdiff.mp hin).2⟩

/-- What was parked stays parked or leaves the tentative heads, unless it merges in its turn. -/
theorem mem_parked_projection_iff {k : EventID} (hparked : k ∈ st.parkedConflicts) :
    (k ∈ (computeTentativeProjection st).2.1 ∨ k ∉ tentativeHeadEventIDs st) ↔
      ¬mergesInTurn st k := by
  have hkeys : projectionReadyHeads st ⊆ st.clock.keys :=
    (projectionReadyHeads_subset st).trans ((mergeable_subset_tentative st).trans
      (Finset.sdiff_subset.trans hheads))
  by_cases htent : k ∈ tentativeHeadEventIDs st
  · simp only [htent, not_true_eq_false, or_false]
    by_cases hready : mergeableHeadEventIDs st = ∅
    · rw [projection_of_unready (Finset.ne_empty_of_mem htent) hready]
      refine iff_of_true (Finset.mem_inter.mpr ⟨hparked, htent⟩) fun hmerge => ?_
      have hin := projectionReadyHeads_subset st hmerge.1
      rw [hready] at hin
      exact Finset.notMem_empty k hin
    · rw [projection_of_ready hready]
      simp only [Finset.mem_union, mergesInTurn, not_and, not_not]
      constructor
      · rintro ((hfold | hlag) | hblocked) hin
        · exact (mem_anchoredFold_conflicts hk hkeys hin).mp hfold
        · have hunready := (Finset.mem_sdiff.mp (Finset.mem_inter.mp hlag).2).2
          exact absurd (projectionReadyHeads_subset st hin) hunready
        · exact absurd hblocked (Finset.mem_sdiff.mp hin).2
      · intro hturn
        by_cases hin : k ∈ projectionReadyHeads st
        · exact Or.inl (Or.inl ((mem_anchoredFold_conflicts hk hkeys hin).mpr (hturn hin)))
        · by_cases hmerge : k ∈ mergeableHeadEventIDs st
          · right
            by_contra hsafe
            exact hin (Finset.mem_sdiff.mpr ⟨hmerge, hsafe⟩)
          · exact Or.inl (Or.inr (Finset.mem_inter.mpr
              ⟨hparked, Finset.mem_sdiff.mpr ⟨htent, hmerge⟩⟩))
  · refine iff_of_true (Or.inr htent) fun hmerge => htent ?_
    exact mergeable_subset_tentative st (projectionReadyHeads_subset st hmerge.1)

end

end

/-! ## A new event at its author -/

/-- The author's state with a new event in it, not projected yet. -/
def writeBaseResult (st : NodeState) (p : PeerID) (e : Event) : NodeState :=
  { addToClock st p e e.hlc with chunksReady := st.chunksReady ∪ {e.eventId} }

theorem clockParents_put_of_ne (clock : Clock) (e : Event) {id : EventID} (h : id ≠ e.eventId) :
    clockParents (clock.put e.eventId e) id = clockParents clock id := by
  simp only [clockParents, Map.keys_put, Finset.mem_insert, h, false_or, Map.get_put_of_ne _ _ h]

theorem clockParents_put_self (clock : Clock) (e : Event) :
    clockParents (clock.put e.eventId e) e.eventId = e.parentEventIds := by
  simp [clockParents]

namespace LedgerInv

variable {s : State} (h : LedgerInv s) {p : PeerID} (hp : p ∈ peers)

include h hp

theorem keys_subset : (s.nodes.get p).clock.keys ⊆ s.ledger.image Event.eventId := by
  intro id hid
  obtain ⟨hmem, heq⟩ := (h.node p hp).get_mem hid
  exact Finset.mem_image.mpr ⟨_, hmem, heq⟩

theorem closure_subset {seed : Finset EventID} (hseed : seed ⊆ s.ledger.image Event.eventId)
    (n : ℕ) : unrolledClosure n (clockParents (s.nodes.get p).clock) seed ⊆
      s.ledger.image Event.eventId :=
  unrolledClosure_subset hseed
    (fun id _ => (h.clockParents_subset hp id).trans (h.parentsIn_subset id)) n

theorem readyHeads_mem_keys [FoldOrder] {id : EventID}
    (hid : id ∈ projectionReadyHeads (s.nodes.get p)) : id ∈ (s.nodes.get p).clock.keys := by
  have htent := mergeable_subset_tentative _ (projectionReadyHeads_subset _ hid)
  have hhead := (Finset.mem_sdiff.mp htent).1
  rw [(h.node p hp).heads] at hhead
  exact computeHeadEventIDs_subset _ hhead

section

variable {a : Action} {e : Event} (he : Emission (s.nodes.get p) p a e)

include he

theorem emission_new : e.eventId ∉ s.ledger.image Event.eventId := by
  intro hmem
  obtain ⟨x, hx, hid⟩ := Finset.mem_image.mp hmem
  exact h.emission_fresh hp he hx hid

theorem ne_emission {id : EventID} (hid : id ∈ (s.nodes.get p).clock.keys) :
    id ≠ e.eventId := by
  rintro rfl
  exact h.emission_notMem hp he hid

theorem closure_put {seed : Finset EventID} (hseed : seed ⊆ s.ledger.image Event.eventId)
    (n : ℕ) : unrolledClosure n (clockParents ((s.nodes.get p).clock.put e.eventId e)) seed =
      unrolledClosure n (clockParents (s.nodes.get p).clock) seed := by
  refine unrolledClosure_congr fun id hid => clockParents_put_of_ne _ _ ?_
  rintro rfl
  exact h.emission_new hp he (h.closure_subset hp hseed n hid)

theorem isParentClosed_put {id : EventID} (hid : id ∈ (s.nodes.get p).clock.keys) :
    isParentClosed ((s.nodes.get p).clock.put e.eventId e) id ↔
      isParentClosed (s.nodes.get p).clock id := by
  have hseed : {id} ⊆ s.ledger.image Event.eventId :=
    Finset.singleton_subset_iff.mpr (h.keys_subset hp hid)
  rw [isParentClosed, isParentClosed, ancestorIdClosure, h.closure_put hp he hseed, Map.keys_put]
  refine and_congr (iff_of_true (Finset.mem_insert_of_mem hid) hid) ?_
  refine ⟨fun hsub x hx => ?_, fun hsub => hsub.trans (Finset.subset_insert _ _)⟩
  refine (Finset.mem_insert.mp (hsub hx)).resolve_left ?_
  rintro rfl
  exact h.emission_new hp he (h.closure_subset hp hseed _ hx)

theorem isParentClosed_new (hw : (s.nodes.get p).clock.keys.card < maxEvents) :
    isParentClosed ((s.nodes.get p).clock.put e.eventId e) e.eventId ↔
      ∀ b ∈ e.parentEventIds, isParentClosed (s.nodes.get p).clock b := by
  have hpar := h.emission_parents hp he
  have hseed := hpar.trans (h.keys_subset hp)
  have hclosure : ancestorIdClosure {e.eventId} ((s.nodes.get p).clock.put e.eventId e) =
      insert e.eventId (unrolledClosure 7 (clockParents (s.nodes.get p).clock)
        e.parentEventIds) := by
    rw [← h.closure_put hp he hseed, ← clockParents_put_self (s.nodes.get p).clock e,
      ← unrolledClosure_singleton_succ]
    rfl
  have hkeys : isParentClosed ((s.nodes.get p).clock.put e.eventId e) e.eventId ↔
      unrolledClosure 7 (clockParents (s.nodes.get p).clock) e.parentEventIds ⊆
        (s.nodes.get p).clock.keys := by
    rw [isParentClosed, hclosure, Map.keys_put]
    constructor
    · rintro ⟨-, hsub⟩ x hx
      refine (Finset.mem_insert.mp (hsub (Finset.mem_insert_of_mem hx))).resolve_left ?_
      rintro rfl
      exact h.emission_new hp he (h.closure_subset hp hseed _ hx)
    · exact fun hsub => ⟨Finset.mem_insert_self _ _, Finset.insert_subset_insert _ hsub⟩
  rw [hkeys]
  constructor
  · intro hsub b hb
    have hone : unrolledClosure 7 (clockParents (s.nodes.get p).clock) {b} ⊆
        (s.nodes.get p).clock.keys :=
      (unrolledClosure_mono_seed 7 (Finset.singleton_subset_iff.mpr hb)).trans hsub
    refine ⟨hpar hb, ?_⟩
    -- at most seven events are here, so the eighth round brings nothing new
    have hstable := unrolledClosure_stable_of_card (Finset.singleton_nonempty b) hone
      (Nat.le_of_lt_succ hw)
    change unrolledClosure 8 _ _ ⊆ _
    rw [unrolledClosure_succ, hstable, ← unrolledClosure_succ]
    exact hone
  · intro hall x hx
    obtain ⟨b, hb, hbx⟩ := mem_unrolledClosure_iff_of_seed.mp hx
    exact (hall b hb).2 (unrolledClosure_le (by decide) _ hbx)

theorem computeHeadEventIDs_put :
    computeHeadEventIDs ((s.nodes.get p).clock.put e.eventId e) =
      insert e.eventId (computeHeadEventIDs (s.nodes.get p).clock \ e.parentEventIds) := by
  have hself : e.eventId ∉ e.parentEventIds := fun hmem =>
    h.ne_emission hp he (h.emission_parents hp he hmem) rfl
  have hget : ∀ x ∈ (s.nodes.get p).clock.keys,
      ((s.nodes.get p).clock.put e.eventId e).get x = (s.nodes.get p).clock.get x := fun x hx =>
    Map.get_put_of_ne _ _ (h.ne_emission hp he hx)
  have hparent : ∀ x ∈ (s.nodes.get p).clock.keys,
      e.eventId ∉ ((s.nodes.get p).clock.get x).parentEventIds := by
    intro x hx hmem
    obtain ⟨hin, _⟩ := (h.node p hp).get_mem hx
    obtain ⟨y, hy, hid, _⟩ := h.older _ hin _ hmem
    exact h.emission_fresh hp he hy hid
  have hcovered : ∀ id, id ∈ ((s.nodes.get p).clock.put e.eventId e).keys.biUnion
      (fun x => (((s.nodes.get p).clock.put e.eventId e).get x).parentEventIds) ↔
      id ∈ e.parentEventIds ∨ id ∈ (s.nodes.get p).clock.keys.biUnion
        fun x => ((s.nodes.get p).clock.get x).parentEventIds := by
    intro id
    rw [Map.keys_put, Finset.biUnion_insert, Map.get_put_self, Finset.mem_union,
      Finset.biUnion_congr rfl fun x hx => by rw [hget x hx]]
  ext id
  rw [computeHeadEventIDs, computeHeadEventIDs, Finset.mem_sdiff, hcovered, Map.keys_put]
  simp only [Finset.mem_insert, Finset.mem_sdiff]
  by_cases hid : id = e.eventId
  · subst hid
    refine iff_of_true ⟨Or.inl rfl, ?_⟩ (Or.inl rfl)
    rintro (hmem | hmem)
    · exact hself hmem
    · obtain ⟨x, hx, hpar⟩ := Finset.mem_biUnion.mp hmem
      exact hparent x hx hpar
  · simp only [hid, false_or]
    tauto

end

end LedgerInv

theorem BookedInv.finalized_subset {s : State} (h : BookedInv s) {p : PeerID} (hp : p ∈ peers) :
    (s.nodes.get p).finalizedEvents.keys ⊆ s.ledger.image Event.eventId := by
  intro id hid
  obtain ⟨c, _, hc⟩ := h.booked p hp id hid
  obtain ⟨r, hr⟩ := (Map.mem_keys_iff _ _).mp hc
  obtain ⟨e, he, heq, _⟩ := (h.finalized p hp).described c id r hr
  exact Finset.mem_image.mpr ⟨e, he, heq⟩

theorem finalizationReplayBase_put [FoldOrder] {clock : Clock} {e : Event} {id : EventID}
    (hne : id ≠ e.eventId) (hnew : e.eventId ∉ clock.keys)
    (hpar : (clock.get id).parentEventIds ⊆ clock.keys) :
    finalizationReplayBase (clock.put e.eventId e) id = finalizationReplayBase clock id := by
  have hget : (clock.put e.eventId e).get id = clock.get id := Map.get_put_of_ne _ _ hne
  have hreplay : finalizationReplayParents (clock.get id) ⊆ clock.keys := by
    refine Finset.Subset.trans ?_ hpar
    rw [finalizationReplayParents]
    split
    · exact Finset.sdiff_subset
    · exact Finset.Subset.refl _
  have hreplay' : finalizationReplayParents ((clock.put e.eventId e).get id) ⊆
      (clock.put e.eventId e).keys := by
    rw [hget, Map.keys_put]
    exact hreplay.trans (Finset.subset_insert _ _)
  have hsame : ∀ x ∈ finalizationReplayParents (clock.get id),
      (clock.put e.eventId e).get x = clock.get x := by
    intro x hx
    refine Map.get_put_of_ne _ _ ?_
    rintro rfl
    exact hnew (hreplay hx)
  rw [finalizationReplayBase_of_parents hreplay', finalizationReplayBase_of_parents hreplay, hget,
    anchoredFold_congr hsame]

section

variable [FoldOrder] {s : State} (h : BookedInv s) {p : PeerID} (hp : p ∈ peers) {a : Action}
  {e : Event} (he : Emission (s.nodes.get p) p a e)

include h hp he

omit [FoldOrder] in
theorem tentativeHeadEventIDs_write :
    tentativeHeadEventIDs (writeBaseResult (s.nodes.get p) p e) =
      insert e.eventId (tentativeHeadEventIDs (s.nodes.get p) \ e.parentEventIds) := by
  have hfin : e.eventId ∉ (s.nodes.get p).finalizedEvents.keys := fun hmem =>
    h.emission_new hp he (h.finalized_subset hp hmem)
  change computeHeadEventIDs _ \ (s.nodes.get p).finalizedEvents.keys = _
  rw [h.computeHeadEventIDs_put hp he, Finset.insert_sdiff_of_notMem _ hfin,
    tentativeHeadEventIDs, (h.node p hp).heads, sdiff_right_comm]

omit [FoldOrder] in
theorem mem_mergeable_write (hw : writeEnabled (s.nodes.get p)) (id : EventID) :
    id ∈ mergeableHeadEventIDs (writeBaseResult (s.nodes.get p) p e) ↔
      (id ∈ mergeableHeadEventIDs (s.nodes.get p) ∧ id ∉ e.parentEventIds) ∨
      (id = e.eventId ∧ ∀ b ∈ e.parentEventIds, isParentClosed (s.nodes.get p).clock b) := by
  have hheads : tentativeHeadEventIDs (s.nodes.get p) ⊆ (s.nodes.get p).clock.keys := by
    refine Finset.sdiff_subset.trans ?_
    rw [(h.node p hp).heads]
    exact computeHeadEventIDs_subset _
  have hnew := h.isParentClosed_new hp he hw.2
  simp only [mergeableHeadEventIDs, Finset.mem_filter, tentativeHeadEventIDs_write h hp he]
  change (id ∈ insert e.eventId _ ∧ isParentClosed ((s.nodes.get p).clock.put e.eventId e) id ∧
    id ∈ (s.nodes.get p).chunksReady ∪ {e.eventId}) ↔ _
  by_cases hid : id = e.eventId
  · subst hid
    have hnot : e.eventId ∉ tentativeHeadEventIDs (s.nodes.get p) := fun hmem =>
      h.ne_emission hp he (hheads hmem) rfl
    simp [hnew, hnot]
  · simp only [Finset.mem_insert, hid, false_or, false_and, or_false, Finset.mem_sdiff,
      Finset.mem_union, Finset.mem_singleton]
    constructor
    · rintro ⟨⟨htent, hpar⟩, hclosed, hready⟩
      exact ⟨⟨htent, (h.isParentClosed_put hp he (hheads htent)).mp hclosed, hready⟩, hpar⟩
    · rintro ⟨⟨htent, hclosed, hready⟩, hpar⟩
      exact ⟨⟨htent, hpar⟩, (h.isParentClosed_put hp he (hheads htent)).mpr hclosed, hready⟩

theorem mem_unsafe_write (hw : writeEnabled (s.nodes.get p)) {id : EventID}
    (hid : id ∈ mergeableHeadEventIDs (s.nodes.get p)) (hpar : id ∉ e.parentEventIds) :
    id ∈ replayUnsafeEligibleHeads (writeBaseResult (s.nodes.get p) p e)
        (mergeableHeadEventIDs (writeBaseResult (s.nodes.get p) p e)) ↔
      id ∈ replayUnsafeEligibleHeads (s.nodes.get p) (mergeableHeadEventIDs (s.nodes.get p)) := by
  obtain ⟨htent, hclosed, _⟩ := Finset.mem_filter.mp hid
  have hhead : id ∈ computeHeadEventIDs (s.nodes.get p).clock :=
    (h.node p hp).heads ▸ (Finset.mem_sdiff.mp htent).1
  have hne := h.ne_emission hp he hclosed.1
  have hhead' : id ∈ computeHeadEventIDs ((s.nodes.get p).clock.put e.eventId e) := by
    rw [h.computeHeadEventIDs_put hp he]
    exact Finset.mem_insert_of_mem (Finset.mem_sdiff.mpr ⟨hhead, hpar⟩)
  have hsub := Finset.disjoint_left.mp (h.disjoint_heads_subsumed hp) (Finset.mem_sdiff.mp htent).1
  have hclock : ((s.emit p e).nodes.get p).clock = (s.nodes.get p).clock.put e.eventId e := by
    rw [State.emit, Map.get_put_self]
    rfl
  have hapart := (h.emit hp he).disjoint_heads_subsumed hp
  rw [((h.emit hp he).node p hp).heads, hclock] at hapart
  have hsub' := Finset.disjoint_left.mp hapart hhead'
  have hparents : ((s.nodes.get p).clock.get id).parentEventIds ⊆ (s.nodes.get p).clock.keys := by
    intro x hx
    refine hclosed.2 (next_subset_unrolledClosure (by decide) (Finset.mem_singleton_self id) ?_)
    rw [clockParents, if_pos hclosed.1]
    exact hx
  have hnew : e.eventId ∉ (s.nodes.get p).clock.keys := h.emission_notMem hp he
  have hget : ((s.nodes.get p).clock.put e.eventId e).get id = (s.nodes.get p).clock.get id :=
    Map.get_put_of_ne _ _ hne
  have hsafe : replayFinalizationSafe (writeBaseResult (s.nodes.get p) p e) id ↔
      replayFinalizationSafe (s.nodes.get p) id := by
    simp only [replayFinalizationSafe, writeBaseResult, addToClock, hget,
      finalizationReplayBase_put hne hnew hparents]
  rw [mem_replayUnsafeEligibleHeads, mem_replayUnsafeEligibleHeads, hsafe]
  change _ ∧ id ∉ subsumedEvents ((s.nodes.get p).clock.put e.eventId e) ∧
    (((s.nodes.get p).clock.put e.eventId e).get id).parentEventIds ⊆ _ ∧ _ ↔ _
  rw [hget]
  refine and_congr (iff_of_true ?_ hid) (and_congr (iff_of_true hsub' hsub) Iff.rfl)
  exact (mem_mergeable_write h hp he hw id).mpr (Or.inl ⟨hid, hpar⟩)

theorem emission_notMem_unsafe (hst : Settled p (s.nodes.get p)) (ready : Finset EventID) :
    e.eventId ∉ replayUnsafeEligibleHeads (writeBaseResult (s.nodes.get p) p e) ready := by
  rw [mem_replayUnsafeEligibleHeads]
  rintro ⟨-, -, hfin, hblocked⟩
  have hget : (writeBaseResult (s.nodes.get p) p e).clock.get e.eventId = e :=
    Map.get_put_self _ _ _
  have hroot := (shape_of_emission he hp).root_mem
  rw [hget] at hfin
  obtain ⟨content, -, parents, parked, claim, rfl, hpar, -⟩ := emission_spec he
  have hnone : parents = ∅ := by
    refine Finset.eq_empty_of_forall_notMem fun x hx => ?_
    have htent : x ∈ tentativeHeadEventIDs (s.nodes.get p) := by
      rcases Finset.mem_union.mp (hpar hx) with hb | hk
      · exact hst.basis_subset hb
      · exact hst.parked_subset hk
    exact (Finset.mem_sdiff.mp htent).2 (hfin hx)
  apply hblocked
  have hbase : finalizationReplayBase (writeBaseResult (s.nodes.get p) p
      (emittedEvent (s.nodes.get p) p content parents parked claim)).clock
      (emittedEvent (s.nodes.get p) p content parents parked claim).eventId =
      (s.nodes.get p).finalizedProllyRootHash := by
    have hreplay : finalizationReplayParents
        (emittedEvent (s.nodes.get p) p content parents parked claim) = ∅ := by
      subst hnone
      cases parked <;> rfl
    simp only [finalizationReplayBase, hget, hreplay, if_true]
    rfl
  refine ⟨?_, ?_⟩
  · rw [hbase]
    exact fun hconf => conflictHash_notMem (hconf ▸ h.finalized_root hp)
  · rw [hbase, hget]
    change mergeRoots (s.nodes.get p).finalizedProllyRootHash content
      (s.nodes.get p).finalizedProllyRootHash ≠ conflictHash
    have hcontent : content ∈ contentRoots := Finset.mem_insert_of_mem hroot
    simp only [mergeRoots, if_true]
    split
    · exact fun hconf => conflictHash_notMem (hconf ▸ h.finalized_root hp)
    · exact fun hconf => conflictHash_notMem (hconf ▸ hcontent)

section

variable (hst : Settled p (s.nodes.get p)) (hw : writeEnabled (s.nodes.get p))

include hst hw

theorem mem_projectionReadyHeads_write (id : EventID) :
    id ∈ projectionReadyHeads (writeBaseResult (s.nodes.get p) p e) ↔
      (id ∈ projectionReadyHeads (s.nodes.get p) ∧ id ∉ e.parentEventIds) ∨
      (id = e.eventId ∧ ∀ b ∈ e.parentEventIds, isParentClosed (s.nodes.get p).clock b) := by
  rw [projectionReadyHeads, projectionReadyHeads, Finset.mem_sdiff, Finset.mem_sdiff,
    mem_mergeable_write h hp he hw]
  constructor
  · rintro ⟨⟨hid, hpar⟩ | hnew, hsafe⟩
    · rw [mem_unsafe_write h hp he hw hid hpar] at hsafe
      exact Or.inl ⟨⟨hid, hsafe⟩, hpar⟩
    · exact Or.inr hnew
  · rintro (⟨⟨hid, hsafe⟩, hpar⟩ | ⟨rfl, hclosed⟩)
    · rw [← mem_unsafe_write h hp he hw hid hpar] at hsafe
      exact ⟨Or.inl ⟨hid, hpar⟩, hsafe⟩
    · exact ⟨Or.inr ⟨rfl, hclosed⟩, emission_notMem_unsafe h hp he hst _⟩

theorem earlierHeads_new :
    earlierHeads (projectionReadyHeads (writeBaseResult (s.nodes.get p) p e))
        (writeBaseResult (s.nodes.get p) p e).clock e.eventId =
      projectionReadyHeads (s.nodes.get p) \ e.parentEventIds := by
  ext id
  rw [earlierHeads, Finset.mem_filter, mem_projectionReadyHeads_write h hp he hst hw,
    Finset.mem_sdiff]
  change _ ∧ less (((s.nodes.get p).clock.put e.eventId e).get id).hlc
    (((s.nodes.get p).clock.put e.eventId e).get e.eventId).hlc = true ↔ _
  rw [Map.get_put_self]
  constructor
  · rintro ⟨hold | ⟨rfl, -⟩, hlt⟩
    · exact hold
    · rw [Map.get_put_self, less_self] at hlt
      cases hlt
  · rintro ⟨hid, hpar⟩
    have hkey := h.readyHeads_mem_keys hp hid
    rw [Map.get_put_of_ne _ _ (h.ne_emission hp he hkey)]
    exact ⟨Or.inl ⟨hid, hpar⟩, (h.less_emission he).2 hp id hkey⟩

theorem earlierHeads_old {k : EventID} (hk : k ∈ (s.nodes.get p).clock.keys) :
    earlierHeads (projectionReadyHeads (writeBaseResult (s.nodes.get p) p e))
        (writeBaseResult (s.nodes.get p) p e).clock k =
      earlierHeads (projectionReadyHeads (s.nodes.get p) \ e.parentEventIds)
        (s.nodes.get p).clock k := by
  ext id
  rw [earlierHeads, earlierHeads, Finset.mem_filter, Finset.mem_filter,
    mem_projectionReadyHeads_write h hp he hst hw, Finset.mem_sdiff]
  change _ ∧ less (((s.nodes.get p).clock.put e.eventId e).get id).hlc
    (((s.nodes.get p).clock.put e.eventId e).get k).hlc = true ↔ _
  rw [Map.get_put_of_ne _ _ (h.ne_emission hp he hk)]
  constructor
  · rintro ⟨⟨hid, hpar⟩ | ⟨rfl, -⟩, hlt⟩
    · have hkey := h.readyHeads_mem_keys hp hid
      rw [Map.get_put_of_ne _ _ (h.ne_emission hp he hkey)] at hlt
      exact ⟨⟨hid, hpar⟩, hlt⟩
    · -- no event of the clock is later than the new one
      rw [Map.get_put_self, not_less_of_less ((h.less_emission he).2 hp k hk)] at hlt
      cases hlt
  · rintro ⟨⟨hid, hpar⟩, hlt⟩
    have hkey := h.readyHeads_mem_keys hp hid
    rw [Map.get_put_of_ne _ _ (h.ne_emission hp he hkey)]
    exact ⟨Or.inl ⟨hid, hpar⟩, hlt⟩

theorem mergesInTurn_old {k : EventID} (hk : k ∈ (s.nodes.get p).clock.keys)
    (hpar : k ∉ e.parentEventIds) :
    mergesInTurn (writeBaseResult (s.nodes.get p) p e) k ↔
      k ∈ projectionReadyHeads (s.nodes.get p) ∧ ¬conflictsInTurn (s.nodes.get p)
        (projectionReadyHeads (s.nodes.get p) \ e.parentEventIds) k := by
  have hne := h.ne_emission hp he hk
  have hsame : ∀ id ∈ earlierHeads (projectionReadyHeads (s.nodes.get p) \ e.parentEventIds)
      (s.nodes.get p).clock k, (writeBaseResult (s.nodes.get p) p e).clock.get id =
        (s.nodes.get p).clock.get id := by
    intro id hid
    have hin := (Finset.mem_sdiff.mp (Finset.mem_filter.mp hid).1).1
    exact Map.get_put_of_ne _ _ (h.ne_emission hp he (h.readyHeads_mem_keys hp hin))
  have hturn : conflictsInTurn (writeBaseResult (s.nodes.get p) p e)
      (projectionReadyHeads (writeBaseResult (s.nodes.get p) p e)) k ↔
      conflictsInTurn (s.nodes.get p)
        (projectionReadyHeads (s.nodes.get p) \ e.parentEventIds) k :=
    conflictsInTurn_congr rfl (Map.get_put_of_ne _ _ hne) hsame
      (earlierHeads_old h hp he hst hw hk)
  rw [mergesInTurn, mem_projectionReadyHeads_write h hp he hst hw, hturn]
  simp only [hpar, not_false_eq_true, and_true, hne, false_and, or_false]

theorem mergesInTurn_new :
    mergesInTurn (writeBaseResult (s.nodes.get p) p e) e.eventId ↔
      (∀ b ∈ e.parentEventIds, isParentClosed (s.nodes.get p).clock b) ∧
      mergeRoots (anchoredFold (projectionReadyHeads (s.nodes.get p) \ e.parentEventIds)
          (s.nodes.get p).clock (s.nodes.get p).finalizedProllyRootHash).1
        e.prollyRootHash e.anchorProllyRootHash ≠ conflictHash := by
  have hnot : e.eventId ∉ projectionReadyHeads (s.nodes.get p) := fun hmem =>
    h.ne_emission hp he (h.readyHeads_mem_keys hp hmem) rfl
  have hget : (writeBaseResult (s.nodes.get p) p e).clock.get e.eventId = e :=
    Map.get_put_self _ _ _
  have hsame : ∀ id ∈ projectionReadyHeads (s.nodes.get p) \ e.parentEventIds,
      (writeBaseResult (s.nodes.get p) p e).clock.get id = (s.nodes.get p).clock.get id := by
    intro id hid
    have hin := (Finset.mem_sdiff.mp hid).1
    exact Map.get_put_of_ne _ _ (h.ne_emission hp he (h.readyHeads_mem_keys hp hin))
  rw [mergesInTurn, mem_projectionReadyHeads_write h hp he hst hw, conflictsInTurn,
    earlierHeads_new h hp he hst hw, hget, anchoredFold_congr hsame]
  simp only [hnot, false_and, false_or, true_and]
  rfl

end

end

/-! ## The author's own write -/

/-- The basis that a write takes as its parents is complete, and the write does not conflict
with the ready heads that it leaves beside itself. -/
def writeFits [FoldOrder] (st : NodeState) (content : Int) : Prop :=
  (∀ b ∈ st.projectionBasis, isParentClosed st.clock b) ∧
  mergeRoots (anchoredFold (projectionReadyHeads st \ st.projectionBasis) st.clock
    st.finalizedProllyRootHash).1 content st.finalizedProllyRootHash ≠ conflictHash

instance [FoldOrder] (st : NodeState) (content : Int) : Decidable (writeFits st content) :=
  inferInstanceAs (Decidable (_ ∧ _))

/-- A write stands in its author's basis, and not among the parked heads, exactly when it fits
the author's state before. -/
theorem own_write_kept_iff {s : State} (h : Reachable Step init s) (o : FoldOrder) {p : PeerID}
    {content : Int} {s' : State} (hstep : @step o s (.write p content) = some s') :
    let e := writtenEvent (s.nodes.get p) p content
    (e.eventId ∈ (s'.nodes.get p).projectionBasis ∧
      e.eventId ∉ (s'.nodes.get p).parkedConflicts) ↔ @writeFits o (s.nodes.get p) content := by
  intro e
  have hinv := bookedInv_of_reachable h
  simp only [step, Option.ite_none_right_eq_some, Option.some.injEq] at hstep
  obtain ⟨⟨hp, hc, hw⟩, rfl⟩ := hstep
  have he : Emission (s.nodes.get p) p (.write p content) e := .write content hc
  have hst := (settledInv_of_reachable h).settled p hp
  have hok := hinv.node p hp
  have hnode : (@State.emit o s p e).nodes.get p =
      @reconcileResult o (writeBaseResult (s.nodes.get p) p e) := Map.get_put_self _ _ _
  have hkeyed : Keyed (writeBaseResult (s.nodes.get p) p e).clock := by
    have hk := (hinv.emit hp he).keyed hp
    rw [hnode] at hk
    exact hk
  have hheads : (writeBaseResult (s.nodes.get p) p e).headEventIds ⊆
      (writeBaseResult (s.nodes.get p) p e).clock.keys := computeHeadEventIDs_subset _
  have hbasis : e.eventId ∉ (s.nodes.get p).projectionBasis := fun hmem =>
    hinv.ne_emission hp he (hok.basis_subset_keys hmem) rfl
  have hparked : e.eventId ∉ (s.nodes.get p).parkedConflicts := fun hmem =>
    hinv.ne_emission hp he (hok.parked_subset_keys hmem) rfl
  rw [hnode]
  exact (mem_basis_projection_iff hkeyed hheads hbasis hparked).trans
    (mergesInTurn_new hinv hp he hst hw)

theorem own_write_kept_iff_on_relay :
    @writeFits ascendingFolds ((runOutcome (relayRun.take 3)).2.nodes.get 2) 13 ∧
    (⟨2, 1, 3⟩ : EventID) ∈ (relayState.nodes.get 2).projectionBasis := by
  have hfits : @writeFits ascendingFolds ((runOutcome (relayRun.take 3)).2.nodes.get 2) 13 := by
    decide +kernel
  have hstep : @step ascendingFolds (runOutcome (relayRun.take 3)).2 (.write 2 13) =
      some relayState := by decide +kernel
  have hrun : Run Step init (runOutcome (relayRun.take 3)).1 (runOutcome (relayRun.take 3)).2 :=
    run_runOutcome (by decide +kernel)
  exact ⟨hfits, ((own_write_kept_iff ⟨_, hrun⟩ ascendingFolds hstep).mpr hfits).1⟩

/-- Peer 1, with the write of peer 2 parked against its own, writes again. -/
def overtakenRun : List Action := conflictRun ++ [.write 1 13]

def overtakenState : State := (runOutcome overtakenRun).2

theorem overtakenRun_steps :
    @step ascendingFolds conflictState (.write 1 13) = some overtakenState := by decide +kernel

/-- The parked write of peer 2 comes into the view of peer 1, whose new write is parked. -/
theorem own_write_parked : Reachable Step init conflictState ∧
    @step ascendingFolds conflictState (.write 1 13) = some overtakenState ∧
    (writtenEvent (conflictState.nodes.get 1) 1 13).eventId ∈
      (overtakenState.nodes.get 1).parkedConflicts ∧
    (writtenEvent (conflictState.nodes.get 1) 1 13).eventId ∉
      (overtakenState.nodes.get 1).projectionBasis ∧
    (conflictState.nodes.get 1).tentativeProllyRootHash = 11 ∧
    (overtakenState.nodes.get 1).tentativeProllyRootHash = 14 ∧
    ¬@writeFits ascendingFolds (conflictState.nodes.get 1) 13 :=
  ⟨⟨_, conflictRun_runs⟩, overtakenRun_steps, by decide +kernel, by decide +kernel,
    by decide +kernel, by decide +kernel, by decide +kernel⟩

/-! ## Parked heads along a step -/

section

variable [FoldOrder]

/-- The peers' states with the input of an action applied, but not projected yet. Actions that
change nothing a projection reads leave them as they are. -/
def unprojected (s : State) : Action → Map PeerID NodeState
  | .write p content => s.nodes.put p (writeBaseResult (s.nodes.get p) p
      (writtenEvent (s.nodes.get p) p content))
  | .resolveConflict p parked content => s.nodes.put p (writeBaseResult (s.nodes.get p) p
      (resolutionEvent (s.nodes.get p) p parked content))
  | .resolveFinalizedConflict p cid content => s.nodes.put p (writeBaseResult (s.nodes.get p) p
      (finalizedResolutionEvent (s.nodes.get p) p cid content))
  | .receive p e => s.nodes.put p (addToClock (s.nodes.get p) p e
      (observe (s.nodes.get p).hlcClock e.hlc (s.nodes.get p).localWall p))
  | .chunksReady p id => s.nodes.put p
      { s.nodes.get p with chunksReady := (s.nodes.get p).chunksReady ∪ {id} }
  | .finalize p =>
    let st := s.nodes.get p
    let next := nextFinalizationEventID st
    s.nodes.put p (if next ∈ subsumedEvents st.clock
      then hardenEvent st st.finalizedCommitId next (st.clock.get next) else replayNextEvent st)
  | .gc p id => s.nodes.put p (gcBaseResult (s.nodes.get p) p id)
  | .syncFinalized p q => s.nodes.put p (syncBaseResult (s.nodes.get p) (s.nodes.get q))
  | .reconcile _ | .tick _ | .heartbeat _ _ | .evict _ _ | .partition _ _ | .heal _ _ => s.nodes

/-- `st'` is `st` with an input applied, giving `u`, and then projected. -/
structure ProjectedFrom (st u st' : NodeState) : Prop where
  before : u.parkedConflicts = st.parkedConflicts
  parked : st'.parkedConflicts = (computeTentativeProjection u).2.1
  heads : st'.headEventIds = u.headEventIds
  clock : st'.clock = u.clock
  finalized : st'.finalizedEvents = u.finalizedEvents
  root : st'.finalizedProllyRootHash = u.finalizedProllyRootHash

theorem ProjectedFrom.of_settled {p : PeerID} {st : NodeState} (h : Settled p st) :
    ProjectedFrom st st st := ⟨rfl, by rw [h.projected], rfl, rfl, rfl, rfl⟩

theorem ProjectedFrom.of_reconcile {st u : NodeState}
    (h : u.parkedConflicts = st.parkedConflicts) : ProjectedFrom st u (reconcileResult u) :=
  ⟨h, rfl, rfl, rfl, rfl, rfl⟩

theorem unprojected_emission {s : State} {p : PeerID} {a : Action} {e : Event}
    (he : Emission (s.nodes.get p) p a e) :
    unprojected s a = s.nodes.put p (writeBaseResult (s.nodes.get p) p e) := by
  cases he <;> rfl

theorem projectedFrom_of_effect {s s' : State} {a : Action} (h : SettledInv s)
    (heff : Effect s a s') {p : PeerID} (hp : p ∈ peers) :
    ProjectedFrom (s.nodes.get p) ((unprojected s a).get p) (s'.nodes.get p) := by
  have hst := ProjectedFrom.of_settled (h.settled p hp)
  have hput : ∀ q u st', unprojected s a = s.nodes.put q u → s'.nodes = s.nodes.put q st' →
      ProjectedFrom (s.nodes.get q) u st' →
      ProjectedFrom (s.nodes.get p) ((unprojected s a).get p) (s'.nodes.get p) := by
    intro q u st' hu hnodes hfrom
    rw [hu, hnodes, Map.get_put, Map.get_put]
    split
    · next hpq => exact hpq ▸ hfrom
    · exact hst
  -- the step leaves all that a projection reads or writes
  have hkeep : ∀ q st', unprojected s a = s.nodes → s'.nodes = s.nodes.put q st' →
      (q ∈ peers → ProjectedFrom (s.nodes.get q) (s.nodes.get q) st') →
      ProjectedFrom (s.nodes.get p) ((unprojected s a).get p) (s'.nodes.get p) := by
    intro q st' hu hnodes hfrom
    rw [hu, hnodes, Map.get_put]
    split
    · next hpq => exact hpq ▸ hfrom (hpq ▸ hp)
    · exact hst
  cases heff with
  | emit q e _ _ he => exact hput q _ _ (unprojected_emission he) rfl (.of_reconcile rfl)
  | receive q e _ _ => exact hput q _ _ rfl rfl (.of_reconcile rfl)
  | touch q st' hq ht =>
    cases ht with
    | chunksReady id _ _ => exact hput q _ _ rfl rfl (.of_reconcile rfl)
    | reconcile _ => exact hkeep q _ rfl rfl fun _ => .of_reconcile rfl
    | tick _ =>
      have hsame := ProjectedFrom.of_settled (h.settled q hq)
      exact hkeep q _ rfl rfl fun _ => ⟨rfl, hsame.parked, rfl, rfl, rfl, rfl⟩
    | evict r _ _ _ _ =>
      have hsame := ProjectedFrom.of_settled (h.settled q hq)
      exact hkeep q _ rfl rfl fun _ => ⟨rfl, hsame.parked, rfl, rfl, rfl, rfl⟩
  | heartbeat q r hq _ _ _ =>
    have hsame := ProjectedFrom.of_settled (h.settled q hq)
    exact hkeep q _ rfl rfl fun _ => ⟨rfl, hsame.parked, rfl, rfl, rfl, rfl⟩
  | finalize q _ he =>
    rcases finalizeResult_cases _ he with ⟨hsub, heq⟩ | ⟨hsub, _, heq⟩
    · refine hput q _ _ (congrArg (s.nodes.put q) (if_pos hsub))
        (congrArg (s.nodes.put q) heq) (.of_reconcile rfl)
    · refine hput q _ _ (congrArg (s.nodes.put q) (if_neg hsub))
        (congrArg (s.nodes.put q) heq) (.of_reconcile ?_)
      rw [replayNextEvent_frame]
  | gc q id _ _ => exact hput q _ _ rfl rfl (.of_reconcile rfl)
  | sync q r _ _ _ =>
    have hparked : (syncBaseResult (s.nodes.get q) (s.nodes.get r)).parkedConflicts =
        (s.nodes.get q).parkedConflicts := by
      obtain ⟨clock, ready, heads, heq⟩ :=
        (syncBaseResult_reworked (s.nodes.get q) (s.nodes.get r)).1.frame
      rw [heq, syncFinalizedCoreResult_frame]
    refine hput q _ _ rfl rfl ?_
    rw [syncResult, applySyncFinalizedResult_eq_reconcile]
    exact ⟨hparked, rfl, rfl, rfl, rfl, rfl⟩
  | network conn hchange => cases hchange <;> exact hst

theorem writeEnabled_of_step {s s' : State} {p : PeerID} {a : Action} {e : Event}
    (he : Emission (s.nodes.get p) p a e) (hs : step s a = some s') :
    writeEnabled (s.nodes.get p) := by
  cases he <;> simp only [step, Option.ite_none_right_eq_some] at hs
  · exact hs.1.2.2
  · exact hs.1.2.2.2.2
  · exact hs.1.2.2.2

end

/-- A parked head that stays a tentative head stays parked in a step exactly when it does not
merge in its turn once the input of the step is applied. For an emission of its own peer that
turn can be read off the state before: it comes after the ready heads before it that the new
event does not take as parents. -/
theorem parked_head_persists_iff {s : State} (h : Reachable Step init s) (o : FoldOrder)
    {a : Action} {s' : State} (hstep : @step o s a = some s') {p : PeerID} (hp : p ∈ peers)
    {k : EventID} (hk : k ∈ (s.nodes.get p).parkedConflicts) :
    ((k ∈ (s'.nodes.get p).parkedConflicts ∨ k ∈ (s'.nodes.get p).finalizedEvents.keys ∨
      k ∉ (s'.nodes.get p).headEventIds) ↔
        ¬@mergesInTurn o ((@unprojected o s a).get p) k) ∧
    ∀ e, Emission (s.nodes.get p) p a e → k ∉ e.parentEventIds →
      (@mergesInTurn o ((@unprojected o s a).get p) k ↔
        k ∈ @projectionReadyHeads o (s.nodes.get p) ∧ ¬@conflictsInTurn o (s.nodes.get p)
          (@projectionReadyHeads o (s.nodes.get p) \ e.parentEventIds) k) := by
  have hinv := bookedInv_of_reachable h
  have hset := settledInv_of_reachable h
  have heff := effect_of_step hstep
  have hfrom := projectedFrom_of_effect hset heff hp
  have hinv' := ledgerInv_effect hinv.toLedgerInv heff
  refine ⟨?_, fun e he hpar => ?_⟩
  · have hkeyed : Keyed ((unprojected s a).get p).clock := hfrom.clock ▸ hinv'.keyed hp
    have hheads : ((unprojected s a).get p).headEventIds ⊆
        ((unprojected s a).get p).clock.keys := by
      rw [← hfrom.heads, ← hfrom.clock, (hinv'.node p hp).heads]
      exact computeHeadEventIDs_subset _
    rw [← mem_parked_projection_iff hkeyed hheads (hfrom.before ▸ hk), hfrom.parked, hfrom.heads,
      hfrom.finalized, tentativeHeadEventIDs, Finset.mem_sdiff, not_and_not_right,
      imp_iff_or_not]
  · rw [unprojected_emission he, Map.get_put_self]
    exact mergesInTurn_old hinv hp he (hset.settled p hp) (writeEnabled_of_step he hstep)
      ((hinv.node p hp).parked_subset_keys hk) hpar

/-- Peer 1 receives a write of peer 3, which competes with nothing it holds. -/
def bystanderRun : List Action := conflictRun ++ [.write 3 12]

theorem parked_head_persists_iff_on_bystander :
    let s := (runOutcome bystanderRun).2
    let received := Action.receive 1 (writtenEvent (emptyNodeState 3) 3 12)
    ∃ s', @step ascendingFolds s received = some s' ∧
      (⟨2, 1, 1⟩ : EventID) ∈ (s.nodes.get 1).parkedConflicts ∧
      ((⟨2, 1, 1⟩ : EventID) ∈ (s'.nodes.get 1).parkedConflicts ∨
        (⟨2, 1, 1⟩ : EventID) ∈ (s'.nodes.get 1).finalizedEvents.keys ∨
        (⟨2, 1, 1⟩ : EventID) ∉ (s'.nodes.get 1).headEventIds) := by
  intro s received
  have hrun : Run Step init (runOutcome bystanderRun).1 s := run_runOutcome (by decide +kernel)
  have hstep : @step ascendingFolds s received =
      some (runOutcome (bystanderRun ++ [received])).2 := by decide +kernel
  have hparked : (⟨2, 1, 1⟩ : EventID) ∈ (s.nodes.get 1).parkedConflicts := by decide +kernel
  exact ⟨_, hstep, hparked, (parked_head_persists_iff ⟨_, hrun⟩ ascendingFolds hstep (by decide)
    hparked).1.mpr (by decide +kernel)⟩

/-- The head that peer 1 had parked is not parked after its next write, although it is neither
resolved nor finalized and still a head. -/
theorem parked_head_released : Reachable Step init conflictState ∧
    @step ascendingFolds conflictState (.write 1 13) = some overtakenState ∧
    (⟨2, 1, 1⟩ : EventID) ∈ (conflictState.nodes.get 1).parkedConflicts ∧
    (writtenEvent (conflictState.nodes.get 1) 1 13).resolvedParkedEventId = none ∧
    (⟨2, 1, 1⟩ : EventID) ∉ (overtakenState.nodes.get 1).parkedConflicts ∧
    (⟨2, 1, 1⟩ : EventID) ∉ (overtakenState.nodes.get 1).finalizedEvents.keys ∧
    (⟨2, 1, 1⟩ : EventID) ∈ (overtakenState.nodes.get 1).headEventIds :=
  ⟨⟨_, conflictRun_runs⟩, overtakenRun_steps, by decide +kernel, rfl, by decide +kernel,
    by decide +kernel, by decide +kernel⟩

end DoltSwarm.Protocol
