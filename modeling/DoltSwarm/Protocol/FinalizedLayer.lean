import DoltSwarm.Protocol.CommitGraph
import DoltSwarm.Protocol.Ledger

/-!
# The finalized layer

Every peer's parents map is faithful and knows its own tip, every descriptor repeats the
root of the event it names, and every finalized conflict is the record its key spells out.
-/

namespace DoltSwarm.Protocol

open Lib

set_option autoImplicit false

/-- Equality of the seven finalized fields two states are compared on. -/
def sameFinalizedState (a b : NodeState) : Prop :=
  a.finalizedCommitId = b.finalizedCommitId ∧
  a.finalizedProllyRootHash = b.finalizedProllyRootHash ∧
  a.finalizedEvents = b.finalizedEvents ∧
  a.finalizedCheckpointEvents = b.finalizedCheckpointEvents ∧
  a.finalizedCommitParents = b.finalizedCommitParents ∧
  a.finalizedConflicts = b.finalizedConflicts ∧
  a.resolvedFinalizedConflictIds = b.resolvedFinalizedConflictIds

/-- The descriptors name events of `L` and carry their roots. -/
def DescribedBy (L : Finset Event) (checkpoint : FinalizedCheckpoint) : Prop :=
  ∀ id r, checkpoint.lookup id = some r → ∃ e ∈ L, e.eventId = id ∧ e.prollyRootHash = r

def recordOf (k : FinalizedConflictID) : FinalizedConflict := ⟨k, k.ours, k.theirs, k.common⟩

def SpelledOut (conflicts : ConflictMap) : Prop :=
  ∀ k v, conflicts.lookup k = some v → v = recordOf k

structure FinalizedOk (L : Finset Event) (st : NodeState) : Prop where
  root_eq : st.finalizedProllyRootHash = st.finalizedCommitId.root
  empty_mem : emptyFinalizedCommitId ∈ st.finalizedCommitParents.keys
  tip_mem : st.finalizedCommitId ∈ st.finalizedCommitParents.keys
  lineage : Faithful st.finalizedCommitParents
  described : ∀ c, DescribedBy L (descriptorAt st.finalizedCheckpointEvents c)
  spelledOut : SpelledOut st.finalizedConflicts
  unresolved : Disjoint st.finalizedConflicts.keys st.resolvedFinalizedConflictIds

/-- The invariant of the whole swarm. -/
structure SwarmInv (s : State) : Prop extends LedgerInv s where
  finalized : ∀ p ∈ peers, FinalizedOk s.ledger (s.nodes.get p)
  symmetric : ∀ p q, (p, q) ∈ s.connected → (q, p) ∈ s.connected

/-! ## Descriptors and conflict records -/

theorem DescribedBy.mono {L L' : Finset Event} {d : FinalizedCheckpoint} (h : DescribedBy L d)
    (hL : L ⊆ L') : DescribedBy L' d := by
  intro id r hr
  obtain ⟨e, he, hid, hroot⟩ := h id r hr
  exact ⟨e, hL he, hid, hroot⟩

theorem describedBy_empty (L : Finset Event) : DescribedBy L ∅ := by
  intro id r h
  simp at h

theorem DescribedBy.put {L : Finset Event} {d : FinalizedCheckpoint} (h : DescribedBy L d)
    {e : Event} (he : e ∈ L) : DescribedBy L (d.put e.eventId e.prollyRootHash) := by
  intro id r hr
  rw [Map.lookup_put] at hr
  split at hr
  · rename_i heq
    exact ⟨e, he, heq.symm, Option.some.inj hr⟩
  · exact h id r hr

theorem DescribedBy.merge {L : Finset Event} {d d' : FinalizedCheckpoint} (h : DescribedBy L d)
    (h' : DescribedBy L d') : DescribedBy L (mergeFinalizedEventMap d d') := by
  intro id r hr
  rcases Map.lookup_firstWins_some hr with hr | hr
  · exact h id r hr
  · exact h' id r hr

theorem DescribedBy.agree {s : State} (hs : LedgerInv s) {d d' : FinalizedCheckpoint}
    (h : DescribedBy s.ledger d) (h' : DescribedBy s.ledger d') : Map.Agree d d' := by
  intro id r r' hr hr'
  obtain ⟨e, he, hid, rfl⟩ := h id r hr
  obtain ⟨e', he', hid', rfl⟩ := h' id r' hr'
  rw [hs.unique e he e' he' (hid.trans hid'.symm)]

theorem descriptorAt_put (m : CheckpointMap) (c c' : FinalizedCommitID)
    (d : FinalizedCheckpoint) :
    descriptorAt (m.put c d) c' = if c' = c then d else descriptorAt m c' := by
  simp only [descriptorAt, Map.keys_put, Finset.mem_insert, Map.get_put]
  by_cases h : c' = c <;> simp [h]

theorem mem_descriptorAt_put (m : CheckpointMap) (c c' : FinalizedCommitID) (id id' : EventID)
    (r : ProllyRootHash) :
    id' ∈ (descriptorAt (m.put c ((descriptorAt m c).put id r)) c').keys ↔
      (c = c' ∧ id = id') ∨ id' ∈ (descriptorAt m c').keys := by
  rw [descriptorAt_put]
  by_cases hc : c' = c
  · subst hc
    simp [eq_comm]
  · simp [hc, Ne.symm hc]

theorem descriptorAt_merge (m₁ m₂ : CheckpointMap) (c : FinalizedCommitID) :
    descriptorAt (mergeFinalizedCheckpointMap m₁ m₂) c =
      mergeFinalizedEventMap (descriptorAt m₁ c) (descriptorAt m₂ c) := by
  by_cases h : c ∈ m₁.keys ∪ m₂.keys
  · rw [descriptorAt, mergeFinalizedCheckpointMap, Map.keys_mapBy, if_pos h,
      Map.get_mapBy_of_mem _ h]
  · have h₁ : c ∉ m₁.keys := fun hc => h (Finset.mem_union_left _ hc)
    have h₂ : c ∉ m₂.keys := fun hc => h (Finset.mem_union_right _ hc)
    rw [descriptorAt, mergeFinalizedCheckpointMap, Map.keys_mapBy, if_neg h, descriptorAt,
      descriptorAt, if_neg h₁, if_neg h₂]
    apply Map.ext
    intro k
    simp [mergeFinalizedEventMap, Map.lookup_firstWins]

theorem SpelledOut.firstWins {m m' : ConflictMap} (h : SpelledOut m) (h' : SpelledOut m') :
    SpelledOut (mergeFinalizedConflictMap m m') := by
  intro k v hv
  rcases Map.lookup_firstWins_some hv with hv | hv
  · exact h k v hv
  · exact h' k v hv

theorem SpelledOut.drop {m : ConflictMap} (h : SpelledOut m) (ids : Finset FinalizedConflictID) :
    SpelledOut (dropFinalizedConflicts m ids) :=
  fun k v hv => h k v (Map.subMap_removeAll m ids k v hv)

theorem disjoint_drop (m : ConflictMap) (ids : Finset FinalizedConflictID) :
    Disjoint (dropFinalizedConflicts m ids).keys ids := by
  rw [dropFinalizedConflicts, Map.keys_removeAll]
  exact Finset.sdiff_disjoint

theorem SpelledOut.agree {m m' : ConflictMap} (h : SpelledOut m) (h' : SpelledOut m') :
    Map.Agree m m' := fun k v v' hv hv' => (h k v hv).trans (h' k v' hv').symm

theorem SpelledOut.put {m : ConflictMap} (h : SpelledOut m) (k : FinalizedConflictID) :
    SpelledOut (m.put k (recordOf k)) := by
  intro k' v hv
  rw [Map.lookup_put] at hv
  split at hv
  · rename_i heq
    rw [← Option.some.inj hv, heq]
  · exact h k' v hv

/-! ## Finalization keeps the layer -/

namespace FinalizedOk

variable {L L' : Finset Event} {st st' : NodeState}

theorem mono (h : FinalizedOk L st) (hL : L ⊆ L') : FinalizedOk L' st :=
  ⟨h.root_eq, h.empty_mem, h.tip_mem, h.lineage, fun c => (h.described c).mono hL, h.spelledOut,
    h.unresolved⟩

theorem congr (h : FinalizedOk L st) (htip : st'.finalizedCommitId = st.finalizedCommitId)
    (hroot : st'.finalizedProllyRootHash = st.finalizedProllyRootHash)
    (hpar : st'.finalizedCommitParents = st.finalizedCommitParents)
    (hck : st'.finalizedCheckpointEvents = st.finalizedCheckpointEvents)
    (hcon : st'.finalizedConflicts = st.finalizedConflicts)
    (hres : st'.resolvedFinalizedConflictIds = st.resolvedFinalizedConflictIds) :
    FinalizedOk L st' where
  root_eq := by rw [hroot, htip, h.root_eq]
  empty_mem := hpar ▸ h.empty_mem
  tip_mem := by
    rw [hpar, htip]
    exact h.tip_mem
  lineage := hpar ▸ h.lineage
  described := hck ▸ h.described
  spelledOut := hcon ▸ h.spelledOut
  unresolved := by
    rw [hcon, hres]
    exact h.unresolved

theorem tip_headed (h : FinalizedOk L st) : headed st.finalizedCommitId :=
  (h.lineage.built h.tip_mem).headed_self

theorem hardenEvent (h : FinalizedOk L st) (commit : FinalizedCommitID) {e : Event} (he : e ∈ L) :
    FinalizedOk L (Protocol.hardenEvent st commit e.eventId e) where
  root_eq := h.root_eq
  empty_mem := h.empty_mem
  tip_mem := h.tip_mem
  lineage := h.lineage
  described := by
    intro c
    simp only [Protocol.hardenEvent]
    rw [descriptorAt_put]
    split
    · exact (h.described commit).put he
    · exact h.described c
  spelledOut := h.spelledOut.drop _
  unresolved := disjoint_drop _ _

theorem nextParents_headed (h : FinalizedOk L st) : ∀ p ∈ nextParents st, headed p := by
  intro p hp
  simp only [nextParents] at hp
  split at hp
  · simp at hp
  · rw [Finset.mem_singleton.mp hp]
    exact h.tip_headed

theorem built_next [FoldOrder] (h : FinalizedOk L st) :
    Built (nextFinalizedCommit st) (nextParents st) :=
  built_make _ _ _ h.nextParents_headed

theorem next_ne_empty [FoldOrder] (st : NodeState) :
    nextFinalizedCommit st ≠ emptyFinalizedCommitId := by
  intro heq
  have hkind := congrArg FinalizedCommitID.kind heq
  simp [nextFinalizedCommit, makeFinalizedCheckpointCommitID, finalizedKindCheckpoint,
    emptyFinalizedCommitId, finalizedKindNone] at hkind

theorem next_ne_tip [FoldOrder] (h : FinalizedOk L st) :
    nextFinalizedCommit st ≠ st.finalizedCommitId := by
  intro heq
  by_cases hempty : st.finalizedCommitId = emptyFinalizedCommitId
  · exact next_ne_empty st (heq.trans hempty)
  · have hmem : st.finalizedCommitId ∈ nextParents st := by simp [nextParents, hempty]
    have hlt := h.built_next.shorter hmem
    rw [heq] at hlt
    exact lt_irrefl _ hlt

theorem replayNextEvent_eq [FoldOrder] (h : FinalizedOk L st) :
    Protocol.replayNextEvent st =
      { Protocol.hardenEvent st (nextFinalizedCommit st) (nextFinalizationEventID st)
          (st.clock.get (nextFinalizationEventID st)) with
        finalizedCommitId := nextFinalizedCommit st
        finalizedProllyRootHash := nextFinalizationMergeRoot st
        finalizedCommitParents :=
          st.finalizedCommitParents.put (nextFinalizedCommit st) (nextParents st) } := by
  simp only [Protocol.replayNextEvent, ne_eq, h.next_ne_tip, not_false_eq_true, if_true,
    h.lineage.lineageAddFinalizedCommit_eq h.built_next (next_ne_empty st)]

theorem replayNextEvent [FoldOrder] (h : FinalizedOk L st) (hmem : ∀ id ∈ st.clock.keys,
    st.clock.get id ∈ L ∧ (st.clock.get id).eventId = id) (he : finalizeEnabled st) :
    FinalizedOk L (Protocol.replayNextEvent st) := by
  obtain ⟨heL, hid⟩ := hmem _ (nextFinalizationEventID_mem_keys st he)
  have hharden := h.hardenEvent (nextFinalizedCommit st) heL
  rw [hid] at hharden
  rw [h.replayNextEvent_eq]
  refine ⟨rfl, ?_, ?_, h.lineage.put h.built_next, hharden.described, hharden.spelledOut,
    hharden.unresolved⟩
  · simp only [Map.keys_put]
    exact Finset.mem_insert_of_mem h.empty_mem
  · simp only [Map.keys_put]
    exact Finset.mem_insert_self _ _

theorem finalizeResult [FoldOrder] (h : FinalizedOk L st) (hmem : ∀ id ∈ st.clock.keys,
    st.clock.get id ∈ L ∧ (st.clock.get id).eventId = id) (he : finalizeEnabled st) :
    FinalizedOk L (Protocol.finalizeResult st) := by
  obtain ⟨heL, hid⟩ := hmem _ (nextFinalizationEventID_mem_keys st he)
  rcases finalizeResult_cases st he with ⟨_, heq⟩ | ⟨_, _, heq⟩
  · have hharden := h.hardenEvent st.finalizedCommitId heL
    rw [hid] at hharden
    rw [heq]
    exact hharden.congr rfl rfl rfl rfl rfl rfl
  · rw [heq]
    exact (h.replayNextEvent hmem he).congr rfl rfl rfl rfl rfl rfl

end FinalizedOk

/-! ## SYNC_FINALIZED keeps the layer -/

section

variable [FoldOrder] {L : Finset Event} {stLocal stRemote : NodeState}

omit [FoldOrder] in
theorem mergedParents_faithful (hl : FinalizedOk L stLocal) (hr : FinalizedOk L stRemote) :
    Faithful (mergeSetMap stLocal.finalizedCommitParents stRemote.finalizedCommitParents) :=
  hl.lineage.merge hr.lineage

theorem finalizedOk_syncMetadata (hl : FinalizedOk L stLocal) (hr : FinalizedOk L stRemote)
    {tip : FinalizedCommitID} {root : ProllyRootHash} (hroot : root = tip.root)
    (htip : tip ∈ stLocal.finalizedCommitParents.keys ∪ stRemote.finalizedCommitParents.keys) :
    FinalizedOk L (syncMetadata stLocal stRemote tip root) where
  root_eq := hroot
  empty_mem := by
    simp only [syncMetadata, keys_mergeSetMap]
    exact Finset.mem_union_left _ hl.empty_mem
  tip_mem := by
    simp only [syncMetadata, keys_mergeSetMap]
    exact htip
  lineage := mergedParents_faithful hl hr
  described := by
    intro c
    simp only [syncMetadata]
    rw [descriptorAt_merge]
    exact (hl.described c).merge (hr.described c)
  spelledOut := (hl.spelledOut.firstWins hr.spelledOut).drop _
  unresolved := disjoint_drop _ _

theorem built_effective (hl : FinalizedOk L stLocal) (hr : FinalizedOk L stRemote) :
    Built (effectiveFinalizedCommit stLocal stRemote)
      {stLocal.finalizedCommitId, stRemote.finalizedCommitId} := by
  refine built_make _ _ _ ?_
  intro p hp
  rcases Finset.mem_insert.mp hp with rfl | hp
  · exact hl.tip_headed
  · rw [Finset.mem_singleton.mp hp]
    exact hr.tip_headed

theorem effective_ne_empty (stLocal stRemote : NodeState) :
    effectiveFinalizedCommit stLocal stRemote ≠ emptyFinalizedCommitId := by
  intro heq
  have hkind := congrArg FinalizedCommitID.kind heq
  simp [effectiveFinalizedCommit, makeFinalizedMergeCommitID, finalizedKindMerge,
    emptyFinalizedCommitId, finalizedKindNone] at hkind

/-- The merge commit is recorded under exactly the two tips. -/
theorem syncMergeResult_parents (hl : FinalizedOk L stLocal) (hr : FinalizedOk L stRemote) :
    (syncMergeResult stLocal stRemote).finalizedCommitParents =
      (mergeSetMap stLocal.finalizedCommitParents stRemote.finalizedCommitParents).put
        (effectiveFinalizedCommit stLocal stRemote)
        {stLocal.finalizedCommitId, stRemote.finalizedCommitId} :=
  (mergedParents_faithful hl hr).lineageAddFinalizedCommit_eq (built_effective hl hr)
    (effective_ne_empty stLocal stRemote)

theorem finalizedOk_syncMergeResult (hl : FinalizedOk L stLocal) (hr : FinalizedOk L stRemote) :
    FinalizedOk L (syncMergeResult stLocal stRemote) where
  root_eq := rfl
  empty_mem := by
    rw [syncMergeResult_parents hl hr, Map.keys_put, keys_mergeSetMap]
    exact Finset.mem_insert_of_mem (Finset.mem_union_left _ hl.empty_mem)
  tip_mem := by
    rw [syncMergeResult_parents hl hr, Map.keys_put]
    exact Finset.mem_insert_self _ _
  lineage := by
    rw [syncMergeResult_parents hl hr]
    exact (mergedParents_faithful hl hr).put (built_effective hl hr)
  described := by
    intro c
    simp only [syncMergeResult, syncMetadata]
    rw [descriptorAt_merge]
    exact (hl.described c).merge (hr.described c)
  spelledOut := by
    have hbase := (hl.spelledOut.firstWins hr.spelledOut).drop
      (stLocal.resolvedFinalizedConflictIds ∪ stRemote.resolvedFinalizedConflictIds)
    simp only [syncMergeResult, MergePlan.recordConflict]
    split
    · exact hbase.put (mergePlan stLocal stRemote).conflictId
    · exact hbase
  unresolved := by
    simp only [syncMergeResult, MergePlan.recordConflict]
    split
    · rename_i hnew
      rw [Map.keys_put, Finset.disjoint_insert_left]
      exact ⟨hnew.2, disjoint_drop _ _⟩
    · exact disjoint_drop _ _

theorem finalizedOk_core (hl : FinalizedOk L stLocal) (hr : FinalizedOk L stRemote) :
    FinalizedOk L (syncFinalizedCoreResult stLocal stRemote) := by
  simp only [syncFinalizedCoreResult]
  split
  · exact finalizedOk_syncMetadata hl hr hr.root_eq (Finset.mem_union_right _ hr.tip_mem)
  · exact finalizedOk_syncMetadata hl hr hl.root_eq (Finset.mem_union_left _ hl.tip_mem)
  · exact finalizedOk_syncMergeResult hl hr

theorem syncResult_finalized (p : PeerID) (stLocal stRemote : NodeState) :
    sameFinalizedState (syncResult p stLocal stRemote)
      (syncFinalizedCoreResult stLocal stRemote) := by
  obtain ⟨clock, ready, _, heq⟩ := applySyncFinalizedResult_eq stLocal stRemote
  simp only [syncResult, heq]
  exact ⟨rfl, rfl, rfl, rfl, rfl, rfl, rfl⟩

theorem finalizedOk_sync (hl : FinalizedOk L stLocal) (hr : FinalizedOk L stRemote)
    (p : PeerID) : FinalizedOk L (syncResult p stLocal stRemote) := by
  obtain ⟨htip, hroot, _, hck, hpar, hcon, hres⟩ := syncResult_finalized p stLocal stRemote
  exact (finalizedOk_core hl hr).congr htip hroot hpar hck hcon hres

end

/-! ## The invariant -/

theorem touch_finalized [FoldOrder] {conn : Finset (PeerID × PeerID)} {st st' : NodeState}
    {p : PeerID} {a : Action} (h : Touch conn st p a st') {L : Finset Event}
    (hst : FinalizedOk L st) : FinalizedOk L st' := by
  cases h <;> exact hst.congr rfl rfl rfl rfl rfl rfl

theorem finalized_put {s : State} (h : SwarmInv s) {L : Finset Event} (hL : s.ledger ⊆ L)
    {p : PeerID} {st : NodeState} {nodes : Map PeerID NodeState}
    (hnodes : nodes = s.nodes.put p st) (hst : FinalizedOk L st) :
    ∀ q ∈ peers, FinalizedOk L (nodes.get q) := by
  rw [hnodes]
  apply Map.forall_get_put (P := fun _ (st : NodeState) => FinalizedOk L st)
  · exact fun q hq => (h.finalized q hq).mono hL
  · exact hst

theorem swarmInv_init : SwarmInv init where
  toLedgerInv := ledgerInv_init
  finalized := by
    intro p hp
    have hget : init.nodes.get p = emptyNodeState p := Map.get_mapBy_of_mem _ hp
    rw [hget]
    refine ⟨rfl, by simp [emptyNodeState], by simp [emptyNodeState], ?_, ?_, ?_,
      Finset.disjoint_empty_right _⟩
    · intro c ps hc
      simp only [emptyNodeState, Map.lookup_put] at hc
      split at hc
      · rename_i heq
        rw [← Option.some.inj hc, heq]
        exact built_empty
      · simp at hc
    · intro c
      simpa [emptyNodeState, descriptorAt] using describedBy_empty _
    · intro k v hv
      simp [emptyNodeState] at hv
  symmetric := by
    intro p q h
    simp only [init, allPairs, Finset.mem_filter, Finset.mem_product] at h ⊢
    exact ⟨⟨h.1.2, h.1.1⟩, h.2.symm⟩

theorem networkChange_symmetric {conn conn' : Finset (PeerID × PeerID)} {a : Action}
    (h : NetworkChange conn a conn') (hs : ∀ p q, (p, q) ∈ conn → (q, p) ∈ conn) :
    ∀ p q, (p, q) ∈ conn' → (q, p) ∈ conn' := by
  intro p q hpq
  cases h with
  | partition x y _ _ _ _ =>
    simp only [Finset.mem_sdiff, Finset.mem_insert, Finset.mem_singleton, Prod.mk.injEq] at hpq ⊢
    exact ⟨hs p q hpq.1, fun hor => hpq.2 (hor.symm.imp And.symm And.symm)⟩
  | heal x y _ _ _ _ =>
    simp only [Finset.mem_union, Finset.mem_insert, Finset.mem_singleton, Prod.mk.injEq] at hpq ⊢
    exact hpq.imp (hs p q) fun hor => hor.symm.imp And.symm And.symm

theorem swarmInv_effect [FoldOrder] {s s' : State} {a : Action} (h : SwarmInv s)
    (heff : Effect s a s') : SwarmInv s' := by
  have hledger := ledgerInv_effect h.toLedgerInv heff
  cases heff with
  | emit p e hp hw he =>
    have hL : (s.emit p e).ledger = insert e s.ledger :=
      ledger_emit (by rw [(emission_hlc he).1, h.inbox_keys]; exact hp)
    have hsub : s.ledger ⊆ (s.emit p e).ledger := hL ▸ Finset.subset_insert _ _
    exact ⟨hledger, finalized_put h hsub rfl
      (((h.finalized p hp).mono hsub).congr rfl rfl rfl rfl rfl rfl), h.symmetric⟩
  | receive p e hp he =>
    exact ⟨hledger, finalized_put h (Finset.Subset.refl _) rfl
      ((h.finalized p hp).congr rfl rfl rfl rfl rfl rfl), h.symmetric⟩
  | touch p st hp ht =>
    exact ⟨hledger, finalized_put h (Finset.Subset.refl _) rfl
      (touch_finalized ht (h.finalized p hp)), h.symmetric⟩
  | heartbeat p q hp hq hne hc =>
    have hL := (ledger_heartbeat h.toLedgerInv hp hq).1
    exact ⟨hledger, finalized_put h hL.ge rfl
      (((h.finalized p hp).mono hL.ge).congr rfl rfl rfl rfl rfl rfl), h.symmetric⟩
  | finalize p hp he =>
    exact ⟨hledger, finalized_put h (Finset.Subset.refl _) rfl ((h.finalized p hp).finalizeResult
      (fun _ hid => (h.node p hp).get_mem hid) he), h.symmetric⟩
  | gc p id hp hg =>
    exact ⟨hledger, finalized_put h (Finset.Subset.refl _) rfl
      ((h.finalized p hp).congr rfl rfl rfl rfl rfl rfl), h.symmetric⟩
  | sync p q hp hq he =>
    exact ⟨hledger, finalized_put h (Finset.Subset.refl _) rfl
      (finalizedOk_sync (h.finalized p hp) (h.finalized q hq) p), h.symmetric⟩
  | network conn hn =>
    exact ⟨hledger, h.finalized, networkChange_symmetric hn h.symmetric⟩

theorem swarmInv_of_reachable {s : State} (h : Reachable Step init s) : SwarmInv s :=
  invariant_of_effect swarmInv_init
    (fun o _ _ _ hI heff => @swarmInv_effect o _ _ _ hI heff) h

/-- Only finalization and SYNC_FINALIZED change what a peer has finalized. -/
theorem finalized_effect [FoldOrder] {s s' : State} {a : Action} (heff : Effect s a s')
    (q : PeerID) :
    sameFinalizedState (s'.nodes.get q) (s.nodes.get q) ∨
    (a = .finalize q ∧ finalizeEnabled (s.nodes.get q) ∧
      s'.nodes.get q = finalizeResult (s.nodes.get q)) ∨
    ∃ r ∈ peers, a = .syncFinalized q r ∧
      sameFinalizedState (s'.nodes.get q)
        (syncFinalizedCoreResult (s.nodes.get q) (s.nodes.get r)) := by
  -- a step writes the state of one peer; every other peer keeps its own
  have hkeep : ∀ p st, sameFinalizedState st (s.nodes.get p) →
      sameFinalizedState ((s.nodes.put p st).get q) (s.nodes.get q) := by
    intro p st hst
    apply Map.rel_get_put (R := fun st st' : NodeState => sameFinalizedState st' st)
    · exact fun st => ⟨rfl, rfl, rfl, rfl, rfl, rfl, rfl⟩
    · exact hst
  cases heff with
  | emit p e _ _ _ => exact Or.inl (hkeep p _ ⟨rfl, rfl, rfl, rfl, rfl, rfl, rfl⟩)
  | receive p e _ _ => exact Or.inl (hkeep p _ ⟨rfl, rfl, rfl, rfl, rfl, rfl, rfl⟩)
  | touch p st _ ht => cases ht <;> exact Or.inl (hkeep p _ ⟨rfl, rfl, rfl, rfl, rfl, rfl, rfl⟩)
  | heartbeat p r _ _ _ _ => exact Or.inl (hkeep p _ ⟨rfl, rfl, rfl, rfl, rfl, rfl, rfl⟩)
  | gc p id _ _ => exact Or.inl (hkeep p _ ⟨rfl, rfl, rfl, rfl, rfl, rfl, rfl⟩)
  | network conn _ => exact Or.inl ⟨rfl, rfl, rfl, rfl, rfl, rfl, rfl⟩
  | finalize p _ he =>
    simp only [State.setNode, Map.get_put]
    split
    · rename_i hqp
      subst hqp
      exact Or.inr (Or.inl ⟨rfl, he, rfl⟩)
    · exact Or.inl ⟨rfl, rfl, rfl, rfl, rfl, rfl, rfl⟩
  | sync p r _ hr _ =>
    simp only [State.setNode, Map.get_put]
    split
    · rename_i hqp
      subst hqp
      exact Or.inr (Or.inr ⟨r, hr, rfl, syncResult_finalized q _ _⟩)
    · exact Or.inl ⟨rfl, rfl, rfl, rfl, rfl, rfl, rfl⟩

end DoltSwarm.Protocol
