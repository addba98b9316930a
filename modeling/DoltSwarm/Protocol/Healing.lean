import DoltSwarm.Lib.Maximals
import DoltSwarm.Protocol.LowestAncestor
import DoltSwarm.Protocol.RingSync

/-!
# Healing after a partition

Peers that finalized apart reconcile by syncs, and in which order is up to them. Whatever results
of syncs are synced with one another, both directions come to one finalized state, and nothing that
any of the peers involved had finalized is lost. How far a component is from agreement is measured
by the maximal tips in it: one sync adds one at most, and a merge of two of them takes one away.
-/

namespace DoltSwarm.Protocol

open Lib

set_option autoImplicit false

/-! ## Syncs of syncs -/

section

variable {s : State} {a b c : NodeState}

theorem sameFinalizedState_syncMetadata (hs : LedgerInv s) (o o' : FoldOrder)
    (ha : FinalizedOk s.ledger a) (hb : FinalizedOk s.ledger b) (tip : FinalizedCommitID)
    (root : ProllyRootHash) :
    sameFinalizedState (@syncMetadata o a b tip root) (@syncMetadata o' b a tip root) := by
  have hck := mergeFinalizedCheckpointMap_comm hs ha.described hb.described
  have hpar := mergeSetMap_comm a.finalizedCommitParents b.finalizedCommitParents
  have hres := Finset.union_comm a.resolvedFinalizedConflictIds b.resolvedFinalizedConflictIds
  have hcon : mergeFinalizedConflictMap a.finalizedConflicts b.finalizedConflicts =
      mergeFinalizedConflictMap b.finalizedConflicts a.finalizedConflicts :=
    Map.firstWins_comm (ha.spelledOut.agree hb.spelledOut)
  have hdescribed : ∀ c, DescribedBy s.ledger (descriptorAt (mergeFinalizedCheckpointMap
      a.finalizedCheckpointEvents b.finalizedCheckpointEvents) c) := by
    intro c
    rw [descriptorAt_merge]
    exact (ha.described c).merge (hb.described c)
  refine ⟨rfl, rfl, ?_, hck, hpar, ?_, hres⟩
  · refine (derivedFinalizedEventMap_order hs o o' hdescribed tip _).trans ?_
    simp only [syncMetadata, hck, hpar]
  · simp only [syncMetadata, hcon, hres]

/-- It does not matter which of two peers pulls from the other. -/
theorem sameFinalizedState_core (hs : LedgerInv s) (o o' : FoldOrder)
    (ha : FinalizedOk s.ledger a) (hb : FinalizedOk s.ledger b) :
    sameFinalizedState (@syncFinalizedCoreResult o a b) (@syncFinalizedCoreResult o' b a) := by
  have hmerged := ha.lineage.merge hb.lineage
  have hmerged' := hb.lineage.merge ha.lineage
  have hcomm := mergeSetMap_comm b.finalizedCommitParents a.finalizedCommitParents
  cases hmode : syncMode a b with
  | adopt =>
    have hancestor := syncMode_eq_adopt hmode
    have hmode' : syncMode b a = .noop := by
      refine syncMode_of_descendant hmerged' ?_
      rw [hcomm]
      exact hancestor
    simp only [syncFinalizedCoreResult, hmode, hmode']
    exact sameFinalizedState_syncMetadata hs o o' ha hb _ _
  | noop =>
    have hancestor := syncMode_eq_noop hmode
    by_cases htip : a.finalizedCommitId = b.finalizedCommitId
    · have hmode' : syncMode b a = .noop := by simp [syncMode, htip]
      have hroot : a.finalizedProllyRootHash = b.finalizedProllyRootHash := by
        rw [ha.root_eq, hb.root_eq, htip]
      simp only [syncFinalizedCoreResult, hmode, hmode', htip, hroot]
      exact sameFinalizedState_syncMetadata hs o o' ha hb _ _
    · have hmode' : syncMode b a = .adopt := by
        refine syncMode_of_ancestor hmerged' (Ne.symm htip) ?_
        rw [hcomm]
        exact hancestor
      simp only [syncFinalizedCoreResult, hmode, hmode']
      exact sameFinalizedState_syncMetadata hs o o' ha hb _ _
  | merge =>
    simp only [syncFinalizedCoreResult, hmode, syncMode_merge_symm hmode]
    exact syncMergeResult_comm hs o o' ha hb (syncMode_eq_merge_iff.mp hmode).1

/-- Nothing finalized at `a` is missing at `b`: its commits are on record under `b`'s tip with the
events they finalized, and its conflicts are open or resolved. -/
structure Preserved (a b : NodeState) : Prop where
  tip : ancestorThrough b.finalizedCommitParents a.finalizedCommitId b.finalizedCommitId
  parents : a.finalizedCommitParents.keys ⊆ b.finalizedCommitParents.keys
  descriptors : ∀ c, Map.SubMap (descriptorAt a.finalizedCheckpointEvents c)
    (descriptorAt b.finalizedCheckpointEvents c)
  conflicts : a.finalizedConflicts.keys ⊆
    b.finalizedConflicts.keys ∪ b.resolvedFinalizedConflictIds
  resolved : a.resolvedFinalizedConflictIds ⊆ b.resolvedFinalizedConflictIds

theorem Preserved.refl (a : NodeState) : Preserved a a :=
  ⟨Or.inr .refl, Finset.Subset.refl _, fun _ => Map.SubMap.refl _, Finset.subset_union_left,
    Finset.Subset.refl _⟩

theorem Preserved.trans {L : Finset Event} (hab : Preserved a b) (hbc : Preserved b c)
    (hb : FinalizedOk L b) (hc : FinalizedOk L c) : Preserved a c where
  tip := hb.lineage.ancestorThrough_extend hc.lineage hbc.parents hab.tip hbc.tip
  parents := hab.parents.trans hbc.parents
  descriptors := fun c => (hab.descriptors c).trans (hbc.descriptors c)
  conflicts := by
    intro k hk
    rcases Finset.mem_union.mp (hab.conflicts hk) with hopen | hresolved
    · exact hbc.conflicts hopen
    · exact Finset.mem_union_right _ (hbc.resolved hresolved)
  resolved := hab.resolved.trans hbc.resolved

theorem preserved_of_below (h : Below a.synced b.synced) : Preserved a b :=
  ⟨path_of_mem_lineageAncestors h.tip, h.parents, h.descriptors, h.conflicts, h.resolved⟩

theorem applySync_finalized [FoldOrder] (a b : NodeState) :
    sameFinalizedState (applySyncFinalizedResult a b) (syncFinalizedCoreResult a b) := by
  obtain ⟨clock, ready, _, heq⟩ := applySyncFinalizedResult_eq a b
  rw [heq]
  exact ⟨rfl, rfl, rfl, rfl, rfl, rfl, rfl⟩

theorem finalizedOk_applySync [FoldOrder] {L : Finset Event} (ha : FinalizedOk L a)
    (hb : FinalizedOk L b) : FinalizedOk L (applySyncFinalizedResult a b) := by
  obtain ⟨htip, hroot, _, hck, hpar, hcon, hres⟩ := applySync_finalized a b
  exact (finalizedOk_core ha hb).congr htip hroot hpar hck hcon hres

theorem preserved_applySync (hs : LedgerInv s) (o : FoldOrder) (ha : FinalizedOk s.ledger a)
    (hb : FinalizedOk s.ledger b) : Preserved a (@applySyncFinalizedResult o a b) ∧
      Preserved b (@applySyncFinalizedResult o a b) := by
  obtain ⟨htip, hroot, _, hck, hpar, hcon, hres⟩ := @applySync_finalized o a b
  have hsynced : (@applySyncFinalizedResult o a b).synced =
      (@syncFinalizedCoreResult o a b).synced := by
    simp only [NodeState.synced, htip, hroot, hpar, hck, hcon, hres]
  obtain ⟨hba, hbb⟩ := below_core hs o ha hb
  rw [← hsynced] at hba hbb
  exact ⟨preserved_of_below hba, preserved_of_below hbb⟩

end

/-- Results of syncs, made from the states of peers and from other such results. Every sync has an
enumeration order of its own. -/
inductive SyncPlan where
  | peer (p : PeerID)
  | pull (o : FoldOrder) (puller source : SyncPlan)

namespace SyncPlan

def state (s : State) : SyncPlan → NodeState
  | peer p => s.nodes.get p
  | pull o puller source => @applySyncFinalizedResult o (puller.state s) (source.state s)

def inputs : SyncPlan → Finset PeerID
  | peer p => {p}
  | pull _ puller source => puller.inputs ∪ source.inputs

variable {s : State}

theorem finalizedOk_state (h : SwarmInv s) (plan : SyncPlan) (hinputs : plan.inputs ⊆ peers) :
    FinalizedOk s.ledger (plan.state s) := by
  induction plan with
  | peer p => exact h.finalized p (hinputs (Finset.mem_singleton_self p))
  | pull o puller source ihp ihs =>
    obtain ⟨hp, hs⟩ := Finset.union_subset_iff.mp hinputs
    exact @finalizedOk_applySync _ _ o _ (ihp hp) (ihs hs)

theorem preserved_state (h : SwarmInv s) (plan : SyncPlan) (hinputs : plan.inputs ⊆ peers) :
    ∀ p ∈ plan.inputs, Preserved (s.nodes.get p) (plan.state s) := by
  induction plan with
  | peer p =>
    intro q hq
    rw [Finset.mem_singleton.mp hq]
    exact .refl _
  | pull o puller source ihp ihs =>
    obtain ⟨hp, hs⟩ := Finset.union_subset_iff.mp hinputs
    have hokp := puller.finalizedOk_state h hp
    have hoks := source.finalizedOk_state h hs
    have hok := @finalizedOk_applySync _ _ o _ hokp hoks
    obtain ⟨hfromp, hfroms⟩ := preserved_applySync h.toLedgerInv o hokp hoks
    intro q hq
    rcases Finset.mem_union.mp hq with hq | hq
    · exact (ihp hp q hq).trans hfromp hokp hok
    · exact (ihs hs q hq).trans hfroms hoks hok

end SyncPlan

/-- However syncs were nested to come to two states, a sync of one from the other and one the other
way around lead to the same finalized state, under which everything lies that the peers they were
made from had finalized. -/
theorem nested_syncs_reconcile {s : State} (h : Reachable Step init s) (left right : SyncPlan)
    (hleft : left.inputs ⊆ peers) (hright : right.inputs ⊆ peers) (o o' : FoldOrder) :
    let reconciled := (SyncPlan.pull o left right).state s
    sameFinalizedState reconciled ((SyncPlan.pull o' right left).state s) ∧
    ∀ p ∈ left.inputs ∪ right.inputs, Preserved (s.nodes.get p) reconciled := by
  have hinv := swarmInv_of_reachable h
  have hl := left.finalizedOk_state hinv hleft
  have hr := right.finalizedOk_state hinv hright
  constructor
  · have hcore := sameFinalizedState_core hinv.toLedgerInv o o' hl hr
    have hres := @applySync_finalized o (left.state s) (right.state s)
    have hres' := @applySync_finalized o' (right.state s) (left.state s)
    simp only [sameFinalizedState] at hcore hres hres' ⊢
    simp only [SyncPlan.state, hres, hres', hcore, and_self]
  · exact SyncPlan.preserved_state hinv (.pull o left right)
      (Finset.union_subset hleft hright)

/-- Peer 1 pulls from peer 2 and then from peer 3. -/
def twiceFromPeers : SyncPlan :=
  .pull ascendingFolds (.pull ascendingFolds (.peer 1) (.peer 2)) (.peer 3)

/-- Peer 1 pulls from peer 2, which has pulled from peer 3. -/
def throughSecondPeer : SyncPlan :=
  .pull ascendingFolds (.peer 1) (.pull ascendingFolds (.peer 2) (.peer 3))

theorem nested_syncs_reconcile_on_ring :
    (twiceFromPeers.state ringState).finalizedCommitId ≠
      (throughSecondPeer.state ringState).finalizedCommitId ∧
    sameFinalizedState
      ((SyncPlan.pull ascendingFolds twiceFromPeers throughSecondPeer).state ringState)
      ((SyncPlan.pull ascendingFolds throughSecondPeer twiceFromPeers).state ringState) := by
  refine ⟨by decide +kernel, ?_⟩
  exact (nested_syncs_reconcile ⟨_, ringRun_runs⟩ twiceFromPeers throughSecondPeer (by decide)
    (by decide) ascendingFolds ascendingFolds).1

/-! ## The frontier of finalized tips -/

/-- The tips with no other tip of the set above them. -/
def finalizedTipFrontier (candidateTips : Finset FinalizedCommitID) (parentsMap : ParentsMap) :
    Finset FinalizedCommitID :=
  candidateTips.filter fun tip =>
    ¬∃ other ∈ candidateTips, other ≠ tip ∧ finalizedCommitIsAncestor tip other parentsMap

def finalizedDescendsFromAll (commit : FinalizedCommitID)
    (requiredAncestors : Finset FinalizedCommitID) (parentsMap : ParentsMap) : Prop :=
  ∀ ancestor ∈ requiredAncestors, ancestor ∈ lineageAncestors parentsMap commit

/-- The peers that `seed` is connected with, directly or through others. -/
def connectedComponent (conn : Finset (PeerID × PeerID)) (seed : PeerID) : Finset PeerID :=
  (fun acc => acc ∪ peers.filter fun q => ∃ p ∈ acc, p = q ∨ (p, q) ∈ conn)^[peers.card] {seed}

/-- All parents maps of the peers of `ps` in one, taken in the order of `e`. -/
def mergedFinalizedParentsFor (e : Enumeration PeerID) (peerStates : Map PeerID NodeState)
    (ps : Finset PeerID) : ParentsMap :=
  (e.list ps).foldl (fun acc p => mergeSetMap acc (peerStates.get p).finalizedCommitParents)
    ((∅ : ParentsMap).put emptyFinalizedCommitId ∅)

def finalizedTipSetFor (peerStates : Map PeerID NodeState) (ps : Finset PeerID) :
    Finset FinalizedCommitID := ps.image fun p => (peerStates.get p).finalizedCommitId

def finalizedFrontierFor (e : Enumeration PeerID) (peerStates : Map PeerID NodeState)
    (ps : Finset PeerID) : Finset FinalizedCommitID :=
  finalizedTipFrontier (finalizedTipSetFor peerStates ps)
    (mergedFinalizedParentsFor e peerStates ps)

theorem mem_connectedComponent {conn : Finset (PeerID × PeerID)} {p q : PeerID}
    (hq : q ∈ peers) (hconn : (p, q) ∈ conn) :
    p ∈ connectedComponent conn p ∧ q ∈ connectedComponent conn p := by
  have hsub : ∀ (n : ℕ) (t : Finset PeerID), t ⊆ (fun acc => acc ∪ peers.filter fun q =>
      ∃ p ∈ acc, p = q ∨ (p, q) ∈ conn)^[n] t := by
    intro n
    induction n with
    | zero => exact fun t => Finset.Subset.refl t
    | succ n ih =>
      intro t
      rw [Function.iterate_succ_apply]
      exact Finset.subset_union_left.trans (ih _)
  refine ⟨hsub _ _ (Finset.mem_singleton_self p), ?_⟩
  -- the first round adds `q`, the others keep it
  have hfirst := hsub 2 ({p} ∪ peers.filter fun q => ∃ r ∈ ({p} : Finset PeerID),
    r = q ∨ (r, q) ∈ conn)
  refine hfirst (Finset.mem_union_right _ (Finset.mem_filter.mpr ⟨hq, p, ?_, Or.inr hconn⟩))
  exact Finset.mem_singleton_self p

theorem connectedComponent_subset {conn : Finset (PeerID × PeerID)} {p : PeerID}
    (hp : p ∈ peers) : connectedComponent conn p ⊆ peers := by
  have hsub : ∀ (n : ℕ) (t : Finset PeerID), t ⊆ peers → (fun acc => acc ∪ peers.filter fun q =>
      ∃ p ∈ acc, p = q ∨ (p, q) ∈ conn)^[n] t ⊆ peers := by
    intro n
    induction n with
    | zero => exact fun t ht => ht
    | succ n ih =>
      intro t ht
      rw [Function.iterate_succ_apply]
      exact ih _ (Finset.union_subset ht (Finset.filter_subset _ _))
  exact hsub _ _ (Finset.singleton_subset_iff.mpr hp)

/-- A parents map in which ids spell out parents and parents are on record. -/
structure OnRecord (P : ParentsMap) : Prop where
  faithful : Faithful P
  closed : ∀ c, parentsAt P c ⊆ P.keys

theorem OnRecord.merge {P Q : ParentsMap} (hP : OnRecord P) (hQ : OnRecord Q) :
    OnRecord (mergeSetMap P Q) where
  faithful := hP.faithful.merge hQ.faithful
  closed := by
    intro c
    rw [parentsAt_mergeSetMap, keys_mergeSetMap]
    exact Finset.union_subset_union (hP.closed c) (hQ.closed c)

theorem LineageInv.recorded {s : State} (h : LineageInv s) {p : PeerID} (hp : p ∈ peers) :
    OnRecord (s.nodes.get p).finalizedCommitParents :=
  ⟨(h.finalized p hp).lineage, (h.lineages p hp).closed⟩

theorem OnRecord.ancestorThrough_of_below {P : ParentsMap} (hP : OnRecord P)
    {a d : FinalizedCommitID} (hd : d ∈ P.keys) (h : below a d) : ancestorThrough P a d := by
  rcases h with h | h
  · exact Or.inl h
  · induction h using Relation.ReflTransGen.head_induction_on with
    | refl => exact Or.inr .refl
    | head hlink _ ih =>
      obtain ⟨ps, hbuilt, hp⟩ := hlink
      have hparent := hp
      rw [← hP.faithful.parentsAt_eq hd hbuilt] at hparent
      exact (ih (hP.closed _ hparent)).imp_right fun hpath => hpath.head hparent

theorem below_antisymm {a b : FinalizedCommitID} (hab : below a b) (hba : below b a) : a = b := by
  have hshorter : ∀ {x y : FinalizedCommitID}, Relation.ReflTransGen
      (fun c p => ∃ ps, Built c ps ∧ p ∈ ps) x y → x = y ∨ y.tokens.length < x.tokens.length := by
    intro x y hpath
    induction hpath with
    | refl => exact Or.inl rfl
    | tail _ hlink ih =>
      obtain ⟨ps, hbuilt, hp⟩ := hlink
      rcases ih with rfl | ih
      · exact Or.inr (hbuilt.shorter hp)
      · exact Or.inr ((hbuilt.shorter hp).trans ih)
  rcases hab with rfl | hab
  · exact (eq_empty_of_below hba).symm
  · rcases hba with rfl | hba
    · exact eq_empty_of_below (Or.inr hab)
    · rcases hshorter hab with rfl | hlt
      · rfl
      · rcases hshorter hba with rfl | hlt'
        · rfl
        · omega

instance : IsPartialOrder FinalizedCommitID below where
  antisymm _ _ := below_antisymm

theorem finalizedTipFrontier_eq {P : ParentsMap} (hP : OnRecord P) (hshort : ShortLineage P)
    {tips : Finset FinalizedCommitID} (htips : tips ⊆ P.keys) :
    finalizedTipFrontier tips P = maximals below tips := by
  ext tip
  rw [finalizedTipFrontier, Finset.mem_filter, mem_maximals]
  refine and_congr_right fun _ => ?_
  have hancestor : ∀ other ∈ tips, finalizedCommitIsAncestor tip other P ↔ below tip other := by
    intro other hother
    rw [finalizedCommitIsAncestor, mem_lineageAncestors_iff hshort, or_comm]
    exact ⟨below_of_ancestorThrough hP.faithful, hP.ancestorThrough_of_below (htips hother)⟩
  constructor
  · intro hnone other hother hle
    by_contra hne
    exact hnone ⟨other, hother, hne, (hancestor other hother).mpr hle⟩
  · rintro hmax ⟨other, hother, hne, hle⟩
    exact hne (hmax other hother ((hancestor other hother).mp hle))

theorem ShortLineage.mono {P Q : ParentsMap} (hQ : ShortLineage Q)
    (hsub : ∀ c, parentsAt P c ⊆ parentsAt Q c) : ShortLineage P where
  bottom := Finset.subset_empty.mp (hQ.bottom ▸ hsub emptyFinalizedCommitId)
  short := fun c l hl => hQ.short c l (hl.imp fun x _ hy => hsub x hy)

section Merged

variable {peerStates : Map PeerID NodeState}

theorem recorded_foldl_merge {l : List PeerID}
    (hl : ∀ p ∈ l, OnRecord (peerStates.get p).finalizedCommitParents) {acc : ParentsMap}
    (hacc : OnRecord acc) :
    let P := l.foldl (fun acc p => mergeSetMap acc (peerStates.get p).finalizedCommitParents) acc
    OnRecord P ∧ ∀ c, c ∈ P.keys ↔
      c ∈ acc.keys ∨ ∃ p ∈ l, c ∈ (peerStates.get p).finalizedCommitParents.keys := by
  induction l generalizing acc with
  | nil => exact ⟨hacc, fun c => by simp⟩
  | cons p l ih =>
    obtain ⟨hrec, hkeys⟩ := ih (fun q hq => hl q (List.mem_cons_of_mem p hq))
      (hacc.merge (hl p List.mem_cons_self))
    refine ⟨hrec, fun c => ?_⟩
    rw [List.foldl_cons, hkeys, keys_mergeSetMap, Finset.mem_union, or_assoc]
    simp

variable {ps : Finset PeerID}

theorem mergedFinalizedParentsFor_spec (e : Enumeration PeerID)
    (h : ∀ p ∈ ps, OnRecord (peerStates.get p).finalizedCommitParents) :
    OnRecord (mergedFinalizedParentsFor e peerStates ps) ∧
    ∀ c, c ∈ (mergedFinalizedParentsFor e peerStates ps).keys ↔ c = emptyFinalizedCommitId ∨
      ∃ p ∈ ps, c ∈ (peerStates.get p).finalizedCommitParents.keys := by
  have hseed : OnRecord ((∅ : ParentsMap).put emptyFinalizedCommitId ∅) := by
    constructor
    · intro c qs hc
      rw [Map.lookup_put] at hc
      split_ifs at hc with heq
      · cases hc
        exact heq ▸ built_empty
      · simp at hc
    · intro c p hp
      rw [parentsAt, Map.keys_put] at hp
      split_ifs at hp with hc
      · obtain rfl : c = emptyFinalizedCommitId := by simpa using hc
        rw [Map.get_put_self] at hp
        simp at hp
      · simp at hp
  obtain ⟨hrec, hkeys⟩ := recorded_foldl_merge
    (fun p hp => h p ((e.mem_list ps p).mp hp)) hseed
  refine ⟨hrec, fun c => ?_⟩
  rw [mergedFinalizedParentsFor, hkeys, Map.keys_put]
  simp [e.mem_list]

end Merged

/-- What SYNC_FINALIZED of `p` from `q` does to the finalized fields: `p` takes those of the core
result, the others keep theirs. -/
structure SyncedFrom (s s' : State) (p q : PeerID) (o : FoldOrder) : Prop where
  puller : p ∈ peers
  source : q ∈ peers
  apart : p ≠ q
  linked : (p, q) ∈ s.connected
  core : sameFinalizedState (s'.nodes.get p)
    (@syncFinalizedCoreResult o (s.nodes.get p) (s.nodes.get q))
  others : ∀ r, r ≠ p → s'.nodes.get r = s.nodes.get r

theorem syncedFrom_of_step {s s' : State} {p q : PeerID} (o : FoldOrder)
    (hstep : @step o s (.syncFinalized p q) = some s') : SyncedFrom s s' p q o := by
  simp only [step] at hstep
  split_ifs at hstep with hg
  obtain ⟨hp, hq, hne, hconn, -⟩ := hg
  obtain rfl := Option.some.inj hstep
  refine ⟨hp, hq, hne, hconn, ?_, fun r hr => Map.get_put_of_ne _ _ hr⟩
  simp only [State.setNode, Map.get_put_self]
  exact @syncResult_finalized o p _ _

section Sync

variable {s s' : State} {p q : PeerID} {o : FoldOrder} (h : Reachable Step init s)
  (hsync : SyncedFrom s s' p q o)

include h hsync

theorem below_of_syncedFrom : Below (s.nodes.get p).synced (s'.nodes.get p).synced := by
  have hinv := swarmInv_of_reachable h
  have hcore := (below_core hinv.toLedgerInv o (hinv.finalized p hsync.puller)
    (hinv.finalized q hsync.source)).1
  obtain ⟨htip, hroot, _, hck, hpar, hcon, hres⟩ := hsync.core
  rw [NodeState.synced] at hcore
  simpa only [NodeState.synced, htip, hroot, hpar, hck, hcon, hres] using hcore

theorem raised_tips (h' : Reachable Step init s') {ps : Finset PeerID} (hp : p ∈ ps) :
    Raised below (finalizedTipSetFor s.nodes ps) (finalizedTipSetFor s'.nodes ps)
      (s.nodes.get p).finalizedCommitId (s'.nodes.get p).finalizedCommitId where
  up := below_of_ancestorThrough
    ((swarmInv_of_reachable h').finalized p hsync.puller).lineage
    (path_of_mem_lineageAncestors (below_of_syncedFrom h hsync).tip)
  mem := Finset.mem_image_of_mem _ hp
  kept := by
    intro b hb
    obtain ⟨r, hr, rfl⟩ := Finset.mem_image.mp hb
    by_cases hrp : r = p
    · exact Or.inl (by rw [hrp])
    · exact Or.inr (Finset.mem_image.mpr ⟨r, hr, by rw [hsync.others r hrp]⟩)
  added := by
    intro b hb
    obtain ⟨r, hr, rfl⟩ := Finset.mem_image.mp hb
    by_cases hrp : r = p
    · exact Or.inl (by rw [hrp])
    · exact Or.inr (Finset.mem_image.mpr ⟨r, hr, by rw [hsync.others r hrp]⟩)

omit h in
theorem tip_of_syncedFrom (hmode : syncMode (s.nodes.get p) (s.nodes.get q) ≠ .merge) :
    (s'.nodes.get p).finalizedCommitId = (s.nodes.get p).finalizedCommitId ∨
      (s'.nodes.get p).finalizedCommitId = (s.nodes.get q).finalizedCommitId := by
  rw [hsync.core.1, syncFinalizedCoreResult]
  split
  · exact Or.inr rfl
  · exact Or.inl rfl
  · contradiction

theorem parents_of_merge (hmode : syncMode (s.nodes.get p) (s.nodes.get q) = .merge) :
    parentsAt (s'.nodes.get p).finalizedCommitParents (s'.nodes.get p).finalizedCommitId =
      {(s.nodes.get p).finalizedCommitId, (s.nodes.get q).finalizedCommitId} := by
  have hinv := swarmInv_of_reachable h
  obtain ⟨htip, -, -, -, hpar, -, -⟩ := hsync.core
  rw [hpar, htip, syncFinalizedCoreResult, hmode]
  rw [@syncMergeResult_parents o _ _ _ (hinv.finalized p hsync.puller)
    (hinv.finalized q hsync.source)]
  exact parentsAt_of_lookup (Map.lookup_put_self _ _ _)

theorem parents_grow (r : PeerID) :
    (s.nodes.get r).finalizedCommitParents.keys ⊆
      (s'.nodes.get r).finalizedCommitParents.keys := by
  by_cases hrp : r = p
  · rw [hrp]
    exact (below_of_syncedFrom h hsync).parents
  · rw [hsync.others r hrp]

end Sync

/-- As long as the ancestor walk covers every chain of the component, one SYNC_FINALIZED adds one
tip to the frontier at most. It does so only by a merge, whose commit is that tip. A merge of two
tips that are both on the frontier takes one away. -/
theorem frontier_after_sync {s s' : State} (h : Reachable Step init s) {p q : PeerID}
    (hstep : Step s (.syncFinalized p q) s') (e e' : Enumeration PeerID)
    (hshort : ShortLineage
      (mergedFinalizedParentsFor e' s'.nodes (connectedComponent s.connected p))) :
    let component := connectedComponent s.connected p
    let before := finalizedFrontierFor e s.nodes component
    let after := finalizedFrontierFor e' s'.nodes component
    let tip := (s'.nodes.get p).finalizedCommitId
    after.card ≤ before.card + 1 ∧
    (before.card < after.card → syncMode (s.nodes.get p) (s.nodes.get q) = .merge ∧
      tip ∈ after ∧ finalizedDescendsFromAll tip
        {(s.nodes.get p).finalizedCommitId, (s.nodes.get q).finalizedCommitId}
        (mergedFinalizedParentsFor e' s'.nodes component)) ∧
    (syncMode (s.nodes.get p) (s.nodes.get q) = .merge →
      (s.nodes.get p).finalizedCommitId ∈ before → (s.nodes.get q).finalizedCommitId ∈ before →
      after.card + 1 = before.card) := by
  intro component before after tip
  have h' : Reachable Step init s' := h.tail hstep
  obtain ⟨o, hstep⟩ := hstep
  have hsync := syncedFrom_of_step o hstep
  have hsub : component ⊆ peers := connectedComponent_subset hsync.puller
  obtain ⟨hp, hq⟩ := mem_connectedComponent hsync.source hsync.linked
  have hinv := lineageInv_of_reachable h
  have hinv' := lineageInv_of_reachable h'
  obtain ⟨hrec, hkeys⟩ := mergedFinalizedParentsFor_spec e
    (fun r hr => hinv.recorded (hsub hr) : ∀ r ∈ component, _)
  obtain ⟨hrec', hkeys'⟩ := mergedFinalizedParentsFor_spec e'
    (fun r hr => hinv'.recorded (hsub hr) : ∀ r ∈ component, _)
  have hgrow : (mergedFinalizedParentsFor e s.nodes component).keys ⊆
      (mergedFinalizedParentsFor e' s'.nodes component).keys := by
    intro c hc
    refine (hkeys' c).mpr (((hkeys c).mp hc).imp_right ?_)
    rintro ⟨r, hr, hcr⟩
    exact ⟨r, hr, parents_grow h hsync r hcr⟩
  have hbefore : before = maximals below (finalizedTipSetFor s.nodes component) := by
    refine finalizedTipFrontier_eq hrec
      (hshort.mono (hrec.faithful.parentsAt_subset hrec'.faithful hgrow)) fun c hc => ?_
    obtain ⟨r, hr, rfl⟩ := Finset.mem_image.mp hc
    exact (hkeys _).mpr (Or.inr ⟨r, hr, (hinv.finalized r (hsub hr)).tip_mem⟩)
  have hafter : after = maximals below (finalizedTipSetFor s'.nodes component) := by
    refine finalizedTipFrontier_eq hrec' hshort fun c hc => ?_
    obtain ⟨r, hr, rfl⟩ := Finset.mem_image.mp hc
    exact (hkeys' _).mpr (Or.inr ⟨r, hr, (hinv'.finalized r (hsub hr)).tip_mem⟩)
  have hraised := raised_tips h hsync h' hp
  have htip' : tip ∈ (s'.nodes.get p).finalizedCommitParents.keys :=
    (hinv'.finalized p hsync.puller).tip_mem
  rw [hbefore, hafter]
  refine ⟨hraised.card_maximals_le, fun hlt => ?_, fun hmode hpmax hqmax => ?_⟩
  · obtain ⟨hnew, hmax⟩ := hraised.of_card_lt hlt
    have hmode : syncMode (s.nodes.get p) (s.nodes.get q) = .merge := by
      by_contra hmode
      rcases tip_of_syncedFrom hsync hmode with heq | heq
      · exact hnew (Finset.mem_image.mpr ⟨p, hp, heq.symm⟩)
      · exact hnew (Finset.mem_image.mpr ⟨q, hq, heq.symm⟩)
    refine ⟨hmode, hmax, fun c hc => parent_mem_lineageAncestors ?_⟩
    rw [← parents_of_merge h hsync hmode] at hc
    exact (hinv'.recorded hsync.puller).faithful.parentsAt_subset hrec'.faithful
      (fun x hx => (hkeys' x).mpr (Or.inr ⟨p, hp, hx⟩)) _ hc
  · have hbuilt := (hinv'.recorded hsync.puller).faithful.built htip'
    rw [parents_of_merge h hsync hmode] at hbuilt
    exact hraised.card_maximals_of_join (joinOf_built hbuilt)
      (syncMode_eq_merge_iff.mp hmode).1 hpmax hqmax

theorem shortLineage_of_card {P : ParentsMap} (hP : OnRecord P)
    (hcard : P.keys.card ≤ maxEvents + 4) : ShortLineage P where
  bottom := hP.faithful.parentsAt_empty
  short := by
    intro c l hl
    have hchains : ChainsWithin (parentsAt P) P.keys.card :=
      Acyclic.chainsWithin hP.faithful.acyclic fun _ _ hlink =>
        Map.mem_keys_of_lookup (lookup_of_mem_parentsAt hlink)
    exact (hchains c l hl).trans hcard

def peerLess (a b : PeerID) : Bool := a < b

theorem peerLess_strictTotal : StrictTotalOn peerLess fun _ => True :=
  strictTotalOn_of_key id (fun _ _ => decide_eq_true_iff) Function.injective_id

def ascendingPeers : Enumeration PeerID := Enumeration.sorted peerLess peerLess_strictTotal

theorem frontier_after_sync_on_fork :
    (finalizedFrontierFor ascendingPeers mergedForkState.nodes
      (connectedComponent forkState.connected 1)).card + 1 =
    (finalizedFrontierFor ascendingPeers forkState.nodes
      (connectedComponent forkState.connected 1)).card := by
  have hreach : Reachable Step init forkState := ⟨_, forkRun_runs⟩
  have hstep : Step forkState (.syncFinalized 1 2) mergedForkState :=
    ⟨ascendingFolds, by decide +kernel⟩
  have hinv := lineageInv_of_reachable (hreach.tail hstep)
  have hrecorded := (mergedFinalizedParentsFor_spec ascendingPeers
    (fun r hr => hinv.recorded (connectedComponent_subset (by decide) hr) :
      ∀ r ∈ connectedComponent forkState.connected 1, _)).1
  exact (frontier_after_sync hreach hstep ascendingPeers ascendingPeers
    (shortLineage_of_card hrecorded (by decide +kernel))).2.2 (by decide +kernel)
    (by decide +kernel) (by decide +kernel)

end DoltSwarm.Protocol
