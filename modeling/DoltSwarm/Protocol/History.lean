import DoltSwarm.Protocol.FinalizedMerge
import DoltSwarm.Protocol.Parking

/-!
# Finalized histories

A history lists finalized events, the latest first, with the tip each of them led to. A peer
follows a history if its finalized fields are what recording it entry by entry gives.
-/

namespace DoltSwarm.Protocol

open Lib

set_option autoImplicit false

/-! ## The ledger as one clock -/

noncomputable def ledgerClock (L : Finset Event) : Clock :=
  Map.mapBy (L.image Event.eventId) fun id => Classical.epsilon fun e => e ∈ L ∧ e.eventId = id

def UniqueIds (L : Finset Event) : Prop :=
  ∀ e ∈ L, ∀ e' ∈ L, e.eventId = e'.eventId → e = e'

theorem UniqueIds.lookup_ledgerClock {L : Finset Event} (h : UniqueIds L) (id : EventID)
    (e : Event) : (ledgerClock L).lookup id = some e ↔ e ∈ L ∧ e.eventId = id := by
  have hpick : ∀ x ∈ L, Classical.epsilon (fun e => e ∈ L ∧ e.eventId = x.eventId) = x := by
    intro x hx
    have hspec := Classical.epsilon_spec (p := fun e => e ∈ L ∧ e.eventId = x.eventId)
      ⟨x, hx, rfl⟩
    exact h _ hspec.1 x hx hspec.2
  rw [ledgerClock, Map.lookup_mapBy]
  constructor
  · intro hlook
    by_cases hmem : id ∈ L.image Event.eventId
    · rw [if_pos hmem] at hlook
      obtain ⟨x, hx, rfl⟩ := Finset.mem_image.mp hmem
      rw [hpick x hx] at hlook
      rw [← Option.some.inj hlook]
      exact ⟨hx, rfl⟩
    · rw [if_neg hmem] at hlook
      cases hlook
  · rintro ⟨he, rfl⟩
    rw [if_pos (Finset.mem_image_of_mem _ he), hpick e he]

theorem UniqueIds.ledgerClock_subMap {L L' : Finset Event} (h : UniqueIds L) (h' : UniqueIds L')
    (hL : L ⊆ L') : Map.SubMap (ledgerClock L) (ledgerClock L') := by
  intro id e he
  obtain ⟨hmem, hid⟩ := (h.lookup_ledgerClock id e).mp he
  exact (h'.lookup_ledgerClock id e).mpr ⟨hL hmem, hid⟩

theorem LedgerInv.clock_subMap {s : State} (h : LedgerInv s) {p : PeerID} (hp : p ∈ peers) :
    Map.SubMap (s.nodes.get p).clock (ledgerClock s.ledger) := fun id e he =>
  (UniqueIds.lookup_ledgerClock h.unique id e).mpr ((h.node p hp).mem id e he)

theorem LedgerInv.keyed_ledgerClock {s : State} (h : LedgerInv s) :
    Keyed (ledgerClock s.ledger) := by
  intro id e he
  obtain ⟨hmem, hid⟩ := (UniqueIds.lookup_ledgerClock h.unique id e).mp he
  exact ⟨hid, (h.shape e hmem).toStamped⟩

/-! ## Histories -/

structure Entry where
  event : Event
  /-- Finalized as bookkeeping only. -/
  booked : Bool
  tip : FinalizedCommitID

def historyTip : List Entry → FinalizedCommitID
  | [] => emptyFinalizedCommitId
  | x :: _ => x.tip

def tipParents (tip : FinalizedCommitID) : Finset FinalizedCommitID :=
  if tip = emptyFinalizedCommitId then ∅ else {tip}

/-- The replay base of an event with the whole ledger at hand. -/
noncomputable def ledgerReplayBase (L : Finset Event) (id : EventID) : ProllyRootHash :=
  @finalizationReplayBase ascendingFolds (ledgerClock L) id

/-- The checkpoint that replaying `e` on `tip` gives. -/
noncomputable def replayTip (L : Finset Event) (tip : FinalizedCommitID) (e : Event) :
    FinalizedCommitID :=
  @makeFinalizedCheckpointCommitID ascendingFolds
    (mergeRoots tip.root e.prollyRootHash (ledgerReplayBase L e.eventId)) (tipParents tip)

structure NextEntry (L : Finset Event) (H : List Entry) (x : Entry) : Prop where
  mem : x.event ∈ L
  newer : ∀ y ∈ H, less y.event.hlc x.event.hlc = true
  tip : x.booked = true ∧ x.tip = historyTip H ∨ x.booked = false ∧
    ledgerReplayBase L x.event.eventId ≠ conflictHash ∧
    x.tip = replayTip L (historyTip H) x.event

def Recorded (L : Finset Event) : List Entry → Prop
  | [] => True
  | x :: H => NextEntry L H x ∧ Recorded L H

/-- The tip after an event depends on the event and on how it was finalized, on nothing else. -/
theorem NextEntry.unique {L : Finset Event} {H : List Entry} {x y : Entry}
    (hx : NextEntry L H x) (hy : NextEntry L H y) (hevent : x.event = y.event)
    (hbooked : x.booked = y.booked) : x = y := by
  have htip : x.tip = y.tip := by
    rcases hx.tip with ⟨hbx, hx⟩ | ⟨hbx, _, hx⟩ <;> rcases hy.tip with ⟨hby, hy⟩ | ⟨hby, _, hy⟩
    · rw [hx, hy]
    · rw [hbooked, hby] at hbx
      cases hbx
    · rw [hbooked, hby] at hbx
      cases hbx
    · rw [hx, hy, hevent]
  cases x
  cases y
  simp_all

theorem Recorded.of_suffix {L : Finset Event} {H H' : List Entry} (h : Recorded L H)
    (hs : H' <:+ H) : Recorded L H' := by
  induction H with
  | nil =>
    rw [List.suffix_nil.mp hs]
    exact h
  | cons x H ih =>
    rcases List.suffix_cons_iff.mp hs with rfl | hs
    · exact h
    · exact ih h.2 hs

theorem Recorded.mem_ledger {L : Finset Event} {H : List Entry} (h : Recorded L H) :
    ∀ x ∈ H, x.event ∈ L := by
  induction H with
  | nil => simp
  | cons y H ih =>
    intro x hx
    rcases List.mem_cons.mp hx with rfl | hx
    · exact h.1.mem
    · exact ih h.2 x hx

theorem Recorded.mono {s : State} (hs : LedgerInv s) {L : Finset Event} (hL : UniqueIds L)
    (hsub : s.ledger ⊆ L) {H : List Entry} (h : Recorded s.ledger H) : Recorded L H := by
  induction H with
  | nil => trivial
  | cons x H ih =>
    refine ⟨⟨hsub h.1.mem, h.1.newer, ?_⟩, ih h.2⟩
    rcases h.1.tip with hbook | ⟨hbook, hne, htip⟩
    · exact Or.inl hbook
    · have hkey : x.event.eventId ∈ (ledgerClock s.ledger).keys :=
        Map.mem_keys_of_lookup ((UniqueIds.lookup_ledgerClock hs.unique _ _).mpr ⟨h.1.mem, rfl⟩)
      have hbase : ledgerReplayBase L x.event.eventId =
          ledgerReplayBase s.ledger x.event.eventId :=
        finalizationReplayBase_subMap _ _ hs.keyed_ledgerClock
          (UniqueIds.ledgerClock_subMap hs.unique hL hsub) hkey hne
      refine Or.inr ⟨hbook, hbase ▸ hne, ?_⟩
      rw [htip, replayTip, replayTip, hbase]

/-! ## Tips of a history -/

def commitsOf (H : List Entry) : Finset FinalizedCommitID :=
  insert emptyFinalizedCommitId (H.map Entry.tip).toFinset

theorem commitsOf_cons (x : Entry) (H : List Entry) :
    commitsOf (x :: H) = insert x.tip (commitsOf H) := by
  simp only [commitsOf, List.map_cons, List.toFinset_cons]
  exact Finset.insert_comm _ _ _

theorem historyTip_mem (H : List Entry) : historyTip H ∈ commitsOf H := by
  cases H with
  | nil => exact Finset.mem_insert_self _ _
  | cons x H =>
    rw [commitsOf_cons]
    exact Finset.mem_insert_self _ _

theorem Recorded.ancestorThrough {L : Finset Event} {P : ParentsMap} (hP : Faithful P)
    {H H' : List Entry} (h : Recorded L H) (hkeys : commitsOf H ⊆ P.keys) (hs : H' <:+ H) :
    Protocol.ancestorThrough P (historyTip H') (historyTip H) := by
  induction H with
  | nil =>
    rw [List.suffix_nil.mp hs]
    exact Or.inl rfl
  | cons x H ih =>
    rw [commitsOf_cons, Finset.insert_subset_iff] at hkeys
    rcases List.suffix_cons_iff.mp hs with rfl | hs
    · exact Or.inr .refl
    · have hbelow := ih h.2 hkeys.2 hs
      rcases h.1.tip with ⟨_, htip⟩ | ⟨_, _, htip⟩
      · simp only [historyTip, htip]
        exact hbelow
      · have hheaded : ∀ p ∈ tipParents (historyTip H), headed p := by
          intro p hp
          simp only [tipParents] at hp
          split at hp
          · simp at hp
          · rw [Finset.mem_singleton.mp hp]
            exact (hP.built (hkeys.2 (historyTip_mem H))).headed_self
        have hpar : parentsAt P x.tip = tipParents (historyTip H) :=
          hP.parentsAt_eq hkeys.1 (htip ▸ built_make _ _ _ hheaded)
        by_cases hempty : historyTip H = emptyFinalizedCommitId
        · rw [hempty] at hbelow
          exact Or.inl (hP.eq_empty_of_ancestorThrough hbelow)
        · have hlink : historyTip H ∈ parentsAt P x.tip := by
            rw [hpar, tipParents, if_neg hempty]
            exact Finset.mem_singleton_self _
          exact hbelow.imp_right fun hpath => .head hlink hpath

theorem Recorded.tip_mem_walk {L : Finset Event} {P : ParentsMap} (hP : Faithful P)
    (hclosed : ∀ c, parentsAt P c ⊆ P.keys) (hcard : P.keys.card ≤ maxEvents + 4)
    {H H' : List Entry} (h : Recorded L H) (hkeys : commitsOf H ⊆ P.keys) (hs : H' <:+ H) :
    historyTip H' ∈ lineageAncestors P (historyTip H) :=
  mem_lineageAncestors_of_ancestorThrough hclosed (Nat.le_succ_of_le hcard)
    (hkeys (historyTip_mem H)) (h.ancestorThrough hP hkeys hs)

theorem exists_suffix_tip {H : List Entry} {x : Entry} (hx : x ∈ H) :
    ∃ H', H' <:+ H ∧ historyTip H' = x.tip := by
  obtain ⟨t, H', rfl⟩ := List.append_of_mem hx
  exact ⟨x :: H', List.suffix_append t (x :: H'), rfl⟩

/-! ## Peers that follow a history -/

structure Follows (H : List Entry) (st : NodeState) : Prop where
  tip : st.finalizedCommitId = historyTip H
  commits : st.finalizedCommitParents.keys = commitsOf H
  events : ∀ id, id ∈ st.finalizedEvents.keys ↔ ∃ x ∈ H, x.event.eventId = id
  descriptors : ∀ c id, id ∈ (descriptorAt st.finalizedCheckpointEvents c).keys ↔
    ∃ x ∈ H, x.tip = c ∧ x.event.eventId = id

theorem Follows.congr {H : List Entry} {st st' : NodeState} (h : Follows H st)
    (hsame : sameFinalizedState st' st) : Follows H st' := by
  obtain ⟨htip, _, hev, hck, hpar, _, _⟩ := hsame
  exact ⟨htip.trans h.tip, hpar ▸ h.commits, hev ▸ h.events, hck ▸ h.descriptors⟩

theorem Follows.harden {H : List Entry} {st : NodeState} (h : Follows H st) (x : Entry) :
    let st' := hardenEvent st x.tip x.event.eventId x.event
    (∀ id, id ∈ st'.finalizedEvents.keys ↔ ∃ y ∈ x :: H, y.event.eventId = id) ∧
    ∀ c id, id ∈ (descriptorAt st'.finalizedCheckpointEvents c).keys ↔
      ∃ y ∈ x :: H, y.tip = c ∧ y.event.eventId = id := by
  constructor
  · intro id
    simp only [hardenEvent, Map.keys_put, Finset.mem_insert, h.events, List.mem_cons,
      exists_eq_or_imp]
    exact or_congr_left eq_comm
  · intro c id
    simp only [hardenEvent]
    rw [mem_descriptorAt_put, h.descriptors]
    simp only [List.mem_cons, exists_eq_or_imp]

theorem Follows.book [FoldOrder] {H : List Entry} {st : NodeState} (h : Follows H st)
    (e : Event) : Follows (⟨e, true, historyTip H⟩ :: H)
      (reconcileResult (hardenEvent st st.finalizedCommitId e.eventId e)) := by
  rw [h.tip]
  obtain ⟨hev, hck⟩ := h.harden ⟨e, true, historyTip H⟩
  refine ⟨h.tip, ?_, hev, hck⟩
  rw [commitsOf_cons, Finset.insert_eq_of_mem (historyTip_mem H)]
  exact h.commits

theorem Follows.replay [FoldOrder] {L : Finset Event} {H : List Entry} {st : NodeState}
    (h : Follows H st) (hok : FinalizedOk L st) {e : Event}
    (hnext : nextFinalizationEventID st = e.eventId) (hget : st.clock.get e.eventId = e) :
    Follows (⟨e, false, nextFinalizedCommit st⟩ :: H) (reconcileResult (replayNextEvent st)) := by
  have hframe := hok.replayNextEvent_eq
  rw [hnext, hget] at hframe
  obtain ⟨hev, hck⟩ := h.harden ⟨e, false, nextFinalizedCommit st⟩
  rw [hframe]
  refine ⟨rfl, ?_, hev, hck⟩
  rw [commitsOf_cons, ← h.commits]
  exact Map.keys_put _ _ _

/-! ## SYNC_FINALIZED between two peers of one history -/

section

variable [FoldOrder] {s : State} {a b : NodeState} {H Ha Hb : List Entry}

theorem follows_syncMetadata (hs : LedgerInv s) (ha : FinalizedOk s.ledger a)
    (hb : FinalizedOk s.ledger b) (hfa : Follows Ha a) (hfb : Follows Hb b) (hsuba : Ha ⊆ H)
    (hsubb : Hb ⊆ H) (hcover : ∀ x ∈ H, x ∈ Ha ∨ x ∈ Hb) (root : ProllyRootHash)
    (hwalk : ∀ x ∈ H, x.tip ∈ lineageAncestors
      (mergeSetMap a.finalizedCommitParents b.finalizedCommitParents) (historyTip H)) :
    Follows H (syncMetadata a b (historyTip H) root) := by
  have hdesc : ∀ c id, id ∈ (descriptorAt (mergeFinalizedCheckpointMap
      a.finalizedCheckpointEvents b.finalizedCheckpointEvents) c).keys ↔
      ∃ x ∈ H, x.tip = c ∧ x.event.eventId = id := by
    intro c id
    rw [descriptorAt_merge, mergeFinalizedEventMap, Map.keys_firstWins, Finset.mem_union,
      hfa.descriptors, hfb.descriptors]
    constructor
    · rintro (⟨x, hx, hc, hid⟩ | ⟨x, hx, hc, hid⟩)
      · exact ⟨x, hsuba hx, hc, hid⟩
      · exact ⟨x, hsubb hx, hc, hid⟩
    · rintro ⟨x, hx, hc, hid⟩
      exact (hcover x hx).imp (fun hx => ⟨x, hx, hc, hid⟩) fun hx => ⟨x, hx, hc, hid⟩
  refine ⟨rfl, ?_, ?_, hdesc⟩
  · simp only [syncMetadata]
    rw [keys_mergeSetMap, hfa.commits, hfb.commits]
    ext c
    simp only [commitsOf, Finset.mem_union, Finset.mem_insert, List.mem_toFinset, List.mem_map]
    constructor
    · rintro ((hc | ⟨x, hx, hc⟩) | (hc | ⟨x, hx, hc⟩))
      · exact Or.inl hc
      · exact Or.inr ⟨x, hsuba hx, hc⟩
      · exact Or.inl hc
      · exact Or.inr ⟨x, hsubb hx, hc⟩
    · rintro (hc | ⟨x, hx, hc⟩)
      · exact Or.inl (Or.inl hc)
      · exact (hcover x hx).imp (fun hx => Or.inr ⟨x, hx, hc⟩) fun hx => Or.inr ⟨x, hx, hc⟩
  · have hmerged : ∀ c, DescribedBy s.ledger (descriptorAt (mergeFinalizedCheckpointMap
        a.finalizedCheckpointEvents b.finalizedCheckpointEvents) c) := by
      intro c
      rw [descriptorAt_merge]
      exact (ha.described c).merge (hb.described c)
    intro id
    simp only [syncMetadata]
    rw [Map.mem_keys_iff]
    simp only [lookup_derivedFinalizedEventMap hs _ hmerged]
    constructor
    · rintro ⟨r, c, _, hr⟩
      obtain ⟨x, hx, _, hid⟩ := (hdesc c id).mp (Map.mem_keys_of_lookup hr)
      exact ⟨x, hx, hid⟩
    · rintro ⟨x, hx, hid⟩
      obtain ⟨r, hr⟩ := (Map.mem_keys_iff _ _).mp ((hdesc x.tip id).mpr ⟨x, hx, rfl, hid⟩)
      exact ⟨r, x.tip, hwalk x hx, hr⟩

/-- Two peers on one short enough history end, after a sync, on the longer of their parts. -/
theorem follows_syncFinalizedCoreResult (hs : LedgerInv s) (ha : FinalizedOk s.ledger a)
    (hb : FinalizedOk s.ledger b) (hrec : Recorded s.ledger H)
    (hclosed : ∀ c, parentsAt (mergeSetMap a.finalizedCommitParents b.finalizedCommitParents) c ⊆
      (mergeSetMap a.finalizedCommitParents b.finalizedCommitParents).keys)
    (hcard : (a.finalizedCommitParents.keys ∪ b.finalizedCommitParents.keys).card ≤ maxEvents + 4)
    (hsa : Ha <:+ H) (hsb : Hb <:+ H) (hfa : Follows Ha a) (hfb : Follows Hb b) :
    ∃ Hm, (Hm = Ha ∨ Hm = Hb) ∧ Ha <:+ Hm ∧ Follows Hm (syncFinalizedCoreResult a b) := by
  have hP := mergedParents_faithful ha hb
  rw [← keys_mergeSetMap] at hcard
  have hkeys : ∀ {Hc}, Hc = Ha ∨ Hc = Hb → commitsOf Hc ⊆
      (mergeSetMap a.finalizedCommitParents b.finalizedCommitParents).keys := by
    rintro Hc (rfl | rfl)
    · rw [keys_mergeSetMap, ← hfa.commits]
      exact Finset.subset_union_left
    · rw [keys_mergeSetMap, ← hfb.commits]
      exact Finset.subset_union_right
  -- the walk from the tip of either part finds the tips of all its final segments
  have hwalk : ∀ {Hc Hd}, Hc = Ha ∨ Hc = Hb → Hc <:+ H → Hd <:+ Hc → historyTip Hd ∈
      lineageAncestors (mergeSetMap a.finalizedCommitParents b.finalizedCommitParents)
        (historyTip Hc) := by
    intro Hc Hd hor hsc hsd
    exact (hrec.of_suffix hsc).tip_mem_walk hP hclosed hcard (hkeys hor) hsd
  have hwalk' : ∀ {Hc}, Hc = Ha ∨ Hc = Hb → Hc <:+ H → ∀ x ∈ Hc, x.tip ∈
      lineageAncestors (mergeSetMap a.finalizedCommitParents b.finalizedCommitParents)
        (historyTip Hc) := by
    intro Hc hor hsc x hx
    obtain ⟨Hd, hsd, htip⟩ := exists_suffix_tip hx
    exact htip ▸ hwalk hor hsc hsd
  rcases List.suffix_or_suffix_of_suffix hsa hsb with hab | hba
  · refine ⟨Hb, Or.inr rfl, hab, ?_⟩
    have hmeta : ∀ root, Follows Hb (syncMetadata a b (historyTip Hb) root) := fun root =>
      follows_syncMetadata hs ha hb hfa hfb hab.subset (List.Subset.refl _)
        (fun x hx => Or.inr hx) root (hwalk' (Or.inr rfl) hsb)
    have hanc := hwalk (Or.inr rfl) hsb hab
    rw [← hfa.tip, ← hfb.tip] at hanc
    by_cases heq : a.finalizedCommitId = b.finalizedCommitId
    · -- level tips: only the entries booked since differ
      have hmode := syncMode_of_descendant hP (heq ▸ self_mem_lineageAncestors _ _)
      simp only [syncFinalizedCoreResult, hmode, heq, hfb.tip]
      exact hmeta _
    · simp only [syncFinalizedCoreResult, syncMode_of_ancestor hP heq hanc, hfb.tip]
      exact hmeta _
  · refine ⟨Ha, Or.inl rfl, List.suffix_refl _, ?_⟩
    have hmeta : ∀ root, Follows Ha (syncMetadata a b (historyTip Ha) root) := fun root =>
      follows_syncMetadata hs ha hb hfa hfb (List.Subset.refl _) hba.subset
        (fun x hx => Or.inl hx) root (hwalk' (Or.inl rfl) hsa)
    have hanc := hwalk (Or.inl rfl) hsa hba
    rw [← hfa.tip, ← hfb.tip] at hanc
    simp only [syncFinalizedCoreResult, syncMode_of_descendant hP hanc, hfa.tip]
    exact hmeta _

end

end DoltSwarm.Protocol
