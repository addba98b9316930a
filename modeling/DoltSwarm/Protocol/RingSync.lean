import DoltSwarm.Lib.MergeRing
import DoltSwarm.Protocol.LineageOrder

/-!
# SYNC_FINALIZED around a ring

Pairwise exchanges bring three connected peers to one finalized state. Pulls in one direction only
do not: a pull of two tips that neither descends from the other makes a merge commit of its own,
and when every peer pulls from the next one around the ring, each round leaves the tips apart again.
-/

namespace DoltSwarm.Protocol

open Lib

set_option autoImplicit false

/-! ## Ancestry of commit ids -/

/-- An id spells out its parents, so ancestry is a relation between ids: `a` is `d` or below it,
the empty commit being below everything. -/
def below (a d : FinalizedCommitID) : Prop :=
  a = emptyFinalizedCommitId ∨
    Relation.ReflTransGen (fun c p => ∃ ps, Built c ps ∧ p ∈ ps) d a

section

variable {a b c d x : FinalizedCommitID} {P : ParentsMap}

theorem below_refl (a : FinalizedCommitID) : below a a := Or.inr .refl

theorem eq_empty_of_below (h : below a emptyFinalizedCommitId) : a = emptyFinalizedCommitId := by
  rcases h with h | h
  · exact h
  · rcases Relation.ReflTransGen.cases_head h with h | ⟨p, ⟨ps, hb, hp⟩, _⟩
    · exact h.symm
    · rw [hb.unique built_empty] at hp
      simp at hp

theorem below_trans (hab : below a b) (hbc : below b c) : below a c := by
  rcases hbc with rfl | hbc
  · exact Or.inl (eq_empty_of_below hab)
  · exact hab.imp_right fun h => hbc.trans h

instance : IsPreorder FinalizedCommitID below where
  refl := below_refl
  trans _ _ _ := below_trans

theorem below_of_ancestorThrough (hP : Faithful P) (h : ancestorThrough P a d) : below a d := by
  refine h.imp_right fun hpath => ?_
  exact Relation.ReflTransGen.mono
    (fun c p hp => ⟨_, hP c _ (lookup_of_mem_parentsAt hp), hp⟩) d a hpath

theorem below_built {ps : Finset FinalizedCommitID} (h : Built x ps) (hc : below c x) :
    c = emptyFinalizedCommitId ∨ c = x ∨ ∃ p ∈ ps, below c p := by
  rcases hc with hc | hc
  · exact Or.inl hc
  · rcases Relation.ReflTransGen.cases_head hc with hc | ⟨p, ⟨qs, hb, hp⟩, hpath⟩
    · exact Or.inr (Or.inl hc.symm)
    · exact Or.inr (Or.inr ⟨p, hb.unique h ▸ hp, Or.inr hpath⟩)

theorem joinOf_built (h : Built x {a, b}) : JoinOf below x a b where
  left := Or.inr (.single ⟨_, h, by simp⟩)
  right := Or.inr (.single ⟨_, h, by simp⟩)
  below := by
    intro c hc
    rcases below_built h hc with hc | hc | ⟨p, hp, hc⟩
    · exact Or.inr (Or.inl (Or.inl hc))
    · exact Or.inl hc
    · rcases Finset.mem_insert.mp hp with rfl | hp
      · exact Or.inr (Or.inl hc)
      · rw [Finset.mem_singleton] at hp
        exact Or.inr (Or.inr (hp ▸ hc))

end

/-! ## One pull -/

section

variable {st remote : NodeState} {L : Finset Event}

/-- The walk finds true ancestors only, so tips that are apart are merged. -/
theorem syncMode_of_apart (hl : FinalizedOk L st) (hr : FinalizedOk L remote)
    (h : ¬below st.finalizedCommitId remote.finalizedCommitId)
    (h' : ¬below remote.finalizedCommitId st.finalizedCommitId) : syncMode st remote = .merge := by
  have hP := hl.lineage.merge hr.lineage
  have hnot : ∀ {a d}, ¬below a d → ¬finalizedCommitIsAncestor a d
      (mergeSetMap st.finalizedCommitParents remote.finalizedCommitParents) := by
    intro a d hne hmem
    exact hne (below_of_ancestorThrough hP (path_of_mem_lineageAncestors hmem))
  refine syncMode_eq_merge_iff.mpr ⟨?_, iff_of_false (hnot h) (hnot h')⟩
  intro heq
  exact h (heq ▸ below_refl _)

theorem effective_notMem_keys [FoldOrder] (hl : FinalizedOk L st) (hr : FinalizedOk L remote)
    (htop : Topped st) (h' : ¬below remote.finalizedCommitId st.finalizedCommitId) :
    effectiveFinalizedCommit st remote ∉ st.finalizedCommitParents.keys := by
  intro hmem
  have hbelow := below_of_ancestorThrough hl.lineage (htop _ hmem)
  exact h' (below_trans (joinOf_built (built_effective hl hr)).right hbelow)

end

/-- What a pull of `p` from `q` does to tips that are apart: `p` moves to a new merge commit. -/
structure Pulled (s s' : State) (p q : PeerID) : Prop where
  reachable : Reachable Step init s'
  connected : s'.connected = s.connected
  others : ∀ x, x ≠ p → s'.nodes.get x = s.nodes.get x
  joined : JoinOf below (s'.nodes.get p).finalizedCommitId (s.nodes.get p).finalizedCommitId
    (s.nodes.get q).finalizedCommitId
  grown : (s.nodes.get p).finalizedCommitParents.keys.card <
    (s'.nodes.get p).finalizedCommitParents.keys.card

theorem pull_apart {s : State} (h : Reachable Step init s) (o : FoldOrder) {p q : PeerID}
    (hp : p ∈ peers) (hq : q ∈ peers) (hconn : (p, q) ∈ s.connected)
    (hpq : ¬below (s.nodes.get p).finalizedCommitId (s.nodes.get q).finalizedCommitId)
    (hqp : ¬below (s.nodes.get q).finalizedCommitId (s.nodes.get p).finalizedCommitId) :
    Pulled s (syncIfEnabled o s p q) p q := by
  have hinv := lineageInv_of_reachable h
  have hl := hinv.finalized p hp
  have hr := hinv.finalized q hq
  have hne : p ≠ q := by
    rintro rfl
    exact hpq (below_refl _)
  obtain ⟨hreach, hconnected, -, hothers, hcore⟩ := syncIfEnabled_spec h o hp hq hne hconn
  have hdiffer : (s.nodes.get p).synced ≠ (s.nodes.get q).synced := by
    intro heq
    have htip : (s.nodes.get p).finalizedCommitId = (s.nodes.get q).finalizedCommitId :=
      congrArg SyncedFields.finalizedCommitId heq
    exact hpq (htip ▸ below_refl _)
  have hmerge : ((syncIfEnabled o s p q).nodes.get p).synced =
      (@syncMergeResult o (s.nodes.get p) (s.nodes.get q)).synced := by
    have hsynced := hcore.resolve_right fun heq => hdiffer heq.1
    rwa [syncFinalizedCoreResult, syncMode_of_apart hl hr hpq hqp] at hsynced
  have htip : ((syncIfEnabled o s p q).nodes.get p).finalizedCommitId =
      @effectiveFinalizedCommit o (s.nodes.get p) (s.nodes.get q) :=
    congrArg SyncedFields.finalizedCommitId hmerge
  have hparents : ((syncIfEnabled o s p q).nodes.get p).finalizedCommitParents =
      (@syncMergeResult o (s.nodes.get p) (s.nodes.get q)).finalizedCommitParents :=
    congrArg SyncedFields.finalizedCommitParents hmerge
  refine ⟨hreach, hconnected, hothers, ?_, ?_⟩
  · rw [htip]
    exact joinOf_built (@built_effective o _ _ _ hl hr)
  · rw [hparents, @syncMergeResult_parents o _ _ _ hl hr, Map.keys_put, keys_mergeSetMap]
    have hnew := @effective_notMem_keys _ _ _ o hl hr (hinv.topped p hp) hqp
    refine Finset.card_lt_card ((Finset.ssubset_insert hnew).trans_subset ?_)
    exact Finset.insert_subset_insert _ Finset.subset_union_left

/-! ## Rounds -/

/-- One round: `p` pulls from `q`, `q` from `r`, `r` from `p`, each with its own enumeration
order. -/
def ringRound (p q r : PeerID) (s : State) (o : FoldOrder × FoldOrder × FoldOrder) : State :=
  syncIfEnabled o.2.2 (syncIfEnabled o.2.1 (syncIfEnabled o.1 s p q) q r) r p

def tipsApart (p q r : PeerID) (s : State) : Prop :=
  RingApart below (s.nodes.get p).finalizedCommitId (s.nodes.get q).finalizedCommitId
    (s.nodes.get r).finalizedCommitId

section

variable {p q r : PeerID} (hp : p ∈ peers) (hq : q ∈ peers) (hr : r ∈ peers)
  (hpq : p ≠ q) (hqr : q ≠ r) (hrp : r ≠ p)

include hp hq hr hpq hqr hrp

theorem ringRound_apart {s : State} (h : Reachable Step init s) (h₁ : (p, q) ∈ s.connected)
    (h₂ : (q, r) ∈ s.connected) (h₃ : (r, p) ∈ s.connected) (hapart : tipsApart p q r s)
    (o : FoldOrder × FoldOrder × FoldOrder) :
    Reachable Step init (ringRound p q r s o) ∧
    (ringRound p q r s o).connected = s.connected ∧
    tipsApart p q r (ringRound p q r s o) ∧
    ∀ x, x = p ∨ x = q ∨ x = r → (s.nodes.get x).finalizedCommitParents.keys.card <
      ((ringRound p q r s o).nodes.get x).finalizedCommitParents.keys.card := by
  have first := pull_apart h o.1 hp hq h₁ hapart.left hapart.left'
  have hq₁ := first.others q hpq.symm
  have hr₁ := first.others r hrp
  have second := pull_apart first.reachable o.2.1 hq hr (first.connected ▸ h₂)
    (by rw [hq₁, hr₁]; exact hapart.right) (by rw [hq₁, hr₁]; exact hapart.right')
  have hp₂ := second.others p hpq
  have hr₂ := (second.others r hqr.symm).trans hr₁
  have hjoin := first.joined
  have third := pull_apart second.reachable o.2.2 hr hp
    (second.connected.trans first.connected ▸ h₃)
    (by
      rw [hr₂, hp₂]
      exact hjoin.not_below hapart.closing hapart.right' hapart.right)
    (by
      rw [hr₂, hp₂]
      exact fun hle => hapart.right (below_trans hjoin.right hle))
  have hp₃ := (third.others p hrp.symm).trans hp₂
  have hq₃ := third.others q hqr
  refine ⟨third.reachable, third.connected.trans (second.connected.trans first.connected), ?_, ?_⟩
  · have hy := second.joined
    have hz := third.joined
    rw [hq₁, hr₁] at hy
    rw [hr₂, hp₂] at hz
    have hturn := hapart.turn hjoin hy hz
    simp only [tipsApart, ringRound]
    rw [hp₃, hq₃]
    exact hturn
  · rintro x (rfl | rfl | rfl)
    · simp only [ringRound]
      rw [hp₃]
      exact first.grown
    · have hgrown := second.grown
      rw [hq₁] at hgrown
      simp only [ringRound]
      rw [hq₃]
      exact hgrown
    · have hgrown := third.grown
      rw [hr₂] at hgrown
      exact hgrown

theorem ringRounds_apart {s : State} (h : Reachable Step init s) (h₁ : (p, q) ∈ s.connected)
    (h₂ : (q, r) ∈ s.connected) (h₃ : (r, p) ∈ s.connected) (hapart : tipsApart p q r s)
    (rounds : List (FoldOrder × FoldOrder × FoldOrder)) :
    tipsApart p q r (rounds.foldl (ringRound p q r) s) ∧
    ∀ x, x = p ∨ x = q ∨ x = r →
      (s.nodes.get x).finalizedCommitParents.keys.card + rounds.length ≤
        ((rounds.foldl (ringRound p q r) s).nodes.get x).finalizedCommitParents.keys.card := by
  induction rounds generalizing s with
  | nil => exact ⟨hapart, fun _ _ => le_rfl⟩
  | cons o rounds ih =>
    obtain ⟨hreach, hconn, hapart', hgrown⟩ :=
      ringRound_apart hp hq hr hpq hqr hrp h h₁ h₂ h₃ hapart o
    obtain ⟨hend, hcard⟩ := ih hreach (hconn ▸ h₁) (hconn ▸ h₂) (hconn ▸ h₃) hapart'
    refine ⟨hend, fun x hx => ?_⟩
    have hx₁ := hgrown x hx
    have hx₂ := hcard x hx
    simp only [List.foldl_cons, List.length_cons]
    omega

theorem peer_of_ring {x : PeerID} (hx : x ∈ peers) : x = p ∨ x = q ∨ x = r := by
  have hsub : ({p, q, r} : Finset PeerID) ⊆ peers := by
    simp [Finset.insert_subset_iff, hp, hq, hr]
  have hcard : ({p, q, r} : Finset PeerID).card = 3 := by
    rw [Finset.card_eq_three]
    exact ⟨p, q, r, hpq, hrp.symm, hqr, rfl⟩
  have heq : ({p, q, r} : Finset PeerID) = peers :=
    Finset.eq_of_subset_of_card_le hsub (by rw [hcard]; decide)
  rw [← heq] at hx
  simpa using hx

/-- With three tips of which `q`'s is apart from the other two and `p`'s does not descend from
`r`'s, pulling around the ring `p ← q ← r ← p` never ends: after any number of rounds no two peers
have the same finalized state, and every peer has recorded a new commit in each of them. -/
theorem ring_sync_never_converges {s : State} (h : Reachable Step init s)
    (h₁ : (p, q) ∈ s.connected) (h₂ : (q, r) ∈ s.connected) (h₃ : (r, p) ∈ s.connected)
    (hapart : tipsApart p q r s) (rounds : List (FoldOrder × FoldOrder × FoldOrder)) :
    let s' := rounds.foldl (ringRound p q r) s
    (∀ x ∈ peers, ∀ y ∈ peers, x ≠ y → (s'.nodes.get x).synced ≠ (s'.nodes.get y).synced) ∧
    ∀ x ∈ peers, (s.nodes.get x).finalizedCommitParents.keys.card + rounds.length ≤
      (s'.nodes.get x).finalizedCommitParents.keys.card := by
  intro s'
  obtain ⟨hend, hcard⟩ := ringRounds_apart hp hq hr hpq hqr hrp h h₁ h₂ h₃ hapart rounds
  have htip : ∀ {x y}, (s'.nodes.get x).synced = (s'.nodes.get y).synced →
      (s'.nodes.get x).finalizedCommitId = (s'.nodes.get y).finalizedCommitId :=
    fun heq => congrArg SyncedFields.finalizedCommitId heq
  have hring := @peer_of_ring p q r hp hq hr hpq hqr hrp
  refine ⟨fun x hx y hy hxy heq => ?_, fun x hx => hcard x (hring hx)⟩
  have hbelow : below (s'.nodes.get x).finalizedCommitId (s'.nodes.get y).finalizedCommitId :=
    htip heq ▸ below_refl _
  have hbelow' : below (s'.nodes.get y).finalizedCommitId (s'.nodes.get x).finalizedCommitId :=
    htip heq ▸ below_refl _
  rcases hring hx with rfl | rfl | rfl <;> rcases hring hy with rfl | rfl | rfl
  · exact hxy rfl
  · exact hend.left hbelow
  · exact hend.closing hbelow'
  · exact hend.left' hbelow
  · exact hxy rfl
  · exact hend.right hbelow
  · exact hend.closing hbelow
  · exact hend.right' hbelow
  · exact hxy rfl

end

/-- After the fork of peers 1 and 2, peer 3 takes peer 1's tip and finalizes on top of it. -/
def ringRun : List Action :=
  forkRun ++ [.syncFinalized 3 1, .heartbeat 3 1, .heartbeat 3 2, .finalize 3]

def ringState : State := (runOutcome ringRun).2

theorem ringRun_runs : Run Step init (runOutcome ringRun).1 ringState :=
  run_runOutcome (by decide +kernel)

theorem not_below_of_built {a d : FinalizedCommitID} {ps : Finset FinalizedCommitID}
    (h : Built d ps) (hempty : a ≠ emptyFinalizedCommitId) (hne : a ≠ d)
    (hps : ∀ p ∈ ps, ¬below a p) : ¬below a d := by
  intro hle
  rcases below_built h hle with heq | heq | ⟨p, hp, hle⟩
  · exact hempty heq
  · exact hne heq
  · exact hps p hp hle

theorem tip_built {s : State} (h : Reachable Step init s) {p : PeerID} (hp : p ∈ peers)
    {ps : Finset FinalizedCommitID} (hps : parentsAt (s.nodes.get p).finalizedCommitParents
      (s.nodes.get p).finalizedCommitId = ps) : Built (s.nodes.get p).finalizedCommitId ps := by
  have hok := (swarmInv_of_reachable h).finalized p hp
  rw [← hps]
  exact hok.lineage.built hok.tip_mem

theorem tipsApart_ringState : tipsApart 1 2 3 ringState := by
  have hbuilt := @tip_built ringState ⟨_, ringRun_runs⟩
  have h₁ : Built (ringState.nodes.get 1).finalizedCommitId ∅ :=
    hbuilt (by decide) (by decide +kernel)
  have h₂ : Built (ringState.nodes.get 2).finalizedCommitId ∅ :=
    hbuilt (by decide) (by decide +kernel)
  have h₃ : Built (ringState.nodes.get 3).finalizedCommitId
      {(ringState.nodes.get 1).finalizedCommitId} := hbuilt (by decide) (by decide +kernel)
  have hfresh : ∀ x ∈ peers, (ringState.nodes.get x).finalizedCommitId ≠ emptyFinalizedCommitId :=
    by decide +kernel
  have hdiffer : ∀ x ∈ peers, ∀ y ∈ peers, x ≠ y → (ringState.nodes.get x).finalizedCommitId ≠
      (ringState.nodes.get y).finalizedCommitId := by decide +kernel
  have h21 := not_below_of_built h₁ (hfresh 2 (by decide))
    (hdiffer 2 (by decide) 1 (by decide) (by decide)) (by simp)
  exact
    { left := not_below_of_built h₂ (hfresh 1 (by decide))
        (hdiffer 1 (by decide) 2 (by decide) (by decide)) (by simp)
      left' := h21
      right := not_below_of_built h₃ (hfresh 2 (by decide))
        (hdiffer 2 (by decide) 3 (by decide) (by decide)) (by simpa using h21)
      right' := not_below_of_built h₂ (hfresh 3 (by decide))
        (hdiffer 3 (by decide) 2 (by decide) (by decide)) (by simp)
      closing := not_below_of_built h₁ (hfresh 3 (by decide))
        (hdiffer 3 (by decide) 1 (by decide) (by decide)) (by simp) }

def aHundredRounds : List (FoldOrder × FoldOrder × FoldOrder) :=
  List.replicate 100 (ascendingFolds, ascendingFolds, ascendingFolds)

theorem ring_sync_never_converges_on_fork :
    ((aHundredRounds.foldl (ringRound 1 2 3) ringState).nodes.get 1).synced ≠
      ((aHundredRounds.foldl (ringRound 1 2 3) ringState).nodes.get 3).synced := by
  have h := ring_sync_never_converges (p := 1) (q := 2) (r := 3) (by decide) (by decide)
    (by decide) (by decide) (by decide) (by decide) ⟨_, ringRun_runs⟩ (by decide +kernel)
    (by decide +kernel) (by decide +kernel) tipsApart_ringState aHundredRounds
  exact h.1 1 (by decide) 3 (by decide) (by decide)

end DoltSwarm.Protocol
