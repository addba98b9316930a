import DoltSwarm.Protocol.FinalizedMerge

/-!
# The lowest common ancestor of two finalized commits

Ancestors and depths are computed in `maxEvents + 4` rounds. In a parents map whose chains are
no longer than that, both have settled when the rounds are over: the ancestors are all that
parent links reach, depths grow along every link, and the commit chosen by depth has no
descendant among the common ancestors.
-/

namespace DoltSwarm.Protocol

open Lib

set_option autoImplicit false

/-- No chain of parent links from `c` has more than `n` links. -/
def chainsWithin (P : ParentsMap) (n : ℕ) (c : FinalizedCommitID) : Prop :=
  ∀ l : List FinalizedCommitID,
    (c :: l).IsChain (fun child parent => parent ∈ parentsAt P child) → l.length ≤ n

/-- The empty commit is at the bottom and the rounds cover every chain, which leaves no room
for a cycle. -/
structure ShortLineage (P : ParentsMap) : Prop where
  bottom : parentsAt P emptyFinalizedCommitId = ∅
  short : ∀ c, chainsWithin P (maxEvents + 4) c

section Rounds

variable {P : ParentsMap} {c p : FinalizedCommitID} {n : ℕ}

theorem chainsWithin.parent (h : chainsWithin P (n + 1) c) (hp : p ∈ parentsAt P c) :
    chainsWithin P n p := by
  intro l hl
  have hlong := h (p :: l) (List.isChain_cons_cons.mpr ⟨hp, hl⟩)
  simpa using hlong

theorem chainsWithin.no_parent (h : chainsWithin P 0 c) : parentsAt P c = ∅ := by
  refine Finset.eq_empty_of_forall_notMem fun p hp => ?_
  have hlong := h [p] (List.isChain_cons_cons.mpr ⟨hp, .singleton p⟩)
  simp at hlong

def commitsWithDepth (P : ParentsMap) : Finset FinalizedCommitID :=
  lineageKnownFinalizedCommits P ∪ {emptyFinalizedCommitId}

def depthsAfter (P : ParentsMap) (rounds : ℕ) : Map FinalizedCommitID ℕ :=
  (depthRound P (commitsWithDepth P))^[rounds]
    (Map.mapBy (commitsWithDepth P) fun c => if c = emptyFinalizedCommitId then 0 else 1)

theorem lineageDepthMap_eq (P : ParentsMap) :
    lineageDepthMap P = depthsAfter P (maxEvents + 4) := rfl

theorem depthsAfter_succ (P : ParentsMap) (n : ℕ) :
    depthsAfter P (n + 1) = depthRound P (commitsWithDepth P) (depthsAfter P n) :=
  Function.iterate_succ_apply' _ _ _

theorem keys_depthsAfter (P : ParentsMap) (n : ℕ) :
    (depthsAfter P n).keys = commitsWithDepth P := by
  cases n with
  | zero => exact Map.keys_mapBy _ _
  | succ n =>
    rw [depthsAfter_succ]
    exact Map.keys_mapBy _ _

theorem mem_commitsWithDepth_of_parent (hp : p ∈ parentsAt P c) :
    c ∈ commitsWithDepth P ∧ p ∈ commitsWithDepth P := by
  rw [parentsAt] at hp
  split_ifs at hp with hc
  · refine ⟨Finset.mem_union_left _ (Finset.mem_union_left _ hc), Finset.mem_union_left _ ?_⟩
    exact Finset.mem_union_right _ (Finset.mem_biUnion.mpr ⟨c, hc, hp⟩)
  · simp at hp

theorem empty_mem_commitsWithDepth (P : ParentsMap) :
    emptyFinalizedCommitId ∈ commitsWithDepth P :=
  Finset.mem_union_right _ (Finset.mem_singleton_self _)

theorem depthsAfter_empty (P : ParentsMap) (n : ℕ) :
    (depthsAfter P n).get emptyFinalizedCommitId = 0 := by
  have hmem := empty_mem_commitsWithDepth P
  cases n with
  | zero => exact (Map.get_mapBy_of_mem _ hmem).trans (if_pos rfl)
  | succ n =>
    rw [depthsAfter_succ]
    exact (Map.get_mapBy_of_mem _ hmem).trans (if_pos rfl)

theorem depthsAfter_zero (hc : c ∈ commitsWithDepth P) (hne : c ≠ emptyFinalizedCommitId) :
    (depthsAfter P 0).get c = 1 := (Map.get_mapBy_of_mem _ hc).trans (if_neg hne)

theorem depthsAfter_step (n : ℕ) (hc : c ∈ commitsWithDepth P)
    (hne : c ≠ emptyFinalizedCommitId) :
    (depthsAfter P (n + 1)).get c = (parentsAt P c).sup (depthsAfter P n).get + 1 := by
  rw [depthsAfter_succ, depthRound, Map.get_mapBy_of_mem _ hc, if_neg hne, keys_depthsAfter]
  by_cases hparents : c ∈ P.keys ∧ P.get c ≠ ∅
  · have hat : parentsAt P c = P.get c := if_pos hparents.1
    simp only [if_pos hparents, hat]
    congr 1
    refine Finset.sup_congr rfl fun p hp => ?_
    rw [if_pos (mem_commitsWithDepth_of_parent (hat ▸ hp)).2]
  · -- a commit without parents stands on the empty commit
    have hat : parentsAt P c = ∅ := by
      rw [parentsAt]
      split_ifs with hkey
      · exact not_not.mp fun h => hparents ⟨hkey, h⟩
      · rfl
    simp only [if_neg hparents, hat, Finset.sup_singleton, Finset.sup_empty,
      if_pos (empty_mem_commitsWithDepth P), depthsAfter_empty, bot_eq_zero]

/-- A commit whose chains the rounds cover has its final depth. -/
theorem depthsAfter_stable (h : chainsWithin P n c) (hc : c ∈ commitsWithDepth P) :
    (depthsAfter P (n + 1)).get c = (depthsAfter P n).get c := by
  by_cases hne : c = emptyFinalizedCommitId
  · rw [hne, depthsAfter_empty, depthsAfter_empty]
  induction n generalizing c with
  | zero =>
    rw [depthsAfter_step 0 hc hne, depthsAfter_zero hc hne, h.no_parent, Finset.sup_empty]
    rfl
  | succ n ih =>
    rw [depthsAfter_step _ hc hne, depthsAfter_step _ hc hne]
    congr 1
    refine Finset.sup_congr rfl fun p hp => ?_
    have hknown := (mem_commitsWithDepth_of_parent hp).2
    by_cases hpne : p = emptyFinalizedCommitId
    · rw [hpne, depthsAfter_empty, depthsAfter_empty]
    · exact ih (h.parent hp) hknown hpne

end Rounds

section Settled

variable {P : ParentsMap} {a b c p x y : FinalizedCommitID}

theorem mem_lineageAncestors_iff (hP : ShortLineage P) :
    x ∈ lineageAncestors P c ↔ Path (parentsAt P) c x ∨ x = emptyFinalizedCommitId := by
  constructor
  · exact fun h => (path_of_mem_lineageAncestors h).symm
  · rintro (hpath | rfl)
    · exact Finset.mem_union_left _ (mem_unrolledClosure_of_bounded (hP.short c) hpath)
    · exact empty_mem_lineageAncestors P c

theorem depthOf_eq (hc : c ∈ commitsWithDepth P) :
    depthOf P c = (depthsAfter P (maxEvents + 4)).get c := by
  rw [depthOf, lineageDepthMap_eq, if_pos (keys_depthsAfter P _ ▸ hc)]

theorem depthOf_empty (P : ParentsMap) : depthOf P emptyFinalizedCommitId = 0 := by
  rw [depthOf_eq (empty_mem_commitsWithDepth P), depthsAfter_empty]

theorem depthOf_pos (hc : c ∈ commitsWithDepth P) (hne : c ≠ emptyFinalizedCommitId) :
    0 < depthOf P c := by
  rw [depthOf_eq hc, depthsAfter_step _ hc hne]
  exact Nat.succ_pos _

theorem depthOf_parent_lt (hP : ShortLineage P) (hp : p ∈ parentsAt P c) :
    depthOf P p < depthOf P c := by
  obtain ⟨hc, hpc⟩ := mem_commitsWithDepth_of_parent hp
  have hne : c ≠ emptyFinalizedCommitId := by
    rintro rfl
    simp [hP.bottom] at hp
  rw [depthOf_eq hc, depthOf_eq hpc, depthsAfter_step _ hc hne,
    depthsAfter_stable ((hP.short c).parent hp) hpc]
  exact Nat.lt_succ_of_le (Finset.le_sup (f := (depthsAfter P (maxEvents + 3)).get) hp)

theorem depthOf_lt_of_path (hP : ShortLineage P) (hpath : Path (parentsAt P) y x)
    (hne : y ≠ x) : depthOf P x < depthOf P y := by
  induction hpath using Relation.ReflTransGen.head_induction_on with
  | refl => exact absurd rfl hne
  | @head y z hlink hrest ih =>
    have hlt := depthOf_parent_lt hP hlink
    by_cases hz : z = x
    · exact hz ▸ hlt
    · exact (ih hz).trans hlt

theorem mem_commitsWithDepth_of_path (hc : c ∈ commitsWithDepth P)
    (hpath : Path (parentsAt P) c x) : x ∈ commitsWithDepth P := by
  induction hpath with
  | refl => exact hc
  | tail _ hlink _ => exact (mem_commitsWithDepth_of_parent hlink).2

theorem mem_commitsWithDepth_of_ancestor (hP : ShortLineage P) (hc : c ∈ commitsWithDepth P)
    (hx : x ∈ lineageAncestors P c) : x ∈ commitsWithDepth P := by
  rcases (mem_lineageAncestors_iff hP).mp hx with hpath | rfl
  · exact mem_commitsWithDepth_of_path hc hpath
  · exact empty_mem_commitsWithDepth P

theorem depthOf_lt_of_ancestor (hP : ShortLineage P) (hy : y ∈ commitsWithDepth P)
    (hx : x ∈ lineageAncestors P y) (hne : y ≠ x) : depthOf P x < depthOf P y := by
  rcases (mem_lineageAncestors_iff hP).mp hx with hpath | rfl
  · exact depthOf_lt_of_path hP hpath hne
  · rw [depthOf_empty]
    exact depthOf_pos hy hne

section Choice

variable (o : FoldOrder)

theorem lca_mem_common (P : ParentsMap) (a b : FinalizedCommitID) :
    @lineageLcaFinalizedCommit o a b P ∈ lineageAncestors P a ∩ lineageAncestors P b := by
  rw [lca_eq_best]
  rcases List.mem_cons.mp (best_mem (deeperFirst (depthOf P)) emptyFinalizedCommitId
    (o.commits.list (lineageAncestors P a ∩ lineageAncestors P b))) with h | h
  · rw [h]
    exact Finset.mem_inter.mpr
      ⟨empty_mem_lineageAncestors P a, empty_mem_lineageAncestors P b⟩
  · exact (o.commits.mem_list _ _).mp h

theorem depthOf_le_lca (hx : x ∈ lineageAncestors P a ∩ lineageAncestors P b) :
    depthOf P x ≤ depthOf P (@lineageLcaFinalizedCommit o a b P) := by
  have hbest := not_better_best (deeperFirst_strictTotal (depthOf P)) emptyFinalizedCommitId
    (o.commits.list (lineageAncestors P a ∩ lineageAncestors P b)) x
    (List.mem_cons_of_mem _ ((o.commits.mem_list _ _).mpr hx))
  rw [← lca_eq_best] at hbest
  by_contra hdeeper
  rw [(deeperFirst_iff _ _ _).mpr (Or.inl (not_le.mp hdeeper))] at hbest
  cases hbest

end Choice

/-- In a lineage that the rounds cover, ancestors are what parent links reach, depths grow
along the links, and the commit chosen for two known commits is, for both orders of the
commits and of the fold, a common ancestor without a proper descendant among them. -/
theorem lowest_common_ancestor_of_short (hP : ShortLineage P) :
    (∀ c x, x ∈ lineageAncestors P c ↔
      Path (parentsAt P) c x ∨ x = emptyFinalizedCommitId) ∧
    (∀ c, ∀ p ∈ parentsAt P c, c ∈ (lineageDepthMap P).keys ∧ p ∈ (lineageDepthMap P).keys ∧
      (lineageDepthMap P).get p < (lineageDepthMap P).get c) ∧
    ∀ a ∈ lineageKnownFinalizedCommits P, ∀ b ∈ lineageKnownFinalizedCommits P,
      ∀ o o' : FoldOrder,
      @lineageLcaFinalizedCommit o a b P = @lineageLcaFinalizedCommit o' b a P ∧
      @lineageLcaFinalizedCommit o a b P ∈ lineageAncestors P a ∩ lineageAncestors P b ∧
      ∀ y ∈ lineageAncestors P a ∩ lineageAncestors P b,
        @lineageLcaFinalizedCommit o a b P ∈ lineageAncestors P y →
        y = @lineageLcaFinalizedCommit o a b P := by
  refine ⟨fun c x => mem_lineageAncestors_iff hP, fun c p hp => ?_, fun a ha b hb o o' => ?_⟩
  · obtain ⟨hc, hpc⟩ := mem_commitsWithDepth_of_parent hp
    have hlt := depthOf_parent_lt hP hp
    rw [depthOf_eq hc, depthOf_eq hpc] at hlt
    rw [lineageDepthMap_eq, keys_depthsAfter]
    exact ⟨hc, hpc, hlt⟩
  · refine ⟨lca_comm o o' a b P, lca_mem_common o P a b, fun y hy hbelow => ?_⟩
    have hknown := mem_commitsWithDepth_of_ancestor hP (Finset.mem_union_left _ ha)
      (Finset.mem_inter.mp hy).1
    by_contra hne
    exact absurd (depthOf_le_lca o hy) (not_le.mpr (depthOf_lt_of_ancestor hP hknown hbelow hne))

end Settled

theorem chainsWithin_of_rank {P : ParentsMap} (rank : FinalizedCommitID → ℕ)
    (h : ∀ c ∈ P.keys, ∀ p ∈ P.get c, rank p < rank c) (c : FinalizedCommitID) :
    chainsWithin P (rank c) c := by
  intro l
  induction l generalizing c with
  | nil => exact fun _ => Nat.zero_le _
  | cons p l ih =>
    intro hl
    obtain ⟨hlink, hrest⟩ := List.isChain_cons_cons.mp hl
    have hlt : rank p < rank c := by
      rw [parentsAt] at hlink
      split_ifs at hlink with hc
      · exact h c hc p hlink
      · simp at hlink
    have hlen := ih p hrest
    rw [List.length_cons]
    omega

def forkedParents : ParentsMap :=
  Map.mapBy {emptyFinalizedCommitId, ⟨1, [1], 1⟩, ⟨2, [2], 1⟩, ⟨3, [3], 1⟩} fun c =>
    if c.root = 0 then ∅ else if c.root = 1 then {emptyFinalizedCommitId} else {⟨1, [1], 1⟩}

theorem short_forkedParents : ShortLineage forkedParents where
  bottom := by decide +kernel
  short := by
    intro c l hl
    have hlen := chainsWithin_of_rank (fun c => min c.root.toNat 2) (by decide +kernel) c l hl
    exact hlen.trans ((Nat.min_le_right _ 2).trans (by decide))

theorem lowest_common_ancestor_of_fork :
    @lineageLcaFinalizedCommit ascendingFolds ⟨2, [2], 1⟩ ⟨3, [3], 1⟩ forkedParents =
      ⟨1, [1], 1⟩ := by
  have hlca := (lowest_common_ancestor_of_short short_forkedParents).2.2
    ⟨2, [2], 1⟩ (by decide +kernel) ⟨3, [3], 1⟩ (by decide +kernel) ascendingFolds ascendingFolds
  exact hlca.1.trans (by decide +kernel)

end DoltSwarm.Protocol
