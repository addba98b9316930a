import DoltSwarm.Protocol.Identity
import DoltSwarm.Protocol.Lineage

/-!
# The graph of finalized commits

In a faithful parents map every commit id encodes the parents recorded for it. Two such
maps agree where they overlap, parent links lead to shorter ids, and so ancestry is a
partial order that no union of maps can break.
-/

namespace DoltSwarm.Protocol

open Lib

set_option autoImplicit false

/-! ## Commits and the parents their ids encode -/

structure Built (c : FinalizedCommitID) (parents : Finset FinalizedCommitID) : Prop where
  headed : ∀ p ∈ parents, headed p
  id_eq : ∀ o : FoldOrder, c = @makeFinalizedCommitID o c.root parents c.kind

theorem built_make (o : FoldOrder) (root : ProllyRootHash) {parents : Finset FinalizedCommitID}
    (kind : Int) (h : ∀ p ∈ parents, headed p) :
    Built (@makeFinalizedCommitID o root parents kind) parents :=
  ⟨h, fun o' => makeFinalizedCommitID_order o o' root parents kind⟩

theorem built_empty : Built emptyFinalizedCommitId ∅ := by
  refine ⟨by simp, fun o => ?_⟩
  rw [makeFinalizedCommitID_order o ascendingFolds]
  decide

namespace Built

variable {c : FinalizedCommitID} {ps ps' : Finset FinalizedCommitID}

theorem unique (h : Built c ps) (h' : Built c ps') : ps = ps' :=
  parents_eq_of_make_eq ascendingFolds ascendingFolds h.headed h'.headed
    ((h.id_eq _).symm.trans (h'.id_eq _))

theorem headed_self (h : Built c ps) : Protocol.headed c := by
  rw [h.id_eq ascendingFolds]
  exact headed_makeFinalizedCommitID _ _ _ _

theorem shorter (h : Built c ps) {p : FinalizedCommitID} (hp : p ∈ ps) :
    p.tokens.length < c.tokens.length := by
  rw [h.id_eq ascendingFolds]
  exact length_tokens_lt_make _ hp

end Built

/-! ## Faithful parents maps -/

def Faithful (P : ParentsMap) : Prop := ∀ c ps, P.lookup c = some ps → Built c ps

theorem parentsAt_of_lookup {P : ParentsMap} {c : FinalizedCommitID}
    {ps : Finset FinalizedCommitID} (h : P.lookup c = some ps) : parentsAt P c = ps := by
  rw [parentsAt, if_pos (Map.mem_keys_of_lookup h), Map.get_of_lookup h]

theorem parentsAt_of_notMem {P : ParentsMap} {c : FinalizedCommitID} (h : c ∉ P.keys) :
    parentsAt P c = ∅ := if_neg h

theorem lookup_of_mem_parentsAt {P : ParentsMap} {c p : FinalizedCommitID}
    (h : p ∈ parentsAt P c) : P.lookup c = some (parentsAt P c) := by
  by_cases hc : c ∈ P.keys
  · rw [parentsAt, if_pos hc]
    exact Map.lookup_of_mem hc
  · rw [parentsAt_of_notMem hc] at h
    simp at h

namespace Faithful

variable {P Q : ParentsMap}

theorem parentsAt_eq (hP : Faithful P) {c : FinalizedCommitID} (hc : c ∈ P.keys)
    {ps : Finset FinalizedCommitID} (h : Built c ps) : parentsAt P c = ps := by
  rw [parentsAt_of_lookup (Map.lookup_of_mem hc)]
  exact (hP c _ (Map.lookup_of_mem hc)).unique h

theorem built (hP : Faithful P) {c : FinalizedCommitID} (hc : c ∈ P.keys) :
    Built c (parentsAt P c) := by
  rw [parentsAt_of_lookup (Map.lookup_of_mem hc)]
  exact hP c _ (Map.lookup_of_mem hc)

theorem shorter (hP : Faithful P) {c p : FinalizedCommitID} (h : p ∈ parentsAt P c) :
    p.tokens.length < c.tokens.length := (hP c _ (lookup_of_mem_parentsAt h)).shorter h

theorem shorter_of_path (hP : Faithful P) {a b : FinalizedCommitID}
    (h : Path (parentsAt P) a b) : a = b ∨ b.tokens.length < a.tokens.length := by
  induction h with
  | refl => exact Or.inl rfl
  | tail _ hbc ih =>
    have hlt := hP.shorter hbc
    rcases ih with rfl | ih
    · exact Or.inr hlt
    · exact Or.inr (hlt.trans ih)

theorem parentsAt_empty (hP : Faithful P) : parentsAt P emptyFinalizedCommitId = ∅ := by
  by_cases h : emptyFinalizedCommitId ∈ P.keys
  · exact hP.parentsAt_eq h built_empty
  · exact parentsAt_of_notMem h

theorem put (hP : Faithful P) {c : FinalizedCommitID} {ps : Finset FinalizedCommitID}
    (h : Built c ps) : Faithful (P.put c ps) := by
  intro d qs hd
  rw [Map.lookup_put] at hd
  split at hd
  · rename_i heq
    rw [← Option.some.inj hd, heq]
    exact h
  · exact hP d qs hd

end Faithful

/-! ## Union of two maps -/

theorem mergeSetMap_comm (P Q : ParentsMap) : mergeSetMap P Q = mergeSetMap Q P := by
  simp only [mergeSetMap, Finset.union_comm]

@[simp] theorem keys_mergeSetMap (P Q : ParentsMap) :
    (mergeSetMap P Q).keys = P.keys ∪ Q.keys := Map.keys_mapBy _ _

theorem parentsAt_mergeSetMap (P Q : ParentsMap) (c : FinalizedCommitID) :
    parentsAt (mergeSetMap P Q) c = parentsAt P c ∪ parentsAt Q c := by
  by_cases h : c ∈ P.keys ∪ Q.keys
  · exact parentsAt_of_lookup (Map.lookup_mapBy_of_mem _ h)
  · have hP : c ∉ P.keys := fun hc => h (Finset.mem_union_left _ hc)
    have hQ : c ∉ Q.keys := fun hc => h (Finset.mem_union_right _ hc)
    rw [parentsAt_of_notMem hP, parentsAt_of_notMem hQ, parentsAt_of_notMem (by simpa using h)]
    rfl

theorem Faithful.merge {P Q : ParentsMap} (hP : Faithful P) (hQ : Faithful Q) :
    Faithful (mergeSetMap P Q) := by
  intro c ps hc
  rw [← parentsAt_of_lookup hc, parentsAt_mergeSetMap]
  have hmem : c ∈ P.keys ∪ Q.keys := by
    rw [← keys_mergeSetMap]
    exact Map.mem_keys_of_lookup hc
  by_cases hp : c ∈ P.keys
  · have hb := hP.built hp
    by_cases hq : c ∈ Q.keys
    · rw [hQ.parentsAt_eq hq hb, Finset.union_self]
      exact hb
    · rw [parentsAt_of_notMem hq, Finset.union_empty]
      exact hb
  · have hq : c ∈ Q.keys := (Finset.mem_union.mp hmem).resolve_left hp
    rw [parentsAt_of_notMem hp, Finset.empty_union]
    exact hQ.built hq

theorem Faithful.ext {P Q : ParentsMap} (hP : Faithful P) (hQ : Faithful Q)
    (h : P.keys = Q.keys) : P = Q := by
  refine Map.ext_get h fun c hc => ?_
  exact (hP c _ (Map.lookup_of_mem hc)).unique (hQ c _ (Map.lookup_of_mem (h ▸ hc)))

theorem Faithful.merge_eq_left {P Q : ParentsMap} (hP : Faithful P) (hQ : Faithful Q)
    (h : Q.keys ⊆ P.keys) : mergeSetMap P Q = P :=
  (hP.merge hQ).ext hP (by rw [keys_mergeSetMap, Finset.union_eq_left.mpr h])

/-! ## Ancestors -/

/-- Ancestor through parent links, the empty commit being below everything. -/
def ancestorThrough (P : ParentsMap) (ancestor descendant : FinalizedCommitID) : Prop :=
  ancestor = emptyFinalizedCommitId ∨ Path (parentsAt P) descendant ancestor

theorem self_mem_lineageAncestors (P : ParentsMap) (c : FinalizedCommitID) :
    c ∈ lineageAncestors P c :=
  Finset.mem_union_left _ (subset_unrolledClosure _ _ (Finset.mem_singleton_self c))

theorem empty_mem_lineageAncestors (P : ParentsMap) (c : FinalizedCommitID) :
    emptyFinalizedCommitId ∈ lineageAncestors P c :=
  Finset.mem_union_right _ (Finset.mem_singleton_self _)

theorem parent_mem_lineageAncestors {P : ParentsMap} {c p : FinalizedCommitID}
    (h : p ∈ parentsAt P c) : p ∈ lineageAncestors P c :=
  Finset.mem_union_left _ (next_subset_unrolledClosure (by decide)
    (Finset.mem_singleton_self c) h)

theorem path_of_mem_lineageAncestors {P : ParentsMap} {a c : FinalizedCommitID}
    (h : a ∈ lineageAncestors P c) : a = emptyFinalizedCommitId ∨ Path (parentsAt P) c a := by
  rcases Finset.mem_union.mp h with h | h
  · obtain ⟨x, hx, hpath⟩ := path_of_mem_unrolledClosure h
    rw [Finset.mem_singleton.mp hx] at hpath
    exact Or.inr hpath
  · exact Or.inl (Finset.mem_singleton.mp h)

/-- In a lineage no longer than the walk, the walk finds every ancestor. -/
theorem mem_lineageAncestors_of_ancestorThrough {P : ParentsMap}
    (hclosed : ∀ c, parentsAt P c ⊆ P.keys) (hcard : P.keys.card ≤ maxEvents + 5)
    {a c : FinalizedCommitID} (hc : c ∈ P.keys) (h : ancestorThrough P a c) :
    a ∈ lineageAncestors P c := by
  rcases h with rfl | hpath
  · exact empty_mem_lineageAncestors P c
  · exact Finset.mem_union_left _ (mem_unrolledClosure_of_path
      (Finset.singleton_subset_iff.mpr hc) (fun x _ => hclosed x) hcard
      (Finset.mem_singleton_self c) hpath)

namespace Faithful

variable {P : ParentsMap}

theorem eq_empty_of_ancestorThrough (hP : Faithful P) {c : FinalizedCommitID}
    (h : ancestorThrough P c emptyFinalizedCommitId) : c = emptyFinalizedCommitId := by
  rcases h with h | h
  · exact h
  · rcases Relation.ReflTransGen.cases_head h with h | ⟨d, hd, _⟩
    · exact h.symm
    · rw [hP.parentsAt_empty] at hd
      simp at hd

theorem parentsAt_subset (hP : Faithful P) {Q : ParentsMap} (hQ : Faithful Q)
    (hkeys : P.keys ⊆ Q.keys) (c : FinalizedCommitID) : parentsAt P c ⊆ parentsAt Q c := by
  by_cases hc : c ∈ P.keys
  · rw [hQ.parentsAt_eq (hkeys hc) (hP.built hc)]
  · rw [parentsAt_of_notMem hc]
    exact Finset.empty_subset _

theorem ancestorThrough_extend (hP : Faithful P) {Q : ParentsMap} (hQ : Faithful Q)
    (hkeys : P.keys ⊆ Q.keys) {c tip tip' : FinalizedCommitID} (hc : ancestorThrough P c tip)
    (htip : ancestorThrough Q tip tip') : ancestorThrough Q c tip' := by
  rcases htip with rfl | htip
  · exact Or.inl (hP.eq_empty_of_ancestorThrough hc)
  · exact hc.imp_right fun hpath =>
      htip.trans (Path.mono (hP.parentsAt_subset hQ hkeys) hpath)

theorem ancestors_antisymm (hP : Faithful P) {a b : FinalizedCommitID}
    (hab : a ∈ lineageAncestors P b) (hba : b ∈ lineageAncestors P a) : a = b := by
  have hab' : ancestorThrough P a b := path_of_mem_lineageAncestors hab
  have hba' : ancestorThrough P b a := path_of_mem_lineageAncestors hba
  rcases hab' with rfl | ha
  · exact (hP.eq_empty_of_ancestorThrough hba').symm
  · rcases hba' with rfl | hb
    · exact hP.eq_empty_of_ancestorThrough (Or.inr ha)
    · rcases hP.shorter_of_path ha with h | h
      · exact h.symm
      · rcases hP.shorter_of_path hb with h' | h'
        · exact h'
        · omega

theorem acyclic (hP : Faithful P) (c : FinalizedCommitID) :
    ¬Relation.TransGen (fun a b => b ∈ parentsAt P a) c c := by
  intro h
  obtain ⟨d, hd, hpath⟩ := Relation.TransGen.tail'_iff.mp h
  have hlt := hP.shorter hpath
  rcases hP.shorter_of_path hd with rfl | h'
  · exact lt_irrefl _ hlt
  · exact lt_irrefl _ (hlt.trans h')

theorem length_le_of_mem_ancestors (hP : Faithful P) {a c : FinalizedCommitID}
    (h : a ∈ lineageAncestors P c) (ha : a ≠ emptyFinalizedCommitId) :
    a.tokens.length ≤ c.tokens.length := by
  rcases path_of_mem_lineageAncestors h with h | h
  · exact absurd h ha
  · rcases hP.shorter_of_path h with h | h
    · rw [h]
    · exact h.le

/-- Recording a commit under the parents its id encodes drops none of them. -/
theorem lineageAddFinalizedCommit_eq (hP : Faithful P) {c : FinalizedCommitID}
    {ps : Finset FinalizedCommitID} (h : Built c ps) (hc : c ≠ emptyFinalizedCommitId) :
    lineageAddFinalizedCommit P c ps = P.put c ps := by
  have hself : ps \ {c} = ps := by
    rw [Finset.sdiff_singleton_eq_erase, Finset.erase_eq_of_notMem]
    exact fun hmem => absurd (h.shorter hmem) (lt_irrefl _)
  have hacyclic : ps.filter (fun parent => c ∉ lineageAncestors P parent) = ps := by
    refine Finset.filter_true_of_mem fun p hp hmem => ?_
    have hle := hP.length_le_of_mem_ancestors hmem hc
    have hlt := h.shorter hp
    omega
  have hprior : parentsAt P c ∪ ps = ps := by
    by_cases hk : c ∈ P.keys
    · rw [hP.parentsAt_eq hk h, Finset.union_self]
    · rw [parentsAt_of_notMem hk, Finset.empty_union]
  simp only [lineageAddFinalizedCommit, hself, hacyclic, hprior]

end Faithful

end DoltSwarm.Protocol
