import DoltSwarm.Core.Reconciler

/-!
# What one round of a replay does to its branch

A round resets the branch to a child of its head, leaves it alone and reports the commit, or
puts a new commit on it. The new commit stands on the parents of whatever the merge left
checked out, so in two of three cases it takes the place of a commit that was there before.
-/

namespace DoltSwarm.Core

set_option autoImplicit false

def mergedParents (s : Store) (head commit : Hash) : List Hash :=
  if commit ∈ s.dag.ancestors head then s.dag.links head
  else if head ∈ s.dag.ancestors commit then s.dag.links commit
  else [head, commit]

/-- The commits that are still reached after `commit` was merged into `head` and the commit
then checked out was amended. -/
def survivesAmend (s : Store) (head commit x : Hash) : Prop :=
  if commit ∈ s.dag.ancestors head then x ∈ s.dag.ancestors head ∧ x ≠ head
  else if head ∈ s.dag.ancestors commit then x ∈ s.dag.ancestors commit ∧ x ≠ commit
  else x ∈ s.dag.ancestors head ∨ x ∈ s.dag.ancestors commit

instance (s : Store) (head commit x : Hash) : Decidable (survivesAmend s head commit x) := by
  unfold survivesAmend
  infer_instance

theorem survivesAmend_iff (s : Store) (head commit x : Hash) :
    survivesAmend s head commit x ↔
      ∃ p ∈ mergedParents s head commit, x ∈ s.dag.ancestors p := by
  unfold survivesAmend mergedParents
  split_ifs
  · exact Lib.Dag.mem_proper_ancestors_iff
  · exact Lib.Dag.mem_proper_ancestors_iff
  · simp

theorem mem_keys_of_mem_mergedParents {s : Store} {head commit p : Hash}
    (hhead : head ∈ s.dag.keys) (hcommit : commit ∈ s.dag.keys)
    (hp : p ∈ mergedParents s head commit) : p ∈ s.dag.keys := by
  unfold mergedParents at hp
  split_ifs at hp
  · exact Lib.Dag.mem_keys_of_mem_links hp
  · exact Lib.Dag.mem_keys_of_mem_links hp
  · rcases List.mem_pair.mp hp with rfl | rfl
    · exact hhead
    · exact hcommit

def isChildOf (s : Store) (commit head : Hash) : Prop := (s.dag.links commit).head? = some head

instance (s : Store) (commit head : Hash) : Decidable (isChildOf s commit head) :=
  inferInstanceAs (Decidable ((s.dag.links commit).head? = some head))

theorem mem_links_of_isChildOf {s : Store} {commit head : Hash} (h : isChildOf s commit head) :
    head ∈ s.dag.links commit := List.mem_of_mem_head? h

section Sound

variable (env : Env)

structure CommitCall where
  store : Store
  parents : List Hash
  body : CommitBody

def mergeCalls (s : Store) (head commit : Hash) (n : ℕ) : List CommitCall :=
  if commit ∉ s.dag.keys ∨ commit ∈ s.dag.ancestors head ∨ head ∈ s.dag.ancestors commit then []
  else
    match env.merge head commit with
    | .refused _ => []
    | .merged root => [⟨s, [head, commit], (env.mergeStamp n).body root⟩]

def amendCalls (s : Store) (head : Hash) (stamp : Stamp) : List CommitCall :=
  match s.dag.lookup head with
  | none => []
  | some n => [⟨s, n.links, stamp.body n.value.root⟩]

def roundCalls (st : ReplayState) (cwm : CommitWithMeta) : List CommitCall :=
  if isChildOf st.store cwm.commit.hash st.headHash then []
  else
    mergeCalls env st.store st.headHash cwm.commit.hash st.mergeCommits ++
      match doltMerge env st.store st.headHash cwm.commit.hash st.mergeCommits with
      | .error _ => []
      | .ok (store, head) => amendCalls store head (amendStamp cwm.hlc (env.now st.mergeCommits))

def Env.IsNew (c : CommitCall) : Prop :=
  env.newHash c.store c.parents c.body ∉ c.store.dag.keys ∧
    env.newHash c.store c.parents c.body ≠ ""

instance (c : CommitCall) : Decidable (env.IsNew c) := inferInstanceAs (Decidable (_ ∧ _))

/-- The commits of a round get new hashes, and the query for a first parent answers. -/
def Env.SoundAt (st : ReplayState) (cwm : CommitWithMeta) : Prop :=
  (∀ c ∈ roundCalls env st cwm, env.IsNew c) ∧ env.fails (.firstParent cwm.commit.hash) = false

instance (st : ReplayState) (cwm : CommitWithMeta) : Decidable (env.SoundAt st cwm) :=
  inferInstanceAs (Decidable (_ ∧ _))

/-- So do all rounds of a replay. -/
def Env.Sound : ReplayState → List CommitWithMeta → Prop
  | _, [] => True
  | st, cwm :: rest => env.SoundAt st cwm ∧
    match replayCommit env st cwm with
    | .error _ => True
    | .ok mid => Env.Sound mid rest

instance Env.decidableSound : ∀ st commits, Decidable (env.Sound st commits)
  | _, [] => instDecidableTrue
  | st, cwm :: rest => by
    unfold Env.Sound
    have hrest (mid : ReplayState) : Decidable (env.Sound mid rest) :=
      Env.decidableSound mid rest
    cases replayCommit env st cwm <;> infer_instance

variable {env}

theorem Env.Sound.cons {st mid : ReplayState} {cwm : CommitWithMeta} {rest : List CommitWithMeta}
    (h : env.Sound st (cwm :: rest)) (hstep : replayCommit env st cwm = .ok mid) :
    env.SoundAt st cwm ∧ env.Sound mid rest := by
  obtain ⟨hround, hrest⟩ := h
  rw [hstep] at hrest
  exact ⟨hround, hrest⟩

theorem Env.sound_of_isNew (hnew : ∀ c, env.IsNew c)
    (hanswers : ∀ commit, env.fails (.firstParent commit) = false) (st : ReplayState)
    (commits : List CommitWithMeta) : env.Sound st commits := by
  induction commits generalizing st with
  | nil => exact trivial
  | cons cwm rest ih =>
    refine ⟨⟨fun c _ => hnew c, hanswers _⟩, ?_⟩
    split
    · trivial
    · exact ih _

end Sound

/-- The commit that closes a round stands on the merged parents and carries the metadata of
a derived merge. -/
structure Amended (env : Env) (st : ReplayState) (cwm : CommitWithMeta) (st' : ReplayState) :
    Prop where
  grown : st.store.dag ≤ st'.store.dag
  fresh : st'.headHash ∉ st.store.dag.keys
  made : ∃ root, st'.store.dag.lookup st'.headHash =
    some ⟨st'.headHash, mergedParents st.store st.headHash cwm.commit.hash,
      (amendStamp cwm.hlc (env.now st.mergeCommits)).body root⟩
  rejected : st'.rejected = st.rejected

inductive ReplayMove (env : Env) (st : ReplayState) (cwm : CommitWithMeta) : ReplayState → Prop
  | forward (hchild : isChildOf st.store cwm.commit.hash st.headHash) :
      ReplayMove env st cwm { st with headHash := cwm.commit.hash }
  | reject (hchild : ¬ isChildOf st.store cwm.commit.hash st.headHash)
      (hup : cwm.commit.hash ∉ st.store.dag.ancestors st.headHash)
      (hdown : st.headHash ∉ st.store.dag.ancestors cwm.commit.hash) (err : String)
      (hmerge : env.merge st.headHash cwm.commit.hash = .refused err)
      (hconflict : isConflictError err = true) :
      ReplayMove env st cwm { st with rejected := st.rejected ++ [rejection cwm] }
  | amend {st' : ReplayState} (hchild : ¬ isChildOf st.store cwm.commit.hash st.headHash)
      (hmerge : cwm.commit.hash ∈ st.store.dag.ancestors st.headHash ∨
        st.headHash ∈ st.store.dag.ancestors cwm.commit.hash ∨
        ∃ root, env.merge st.headHash cwm.commit.hash = .merged root)
      (hamended : Amended env st cwm st') : ReplayMove env st cwm st'

section Inversion

variable {env : Env} {s : Store} {head commit : Hash}

theorem makeCommit_spec {parents : List Hash} {body : CommitBody}
    (hnew : env.IsNew ⟨s, parents, body⟩) (hparents : ∀ p ∈ parents, p ∈ s.dag.keys) :
    s.dag ≤ (makeCommit env s parents body).1.dag ∧
      (makeCommit env s parents body).2 ∉ s.dag.keys ∧
      (makeCommit env s parents body).1.dag.lookup (makeCommit env s parents body).2 =
        some ⟨(makeCommit env s parents body).2, parents, body⟩ :=
  ⟨s.le_add _, hnew.1, Store.lookup_add hnew.2 hnew.1 hparents⟩

theorem doltAmend_spec {stamp : Stamp} (hnew : ∀ c ∈ amendCalls s head stamp, env.IsNew c)
    (hhead : head ∈ s.dag.keys) :
    s.dag ≤ (doltAmend env s head stamp).1.dag ∧
      (doltAmend env s head stamp).2 ∉ s.dag.keys ∧
      ∃ root, (doltAmend env s head stamp).1.dag.lookup (doltAmend env s head stamp).2 =
        some ⟨(doltAmend env s head stamp).2, s.dag.links head, stamp.body root⟩ := by
  obtain ⟨n, hn⟩ := Lib.Dag.exists_lookup hhead
  have hlinks := Lib.Dag.links_of_lookup hn
  have hparents : ∀ p ∈ n.links, p ∈ s.dag.keys := fun p hp =>
    Lib.Dag.mem_keys_of_mem_links (hlinks ▸ hp)
  simp only [amendCalls, hn, List.forall_mem_singleton] at hnew
  simp only [doltAmend, hn, hlinks]
  obtain ⟨hle, hfresh, hlook⟩ := makeCommit_spec hnew hparents
  exact ⟨hle, hfresh, n.value.root, hlook⟩

theorem doltMerge_ok {n : ℕ} {s' : Store} {head' : Hash}
    (hnew : ∀ c ∈ mergeCalls env s head commit n, env.IsNew c) (hhead : head ∈ s.dag.keys)
    (h : doltMerge env s head commit n = .ok (s', head')) :
    commit ∈ s.dag.keys ∧ s.dag ≤ s'.dag ∧ head' ∈ s'.dag.keys ∧
      s'.dag.links head' = mergedParents s head commit ∧
      (commit ∈ s.dag.ancestors head ∨ head ∈ s.dag.ancestors commit ∨
        ∃ root, env.merge head commit = .merged root) := by
  unfold doltMerge at h
  split_ifs at h with hmem hup hdown
  · obtain ⟨rfl, rfl⟩ := Prod.mk.inj (Except.ok.inj h)
    exact ⟨hmem, Lib.Dag.le_rfl, hhead, by simp [mergedParents, hup], Or.inl hup⟩
  · obtain ⟨rfl, rfl⟩ := Prod.mk.inj (Except.ok.inj h)
    exact ⟨hmem, Lib.Dag.le_rfl, hmem,
      by simp [mergedParents, hup, hdown], Or.inr (Or.inl hdown)⟩
  · split at h
    · cases h
    · next root hroot =>
      obtain ⟨hs, hh⟩ := Prod.mk.inj (Except.ok.inj h)
      have hparents : ∀ p ∈ [head, commit], p ∈ s.dag.keys := by
        simp [hhead, hmem]
      rw [mergeCalls, if_neg (by simp [hmem, hup, hdown]), hroot, List.forall_mem_singleton] at hnew
      obtain ⟨hle, -, hlook⟩ := makeCommit_spec hnew hparents
      simp only [makeCommit] at hlook hle
      subst hs hh
      refine ⟨hmem, hle, Lib.Dag.mem_keys_of_lookup hlook, ?_,
        Or.inr (Or.inr ⟨root, hroot⟩)⟩
      rw [Lib.Dag.links_of_lookup hlook]
      simp [mergedParents, hup, hdown]

theorem doltMerge_conflict {n : ℕ} {err : String}
    (h : doltMerge env s head commit n = .error err) (hc : isConflictError err = true) :
    commit ∉ s.dag.ancestors head ∧ head ∉ s.dag.ancestors commit ∧
      env.merge head commit = .refused err := by
  unfold doltMerge at h
  split_ifs at h with hmem hup hdown
  · split at h
    · next e he =>
      obtain rfl := Except.error.inj h
      exact ⟨hup, hdown, he⟩
    · cases h
  · obtain rfl := Except.error.inj h
    exact absurd hc (by decide)

/-- What a round that succeeds has done, in terms of the calls to Dolt. -/
theorem replayCommit_cases {st st' : ReplayState} {cwm : CommitWithMeta}
    (hanswers : env.fails (.firstParent cwm.commit.hash) = false)
    (h : replayCommit env st cwm = .ok st') :
    (isChildOf st.store cwm.commit.hash st.headHash ∧
      st' = { st with headHash := cwm.commit.hash }) ∨
    (¬ isChildOf st.store cwm.commit.hash st.headHash ∧ ∃ err,
      doltMerge env st.store st.headHash cwm.commit.hash st.mergeCommits = .error err ∧
      isConflictError err = true ∧ st' = { st with rejected := st.rejected ++ [rejection cwm] }) ∨
    (¬ isChildOf st.store cwm.commit.hash st.headHash ∧ ∃ store head amended,
      doltMerge env st.store st.headHash cwm.commit.hash st.mergeCommits = .ok (store, head) ∧
      doltAmend env store head (amendStamp cwm.hlc (env.now st.mergeCommits)) = amended ∧
      st' = ⟨amended.1, amended.2, st.mergeCommits + 1, st.rejected⟩) := by
  have hfirst : getFirstParentHash env st.store cwm.commit.hash =
      (st.store.dag.links cwm.commit.hash).head? := by
    simp [getFirstParentHash, hanswers]
  simp only [replayCommit, hfirst] at h
  by_cases hchild : (st.store.dag.links cwm.commit.hash).head? = some st.headHash
  · rw [if_pos hchild] at h
    split_ifs at h
    exact Or.inl ⟨hchild, (Except.ok.inj h).symm⟩
  · rw [if_neg hchild] at h
    split at h
    · cases h
    split at h
    · next err herr =>
      split_ifs at h with hc
      exact Or.inr (Or.inl ⟨hchild, err, herr, hc, (Except.ok.inj h).symm⟩)
    · next store head hok =>
      split_ifs at h
      exact Or.inr (Or.inr ⟨hchild, store, head, _, hok, rfl, (Except.ok.inj h).symm⟩)

theorem replayCommit_move {st st' : ReplayState} {cwm : CommitWithMeta}
    (henv : env.SoundAt st cwm) (hhead : st.headHash ∈ st.store.dag.keys)
    (h : replayCommit env st cwm = .ok st') : ReplayMove env st cwm st' := by
  obtain ⟨hnew, hanswers⟩ := henv
  rcases replayCommit_cases hanswers h with ⟨hchild, rfl⟩ | ⟨hchild, err, herr, hc, rfl⟩ |
    ⟨hchild, store, head, amended, hok, rfl, rfl⟩
  · exact .forward hchild
  · obtain ⟨hup, hdown, hmerge⟩ := doltMerge_conflict herr hc
    exact .reject hchild hup hdown err hmerge hc
  · rw [roundCalls, if_neg hchild, hok, List.forall_mem_append] at hnew
    obtain ⟨-, hle, hmem, hlinks, hmerge⟩ := doltMerge_ok hnew.1 hhead hok
    obtain ⟨hle', hfresh, root, hlook⟩ := doltAmend_spec hnew.2 hmem
    rw [hlinks] at hlook
    exact .amend hchild hmerge ⟨Lib.Dag.le_trans hle hle',
      fun hk => hfresh (Lib.Dag.keys_subset hle hk), ⟨root, hlook⟩, rfl⟩

/-- No call fails and a merge is refused for a conflict only. -/
structure Env.Smooth (env : Env) : Prop where
  succeeds : ∀ call, env.fails call = false
  conflicts : ∀ head commit err, env.merge head commit = .refused err →
    isConflictError err = true

theorem replayCommit_total (henv : env.Smooth) {st : ReplayState} {cwm : CommitWithMeta}
    (hc : cwm.commit.hash ∈ st.store.dag.keys) :
    ∃ st', replayCommit env st cwm = .ok st' := by
  simp only [replayCommit, henv.succeeds, Bool.false_eq_true, if_false]
  split
  · exact ⟨_, rfl⟩
  · split
    · next err herr =>
      refine ⟨_, if_pos ?_⟩
      simp only [doltMerge, hc, not_true_eq_false, if_false] at herr
      split_ifs at herr
      split at herr
      · next e he =>
        obtain rfl := Except.error.inj herr
        exact henv.conflicts _ _ _ he
      · cases herr
    · exact ⟨_, rfl⟩

theorem doltMerge_grown {n : ℕ} {s' : Store} {head' : Hash}
    (h : doltMerge env s head commit n = .ok (s', head')) : s.dag ≤ s'.dag := by
  unfold doltMerge at h
  split_ifs at h
  · obtain ⟨rfl, -⟩ := Prod.mk.inj (Except.ok.inj h)
    exact Lib.Dag.le_rfl
  · obtain ⟨rfl, -⟩ := Prod.mk.inj (Except.ok.inj h)
    exact Lib.Dag.le_rfl
  · split at h
    · cases h
    · obtain ⟨rfl, -⟩ := Prod.mk.inj (Except.ok.inj h)
      exact s.le_add _

theorem doltAmend_grown (env : Env) (s : Store) (head : Hash) (stamp : Stamp) :
    s.dag ≤ (doltAmend env s head stamp).1.dag := by
  unfold doltAmend
  split
  · exact Lib.Dag.le_rfl
  · exact s.le_add _

def stateLeft : Except ReplayFailure ReplayState → ReplayState
  | .ok st => st
  | .error f => f.state

theorem replayCommit_grown (env : Env) (st : ReplayState) (cwm : CommitWithMeta) :
    st.store.dag ≤ (stateLeft (replayCommit env st cwm)).store.dag := by
  simp only [replayCommit]
  split
  · split_ifs <;> exact Lib.Dag.le_rfl
  · split
    · exact Lib.Dag.le_rfl
    · split
      · split_ifs <;> exact Lib.Dag.le_rfl
      · next store head hok =>
        have hmerged := doltMerge_grown hok
        have hamended := Lib.Dag.le_trans hmerged
          (doltAmend_grown env store head (amendStamp cwm.hlc (env.now st.mergeCommits)))
        split_ifs
        · exact hmerged
        · exact hamended
        · exact hamended

theorem replayCommits_grown (env : Env) (commits : List CommitWithMeta) (st : ReplayState) :
    st.store.dag ≤ (stateLeft (replayCommits env st commits)).store.dag := by
  induction commits generalizing st with
  | nil => exact Lib.Dag.le_rfl
  | cons cwm rest ih =>
    have hround := replayCommit_grown env st cwm
    rw [replayCommits, List.foldlM_cons]
    cases hstep : replayCommit env st cwm with
    | error f =>
      rw [hstep] at hround
      exact hround
    | ok mid =>
      rw [hstep] at hround
      exact Lib.Dag.le_trans hround (ih mid)

theorem replayCommits_ok_grown {st st' : ReplayState} {commits : List CommitWithMeta}
    (hrun : replayCommits env st commits = .ok st') : st.store.dag ≤ st'.store.dag := by
  have hgrown := replayCommits_grown env commits st
  rwa [hrun] at hgrown

theorem replayCommits_cons {st st' : ReplayState} {cwm : CommitWithMeta}
    {rest : List CommitWithMeta} : replayCommits env st (cwm :: rest) = .ok st' ↔
      ∃ mid, replayCommit env st cwm = .ok mid ∧ replayCommits env mid rest = .ok st' := by
  rw [replayCommits, List.foldlM_cons]
  cases replayCommit env st cwm with
  | error f => simp [bind, Except.bind]
  | ok mid => simp [bind, Except.bind, replayCommits]

end Inversion

section Ancestry

variable {env : Env} {st st' : ReplayState} {cwm : CommitWithMeta}

theorem Amended.head_mem (h : Amended env st cwm st') :
    st'.headHash ∈ st'.store.dag.keys := by
  obtain ⟨root, hlook⟩ := h.made
  exact Lib.Dag.mem_keys_of_lookup hlook

theorem Amended.mem_ancestors (h : Amended env st cwm st')
    (hhead : st.headHash ∈ st.store.dag.keys) (hcommit : cwm.commit.hash ∈ st.store.dag.keys)
    (x : Hash) : x ∈ st'.store.dag.ancestors st'.headHash ↔
      x = st'.headHash ∨ survivesAmend st.store st.headHash cwm.commit.hash x := by
  obtain ⟨root, hlook⟩ := h.made
  rw [Lib.Dag.mem_ancestors_iff h.head_mem, Lib.Dag.links_of_lookup hlook, survivesAmend_iff]
  refine or_congr Iff.rfl (exists_congr fun p => and_congr_right fun hp => ?_)
  rw [Lib.Dag.ancestors_of_le h.grown (mem_keys_of_mem_mergedParents hhead hcommit hp)]

theorem Amended.metadata_head (h : Amended env st cwm st') :
    st'.store.metadata? st'.headHash = some (mergeMetadata cwm.hlc (env.now st.mergeCommits)) := by
  obtain ⟨root, hlook⟩ := h.made
  simp [Store.metadata?, Store.commit?, hlook, StoredCommit.commit, Stamp.body, amendStamp,
    parseCommitMetadata, mergeMetadata, newCommitMetadata]

theorem ReplayMove.head_mem (h : ReplayMove env st cwm st')
    (hhead : st.headHash ∈ st.store.dag.keys) (hcommit : cwm.commit.hash ∈ st.store.dag.keys) :
    st'.headHash ∈ st'.store.dag.keys := by
  cases h with
  | forward _ => exact hcommit
  | reject _ _ _ _ _ _ => exact hhead
  | amend _ _ hamended => exact hamended.head_mem

theorem ReplayMove.grown (h : ReplayMove env st cwm st') : st.store.dag ≤ st'.store.dag := by
  cases h with
  | forward _ => exact Lib.Dag.le_rfl
  | reject _ _ _ _ _ _ => exact Lib.Dag.le_rfl
  | amend _ _ hamended => exact hamended.grown

end Ancestry

end DoltSwarm.Core
