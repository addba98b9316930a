import DoltSwarm.Core.ReplayReach
import DoltSwarm.Core.Node

/-!
# What a replay that fails has done (core/reconciler_core.go)

The hooks hear of a conflict inside the loop, and whether `main` moves is decided behind it.
Where the call can fail is a parameter here: what Dolt answers when asked stays as it is, and any
set of the other calls may fail.
-/

namespace DoltSwarm.Core

set_option autoImplicit false

def Env.failing (env : Env) (fails : SqlCall → Bool) (mainAdvances : Bool) : Env :=
  { env with fails := fails, mainAdvances := mainAdvances }

/-- The query for a first parent, whose errors are not errors of the call, goes on as it did. -/
def Env.answersAs (env : Env) (fails : SqlCall → Bool) : Prop :=
  ∀ commit, fails (.firstParent commit) = env.fails (.firstParent commit)

/-- What becomes of a commit if every call goes through. -/
inductive Meeting
  | taken (st : ReplayState)
  | conflict
  | refused

def meeting (env : Env) (st : ReplayState) (cwm : CommitWithMeta) : Meeting :=
  if getFirstParentHash env st.store cwm.commit.hash = some st.headHash then
    .taken { st with headHash := cwm.commit.hash }
  else
    match doltMerge env st.store st.headHash cwm.commit.hash st.mergeCommits with
    | .error err => if isConflictError err then .conflict else .refused
    | .ok (store, head) =>
      let amended := doltAmend env store head (amendStamp cwm.hlc (env.now st.mergeCommits))
      .taken ⟨amended.1, amended.2, st.mergeCommits + 1, st.rejected⟩

/-- No commit of the list conflicts with the branch it comes to be merged into, up to the first
that cannot be merged for another reason. -/
def conflictFree (env : Env) (st : ReplayState) : List CommitWithMeta → Prop
  | [] => True
  | cwm :: rest =>
    match meeting env st cwm with
    | .taken st' => conflictFree env st' rest
    | .conflict => False
    | .refused => True

section Loop

variable {env : Env} {fails : SqlCall → Bool} {st : ReplayState} {cwm : CommitWithMeta}

theorem rejected_taken {st' : ReplayState} (h : meeting env st cwm = .taken st') :
    st'.rejected = st.rejected := by
  unfold meeting at h
  split at h
  · cases h
    rfl
  · split at h
    · split_ifs at h
    · cases h
      rfl

/-- A round fails and reports nothing, or does what the commit meets with. -/
theorem replayCommit_meeting (h : env.answersAs fails) (advances : Bool) (st : ReplayState)
    (cwm : CommitWithMeta) :
    (∃ f, replayCommit (env.failing fails advances) st cwm = .error f ∧
      f.state.rejected = st.rejected) ∨
    (∃ st', meeting env st cwm = .taken st' ∧
      replayCommit (env.failing fails advances) st cwm = .ok st') ∨
    (meeting env st cwm = .conflict ∧
      replayCommit (env.failing fails advances) st cwm =
        .ok { st with rejected := st.rejected ++ [rejection cwm] }) := by
  have hparent : getFirstParentHash (env.failing fails advances) st.store cwm.commit.hash =
      getFirstParentHash env st.store cwm.commit.hash := by
    simp only [getFirstParentHash, Env.failing, h cwm.commit.hash]
  have hmerge : doltMerge (env.failing fails advances) = doltMerge env := rfl
  simp only [replayCommit, meeting, hparent, hmerge]
  by_cases hchild : getFirstParentHash env st.store cwm.commit.hash = some st.headHash
  · rw [if_pos hchild, if_pos hchild]
    split_ifs
    · exact Or.inl ⟨_, rfl, rfl⟩
    · exact Or.inl ⟨_, rfl, rfl⟩
    · exact Or.inr (Or.inl ⟨_, rfl, rfl⟩)
  · rw [if_neg hchild, if_neg hchild]
    split
    · exact Or.inl ⟨_, rfl, rfl⟩
    cases doltMerge env st.store st.headHash cwm.commit.hash st.mergeCommits with
    | error err =>
      dsimp only
      split
      · exact Or.inr (Or.inr ⟨rfl, rfl⟩)
      · exact Or.inl ⟨_, rfl, rfl⟩
    | ok merged =>
      dsimp only
      split
      · exact Or.inl ⟨_, rfl, rfl⟩
      split
      · exact Or.inl ⟨_, rfl, rfl⟩
      · exact Or.inr (Or.inl ⟨_, rfl, rfl⟩)

theorem rejected_of_conflictFree (h : env.answersAs fails) (advances : Bool)
    (commits : List CommitWithMeta) (hfree : conflictFree env st commits) :
    (stateLeft (replayCommits (env.failing fails advances) st commits)).rejected =
      st.rejected := by
  induction commits generalizing st with
  | nil => rfl
  | cons cwm rest ih =>
    rw [replayCommits, List.foldlM_cons]
    unfold conflictFree at hfree
    rcases replayCommit_meeting h advances st cwm with
      ⟨f, hstep, hrejected⟩ | ⟨mid, htaken, hstep⟩ | ⟨hconflict, -⟩
    · rw [hstep]
      exact hrejected
    · rw [htaken] at hfree
      rw [hstep]
      exact (ih hfree).trans (rejected_taken htaken)
    · rw [hconflict] at hfree
      exact hfree.elim

def Env.failsAtMain (env : Env) : SqlCall → Bool
  | .firstParent commit => env.fails (.firstParent commit)
  | .checkoutMain => true
  | _ => false

theorem replayCommit_failsAtMain (env : Env) (st : ReplayState) (cwm : CommitWithMeta) :
    replayCommit (env.failing env.failsAtMain false) st cwm =
      match meeting env st cwm with
      | .taken st' => .ok st'
      | .conflict => .ok { st with rejected := st.rejected ++ [rejection cwm] }
      | .refused => .error ⟨.merge cwm.commit.hash, st⟩ := by
  have hparent : getFirstParentHash (env.failing env.failsAtMain false) st.store cwm.commit.hash =
      getFirstParentHash env st.store cwm.commit.hash := rfl
  have hmerge : doltMerge (env.failing env.failsAtMain false) = doltMerge env := rfl
  simp only [replayCommit, meeting, hparent, hmerge]
  by_cases hchild : getFirstParentHash env st.store cwm.commit.hash = some st.headHash
  · rw [if_pos hchild, if_pos hchild]
    rfl
  · rw [if_neg hchild, if_neg hchild]
    cases doltMerge env st.store st.headHash cwm.commit.hash st.mergeCommits with
    | error err =>
      by_cases hconflict : isConflictError err = true
      · simp only [hconflict, if_true]
        rfl
      · simp only [hconflict]
        rfl
    | ok merged => rfl

theorem rejected_failsAtMain (env : Env) (commits : List CommitWithMeta) (st : ReplayState) :
    (st.rejected ≠ [] ∨ ¬ conflictFree env st commits) →
      (stateLeft (replayCommits (env.failing env.failsAtMain false) st commits)).rejected ≠ [] := by
  induction commits generalizing st with
  | nil => exact fun h => h.elim id (fun h => absurd trivial h)
  | cons cwm rest ih =>
    rw [replayCommits, List.foldlM_cons, replayCommit_failsAtMain, conflictFree]
    cases hmeets : meeting env st cwm with
    | taken mid =>
      intro h
      rw [← rejected_taken hmeets] at h
      exact ih mid h
    | conflict => exact fun _ => ih _ (Or.inl (by simp))
    | refused => exact fun h => h.elim id (fun h => absurd trivial h)

end Loop

/-! ## The call -/

structure ReplayResult.ChangesNothing (r : ReplayResult) (repo : Repo) (idx : MemoryCommitIndex) :
    Prop where
  main : r.repo.main = repo.main
  entries : r.rejected.foldl recordRejection idx = idx
  unreported : r.rejected = []

/-- The commits that a call goes through conflict with nothing, or it does not get to them. -/
def replaysWithoutConflict (env : Env) (repo : Repo) (mergeBase : Hash) (imported : List Commit)
    (fb : Option FinalizedBase) : Prop :=
  logsOutOfRange mergeBase fb = false → effectiveBase mergeBase fb ∈ repo.store.dag.keys →
    conflictFree env ⟨repo.store, effectiveBase mergeBase fb, 0, []⟩
      (collectUserCommits env.order (localCommits repo (effectiveBase mergeBase fb)) imported fb)

section Call

variable {env : Env} {repo : Repo} {mergeBase : Hash} {imported : List Commit}
  {fb : Option FinalizedBase}

theorem rejected_replayTo (env : Env) (repo : Repo) (base mainHeadBefore : Hash)
    (commits : List CommitWithMeta) :
    (replayToTempBranchThenUpdateMain env repo base mainHeadBefore commits).rejected = [] ∨
      base ∈ repo.store.dag.keys ∧
        (replayToTempBranchThenUpdateMain env repo base mainHeadBefore commits).rejected =
          (stateLeft (replayCommits env ⟨repo.store, base, 0, []⟩ commits)).rejected := by
  by_cases hbase : base ∈ repo.store.dag.keys
  · have hout := replayTo_outcome env repo base mainHeadBefore commits
    generalize replayToTempBranchThenUpdateMain env repo base mainHeadBefore commits = r at hout ⊢
    cases hout with
    | notStarted err => exact Or.inl rfl
    | stopped f hf =>
      rw [hf]
      exact Or.inr ⟨hbase, rfl⟩
    | stays st err hst =>
      rw [hst]
      exact Or.inr ⟨hbase, rfl⟩
    | moved st hhead _ hst =>
      rw [hst]
      exact Or.inr ⟨hbase, rfl⟩
  · refine Or.inl ?_
    simp only [replayToTempBranchThenUpdateMain, hbase, not_false_eq_true, or_true, if_true]
    split <;> rfl

theorem unreported_of_conflictFree {fails : SqlCall → Bool} (h : env.answersAs fails)
    (advances : Bool) (hfree : replaysWithoutConflict env repo mergeBase imported fb) :
    (replayImportedCommits (env.failing fails advances) repo mergeBase imported fb).rejected =
      [] := by
  unfold replayImportedCommits
  split
  · rfl
  split
  · rfl
  next hlog =>
  simp only [getCommitsSince_localCommits]
  split
  · rfl
  rcases rejected_replayTo (env.failing fails advances) repo (effectiveBase mergeBase fb) repo.main
    (collectUserCommits env.order (localCommits repo (effectiveBase mergeBase fb)) imported fb)
    with hnone | ⟨hbase, hloop⟩
  · exact hnone
  · exact hloop.trans
      (rejected_of_conflictFree h advances _ (hfree (by simpa using hlog) hbase))

theorem replayImportedCommits_failsAtMain (hlog : logsOutOfRange mergeBase fb = false)
    (hbase : effectiveBase mergeBase fb ∈ repo.store.dag.keys)
    {commits : List CommitWithMeta} (hcommits : commits = collectUserCommits env.order
      (localCommits repo (effectiveBase mergeBase fb)) imported fb) (hne : commits ≠ []) :
    ∃ err, (replayImportedCommits (env.failing env.failsAtMain false) repo mergeBase imported
        fb).result = .error err ∧
      (replayImportedCommits (env.failing env.failsAtMain false) repo mergeBase imported
        fb).rejected = (stateLeft (replayCommits (env.failing env.failsAtMain false)
          ⟨repo.store, effectiveBase mergeBase fb, 0, []⟩ commits)).rejected := by
  have hread : (env.failing env.failsAtMain false).fails .lastCommit = false := rfl
  have hconn : (env.failing env.failsAtMain false).fails .conn = false := rfl
  have hbranch : (env.failing env.failsAtMain false).fails .branch = false := rfl
  have htmp : (env.failing env.failsAtMain false).fails .checkoutTmp = false := rfl
  have hmain : (env.failing env.failsAtMain false).fails .checkoutMain = true := rfl
  have horder : (env.failing env.failsAtMain false).order = env.order := rfl
  simp only [replayImportedCommits, hread, hlog, getCommitsSince_localCommits, horder,
    ← hcommits, hne, replayToTempBranchThenUpdateMain, hconn, hbranch, htmp, hbase, hmain,
    Bool.false_eq_true, not_true_eq_false, or_self, if_true, if_false]
  cases replayCommits (env.failing env.failsAtMain false)
    ⟨repo.store, effectiveBase mergeBase fb, 0, []⟩ commits with
  | error f => exact ⟨_, rfl, rfl⟩
  | ok st => exact ⟨_, rfl, rfl⟩

end Call

/-- At every point of failure a call that fails has changed nothing exactly if no conflict comes
before. -/
theorem failed_replay_changes_nothing_iff (env : Env) (repo : Repo) (idx : MemoryCommitIndex)
    (mergeBase : Hash) (imported : List Commit) (fb : Option FinalizedBase) :
    (∀ fails advances, env.answersAs fails → ∀ err,
      (replayImportedCommits (env.failing fails advances) repo mergeBase imported fb).result =
          .error err →
        (replayImportedCommits (env.failing fails advances) repo mergeBase imported
          fb).ChangesNothing repo idx) ↔
      replaysWithoutConflict env repo mergeBase imported fb := by
  constructor
  · intro h hlog hbase
    by_contra hconflict
    have hne : collectUserCommits env.order (localCommits repo (effectiveBase mergeBase fb))
        imported fb ≠ [] := by
      intro hnil
      rw [hnil] at hconflict
      exact hconflict trivial
    obtain ⟨err, herr, hrejected⟩ := replayImportedCommits_failsAtMain hlog hbase rfl hne
    have hnone := (h env.failsAtMain false (fun _ => rfl) err herr).unreported
    rw [hrejected] at hnone
    exact rejected_failsAtMain env _ _ (Or.inr hconflict) hnone
  · intro hfree fails advances hanswers err herr
    have hnone := unreported_of_conflictFree hanswers advances hfree
    refine ⟨?_, ?_, hnone⟩
    · exact (replayImportedCommits_grown _ repo mergeBase imported fb).2 err herr
    · rw [hnone]
      rfl

def appliedOnFork : MemoryCommitIndex :=
  MemoryCommitIndex.newMemoryCommitIndex.upsert ⟨(written "bob" 9).hlc, "commit-b", .applied⟩

/-- The replay conflicts with the commit that `main` stands on, and then finds that `main` has
moved. The commit is reported and entered as rejected, and `main` still stands on it. -/
theorem failed_replay_rejects_commit_of_main :
    let r := replayImportedCommits { refuseAllBut none with mainAdvances := true } forkRepo
      "commit-i" (["commit-a"].filterMap forkRepo.store.commit?) none
    r.result = .error .mainAdvanced ∧ r.repo.main = "commit-b" ∧ r.rejected.length = 1 ∧
      (r.rejected.foldl recordRejection appliedOnFork).get (written "bob" 9).hlc =
        some ⟨(written "bob" 9).hlc, "commit-b", .rejected⟩ := by
  decide +kernel

end DoltSwarm.Core
