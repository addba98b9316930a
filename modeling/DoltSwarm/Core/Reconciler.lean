import DoltSwarm.Core.Collect

/-!
# Replaying commits onto main (core/reconciler_core.go)

The replay builds a branch of its own from the base, one commit at a time, and then moves
`main` to it. What Dolt, the clock and Go's map order contribute to one call is an `Env`. A
call that fails keeps what it has done so far, so every error carries the state it left.
-/

namespace DoltSwarm.Core

set_option autoImplicit false

/-- The SQL calls of a replay that may fail; those made for each commit name it. -/
inductive SqlCall
  | lastCommit
  | conn
  | branch
  | checkoutTmp
  | firstParent (commit : Hash)
  | reset (commit : Hash)
  | merge (commit : Hash)
  | amend (commit : Hash)
  | headHash (commit : Hash)
  | checkoutMain
  | mainHead
  | resetMain
  deriving DecidableEq, Repr

/-- A three-way merge gives a new root value or an error text. -/
inductive MergeOutcome
  | merged (root : String)
  | refused (err : String)
  deriving DecidableEq, Repr

structure Stamp where
  committer : String
  email : String
  date : Int
  message : CommitMessage
  deriving DecidableEq, Repr

def Stamp.body (stamp : Stamp) (root : String) : CommitBody :=
  ⟨root, stamp.committer, stamp.email, stamp.date, stamp.message⟩

structure Env where
  /-- The hash of a commit with these parents and this body, made in this store. -/
  newHash : Store → List Hash → CommitBody → Hash
  /-- What merging the second commit into the first gives. -/
  merge : Hash → Hash → MergeOutcome
  /-- What `DOLT_MERGE` writes on the commit of the n-th merge. -/
  mergeStamp : ℕ → Stamp
  /-- `time.Now()` at the n-th amended commit. -/
  now : ℕ → Int
  fails : SqlCall → Bool
  /-- Another writer moves `main` while the replay runs. -/
  mainAdvances : Bool
  order : RangeOrder CommitWithMeta

section Dolt

variable (env : Env)

def makeCommit (s : Store) (parents : List Hash) (body : CommitBody) : Store × Hash :=
  (s.add ⟨env.newHash s parents body, parents, body⟩, env.newHash s parents body)

/-- `DOLT_MERGE` with `head` checked out: nothing to do, a fast-forward, or a real merge. -/
def doltMerge (s : Store) (head commit : Hash) (n : ℕ) : Except String (Store × Hash) :=
  if commit ∉ s.dag.keys then .error "commit not found"
  else if commit ∈ s.dag.ancestors head then .ok (s, head)
  else if head ∈ s.dag.ancestors commit then .ok (s, commit)
  else
    match env.merge head commit with
    | .refused err => .error err
    | .merged root => .ok (makeCommit env s [head, commit] ((env.mergeStamp n).body root))

/-- `DOLT_COMMIT --amend`: a commit with the parents and the root of `head` takes its place. -/
def doltAmend (s : Store) (head : Hash) (stamp : Stamp) : Store × Hash :=
  match s.dag.lookup head with
  | none => (s, head)
  | some n => makeCommit env s n.links (stamp.body n.value.root)

end Dolt

inductive RejectionReason
  | notRejected
  | rejectedConflict
  | rejectedInvalidSignature
  | rejectedFetchFailed
  | rejectedClockSkew
  deriving DecidableEq, Repr

/-- The advertisement handed to the rejection hooks, with the fields the replay sets. -/
structure CommitAd where
  peerID : String
  hlc : HLCTimestamp
  commitHash : Hash
  deriving DecidableEq, Repr

inductive ReplayError
  | readMain
  | outOfRange
  | readCommits
  | conn
  | tempBranch
  | checkoutTemp
  | fastForward (commit : Hash)
  | merge (commit : Hash)
  | amend (commit : Hash)
  | headHash (commit : Hash)
  | checkoutMain
  | mainHead
  | mainAdvanced
  | resetMain
  deriving DecidableEq, Repr

structure ReplayState where
  store : Store
  headHash : Hash
  mergeCommits : ℕ
  rejected : List (CommitAd × RejectionReason)

structure ReplayFailure where
  error : ReplayError
  state : ReplayState

def isConflictError (err : String) : Bool :=
  "conflict".toList <:+: err.toList ∨ "CONFLICT".toList <:+: err.toList

def rejection (cwm : CommitWithMeta) : CommitAd × RejectionReason :=
  (⟨cwm.hlc.peerID, cwm.hlc, cwm.commit.hash⟩, .rejectedConflict)

/-- The message, author and date a merge commit is amended with. -/
def mergeMetadata (hlc : HLCTimestamp) (mergeDate : Int) : CommitMetadata :=
  newCommitMetadata "merge" hlc "" "doltswarm" "doltswarm@local" mergeDate

def amendStamp (hlc : HLCTimestamp) (mergeDate : Int) : Stamp :=
  ⟨"doltswarm", "doltswarm@local", mergeDate, .json (mergeMetadata hlc mergeDate)⟩

section Replay

variable (env : Env)

/-- `none` when the query fails or finds no row. -/
def getFirstParentHash (s : Store) (commit : Hash) : Option Hash :=
  if env.fails (.firstParent commit) then none else (s.dag.links commit).head?

def replayCommit (st : ReplayState) (cwm : CommitWithMeta) : Except ReplayFailure ReplayState :=
  let hash := cwm.commit.hash
  if getFirstParentHash env st.store hash = some st.headHash then
    if env.fails (.reset hash) then .error ⟨.fastForward hash, st⟩
    else if env.fails (.headHash hash) then .error ⟨.headHash hash, st⟩
    else .ok { st with headHash := hash }
  else if env.fails (.merge hash) then .error ⟨.merge hash, st⟩
  else
    match doltMerge env st.store st.headHash hash st.mergeCommits with
    | .error err =>
      if isConflictError err then .ok { st with rejected := st.rejected ++ [rejection cwm] }
      else .error ⟨.merge hash, st⟩
    | .ok (store, head) =>
      -- the amend does not ask whether the merge has made a commit
      if env.fails (.amend hash) then .error ⟨.amend hash, { st with store := store }⟩
      else
        let amended := doltAmend env store head (amendStamp cwm.hlc (env.now st.mergeCommits))
        let st' : ReplayState := ⟨amended.1, amended.2, st.mergeCommits + 1, st.rejected⟩
        if env.fails (.headHash hash) then .error ⟨.headHash hash, st'⟩ else .ok st'

def replayCommits (st : ReplayState) (commits : List CommitWithMeta) :
    Except ReplayFailure ReplayState := commits.foldlM (replayCommit env) st

/-- What a call leaves behind: the database, the reports to the hooks, and its result. -/
structure ReplayResult where
  repo : Repo
  rejected : List (CommitAd × RejectionReason)
  result : Except ReplayError ℕ

def Repo.grow (repo : Repo) (store : Store) : Repo :=
  if h : repo.main ∈ store.dag.keys then { repo with store := store, main_mem := h } else repo

def replayToTempBranchThenUpdateMain (repo : Repo) (base mainHeadBefore : Hash)
    (commits : List CommitWithMeta) : ReplayResult :=
  if env.fails .conn then ⟨repo, [], .error .conn⟩
  else if env.fails .branch ∨ base ∉ repo.store.dag.keys then ⟨repo, [], .error .tempBranch⟩
  else if env.fails .checkoutTmp then ⟨repo, [], .error .checkoutTemp⟩
  else
    match replayCommits env ⟨repo.store, base, 0, []⟩ commits with
    | .error f => ⟨repo.grow f.state.store, f.state.rejected, .error f.error⟩
    | .ok st =>
      let stays (err : ReplayError) : ReplayResult :=
        ⟨repo.grow st.store, st.rejected, .error err⟩
      if env.fails .checkoutMain then stays .checkoutMain
      else if env.fails .mainHead then stays .mainHead
      else if env.mainAdvances ∨ repo.main ≠ mainHeadBefore then stays .mainAdvanced
      else if env.fails .resetMain then stays .resetMain
      else if h : st.headHash ∈ st.store.dag.keys then
        ⟨⟨st.store, st.headHash, h⟩, st.rejected, .ok st.mergeCommits⟩
      else stays .resetMain

def effectiveBase (mergeBase : Hash) (finalizedBase : Option FinalizedBase) : Hash :=
  match finalizedBase with
  | some fb => if fb.commitHash ≠ "" then fb.commitHash else mergeBase
  | none => mergeBase

/-- The log line that names a finalized base slices eight bytes off both hashes. -/
def logsOutOfRange (mergeBase : Hash) (finalizedBase : Option FinalizedBase) : Bool :=
  match finalizedBase with
  | some fb => fb.commitHash ≠ "" ∧ (fb.commitHash.utf8ByteSize < 8 ∨ mergeBase.utf8ByteSize < 8)
  | none => false

def replayImportedCommits (repo : Repo) (mergeBase : Hash) (imported : List Commit)
    (finalizedBase : Option FinalizedBase) : ReplayResult :=
  if env.fails .lastCommit then ⟨repo, [], .error .readMain⟩
  else if logsOutOfRange mergeBase finalizedBase then ⟨repo, [], .error .outOfRange⟩
  else
    let base := effectiveBase mergeBase finalizedBase
    match getCommitsSince repo.store repo.main base with
    | none => ⟨repo, [], .error .readCommits⟩
    | some ours =>
      let commits := collectUserCommits env.order ours imported finalizedBase
      if commits = [] then ⟨repo, [], .ok 0⟩
      else replayToTempBranchThenUpdateMain env repo base repo.main commits

end Replay

end DoltSwarm.Core
