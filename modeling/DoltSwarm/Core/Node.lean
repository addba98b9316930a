import DoltSwarm.Core.FinalizedHistory

/-!
# A node and its handlers (core/node.go, core/sql.go)

A node owns a database, a clock, the commit index and the timestamps heard from its peers.
Every handler is one step on that state. What Dolt and the wall clock contribute to a step is
handed to it; a request for a sync is not kept, since a sync may run at any time.
-/

namespace DoltSwarm.Core

set_option autoImplicit false

structure RepoID where
  org : String
  repoName : String
  deriving DecidableEq, Repr

/-- The metadata are the message of the advertised commit. -/
structure CommitAdV1 where
  repo : RepoID
  hlc : HLCTimestamp
  metadataJSON : CommitMessage
  metadataSig : String
  deriving DecidableEq, Repr

structure HeartbeatV1 where
  repo : RepoID
  hlc : HLCTimestamp
  peerID : String
  deriving DecidableEq, Repr

/-- `verify` tells whether the metadata carry a signature by that key. -/
structure Signer where
  getID : String
  verify : CommitMetadata → String → Bool

/-- The identity resolver is optional; its keys are `none` when the lookup fails. -/
structure NodeConfig where
  repo : RepoID
  signer : Signer
  maxClockSkew : Int64
  identity : Option (String → Option String)

/-- The database is opened with the signer of the node, so its clock bears that name. -/
structure Node where
  cfg : NodeConfig
  repo : Repo
  hlc : HLC
  idx : MemoryCommitIndex
  peerHLC : AList fun _ : String => HLCTimestamp
  own : hlc.peerID = cfg.signer.getID

def MemoryCommitIndex.decided (idx : MemoryCommitIndex) (hlc : HLCTimestamp) : Prop :=
  ∃ e ∈ idx.get hlc, e.status = .applied ∨ e.status = .rejected

instance (idx : MemoryCommitIndex) (hlc : HLCTimestamp) : Decidable (idx.decided hlc) :=
  inferInstanceAs (Decidable (∃ e ∈ idx.get hlc, e.status = .applied ∨ e.status = .rejected))

def hearPeer (peerHLC : AList fun _ : String => HLCTimestamp) (peerID : String)
    (hlc : HLCTimestamp) : AList fun _ : String => HLCTimestamp :=
  match peerHLC.lookup peerID with
  | none => peerHLC.insert peerID hlc
  | some cur => if cur.less hlc then peerHLC.insert peerID hlc else peerHLC

/-- Without a resolver no signature is checked. -/
def NodeConfig.verified (cfg : NodeConfig) (peerID : String) (metadata : CommitMetadata) : Bool :=
  match cfg.identity with
  | none => true
  | some publicKeyForPeerID =>
    match publicKeyForPeerID peerID with
    | none => false
    | some pub => pub ≠ "" && cfg.signer.verify metadata pub

def Repo.resetMain (repo : Repo) (target : Hash) : Repo :=
  if h : target ∈ repo.store.dag.keys then { repo with main := target, main_mem := h } else repo

def Repo.commitOn (repo : Repo) (n : StoredCommit) : Repo :=
  (repo.grow (repo.store.add n)).resetMain n.key

/-- What a local write brings: its texts, and what Dolt and the clock give it. -/
structure Write where
  msg : String
  root : String
  contentHash : String
  date : Int
  signature : String
  physicalTime : Int64
  hash : Hash
  fails : Bool
  deriving DecidableEq, Repr

/-- The calls of a sync pass, besides those of the replay, that may fail. -/
inductive SyncCall
  | ensureSwarmRemote
  | fetchSwarm
  | getBranchHead
  | mergeBase
  | forceResetMainTo
  | getCommitsSince
  | tryFastForward
  | getAllCommits
  deriving DecidableEq, Repr

/-- What a sync pass finds: all commits after the fetch, the head of the remote branch, and its
merge base with `main`, each `""` when there is none. -/
structure Fetch where
  store : Store
  remoteHead : Hash
  mergeBase : Hash
  fails : SyncCall → Bool
  env : Env
  head_mem : remoteHead = "" ∨ remoteHead ∈ store.dag.keys

inductive SyncPath
  | idle
  | bootstrap
  | fastForward (repo : Repo)
  | replay (imported : List Commit)

def SyncPath.imported? : SyncPath → Option (List Commit)
  | .replay imported => some imported
  | _ => none

theorem SyncPath.imported?_eq_some_iff {path : SyncPath} {imported : List Commit} :
    path.imported? = some imported ↔ path = .replay imported := by
  cases path with
  | idle => simp [imported?]
  | bootstrap => simp [imported?]
  | fastForward repo => simp [imported?]
  | replay l => simp [imported?]

/-- `DOLT_MERGE --ff-only`; `none` is the error. -/
def tryFastForward (repo : Repo) (targetHash : Hash) (fails : Bool) : Option Repo :=
  if fails then none
  else if repo.main ∈ repo.store.dag.ancestors targetHash then some (repo.resetMain targetHash)
  else if targetHash ∈ repo.store.dag.ancestors repo.main then some repo
  else none

/-- The most recent user commit on `main`, in the order in which the log lists it. -/
def getLastUserCommit (repo : Repo) (log : RangeOrder Commit) (readFails : Bool) :
    Option (Commit × CommitMetadata) :=
  (getAllCommits repo readFails).bind fun commits =>
    (log.list commits).findSome? fun c => (parseCommitMetadata c.message).map fun m => (c, m)

/-- The hook that a replay calls for every commit it drops. -/
def recordRejection (idx : MemoryCommitIndex) (dropped : CommitAd × RejectionReason) :
    MemoryCommitIndex :=
  if dropped.1.hlc.isZero then idx
  else idx.upsert ⟨dropped.1.hlc, dropped.1.commitHash, .rejected⟩

namespace Node

def started (cfg : NodeConfig) (repo : Repo) (hlc : HLC) (own : hlc.peerID = cfg.signer.getID)
    (readFails : Bool) : Node :=
  ⟨cfg, repo, hlc, initIndexFromDB repo readFails .newMemoryCommitIndex, ∅, own⟩

def rebuild (n : Node) (readFails : Bool) : Node :=
  { n with idx := initIndexFromDB n.repo readFails n.idx }

def publishHeartbeat (n : Node) (physicalTime : Int64) : HeartbeatV1 × Node :=
  (⟨n.cfg.repo, (n.hlc.now physicalTime).1, n.cfg.signer.getID⟩,
    { n with hlc := (n.hlc.now physicalTime).2, own := n.own })

def onHeartbeat (n : Node) (hb : HeartbeatV1) (physicalTime : Int64) : Node :=
  if hb.repo ≠ n.cfg.repo then n
  else if hb.peerID = n.cfg.signer.getID then n
  else
    { n with
      peerHLC := hearPeer n.peerHLC hb.peerID hb.hlc
      hlc := n.hlc.update hb.hlc physicalTime
      own := n.own }

def tryFinalize (n : Node) : Node := { n with idx := Core.tryFinalize n.peerHLC n.idx }

def rejectAd (n : Node) (ad : CommitAdV1) : Node :=
  { n with idx := n.idx.upsert ⟨ad.hlc, "", .rejected⟩ }

def onCommitAd (n : Node) (ad : CommitAdV1) (now physicalTime : Int64) : Node :=
  if ad.repo ≠ n.cfg.repo then n
  else if n.idx.decided ad.hlc then n
  else if ad.hlc.peerID = n.cfg.signer.getID then n
  else if 0 < n.cfg.maxClockSkew ∧ now + n.cfg.maxClockSkew < ad.hlc.wall then n.rejectAd ad
  else
    match parseCommitMetadata ad.metadataJSON with
    | none => n
    | some metadata =>
      if metadata.kind ≠ commitKindUser then n
      else if !metadata.hlc.equal ad.hlc then n.rejectAd ad
      else if ad.metadataSig ≠ "" ∧ metadata.signature ≠ ad.metadataSig then n.rejectAd ad
      else if !n.cfg.verified ad.hlc.peerID metadata then n.rejectAd ad
      else
        { n with
          hlc := n.hlc.update ad.hlc physicalTime
          own := n.own
          idx := n.idx.upsert ⟨ad.hlc, "", .pending⟩ }

def createCommitMetadata (n : Node) (w : Write) (hlc : HLCTimestamp) : CommitMetadata :=
  { newCommitMetadata w.msg hlc w.contentHash n.cfg.signer.getID
      (n.cfg.signer.getID ++ "@doltswarm") w.date with signature := w.signature }

def committed (n : Node) (w : Write) (hlc : HLCTimestamp) : StoredCommit :=
  let metadata := n.createCommitMetadata w hlc
  ⟨w.hash, [n.repo.main], ⟨w.root, metadata.author, metadata.email, metadata.date,
    .json metadata⟩⟩

/-- The clock ticks even if nothing comes of the write. -/
def commit (n : Node) (w : Write) : Node × Option Hash :=
  let hlc := (n.hlc.now w.physicalTime).1
  let ticked : Node := { n with hlc := (n.hlc.now w.physicalTime).2, own := n.own }
  if w.fails then (ticked, none)
  else ({ ticked with repo := n.repo.commitOn (n.committed w hlc) }, some w.hash)

/-- A local write is entered into the index if it is still the last one on `main`. -/
def publishLocalCommitAd (n : Node) (commitHash : Hash) (log : RangeOrder Commit)
    (readFails : Bool) : Node :=
  match getLastUserCommit n.repo log readFails with
  | none => n
  | some (head, metadata) =>
    if head.hash ≠ commitHash then n
    else if metadata.kind ≠ commitKindUser then n
    else { n with idx := n.idx.upsert ⟨metadata.hlc, head.hash, .applied⟩ }

def fetched (n : Node) (f : Fetch) : Node :=
  if f.fails .ensureSwarmRemote ∨ f.fails .fetchSwarm then n
  else { n with repo := n.repo.grow f.store }

def syncPath (n : Node) (f : Fetch) : SyncPath :=
  if f.fails .ensureSwarmRemote ∨ f.fails .fetchSwarm then .idle
  else if f.fails .getBranchHead ∨ f.remoteHead = "" then .idle
  else if f.fails .mergeBase then .idle
  else if f.mergeBase = "" then
    if f.fails .forceResetMainTo then .idle else .bootstrap
  else if f.fails .getCommitsSince then .idle
  else
    match getCommitsSince n.repo.store f.remoteHead f.mergeBase with
    | none => .idle
    | some imported =>
      if imported = [] then .idle
      else
        match tryFastForward n.repo f.remoteHead (f.fails .tryFastForward) with
        | some repo => .fastForward repo
        | none => .replay imported

/-- The replay of a sync pass and the entries its hook makes. -/
def replayed (n : Node) (f : Fetch) (imported : List Commit) : Node × Except ReplayError ℕ :=
  let r := replayImportedCommits f.env n.repo f.mergeBase imported n.idx.finalizedBase
  ({ n with repo := r.repo, idx := r.rejected.foldl recordRejection n.idx }, r.result)

def syncOnce (n : Node) (f : Fetch) : Node :=
  let n := n.fetched f
  match n.syncPath f with
  | .idle => n
  | .bootstrap =>
    rebuild { n with repo := n.repo.resetMain f.remoteHead } (f.fails .getAllCommits)
  | .fastForward repo => rebuild { n with repo := repo } (f.fails .getAllCommits)
  | .replay imported =>
    match (n.replayed f imported).2 with
    | .error _ => (n.replayed f imported).1
    | .ok _ => (n.replayed f imported).1.rebuild (f.fails .getAllCommits)

/-- If the pass replays, the commits it makes get new hashes. -/
def replaysSoundly (n : Node) (f : Fetch) : Prop :=
  ∀ imported, (n.fetched f).syncPath f = .replay imported →
    f.env.SoundFor (n.fetched f).repo f.mergeBase imported n.idx.finalizedBase

/-- An advertisement is ignored, turned down, or noted as pending if it is news and not from
too far ahead. -/
theorem onCommitAd_cases (n : Node) (ad : CommitAdV1) (now physicalTime : Int64) :
    n.onCommitAd ad now physicalTime = n ∨ n.onCommitAd ad now physicalTime = n.rejectAd ad ∨
      (ad.repo = n.cfg.repo ∧ ¬ n.idx.decided ad.hlc ∧ ad.hlc.peerID ≠ n.cfg.signer.getID ∧
        ¬ (0 < n.cfg.maxClockSkew ∧ now + n.cfg.maxClockSkew < ad.hlc.wall) ∧
        n.onCommitAd ad now physicalTime =
          { n with
            hlc := n.hlc.update ad.hlc physicalTime
            own := n.own
            idx := n.idx.upsert ⟨ad.hlc, "", .pending⟩ }) := by
  unfold onCommitAd
  split
  · exact Or.inl rfl
  split
  · exact Or.inl rfl
  split
  · exact Or.inl rfl
  next hrepo hnews hforeign =>
  split
  · exact Or.inr (Or.inl rfl)
  next hskew =>
  split
  · exact Or.inl rfl
  · split
    · exact Or.inl rfl
    split
    · exact Or.inr (Or.inl rfl)
    split
    · exact Or.inr (Or.inl rfl)
    split
    · exact Or.inr (Or.inl rfl)
    · exact Or.inr (Or.inr ⟨not_not.mp hrepo, hnews, hforeign, hskew, rfl⟩)

end Node

section Main

variable {repo repo' : Repo} {hlc : HLCTimestamp}

theorem Repo.resetMain_main (repo : Repo) {target : Hash} (h : target ∈ repo.store.dag.keys) :
    (repo.resetMain target).main = target := by
  simp [resetMain, h]

theorem Repo.resetMain_store (repo : Repo) (target : Hash) :
    (repo.resetMain target).store = repo.store := by
  unfold resetMain
  split <;> rfl

theorem Repo.carriesHLC.extend (hgrown : repo.store.dag ≤ repo'.store.dag)
    (hkept : ∀ x ∈ repo.store.dag.ancestors repo.main,
      x ∈ repo'.store.dag.ancestors repo'.main) (h : repo.carriesHLC hlc) :
    repo'.carriesHLC hlc := by
  obtain ⟨x, hx, m, hm, hhlc⟩ := h
  exact ⟨x, hkept x hx, m, Store.metadata?_of_le hgrown hm, hhlc⟩

theorem Repo.carriesHLC_of_grown (hgrown : repo.store.dag ≤ repo'.store.dag)
    (hmain : repo'.main = repo.main) : repo'.carriesHLC hlc ↔ repo.carriesHLC hlc := by
  have hsame : repo'.store.dag.ancestors repo'.main = repo.store.dag.ancestors repo.main := by
    rw [hmain, Lib.Dag.ancestors_of_le hgrown repo.main_mem]
  constructor
  · rintro ⟨x, hx, m, hm, hhlc⟩
    rw [hsame] at hx
    rw [Store.metadata?_eq_of_le hgrown (Lib.Dag.mem_keys_of_mem_ancestors hx)] at hm
    exact ⟨x, hx, m, hm, hhlc⟩
  · exact Repo.carriesHLC.extend hgrown fun x hx => hsame ▸ hx

theorem Repo.commitOn_spec (repo : Repo) (n : StoredCommit) (hname : n.key ≠ "")
    (hkey : n.key ∉ repo.store.dag.keys) (hlinks : n.links = [repo.main]) :
    repo.store.dag ≤ (repo.commitOn n).store.dag ∧
      (repo.commitOn n).store.dag.lookup n.key = some n ∧
      ∀ x, x ∈ (repo.commitOn n).store.dag.ancestors (repo.commitOn n).main ↔
        x = n.key ∨ x ∈ repo.store.dag.ancestors repo.main := by
  have hparents : ∀ p ∈ n.links, p ∈ repo.store.dag.keys := by
    simp [hlinks, repo.main_mem]
  have hle := repo.store.le_add n
  obtain ⟨hstore, -⟩ := repo.grow_eq hle
  have hlook := Store.lookup_add hname hkey hparents
  have hmem := Lib.Dag.mem_keys_of_lookup hlook
  have hmain := (repo.grow (repo.store.add n)).resetMain_main (hstore.symm ▸ hmem)
  rw [commitOn, resetMain_store, hmain, hstore]
  refine ⟨hle, hlook, fun x => ?_⟩
  rw [Lib.Dag.mem_ancestors_iff hmem, Lib.Dag.links_of_lookup hlook, hlinks]
  simp [Lib.Dag.ancestors_of_le hle repo.main_mem]

theorem Node.carriesHLC_committed (n : Node) {w : Write} (hname : w.hash ≠ "")
    (hkey : w.hash ∉ n.repo.store.dag.keys) (now : HLCTimestamp) :
    (n.repo.commitOn (n.committed w now)).carriesHLC hlc ↔
      hlc = now ∨ n.repo.carriesHLC hlc := by
  have hspec := n.repo.commitOn_spec (n.committed w now) hname hkey rfl
  generalize n.repo.commitOn (n.committed w now) = made at hspec ⊢
  obtain ⟨hgrown, hlook, hmem⟩ := hspec
  have hnew : made.store.metadata? (n.committed w now).key =
      some (n.createCommitMetadata w now) := by
    rw [Store.metadata?, Store.commit?, hlook, Option.map_some, Option.bind_some]
    rfl
  constructor
  · rintro ⟨x, hx, m, hm, rfl⟩
    rcases (hmem x).mp hx with rfl | hx
    · obtain rfl := Option.some.inj (hnew.symm.trans hm)
      exact Or.inl rfl
    · rw [Store.metadata?_eq_of_le hgrown (Lib.Dag.mem_keys_of_mem_ancestors hx)] at hm
      exact Or.inr ⟨x, hx, m, hm, rfl⟩
  · rintro (rfl | hc)
    · exact ⟨_, (hmem _).mpr (Or.inl rfl), _, hnew, rfl⟩
    · exact hc.extend hgrown fun x hx => (hmem x).mpr (Or.inr hx)

theorem tryFastForward_spec {target : Hash} {fails : Bool}
    (h : tryFastForward repo target fails = some repo') :
    repo'.store = repo.store ∧ ∀ x ∈ repo.store.dag.ancestors repo.main,
      x ∈ repo.store.dag.ancestors repo'.main := by
  unfold tryFastForward at h
  split_ifs at h with _ hup hdown
  · obtain rfl := Option.some.inj h
    rw [repo.resetMain_main (Lib.Dag.mem_keys_of_ancestors hup)]
    exact ⟨repo.resetMain_store _, fun x hx => Lib.Dag.ancestors_trans hx hup⟩
  · obtain rfl := Option.some.inj h
    exact ⟨rfl, fun x hx => hx⟩

theorem getCommitsSince_on_branch {s : Store} {head base : Hash} {cs : List Commit}
    (hhead : head ∈ s.dag.keys) (h : getCommitsSince s head base = some cs) {c : Commit}
    (hc : c ∈ cs) : s.commit? c.hash = some c ∧ c.hash ∈ s.dag.ancestors head := by
  by_cases hne : head = base
  · simp only [getCommitsSince, hne, or_true, if_true, Option.some.injEq] at h
    subst h
    simp at hc
  · obtain ⟨cs', hcs', -, hstored, hmem⟩ := getCommitsSince_spec s hhead hne
    obtain rfl := Option.some.inj (h.symm.trans hcs')
    refine ⟨hstored c hc, ?_⟩
    rw [Lib.Dag.mem_ancestors_iff_path hhead]
    exact Relation.ReflTransGen.mono (fun a b hab => hab.1) _ _
      ((hmem _).mp (List.mem_map_of_mem hc))

theorem getLastUserCommit_spec {log : RangeOrder Commit} {readFails : Bool} {c : Commit}
    {m : CommitMetadata} (h : getLastUserCommit repo log readFails = some (c, m)) :
    c.hash ∈ repo.store.dag.ancestors repo.main ∧ repo.store.metadata? c.hash = some m := by
  obtain ⟨cs, hcs, hfirst⟩ := Option.bind_eq_some_iff.mp h
  obtain ⟨d, hd, hparse⟩ := List.exists_of_findSome?_eq_some hfirst
  obtain ⟨m', hm', heq⟩ := Option.map_eq_some_iff.mp hparse
  obtain ⟨rfl, rfl⟩ := Prod.mk.inj heq
  unfold getAllCommits at hcs
  split_ifs at hcs
  obtain ⟨hstored, hon⟩ :=
    getCommitsSince_on_branch repo.main_mem hcs ((log.perm cs).mem_iff.mp hd)
  refine ⟨hon, ?_⟩
  rw [Store.metadata?, hstored]
  exact hm'

end Main

namespace Node

variable {n : Node} {f : Fetch}

theorem lookup_hearPeer {peerHLC : AList fun _ : String => HLCTimestamp} {peerID p : String}
    {hlc h : HLCTimestamp} (hp : (hearPeer peerHLC peerID hlc).lookup p = some h) :
    peerHLC.lookup p = some h ∨ p = peerID ∧ h = hlc := by
  have hinsert : (peerHLC.insert peerID hlc).lookup p = some h →
      peerHLC.lookup p = some h ∨ p = peerID ∧ h = hlc := by
    intro hp
    by_cases heq : p = peerID
    · subst heq
      rw [AList.lookup_insert] at hp
      exact Or.inr ⟨rfl, (Option.some.inj hp).symm⟩
    · rw [AList.lookup_insert_ne heq] at hp
      exact Or.inl hp
  unfold hearPeer at hp
  split at hp
  · exact hinsert hp
  · split at hp
    · exact hinsert hp
    · exact Or.inl hp

theorem fetched_spec (hstore : n.repo.store.dag ≤ f.store.dag) :
    ∃ repo, n.fetched f = { n with repo := repo } ∧ n.repo.store.dag ≤ repo.store.dag ∧
      repo.main = n.repo.main := by
  unfold fetched
  split
  · exact ⟨n.repo, rfl, Lib.Dag.le_rfl, rfl⟩
  · obtain ⟨hgrown, hmain⟩ := n.repo.grow_eq hstore
    refine ⟨_, rfl, ?_, hmain⟩
    rw [hgrown]
    exact hstore

inductive PathTaken (n : Node) (f : Fetch) : SyncPath → Prop
  | idle : PathTaken n f .idle
  | bootstrap : f.mergeBase = "" → PathTaken n f .bootstrap
  | fastForward (repo : Repo) :
      tryFastForward n.repo f.remoteHead (f.fails .tryFastForward) = some repo →
      PathTaken n f (.fastForward repo)
  | replay (imported : List Commit) :
      getCommitsSince n.repo.store f.remoteHead f.mergeBase = some imported →
      PathTaken n f (.replay imported)

theorem pathTaken_syncPath (n : Node) (f : Fetch) : PathTaken n f (n.syncPath f) := by
  unfold syncPath
  split
  · exact .idle
  split
  · exact .idle
  split
  · exact .idle
  split
  · next hbase =>
    split
    · exact .idle
    · exact .bootstrap hbase
  split
  · exact .idle
  split
  · exact .idle
  next imported hcommits =>
  split
  · exact .idle
  split
  · next repo hff => exact .fastForward repo hff
  · exact .replay imported hcommits

theorem head_of_syncPath (h : n.syncPath f ≠ .idle) :
    ¬ (f.fails .ensureSwarmRemote = true ∨ f.fails .fetchSwarm = true) ∧
      f.remoteHead ∈ f.store.dag.keys := by
  unfold syncPath at h
  split at h
  · exact absurd rfl h
  · next hfetch =>
    split at h
    · exact absurd rfl h
    · next hhead => exact ⟨hfetch, f.head_mem.resolve_left fun he => hhead (Or.inr he)⟩

theorem bootstrap_of_syncPath (h : n.syncPath f = .bootstrap) : f.mergeBase = "" := by
  have htaken := pathTaken_syncPath n f
  rw [h] at htaken
  cases htaken with
  | bootstrap hbase => exact hbase

theorem fastForward_of_syncPath {repo : Repo} (h : n.syncPath f = .fastForward repo) :
    ∃ fails, tryFastForward n.repo f.remoteHead fails = some repo := by
  have htaken := pathTaken_syncPath n f
  rw [h] at htaken
  cases htaken with
  | fastForward _ hff => exact ⟨_, hff⟩

theorem replay_of_syncPath {imported : List Commit} (h : n.syncPath f = .replay imported) :
    getCommitsSince n.repo.store f.remoteHead f.mergeBase = some imported := by
  have htaken := pathTaken_syncPath n f
  rw [h] at htaken
  cases htaken with
  | replay _ hcommits => exact hcommits

theorem imported_of_syncPath (hstore : n.repo.store.dag ≤ f.store.dag) {imported : List Commit}
    (h : (n.fetched f).syncPath f = .replay imported) :
    (n.fetched f).repo.store = f.store ∧ ∀ c ∈ imported,
      f.store.commit? c.hash = some c ∧ c.hash ∈ f.store.dag.ancestors f.remoteHead := by
  have hcommits := replay_of_syncPath h
  obtain ⟨hfetch, hhead⟩ := head_of_syncPath (by rw [h]; exact SyncPath.noConfusion)
  have hall : (n.fetched f).repo.store = f.store := by
    rw [fetched, if_neg hfetch]
    exact (n.repo.grow_eq hstore).1
  rw [hall] at hcommits
  exact ⟨hall, fun c hc => getCommitsSince_on_branch hhead hcommits hc⟩

theorem repo_onCommitAd (n : Node) (ad : CommitAdV1) (now physicalTime : Int64) :
    (n.onCommitAd ad now physicalTime).repo = n.repo := by
  rcases n.onCommitAd_cases ad now physicalTime with heq | heq | ⟨-, -, -, -, heq⟩
  · rw [heq]
  · rw [heq, rejectAd]
  · rw [heq]

theorem repo_onHeartbeat (n : Node) (hb : HeartbeatV1) (physicalTime : Int64) :
    (n.onHeartbeat hb physicalTime).repo = n.repo := by
  unfold onHeartbeat
  split_ifs <;> rfl

theorem repo_publishLocalCommitAd (n : Node) (commitHash : Hash) (log : RangeOrder Commit)
    (readFails : Bool) : (n.publishLocalCommitAd commitHash log readFails).repo = n.repo := by
  unfold publishLocalCommitAd
  split
  · rfl
  · split_ifs <;> rfl

theorem commit_grown {n : Node} {w : Write} (hname : w.hash ≠ "")
    (hkey : w.hash ∉ n.repo.store.dag.keys) :
    n.repo.store.dag ≤ (n.commit w).1.repo.store.dag := by
  unfold commit
  split
  · exact Lib.Dag.le_rfl
  · exact (n.repo.commitOn_spec (n.committed w (n.hlc.now w.physicalTime).1) hname hkey rfl).1

theorem mem_keys_commit {n : Node} {w : Write} (hname : w.hash ≠ "")
    (hkey : w.hash ∉ n.repo.store.dag.keys) (hfails : w.fails = false) :
    w.hash ∈ (n.commit w).1.repo.store.dag.keys := by
  have hspec := n.repo.commitOn_spec (n.committed w (n.hlc.now w.physicalTime).1) hname hkey rfl
  simp only [commit, hfails]
  exact Lib.Dag.mem_keys_of_lookup hspec.2.1

end Node

end DoltSwarm.Core
