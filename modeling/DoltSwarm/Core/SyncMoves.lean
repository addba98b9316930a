import DoltSwarm.Core.Node

/-!
# What one sync pass does to main (core/node.go)

A pass leaves `main` alone, resets it to the remote branch, moves it forward, or moves it to
where a replay ended. The hooks hear of the commits that a replay drops, and of nothing else.
-/

namespace DoltSwarm.Core

set_option autoImplicit false

def Node.reported (n : Node) (f : Fetch) : List (CommitAd × RejectionReason) :=
  match (n.fetched f).syncPath f with
  | .replay imported =>
    (replayImportedCommits f.env (n.fetched f).repo f.mergeBase imported
      n.idx.finalizedBase).rejected
  | _ => []

def Node.replays (n : Node) (f : Fetch) (imported : List Commit) : List CommitWithMeta :=
  commitsToReplay (n.fetched f).repo f.mergeBase imported n.idx.finalizedBase

def Node.replayBase (n : Node) (f : Fetch) : Hash :=
  effectiveBase f.mergeBase n.idx.finalizedBase

inductive SyncMove (n : Node) (f : Fetch) : Repo → List (CommitAd × RejectionReason) → Prop
  | stay {repo : Repo} {reported : List (CommitAd × RejectionReason)}
      (hgrown : n.repo.store.dag ≤ repo.store.dag) (hmain : repo.main = n.repo.main) :
      SyncMove n f repo reported
  | bootstrap {repo : Repo} (hpath : (n.fetched f).syncPath f = .bootstrap)
      (hstore : repo.store = f.store) (hmain : repo.main = f.remoteHead) : SyncMove n f repo []
  | fastForward {repo : Repo} (hstore : repo.store = f.store) (hmain : repo.main = f.remoteHead)
      (hup : n.repo.main ∈ f.store.dag.ancestors f.remoteHead) : SyncMove n f repo []
  | replay {repo : Repo} (imported : List Commit) (st : ReplayState)
      (hpath : (n.fetched f).syncPath f = .replay imported)
      (hne : n.replays f imported ≠ []) (hbase : n.replayBase f ∈ f.store.dag.keys)
      (hrun : replayCommits f.env ⟨f.store, n.replayBase f, 0, []⟩ (n.replays f imported) = .ok st)
      (hstore : repo.store = st.store) (hmain : repo.main = st.headHash) :
      SyncMove n f repo st.rejected

namespace Node

variable {n : Node} {f : Fetch}

theorem fetched_of_syncPath (hstore : n.repo.store.dag ≤ f.store.dag)
    (h : (n.fetched f).syncPath f ≠ .idle) :
    (n.fetched f).repo.store = f.store ∧ (n.fetched f).repo.main = n.repo.main ∧
      (n.fetched f).idx = n.idx ∧ f.remoteHead ∈ f.store.dag.keys := by
  obtain ⟨hfetch, hhead⟩ := head_of_syncPath h
  obtain ⟨hall, hmain⟩ := n.repo.grow_eq hstore
  rw [fetched, if_neg hfetch]
  exact ⟨hall, hmain, rfl, hhead⟩

theorem replaysSoundly.sound (h : n.replaysSoundly f) (hstore : n.repo.store.dag ≤ f.store.dag)
    {imported : List Commit} (hpath : (n.fetched f).syncPath f = .replay imported) :
    f.env.Sound ⟨f.store, n.replayBase f, 0, []⟩ (n.replays f imported) := by
  obtain ⟨hall, -, -, -⟩ := fetched_of_syncPath hstore (by simp [hpath])
  have hsound := h imported hpath
  rw [Env.SoundFor, hall] at hsound
  exact hsound

theorem tryFastForward_cases {repo repo' : Repo} {target : Hash} {fails : Bool}
    (h : tryFastForward repo target fails = some repo') :
    repo' = repo ∨ repo'.store = repo.store ∧ repo'.main = target ∧
      repo.main ∈ repo.store.dag.ancestors target := by
  unfold tryFastForward at h
  split_ifs at h with _ hup hdown
  · obtain rfl := Option.some.inj h
    exact Or.inr ⟨repo.resetMain_store _,
      repo.resetMain_main (Lib.Dag.mem_keys_of_ancestors hup), hup⟩
  · exact Or.inl (Option.some.inj h).symm

theorem listed_replays (hstore : n.repo.store.dag ≤ f.store.dag) {imported : List Commit}
    (hpath : (n.fetched f).syncPath f = .replay imported) :
    Listed f.store (n.replays f imported) := by
  obtain ⟨hall, himported⟩ := imported_of_syncPath hstore hpath
  rw [← hall]
  exact listed_commitsToReplay (fun c hc => hall ▸ (himported c hc).1) f.mergeBase
    n.idx.finalizedBase

theorem mem_branch_of_replays (hstore : n.repo.store.dag ≤ f.store.dag) {imported : List Commit}
    (hpath : (n.fetched f).syncPath f = .replay imported) {c : CommitWithMeta}
    (hc : c ∈ n.replays f imported) :
    c.commit.hash ∈ f.store.dag.ancestors n.repo.main ∨
      c.commit.hash ∈ f.store.dag.ancestors f.remoteHead := by
  obtain ⟨hall, himported⟩ := imported_of_syncPath hstore hpath
  obtain ⟨-, hmain, -, -⟩ := fetched_of_syncPath hstore (by simp [hpath])
  obtain ⟨hmem, -⟩ := mem_userCommits.mp (mem_userCommits_of_collected hc)
  rcases List.mem_append.mp hmem with hours | himp
  · have hon := (getCommitsSince_on_branch (n.fetched f).repo.main_mem
      (getCommitsSince_localCommits _ _) hours).2
    rw [hall, hmain] at hon
    exact Or.inl hon
  · exact Or.inr (himported _ himp).2

theorem idx_fetched (n : Node) (f : Fetch) : (n.fetched f).idx = n.idx := by
  unfold fetched
  split <;> rfl

theorem repo_syncOnce_of_replay {imported : List Commit}
    (hpath : (n.fetched f).syncPath f = .replay imported) :
    (n.syncOnce f).repo = (replayImportedCommits f.env (n.fetched f).repo f.mergeBase imported
      n.idx.finalizedBase).repo := by
  simp only [syncOnce, hpath, replayed, idx_fetched]
  split <;> rfl

theorem replayed_ok (hstore : n.repo.store.dag ≤ f.store.dag) {imported : List Commit}
    (hpath : (n.fetched f).syncPath f = .replay imported) {k : ℕ} {r : ReplayResult}
    (hr : replayImportedCommits f.env (n.fetched f).repo f.mergeBase imported
      n.idx.finalizedBase = r) (hok : r.result = .ok k) :
    (n.replays f imported = [] ∧ r.repo = (n.fetched f).repo) ∨
      n.replays f imported ≠ [] ∧ n.replayBase f ∈ f.store.dag.keys ∧
        ∃ st, replayCommits f.env ⟨f.store, n.replayBase f, 0, []⟩ (n.replays f imported) =
            .ok st ∧
          r.repo.store = st.store ∧ r.repo.main = st.headHash ∧ r.rejected = st.rejected := by
  subst hr
  obtain ⟨hall, himported⟩ := imported_of_syncPath hstore hpath
  obtain ⟨hread, hlog⟩ := replayImportedCommits_ok hok
  have hstored : Stored (n.fetched f).repo.store imported := fun c hc =>
    hall ▸ (himported c hc).1
  have hcall := replayImportedCommits_eq hstored hread hlog
  by_cases hne : n.replays f imported = []
  · rw [replays] at hne
    rw [hcall, if_pos hne]
    exact Or.inl ⟨hne, rfl⟩
  · refine Or.inr ⟨hne, ?_⟩
    rw [replays] at hne
    rw [if_neg hne] at hcall
    rw [hcall] at hok ⊢
    have hbase := replayTo_base_mem hok
    obtain ⟨st, hrun, hmoved⟩ := replayTo_ok hok
    rw [hall] at hbase hrun
    exact ⟨hbase, st, hrun, hmoved⟩

theorem replayed_move (hstore : n.repo.store.dag ≤ f.store.dag) {imported : List Commit}
    (hpath : (n.fetched f).syncPath f = .replay imported) :
    SyncMove n f (replayImportedCommits f.env (n.fetched f).repo f.mergeBase imported
        n.idx.finalizedBase).repo
      (replayImportedCommits f.env (n.fetched f).repo f.mergeBase imported
        n.idx.finalizedBase).rejected := by
  obtain ⟨hall, hmain, -, -⟩ := fetched_of_syncPath hstore (by simp [hpath])
  obtain ⟨hgrown, hstays⟩ := replayImportedCommits_grown f.env (n.fetched f).repo f.mergeBase
    imported n.idx.finalizedBase
  rw [hall] at hgrown
  cases hres : (replayImportedCommits f.env (n.fetched f).repo f.mergeBase imported
      n.idx.finalizedBase).result with
  | error err => exact .stay (Lib.Dag.le_trans hstore hgrown) ((hstays err hres).trans hmain)
  | ok k =>
    rcases replayed_ok hstore hpath rfl hres with ⟨-, hsame⟩ |
      ⟨hne, hbase, st, hrun, hstore', hmain', hrej⟩
    · rw [hsame]
      exact .stay (hall ▸ hstore) hmain
    · rw [hrej]
      exact .replay imported st hpath hne hbase hrun hstore' hmain'

theorem syncOnce_move (hstore : n.repo.store.dag ≤ f.store.dag) :
    SyncMove n f (n.syncOnce f).repo (n.reported f) := by
  by_cases hidle : (n.fetched f).syncPath f = .idle
  · obtain ⟨repo, heq, hgrown, hmain⟩ := fetched_spec hstore
    simp only [syncOnce, hidle]
    rw [heq]
    exact .stay hgrown hmain
  obtain ⟨hall, hmain, hidx, hhead⟩ := fetched_of_syncPath hstore hidle
  cases hpath : (n.fetched f).syncPath f with
  | idle => exact absurd hpath hidle
  | bootstrap =>
    simp only [syncOnce, reported, hpath, rebuild]
    refine .bootstrap hpath ?_ ?_
    · rw [Repo.resetMain_store, hall]
    · exact Repo.resetMain_main _ (hall ▸ hhead)
  | fastForward repo =>
    simp only [syncOnce, reported, hpath, rebuild]
    obtain ⟨fails, hff⟩ := fastForward_of_syncPath hpath
    rcases tryFastForward_cases hff with rfl | ⟨hsame, htarget, hup⟩
    · exact .stay (hall ▸ hstore) hmain
    · rw [hall] at hsame hup
      exact .fastForward hsame htarget (hmain ▸ hup)
  | replay imported =>
    have hmove := replayed_move hstore hpath
    simp only [syncOnce, reported, hpath, replayed, hidx]
    split
    · exact hmove
    · exact hmove

/-- The order of the map does not show in what a pass collects. -/
theorem mem_replays {n : Node} {f : Fetch} (hstore : n.repo.store.dag ≤ f.store.dag)
    {imported : List Commit} (hpath : (n.fetched f).syncPath f = .replay imported)
    {order : RangeOrder CommitWithMeta} {c : CommitWithMeta}
    (hc : c ∈ collectUserCommits order (localCommits (n.fetched f).repo (n.replayBase f)) imported
      n.idx.finalizedBase) : c ∈ n.replays f imported := by
  obtain ⟨hall, himported⟩ := imported_of_syncPath hstore hpath
  have hstored : Stored (n.fetched f).repo.store imported := fun c hc =>
    hall ▸ (himported c hc).1
  have hs := stored_localCommits hstored (n.replayBase f)
  rwa [collectUserCommits_congr hs hs fun _ => Iff.rfl] at hc

end Node

theorem SyncMove.grown {n : Node} {f : Fetch} (hstore : n.repo.store.dag ≤ f.store.dag)
    {repo : Repo} {reported : List (CommitAd × RejectionReason)}
    (h : SyncMove n f repo reported) : n.repo.store.dag ≤ repo.store.dag := by
  cases h with
  | stay hgrown _ => exact hgrown
  | bootstrap _ hall _ => exact hall ▸ hstore
  | fastForward hall _ _ => exact hall ▸ hstore
  | replay imported st _ _ _ hrun hall _ =>
    have hgrown : f.store.dag ≤ st.store.dag := replayCommits_ok_grown hrun
    exact hall ▸ Lib.Dag.le_trans hstore hgrown

theorem Node.syncOnce_grown {n : Node} {f : Fetch} (hstore : n.repo.store.dag ≤ f.store.dag) :
    n.repo.store.dag ≤ (n.syncOnce f).repo.store.dag :=
  (Node.syncOnce_move hstore).grown hstore

/-- A pass enters rejections into the index, and may then rebuild it. -/
theorem Node.syncOnce_idx (n : Node) (f : Fetch) :
    ∃ dropped : List (CommitAd × RejectionReason),
      (n.syncOnce f).idx = dropped.foldl recordRejection n.idx ∨ ∃ readFails,
        (n.syncOnce f).idx =
          initIndexFromDB (n.syncOnce f).repo readFails (dropped.foldl recordRejection n.idx) := by
  unfold Node.syncOnce
  rw [← n.idx_fetched f]
  generalize n.fetched f = m
  dsimp only
  split
  · exact ⟨[], Or.inl rfl⟩
  · exact ⟨[], Or.inr ⟨_, rfl⟩⟩
  · exact ⟨[], Or.inr ⟨_, rfl⟩⟩
  · split
    · exact ⟨_, Or.inl rfl⟩
    · exact ⟨_, Or.inr ⟨_, rfl⟩⟩

end DoltSwarm.Core
