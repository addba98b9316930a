import DoltSwarm.Core.Stability
import DoltSwarm.Core.SyncMoves

/-!
# Histories of known commits (core/reconciler_core.go, core/node.go)

A node on whose `main` all user commits are known, of whatever they are known, keeps them so as
long as its replays merge nothing: the branch of such a replay ends at its base or at one of the
commits replayed.
-/

namespace DoltSwarm.Core

set_option autoImplicit false

section History

variable (G : Hash → CommitMetadata → Prop)

/-- All user commits reached from `head` are among those of `G`. -/
structure Store.Rooted (s : Store) (head : Hash) : Prop where
  mem : head ∈ s.dag.keys
  known : ∀ x ∈ s.dag.ancestors head, ∀ m ∈ s.metadata? x, G x m

/-- So it is for the commits that the index has as applied, and for the finalized base. -/
structure MemoryCommitIndex.Rooted (idx : MemoryCommitIndex) (s : Store) : Prop where
  applied : ∀ hlc e, idx.get hlc = some e → e.status = .applied → s.Rooted G e.commitHash
  base : ∀ fb ∈ idx.finalizedBase, s.Rooted G fb.commitHash

structure Node.Rooted (n : Node) : Prop where
  main : n.repo.store.Rooted G n.repo.main
  idx : n.idx.Rooted G n.repo.store

variable {G}

theorem Store.Rooted.mono {G' : Hash → CommitMetadata → Prop} (hG : ∀ x m, G x m → G' x m)
    {s : Store} {head : Hash} (h : s.Rooted G head) : s.Rooted G' head :=
  ⟨h.mem, fun x hx m hm => hG x m (h.known x hx m hm)⟩

theorem Store.Rooted.grow {s s' : Store} {head : Hash} (h : s.Rooted G head)
    (hle : s.dag ≤ s'.dag) : s'.Rooted G head := by
  refine ⟨Lib.Dag.keys_subset hle h.mem, fun x hx m hm => ?_⟩
  rw [Lib.Dag.ancestors_of_le hle h.mem] at hx
  rw [Store.metadata?_eq_of_le hle (Lib.Dag.mem_keys_of_mem_ancestors hx)] at hm
  exact h.known x hx m hm

theorem Store.Rooted.ancestor {s : Store} {head x : Hash} (h : s.Rooted G head)
    (hx : x ∈ s.dag.ancestors head) : s.Rooted G x :=
  ⟨Lib.Dag.mem_keys_of_mem_ancestors hx, fun y hy => h.known y (Lib.Dag.ancestors_trans hy hx)⟩

theorem Store.Rooted.fetch {s s' : Store} {head : Hash} (h : s.Rooted G head)
    (hmem : head ∈ s'.dag.keys)
    (hagree : ∀ x ∈ s.dag.ancestors head, s'.dag.lookup x = s.dag.lookup x) :
    s'.Rooted G head := by
  refine ⟨hmem, fun x hx m hm => ?_⟩
  have hx' := Lib.Dag.mem_ancestors_of_agree h.mem hagree hx
  rw [Store.metadata?, Store.commit?, hagree x hx'] at hm
  exact h.known x hx' m hm

namespace MemoryCommitIndex.Rooted

variable {idx : MemoryCommitIndex} {s : Store}

theorem mono {G' : Hash → CommitMetadata → Prop} (hG : ∀ x m, G x m → G' x m)
    (h : idx.Rooted G s) : idx.Rooted G' s where
  applied hlc e he ha := (h.applied hlc e he ha).mono hG
  base fb hfb := (h.base fb hfb).mono hG

theorem grow {s' : Store} (h : idx.Rooted G s) (hle : s.dag ≤ s'.dag) : idx.Rooted G s' where
  applied hlc e he ha := (h.applied hlc e he ha).grow hle
  base fb hfb := (h.base fb hfb).grow hle

theorem upsert (h : idx.Rooted G s) {e : CommitIndexEntry}
    (he : e.status = .applied → s.Rooted G e.commitHash) : (idx.upsert e).Rooted G s where
  applied hlc e' he' ha := by
    rw [MemoryCommitIndex.get_upsert] at he'
    split at he'
    · obtain rfl := Option.some.inj he'
      exact he ha
    · exact h.applied hlc e' he' ha
  base := h.base

theorem recordRejections (dropped : List (CommitAd × RejectionReason)) (h : idx.Rooted G s) :
    (dropped.foldl recordRejection idx).Rooted G s := by
  induction dropped generalizing idx with
  | nil => exact h
  | cons d dropped ih =>
    rw [List.foldl_cons, recordRejection]
    split
    · exact ih h
    · exact ih (h.upsert fun ha => by cases ha)

theorem rebuild {repo : Repo} (hmain : repo.store.Rooted G repo.main)
    (hbase : ∀ fb ∈ idx.finalizedBase, repo.store.Rooted G fb.commitHash) (readFails : Bool) :
    (initIndexFromDB repo readFails idx).Rooted G repo.store where
  applied hlc e he ha := by
    cases readFails with
    | true => simp [initIndexFromDB, getAllCommits] at he
    | false =>
      rcases get_initIndexFromDB he with ⟨-, x, hx, -, -, -, hhash⟩ | ⟨hpres, -⟩
      · rw [hhash]
        exact hmain.ancestor hx
      · exact absurd ha (mem_preservedEntries.mp hpres).2.2.1
  base fb hfb := by
    rw [finalizedBase_initIndexFromDB] at hfb
    exact hbase fb hfb

theorem tryFinalize (peerHLC : AList fun _ : String => HLCTimestamp) (h : idx.Rooted G s) :
    (Core.tryFinalize peerHLC idx).Rooted G s := by
  rcases tryFinalize_cases peerHLC idx with heq | ⟨e, he, -, heq⟩
  · rw [heq]
    exact h
  · rw [heq]
    refine ⟨h.applied, fun fb hfb => ?_⟩
    obtain rfl := Option.some.inj hfb
    exact h.applied _ e he.1 he.2.1

end MemoryCommitIndex.Rooted

end History

/-! ## Replays that merge nothing -/

/-- Each commit of the list is a child of the branch it comes to, or conflicts with it, up to the
first that ends the replay. -/
def mergeFree (env : Env) (s : Store) (head : Hash) : List CommitWithMeta → Prop
  | [] => True
  | cwm :: rest =>
    if getFirstParentHash env s cwm.commit.hash = some head then
      mergeFree env s cwm.commit.hash rest
    else
      match doltMerge env s head cwm.commit.hash 0 with
      | .error err => isConflictError err = true → mergeFree env s head rest
      | .ok _ => False

instance decidableMergeFree (env : Env) (s : Store) :
    ∀ (head : Hash) (commits : List CommitWithMeta), Decidable (mergeFree env s head commits)
  | _, [] => instDecidableTrue
  | head, cwm :: rest =>
    have := decidableMergeFree env s cwm.commit.hash rest
    have := decidableMergeFree env s head rest
    if hchild : getFirstParentHash env s cwm.commit.hash = some head then
      decidable_of_iff (mergeFree env s cwm.commit.hash rest) (by rw [mergeFree, if_pos hchild])
    else
      match hmerge : doltMerge env s head cwm.commit.hash 0 with
      | .error err => decidable_of_iff (isConflictError err = true → mergeFree env s head rest)
        (by rw [mergeFree, if_neg hchild, hmerge])
      | .ok _ => isFalse (by rw [mergeFree, if_neg hchild, hmerge]; exact id)

/-- A call that is made once in every replay fails, or `main` has moved. -/
def Env.keepsMain (env : Env) : Prop :=
  env.mainAdvances = true ∨ ∃ call ∈ [SqlCall.lastCommit, .conn, .branch, .checkoutTmp,
    .checkoutMain, .mainHead, .resetMain], env.fails call = true

instance (env : Env) : Decidable env.keepsMain :=
  inferInstanceAs (Decidable (_ ∨ ∃ call ∈ _, env.fails call = true))

section Loop

variable {env : Env}

theorem mergeFree_round {st st' : ReplayState} {cwm : CommitWithMeta}
    {rest : List CommitWithMeta} (hfirst : st.mergeCommits = 0)
    (hfree : mergeFree env st.store st.headHash (cwm :: rest))
    (h : replayCommit env st cwm = .ok st') :
    st'.store = st.store ∧ st'.mergeCommits = 0 ∧ mergeFree env st'.store st'.headHash rest ∧
      (st'.headHash = st.headHash ∨ st'.headHash = cwm.commit.hash) := by
  simp only [replayCommit, hfirst] at h
  rw [mergeFree] at hfree
  by_cases hchild : getFirstParentHash env st.store cwm.commit.hash = some st.headHash
  · rw [if_pos hchild] at h hfree
    split_ifs at h
    obtain rfl := Except.ok.inj h
    exact ⟨rfl, rfl, hfree, Or.inr rfl⟩
  · rw [if_neg hchild] at h hfree
    split at h
    · cases h
    cases hmerge : doltMerge env st.store st.headHash cwm.commit.hash 0 with
    | error err =>
      rw [hmerge] at h hfree
      dsimp only at h
      split_ifs at h with hconflict
      obtain rfl := Except.ok.inj h
      exact ⟨rfl, rfl, hfree hconflict, Or.inl rfl⟩
    | ok merged =>
      rw [hmerge] at hfree
      exact hfree.elim

theorem mergeFree_run (commits : List CommitWithMeta) {st st' : ReplayState}
    (hfirst : st.mergeCommits = 0) (hfree : mergeFree env st.store st.headHash commits)
    (h : replayCommits env st commits = .ok st') :
    st'.store = st.store ∧
      (st'.headHash = st.headHash ∨ ∃ c ∈ commits, st'.headHash = c.commit.hash) := by
  induction commits generalizing st with
  | nil =>
    obtain rfl := Except.ok.inj h
    exact ⟨rfl, Or.inl rfl⟩
  | cons cwm rest ih =>
    obtain ⟨mid, hround, hrest⟩ := replayCommits_cons.mp h
    obtain ⟨hstore, hnone, hfree', hhead⟩ := mergeFree_round hfirst hfree hround
    obtain ⟨hstore', hhead'⟩ := ih hnone hfree' hrest
    refine ⟨hstore'.trans hstore, ?_⟩
    rcases hhead' with heq | ⟨c, hc, heq⟩
    · rw [heq]
      rcases hhead with hsame | hcwm
      · exact Or.inl hsame
      · exact Or.inr ⟨cwm, List.mem_cons_self, hcwm⟩
    · exact Or.inr ⟨c, List.mem_cons_of_mem _ hc, heq⟩

theorem Detached.user_head_run {g : Store} {commits : List CommitWithMeta}
    {st st' : ReplayState} (henv : env.Sound st commits)
    (hcommits : ∀ c ∈ hashes commits, c ∈ g.dag.keys) (h : Detached g st)
    (huser : ∃ m, st.store.metadata? st.headHash = some m)
    (hrun : replayCommits env st commits = .ok st') :
    Detached g st' ∧ ∃ m, st'.store.metadata? st'.headHash = some m := by
  induction commits generalizing st with
  | nil =>
    obtain rfl := Except.ok.inj hrun
    exact ⟨h, huser⟩
  | cons cwm rest ih =>
    obtain ⟨mid, hstep, hrest⟩ := replayCommits_cons.mp hrun
    obtain ⟨hround, hnext⟩ := henv.cons hstep
    simp only [hashes, List.map_cons, List.mem_cons, forall_eq_or_imp] at hcommits
    cases replayCommit_move hround h.head_mem hstep with
    | forward hchild => exact absurd hchild (h.not_child hcommits.1)
    | reject _ _ _ _ _ _ =>
      refine ih hnext hcommits.2 ?_ ?_ hrest
      · exact h.rejected _
      · exact huser
    | amend _ _ ha => exact ih hnext hcommits.2 (h.amended ha) ⟨_, ha.metadata_head⟩ hrest

/-- Where something is merged, the branch ends at a new commit with user metadata. -/
theorem user_head_of_merge {g : Store} {commits : List CommitWithMeta} {st st' : ReplayState}
    (henv : env.Sound st commits) (hcommits : ∀ c ∈ hashes commits, c ∈ g.dag.keys)
    (hall : st.store = g) (hhead : st.headHash ∈ g.dag.keys)
    (hmerge : ¬ mergeFree env g st.headHash commits)
    (hrun : replayCommits env st commits = .ok st') :
    Detached g st' ∧ ∃ m, st'.store.metadata? st'.headHash = some m := by
  induction commits generalizing st with
  | nil => exact absurd trivial hmerge
  | cons cwm rest ih =>
    obtain ⟨mid, hstep, hrest⟩ := replayCommits_cons.mp hrun
    obtain ⟨hround, hnext⟩ := henv.cons hstep
    simp only [hashes, List.map_cons, List.mem_cons, forall_eq_or_imp] at hcommits
    subst hall
    have hparent : getFirstParentHash env st.store cwm.commit.hash =
        (st.store.dag.links cwm.commit.hash).head? := by
      simp [getFirstParentHash, hround.2]
    rw [mergeFree, hparent] at hmerge
    cases replayCommit_move hround hhead hstep with
    | forward hchild =>
      unfold isChildOf at hchild
      rw [if_pos hchild] at hmerge
      refine ih hnext hcommits.2 ?_ ?_ ?_ hrest
      · rfl
      · exact hcommits.1
      · exact hmerge
    | reject hchild hup hdown err herr hconflict =>
      have hrefused : doltMerge env st.store st.headHash cwm.commit.hash 0 = .error err := by
        simp [doltMerge, hcommits.1, hup, hdown, herr]
      unfold isChildOf at hchild
      rw [if_neg hchild, hrefused] at hmerge
      refine ih hnext hcommits.2 ?_ ?_ ?_ hrest
      · rfl
      · exact hhead
      · exact fun hfree => hmerge fun _ => hfree
    | amend _ _ ha =>
      have hattached : Attached st.store st := ⟨Lib.Dag.le_rfl, hhead⟩
      exact (hattached.amended ha).user_head_run hnext hcommits.2 ⟨_, ha.metadata_head⟩ hrest

theorem main_of_keepsMain (h : env.keepsMain) (repo : Repo) (mergeBase : Hash)
    (imported : List Commit) (fb : Option FinalizedBase) :
    (replayImportedCommits env repo mergeBase imported fb).repo.main = repo.main := by
  unfold replayImportedCommits
  split
  · rfl
  next hlast =>
  split
  · rfl
  simp only [getCommitsSince_localCommits]
  split
  · rfl
  unfold replayToTempBranchThenUpdateMain
  split
  · rfl
  next hconn =>
  split
  · rfl
  next hbranch =>
  split
  · rfl
  next htmp =>
  split
  · exact repo.main_grow _
  dsimp only
  split
  · exact repo.main_grow _
  next hmain =>
  split
  · exact repo.main_grow _
  next hhead =>
  split
  · exact repo.main_grow _
  next hadvances =>
  split
  · exact repo.main_grow _
  next hreset =>
  rw [not_or] at hbranch hadvances
  simp [Env.keepsMain, hlast, hconn, hbranch.1, htmp, hmain, hhead, hadvances.1, hreset] at h

end Loop

/-! ## One node -/

/-- A pass of `n` that is answered from the database of a peer, as it is or was. -/
structure Served (n : Node) (repo : Repo) (f : Fetch) : Prop where
  adds : n.repo.store.dag ≤ f.store.dag
  head : f.remoteHead = repo.main
  branch : ∀ x ∈ repo.store.dag.ancestors repo.main,
    f.store.dag.lookup x = repo.store.dag.lookup x
  shared : f.mergeBase ≠ "" → f.mergeBase ∈ f.store.dag.ancestors n.repo.main ∧
    f.mergeBase ∈ f.store.dag.ancestors f.remoteHead

/-- The replay of the pass merges nothing, or does not move `main`. -/
def Node.mergesNothing (n : Node) (f : Fetch) : Prop :=
  ∀ imported ∈ ((n.fetched f).syncPath f).imported?,
    f.env.keepsMain ∨ mergeFree f.env f.store (n.replayBase f) (n.replays f imported)

instance (n : Node) (f : Fetch) : Decidable (n.mergesNothing f) :=
  inferInstanceAs (Decidable (∀ imported ∈ ((n.fetched f).syncPath f).imported?,
    f.env.keepsMain ∨ mergeFree f.env f.store (n.replayBase f) (n.replays f imported)))

theorem Node.syncOnce_of_keepsMain {n : Node} {f : Fetch}
    (hstore : n.repo.store.dag ≤ f.store.dag) {imported : List Commit}
    (hpath : (n.fetched f).syncPath f = .replay imported) (hkeeps : f.env.keepsMain) :
    n.repo.store.dag ≤ (n.syncOnce f).repo.store.dag ∧
      (n.syncOnce f).repo.main = n.repo.main := by
  obtain ⟨-, hmain, -, -⟩ := Node.fetched_of_syncPath hstore (by simp [hpath])
  refine ⟨Node.syncOnce_grown hstore, ?_⟩
  rw [Node.repo_syncOnce_of_replay hpath, main_of_keepsMain hkeeps]
  exact hmain

namespace Node.Rooted

variable {G : Hash → CommitMetadata → Prop} {n : Node} {f : Fetch}

theorem mono {G' : Hash → CommitMetadata → Prop} (hG : ∀ x m, G x m → G' x m)
    (h : n.Rooted G) : n.Rooted G' := ⟨h.main.mono hG, h.idx.mono hG⟩

theorem grow (h : n.Rooted G) {repo : Repo} (hgrown : n.repo.store.dag ≤ repo.store.dag)
    (hmain : repo.main = n.repo.main) : Node.Rooted G { n with repo := repo } :=
  ⟨hmain ▸ h.main.grow hgrown, h.idx.grow hgrown⟩

theorem remote {repo : Repo} (hserved : Served n repo f) (hrepo : repo.store.Rooted G repo.main)
    (hhead : f.remoteHead ∈ f.store.dag.keys) : f.store.Rooted G f.remoteHead := by
  have hagree := hserved.branch
  rw [← hserved.head] at hrepo hagree
  exact hrepo.fetch hhead hagree

theorem replayBase (h : n.Rooted G) {repo : Repo} (hserved : Served n repo f)
    (hbase : n.replayBase f ∈ f.store.dag.keys) : f.store.Rooted G (n.replayBase f) := by
  have hshared : f.mergeBase ∈ f.store.dag.keys → f.store.Rooted G f.mergeBase := by
    intro hmem
    have hne : f.mergeBase ≠ "" := fun he => f.store.named (he ▸ hmem)
    exact (h.main.grow hserved.adds).ancestor (hserved.shared hne).1
  unfold Node.replayBase effectiveBase at hbase ⊢
  split
  · next fb hfb =>
    simp only [hfb] at hbase
    split_ifs at hbase ⊢
    · exact (h.idx.base fb hfb).grow hserved.adds
    · exact hshared hbase
  · next hnone =>
    simp only [hnone] at hbase
    exact hshared hbase

theorem replays (h : n.Rooted G) {repo : Repo} (hserved : Served n repo f)
    (hrepo : repo.store.Rooted G repo.main) {imported : List Commit}
    (hpath : (n.fetched f).syncPath f = .replay imported) {c : CommitWithMeta}
    (hc : c ∈ n.replays f imported) : f.store.Rooted G c.commit.hash := by
  rcases Node.mem_branch_of_replays hserved.adds hpath hc with hmain | hhead
  · exact (h.main.grow hserved.adds).ancestor hmain
  · exact (remote hserved hrepo (Lib.Dag.mem_keys_of_ancestors hhead)).ancestor hhead

theorem syncOnce_main (h : n.Rooted G) {repo : Repo} (hserved : Served n repo f)
    (hrepo : repo.store.Rooted G repo.main) (hfree : n.mergesNothing f) :
    (n.syncOnce f).repo.store.Rooted G (n.syncOnce f).repo.main := by
  have hmove := Node.syncOnce_move hserved.adds
  by_cases hkeeps : ∃ imported, (n.fetched f).syncPath f = .replay imported ∧ f.env.keepsMain
  · obtain ⟨imported, hpath, hkeeps⟩ := hkeeps
    obtain ⟨hgrown, hmain⟩ := syncOnce_of_keepsMain hserved.adds hpath hkeeps
    rw [hmain]
    exact h.main.grow hgrown
  generalize (n.syncOnce f).repo = made, n.reported f = reported at hmove ⊢
  cases hmove with
  | stay hgrown hmain =>
    rw [hmain]
    exact h.main.grow hgrown
  | bootstrap hpath hstore hmain =>
    obtain ⟨-, hhead⟩ := Node.head_of_syncPath (by rw [hpath]; exact SyncPath.noConfusion)
    rw [hstore, hmain]
    exact remote hserved hrepo hhead
  | fastForward hstore hmain hup =>
    rw [hstore, hmain]
    exact remote hserved hrepo (Lib.Dag.mem_keys_of_ancestors hup)
  | replay imported st hpath hne hbase hrun hstore hmain =>
    have hfree' := (hfree imported (SyncPath.imported?_eq_some_iff.mpr hpath)).resolve_left
      fun hk => hkeeps ⟨imported, hpath, hk⟩
    obtain ⟨hsame, hhead⟩ := mergeFree_run _ rfl hfree' hrun
    rw [hstore, hmain, hsame]
    rcases hhead with hhead | ⟨c, hc, hhead⟩
    · rw [hhead]
      exact h.replayBase hserved hbase
    · rw [hhead]
      exact h.replays hserved hrepo hpath hc

theorem syncOnce (h : n.Rooted G) {repo : Repo} (hserved : Served n repo f)
    (hrepo : repo.store.Rooted G repo.main) (hfree : n.mergesNothing f) :
    (n.syncOnce f).Rooted G := by
  have hmain := h.syncOnce_main hserved hrepo hfree
  have hgrown := Node.syncOnce_grown hserved.adds
  refine ⟨hmain, ?_⟩
  obtain ⟨dropped, heq | ⟨readFails, heq⟩⟩ := n.syncOnce_idx f
  · rw [heq]
    exact (h.idx.recordRejections dropped).grow hgrown
  · rw [heq]
    refine MemoryCommitIndex.Rooted.rebuild hmain (fun fb hfb => ?_) readFails
    rw [finalizedBase_recordRejections] at hfb
    exact (h.idx.base fb hfb).grow hgrown

theorem commit (h : n.Rooted G) {w : Write} (hname : w.hash ≠ "")
    (hkey : w.hash ∉ n.repo.store.dag.keys)
    (hnew : w.fails = false →
      G w.hash (n.createCommitMetadata w (n.hlc.now w.physicalTime).1)) :
    (n.commit w).1.Rooted G := by
  unfold Node.commit
  split
  · exact ⟨h.main, h.idx⟩
  next hfails =>
  have hwrote := hnew (by simpa using hfails)
  have hspec := n.repo.commitOn_spec (n.committed w (n.hlc.now w.physicalTime).1) hname hkey rfl
  refine ⟨⟨(n.repo.commitOn _).main_mem, ?_⟩, h.idx.grow hspec.1⟩
  dsimp only
  generalize n.repo.commitOn (n.committed w (n.hlc.now w.physicalTime).1) = made at hspec ⊢
  obtain ⟨hgrown, hlook, hmem⟩ := hspec
  intro x hx m hm
  rcases (hmem x).mp hx with rfl | hx
  · rw [Store.metadata?, Store.commit?, hlook] at hm
    obtain rfl := Option.some.inj hm
    exact hwrote
  · rw [Store.metadata?_eq_of_le hgrown (Lib.Dag.mem_keys_of_mem_ancestors hx)] at hm
    exact h.main.known x hx m hm

theorem onCommitAd (h : n.Rooted G) (ad : CommitAdV1) (now physicalTime : Int64) :
    (n.onCommitAd ad now physicalTime).Rooted G := by
  rcases n.onCommitAd_cases ad now physicalTime with heq | heq | ⟨-, -, -, -, heq⟩
  · rw [heq]
    exact h
  · rw [heq]
    exact ⟨h.main, h.idx.upsert fun ha => by cases ha⟩
  · rw [heq]
    exact ⟨h.main, h.idx.upsert fun ha => by cases ha⟩

theorem onHeartbeat (h : n.Rooted G) (hb : HeartbeatV1) (physicalTime : Int64) :
    (n.onHeartbeat hb physicalTime).Rooted G := by
  unfold Node.onHeartbeat
  split_ifs
  · exact h
  · exact h
  · exact ⟨h.main, h.idx⟩

theorem publishLocalCommitAd (h : n.Rooted G) (commitHash : Hash) (log : RangeOrder Commit)
    (readFails : Bool) : (n.publishLocalCommitAd commitHash log readFails).Rooted G := by
  unfold Node.publishLocalCommitAd
  split
  · exact h
  next head metadata hlast =>
  split_ifs
  · exact h
  · exact h
  · exact ⟨h.main, h.idx.upsert fun _ => h.main.ancestor (getLastUserCommit_spec hlast).1⟩

theorem started {cfg : NodeConfig} {repo : Repo} {hlc : HLC}
    {own : hlc.peerID = cfg.signer.getID} {readFails : Bool}
    (hmain : repo.store.Rooted G repo.main) :
    (Node.started cfg repo hlc own readFails).Rooted G :=
  ⟨hmain, MemoryCommitIndex.Rooted.rebuild hmain (fun fb hfb => by cases hfb) readFails⟩

end Node.Rooted

end DoltSwarm.Core
