import DoltSwarm.Core.ReplayLoss
import DoltSwarm.Core.Stability
import DoltSwarm.Core.SyncMoves

/-!
# Local commits under sync (core/node.go, core/reconciler_core.go)

Two nodes that fetch from each other. A pass that finds no shared history resets `main` to the
branch of the other node, and what was committed locally is neither on `main` any more nor
reported. Besides that, a replay loses what its amends and the finalized base leave out.
`syncSafe` rules both out.
-/

namespace DoltSwarm.Core

set_option autoImplicit false

def reachesHLC (s : Store) (head : Hash) (hlc : HLCTimestamp) : Prop :=
  ∃ x ∈ s.dag.ancestors head, ∃ m ∈ s.metadata? x, m.hlc = hlc

instance (s : Store) (head : Hash) (hlc : HLCTimestamp) : Decidable (reachesHLC s head hlc) :=
  inferInstanceAs (Decidable (∃ x ∈ s.dag.ancestors head, ∃ m ∈ s.metadata? x, m.hlc = hlc))

/-- After the pass the timestamp is on `main`, or the hooks have heard of it. -/
def Node.keepsOrReports (n : Node) (f : Fetch) (hlc : HLCTimestamp) : Prop :=
  (n.syncOnce f).repo.carriesHLC hlc ∨ ∃ dropped ∈ n.reported f, dropped.1.hlc = hlc

instance (n : Node) (f : Fetch) (hlc : HLCTimestamp) : Decidable (n.keepsOrReports f hlc) :=
  inferInstanceAs (Decidable (_ ∨ ∃ dropped ∈ n.reported f, dropped.1.hlc = hlc))

/-- A reset finds the timestamps of `main` on the branch of the remote. A replay amends no
commit away, and finds the timestamps that it skips below its base. -/
def Node.safeOn (n : Node) (f : Fetch) : SyncPath → Prop
  | .idle => True
  | .bootstrap => ∀ x ∈ n.repo.store.dag.ancestors n.repo.main,
    ∀ m ∈ n.repo.store.metadata? x, reachesHLC f.store f.remoteHead m.hlc
  | .fastForward _ => True
  | .replay imported => n.replays f imported = [] ∨
    replaySafe f.store (n.replayBase f) (n.replayBase f) (n.replays f imported) ∧
      ∀ x ∈ n.repo.store.dag.ancestors n.repo.main, ∀ m ∈ n.repo.store.metadata? x,
        belowBase n.idx.finalizedBase m.hlc = true → reachesHLC f.store (n.replayBase f) m.hlc

instance (n : Node) (f : Fetch) (path : SyncPath) : Decidable (n.safeOn f path) :=
  match path with
  | .idle => instDecidableTrue
  | .bootstrap => inferInstanceAs (Decidable (∀ x ∈ n.repo.store.dag.ancestors n.repo.main,
    ∀ m ∈ n.repo.store.metadata? x, reachesHLC f.store f.remoteHead m.hlc))
  | .fastForward _ => instDecidableTrue
  | .replay imported => inferInstanceAs (Decidable (n.replays f imported = [] ∨
    replaySafe f.store (n.replayBase f) (n.replayBase f) (n.replays f imported) ∧
      ∀ x ∈ n.repo.store.dag.ancestors n.repo.main, ∀ m ∈ n.repo.store.metadata? x,
        belowBase n.idx.finalizedBase m.hlc = true →
          reachesHLC f.store (n.replayBase f) m.hlc))

def Node.syncSafe (n : Node) (f : Fetch) : Prop := n.safeOn f ((n.fetched f).syncPath f)

instance (n : Node) (f : Fetch) : Decidable (n.syncSafe f) :=
  inferInstanceAs (Decidable (n.safeOn f _))

def Node.handle (n : Node) (a : Event) : Node := (Swarm.next ⟨n, [], []⟩ a).node

/-- A pass of `n` while its only provider is `other`, with the merge base as Dolt defines it. -/
structure Serves (n other : Node) (f : Fetch) : Prop where
  adds : n.repo.store.dag ≤ f.store.dag
  head : f.remoteHead = other.repo.main
  branch : ∀ x ∈ other.repo.store.dag.ancestors other.repo.main,
    f.store.dag.lookup x = other.repo.store.dag.lookup x
  disjoint : f.mergeBase = "" ↔ ∀ x ∈ f.store.dag.ancestors n.repo.main,
    x ∉ f.store.dag.ancestors f.remoteHead
  shared : f.mergeBase ≠ "" → f.mergeBase ∈ f.store.dag.ancestors n.repo.main ∧
    f.mergeBase ∈ f.store.dag.ancestors f.remoteHead
  sound : n.replaysSoundly f

abbrev Pair := Bool → Node

namespace Pair

def next (p : Pair) (a : Bool × Event) : Pair := Function.update p a.1 ((p a.1).handle a.2)

def possible (p : Pair) (a : Bool × Event) : Prop :=
  match a.2 with
  | .commit w => w.hash ≠ "" ∧ ∀ i, w.hash ∉ (p i).repo.store.dag.keys
  | .syncOnce f => Serves (p a.1) (p !a.1) f
  | _ => True

def Step (p : Pair) (a : Bool × Event) (p' : Pair) : Prop := p.possible a ∧ p' = p.next a

def safe (p : Pair) (a : Bool × Event) : Prop :=
  match a.2 with
  | .syncOnce f => (p a.1).syncSafe f
  | _ => True

end Pair

section Pass

variable {n : Node} {f : Fetch}

theorem Node.exists_replays (hstore : n.repo.store.dag ≤ f.store.dag) {imported : List Commit}
    (hpath : (n.fetched f).syncPath f = .replay imported) {x : Hash}
    (hx : x ∈ f.store.dag.ancestors n.repo.main)
    (hbase : x ∉ f.store.dag.ancestors (n.replayBase f)) {m : CommitMetadata}
    (hm : f.store.metadata? x = some m) (habove : belowBase n.idx.finalizedBase m.hlc = false) :
    ∃ c ∈ n.replays f imported, c.hlc = m.hlc := by
  obtain ⟨hall, hmain, -, -⟩ := Node.fetched_of_syncPath hstore (by simp [hpath])
  rw [← hall, ← hmain] at hx
  rw [← hall] at hbase hm
  obtain ⟨c, hc, rfl⟩ := mem_getCommitsSince hx hbase (getCommitsSince_localCommits _ _)
  have hstored := (getCommitsSince_on_branch (n.fetched f).repo.main_mem
    (getCommitsSince_localCommits _ _) hc).1
  rw [Store.metadata?, hstored, Option.bind_some] at hm
  exact exists_collected (List.mem_append_left _ hc) hm habove

theorem Node.syncSafe.replay (hstore : n.repo.store.dag ≤ f.store.dag)
    {imported : List Commit} (hpath : (n.fetched f).syncPath f = .replay imported)
    (henv : f.env.Sound ⟨f.store, n.replayBase f, 0, []⟩ (n.replays f imported))
    (hbase : n.replayBase f ∈ f.store.dag.keys)
    (hsafe : replaySafe f.store (n.replayBase f) (n.replayBase f) (n.replays f imported))
    {st : ReplayState}
    (hrun : replayCommits f.env ⟨f.store, n.replayBase f, 0, []⟩ (n.replays f imported) = .ok st)
    {x : Hash} (hx : x ∈ f.store.dag.ancestors n.repo.main) {m : CommitMetadata}
    (hm : f.store.metadata? x = some m)
    (hskip : belowBase n.idx.finalizedBase m.hlc = true →
      reachesHLC f.store (n.replayBase f) m.hlc) :
    reachesHLC st.store st.headHash m.hlc ∨ ∃ dropped ∈ st.rejected, dropped.1.hlc = m.hlc := by
  have hgrown : f.store.dag ≤ st.store.dag := replayCommits_ok_grown hrun
  have hlisted := Node.listed_replays hstore hpath
  have hkept : LosesNothing st.store st.headHash st.rejected (n.replayBase f)
      ([] ++ n.replays f imported) :=
    replaySafe_run henv hlisted ⟨Lib.Dag.le_rfl, hbase⟩ (Lib.Dag.self_mem_ancestors hbase)
      (by simp) hsafe hrun
  -- all that was below the base still is
  have hbelow : ∀ hlc, reachesHLC f.store (n.replayBase f) hlc →
      reachesHLC st.store st.headHash hlc := by
    rintro hlc ⟨y, hy, m', hm', hhlc⟩
    rw [← Lib.Dag.ancestors_of_le hgrown hbase] at hy
    exact ⟨y, Lib.Dag.ancestors_trans hy hkept.base_mem, m', Store.metadata?_of_le hgrown hm', hhlc⟩
  by_cases hon : x ∈ f.store.dag.ancestors (n.replayBase f)
  · exact Or.inl (hbelow _ ⟨x, hon, m, hm, rfl⟩)
  cases habove : belowBase n.idx.finalizedBase m.hlc with
  | true => exact Or.inl (hbelow _ (hskip habove))
  | false =>
    obtain ⟨c, hc, hhlc⟩ := Node.exists_replays hstore hpath hx hon hm habove
    obtain ⟨m', hm', hhlc', -⟩ := hlisted.metadata hc
    rcases hkept.kept c hc m' hm' with ⟨y, hy, m'', hm'', hcar⟩ | hrej
    · exact Or.inl ⟨y, hy, m'', hm'', hcar.1.trans (hhlc'.trans hhlc)⟩
    · exact Or.inr ⟨rejection c, hrej, hhlc⟩

theorem Node.syncSafe.keepsOrReports (h : n.syncSafe f) (hstore : n.repo.store.dag ≤ f.store.dag)
    (henv : n.replaysSoundly f) {hlc : HLCTimestamp} (hcarried : n.repo.carriesHLC hlc) :
    n.keepsOrReports f hlc := by
  have hmove := Node.syncOnce_move hstore
  unfold Node.keepsOrReports
  rw [Node.syncSafe] at h
  generalize (n.syncOnce f).repo = repo at hmove ⊢
  generalize n.reported f = reported at hmove ⊢
  cases hmove with
  | stay hgrown hmain => exact Or.inl ((Repo.carriesHLC_of_grown hgrown hmain).mpr hcarried)
  | bootstrap hpath hall hmain =>
    rw [hpath] at h
    obtain ⟨x, hx, m, hm, rfl⟩ := hcarried
    rw [Repo.carriesHLC, hall, hmain]
    exact Or.inl (h x hx m hm)
  | fastForward hall hmain hup =>
    refine Or.inl (hcarried.extend (hall ▸ hstore) fun x hx => ?_)
    rw [← Lib.Dag.ancestors_of_le hstore n.repo.main_mem] at hx
    rw [hall, hmain]
    exact Lib.Dag.ancestors_trans hx hup
  | replay imported st hpath hne hbase hrun hall hmain =>
    rw [hpath] at h
    obtain ⟨hsafe, hskip⟩ := h.resolve_left hne
    obtain ⟨x, hx, m, hm, rfl⟩ := hcarried
    rw [Repo.carriesHLC, hall, hmain]
    refine Node.syncSafe.replay hstore hpath (henv.sound hstore hpath) hbase hsafe hrun ?_
      (Store.metadata?_of_le hstore hm) (hskip x hx m hm)
    rwa [Lib.Dag.ancestors_of_le hstore n.repo.main_mem]

end Pass

/-- In a run of two nodes whose passes are all safe, each pass keeps or reports the timestamps
on `main`. -/
theorem synced_commits_are_kept {start p : Pair} {tr : List (Pair × (Bool × Event))}
    (hrun : Lib.Run Pair.Step start tr p) (hsafe : ∀ x ∈ tr, x.1.safe x.2) :
    ∀ q i f, (q, (i, Event.syncOnce f)) ∈ tr → ∀ hlc, (q i).repo.carriesHLC hlc →
      (q i).keepsOrReports f hlc := by
  intro q i f hmem hlc hcarried
  obtain ⟨-, -, ⟨hserves, -⟩, -⟩ := hrun.step_of_mem hmem
  have hserves : Serves (q i) (q !i) f := hserves
  have hpass : (q i).syncSafe f := hsafe _ hmem
  exact hpass.keepsOrReports hserves.adds hserves.sound hcarried

section Samples

def bobConfig : NodeConfig :=
  ⟨⟨"org", "repo"⟩, ⟨"bob", fun _ _ => true⟩, 5000000000, none⟩

theorem peerID_bobConfig : (HLC.newHLC "bob" 1).peerID = bobConfig.signer.getID := rfl

def pairStarts (repo : Repo) : Pair
  | true => aliceStarts.node
  | false => Node.started bobConfig repo (HLC.newHLC "bob" 1) peerID_bobConfig false

def bobWrites : Write := ⟨"write", "root", "content", 3, "signed", 3, "commit-b", false⟩

def bothWrite (f : Fetch) : List (Bool × Event) :=
  [(true, .commit aliceWrites), (false, .commit bobWrites), (true, .syncOnce f)]

def haveWritten (repo : Repo) : Pair :=
  ((pairStarts repo).next (true, .commit aliceWrites)).next (false, .commit bobWrites)

theorem run_bothWrite {repo : Repo} {f : Fetch}
    (halice : ∀ i, "commit-a" ∉ (pairStarts repo i).repo.store.dag.keys)
    (hbob : ∀ i, "commit-b" ∉
      ((pairStarts repo).next (true, .commit aliceWrites) i).repo.store.dag.keys)
    (hserves : Serves (haveWritten repo true) (haveWritten repo false) f) :
    Lib.Run Pair.Step (pairStarts repo) (Lib.trail Pair.next (pairStarts repo) (bothWrite f))
      ((bothWrite f).foldl Pair.next (pairStarts repo)) := by
  refine Lib.run_trail Pair.next (fun _ _ hp => ⟨hp, rfl⟩) _ ?_
  simp only [bothWrite, Lib.forall_mem_trail_cons]
  exact ⟨⟨by decide, halice⟩, ⟨by decide, hbob⟩, hserves, by simp [Lib.trail]⟩

def otherRepo : Repo :=
  ⟨⟨⟨[plainNode "commit-j" []], by decide⟩, by decide⟩, "commit-j", by decide⟩

def unrelatedIsFetched : Fetch where
  store := ⟨⟨[userNode "commit-b" ["commit-j"] (written "bob" 3), plainNode "commit-j" [],
    userNode "commit-a" ["commit-i"] (written "alice" 5), plainNode "commit-i" []],
    by decide +kernel⟩, by decide +kernel⟩
  remoteHead := "commit-b"
  mergeBase := ""
  fails _ := false
  env := refuseAllBut none
  head_mem := by decide +kernel

/-- The commit of `alice` is gone from `main`, and nobody hears of it. -/
theorem local_commit_dropped :
    Lib.Run Pair.Step (pairStarts otherRepo)
      (Lib.trail Pair.next (pairStarts otherRepo) (bothWrite unrelatedIsFetched))
      ((bothWrite unrelatedIsFetched).foldl Pair.next (pairStarts otherRepo)) ∧
    (haveWritten otherRepo true).repo.carriesHLC ⟨5, 0, "alice"⟩ ∧
    ¬ ((haveWritten otherRepo true).syncOnce unrelatedIsFetched).repo.carriesHLC ⟨5, 0, "alice"⟩ ∧
    (haveWritten otherRepo true).reported unrelatedIsFetched = [] := by
  refine ⟨run_bothWrite (by decide +kernel) (by decide +kernel) ?_, by decide +kernel,
    by decide +kernel, by decide +kernel⟩
  exact ⟨by decide +kernel, by decide +kernel, by decide +kernel, by decide +kernel,
    by decide +kernel, fun _ _ => refuseAllBut_sound _ _ _⟩

/-- Where both started from `commit-i`, the pass replays both commits and reports one. -/
theorem synced_commits_are_kept_on_fork :
    (haveWritten emptyRepo true).repo.carriesHLC ⟨5, 0, "alice"⟩ ∧
      (haveWritten emptyRepo true).keepsOrReports bobIsFetched ⟨5, 0, "alice"⟩ := by
  have hcarried : (haveWritten emptyRepo true).repo.carriesHLC ⟨5, 0, "alice"⟩ := by decide +kernel
  have hrun := @run_bothWrite emptyRepo bobIsFetched (by decide +kernel) (by decide +kernel)
    ⟨by decide +kernel, by decide +kernel, by decide +kernel, by decide +kernel,
      by decide +kernel, fun _ _ => refuseAllBut_sound _ _ _⟩
  have hsafe : ∀ x ∈ Lib.trail Pair.next (pairStarts emptyRepo) (bothWrite bobIsFetched),
      x.1.safe x.2 := by
    simp only [bothWrite, Lib.forall_mem_trail_cons]
    have hpass : (haveWritten emptyRepo true).syncSafe bobIsFetched := by decide +kernel
    exact ⟨trivial, trivial, hpass, by simp [Lib.trail]⟩
  exact ⟨hcarried, synced_commits_are_kept hrun hsafe _ true _ List.mem_cons_self _ hcarried⟩

end Samples

end DoltSwarm.Core
