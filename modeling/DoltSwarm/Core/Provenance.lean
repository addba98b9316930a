import DoltSwarm.Core.Admission
import DoltSwarm.Core.KnownHistory
import DoltSwarm.Core.SyncLoss

/-!
# Where user commits come from (core/reconciler_core.go, core/node.go, core/db.go)

Nothing in the metadata of a commit that a replay has made tells it from a user commit, so once
such a commit is on some `main` it is taken for the work of the peer whose timestamp it bears.
Until then all that is selected was written by that peer. Any number of nodes take part, and a
fetch may be answered from a state that its provider has left since.
-/

namespace DoltSwarm.Core

set_option autoImplicit false

/-- The log lists the head of the branch first. -/
def RangeOrder.headFirst (head : Hash) : RangeOrder Commit :=
  ⟨fun l => (l.filter fun c => c.hash = head) ++ l.filter fun c => !decide (c.hash = head),
    fun l => List.filter_append_perm _ l⟩

theorem getLastUserCommit_head (repo : Repo) {m : CommitMetadata}
    (hm : repo.store.metadata? repo.main = some m) :
    ∃ c, getLastUserCommit repo (RangeOrder.headFirst repo.main) false = some (c, m) ∧
      c.hash = repo.main := by
  obtain ⟨cs, hcs, hstored, hmem⟩ := getCommitsSince_all repo.store repo.main_mem
  obtain ⟨c, hc, hhash⟩ := List.mem_map.mp
    ((hmem _).mpr (Lib.Dag.self_mem_ancestors repo.main_mem))
  have hfirst : c ∈ cs.filter fun c => c.hash = repo.main := by
    simp [hc, hhash]
  obtain ⟨d, rest, hlist⟩ := List.exists_cons_of_ne_nil (List.ne_nil_of_mem hfirst)
  obtain ⟨hd, hdhash⟩ : d ∈ cs ∧ d.hash = repo.main := by
    have hmem : d ∈ cs.filter fun c => c.hash = repo.main := hlist ▸ List.mem_cons_self
    simpa using hmem
  have hparse : parseCommitMetadata d.message = some m := by
    rw [← hdhash, Store.metadata?, hstored d hd] at hm
    exact hm
  refine ⟨d, ?_, hdhash⟩
  simp [getLastUserCommit, getAllCommits, hcs, RangeOrder.headFirst, hlist, hparse]

def Node.derives (n : Node) (f : Fetch) : List Hash :=
  (n.syncOnce f).repo.store.dag.keys.filter fun x => x ∉ f.store.dag.keys

/-- The nodes, the databases they have had, the present ones included, the commits written since
the start and those made by replays. -/
structure Net (ι : Type) where
  node : ι → Node
  past : ι → List Repo
  written : List (ι × Hash × CommitMetadata)
  derived : List Hash

namespace Net

variable {ι : Type}

def start (node : ι → Node) : Net ι := ⟨node, fun i => [(node i).repo], [], []⟩

section Steps

variable [DecidableEq ι]

def become (p : Net ι) (i : ι) (n : Node) (written : List (ι × Hash × CommitMetadata))
    (derived : List Hash) : Net ι :=
  ⟨Function.update p.node i n, Function.update p.past i (n.repo :: p.past i), written, derived⟩

def writes (p : Net ι) (a : ι × Event) : List (ι × Hash × CommitMetadata) :=
  match a.2 with
  | .commit w =>
    if w.fails then []
    else [(a.1, w.hash, (p.node a.1).createCommitMetadata w
      ((p.node a.1).hlc.now w.physicalTime).1)]
  | _ => []

def derives (p : Net ι) (a : ι × Event) : List Hash :=
  match a.2 with
  | .syncOnce f => (p.node a.1).derives f
  | _ => []

def next (p : Net ι) (a : ι × Event) : Net ι :=
  p.become a.1 ((p.node a.1).handle a.2) (p.writes a ++ p.written) (p.derives a ++ p.derived)

/-- The hash of a commit is that of no other, except that two replays may make the same one, and
what is fetched is on the branch of some node. -/
def possible (p : Net ι) (a : ι × Event) : Prop :=
  match a.2 with
  | .commit w => w.hash ≠ "" ∧ ∀ i, w.hash ∉ (p.node i).repo.store.dag.keys
  | .syncOnce f => (∃ i, ∃ repo ∈ p.past i, Served (p.node a.1) repo f) ∧
    ∀ x ∈ (p.node a.1).derives f, x ∈ p.derived ∨ ∀ i, x ∉ (p.node i).repo.store.dag.keys
  | _ => True

def Step (p : Net ι) (a : ι × Event) (p' : Net ι) : Prop := p.possible a ∧ p' = p.next a

end Steps

def mergesNothing (p : Net ι) (a : ι × Event) : Prop :=
  match a.2 with
  | .syncOnce f => (p.node a.1).mergesNothing f
  | _ => True

/-- The commit was on `main` at the start, or a node has written it. -/
def wrote (start : ι → Node) (p : Net ι) (x : Hash) (m : CommitMetadata) : Prop :=
  (∃ i, x ∈ (start i).repo.store.dag.ancestors (start i).repo.main ∧
    (start i).repo.store.metadata? x = some m) ∨ ∃ i, (i, x, m) ∈ p.written

/-- No replay has made the commit. It bears the timestamp since the start, or it was written
under it by the node of that name. -/
def genuine (start : ι → Node) (p : Net ι) (x : Hash) (hlc : HLCTimestamp) : Prop :=
  x ∉ p.derived ∧
    ((∃ i, x ∈ (start i).repo.store.dag.ancestors (start i).repo.main ∧
      ∃ m ∈ (start i).repo.store.metadata? x, m.hlc = hlc) ∨
    ∃ i m, (i, x, m) ∈ p.written ∧ m.hlc = hlc ∧ (p.node i).cfg.signer.getID = hlc.peerID)

structure SelectsGenuine (start : ι → Node) (p : Net ι) : Prop where
  last : ∀ i log readFails c m, getLastUserCommit (p.node i).repo log readFails = some (c, m) →
    p.genuine start c.hash m.hlc
  indexed : ∀ i readFails idx hlc e,
    (initIndexFromDB (p.node i).repo readFails idx).get hlc = some e → e.status = .applied →
      p.genuine start e.commitHash hlc
  collected : ∀ i f, (∃ j, ∃ repo ∈ p.past j, Served (p.node i) repo f) → ∀ imported,
    ((p.node i).fetched f).syncPath f = .replay imported → ∀ order,
      ∀ c ∈ collectUserCommits order
          (localCommits ((p.node i).fetched f).repo ((p.node i).replayBase f)) imported
          (p.node i).idx.finalizedBase,
        p.genuine start c.commit.hash c.hlc

/-- What is on the branches of the nodes was written, and nothing that was written was made by
a replay. -/
structure Inv (start : ι → Node) (p : Net ι) : Prop where
  nodes : ∀ i, (p.node i).Rooted (p.wrote start)
  past : ∀ i, ∀ repo ∈ p.past i, repo.store.Rooted (p.wrote start) repo.main
  held : ∀ x m, p.wrote start x m → ∃ i, x ∈ (p.node i).repo.store.dag.keys
  derived : ∀ x ∈ p.derived, ∃ i, x ∈ (p.node i).repo.store.dag.keys
  apart : ∀ x m, p.wrote start x m → x ∉ p.derived
  named : ∀ i x m, (i, x, m) ∈ p.written → m.hlc.peerID = (p.node i).cfg.signer.getID

theorem inv_start {node : ι → Node} (hstart : ∀ i, ∃ cfg repo hlc own readFails,
    node i = Node.started cfg repo hlc own readFails) : (start node).Inv node := by
  have hmain : ∀ i, (node i).repo.store.Rooted ((start node).wrote node) (node i).repo.main :=
    fun i => ⟨(node i).repo.main_mem, fun x hx m hm => Or.inl ⟨i, hx, hm⟩⟩
  refine ⟨fun i => ?_, fun i repo hrepo => ?_, ?_, fun x hx => ?_, fun x m _ hx => ?_,
    fun i x m hx => ?_⟩
  · obtain ⟨cfg, repo, hlc, own, readFails, heq⟩ := hstart i
    have h := hmain i
    change (node i).Rooted _
    rw [heq] at h ⊢
    exact .started h
  · obtain rfl := List.mem_singleton.mp hrepo
    exact hmain i
  · rintro x m (⟨i, hx, -⟩ | ⟨i, hx⟩)
    · exact ⟨i, Lib.Dag.mem_keys_of_mem_ancestors hx⟩
    · cases hx
  · cases hx
  · cases hx
  · cases hx

theorem Inv.genuine {initial : ι → Node} {p : Net ι} (h : p.Inv initial) {x : Hash}
    {m : CommitMetadata} (hx : p.wrote initial x m) : p.genuine initial x m.hlc := by
  refine ⟨h.apart x m hx, ?_⟩
  rcases hx with ⟨i, hx, hm⟩ | ⟨i, hx⟩
  · exact Or.inl ⟨i, hx, m, hm, rfl⟩
  · exact Or.inr ⟨i, m, hx, rfl, (h.named i x m hx).symm⟩

theorem Inv.selectsGenuine {initial : ι → Node} {p : Net ι} (h : p.Inv initial) :
    p.SelectsGenuine initial where
  last i log readFails c m hlast := by
    obtain ⟨hon, hm⟩ := getLastUserCommit_spec hlast
    exact h.genuine ((h.nodes i).main.known _ hon m hm)
  indexed i readFails idx hlc e he happlied := by
    cases readFails with
    | true => simp [initIndexFromDB, getAllCommits] at he
    | false =>
      rcases get_initIndexFromDB he with ⟨-, x, hx, m, hm, rfl, rfl⟩ | ⟨hpres, -⟩
      · exact h.genuine ((h.nodes i).main.known _ hx m hm)
      · exact absurd happlied (mem_preservedEntries.mp hpres).2.2.1
  collected i f hserved imported hpath order c hc := by
    obtain ⟨j, repo, hpast, hserved⟩ := hserved
    have hc : c ∈ (p.node i).replays f imported := Node.mem_replays hserved.adds hpath hc
    have hrooted := (h.nodes i).replays hserved (h.past j repo hpast) hpath hc
    obtain ⟨m, -, hhlc, hm⟩ := (Node.listed_replays hserved.adds hpath).metadata hc
    rw [← hhlc]
    exact h.genuine (hrooted.known _ (Lib.Dag.self_mem_ancestors hrooted.mem) m hm)

section Steps

variable [DecidableEq ι] {initial : ι → Node} {p : Net ι} {i : ι} {n : Node}
  {written : List (ι × Hash × CommitMetadata)} {derived : List Hash}

@[simp] theorem node_become_self : (p.become i n written derived).node i = n := by
  simp [become]

theorem node_become_of_ne {j : ι} (hj : j ≠ i) :
    (p.become i n written derived).node j = p.node j := by
  simp [become, hj]

theorem past_become {j : ι} {repo : Repo} (h : repo ∈ (p.become i n written derived).past j) :
    repo = n.repo ∨ repo ∈ p.past j := by
  by_cases hj : j = i
  · subst hj
    simpa [become] using h
  · exact Or.inr (by simpa [become, hj] using h)

theorem wrote_become (hsub : p.written ⊆ written) {x : Hash} {m : CommitMetadata}
    (h : p.wrote initial x m) : (p.become i n written derived).wrote initial x m := by
  rcases h with h | ⟨j, h⟩
  · exact Or.inl h
  · exact Or.inr ⟨j, hsub h⟩

theorem held_become (hgrown : (p.node i).repo.store.dag ≤ n.repo.store.dag) {x : Hash}
    (h : ∃ j, x ∈ (p.node j).repo.store.dag.keys) :
    ∃ j, x ∈ ((p.become i n written derived).node j).repo.store.dag.keys := by
  obtain ⟨j, hx⟩ := h
  refine ⟨j, ?_⟩
  by_cases hj : j = i
  · subst hj
    rw [node_become_self]
    exact Lib.Dag.keys_subset hgrown hx
  · rwa [node_become_of_ne hj]

theorem Inv.become (h : p.Inv initial) (hsub : p.written ⊆ written)
    (hn : n.Rooted ((p.become i n written derived).wrote initial))
    (hgrown : (p.node i).repo.store.dag ≤ n.repo.store.dag) (hcfg : n.cfg = (p.node i).cfg)
    (hwritten : ∀ y ∈ written, y ∈ p.written ∨ y.1 = i ∧ y.2.1 ∈ n.repo.store.dag.keys ∧
      y.2.2.hlc.peerID = n.cfg.signer.getID)
    (hderived : ∀ x ∈ derived, x ∈ p.derived ∨ x ∈ n.repo.store.dag.keys)
    (hapart : ∀ x m, (p.become i n written derived).wrote initial x m → x ∉ derived) :
    (p.become i n written derived).Inv initial where
  nodes j := by
    by_cases hj : j = i
    · subst hj
      rw [node_become_self]
      exact hn
    · rw [node_become_of_ne hj]
      exact (h.nodes j).mono fun x m => wrote_become hsub
  past j repo hrepo := by
    rcases past_become hrepo with rfl | hold
    · exact hn.main
    · exact (h.past j repo hold).mono fun x m => wrote_become hsub
  held x m hx := by
    rcases hx with hx | ⟨j, hx⟩
    · exact held_become hgrown (h.held x m (Or.inl hx))
    · rcases hwritten _ hx with hold | ⟨-, hkey, -⟩
      · exact held_become hgrown (h.held x m (Or.inr ⟨j, hold⟩))
      · exact ⟨i, by rwa [node_become_self]⟩
  derived x hx := by
    rcases hderived x hx with hold | hnew
    · exact held_become hgrown (h.derived x hold)
    · exact ⟨i, by rwa [node_become_self]⟩
  apart := hapart
  named j x m hx := by
    by_cases hj : j = i
    · subst hj
      rw [node_become_self]
      rcases hwritten _ hx with hold | ⟨-, -, hname⟩
      · rw [hcfg]
        exact h.named j x m hold
      · exact hname
    · rw [node_become_of_ne hj]
      exact h.named j x m ((hwritten _ hx).resolve_right fun hnew => hj hnew.1)

theorem Inv.quiet (h : p.Inv initial) (hn : n.Rooted (p.wrote initial))
    (hrepo : n.repo = (p.node i).repo) (hcfg : n.cfg = (p.node i).cfg) :
    (p.become i n p.written p.derived).Inv initial :=
  h.become (List.Subset.refl _) hn (hrepo ▸ Lib.Dag.le_rfl) hcfg (fun _ => Or.inl)
    (fun _ => Or.inl) h.apart

theorem Inv.commit (h : p.Inv initial) {w : Write} (hposs : p.possible (i, .commit w)) :
    (p.next (i, .commit w)).Inv initial := by
  obtain ⟨hname, hkey⟩ := hposs
  have hcfg := Swarm.cfg_next ⟨p.node i, [], []⟩ (.commit w)
  have hsub : p.written ⊆ p.writes (i, .commit w) ++ p.written := List.subset_append_right _ _
  have hwrites : ∀ y ∈ p.writes (i, .commit w), w.fails = false ∧ y = (i, w.hash,
      (p.node i).createCommitMetadata w ((p.node i).hlc.now w.physicalTime).1) := by
    intro y hy
    simp only [writes] at hy
    split_ifs at hy with hfails
    · cases hy
    · exact ⟨by simpa using hfails, List.mem_singleton.mp hy⟩
  refine h.become hsub (Node.Rooted.commit ((h.nodes i).mono fun x m => wrote_become hsub) hname
    (hkey i) fun hfails => ?_) (Node.commit_grown hname (hkey i)) hcfg (fun y hy => ?_)
    (fun _ => Or.inl) (fun x m hx hmade => ?_)
  · refine Or.inr ⟨i, List.mem_append_left _ ?_⟩
    simp [writes, hfails]
  · rcases List.mem_append.mp hy with hnew | hold
    · obtain ⟨hfails, rfl⟩ := hwrites y hnew
      refine Or.inr ⟨rfl, Node.mem_keys_commit hname (hkey i) hfails, ?_⟩
      exact (p.node i).own.trans (congrArg (fun cfg => cfg.signer.getID) hcfg.symm)
    · exact Or.inl hold
  · rcases hx with hx | ⟨j, hx⟩
    · exact h.apart x m (Or.inl hx) hmade
    · rcases List.mem_append.mp hx with hnew | hold
      · obtain ⟨-, heq⟩ := hwrites _ hnew
        obtain ⟨k, hk⟩ := h.derived x hmade
        obtain ⟨-, rfl, -⟩ := Prod.mk.injEq .. ▸ heq
        exact hkey k hk
      · exact h.apart x m (Or.inr ⟨j, hold⟩) hmade

theorem Inv.syncOnce (h : p.Inv initial) {f : Fetch} (hposs : p.possible (i, .syncOnce f))
    (hfree : (p.node i).mergesNothing f) : (p.next (i, .syncOnce f)).Inv initial := by
  obtain ⟨⟨j, repo, hpast, hserved⟩, hfresh⟩ := hposs
  have hn := (h.nodes i).syncOnce hserved (h.past j repo hpast) hfree
  refine h.become (List.Subset.refl _) hn (Node.syncOnce_grown hserved.adds)
    ((p.node i).cfg_syncOnce f) (fun _ => Or.inl) (fun x hx => ?_) (fun x m hx hmade => ?_)
  · rcases List.mem_append.mp hx with hnew | hold
    · exact Or.inr (List.mem_of_mem_filter hnew)
    · exact Or.inl hold
  · have hold : x ∈ p.derived := by
      rcases List.mem_append.mp hmade with hnew | hold
      · rcases hfresh x hnew with hold | hnone
        · exact hold
        · obtain ⟨k, hk⟩ := h.held x m hx
          exact absurd hk (hnone k)
      · exact hold
    exact h.apart x m hx hold

theorem inv_next (h : p.Inv initial) {a : ι × Event} (hposs : p.possible a)
    (hfree : p.mergesNothing a) : (p.next a).Inv initial := by
  obtain ⟨i, a⟩ := a
  cases a with
  | peerCommit hlc => exact h.quiet (h.nodes i) rfl rfl
  | peerHeartbeat hlc => exact h.quiet (h.nodes i) rfl rfl
  | onCommitAd ad now physicalTime =>
    exact h.quiet ((h.nodes i).onCommitAd ad now physicalTime)
      ((p.node i).repo_onCommitAd ad now physicalTime) ((p.node i).cfg_onCommitAd _ _ _)
  | onHeartbeat hb physicalTime =>
    exact h.quiet ((h.nodes i).onHeartbeat hb physicalTime)
      ((p.node i).repo_onHeartbeat hb physicalTime)
      (Swarm.cfg_next ⟨p.node i, [], []⟩ (.onHeartbeat hb physicalTime))
  | publishHeartbeat physicalTime => exact h.quiet ⟨(h.nodes i).main, (h.nodes i).idx⟩ rfl rfl
  | tryFinalize =>
    exact h.quiet ⟨(h.nodes i).main, (h.nodes i).idx.tryFinalize _⟩ rfl rfl
  | commit w => exact h.commit hposs
  | publishLocalCommitAd commitHash log readFails =>
    exact h.quiet ((h.nodes i).publishLocalCommitAd commitHash log readFails)
      ((p.node i).repo_publishLocalCommitAd commitHash log readFails)
      (Swarm.cfg_next ⟨p.node i, [], []⟩ (.publishLocalCommitAd commitHash log readFails))
  | syncOnce f => exact h.syncOnce hposs hfree

/-- In a run whose replays merge nothing where they move `main`, only genuine commits are
selected as user commits. -/
theorem selected_commits_are_genuine (hstart : ∀ i, ∃ cfg repo hlc own readFails,
    initial i = Node.started cfg repo hlc own readFails) {tr : List (Net ι × (ι × Event))}
    (hrun : Lib.Run Net.Step (start initial) tr p) (hfree : ∀ x ∈ tr, x.1.mergesNothing x.2) :
    p.SelectsGenuine initial := by
  have hinv : p.Inv initial := by
    refine hrun.induct (I := fun _ p => p.Inv initial) (G := fun p a => p.mergesNothing a)
      (inv_start hstart) ?_ hfree
    rintro tr p a _ - hinv hfree ⟨hposs, rfl⟩
    exact inv_next hinv hposs hfree
  exact hinv.selectsGenuine

/-- A pass whose replay merges something and goes through leaves a commit that it has made as the
last user commit. -/
theorem merge_becomes_last_user_commit {f : Fetch}
    (hstore : (p.node i).repo.store.dag ≤ f.store.dag) (henv : (p.node i).replaysSoundly f)
    {imported : List Commit} (hpath : ((p.node i).fetched f).syncPath f = .replay imported)
    {k : ℕ} (hok : (replayImportedCommits f.env ((p.node i).fetched f).repo f.mergeBase imported
      (p.node i).idx.finalizedBase).result = .ok k)
    (hmerge : ¬ mergeFree f.env f.store ((p.node i).replayBase f)
      ((p.node i).replays f imported)) :
    (∃ c m, getLastUserCommit ((p.next (i, .syncOnce f)).node i).repo
        (RangeOrder.headFirst ((p.next (i, .syncOnce f)).node i).repo.main) false = some (c, m) ∧
      c.hash ∈ (p.next (i, .syncOnce f)).derived) ∧
    ¬ (p.next (i, .syncOnce f)).SelectsGenuine initial := by
  have hlisted := Node.listed_replays hstore hpath
  rcases Node.replayed_ok hstore hpath rfl hok with ⟨hnil, -⟩ |
    ⟨-, hbase, st, hrun, hall, hmain, -⟩
  · rw [hnil] at hmerge
    exact absurd trivial hmerge
  obtain ⟨hdetached, m, hm⟩ := user_head_of_merge (henv.sound hstore hpath) hlisted.mem_keys rfl
    hbase hmerge hrun
  rw [← Node.repo_syncOnce_of_replay hpath] at hall hmain
  have hnode : (p.next (i, .syncOnce f)).node i = (p.node i).syncOnce f := node_become_self
  have hmade : ((p.node i).syncOnce f).repo.main ∈ (p.node i).derives f := by
    rw [Node.derives, List.mem_filter, hall, hmain]
    exact ⟨hdetached.head_mem, by simpa using hdetached.off⟩
  rw [← hall, ← hmain] at hm
  obtain ⟨c, hlast, hhash⟩ := getLastUserCommit_head _ hm
  have hderived : c.hash ∈ (p.next (i, .syncOnce f)).derived :=
    List.mem_append_left _ (hhash ▸ hmade)
  rw [← hnode] at hlast
  refine ⟨⟨c, m, hlast, hderived⟩, fun hselects => ?_⟩
  exact (hselects.last i _ false c m hlast).1 hderived

end Steps

end Net

section Samples

def pairNet (events : List (Bool × Event)) : Net Bool :=
  events.foldl Net.next (Net.start (pairStarts emptyRepo))

theorem started_pairStarts (i : Bool) : ∃ cfg repo hlc own readFails,
    pairStarts emptyRepo i = Node.started cfg repo hlc own readFails := by
  cases i with
  | true => exact ⟨_, _, _, _, _, rfl⟩
  | false => exact ⟨_, _, _, _, _, rfl⟩

theorem run_pairNet (events : List (Bool × Event))
    (h : ∀ x ∈ Lib.trail Net.next (Net.start (pairStarts emptyRepo)) events, x.1.possible x.2) :
    Lib.Run Net.Step (Net.start (pairStarts emptyRepo))
      (Lib.trail Net.next (Net.start (pairStarts emptyRepo)) events) (pairNet events) :=
  Lib.run_trail Net.next (fun _ _ hp => ⟨hp, rfl⟩) events h

/-- Where the commit of `alice` conflicts, the pass leaves that of `bob` on `main`. -/
theorem selected_commits_are_genuine_on_fork :
    getLastUserCommit ((pairNet (bothWrite bobIsFetched)).node true).repo (RangeOrder.asStored _)
        false = some (bobCommit.commit, written "bob" 3) ∧
      (pairNet (bothWrite bobIsFetched)).genuine (pairStarts emptyRepo) "commit-b"
        ⟨3, 0, "bob"⟩ := by
  have hlast : getLastUserCommit ((pairNet (bothWrite bobIsFetched)).node true).repo
      (RangeOrder.asStored _) false = some (bobCommit.commit, written "bob" 3) := by
    decide +kernel
  have hrun := run_pairNet (bothWrite bobIsFetched) (by
    simp only [bothWrite, Lib.forall_mem_trail_cons]
    refine ⟨⟨by decide, by decide +kernel⟩, ⟨by decide, by decide +kernel⟩,
      ⟨⟨false, _, List.mem_cons_self, ?_⟩, by decide +kernel⟩, by simp [Lib.trail]⟩
    exact ⟨by decide +kernel, by decide +kernel, by decide +kernel, by decide +kernel⟩)
  have hfree : ∀ x ∈ Lib.trail Net.next (Net.start (pairStarts emptyRepo))
      (bothWrite bobIsFetched), x.1.mergesNothing x.2 := by
    simp only [bothWrite, Lib.forall_mem_trail_cons]
    refine ⟨trivial, trivial, ?_, by simp [Lib.trail]⟩
    have hpass : (haveWritten emptyRepo true).mergesNothing bobIsFetched := by decide +kernel
    exact hpass
  exact ⟨hlast, (Net.selected_commits_are_genuine started_pairStarts hrun hfree).last _ _ _ _ _
    hlast⟩

def mergingEnv : Env :=
  { refuseAllBut none with
    merge := fun _ commit => if commit = "commit-a" then .merged "root" else .refused "conflict"
    newHash := fun s _ _ => if "commit-0" ∈ s.dag.keys then "commit-1" else "commit-0" }

def haveBothWritten : Net Bool := pairNet [(true, .commit aliceWrites), (false, .commit bobWrites)]

def bobIsMerged : Fetch := { bobIsFetched with env := mergingEnv }

theorem merge_becomes_last_user_commit_of_alice :
    (∃ c m, getLastUserCommit ((pairNet (bothWrite bobIsMerged)).node true).repo
        (RangeOrder.headFirst ((pairNet (bothWrite bobIsMerged)).node true).repo.main) false =
          some (c, m) ∧
      c.hash ∈ (pairNet (bothWrite bobIsMerged)).derived) ∧
    ¬ (pairNet (bothWrite bobIsMerged)).SelectsGenuine (pairStarts emptyRepo) := by
  have hpath : ((haveBothWritten.node true).fetched bobIsMerged).syncPath bobIsMerged =
      .replay [bobCommit.commit] := SyncPath.imported?_eq_some_iff.mp (by decide +kernel)
  have hsound : (haveBothWritten.node true).replaysSoundly bobIsMerged := by
    intro imported himported
    obtain rfl := SyncPath.replay.inj (hpath.symm.trans himported)
    unfold Env.SoundFor
    decide +kernel
  have hnext : pairNet (bothWrite bobIsMerged) =
      haveBothWritten.next (true, .syncOnce bobIsMerged) := rfl
  have hok : (replayImportedCommits bobIsMerged.env
      ((haveBothWritten.node true).fetched bobIsMerged).repo bobIsMerged.mergeBase
      [bobCommit.commit] (haveBothWritten.node true).idx.finalizedBase).result = .ok 1 := by
    decide +kernel
  have hmerge : ¬ mergeFree bobIsMerged.env bobIsMerged.store
      ((haveBothWritten.node true).replayBase bobIsMerged)
      ((haveBothWritten.node true).replays bobIsMerged [bobCommit.commit]) := by decide +kernel
  rw [hnext]
  exact Net.merge_becomes_last_user_commit (by decide +kernel) hsound hpath hok hmerge

def bobWritesAgain : Write := ⟨"write", "root", "content", 9, "signed", 9, "commit-d", false⟩

def merging : List (Bool × Event) :=
  bothWrite bobIsMerged ++ [(false, .commit bobWritesAgain)]

def mergeIsFetched : Fetch where
  store := ⟨⟨[userNode "commit-1" ["commit-b", "commit-a"] (mergeMetadata ⟨5, 0, "alice"⟩ 0),
    userNode "commit-a" ["commit-i"] (written "alice" 5),
    userNode "commit-d" ["commit-b"] (written "bob" 9), bobCommit, plainNode "commit-i" []],
    by decide +kernel⟩, by decide +kernel⟩
  remoteHead := "commit-1"
  mergeBase := "commit-b"
  fails _ := false
  env := refuseAllBut none
  head_mem := by decide +kernel

/-- The merge that the replay of `alice` has made is the last user commit there. Where `bob`
fetches it, it is collected in place of the commit of `alice`. -/
theorem derived_merge_selected :
    Lib.Run Net.Step (Net.start (pairStarts emptyRepo))
      (Lib.trail Net.next (Net.start (pairStarts emptyRepo)) merging) (pairNet merging) ∧
    "commit-1" ∈ (pairNet merging).derived ∧
    (getLastUserCommit ((pairNet merging).node true).repo (RangeOrder.asStored _) false).map
      (fun x => x.1.hash) = some "commit-1" ∧
    (∃ repo ∈ (pairNet merging).past true, Served ((pairNet merging).node false) repo
      mergeIsFetched) ∧
    ∃ imported ∈ ((((pairNet merging).node false).fetched mergeIsFetched).syncPath
        mergeIsFetched).imported?,
      (((pairNet merging).node false).replays mergeIsFetched imported).map
        (fun c => (c.commit.hash, c.hlc)) =
          [("commit-1", ⟨5, 0, "alice"⟩), ("commit-d", ⟨9, 0, "bob"⟩)] := by
  refine ⟨run_pairNet merging ?_, by decide +kernel, by decide +kernel,
    ⟨_, List.mem_cons_self, ?_⟩, by decide +kernel⟩
  · simp only [merging, bothWrite, List.cons_append, List.nil_append, Lib.forall_mem_trail_cons]
    refine ⟨⟨by decide, by decide +kernel⟩, ⟨by decide, by decide +kernel⟩,
      ⟨⟨false, _, List.mem_cons_self, ?_⟩, by decide +kernel⟩, ⟨by decide, by decide +kernel⟩,
      by simp [Lib.trail]⟩
    exact ⟨by decide +kernel, by decide +kernel, by decide +kernel, by decide +kernel⟩
  · exact ⟨by decide +kernel, by decide +kernel, by decide +kernel, by decide +kernel⟩

end Samples

end DoltSwarm.Core
