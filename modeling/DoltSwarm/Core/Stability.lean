import DoltSwarm.Core.Node
import DoltSwarm.Lib.Runs

/-!
# Stability of the finalized base (core/node.go)

A node among its peers. Messages are never taken away once sent, so that any of them may
arrive late, twice, out of order or not at all. `tryFinalize` takes the highest applied entry
below the least timestamp heard and does not look at the pending ones, so a commit that is
still on its way can be passed by the base. `settled` is what keeps this from happening.
-/

namespace DoltSwarm.Core

set_option autoImplicit false

/-- A node, the timestamps of all user commits made anywhere, and those of the heartbeats its
peers have sent. -/
structure Swarm where
  node : Node
  issued : List HLCTimestamp
  beats : List HLCTimestamp

inductive Event
  | peerCommit (hlc : HLCTimestamp)
  | peerHeartbeat (hlc : HLCTimestamp)
  | onCommitAd (ad : CommitAdV1) (now physicalTime : Int64)
  | onHeartbeat (hb : HeartbeatV1) (physicalTime : Int64)
  | publishHeartbeat (physicalTime : Int64)
  | tryFinalize
  | commit (w : Write)
  | publishLocalCommitAd (commitHash : Hash) (log : RangeOrder Commit) (readFails : Bool)
  | syncOnce (f : Fetch)

namespace Swarm

def next (s : Swarm) : Event → Swarm
  | .peerCommit hlc => { s with issued := hlc :: s.issued }
  | .peerHeartbeat hlc => { s with beats := hlc :: s.beats }
  | .onCommitAd ad now physicalTime => { s with node := s.node.onCommitAd ad now physicalTime }
  | .onHeartbeat hb physicalTime => { s with node := s.node.onHeartbeat hb physicalTime }
  | .publishHeartbeat physicalTime => { s with node := (s.node.publishHeartbeat physicalTime).2 }
  | .tryFinalize => { s with node := s.node.tryFinalize }
  | .commit w =>
    { s with
      node := (s.node.commit w).1
      issued := if w.fails then s.issued
        else (s.node.hlc.now w.physicalTime).1 :: s.issued }
  | .publishLocalCommitAd commitHash log readFails =>
    { s with node := s.node.publishLocalCommitAd commitHash log readFails }
  | .syncOnce f => { s with node := s.node.syncOnce f }

def fresh (s : Swarm) (hlc : HLCTimestamp) : Prop :=
  ∀ h ∈ s.issued ++ s.beats, h.peerID = hlc.peerID → h.less hlc = true

instance (s : Swarm) (hlc : HLCTimestamp) : Decidable (s.fresh hlc) :=
  inferInstanceAs (Decidable (∀ h ∈ s.issued ++ s.beats, h.peerID = hlc.peerID → _))

/-- The clock of a peer does not go back, only what was sent arrives, and what is fetched was
written by someone. -/
def possible (peers : List String) (s : Swarm) : Event → Prop
  | .peerCommit hlc => hlc.peerID ∈ peers ∧ s.fresh hlc
  | .peerHeartbeat hlc => hlc.peerID ∈ peers ∧ s.fresh hlc
  | .onCommitAd ad _ _ => ad.repo = s.node.cfg.repo → ad.hlc ∈ s.issued
  | .onHeartbeat hb _ => hb.repo = s.node.cfg.repo → hb.peerID ≠ s.node.cfg.signer.getID →
    hb.hlc ∈ s.beats ∧ hb.hlc.peerID = hb.peerID
  | .commit w => w.hash ≠ "" ∧ w.hash ∉ s.node.repo.store.dag.keys
  | .syncOnce f => s.node.repo.store.dag ≤ f.store.dag ∧
    ∀ x ∈ f.store.dag.ancestors f.remoteHead, ∀ m ∈ f.store.metadata? x, m.hlc ∈ s.issued
  | .publishHeartbeat _ => True
  | .tryFinalize => True
  | .publishLocalCommitAd _ _ _ => True

instance (peers : List String) (s : Swarm) (a : Event) : Decidable (s.possible peers a) :=
  match a with
  | .peerCommit hlc => inferInstanceAs (Decidable (hlc.peerID ∈ peers ∧ s.fresh hlc))
  | .peerHeartbeat hlc => inferInstanceAs (Decidable (hlc.peerID ∈ peers ∧ s.fresh hlc))
  | .onCommitAd ad _ _ =>
    inferInstanceAs (Decidable (ad.repo = s.node.cfg.repo → ad.hlc ∈ s.issued))
  | .onHeartbeat hb _ =>
    inferInstanceAs (Decidable (hb.repo = s.node.cfg.repo →
      hb.peerID ≠ s.node.cfg.signer.getID → hb.hlc ∈ s.beats ∧ hb.hlc.peerID = hb.peerID))
  | .commit w =>
    inferInstanceAs (Decidable (w.hash ≠ "" ∧ w.hash ∉ s.node.repo.store.dag.keys))
  | .syncOnce f =>
    inferInstanceAs (Decidable (s.node.repo.store.dag ≤ f.store.dag ∧
      ∀ x ∈ f.store.dag.ancestors f.remoteHead, ∀ m ∈ f.store.metadata? x, m.hlc ∈ s.issued))
  | .publishHeartbeat _ => instDecidableTrue
  | .tryFinalize => instDecidableTrue
  | .publishLocalCommitAd _ _ _ => instDecidableTrue

/-- When the base moves, all peers have been heard and all that was written up to an entry it
may move to is on `main`; a sync finds the database readable, shares history with the remote
once there is a base, and keeps the finalized commits if it replays. -/
def settled (peers : List String) (s : Swarm) : Event → Prop
  | .tryFinalize => (∀ p ∈ peers, p ∈ s.node.peerHLC) ∧
    ∀ e ∈ s.node.idx.listAfter HLCTimestamp.zero 0, finalizable s.node.peerHLC s.node.idx e →
      ∀ h ∈ s.issued, e.hlc.less h = false → s.node.repo.carriesHLC h
  | .syncOnce f => f.fails .getAllCommits = false ∧ s.node.replaysSoundly f ∧
    (f.mergeBase = "" → s.node.idx.finalizedBase = none) ∧
    ∀ imported, (s.node.fetched f).syncPath f = .replay imported →
      ∀ fb ∈ s.node.idx.finalizedBase,
        finalizedSafe (s.node.fetched f).repo f.mergeBase imported fb
  | _ => True

def Step (peers : List String) (s : Swarm) (a : Event) (s' : Swarm) : Prop :=
  s.possible peers a ∧ s' = s.next a

def Started (s : Swarm) : Prop :=
  ∃ cfg repo hlc, ∃ own, s.node = Node.started cfg repo hlc own false

/-- What the step must not do: move the base to or past a pending entry, or skip a user commit
whose timestamp is not on `main`. -/
def stabilitySound (s : Swarm) : Event → Prop
  | .tryFinalize => ∀ fb ∈ s.node.tryFinalize.idx.finalizedBase,
    s.node.idx.finalizedBase ≠ some fb → ∀ e, s.node.idx.get e.hlc = some e →
      e.status = .pending → fb.hlc.less e.hlc = true
  | .syncOnce f => ∀ imported, (s.node.fetched f).syncPath f = .replay imported →
    ∀ c ∈ localCommits (s.node.fetched f).repo
        (effectiveBase f.mergeBase s.node.idx.finalizedBase) ++ imported,
      ∀ m, parseCommitMetadata c.message = some m →
        userCommit s.node.idx.finalizedBase c = none →
          (s.node.fetched f).repo.carriesHLC m.hlc
  | _ => True

end Swarm

section Index

variable {issued : List HLCTimestamp} {own : String} {store store' : Store}
  {idx : MemoryCommitIndex}

/-- A pending entry is of a commit made elsewhere, an applied one names a commit. -/
structure IndexSound (issued : List HLCTimestamp) (own : String) (store : Store)
    (idx : MemoryCommitIndex) : Prop where
  pending : ∀ h e, idx.get h = some e → e.status = .pending → h ∈ issued ∧ h.peerID ≠ own
  applied : ∀ h e, idx.get h = some e → e.status = .applied → e.commitHash ∈ store.dag.keys

theorem IndexSound.mono (hi : IndexSound issued own store idx) {issued' : List HLCTimestamp}
    (hissued : issued ⊆ issued') (hstore : store.dag ≤ store'.dag) :
    IndexSound issued' own store' idx where
  pending h e he hp := (hi.pending h e he hp).imp_left fun hh => hissued hh
  applied h e he ha := Lib.Dag.keys_subset hstore (hi.applied h e he ha)

theorem IndexSound.upsert (hi : IndexSound issued own store idx) {e : CommitIndexEntry}
    (hp : e.status = .pending → e.hlc ∈ issued ∧ e.hlc.peerID ≠ own)
    (ha : e.status = .applied → e.commitHash ∈ store.dag.keys) :
    IndexSound issued own store (idx.upsert e) where
  pending h e' he' := by
    rw [MemoryCommitIndex.get_upsert] at he'
    split at he'
    · next heq =>
      obtain rfl := Option.some.inj he'
      rw [heq]
      exact hp
    · exact hi.pending h e' he'
  applied h e' he' := by
    rw [MemoryCommitIndex.get_upsert] at he'
    split at he'
    · obtain rfl := Option.some.inj he'
      exact ha
    · exact hi.applied h e' he'

theorem decided_upsert {e : CommitIndexEntry} (hstatus : e.status = .applied ∨ e.status = .rejected)
    {h : HLCTimestamp} (hd : idx.decided h) : (idx.upsert e).decided h := by
  unfold MemoryCommitIndex.decided
  rw [MemoryCommitIndex.get_upsert]
  split
  · exact ⟨e, rfl, hstatus⟩
  · exact hd

theorem IndexSound.rebuild (hi : IndexSound issued own store idx) (repo : Repo) :
    IndexSound issued own repo.store (initIndexFromDB repo false idx) where
  pending h e he hp := by
    rcases get_initIndexFromDB he with ⟨ha, -⟩ | ⟨hpres, rfl⟩
    · rw [ha] at hp
      cases hp
    · exact hi.pending _ e (mem_preservedEntries.mp hpres).1 hp
  applied h e he ha := by
    rcases get_initIndexFromDB he with ⟨-, x, hx, -, -, -, hhash⟩ | ⟨hpres, -⟩
    · rw [hhash]
      exact Lib.Dag.mem_keys_of_mem_ancestors hx
    · exact absurd ha (mem_preservedEntries.mp hpres).2.2.1

theorem finalizedBase_recordRejections (dropped : List (CommitAd × RejectionReason))
    (idx : MemoryCommitIndex) :
    (dropped.foldl recordRejection idx).finalizedBase = idx.finalizedBase := by
  induction dropped generalizing idx with
  | nil => rfl
  | cons d dropped ih =>
    rw [List.foldl_cons, ih, recordRejection]
    split <;> rfl

/-- What the hook of a replay does to the index, over the whole of a replay. -/
theorem recordRejections_spec (dropped : List (CommitAd × RejectionReason))
    (hi : IndexSound issued own store idx) :
    IndexSound issued own store (dropped.foldl recordRejection idx) ∧
      ∀ h, idx.decided h → (dropped.foldl recordRejection idx).decided h := by
  induction dropped generalizing idx with
  | nil => exact ⟨hi, fun _ hd => hd⟩
  | cons d dropped ih =>
    rw [List.foldl_cons, recordRejection]
    split
    · exact ih hi
    · obtain ⟨hsound, hdecided⟩ := ih
        (hi.upsert (e := ⟨d.1.hlc, d.1.commitHash, .rejected⟩) (fun hp => by cases hp)
          fun ha => by cases ha)
      exact ⟨hsound, fun h hd => hdecided h (decided_upsert (Or.inr rfl) hd)⟩

end Index

section Node

variable {issued : List HLCTimestamp} {n : Node}

/-- Everything written up to the base is on `main`, and what is on `main` is not pending. -/
structure Settled (issued : List HLCTimestamp) (n : Node) : Prop where
  covered : ∀ b ∈ n.idx.finalizedBase, ∀ h ∈ issued, b.hlc.less h = false →
    n.repo.carriesHLC h
  based : ∀ b ∈ n.idx.finalizedBase, b.commitHash ∈ n.repo.store.dag.keys
  indexed : ∀ h, n.repo.carriesHLC h → h.peerID = n.cfg.signer.getID ∨ n.idx.decided h
  sound : IndexSound issued n.cfg.signer.getID n.repo.store n.idx

theorem Settled.not_carried (hn : Settled issued n) {e : CommitIndexEntry}
    (he : n.idx.get e.hlc = some e) (hp : e.status = .pending) : ¬ n.repo.carriesHLC e.hlc := by
  intro hc
  rcases hn.indexed _ hc with hown | ⟨e', he', hstatus⟩
  · exact (hn.sound.pending _ e he hp).2 hown
  · obtain rfl := Option.some.inj (he.symm.trans he')
    rw [hp] at hstatus
    rcases hstatus with h | h <;> cases h

theorem Settled.reindex (hn : Settled issued n) {idx : MemoryCommitIndex}
    (hidx : IndexSound issued n.cfg.signer.getID n.repo.store idx)
    (hbase : idx.finalizedBase = n.idx.finalizedBase)
    (hdecided : ∀ h, n.idx.decided h → idx.decided h) : Settled issued { n with idx := idx } where
  covered b hb := hn.covered b (hbase ▸ hb)
  based b hb := hn.based b (hbase ▸ hb)
  indexed h hc := (hn.indexed h hc).imp_right (hdecided h)
  sound := hidx

theorem Settled.upsert (hn : Settled issued n) {e : CommitIndexEntry}
    (hstatus : e.status = .applied ∨ e.status = .rejected)
    (ha : e.status = .applied → e.commitHash ∈ n.repo.store.dag.keys) :
    Settled issued { n with idx := n.idx.upsert e } := by
  refine hn.reindex (hn.sound.upsert (fun hp => ?_) ha) rfl fun h => decided_upsert hstatus
  rw [hp] at hstatus
  rcases hstatus with h | h <;> cases h

theorem Settled.of_eq (hn : Settled issued n) {n' : Node} (hcfg : n'.cfg = n.cfg)
    (hrepo : n'.repo = n.repo) (hidx : n'.idx = n.idx) : Settled issued n' := by
  obtain ⟨hcovered, hbased, hindexed, hsound⟩ := hn
  constructor
  · rwa [hrepo, hidx]
  · rwa [hrepo, hidx]
  · rwa [hcfg, hrepo, hidx]
  · rwa [hcfg, hrepo, hidx]

theorem Settled.grown (hn : Settled issued n) {repo : Repo}
    (hgrown : n.repo.store.dag ≤ repo.store.dag) (hmain : repo.main = n.repo.main) :
    Settled issued { n with repo := repo } where
  covered b hb h hh hless :=
    (Repo.carriesHLC_of_grown hgrown hmain).mpr (hn.covered b hb h hh hless)
  based b hb := Lib.Dag.keys_subset hgrown (hn.based b hb)
  indexed h hc := hn.indexed h ((Repo.carriesHLC_of_grown hgrown hmain).mp hc)
  sound := hn.sound.mono (List.Subset.refl _) hgrown

theorem Settled.rebuild (hn : Settled issued n) {repo : Repo} {idx : MemoryCommitIndex}
    (hidx : IndexSound issued n.cfg.signer.getID n.repo.store idx)
    (hbase : idx.finalizedBase = n.idx.finalizedBase)
    (hgrown : n.repo.store.dag ≤ repo.store.dag)
    (hkept : ∀ b ∈ n.idx.finalizedBase, ∀ h, b.hlc.less h = false → n.repo.carriesHLC h →
      repo.carriesHLC h) :
    Settled issued (Node.rebuild { n with repo := repo, idx := idx } false) where
  covered b hb h hh hless := by
    simp only [Node.rebuild, finalizedBase_initIndexFromDB, hbase] at hb
    exact hkept b hb h hless (hn.covered b hb h hh hless)
  based b hb := by
    simp only [Node.rebuild, finalizedBase_initIndexFromDB, hbase] at hb
    exact Lib.Dag.keys_subset hgrown (hn.based b hb)
  indexed h hc := by
    obtain ⟨e, he, ha⟩ := applied_initIndexFromDB idx hc
    exact Or.inr ⟨e, he, Or.inl ha⟩
  sound := hidx.rebuild repo

theorem settled_started (issued : List HLCTimestamp) (cfg : NodeConfig) (repo : Repo) (hlc : HLC)
    (own : hlc.peerID = cfg.signer.getID) :
    Settled issued (Node.started cfg repo hlc own false) := by
  have hbase : (initIndexFromDB repo false .newMemoryCommitIndex).finalizedBase = none :=
    finalizedBase_initIndexFromDB repo false .newMemoryCommitIndex
  have hempty : IndexSound issued cfg.signer.getID repo.store .newMemoryCommitIndex := by
    constructor <;> intro h e he <;> cases he
  refine ⟨?_, ?_, ?_, hempty.rebuild repo⟩
  · intro b hb
    rw [Node.started, hbase] at hb
    cases hb
  · intro b hb
    rw [Node.started, hbase] at hb
    cases hb
  · intro h hc
    obtain ⟨e, he, ha⟩ := applied_initIndexFromDB .newMemoryCommitIndex hc
    exact Or.inr ⟨e, he, Or.inl ha⟩

theorem Settled.issue (hn : Settled issued n) {hlc : HLCTimestamp}
    (habove : ∀ b ∈ n.idx.finalizedBase, b.hlc.less hlc = true) : Settled (hlc :: issued) n where
  covered b hb h hh hless := by
    rcases List.mem_cons.mp hh with rfl | hh
    · rw [habove b hb] at hless
      cases hless
    · exact hn.covered b hb h hh hless
  based := hn.based
  indexed := hn.indexed
  sound := hn.sound.mono (List.subset_cons_self _ _) Lib.Dag.le_rfl

theorem Settled.onCommitAd (hn : Settled issued n) {ad : CommitAdV1}
    (had : ad.repo = n.cfg.repo → ad.hlc ∈ issued) (now physicalTime : Int64) :
    Settled issued (n.onCommitAd ad now physicalTime) := by
  rcases n.onCommitAd_cases ad now physicalTime with heq | heq | ⟨hrepo, hnews, hforeign, -, heq⟩
  · rw [heq]
    exact hn
  · rw [heq]
    exact hn.upsert (Or.inr rfl) fun ha => by cases ha
  · rw [heq]
    refine ⟨hn.covered, hn.based, fun h hc => ?_, ?_⟩
    · -- a decided timestamp is not news, so its entry stands
      refine (hn.indexed h hc).imp_right fun hd => ?_
      have hne : h ≠ ad.hlc := by
        rintro rfl
        exact hnews hd
      unfold MemoryCommitIndex.decided
      rw [MemoryCommitIndex.get_upsert, if_neg hne]
      exact hd
    · exact hn.sound.upsert (fun _ => ⟨had hrepo, hforeign⟩) fun ha => by cases ha

theorem Settled.publishLocalCommitAd (hn : Settled issued n) (commitHash : Hash)
    (log : RangeOrder Commit) (readFails : Bool) :
    Settled issued (n.publishLocalCommitAd commitHash log readFails) := by
  unfold Node.publishLocalCommitAd
  split
  · exact hn
  · next head metadata hlast =>
    split_ifs
    · exact hn
    · exact hn
    · exact hn.upsert (Or.inl rfl) fun _ =>
        Lib.Dag.mem_keys_of_mem_ancestors (getLastUserCommit_spec hlast).1

theorem Settled.commit (hn : Settled issued n) {w : Write} (hname : w.hash ≠ "")
    (hkey : w.hash ∉ n.repo.store.dag.keys) :
    Settled (if w.fails then issued else (n.hlc.now w.physicalTime).1 :: issued)
      (n.commit w).1 := by
  unfold Node.commit
  split
  · exact hn.of_eq rfl rfl rfl
  · obtain ⟨hgrown, -, -⟩ :=
      n.repo.commitOn_spec (n.committed w (n.hlc.now w.physicalTime).1) hname hkey rfl
    refine ⟨fun b hb h hh hless => ?_, fun b hb => Lib.Dag.keys_subset hgrown (hn.based b hb),
      fun h hc => ?_, hn.sound.mono (List.subset_cons_self _ _) hgrown⟩
    · refine (n.carriesHLC_committed hname hkey _).mpr ?_
      rcases List.mem_cons.mp hh with rfl | hh
      · exact Or.inl rfl
      · exact Or.inr (hn.covered b hb h hh hless)
    · rcases (n.carriesHLC_committed hname hkey _).mp hc with rfl | hc
      · exact Or.inl n.own
      · exact hn.indexed h hc

theorem Settled.tryFinalize (hn : Settled issued n)
    (hset : ∀ e, finalizable n.peerHLC n.idx e → ∀ h ∈ issued, e.hlc.less h = false →
      n.repo.carriesHLC h) : Settled issued n.tryFinalize := by
  unfold Node.tryFinalize
  rcases tryFinalize_cases n.peerHLC n.idx with heq | ⟨e, he, -, heq⟩
  · rw [heq]
    exact hn
  · rw [heq]
    refine ⟨fun b hb => ?_, fun b hb => ?_, hn.indexed, ⟨hn.sound.pending, hn.sound.applied⟩⟩
    · obtain rfl := Option.some.inj hb
      exact hset e he
    · obtain rfl := Option.some.inj hb
      exact hn.sound.applied _ e he.1 he.2.1

theorem Settled.syncOnce (hn : Settled issued n) {f : Fetch}
    (hstore : n.repo.store.dag ≤ f.store.dag) (hread : f.fails .getAllCommits = false)
    (henv : n.replaysSoundly f) (hshared : f.mergeBase = "" → n.idx.finalizedBase = none)
    (hsafe : ∀ imported, (n.fetched f).syncPath f = .replay imported →
      ∀ fb ∈ n.idx.finalizedBase, finalizedSafe (n.fetched f).repo f.mergeBase imported fb) :
    Settled issued (n.syncOnce f) := by
  obtain ⟨repo, heq, hgrown, hmain⟩ := Node.fetched_spec hstore
  have hf : Settled issued (n.fetched f) := heq ▸ hn.grown hgrown hmain
  have hidx : (n.fetched f).idx = n.idx := by rw [heq]
  have himported := fun imported (h : (n.fetched f).syncPath f = .replay imported) =>
    Node.imported_of_syncPath hstore h
  unfold Node.replaysSoundly at henv
  rw [← hidx] at hshared hsafe henv
  unfold Node.syncOnce
  generalize n.fetched f = m at hf hshared hsafe henv himported ⊢
  simp only [hread]
  split
  · exact hf
  · next hpath =>
    refine hf.rebuild hf.sound rfl ?_ fun b hb => ?_
    · rw [Repo.resetMain_store]
      exact Lib.Dag.le_rfl
    · rw [hshared (Node.bootstrap_of_syncPath hpath)] at hb
      cases hb
  · next repo' hpath =>
    obtain ⟨fails, hff⟩ := Node.fastForward_of_syncPath hpath
    obtain ⟨hsame, hkept⟩ := tryFastForward_spec hff
    have hle : m.repo.store.dag ≤ repo'.store.dag := by
      rw [hsame]
      exact Lib.Dag.le_rfl
    refine hf.rebuild hf.sound rfl hle fun b hb h hless hc => ?_
    exact hc.extend hle fun x hx => hsame ▸ hkept x hx
  · next imported hpath =>
    obtain ⟨hle, hstays⟩ := replayImportedCommits_grown f.env m.repo f.mergeBase imported
      m.idx.finalizedBase
    obtain ⟨hsound, hdecided⟩ := recordRejections_spec (replayImportedCommits f.env m.repo
      f.mergeBase imported m.idx.finalizedBase).rejected hf.sound
    have hbase := finalizedBase_recordRejections (replayImportedCommits f.env m.repo
      f.mergeBase imported m.idx.finalizedBase).rejected m.idx
    split
    · next err herr =>
      exact (hf.reindex hsound hbase hdecided).grown hle (hstays err herr)
    · next k hok =>
      refine hf.rebuild hsound hbase hle ?_
      rintro b hb h hless ⟨x, hx, v, hv, rfl⟩
      obtain ⟨hall, himp⟩ := himported imported hpath
      have hkept := kept_of_finalizedSafe (hb ▸ henv imported hpath)
        (fun c hc => hall ▸ (himp c hc).1) (hf.based b hb) (hsafe imported hpath b hb) (n := k)
        (hb ▸ hok) hx ⟨v, hv, hless⟩
      have hb' : m.idx.finalizedBase = some b := hb
      rw [← hb'] at hkept
      exact ⟨x, hkept, v, Store.metadata?_of_le hle hv, rfl⟩

end Node

section Frames

def SameBase (n n' : Node) : Prop :=
  n'.idx.finalizedBase = n.idx.finalizedBase ∧ n'.peerHLC = n.peerHLC

variable (n : Node)

theorem sameBase_onCommitAd (ad : CommitAdV1) (now physicalTime : Int64) :
    SameBase n (n.onCommitAd ad now physicalTime) := by
  rcases n.onCommitAd_cases ad now physicalTime with heq | heq | ⟨-, -, -, -, heq⟩
  · rw [heq]
    exact ⟨rfl, rfl⟩
  · rw [heq]
    exact ⟨rfl, rfl⟩
  · rw [heq]
    exact ⟨rfl, rfl⟩

theorem sameBase_commit (w : Write) : SameBase n (n.commit w).1 := by
  unfold Node.commit
  split
  · exact ⟨rfl, rfl⟩
  · exact ⟨rfl, rfl⟩

theorem sameBase_publishLocalCommitAd (commitHash : Hash) (log : RangeOrder Commit)
    (readFails : Bool) : SameBase n (n.publishLocalCommitAd commitHash log readFails) := by
  unfold Node.publishLocalCommitAd
  split
  · exact ⟨rfl, rfl⟩
  · split_ifs
    · exact ⟨rfl, rfl⟩
    · exact ⟨rfl, rfl⟩
    · exact ⟨rfl, rfl⟩

theorem sameBase_syncOnce (f : Fetch) : SameBase n (n.syncOnce f) := by
  have hfetched : SameBase n (n.fetched f) := by
    unfold Node.fetched
    split
    · exact ⟨rfl, rfl⟩
    · exact ⟨rfl, rfl⟩
  unfold Node.syncOnce
  generalize n.fetched f = m at hfetched ⊢
  obtain ⟨hbase, hheard⟩ := hfetched
  have hrejected : ∀ imported,
      (m.replayed f imported).1.idx.finalizedBase = n.idx.finalizedBase := fun imported =>
    (finalizedBase_recordRejections _ _).trans hbase
  simp only [Node.rebuild]
  split
  · exact ⟨hbase, hheard⟩
  · exact ⟨(finalizedBase_initIndexFromDB _ _ _).trans hbase, hheard⟩
  · exact ⟨(finalizedBase_initIndexFromDB _ _ _).trans hbase, hheard⟩
  · next imported _ =>
    split
    · exact ⟨hrejected imported, hheard⟩
    · exact ⟨(finalizedBase_initIndexFromDB _ _ _).trans (hrejected imported), hheard⟩

end Frames

section Run

variable {peers : List String} {s : Swarm}

/-- What was heard was sent, and every peer has gone past the base. -/
structure StableInv (peers : List String) (s : Swarm) : Prop where
  node : Settled s.issued s.node
  heard : ∀ p h, s.node.peerHLC.lookup p = some h → h ∈ s.beats ∧ h.peerID = p
  ahead : ∀ b ∈ s.node.idx.finalizedBase, ∀ p ∈ peers,
    ∃ h ∈ s.beats, h.peerID = p ∧ b.hlc.less h = true

theorem StableInv.frame (hs : StableInv peers s) {n : Node} {issued : List HLCTimestamp}
    (hsame : SameBase s.node n) (hn : Settled issued n) :
    StableInv peers { s with node := n, issued := issued } where
  node := hn
  heard p h hp := hs.heard p h (hsame.2 ▸ hp)
  ahead b hb := hs.ahead b (hsame.1 ▸ hb)

theorem StableInv.above (hs : StableInv peers s) {hlc : HLCTimestamp} (hpeer : hlc.peerID ∈ peers)
    (hfresh : s.fresh hlc) : ∀ b ∈ s.node.idx.finalizedBase, b.hlc.less hlc = true := by
  intro b hb
  obtain ⟨h, hh, hid, hless⟩ := hs.ahead b hb hlc.peerID hpeer
  exact HLCTimestamp.less_trans hless (hfresh h (List.mem_append_right _ hh) hid)

theorem StableInv.onHeartbeat (hs : StableInv peers s) {hb : HeartbeatV1}
    (hsent : hb.repo = s.node.cfg.repo → hb.peerID ≠ s.node.cfg.signer.getID →
      hb.hlc ∈ s.beats ∧ hb.hlc.peerID = hb.peerID) (physicalTime : Int64) :
    StableInv peers { s with node := s.node.onHeartbeat hb physicalTime } := by
  unfold Node.onHeartbeat
  split
  · exact hs
  · next hrepo =>
    split
    · exact hs
    · next hforeign =>
      have hbeat := hsent (not_not.mp hrepo) hforeign
      refine ⟨hs.node.of_eq rfl rfl rfl, ?_, hs.ahead⟩
      intro p h hp
      rcases Node.lookup_hearPeer hp with hp | ⟨rfl, rfl⟩
      · exact hs.heard p h hp
      · exact hbeat

theorem StableInv.tryFinalize (hs : StableInv peers s) (hset : s.settled peers .tryFinalize) :
    StableInv peers { s with node := s.node.tryFinalize } := by
  obtain ⟨hall, hcarried⟩ := hset
  have hmoved : ∀ e, finalizable s.node.peerHLC s.node.idx e → ∀ h ∈ s.issued,
      e.hlc.less h = false → s.node.repo.carriesHLC h := fun e he =>
    hcarried e (MemoryCommitIndex.mem_listAfter.mpr ⟨he.1, he.2.2.1⟩) he
  refine ⟨hs.node.tryFinalize hmoved, hs.heard, ?_⟩
  unfold Node.tryFinalize
  rcases tryFinalize_cases s.node.peerHLC s.node.idx with heq | ⟨e, he, -, heq⟩
  · rw [heq]
    exact hs.ahead
  · rw [heq]
    intro b hb p hp
    obtain rfl := Option.some.inj hb
    obtain ⟨h, hh⟩ := Option.isSome_iff_exists.mp (AList.lookup_isSome.mpr (hall p hp))
    obtain ⟨hbeat, hid⟩ := hs.heard p h hh
    obtain ⟨stable, hstable, hless⟩ := he.2.2.2
    exact ⟨h, hbeat, hid,
      HLCTimestamp.less_of_less_of_not_less hless (stableHLC_le hstable hh)⟩

theorem stableInv_started (hstart : s.Started) : StableInv peers s := by
  obtain ⟨cfg, repo, hlc, own, heq⟩ := hstart
  have hbase : s.node.idx.finalizedBase = none := by
    rw [heq]
    exact finalizedBase_initIndexFromDB repo false .newMemoryCommitIndex
  refine ⟨heq ▸ settled_started s.issued cfg repo hlc own, fun p h hp => ?_, fun b hb => ?_⟩
  · rw [heq] at hp
    cases hp
  · rw [hbase] at hb
    cases hb

theorem stableInv_next {a : Event} (hs : StableInv peers s) (hset : s.settled peers a)
    (hp : s.possible peers a) : StableInv peers (s.next a) := by
  cases a with
  | peerCommit hlc =>
    exact ⟨hs.node.issue (hs.above hp.1 hp.2), hs.heard, hs.ahead⟩
  | peerHeartbeat hlc =>
    refine ⟨hs.node, fun p h hh => ?_, fun b hb p hpeer => ?_⟩
    · exact (hs.heard p h hh).imp_left (List.mem_cons_of_mem _)
    · obtain ⟨h, hh, hrest⟩ := hs.ahead b hb p hpeer
      exact ⟨h, List.mem_cons_of_mem _ hh, hrest⟩
  | onCommitAd ad now physicalTime =>
    exact hs.frame (sameBase_onCommitAd _ _ _ _) (hs.node.onCommitAd hp now physicalTime)
  | onHeartbeat hb physicalTime => exact hs.onHeartbeat hp physicalTime
  | publishHeartbeat physicalTime =>
    exact hs.frame ⟨rfl, rfl⟩ (hs.node.of_eq rfl rfl rfl)
  | tryFinalize => exact hs.tryFinalize hset
  | commit w => exact hs.frame (sameBase_commit _ w) (hs.node.commit hp.1 hp.2)
  | publishLocalCommitAd commitHash log readFails =>
    exact hs.frame (sameBase_publishLocalCommitAd _ _ _ _)
      (hs.node.publishLocalCommitAd commitHash log readFails)
  | syncOnce f =>
    obtain ⟨hread, henv, hshared, hsafe⟩ := hset
    exact hs.frame (sameBase_syncOnce _ f)
      (hs.node.syncOnce hp.1 hread henv hshared hsafe)

theorem StableInv.base_below_pending (hs : StableInv peers s)
    (hset : s.settled peers .tryFinalize) : s.stabilitySound .tryFinalize := by
  intro fb hfb hmoved e he hp
  unfold Node.tryFinalize at hfb
  rcases tryFinalize_cases s.node.peerHLC s.node.idx with heq | ⟨e', he', -, heq⟩
  · rw [heq] at hfb
    exact absurd hfb hmoved
  · rw [heq] at hfb
    obtain rfl := Option.some.inj hfb
    by_contra hle
    have hissued := (hs.node.sound.pending _ e he hp).1
    exact hs.node.not_carried he hp (hset.2 e'
      (MemoryCommitIndex.mem_listAfter.mpr ⟨he'.1, he'.2.2.1⟩) he' _ hissued
      (Bool.eq_false_iff.mpr hle))

theorem not_less_of_skipped {fb : Option FinalizedBase} {c : Commit} {m : CommitMetadata}
    (hm : parseCommitMetadata c.message = some m) (hskip : userCommit fb c = none) :
    ∃ b ∈ fb, b.hlc.less m.hlc = false := by
  simp only [userCommit, hm, parseCommitMetadata_kind hm, ne_eq, not_true_eq_false,
    if_false] at hskip
  split_ifs at hskip with hbelow
  cases fb with
  | none => cases hbelow
  | some b =>
    simp only [belowBase, Bool.and_eq_true, Bool.not_eq_true'] at hbelow
    exact ⟨b, rfl, hbelow.2⟩

theorem StableInv.skipped_is_carried (hs : StableInv peers s) {f : Fetch}
    (hp : s.possible peers (.syncOnce f)) : s.stabilitySound (.syncOnce f) := by
  intro imported hpath c hc m hm hskip
  obtain ⟨repo, heq, hgrown, hmain⟩ := Node.fetched_spec hp.1
  rcases List.mem_append.mp hc with hc | hc
  · obtain ⟨hstored, hanc⟩ := getCommitsSince_on_branch (s.node.fetched f).repo.main_mem
      (getCommitsSince_localCommits _ _) hc
    refine ⟨c.hash, hanc, m, ?_, rfl⟩
    simp [Store.metadata?, hstored, hm]
  · obtain ⟨-, himported⟩ := Node.imported_of_syncPath hp.1 hpath
    obtain ⟨hstored, hanc⟩ := himported c hc
    have hissued : m.hlc ∈ s.issued :=
      hp.2 c.hash hanc m (by simp [Store.metadata?, hstored, hm])
    obtain ⟨b, hb, hless⟩ := not_less_of_skipped hm hskip
    rw [heq]
    exact (Repo.carriesHLC_of_grown hgrown hmain).mpr (hs.node.covered b hb _ hissued hless)

theorem stableInv_of_run {start : Swarm} (hstart : start.Started) {tr : List (Swarm × Event)}
    (hrun : Lib.Run (Swarm.Step peers) start tr s) (hset : ∀ x ∈ tr, x.1.settled peers x.2) :
    StableInv peers s := by
  refine Lib.Run.induct (I := fun _ s => StableInv peers s) (G := Swarm.settled peers)
    (stableInv_started hstart) ?_ hrun hset
  rintro _ s a _ - hs hset ⟨hp, rfl⟩
  exact stableInv_next hs hset hp

/-- In a run whose steps are all settled the base passes no pending entry, and no commit is
skipped whose timestamp is not on `main`. -/
theorem skipped_commits_are_carried {start : Swarm} (hstart : start.Started)
    {tr : List (Swarm × Event)} (hrun : Lib.Run (Swarm.Step peers) start tr s)
    (hset : ∀ x ∈ tr, x.1.settled peers x.2) : ∀ x ∈ tr, x.1.stabilitySound x.2 := by
  rintro ⟨t, a⟩ hx
  obtain ⟨tr₀, hrun₀, hsub⟩ := hrun.initial_of_mem hx
  obtain ⟨-, -, ⟨hp, -⟩, -⟩ := hrun.step_of_mem hx
  have hs := stableInv_of_run hstart hrun₀ fun y hy => hset y (hsub hy)
  cases a with
  | tryFinalize => exact hs.base_below_pending (hset _ hx)
  | syncOnce f => exact hs.skipped_is_carried hp
  | peerCommit _ => trivial
  | peerHeartbeat _ => trivial
  | onCommitAd _ _ _ => trivial
  | onHeartbeat _ _ => trivial
  | publishHeartbeat _ => trivial
  | commit _ => trivial
  | publishLocalCommitAd _ _ _ => trivial

end Run

section Samples

def aliceConfig : NodeConfig :=
  ⟨⟨"org", "repo"⟩, ⟨"alice", fun _ _ => true⟩, 5000000000, none⟩

def emptyRepo : Repo :=
  ⟨⟨⟨[plainNode "commit-i" []], by decide⟩, by decide⟩, "commit-i", by decide⟩

def aliceStarts : Swarm :=
  ⟨Node.started aliceConfig emptyRepo (HLC.newHLC "alice" 1) rfl false, [], []⟩

def aliceAfter (events : List Event) : Swarm := events.foldl Swarm.next aliceStarts

def aliceWrites : Write := ⟨"write", "root", "content", 5, "signed", 5, "commit-a", false⟩

def bobAdvertises : CommitAdV1 :=
  ⟨⟨"org", "repo"⟩, ⟨3, 0, "bob"⟩, .json (written "bob" 3), "signed"⟩

theorem run_aliceAfter (events : List Event)
    (h : ∀ x ∈ Lib.trail Swarm.next aliceStarts events, x.1.possible ["bob"] x.2) :
    aliceStarts.Started ∧ Lib.Run (Swarm.Step ["bob"]) aliceStarts
      (Lib.trail Swarm.next aliceStarts events) (aliceAfter events) :=
  ⟨⟨_, _, _, _, rfl⟩, Lib.run_trail Swarm.next (fun _ _ hp => ⟨hp, rfl⟩) events h⟩

/-- The commit of `bob` is advertised but not fetched when a later heartbeat of theirs is
heard. -/
def overtaken : List Event :=
  [.peerCommit ⟨3, 0, "bob"⟩, .commit aliceWrites,
    .publishLocalCommitAd "commit-a" (RangeOrder.asStored _) false,
    .onCommitAd bobAdvertises 6 6, .peerHeartbeat ⟨10, 0, "bob"⟩,
    .onHeartbeat ⟨⟨"org", "repo"⟩, ⟨10, 0, "bob"⟩, "bob"⟩ 10]

def bobCommit : StoredCommit := userNode "commit-b" ["commit-i"] (written "bob" 3)

def bobIsFetched : Fetch where
  store := ⟨⟨[bobCommit, userNode "commit-a" ["commit-i"] (written "alice" 5),
    plainNode "commit-i" []], by decide +kernel⟩, by decide +kernel⟩
  remoteHead := "commit-b"
  mergeBase := "commit-i"
  fails _ := false
  env := refuseAllBut none
  head_mem := by decide +kernel

/-- The base moves past the pending entry of `bob`, and the sync then skips their commit. -/
theorem base_passes_pending :
    (aliceStarts.Started ∧ Lib.Run (Swarm.Step ["bob"]) aliceStarts
      (Lib.trail Swarm.next aliceStarts (overtaken ++ [Event.tryFinalize]))
      (aliceAfter (overtaken ++ [Event.tryFinalize]))) ∧
    ¬ (aliceAfter overtaken).stabilitySound .tryFinalize ∧
    (aliceAfter (overtaken ++ [Event.tryFinalize])).possible ["bob"] (.syncOnce bobIsFetched) ∧
    ¬ (aliceAfter (overtaken ++ [Event.tryFinalize])).stabilitySound (.syncOnce bobIsFetched) := by
  refine ⟨run_aliceAfter _ (by decide +kernel), fun h => ?_, by decide +kernel, fun h => ?_⟩
  · exact absurd (h ⟨⟨5, 0, "alice"⟩, "commit-a"⟩ (by decide +kernel) (by decide +kernel)
      ⟨⟨3, 0, "bob"⟩, "", .pending⟩ (by decide +kernel) rfl) (by decide +kernel)
  · have hcommit := h [bobCommit.commit] (SyncPath.imported?_eq_some_iff.mp (by decide +kernel))
    exact absurd (hcommit bobCommit.commit (List.mem_append_right _ (by decide +kernel))
      (written "bob" 3) (by decide +kernel) (by decide +kernel)) (by decide +kernel)

def bobInTime : Fetch where
  store := ⟨⟨[bobCommit, plainNode "commit-i" []], by decide +kernel⟩, by decide +kernel⟩
  remoteHead := "commit-b"
  mergeBase := "commit-i"
  fails _ := false
  env := refuseAllBut none
  head_mem := by decide +kernel

def bobMerge : StoredCommit := userNode "commit-d" ["commit-i"] (mergeMetadata ⟨3, 0, "bob"⟩ 3)

def bobLater : Fetch where
  store := ⟨⟨[userNode "commit-c" ["commit-d"] (written "bob" 12), bobMerge,
    userNode "commit-a" ["commit-b"] (written "alice" 5), bobCommit, plainNode "commit-i" []],
    by decide +kernel⟩, by decide +kernel⟩
  remoteHead := "commit-c"
  mergeBase := "commit-i"
  fails _ := false
  env := refuseAllBut (some "commit-c")
  head_mem := by decide +kernel

def inTime : List Event :=
  [.peerCommit ⟨3, 0, "bob"⟩, .syncOnce bobInTime, .commit aliceWrites,
    .publishLocalCommitAd "commit-a" (RangeOrder.asStored _) false,
    .peerHeartbeat ⟨10, 0, "bob"⟩, .onHeartbeat ⟨⟨"org", "repo"⟩, ⟨10, 0, "bob"⟩, "bob"⟩ 10,
    .tryFinalize, .peerCommit ⟨12, 0, "bob"⟩]

theorem settled_syncOnce {peers : List String} {s : Swarm} {f : Fetch}
    (hread : f.fails .getAllCommits = false) (henv : s.node.replaysSoundly f)
    (hbase : f.mergeBase ≠ "")
    (hsafe : ∀ imported ∈ ((s.node.fetched f).syncPath f).imported?,
      ∀ fb ∈ s.node.idx.finalizedBase,
        finalizedSafe (s.node.fetched f).repo f.mergeBase imported fb) :
    s.settled peers (.syncOnce f) :=
  ⟨hread, henv, fun h => absurd h hbase, fun imported hpath =>
    hsafe imported (SyncPath.imported?_eq_some_iff.mpr hpath)⟩

/-- The merge is skipped, and its timestamp is on `main`. -/
theorem skipped_commits_are_carried_in_time :
    userCommit (aliceAfter inTime).node.idx.finalizedBase bobMerge.commit = none ∧
      ((aliceAfter inTime).node.fetched bobLater).repo.carriesHLC ⟨3, 0, "bob"⟩ := by
  have hskip : userCommit (aliceAfter inTime).node.idx.finalizedBase bobMerge.commit = none := by
    decide +kernel
  obtain ⟨hstart, hrun⟩ :=
    run_aliceAfter (inTime ++ [.syncOnce bobLater]) (by decide +kernel)
  have hsettled : ∀ x ∈ Lib.trail Swarm.next aliceStarts (inTime ++ [.syncOnce bobLater]),
      x.1.settled ["bob"] x.2 := by
    simp only [inTime, List.cons_append, List.nil_append, Lib.forall_mem_trail_cons]
    refine ⟨trivial,
      settled_syncOnce rfl (fun _ _ => refuseAllBut_sound _ _ _) (by decide) (by decide +kernel),
      trivial, trivial, trivial, trivial, ⟨by decide +kernel, by decide +kernel⟩, trivial,
      settled_syncOnce rfl (fun _ _ => refuseAllBut_sound _ _ _) (by decide)
        (by decide +kernel), ?_⟩
    simp [Lib.trail]
  have hsound := skipped_commits_are_carried hstart hrun hsettled
    (aliceAfter inTime, .syncOnce bobLater) List.mem_cons_self
  exact ⟨hskip, hsound _ (SyncPath.imported?_eq_some_iff.mp rfl) bobMerge.commit
    (List.mem_append_right _ (by decide +kernel)) (mergeMetadata ⟨3, 0, "bob"⟩ 3)
    (by decide +kernel) hskip⟩

end Samples

end DoltSwarm.Core
