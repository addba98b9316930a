import DoltSwarm.Core.Stability
import DoltSwarm.Core.SyncMoves

/-!
# Which commits reach main unchecked (core/node.go, core/reconciler_core.go)

`onCommitAd` checks the signature of an advertised commit and how far ahead its timestamp is.
A sync pass takes whatever the branch of the provider holds and repeats neither check, and the
merges that a replay makes are user commits without a signature. `admits` says of a pass that
none of this matters.
-/

namespace DoltSwarm.Core

set_option autoImplicit false

/-- The checks that `onCommitAd` makes on the metadata of an advertised commit. -/
def NodeConfig.accepts (cfg : NodeConfig) (now : Int64) (m : CommitMetadata) : Prop :=
  ¬ (0 < cfg.maxClockSkew ∧ now + cfg.maxClockSkew < m.hlc.wall) ∧
    cfg.verified m.hlc.peerID m = true

instance (cfg : NodeConfig) (now : Int64) (m : CommitMetadata) : Decidable (cfg.accepts now m) :=
  inferInstanceAs (Decidable (¬ (_ ∧ _) ∧ cfg.verified m.hlc.peerID m = true))

def NodeConfig.advertises (cfg : NodeConfig) (m : CommitMetadata) : CommitAdV1 :=
  ⟨cfg.repo, m.hlc, .json m, m.signature⟩

def Node.newOnMain (n : Node) (f : Fetch) (x : Hash) : Prop :=
  x ∈ (n.syncOnce f).repo.store.dag.ancestors (n.syncOnce f).repo.main ∧
    x ∉ n.repo.store.dag.ancestors n.repo.main

instance (n : Node) (f : Fetch) (x : Hash) : Decidable (n.newOnMain f x) :=
  inferInstanceAs (Decidable (_ ∈ _ ∧ _ ∉ _))

/-- From the first commit on that is not a child of the branch, the timestamps of all that is
replayed may stand in the metadata of a merge. -/
def mergesAccepted (ok : HLCTimestamp → Prop) (s : Store) : Hash → List CommitWithMeta → Prop
  | _, [] => True
  | head, c :: rest =>
    if isChildOf s c.commit.hash head then mergesAccepted ok s c.commit.hash rest
    else ∀ d ∈ c :: rest, ok d.hlc

/-- All that the fetched branch and the base would add to `main` is acceptable, and so are the
merges of a replay. -/
def Node.admits (n : Node) (f : Fetch) (now : Int64) : Prop :=
  (∀ x ∈ f.store.dag.ancestors f.remoteHead ++ f.store.dag.ancestors (n.replayBase f),
    x ∉ n.repo.store.dag.ancestors n.repo.main →
      ∀ m ∈ f.store.metadata? x, n.cfg.accepts now m) ∧
  ∀ imported, (n.fetched f).syncPath f = .replay imported →
    mergesAccepted (fun hlc => ∀ date, n.cfg.accepts now (mergeMetadata hlc date)) f.store
      (n.replayBase f) (n.replays f imported)

namespace Swarm

/-- A provider may serve any commits; fetching adds them to those of the node. -/
def served (s : Swarm) : Event → Prop
  | .syncOnce f => s.node.repo.store.dag ≤ f.store.dag ∧ s.node.replaysSoundly f
  | _ => True

def Timed (s : Swarm) (a : Event × Int64) (s' : Swarm) : Prop := s.served a.1 ∧ s' = s.next a.1

def admitted (s : Swarm) (a : Event × Int64) : Prop :=
  match a.1 with
  | .syncOnce f => s.node.admits f a.2
  | _ => True

end Swarm

section Checks

theorem NodeConfig.accepts.signed {cfg : NodeConfig} {now : Int64} {m : CommitMetadata}
    (h : cfg.accepts now m) {key : String → Option String} (hkey : cfg.identity = some key) :
    ∃ pub, key m.hlc.peerID = some pub ∧ pub ≠ "" ∧ cfg.signer.verify m pub = true := by
  obtain ⟨-, hverified⟩ := h
  simp only [NodeConfig.verified, hkey] at hverified
  split at hverified
  · cases hverified
  · next pub hpub =>
    simp only [ne_eq, decide_not, Bool.and_eq_true, Bool.not_eq_true', decide_eq_false_iff_not]
      at hverified
    exact ⟨pub, hpub, hverified⟩

end Checks

section Replay

variable {env : Env} {g : Store} {st st' : ReplayState} {cwm : CommitWithMeta}
  {old : Hash → Prop} {ok : HLCTimestamp → Prop}

theorem mem_of_survivesAmend {s : Store} {head commit x : Hash}
    (h : survivesAmend s head commit x) :
    x ∈ s.dag.ancestors head ∨ x ∈ s.dag.ancestors commit := by
  unfold survivesAmend at h
  split_ifs at h
  · exact Or.inl h.1
  · exact Or.inr h.1
  · exact h

structure Traced (g : Store) (old : Hash → Prop) (ok : HLCTimestamp → Prop) (st : ReplayState) :
    Prop where
  grown : g.dag ≤ st.store.dag
  head_mem : st.headHash ∈ st.store.dag.keys
  source : ∀ x ∈ st.store.dag.ancestors st.headHash, (x ∈ g.dag.keys ∧ old x) ∨
    ∃ hlc date, ok hlc ∧ st.store.metadata? x = some (mergeMetadata hlc date)

theorem Traced.move (h : Traced g old ok st) (hmove : ReplayMove env st cwm st')
    (hc : cwm.commit.hash ∈ g.dag.keys) (hold : ∀ x ∈ g.dag.ancestors cwm.commit.hash, old x)
    (hok : ¬ isChildOf st.store cwm.commit.hash st.headHash → ok cwm.hlc) :
    Traced g old ok st' := by
  have hcs := Lib.Dag.keys_subset h.grown hc
  have hbelow : ∀ x ∈ st.store.dag.ancestors cwm.commit.hash, x ∈ g.dag.keys ∧ old x := by
    intro x hx
    rw [Lib.Dag.ancestors_of_le h.grown hc] at hx
    exact ⟨Lib.Dag.mem_keys_of_mem_ancestors hx, hold x hx⟩
  cases hmove with
  | forward _ => exact ⟨h.grown, hcs, fun x hx => Or.inl (hbelow x hx)⟩
  | reject _ _ _ _ _ _ => exact ⟨h.grown, h.head_mem, h.source⟩
  | amend hchild _ ha =>
    refine ⟨Lib.Dag.le_trans h.grown ha.grown, ha.head_mem, fun x hx => ?_⟩
    rcases (ha.mem_ancestors h.head_mem hcs x).mp hx with rfl | hsurv
    · exact Or.inr ⟨_, _, hok hchild, ha.metadata_head⟩
    · rcases mem_of_survivesAmend hsurv with hx | hx
      · refine (h.source x hx).imp_right ?_
        rintro ⟨hlc, date, hhlc, hm⟩
        exact ⟨hlc, date, hhlc, Store.metadata?_of_le ha.grown hm⟩
      · exact Or.inl (hbelow x hx)

theorem Traced.run {commits : List CommitWithMeta} (henv : env.Sound st commits)
    (h : Traced g old ok st)
    (hcommits : ∀ c ∈ commits, c.commit.hash ∈ g.dag.keys ∧
      ∀ x ∈ g.dag.ancestors c.commit.hash, old x)
    (hok : ∀ c ∈ commits, ok c.hlc) (hrun : replayCommits env st commits = .ok st') :
    Traced g old ok st' := by
  induction commits generalizing st with
  | nil =>
    obtain rfl := Except.ok.inj hrun
    exact h
  | cons cwm rest ih =>
    obtain ⟨mid, hstep, hrest⟩ := replayCommits_cons.mp hrun
    rw [List.forall_mem_cons] at hcommits hok
    obtain ⟨hround, hnext⟩ := henv.cons hstep
    have hmove := replayCommit_move hround h.head_mem hstep
    exact ih hnext (h.move hmove hcommits.1.1 hcommits.1.2 fun _ => hok.1) hcommits.2 hok.2 hrest

theorem Traced.run_accepted {commits : List CommitWithMeta} (henv : env.Sound st commits)
    (h : Traced g old ok st)
    (hcommits : ∀ c ∈ commits, c.commit.hash ∈ g.dag.keys ∧
      ∀ x ∈ g.dag.ancestors c.commit.hash, old x)
    (hok : mergesAccepted ok g st.headHash commits)
    (hrun : replayCommits env st commits = .ok st') : Traced g old ok st' := by
  induction commits generalizing st with
  | nil =>
    obtain rfl := Except.ok.inj hrun
    exact h
  | cons cwm rest ih =>
    rw [mergesAccepted] at hok
    split at hok
    · next hchild =>
      obtain ⟨mid, hstep, hrest⟩ := replayCommits_cons.mp hrun
      rw [List.forall_mem_cons] at hcommits
      obtain ⟨hround, hnext⟩ := henv.cons hstep
      have hmove := replayCommit_move hround h.head_mem hstep
      rw [← isChildOf_of_le h.grown hcommits.1.1] at hchild
      have hmid := h.move hmove hcommits.1.1 hcommits.1.2 fun hne => absurd hchild hne
      cases hmove with
      | forward _ => exact ih hnext hmid hcommits.2 hok hrest
      | reject hne _ _ _ _ _ => exact absurd hchild hne
      | amend hne _ _ => exact absurd hchild hne
    · exact h.run henv hcommits hok hrun

end Replay

section Pass

variable {n : Node} {f : Fetch} {now : Int64}

theorem Node.admits.accepts_of_move (h : n.admits f now) (henv : n.replaysSoundly f)
    (hstore : n.repo.store.dag ≤ f.store.dag) {repo : Repo}
    {reported : List (CommitAd × RejectionReason)} (hmove : SyncMove n f repo reported) :
    ∀ x ∈ repo.store.dag.ancestors repo.main, x ∉ n.repo.store.dag.ancestors n.repo.main →
      ∀ m ∈ repo.store.metadata? x, n.cfg.accepts now m := by
  obtain ⟨hbranch, hmerges⟩ := h
  intro x hx hnew m hm
  cases hmove with
  | stay hgrown hmain =>
    rw [hmain, Lib.Dag.ancestors_of_le hgrown n.repo.main_mem] at hx
    exact absurd hx hnew
  | bootstrap _ hall hmain =>
    rw [hall] at hx hm
    rw [hmain] at hx
    exact hbranch x (List.mem_append_left _ hx) hnew m hm
  | fastForward hall hmain _ =>
    rw [hall] at hx hm
    rw [hmain] at hx
    exact hbranch x (List.mem_append_left _ hx) hnew m hm
  | replay imported st hpath _ hbase hrun hall hmain =>
    rw [hall] at hx hm
    rw [hmain] at hx
    -- whatever is old comes from `main`, from the branch of the remote, or from the base
    have hstart : Traced f.store (fun x => x ∈ f.store.dag.ancestors n.repo.main ∨
        x ∈ f.store.dag.ancestors f.remoteHead ++ f.store.dag.ancestors (n.replayBase f))
        (fun hlc => ∀ date, n.cfg.accepts now (mergeMetadata hlc date))
        ⟨f.store, n.replayBase f, 0, []⟩ :=
      ⟨Lib.Dag.le_rfl, hbase, fun x hx => Or.inl
        ⟨Lib.Dag.mem_keys_of_mem_ancestors hx, Or.inr (List.mem_append_right _ hx)⟩⟩
    have hcommits : ∀ c ∈ n.replays f imported, c.commit.hash ∈ f.store.dag.keys ∧
        ∀ x ∈ f.store.dag.ancestors c.commit.hash, x ∈ f.store.dag.ancestors n.repo.main ∨
          x ∈ f.store.dag.ancestors f.remoteHead ++ f.store.dag.ancestors (n.replayBase f) := by
      intro c hc
      refine ⟨(Node.listed_replays hstore hpath).mem_keys _ (List.mem_map_of_mem hc), ?_⟩
      intro x hx
      refine (Node.mem_branch_of_replays hstore hpath hc).imp (fun hon => ?_) fun hon => ?_
      · exact Lib.Dag.ancestors_trans hx hon
      · exact List.mem_append_left _ (Lib.Dag.ancestors_trans hx hon)
    have hend :=
      hstart.run_accepted (henv.sound hstore hpath) hcommits (hmerges imported hpath) hrun
    rcases hend.source x hx with ⟨hkey, hold⟩ | ⟨hlc, date, hok, hmerge⟩
    · rw [Store.metadata?_eq_of_le hend.grown hkey] at hm
      rcases hold with hold | hold
      · rw [Lib.Dag.ancestors_of_le hstore n.repo.main_mem] at hold
        exact absurd hold hnew
      · exact hbranch x hold hnew m hm
    · obtain rfl := Option.some.inj (hmerge.symm.trans hm)
      exact hok date

end Pass

section Run

variable {start s : Swarm}

theorem Node.cfg_onCommitAd (n : Node) (ad : CommitAdV1) (now physicalTime : Int64) :
    (n.onCommitAd ad now physicalTime).cfg = n.cfg := by
  rcases n.onCommitAd_cases ad now physicalTime with heq | heq | ⟨-, -, -, -, heq⟩
  · rw [heq]
  · rw [heq, Node.rejectAd]
  · rw [heq]

theorem Node.cfg_syncOnce (n : Node) (f : Fetch) : (n.syncOnce f).cfg = n.cfg := by
  have hfetched : (n.fetched f).cfg = n.cfg := by
    unfold Node.fetched
    split <;> rfl
  rw [← hfetched, Node.syncOnce]
  generalize n.fetched f = m
  cases m.syncPath f with
  | idle => rfl
  | bootstrap => rfl
  | fastForward repo => rfl
  | replay imported =>
    simp only
    split <;> rfl

theorem Swarm.cfg_next (s : Swarm) (a : Event) : (s.next a).node.cfg = s.node.cfg := by
  cases a with
  | peerCommit _ => rfl
  | peerHeartbeat _ => rfl
  | onCommitAd ad now physicalTime => exact s.node.cfg_onCommitAd ad now physicalTime
  | onHeartbeat hb physicalTime =>
    simp only [Swarm.next, Node.onHeartbeat]
    split_ifs <;> rfl
  | publishHeartbeat _ => rfl
  | tryFinalize => rfl
  | commit w =>
    simp only [Swarm.next, Node.commit]
    split_ifs <;> rfl
  | publishLocalCommitAd commitHash log readFails =>
    simp only [Swarm.next, Node.publishLocalCommitAd]
    split
    · rfl
    · split_ifs <;> rfl
  | syncOnce f => exact s.node.cfg_syncOnce f

/-- In a run whose passes are all admitted, the user commits that a pass puts on `main` are
signed by the peers they name and not from too far ahead. -/
theorem synced_commits_are_verified {key : String → Option String}
    (hkey : start.node.cfg.identity = some key) {tr : List (Swarm × (Event × Int64))}
    (hrun : Lib.Run Swarm.Timed start tr s) (hadm : ∀ x ∈ tr, x.1.admitted x.2) :
    ∀ t f now, (t, (Event.syncOnce f, now)) ∈ tr → ∀ x, t.node.newOnMain f x →
      ∀ m ∈ (t.node.syncOnce f).repo.store.metadata? x,
        (∃ pub, key m.hlc.peerID = some pub ∧ pub ≠ "" ∧
          start.node.cfg.signer.verify m pub = true) ∧
        ¬ (0 < start.node.cfg.maxClockSkew ∧
          now + start.node.cfg.maxClockSkew < m.hlc.wall) := by
  intro t f now hmem x hx m hm
  have hcfg : t.node.cfg = start.node.cfg := by
    obtain ⟨tr', hrun', -⟩ := hrun.initial_of_mem hmem
    refine hrun'.invariant (I := fun t => t.node.cfg = start.node.cfg) rfl ?_
    rintro t a _ ht ⟨-, rfl⟩
    exact (Swarm.cfg_next t a.1).trans ht
  obtain ⟨-, -, ⟨hserved, -⟩, -⟩ := hrun.step_of_mem hmem
  obtain ⟨hstore, henv⟩ := hserved
  have hpass : t.node.admits f now := hadm _ hmem
  have haccepts := hpass.accepts_of_move henv hstore (Node.syncOnce_move hstore) x hx.1 hx.2 m hm
  rw [hcfg] at haccepts
  exact ⟨haccepts.signed hkey, haccepts.1⟩

end Run

section Samples

def checkingConfig : NodeConfig :=
  ⟨⟨"org", "repo"⟩, ⟨"alice", fun m pub => m.signature = "signed" && pub = m.hlc.peerID ++ "-key"⟩,
    5000000000, some fun peer => if peer = "bob" then some "bob-key" else none⟩

theorem peerID_checkingConfig : (HLC.newHLC "alice" 1).peerID = checkingConfig.signer.getID := rfl

def checkingStarts (repo : Repo) : Swarm :=
  ⟨Node.started checkingConfig repo (HLC.newHLC "alice" 1) peerID_checkingConfig false, [], []⟩

def timed (s : Swarm) (a : Event × Int64) : Swarm := s.next a.1

def forged : CommitMetadata := { written "bob" 3 with signature := "" }

def forgedIsFetched : Fetch where
  store := ⟨⟨[userNode "commit-x" ["commit-i"] forged, plainNode "commit-i" []],
    by decide +kernel⟩, by decide +kernel⟩
  remoteHead := "commit-x"
  mergeBase := "commit-i"
  fails _ := false
  env := refuseAllBut none
  head_mem := by decide +kernel

def forgery : List (Event × Int64) :=
  [(.onCommitAd (checkingConfig.advertises forged) 6 6, 6), (.syncOnce forgedIsFetched, 7)]

def signedIsFetched : Fetch := { bobIsFetched with env := refuseAllBut (some "commit-a") }

def honestMerge : List (Event × Int64) := [(.commit aliceWrites, 5), (.syncOnce signedIsFetched, 7)]

def Node.letsIn (n : Node) (f : Fetch) (x : Hash) : Prop :=
  n.newOnMain f x ∧ ∃ m ∈ (n.syncOnce f).repo.store.metadata? x,
    n.cfg.verified m.hlc.peerID m = false

instance (n : Node) (f : Fetch) (x : Hash) : Decidable (n.letsIn f x) :=
  inferInstanceAs (Decidable (_ ∧ ∃ m ∈ (n.syncOnce f).repo.store.metadata? x,
    n.cfg.verified m.hlc.peerID m = false))

theorem run_checking {repo : Repo} (events : List (Event × Int64))
    (h : ∀ x ∈ Lib.trail timed (checkingStarts repo) events, x.1.served x.2.1) :
    ∃ s, Lib.Run Swarm.Timed (checkingStarts repo)
      (Lib.trail timed (checkingStarts repo) events) s :=
  ⟨_, Lib.run_trail timed (fun _ _ hp => ⟨hp, rfl⟩) events h⟩

/-- An advertisement is turned down, and the next pass puts its commit on `main`. And where all
that is fetched is signed, a pass puts an unsigned merge there. -/
theorem unverified_commits_on_main :
    ((∃ s, Lib.Run Swarm.Timed (checkingStarts emptyRepo)
      (Lib.trail timed (checkingStarts emptyRepo) forgery) s) ∧
      ∃ t, (t, (Event.syncOnce forgedIsFetched, 7)) ∈
          Lib.trail timed (checkingStarts emptyRepo) forgery ∧
        (∃ e ∈ t.node.idx.get forged.hlc, e.status = .rejected) ∧
        t.node.letsIn forgedIsFetched "commit-x") ∧
    ((∃ s, Lib.Run Swarm.Timed (checkingStarts emptyRepo)
      (Lib.trail timed (checkingStarts emptyRepo) honestMerge) s) ∧
      ∃ t, (t, (Event.syncOnce signedIsFetched, 7)) ∈
          Lib.trail timed (checkingStarts emptyRepo) honestMerge ∧
        (∀ x ∈ signedIsFetched.store.dag.ancestors "commit-b",
          ∀ m ∈ signedIsFetched.store.metadata? x, t.node.cfg.accepts 7 m) ∧
        t.node.letsIn signedIsFetched (t.node.syncOnce signedIsFetched).repo.main) := by
  refine ⟨⟨run_checking _ ?_, _, List.mem_cons_self, by decide +kernel, by decide +kernel⟩,
    run_checking _ ?_, _, List.mem_cons_self, by decide +kernel, by decide +kernel⟩
  · simp only [forgery, Lib.forall_mem_trail_cons]
    refine ⟨trivial, ⟨by decide +kernel, fun _ _ => refuseAllBut_sound _ _ _⟩, ?_⟩
    simp [Lib.trail]
  · simp only [honestMerge, Lib.forall_mem_trail_cons]
    refine ⟨trivial, ⟨by decide +kernel, fun _ _ => refuseAllBut_sound _ _ _⟩, ?_⟩
    simp [Lib.trail]

def plainRepo : Repo :=
  ⟨⟨⟨[plainNode "commit-p" ["commit-i"], plainNode "commit-i" []], by decide⟩, by decide⟩,
    "commit-p", by decide⟩

def signedBesidePlain : Fetch where
  store := ⟨⟨[bobCommit, plainNode "commit-p" ["commit-i"], plainNode "commit-i" []],
    by decide +kernel⟩, by decide +kernel⟩
  remoteHead := "commit-b"
  mergeBase := "commit-i"
  fails _ := false
  env := refuseAllBut none
  head_mem := by decide +kernel

theorem admits_signedBesidePlain : (checkingStarts plainRepo).node.admits signedBesidePlain 7 := by
  refine ⟨by decide +kernel, fun imported hpath => ?_⟩
  have himported : [bobCommit.commit] = imported := by
    refine Option.some.inj (Eq.trans ?_ (SyncPath.imported?_eq_some_iff.mpr hpath))
    decide +kernel
  subst himported
  have hreplays : (checkingStarts plainRepo).node.replays signedBesidePlain [bobCommit.commit] =
      [⟨bobCommit.commit, ⟨3, 0, "bob"⟩⟩] := by decide +kernel
  rw [hreplays, mergesAccepted, if_pos (by decide +kernel)]
  trivial

theorem synced_commits_are_verified_on_replay :
    (checkingStarts plainRepo).node.newOnMain signedBesidePlain "commit-b" ∧
      checkingConfig.signer.verify (written "bob" 3) "bob-key" = true := by
  have hnew : (checkingStarts plainRepo).node.newOnMain signedBesidePlain "commit-b" := by
    decide +kernel
  obtain ⟨s, hrun⟩ := @run_checking plainRepo [(.syncOnce signedBesidePlain, 7)] (by
    simp only [Lib.forall_mem_trail_cons]
    exact ⟨⟨by decide +kernel, fun _ _ => refuseAllBut_sound _ _ _⟩, by simp [Lib.trail]⟩)
  have hadm : ∀ x ∈ Lib.trail timed (checkingStarts plainRepo)
      [(.syncOnce signedBesidePlain, 7)], x.1.admitted x.2 := by
    simp only [Lib.forall_mem_trail_cons]
    exact ⟨admits_signedBesidePlain, by simp [Lib.trail]⟩
  obtain ⟨⟨pub, hpub, -, hverify⟩, -⟩ := synced_commits_are_verified rfl hrun hadm _ _ _
    List.mem_cons_self "commit-b" hnew (written "bob" 3) (by decide +kernel)
  have hbob : pub = "bob-key" := Option.some.inj (hpub.symm.trans (by decide +kernel))
  exact ⟨hnew, hbob ▸ hverify⟩

end Samples

end DoltSwarm.Core
