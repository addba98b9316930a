import DoltSwarm.Core.Index
import DoltSwarm.Core.ReplayReach

/-!
# Finalized commits under a replay

`tryFinalize` takes the finalized base from the rebuilt index, where a commit and the merge
that took it in share one timestamp. Replaying from that base keeps the finalized commits that
`keeps` speaks of, and no others in general.
-/

namespace DoltSwarm.Core

set_option autoImplicit false

/-- A base that `tryFinalize` sets on an index just rebuilt from `main`. -/
def Installable (repo : Repo) (fb : FinalizedBase) : Prop :=
  ∃ (prev : MemoryCommitIndex) (peerHLC : AList fun _ : String => HLCTimestamp),
    (initIndexFromDB repo false prev).finalizedBase ≠ some fb ∧
      (tryFinalize peerHLC (initIndexFromDB repo false prev)).finalizedBase = some fb

def finalizedBy (s : Store) (fb : FinalizedBase) (x : Hash) : Prop :=
  ∃ m ∈ s.metadata? x, fb.hlc.less m.hlc = false

instance (s : Store) (fb : FinalizedBase) (x : Hash) : Decidable (finalizedBy s fb x) :=
  inferInstanceAs (Decidable (∃ m ∈ s.metadata? x, fb.hlc.less m.hlc = false))

/-- The call stops at its log line, has nothing to replay, or keeps all that is finalized. -/
def finalizedSafe (repo : Repo) (mergeBase : Hash) (imported : List Commit)
    (fb : FinalizedBase) : Prop :=
  logsOutOfRange mergeBase (some fb) = true ∨
    commitsToReplay repo mergeBase imported (some fb) = [] ∨
    ∀ x ∈ repo.store.dag.ancestors repo.main, finalizedBy repo.store fb x →
      keeps repo.store x fb.commitHash (hashes (commitsToReplay repo mergeBase imported (some fb)))

instance (repo : Repo) (mergeBase : Hash) (imported : List Commit) (fb : FinalizedBase) :
    Decidable (finalizedSafe repo mergeBase imported fb) :=
  inferInstanceAs (Decidable (_ ∨ _ ∨ ∀ x ∈ repo.store.dag.ancestors repo.main,
    finalizedBy repo.store fb x →
      keeps repo.store x fb.commitHash
        (hashes (commitsToReplay repo mergeBase imported (some fb)))))

section Exact

variable {repo : Repo} {imported : List Commit} {fb : FinalizedBase}

theorem Installable.carried (h : Installable repo fb) :
    fb.commitHash ∈ repo.store.dag.ancestors repo.main ∧ fb.hlc.isZero = false ∧
      ∃ m ∈ repo.store.metadata? fb.commitHash, m.hlc = fb.hlc := by
  obtain ⟨prev, peerHLC, hbefore, hafter⟩ := h
  rcases tryFinalize_cases peerHLC (initIndexFromDB repo false prev) with heq | ⟨e, he, -, heq⟩
  · rw [heq] at hafter
    exact absurd hafter hbefore
  · rw [heq] at hafter
    obtain rfl := Option.some.inj hafter
    obtain ⟨hget, happ, hzero, -⟩ := he
    rcases get_initIndexFromDB hget with ⟨-, x, hx, m, hm, hhlc, hhash⟩ | ⟨hpres, -⟩
    · refine ⟨hhash ▸ hx, ?_, m, hhash ▸ hm, hhlc⟩
      rw [Bool.eq_false_iff, ne_eq, HLCTimestamp.isZero_iff]
      intro hz
      have hlt : HLCTimestamp.zero.less HLCTimestamp.zero = true := hz ▸ hzero
      rw [HLCTimestamp.less_irrefl] at hlt
      cases hlt
    · exact absurd happ (mem_preservedEntries.mp hpres).2.2.1

theorem Installable.mem_keys (h : Installable repo fb) : fb.commitHash ∈ repo.store.dag.keys :=
  Lib.Dag.mem_keys_of_mem_ancestors h.carried.1

theorem effectiveBase_of_mem {s : Store} (h : fb.commitHash ∈ s.dag.keys) (mergeBase : Hash) :
    effectiveBase mergeBase (some fb) = fb.commitHash := by
  simp [effectiveBase, Store.ne_empty h]

theorem kept_of_finalizedSafe {env : Env} {mergeBase : Hash}
    (henv : env.SoundFor repo mergeBase imported (some fb))
    (himp : Stored repo.store imported) (hbase : fb.commitHash ∈ repo.store.dag.keys)
    (hsafe : finalizedSafe repo mergeBase imported fb) {n : ℕ}
    (hres : (replayImportedCommits env repo mergeBase imported (some fb)).result = .ok n)
    {x : Hash} (hx : x ∈ repo.store.dag.ancestors repo.main)
    (hfin : finalizedBy repo.store fb x) :
    x ∈ (replayImportedCommits env repo mergeBase imported (some fb)).repo.store.dag.ancestors
      (replayImportedCommits env repo mergeBase imported (some fb)).repo.main := by
  have hl := listed_commitsToReplay himp mergeBase (some fb)
  have hstart : Attached repo.store ⟨repo.store, fb.commitHash, 0, []⟩ :=
    ⟨Lib.Dag.le_rfl, hbase⟩
  obtain ⟨hread, hlog⟩ := replayImportedCommits_ok hres
  have hcall := replayImportedCommits_eq himp hread hlog
  by_cases hne : commitsToReplay repo mergeBase imported (some fb) = []
  · rw [hcall, if_pos hne]
    exact hx
  · rw [if_neg hne, effectiveBase_of_mem hbase] at hcall
    rw [hcall] at hres ⊢
    obtain ⟨st, hrun, hstore, hmain, -⟩ := replayTo_ok hres
    rw [hstore, hmain]
    rcases hsafe with hout | hnil | hkeeps
    · rw [hlog] at hout
      cases hout
    · exact absurd hnil hne
    · rw [Env.SoundFor, effectiveBase_of_mem hbase] at henv
      exact keeps_run henv hl.mem_keys hstart (Lib.Dag.mem_keys_of_mem_ancestors hx)
        (hkeeps x hx hfin) hrun

/-- Whatever the merges give, a call that returns without error keeps the finalized commits
on `main` exactly if the graph and the list are safe for the base. -/
theorem finalized_history_kept_iff (repo : Repo) (mergeBase : Hash) {imported : List Commit}
    (himp : Stored repo.store imported) {fb : FinalizedBase} (hfb : Installable repo fb) :
    (∀ env : Env, env.SoundFor repo mergeBase imported (some fb) → ∀ n,
      (replayImportedCommits env repo mergeBase imported (some fb)).result = .ok n →
      ∀ x ∈ repo.store.dag.ancestors repo.main, finalizedBy repo.store fb x →
        x ∈ (replayImportedCommits env repo mergeBase imported (some fb)).repo.store.dag.ancestors
          (replayImportedCommits env repo mergeBase imported (some fb)).repo.main) ↔
      finalizedSafe repo mergeBase imported fb := by
  have hl := listed_commitsToReplay himp mergeBase (some fb)
  have hbase := hfb.mem_keys
  have hstart : Attached repo.store ⟨repo.store, fb.commitHash, 0, []⟩ :=
    ⟨Lib.Dag.le_rfl, hbase⟩
  constructor
  · intro h
    by_contra hsafe
    simp only [finalizedSafe, not_or, not_forall, Bool.not_eq_true] at hsafe
    obtain ⟨hlog, hne, x, hx, hfin, hkeeps⟩ := hsafe
    have hxk := Lib.Dag.mem_keys_of_mem_ancestors hx
    obtain ⟨pick, -, hlost⟩ := lost_of_not_keeps hl.mem_keys hl.nodup hxk hkeeps
    obtain ⟨st, hrun, hgone⟩ := hlost _ hstart rfl
    have hcall := replayImportedCommits_eq himp ((refuseAllBut_smooth pick).succeeds _) hlog
    rw [if_neg hne, effectiveBase_of_mem hbase] at hcall
    have hhead := replayCommits_head_mem (refuseAllBut_sound pick _ _) hstart.head_mem_store
      hl.mem_keys hrun
    have hres := replayTo_of_run (refuseAllBut_smooth pick) rfl hbase hrun hhead
    have hkept := h (refuseAllBut pick) (refuseAllBut_sound pick _ _) _ (hcall ▸ hres) x hx hfin
    obtain ⟨st', hrun', hstore, hmain, -⟩ := replayTo_ok hres
    rw [hrun] at hrun'
    obtain rfl := Except.ok.inj hrun'
    rw [hcall, hstore, hmain] at hkept
    exact hgone hkept
  · intro hsafe env henv n hres x hx hfin
    exact kept_of_finalizedSafe henv himp hbase hsafe hres hx hfin

end Exact

/-- Two concurrent commits, merged on `main` under the timestamp of the second, and a third
one from elsewhere. -/
def mergedRepo : Repo :=
  ⟨⟨⟨[userNode "commit-c" ["commit-i"] (written "carol" 7),
      userNode "commit-m" ["commit-b", "commit-a"] (mergeMetadata ⟨5, 0, "alice"⟩ 5),
      userNode "commit-b" ["commit-i"] (written "bob" 3),
      userNode "commit-a" ["commit-i"] (written "alice" 5), plainNode "commit-i" []],
      by decide +kernel⟩, by decide +kernel⟩, "commit-m", by decide +kernel⟩

def straightRepo : Repo :=
  ⟨⟨⟨[userNode "commit-c" ["commit-i"] (written "carol" 7),
      userNode "commit-a" ["commit-b"] (written "alice" 5),
      userNode "commit-b" ["commit-i"] (written "bob" 3), plainNode "commit-i" []],
      by decide +kernel⟩, by decide +kernel⟩, "commit-a", by decide +kernel⟩

theorem installable_of_heartbeat {repo : Repo} {fb : FinalizedBase} (peer : String)
    (hlc : HLCTimestamp)
    (h : (tryFinalize (AList.singleton peer hlc)
      (initIndexFromDB repo false .newMemoryCommitIndex)).finalizedBase = some fb) :
    Installable repo fb := by
  refine ⟨.newMemoryCommitIndex, AList.singleton peer hlc, ?_, h⟩
  rw [finalizedBase_initIndexFromDB]
  simp [MemoryCommitIndex.newMemoryCommitIndex]

def carolImported (s : Store) : List Commit := ["commit-c"].filterMap s.commit?

theorem finalized_history_kept_iff_on_straight :
    finalizedBy straightRepo.store ⟨⟨5, 0, "alice"⟩, "commit-a"⟩ "commit-b" ∧
      "commit-b" ∈ (replayImportedCommits (refuseAllBut (some "commit-c")) straightRepo "commit-i"
        (carolImported straightRepo.store)
        (some ⟨⟨5, 0, "alice"⟩, "commit-a"⟩)).repo.store.dag.ancestors
          (replayImportedCommits (refuseAllBut (some "commit-c")) straightRepo "commit-i"
            (carolImported straightRepo.store)
            (some ⟨⟨5, 0, "alice"⟩, "commit-a"⟩)).repo.main :=
  ⟨by decide +kernel, (finalized_history_kept_iff straightRepo "commit-i" (by decide +kernel)
    (installable_of_heartbeat "carol" ⟨6, 0, "carol"⟩ (by decide +kernel))).mpr
      (by decide +kernel) _ (refuseAllBut_sound _ _ _) 1 (by decide +kernel) "commit-b"
      (by decide +kernel) (by decide +kernel)⟩

/-- The base is `commit-a`, so the merge and with it `commit-b` are left behind. -/
theorem replay_from_base_drops_finalized :
    (refuseAllBut (some "commit-c")).SoundFor mergedRepo "commit-i"
        (carolImported mergedRepo.store) (some ⟨⟨5, 0, "alice"⟩, "commit-a"⟩) ∧
      Stored mergedRepo.store (carolImported mergedRepo.store) ∧
      Installable mergedRepo ⟨⟨5, 0, "alice"⟩, "commit-a"⟩ ∧
      (replayImportedCommits (refuseAllBut (some "commit-c")) mergedRepo "commit-i"
        (carolImported mergedRepo.store) (some ⟨⟨5, 0, "alice"⟩, "commit-a"⟩)).result = .ok 1 ∧
      "commit-b" ∈ mergedRepo.store.dag.ancestors mergedRepo.main ∧
      finalizedBy mergedRepo.store ⟨⟨5, 0, "alice"⟩, "commit-a"⟩ "commit-b" ∧
      "commit-b" ∉ (replayImportedCommits (refuseAllBut (some "commit-c")) mergedRepo "commit-i"
        (carolImported mergedRepo.store)
        (some ⟨⟨5, 0, "alice"⟩, "commit-a"⟩)).repo.store.dag.ancestors
          (replayImportedCommits (refuseAllBut (some "commit-c")) mergedRepo "commit-i"
            (carolImported mergedRepo.store)
            (some ⟨⟨5, 0, "alice"⟩, "commit-a"⟩)).repo.main :=
  ⟨refuseAllBut_sound _ _ _, by decide +kernel,
    installable_of_heartbeat "carol" ⟨6, 0, "carol"⟩ (by decide +kernel), by decide +kernel,
    by decide +kernel, by decide +kernel, by decide +kernel⟩

end DoltSwarm.Core
