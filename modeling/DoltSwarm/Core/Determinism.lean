import DoltSwarm.Core.ReplayReach

/-!
# Two replicas that replay the same commits

Hashes are now a function of what a commit records, and the outcome of a merge a function of
the two commits. Clocks, map orders and the failures of a call are left to each replica. A
commit made by a replay records the time it was made at, so two replicas agree only on
replays that make none.
-/

namespace DoltSwarm.Core

set_option autoImplicit false

/-- Dolt as all replicas see it. Commits of different dates have different hashes, and a
merge that is refused reports a conflict. -/
structure Dolt where
  hashOf : List Hash → CommitBody → Hash
  merge : Hash → Hash → MergeOutcome
  named : ∀ parents body, hashOf parents body ≠ ""
  dated : ∀ parents body parents' body', hashOf parents body = hashOf parents' body' →
    body.date = body'.date
  conflicts : ∀ head commit err, merge head commit = .refused err → isConflictError err = true

structure Replica where
  mergeStamp : ℕ → Stamp
  now : ℕ → Int
  fails : SqlCall → Bool
  answers : ∀ commit, fails (.firstParent commit) = false
  mainAdvances : Bool
  order : RangeOrder CommitWithMeta

def Replica.env (r : Replica) (dolt : Dolt) : Env where
  newHash _ := dolt.hashOf
  merge := dolt.merge
  mergeStamp := r.mergeStamp
  now := r.now
  fails := r.fails
  mainAdvances := r.mainAdvances
  order := r.order

def MergeOutcome.isMerged : MergeOutcome → Bool
  | .merged _ => true
  | .refused _ => false

/-- Each commit continues the branch by its first parent, or is unrelated to it and refused. -/
def makesNoCommit (dolt : Dolt) (s : Store) : Hash → List Hash → Prop
  | _, [] => True
  | head, commit :: rest =>
    if isChildOf s commit head then makesNoCommit dolt s commit rest
    else commit ∉ s.dag.ancestors head ∧ head ∉ s.dag.ancestors commit ∧
      (dolt.merge head commit).isMerged = false ∧ makesNoCommit dolt s head rest

instance decidableMakesNoCommit (dolt : Dolt) (s : Store) :
    ∀ (head : Hash) (commits : List Hash), Decidable (makesNoCommit dolt s head commits)
  | _, [] => instDecidableTrue
  | head, commit :: rest =>
    have := decidableMakesNoCommit dolt s commit rest
    have := decidableMakesNoCommit dolt s head rest
    inferInstanceAs (Decidable (if isChildOf s commit head then makesNoCommit dolt s commit rest
      else commit ∉ s.dag.ancestors head ∧ head ∉ s.dag.ancestors commit ∧
        (dolt.merge head commit).isMerged = false ∧ makesNoCommit dolt s head rest))

def endsAt (s : Store) : Hash → List Hash → Hash
  | head, [] => head
  | head, commit :: rest =>
    if isChildOf s commit head then endsAt s commit rest else endsAt s head rest

section Rounds

variable {dolt : Dolt} {r : Replica} {g : Store} {st st' : ReplayState} {cwm : CommitWithMeta}

theorem doltMerge_mem {s s' : Store} {head commit head' : Hash} {n : ℕ}
    (hhead : head ∈ s.dag.keys) (h : doltMerge (r.env dolt) s head commit n = .ok (s', head')) :
    s.dag ≤ s'.dag ∧ head' ∈ s'.dag.keys ∧ (commit ∈ s.dag.ancestors head ∨
      head ∈ s.dag.ancestors commit ∨ (dolt.merge head commit).isMerged = true) := by
  unfold doltMerge at h
  split_ifs at h with hmem hup hdown
  · obtain ⟨rfl, rfl⟩ := Prod.mk.inj (Except.ok.inj h)
    exact ⟨Lib.Dag.le_rfl, hhead, Or.inl hup⟩
  · obtain ⟨rfl, rfl⟩ := Prod.mk.inj (Except.ok.inj h)
    exact ⟨Lib.Dag.le_rfl, hmem, Or.inr (Or.inl hdown)⟩
  · split at h
    · cases h
    · next root hroot =>
      obtain ⟨rfl, rfl⟩ := Prod.mk.inj (Except.ok.inj h)
      have hparents : ∀ p ∈ [head, commit], p ∈ s.dag.keys := by simp [hhead, hmem]
      have hmerged : dolt.merge head commit = .merged root := hroot
      exact ⟨s.le_add _, Store.mem_keys_add (dolt.named _ _) hparents,
        Or.inr (Or.inr (by rw [hmerged]; rfl))⟩

theorem doltAmend_made (r : Replica) (dolt : Dolt) {s : Store} {head : Hash}
    (hhead : head ∈ s.dag.keys) (stamp : Stamp) :
    s.dag ≤ (doltAmend (r.env dolt) s head stamp).1.dag ∧
      (doltAmend (r.env dolt) s head stamp).2 ∈ (doltAmend (r.env dolt) s head stamp).1.dag.keys ∧
      ∃ parents body, (doltAmend (r.env dolt) s head stamp).2 = dolt.hashOf parents body ∧
        body.date = stamp.date := by
  obtain ⟨n, hn⟩ := Lib.Dag.exists_lookup hhead
  have hparents : ∀ p ∈ n.links, p ∈ s.dag.keys := fun p hp =>
    Lib.Dag.mem_keys_of_mem_links (Lib.Dag.links_of_lookup hn ▸ hp)
  simp only [doltAmend, hn, makeCommit]
  exact ⟨s.le_add _, Store.mem_keys_add (dolt.named _ _) hparents, _, _, rfl, rfl⟩

structure Dated (dolt : Dolt) (g : Store) (t : Int) (st : ReplayState) : Prop where
  grown : g.dag ≤ st.store.dag
  head_mem : st.headHash ∈ st.store.dag.keys
  made : ∃ parents body, st.headHash = dolt.hashOf parents body ∧ body.date = t

def unusedDate (dolt : Dolt) (g : Store) (t : Int) : Prop :=
  ∀ parents body, body.date = t → dolt.hashOf parents body ∉ g.dag.keys

theorem Dated.off {t : Int} (h : Dated dolt g t st) (ht : unusedDate dolt g t) :
    st.headHash ∉ g.dag.keys := by
  obtain ⟨parents, body, heq, hdate⟩ := h.made
  rw [heq]
  exact ht parents body hdate

theorem Replica.round (hgrown : g.dag ≤ st.store.dag) (hhead : st.headHash ∈ st.store.dag.keys)
    (h : replayCommit (r.env dolt) st cwm = .ok st') :
    (isChildOf st.store cwm.commit.hash st.headHash ∧
      st' = { st with headHash := cwm.commit.hash }) ∨
    (¬ isChildOf st.store cwm.commit.hash st.headHash ∧
      cwm.commit.hash ∉ st.store.dag.ancestors st.headHash ∧
      st.headHash ∉ st.store.dag.ancestors cwm.commit.hash ∧
      (dolt.merge st.headHash cwm.commit.hash).isMerged = false ∧
      st' = { st with rejected := st.rejected ++ [rejection cwm] }) ∨
    (¬ isChildOf st.store cwm.commit.hash st.headHash ∧
      (cwm.commit.hash ∈ st.store.dag.ancestors st.headHash ∨
        st.headHash ∈ st.store.dag.ancestors cwm.commit.hash ∨
        (dolt.merge st.headHash cwm.commit.hash).isMerged = true) ∧
      Dated dolt g (r.now st.mergeCommits) st') := by
  rcases replayCommit_cases (r.answers _) h with hforward | ⟨hchild, err, herr, hc, rfl⟩ |
    ⟨hchild, store, head, amended, hok, rfl, rfl⟩
  · exact Or.inl hforward
  · obtain ⟨hup, hdown, hmerge⟩ := doltMerge_conflict herr hc
    have hrefused : dolt.merge st.headHash cwm.commit.hash = .refused err := hmerge
    exact Or.inr (Or.inl ⟨hchild, hup, hdown, by rw [hrefused]; rfl, rfl⟩)
  · obtain ⟨hle, hmem, hmerge⟩ := doltMerge_mem hhead hok
    obtain ⟨hle', hmem', hmade⟩ :=
      doltAmend_made r dolt hmem (amendStamp cwm.hlc (r.now st.mergeCommits))
    exact Or.inr (Or.inr ⟨hchild, hmerge,
      ⟨Lib.Dag.le_trans hgrown (Lib.Dag.le_trans hle hle'), hmem', hmade⟩⟩)

end Rounds

section Runs

variable {dolt : Dolt} {r : Replica} {g : Store} {t : Int} {st st' : ReplayState}
  {commits : List CommitWithMeta}

/-- All replicas end such a replay at the same commit. -/
theorem endsAt_run (hcommits : ∀ c ∈ hashes commits, c ∈ g.dag.keys) (h : Attached g st)
    (hno : makesNoCommit dolt g st.headHash (hashes commits))
    (hrun : replayCommits (r.env dolt) st commits = .ok st') :
    st'.headHash = endsAt g st.headHash (hashes commits) := by
  induction commits generalizing st with
  | nil =>
    obtain rfl := Except.ok.inj hrun
    rfl
  | cons cwm rest ih =>
    obtain ⟨mid, hstep, hrest⟩ := replayCommits_cons.mp hrun
    simp only [hashes, List.map_cons, List.mem_cons, forall_eq_or_imp] at hcommits
    rw [hashes, List.map_cons, makesNoCommit] at hno
    rw [hashes, List.map_cons, endsAt]
    have hround := Replica.round h.grown h.head_mem_store hstep
    rw [isChildOf_of_le h.grown hcommits.1, Lib.Dag.ancestors_of_le h.grown h.head_mem,
      Lib.Dag.ancestors_of_le h.grown hcommits.1] at hround
    rcases hround with ⟨hchild, rfl⟩ | ⟨hchild, -, -, -, rfl⟩ | ⟨hchild, hmerge, -⟩
    · rw [if_pos hchild] at hno ⊢
      have hmid : Attached g { st with headHash := cwm.commit.hash } := ⟨h.grown, hcommits.1⟩
      exact ih hcommits.2 hmid hno hrest
    · rw [if_neg hchild] at hno ⊢
      have hmid := h.rejected (st.rejected ++ [rejection cwm])
      have hend := ih hcommits.2 hmid hno.2.2.2 hrest
      exact hend
    · rw [if_neg hchild] at hno
      rcases hmerge with hup | hdown | hmerged
      · exact absurd hup hno.1
      · exact absurd hdown hno.2.1
      · rw [hno.2.2.1] at hmerged
        cases hmerged

theorem Dated.run (ht : unusedDate dolt g t) (hnow : ∀ n, r.now n = t)
    (hcommits : ∀ c ∈ hashes commits, c ∈ g.dag.keys) (h : Dated dolt g t st)
    (hrun : replayCommits (r.env dolt) st commits = .ok st') : Dated dolt g t st' := by
  induction commits generalizing st with
  | nil =>
    obtain rfl := Except.ok.inj hrun
    exact h
  | cons cwm rest ih =>
    obtain ⟨mid, hstep, hrest⟩ := replayCommits_cons.mp hrun
    simp only [hashes, List.map_cons, List.mem_cons, forall_eq_or_imp] at hcommits
    rcases Replica.round h.grown h.head_mem hstep with ⟨hchild, -⟩ | ⟨-, -, -, -, rfl⟩ |
      ⟨-, -, hdated⟩
    · rw [isChildOf_of_le h.grown hcommits.1] at hchild
      exact absurd (Lib.Dag.mem_keys_of_mem_links (mem_links_of_isChildOf hchild)) (h.off ht)
    · have hmid : Dated dolt g t { st with rejected := st.rejected ++ [rejection cwm] } :=
        ⟨h.grown, h.head_mem, h.made⟩
      exact ih hcommits.2 hmid hrest
    · exact ih hcommits.2 (hnow _ ▸ hdated) hrest

theorem dated_run (ht : unusedDate dolt g t) (hnow : ∀ n, r.now n = t)
    (hcommits : ∀ c ∈ hashes commits, c ∈ g.dag.keys) (h : Attached g st)
    (hsome : ¬ makesNoCommit dolt g st.headHash (hashes commits))
    (hrun : replayCommits (r.env dolt) st commits = .ok st') : Dated dolt g t st' := by
  induction commits generalizing st with
  | nil => exact absurd trivial hsome
  | cons cwm rest ih =>
    obtain ⟨mid, hstep, hrest⟩ := replayCommits_cons.mp hrun
    simp only [hashes, List.map_cons, List.mem_cons, forall_eq_or_imp] at hcommits
    rw [hashes, List.map_cons, makesNoCommit] at hsome
    have hround := Replica.round h.grown h.head_mem_store hstep
    rw [isChildOf_of_le h.grown hcommits.1, Lib.Dag.ancestors_of_le h.grown h.head_mem,
      Lib.Dag.ancestors_of_le h.grown hcommits.1] at hround
    rcases hround with ⟨hchild, rfl⟩ | ⟨hchild, hup, hdown, hno, rfl⟩ | ⟨-, -, hdated⟩
    · rw [if_pos hchild] at hsome
      have hmid : Attached g { st with headHash := cwm.commit.hash } := ⟨h.grown, hcommits.1⟩
      exact ih hcommits.2 hmid hsome hrest
    · rw [if_neg hchild] at hsome
      have hmid := h.rejected (st.rejected ++ [rejection cwm])
      exact ih hcommits.2 hmid (fun hrec => hsome ⟨hup, hdown, hno, hrec⟩) hrest
    · exact Dated.run ht hnow hcommits.2 (hnow _ ▸ hdated) hrest

theorem replayCommits_total (hsmooth : (r.env dolt).Smooth)
    (hhead : st.headHash ∈ st.store.dag.keys)
    (hcommits : ∀ c ∈ hashes commits, c ∈ st.store.dag.keys) :
    ∃ st', replayCommits (r.env dolt) st commits = .ok st' ∧
      st'.headHash ∈ st'.store.dag.keys := by
  induction commits generalizing st with
  | nil => exact ⟨st, rfl, hhead⟩
  | cons cwm rest ih =>
    simp only [hashes, List.map_cons, List.mem_cons, forall_eq_or_imp] at hcommits
    obtain ⟨mid, hstep⟩ := replayCommit_total hsmooth hcommits.1
    have hmid : mid.headHash ∈ mid.store.dag.keys ∧ st.store.dag ≤ mid.store.dag := by
      rcases Replica.round Lib.Dag.le_rfl hhead hstep with ⟨-, rfl⟩ | ⟨-, -, -, -, rfl⟩ |
        ⟨-, -, hdated⟩
      · exact ⟨hcommits.1, Lib.Dag.le_rfl⟩
      · exact ⟨hhead, Lib.Dag.le_rfl⟩
      · exact ⟨hdated.head_mem, hdated.grown⟩
    obtain ⟨st', hrun, hhead'⟩ := ih hmid.1 fun c hc =>
      Lib.Dag.keys_subset hmid.2 (hcommits.2 c hc)
    exact ⟨st', replayCommits_cons.mpr ⟨mid, hstep, hrun⟩, hhead'⟩

theorem exists_unusedDates (dolt : Dolt) (g : Store) :
    ∃ t₁ t₂, unusedDate dolt g t₁ ∧ unusedDate dolt g t₂ ∧ t₁ ≠ t₂ := by
  classical
  let dateOf : Hash → Int := fun k =>
    if h : ∃ parents body, dolt.hashOf parents body = k then h.choose_spec.choose.date else 0
  have hused : {t | ¬ unusedDate dolt g t} ⊆ dateOf '' {k | k ∈ g.dag.keys} := by
    intro t ht
    simp only [unusedDate, Set.mem_ofPred_eq, not_forall, not_not] at ht
    obtain ⟨parents, body, hdate, hmem⟩ := ht
    refine ⟨_, hmem, ?_⟩
    have hex : ∃ ps b, dolt.hashOf ps b = dolt.hashOf parents body := ⟨parents, body, rfl⟩
    have hval : dateOf (dolt.hashOf parents body) = hex.choose_spec.choose.date := dif_pos hex
    rw [hval, ← hdate]
    exact dolt.dated _ _ _ _ hex.choose_spec.choose_spec
  have hfin : {t | ¬ unusedDate dolt g t}.Finite :=
    ((List.finite_toSet g.dag.keys).image dateOf).subset hused
  obtain ⟨t₁, h₁, t₂, h₂, hne⟩ := hfin.infinite_compl.nontrivial
  simp only [Set.mem_compl_iff, Set.mem_ofPred_eq, not_not] at h₁ h₂
  exact ⟨t₁, t₂, h₁, h₂, hne⟩

end Runs

section Agreement

variable {dolt : Dolt} {g : Store} {t : Int}

def onTime (t : Int) : Replica where
  mergeStamp _ := ⟨"", "", t, .text ""⟩
  now _ := t
  fails _ := false
  answers _ := rfl
  mainAdvances := false
  order := RangeOrder.asStored CommitWithMeta

theorem onTime_smooth (t : Int) (dolt : Dolt) : ((onTime t).env dolt).Smooth :=
  ⟨fun _ => rfl, dolt.conflicts⟩

/-- The two replicas are at the same commit already, or make no commit on the way. -/
def replicasAgree (dolt : Dolt) (repo₁ repo₂ : Repo) (base : Hash)
    (commits : List CommitWithMeta) : Prop :=
  if commits = [] then repo₁.main = repo₂.main
  else base ∈ repo₁.store.dag.keys → makesNoCommit dolt repo₁.store base (hashes commits)

instance (dolt : Dolt) (repo₁ repo₂ : Repo) (base : Hash) (commits : List CommitWithMeta) :
    Decidable (replicasAgree dolt repo₁ repo₂ base commits) :=
  inferInstanceAs (Decidable (if commits = [] then repo₁.main = repo₂.main
    else base ∈ repo₁.store.dag.keys → makesNoCommit dolt repo₁.store base (hashes commits)))

/-- A replay that makes a commit can end, at an unused date, at a commit of that date. -/
theorem exists_dated_call {repo : Repo} {base : Hash} {commits : List CommitWithMeta}
    (hbase : base ∈ repo.store.dag.keys) (hl : Listed repo.store commits)
    (hsome : ¬ makesNoCommit dolt repo.store base (hashes commits))
    (ht : unusedDate dolt repo.store t) :
    ∃ n parents body, body.date = t ∧
      (replayToTempBranchThenUpdateMain ((onTime t).env dolt) repo base repo.main
        commits).result = .ok n ∧
      (replayToTempBranchThenUpdateMain ((onTime t).env dolt) repo base repo.main
        commits).repo.main = dolt.hashOf parents body := by
  have hstart : Attached repo.store ⟨repo.store, base, 0, []⟩ := ⟨Lib.Dag.le_rfl, hbase⟩
  obtain ⟨st, hrun, hhead⟩ := replayCommits_total (onTime_smooth t dolt) hstart.head_mem_store
    hl.mem_keys
  have hres := replayTo_of_run (onTime_smooth t dolt) rfl hbase hrun hhead
  obtain ⟨parents, body, hmade, hdate⟩ :=
    (dated_run ht (fun _ => rfl) hl.mem_keys hstart hsome hrun).made
  obtain ⟨st', hrun', -, hmain, -⟩ := replayTo_ok hres
  rw [hrun] at hrun'
  obtain rfl := Except.ok.inj hrun'
  exact ⟨st.mergeCommits, parents, body, hdate, hres, hmain.trans hmade⟩

theorem replay_endsAt {r : Replica} {repo : Repo} {base : Hash} {commits : List CommitWithMeta}
    {n : ℕ} (hl : Listed repo.store commits)
    (hno : base ∈ repo.store.dag.keys → makesNoCommit dolt repo.store base (hashes commits))
    (hres : (replayToTempBranchThenUpdateMain (r.env dolt) repo base repo.main
      commits).result = .ok n) :
    (replayToTempBranchThenUpdateMain (r.env dolt) repo base repo.main commits).repo.main =
      endsAt repo.store base (hashes commits) := by
  have hbase := replayTo_base_mem hres
  obtain ⟨st, hrun, -, hmain, -⟩ := replayTo_ok hres
  rw [hmain]
  have hstart : Attached repo.store ⟨repo.store, base, 0, []⟩ := ⟨Lib.Dag.le_rfl, hbase⟩
  exact endsAt_run hl.mem_keys hstart (hno hbase) hrun

/-- Two replicas that replay the same user commits of one graph from one base end at the same
commit, whatever their clocks and map orders, exactly if they agree without making a commit. -/
theorem replicas_end_at_same_head_iff (dolt : Dolt) {repo₁ repo₂ : Repo}
    (hstore : repo₂.store = repo₁.store) {mergeBase₁ mergeBase₂ : Hash}
    {imported₁ imported₂ : List Commit} {fb₁ fb₂ : Option FinalizedBase}
    (himp₁ : Stored repo₁.store imported₁) (himp₂ : Stored repo₂.store imported₂)
    (hbase : effectiveBase mergeBase₂ fb₂ = effectiveBase mergeBase₁ fb₁)
    (hsame : ∀ x,
      x ∈ userCommits fb₁ (localCommits repo₁ (effectiveBase mergeBase₁ fb₁) ++ imported₁) ↔
      x ∈ userCommits fb₂ (localCommits repo₂ (effectiveBase mergeBase₂ fb₂) ++ imported₂)) :
    (∀ (r₁ r₂ : Replica) (n₁ n₂ : ℕ),
      (replayImportedCommits (r₁.env dolt) repo₁ mergeBase₁ imported₁ fb₁).result = .ok n₁ →
      (replayImportedCommits (r₂.env dolt) repo₂ mergeBase₂ imported₂ fb₂).result = .ok n₂ →
      (replayImportedCommits (r₁.env dolt) repo₁ mergeBase₁ imported₁ fb₁).repo.main =
        (replayImportedCommits (r₂.env dolt) repo₂ mergeBase₂ imported₂ fb₂).repo.main) ↔
    logsOutOfRange mergeBase₁ fb₁ = true ∨ logsOutOfRange mergeBase₂ fb₂ = true ∨
      replicasAgree dolt repo₁ repo₂ (effectiveBase mergeBase₁ fb₁)
        (commitsToReplay repo₁ mergeBase₁ imported₁ fb₁) := by
  have hlist : commitsToReplay repo₂ mergeBase₂ imported₂ fb₂ =
      commitsToReplay repo₁ mergeBase₁ imported₁ fb₁ := by
    have hs₂ := stored_localCommits himp₂ (effectiveBase mergeBase₂ fb₂)
    rw [hstore] at hs₂
    exact collectUserCommits_congr hs₂ (stored_localCommits himp₁ _) fun x => (hsame x).symm
  have hl₁ := listed_commitsToReplay himp₁ mergeBase₁ fb₁
  have hl₂ := listed_commitsToReplay himp₂ mergeBase₂ fb₂
  rw [hlist] at hl₂
  constructor
  · intro h
    by_contra hdiffer
    simp only [not_or, Bool.not_eq_true] at hdiffer
    obtain ⟨hlog₁, hlog₂, hagree⟩ := hdiffer
    have hcall₁ := fun t =>
      replayImportedCommits_eq himp₁ ((onTime_smooth t dolt).succeeds _) hlog₁
    have hcall₂ := fun t =>
      replayImportedCommits_eq himp₂ ((onTime_smooth t dolt).succeeds _) hlog₂
    rw [hlist, hbase] at hcall₂
    unfold replicasAgree at hagree
    split_ifs at hagree with hnil
    · simp only [if_pos hnil] at hcall₁ hcall₂
      have hmain := h (onTime 0) (onTime 0) 0 0 (by rw [hcall₁]) (by rw [hcall₂])
      rw [hcall₁, hcall₂] at hmain
      exact hagree hmain
    · simp only [if_neg hnil] at hcall₁ hcall₂
      obtain ⟨hmem, hsome⟩ := Classical.not_imp.mp hagree
      obtain ⟨t₁, t₂, ht₁, ht₂, hne⟩ := exists_unusedDates dolt repo₁.store
      obtain ⟨n₁, ps₁, b₁, hd₁, hres₁, hmain₁⟩ := exists_dated_call hmem hl₁ hsome ht₁
      obtain ⟨n₂, ps₂, b₂, hd₂, hres₂, hmain₂⟩ :=
        exists_dated_call (hstore ▸ hmem) hl₂ (hstore ▸ hsome) (hstore ▸ ht₂)
      have hmain := h (onTime t₁) (onTime t₂) n₁ n₂ (by rw [hcall₁, hres₁]) (by rw [hcall₂, hres₂])
      rw [hcall₁, hcall₂, hmain₁, hmain₂] at hmain
      exact hne (hd₁ ▸ hd₂ ▸ dolt.dated _ _ _ _ hmain)
  · intro hcond r₁ r₂ n₁ n₂ hres₁ hres₂
    obtain ⟨hread₁, hlog₁⟩ := replayImportedCommits_ok hres₁
    obtain ⟨hread₂, hlog₂⟩ := replayImportedCommits_ok hres₂
    have hagree := (hcond.resolve_left (by simp [hlog₁])).resolve_left (by simp [hlog₂])
    have hcall₁ := replayImportedCommits_eq himp₁ hread₁ hlog₁
    have hcall₂ := replayImportedCommits_eq himp₂ hread₂ hlog₂
    rw [hlist, hbase] at hcall₂
    unfold replicasAgree at hagree
    split_ifs at hagree with hnil
    · rw [hcall₁, hcall₂, if_pos hnil, if_pos hnil]
      exact hagree
    · rw [if_neg hnil] at hcall₁ hcall₂
      rw [hcall₁] at hres₁ ⊢
      rw [hcall₂] at hres₂ ⊢
      rw [replay_endsAt hl₁ hagree hres₁, replay_endsAt hl₂ (hstore ▸ hagree) hres₂, hstore]

end Agreement

def datedDolt : Dolt where
  hashOf _ body := "commit-at-" ++ body.date.repr
  merge _ _ := .merged "merged-root"
  named _ _ h := by simp at h
  dated _ _ _ _ h := by
    have hlist := congrArg String.toList h
    rw [String.toList_append, String.toList_append] at hlist
    exact Int.repr_inj.mp (String.toList_inj.mp (List.append_cancel_left hlist))
  conflicts _ _ _ h := by cases h

def chainStore : Store :=
  ⟨⟨[userNode "commit-b" ["commit-a"] (written "bob" 9),
    userNode "commit-a" ["commit-i"] (written "alice" 5), plainNode "commit-i" []],
    by decide +kernel⟩, by decide +kernel⟩

def aheadRepo : Repo := ⟨chainStore, "commit-a", by decide +kernel⟩

def behindRepo : Repo := ⟨chainStore, "commit-i", by decide +kernel⟩

def importedByAhead : List Commit := ["commit-b"].filterMap chainStore.commit?

def importedByBehind : List Commit := ["commit-b", "commit-a"].filterMap chainStore.commit?

theorem replicas_end_at_same_head_iff_on_chain :
    (replayImportedCommits ((onTime 1).env datedDolt) aheadRepo "commit-i" importedByAhead
      none).repo.main =
    (replayImportedCommits ((onTime 2).env datedDolt) behindRepo "commit-i" importedByBehind
      none).repo.main := by
  have hstore : behindRepo.store = aheadRepo.store := rfl
  have himp₁ : Stored aheadRepo.store importedByAhead := by decide +kernel
  have himp₂ : Stored behindRepo.store importedByBehind := by decide +kernel
  have hperm : (userCommits none (localCommits aheadRepo (effectiveBase "commit-i" none) ++
      importedByAhead)).Perm (userCommits none (localCommits behindRepo
        (effectiveBase "commit-i" none) ++ importedByBehind)) := by decide +kernel
  exact (replicas_end_at_same_head_iff datedDolt hstore himp₁ himp₂ rfl
    fun x => hperm.mem_iff).mpr (Or.inr (Or.inr (by decide +kernel))) (onTime 1) (onTime 2) 0 0
    (by decide +kernel) (by decide +kernel)

/-- The merge of `commit-b` is a commit of the time it is made at. -/
theorem replicas_diverge_by_clock :
    (replayImportedCommits ((onTime 1).env datedDolt) forkRepo "commit-i"
      (["commit-a"].filterMap forkRepo.store.commit?) none).result = .ok 1 ∧
    (replayImportedCommits ((onTime 2).env datedDolt) forkRepo "commit-i"
      (["commit-a"].filterMap forkRepo.store.commit?) none).result = .ok 1 ∧
    (replayImportedCommits ((onTime 1).env datedDolt) forkRepo "commit-i"
      (["commit-a"].filterMap forkRepo.store.commit?) none).repo.main = "commit-at-1" ∧
    (replayImportedCommits ((onTime 2).env datedDolt) forkRepo "commit-i"
      (["commit-a"].filterMap forkRepo.store.commit?) none).repo.main = "commit-at-2" := by
  refine ⟨?_, ?_, ?_, ?_⟩ <;> decide +kernel

end DoltSwarm.Core
