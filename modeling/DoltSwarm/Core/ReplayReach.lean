import DoltSwarm.Core.ReplayMoves

/-!
# What a replay keeps in reach

As long as the branch of a replay is at a commit of the graph it started from, the shape of
that graph decides what an amend loses. Once it is at a commit of its own, nothing of the
graph can be lost any more. `keeps` says of a commit that it stays in reach whatever the
merges give, and an environment that refuses all merges but one shows that it is exact.
-/

namespace DoltSwarm.Core

set_option autoImplicit false

/-- `x` is reached from the branch after the listed commits are replayed from `head`. -/
def keeps (s : Store) (x : Hash) : Hash → List Hash → Prop
  | head, [] => x ∈ s.dag.ancestors head
  | head, commit :: rest =>
    if isChildOf s commit head then keeps s x commit rest
    else survivesAmend s head commit x ∧
      (commit ∈ s.dag.ancestors head ∨ head ∈ s.dag.ancestors commit ∨ keeps s x head rest)

instance decidableKeeps (s : Store) (x : Hash) :
    ∀ (head : Hash) (commits : List Hash), Decidable (keeps s x head commits)
  | head, [] => inferInstanceAs (Decidable (x ∈ s.dag.ancestors head))
  | head, commit :: rest =>
    have := decidableKeeps s x commit rest
    have := decidableKeeps s x head rest
    inferInstanceAs (Decidable (if isChildOf s commit head then keeps s x commit rest
      else survivesAmend s head commit x ∧
        (commit ∈ s.dag.ancestors head ∨ head ∈ s.dag.ancestors commit ∨ keeps s x head rest)))

def hashes (commits : List CommitWithMeta) : List Hash := commits.map fun cwm => cwm.commit.hash

/-- What the replay needs to know of the list: its commits are in the store, are user commits
with the noted timestamps, and come in ascending order. -/
structure Listed (g : Store) (commits : List CommitWithMeta) : Prop where
  stored : ∀ c ∈ commits, g.commit? c.commit.hash = some c.commit
  parsed : ∀ c ∈ commits, ∃ m, parseCommitMetadata c.commit.message = some m ∧ m.hlc = c.hlc
  ordered : commits.Pairwise fun a b => a.commit.hash ≠ b.commit.hash ∧
    (a.hlc.isZero = true ∧ b.hlc.isZero = true ∨ hlcBefore a.hlc b.hlc)

theorem listed_collectUserCommits {g : Store} {ours imported : List Commit}
    (hs : Stored g (ours ++ imported)) (order : RangeOrder CommitWithMeta)
    (fb : Option FinalizedBase) : Listed g (collectUserCommits order ours imported fb) where
  stored _ hc := stored_of_collected hs hc
  parsed c hc := by
    have hx := (mem_userCommits.mp (mem_userCommits_of_collected hc)).2
    obtain ⟨-, -, m, hm, -, hhlc⟩ := userCommit_eq_some_iff.mp hx
    exact ⟨m, hm, hhlc⟩
  ordered := collected_pairwise hs

section Lists

variable {g : Store} {commits done rest : List CommitWithMeta}

theorem Listed.mem_keys (h : Listed g commits) : ∀ c ∈ hashes commits, c ∈ g.dag.keys := by
  intro x hx
  obtain ⟨c, hc, rfl⟩ := List.mem_map.mp hx
  exact Store.mem_keys_of_commit? (h.stored c hc)

theorem Listed.nodup (h : Listed g commits) : (hashes commits).Nodup := by
  rw [hashes, List.nodup_iff_pairwise_ne, List.pairwise_map]
  exact h.ordered.imp fun hab => hab.1

theorem Listed.metadata (h : Listed g commits) {c : CommitWithMeta} (hc : c ∈ commits) :
    ∃ m, parseCommitMetadata c.commit.message = some m ∧ m.hlc = c.hlc ∧
      g.metadata? c.commit.hash = some m := by
  obtain ⟨m, hm, hhlc⟩ := h.parsed c hc
  exact ⟨m, hm, hhlc, by simp [Store.metadata?, h.stored c hc, hm]⟩

theorem Listed.hash_ne (h : Listed g (done ++ rest)) {a b : CommitWithMeta} (ha : a ∈ done)
    (hb : b ∈ rest) : a.commit.hash ≠ b.commit.hash :=
  ((List.pairwise_append.mp h.ordered).2.2 a ha b hb).1

/-- A timestamp comes back further on in the list only if it is the zero timestamp, and then
nothing else comes. -/
theorem Listed.hlc_eq (h : Listed g (done ++ rest)) {a b c : CommitWithMeta} (ha : a ∈ done)
    (hb : b ∈ rest) (hc : c ∈ rest) (heq : b.hlc = a.hlc) : c.hlc = a.hlc := by
  have hord := (List.pairwise_append.mp h.ordered).2.2 a ha
  have hzero : a.hlc.isZero = true := by
    rcases (hord b hb).2 with hz | hbefore
    · exact hz.1
    · exact absurd (heq ▸ hbefore) (hlcBefore_irrefl _)
  rcases (hord c hc).2 with hz | hbefore
  · rw [(HLCTimestamp.isZero_iff _).mp hz.2, (HLCTimestamp.isZero_iff _).mp hzero]
  · rw [hbefore.1] at hzero
    cases hzero

theorem Listed.cons_hash_ne {c : CommitWithMeta} (h : Listed g (done ++ c :: rest))
    {b : CommitWithMeta} (hb : b ∈ rest) : c.commit.hash ≠ b.commit.hash :=
  ((List.pairwise_cons.mp (List.pairwise_append.mp h.ordered).2.1).1 b hb).1

end Lists

section Phases

variable {env : Env} {g : Store} {st st' : ReplayState} {cwm : CommitWithMeta}

structure Attached (g : Store) (st : ReplayState) : Prop where
  grown : g.dag ≤ st.store.dag
  head_mem : st.headHash ∈ g.dag.keys

structure Detached (g : Store) (st : ReplayState) : Prop where
  grown : g.dag ≤ st.store.dag
  head_mem : st.headHash ∈ st.store.dag.keys
  off : st.headHash ∉ g.dag.keys

theorem Attached.head_mem_store (h : Attached g st) : st.headHash ∈ st.store.dag.keys :=
  Lib.Dag.keys_subset h.grown h.head_mem

theorem isChildOf_of_le {g s : Store} (h : g.dag ≤ s.dag) {commit head : Hash}
    (hc : commit ∈ g.dag.keys) : isChildOf s commit head ↔ isChildOf g commit head := by
  rw [isChildOf, isChildOf, Lib.Dag.links_of_le h hc]

theorem survivesAmend_of_le {g s : Store} (h : g.dag ≤ s.dag) {head commit x : Hash}
    (hhead : head ∈ g.dag.keys) (hc : commit ∈ g.dag.keys) :
    survivesAmend s head commit x ↔ survivesAmend g head commit x := by
  rw [survivesAmend, survivesAmend, Lib.Dag.ancestors_of_le h hhead,
    Lib.Dag.ancestors_of_le h hc]

theorem Attached.amended (h : Attached g st) (ha : Amended env st cwm st') :
    Detached g st' :=
  ⟨Lib.Dag.le_trans h.grown ha.grown, ha.head_mem,
    fun hk => ha.fresh (Lib.Dag.keys_subset h.grown hk)⟩

theorem Attached.mem_ancestors (h : Attached g st) (ha : Amended env st cwm st')
    (hc : cwm.commit.hash ∈ g.dag.keys) (x : Hash) :
    x ∈ st'.store.dag.ancestors st'.headHash ↔
      x = st'.headHash ∨ survivesAmend g st.headHash cwm.commit.hash x := by
  rw [ha.mem_ancestors h.head_mem_store (Lib.Dag.keys_subset h.grown hc),
    survivesAmend_of_le h.grown h.head_mem hc]

theorem Detached.not_child (h : Detached g st) {commit : Hash} (hc : commit ∈ g.dag.keys) :
    ¬ isChildOf st.store commit st.headHash := by
  intro hchild
  rw [isChildOf_of_le h.grown hc] at hchild
  exact h.off (Lib.Dag.mem_keys_of_mem_links (mem_links_of_isChildOf hchild))

theorem Detached.not_below (h : Detached g st) {commit : Hash} (hc : commit ∈ g.dag.keys) :
    st.headHash ∉ st.store.dag.ancestors commit := by
  rw [Lib.Dag.ancestors_of_le h.grown hc]
  exact fun hk => h.off (Lib.Dag.mem_keys_of_mem_ancestors hk)

theorem Detached.amended (h : Detached g st) (ha : Amended env st cwm st') :
    Detached g st' :=
  ⟨Lib.Dag.le_trans h.grown ha.grown, ha.head_mem,
    fun hk => ha.fresh (Lib.Dag.keys_subset h.grown hk)⟩

theorem Detached.ne_head (h : Detached g st) {x : Hash} (hx : x ∈ g.dag.keys) :
    x ≠ st.headHash := fun heq => h.off (heq ▸ hx)

theorem Detached.mem_ancestors (h : Detached g st) (ha : Amended env st cwm st')
    (hc : cwm.commit.hash ∈ g.dag.keys) (x : Hash) :
    x ∈ st'.store.dag.ancestors st'.headHash ↔ x = st'.headHash ∨
      if cwm.commit.hash ∈ st.store.dag.ancestors st.headHash then
        x ∈ st.store.dag.ancestors st.headHash ∧ x ≠ st.headHash
      else x ∈ st.store.dag.ancestors st.headHash ∨ x ∈ st.store.dag.ancestors cwm.commit.hash := by
  rw [ha.mem_ancestors h.head_mem (Lib.Dag.keys_subset h.grown hc), survivesAmend,
    if_neg (h.not_below hc)]

theorem Detached.rejected (h : Detached g st) (r : List (CommitAd × RejectionReason)) :
    Detached g { st with rejected := r } := ⟨h.grown, h.head_mem, h.off⟩

theorem Attached.rejected (h : Attached g st) (r : List (CommitAd × RejectionReason)) :
    Attached g { st with rejected := r } := ⟨h.grown, h.head_mem⟩

theorem Detached.keeps_run {commits : List CommitWithMeta} (henv : env.Sound st commits)
    (hcommits : ∀ c ∈ hashes commits, c ∈ g.dag.keys) (h : Detached g st) {x : Hash}
    (hx : x ∈ g.dag.keys) (hreach : x ∈ st.store.dag.ancestors st.headHash)
    (hrun : replayCommits env st commits = .ok st') :
    x ∈ st'.store.dag.ancestors st'.headHash := by
  induction commits generalizing st with
  | nil =>
    obtain rfl := Except.ok.inj hrun
    exact hreach
  | cons cwm rest ih =>
    obtain ⟨mid, hstep, hrest⟩ := replayCommits_cons.mp hrun
    obtain ⟨hround, hnext⟩ := henv.cons hstep
    simp only [hashes, List.map_cons, List.mem_cons, forall_eq_or_imp] at hcommits
    cases replayCommit_move hround h.head_mem hstep with
    | forward hchild => exact absurd hchild (h.not_child hcommits.1)
    | reject _ _ _ _ _ _ =>
      refine ih hnext hcommits.2 ?_ ?_ hrest
      · exact h.rejected _
      · exact hreach
    | amend _ _ ha =>
      refine ih hnext hcommits.2 (h.amended ha) ?_ hrest
      rw [h.mem_ancestors ha hcommits.1]
      right
      split
      · exact ⟨hreach, h.ne_head hx⟩
      · exact Or.inl hreach

theorem keeps_run {commits : List CommitWithMeta} (henv : env.Sound st commits)
    (hcommits : ∀ c ∈ hashes commits, c ∈ g.dag.keys) (h : Attached g st) {x : Hash}
    (hx : x ∈ g.dag.keys) (hkeeps : keeps g x st.headHash (hashes commits))
    (hrun : replayCommits env st commits = .ok st') :
    x ∈ st'.store.dag.ancestors st'.headHash := by
  induction commits generalizing st with
  | nil =>
    obtain rfl := Except.ok.inj hrun
    rwa [Lib.Dag.ancestors_of_le h.grown h.head_mem]
  | cons cwm rest ih =>
    obtain ⟨mid, hstep, hrest⟩ := replayCommits_cons.mp hrun
    simp only [hashes, List.map_cons, List.mem_cons, forall_eq_or_imp] at hcommits
    rw [hashes, List.map_cons, keeps] at hkeeps
    obtain ⟨hround, hnext⟩ := henv.cons hstep
    cases replayCommit_move hround h.head_mem_store hstep with
    | forward hchild =>
      rw [isChildOf_of_le h.grown hcommits.1] at hchild
      rw [if_pos hchild] at hkeeps
      refine ih hnext hcommits.2 ?_ ?_ hrest
      · exact ⟨h.grown, hcommits.1⟩
      · exact hkeeps
    | reject hchild hup hdown _ _ _ =>
      rw [isChildOf_of_le h.grown hcommits.1] at hchild
      rw [Lib.Dag.ancestors_of_le h.grown h.head_mem] at hup
      rw [Lib.Dag.ancestors_of_le h.grown hcommits.1] at hdown
      rw [if_neg hchild] at hkeeps
      refine ih hnext hcommits.2 ?_ ?_ hrest
      · exact h.rejected _
      · exact (hkeeps.2.resolve_left hup).resolve_left hdown
    | amend hchild _ ha =>
      rw [isChildOf_of_le h.grown hcommits.1] at hchild
      rw [if_neg hchild] at hkeeps
      exact (h.amended ha).keeps_run hnext hcommits.2 hx
        ((h.mem_ancestors ha hcommits.1 x).mpr (Or.inr hkeeps.1)) hrest

end Phases

section Refusals

/-- A hash longer than all of the store together. -/
def freshName (s : Store) : Hash := String.ofList ('x' :: s.dag.keys.flatMap String.toList)

theorem freshName_not_mem (s : Store) : freshName s ∉ s.dag.keys := by
  intro h
  have hle : ∀ (l : List Hash) (k : Hash), k ∈ l →
      k.toList.length ≤ (l.flatMap String.toList).length := by
    intro l k hk
    induction l with
    | nil => simp at hk
    | cons a l ih =>
      rw [List.flatMap_cons, List.length_append]
      rcases List.mem_cons.mp hk with rfl | hk
      · omega
      · have := ih hk
        omega
  have hlen := hle _ _ h
  rw [freshName, String.toList_ofList, List.length_cons] at hlen
  omega

/-- Every merge but that of `pick` is refused; nothing fails. -/
def refuseAllBut (pick : Option Hash) : Env where
  newHash s _ _ := freshName s
  merge _ commit := if pick = some commit then .merged "" else .refused "conflict"
  mergeStamp _ := ⟨"", "", 0, .text ""⟩
  now _ := 0
  fails _ := false
  mainAdvances := false
  order := RangeOrder.asStored CommitWithMeta

theorem refuseAllBut_sound (pick : Option Hash) (st : ReplayState)
    (commits : List CommitWithMeta) : (refuseAllBut pick).Sound st commits := by
  refine Env.sound_of_isNew (fun c => ⟨freshName_not_mem c.store, fun h => ?_⟩) (fun _ => rfl) st
    commits
  have hnil := congrArg String.toList h
  simp [refuseAllBut, freshName] at hnil

variable {pick : Option Hash} {g : Store} {st : ReplayState} {cwm : CommitWithMeta}

theorem refuseAllBut_smooth (pick : Option Hash) : (refuseAllBut pick).Smooth where
  succeeds _ := rfl
  conflicts head commit err h := by
    simp only [refuseAllBut] at h
    split at h
    · cases h
    · obtain rfl := MergeOutcome.refused.inj h
      decide

theorem refuseAllBut_merged {head commit : Hash} {root : String}
    (h : (refuseAllBut pick).merge head commit = .merged root) : pick = some commit := by
  simp only [refuseAllBut] at h
  split at h
  · assumption
  · cases h

theorem exists_refusedMove (pick : Option Hash) (hgrown : g.dag ≤ st.store.dag)
    (hhead : st.headHash ∈ st.store.dag.keys) (hc : cwm.commit.hash ∈ g.dag.keys) :
    ∃ mid, replayCommit (refuseAllBut pick) st cwm = .ok mid ∧
      ReplayMove (refuseAllBut pick) st cwm mid := by
  obtain ⟨mid, hstep⟩ := replayCommit_total (refuseAllBut_smooth pick)
    (Lib.Dag.keys_subset hgrown hc)
  exact ⟨mid, hstep, replayCommit_move ((refuseAllBut_sound pick st [cwm]).1) hhead hstep⟩

theorem Detached.refused_run {commits : List CommitWithMeta}
    (hcommits : ∀ c ∈ hashes commits, c ∈ g.dag.keys)
    (hpick : ∀ c ∈ hashes commits, pick ≠ some c) (h : Detached g st) {x : Hash}
    (hx : x ∈ g.dag.keys) (hreach : x ∉ st.store.dag.ancestors st.headHash) :
    ∃ st', replayCommits (refuseAllBut pick) st commits = .ok st' ∧
      x ∉ st'.store.dag.ancestors st'.headHash := by
  induction commits generalizing st with
  | nil => exact ⟨st, rfl, hreach⟩
  | cons cwm rest ih =>
    simp only [hashes, List.map_cons, List.mem_cons, forall_eq_or_imp] at hcommits hpick
    obtain ⟨mid, hstep, hmove⟩ := exists_refusedMove pick h.grown h.head_mem hcommits.1
    have hmid : Detached g mid ∧ x ∉ mid.store.dag.ancestors mid.headHash := by
      cases hmove with
      | forward hchild => exact absurd hchild (h.not_child hcommits.1)
      | reject _ _ _ _ _ _ => exact ⟨h.rejected _, hreach⟩
      | amend _ hmerge ha =>
        refine ⟨h.amended ha, ?_⟩
        rw [h.mem_ancestors ha hcommits.1, or_iff_right ((h.amended ha).ne_head hx)]
        rcases hmerge with hup | hdown | ⟨root, hroot⟩
        · rw [if_pos hup]
          exact fun hk => hreach hk.1
        · exact absurd hdown (h.not_below hcommits.1)
        · exact absurd (refuseAllBut_merged hroot) hpick.1
    obtain ⟨st', hrun, hlost⟩ := ih hcommits.2 hpick.2 hmid.1 hmid.2
    exact ⟨st', replayCommits_cons.mpr ⟨mid, hstep, hrun⟩, hlost⟩

theorem Attached.lost_by_amend {rest : List CommitWithMeta} {x : Hash} (h : Attached g st)
    (hc : cwm.commit.hash ∈ g.dag.keys) (hrest : ∀ c ∈ hashes rest, c ∈ g.dag.keys)
    (hnew : cwm.commit.hash ∉ hashes rest) (hx : x ∈ g.dag.keys)
    (hchild : ¬ isChildOf g cwm.commit.hash st.headHash)
    (hsurv : ¬ survivesAmend g st.headHash cwm.commit.hash x) :
    ∃ st', replayCommits (refuseAllBut (some cwm.commit.hash)) st (cwm :: rest) = .ok st' ∧
      x ∉ st'.store.dag.ancestors st'.headHash := by
  obtain ⟨mid, hmid, hmove⟩ :=
    exists_refusedMove (some cwm.commit.hash) h.grown h.head_mem_store hc
  cases hmove with
  | forward hc' => exact absurd ((isChildOf_of_le h.grown hc).mp hc') hchild
  | reject _ _ _ err hmerge _ => simp [refuseAllBut] at hmerge
  | amend _ _ ha =>
    have hpick : ∀ c ∈ hashes rest, some cwm.commit.hash ≠ some c := by
      rintro c hc heq
      obtain rfl := Option.some.inj heq
      exact hnew hc
    obtain ⟨st', hrun, hlost⟩ := (h.amended ha).refused_run hrest hpick hx
      (fun hk => hsurv (((h.mem_ancestors ha hc x).mp hk).resolve_left
        ((h.amended ha).ne_head hx)))
    exact ⟨st', replayCommits_cons.mpr ⟨mid, hmid, hrun⟩, hlost⟩

/-- What is not kept is lost when one merge, or none, goes through. -/
theorem lost_of_not_keeps {commits : List CommitWithMeta} {head x : Hash}
    (hcommits : ∀ c ∈ hashes commits, c ∈ g.dag.keys) (hnodup : (hashes commits).Nodup)
    (hx : x ∈ g.dag.keys) (hkeeps : ¬ keeps g x head (hashes commits)) :
    ∃ pick : Option Hash, (∀ c, pick = some c → c ∈ hashes commits) ∧
      ∀ st : ReplayState, Attached g st → st.headHash = head →
        ∃ st', replayCommits (refuseAllBut pick) st commits = .ok st' ∧
          x ∉ st'.store.dag.ancestors st'.headHash := by
  induction commits generalizing head with
  | nil =>
    refine ⟨none, by simp, fun st h hhead => ⟨st, rfl, ?_⟩⟩
    rw [Lib.Dag.ancestors_of_le h.grown h.head_mem, hhead]
    exact hkeeps
  | cons cwm rest ih =>
    simp only [hashes, List.map_cons, List.mem_cons, forall_eq_or_imp, List.nodup_cons]
      at hcommits hnodup
    rw [hashes, List.map_cons, keeps] at hkeeps
    by_cases hchild : isChildOf g cwm.commit.hash head
    · rw [if_pos hchild] at hkeeps
      obtain ⟨pick, hpick, hlost⟩ := ih hcommits.2 hnodup.2 hkeeps
      refine ⟨pick, fun c hc => List.mem_cons_of_mem _ (hpick c hc), fun st h hhead => ?_⟩
      subst hhead
      obtain ⟨mid, hmid, hmove⟩ :=
        exists_refusedMove pick h.grown h.head_mem_store hcommits.1
      have hchild' := (isChildOf_of_le h.grown hcommits.1).mpr hchild
      cases hmove with
      | forward _ =>
        obtain ⟨st', hrun, hx'⟩ :=
          hlost { st with headHash := cwm.commit.hash } ⟨h.grown, hcommits.1⟩ rfl
        exact ⟨st', replayCommits_cons.mpr ⟨_, hmid, hrun⟩, hx'⟩
      | reject hne _ _ _ _ _ => exact absurd hchild' hne
      | amend hne _ _ => exact absurd hchild' hne
    · rw [if_neg hchild] at hkeeps
      by_cases hsurv : survivesAmend g head cwm.commit.hash x
      · -- the merge is refused, and what comes later loses the commit
        have hrest : cwm.commit.hash ∉ g.dag.ancestors head ∧
            head ∉ g.dag.ancestors cwm.commit.hash ∧ ¬ keeps g x head (hashes rest) := by
          rw [hashes]
          tauto
        obtain ⟨pick, hpick, hlost⟩ := ih hcommits.2 hnodup.2 hrest.2.2
        refine ⟨pick, fun c hc => List.mem_cons_of_mem _ (hpick c hc), fun st h hhead => ?_⟩
        subst hhead
        obtain ⟨mid, hmid, hmove⟩ :=
          exists_refusedMove pick h.grown h.head_mem_store hcommits.1
        cases hmove with
        | forward hc => exact absurd ((isChildOf_of_le h.grown hcommits.1).mp hc) hchild
        | reject _ _ _ _ _ _ =>
          obtain ⟨st', hrun, hx'⟩ := hlost { st with rejected := st.rejected ++ [rejection cwm] }
            (h.rejected _) rfl
          exact ⟨st', replayCommits_cons.mpr ⟨_, hmid, hrun⟩, hx'⟩
        | amend _ hmerge _ =>
          rw [Lib.Dag.ancestors_of_le h.grown h.head_mem,
            Lib.Dag.ancestors_of_le h.grown hcommits.1] at hmerge
          obtain ⟨root, hroot⟩ := (hmerge.resolve_left hrest.1).resolve_left hrest.2.1
          exact absurd (hpick _ (refuseAllBut_merged hroot)) hnodup.1
      · -- the amend itself loses it, and all later merges are refused
        refine ⟨some cwm.commit.hash, fun c hc => ?_, fun st h hhead => ?_⟩
        · obtain rfl := Option.some.inj hc
          exact List.mem_cons_self
        · subst hhead
          exact h.lost_by_amend hcommits.1 hcommits.2 hnodup.1 hx hchild hsurv

end Refusals

section Samples

def written (peer : String) (wall : Int64) : CommitMetadata :=
  { newCommitMetadata "write" ⟨wall, 0, peer⟩ "content" peer (peer ++ "@doltswarm") wall.toInt with
    signature := "signed" }

def userNode (hash : Hash) (parents : List Hash) (m : CommitMetadata) : StoredCommit :=
  ⟨hash, parents, ⟨"root", m.author, m.email, m.date, .json m⟩⟩

def plainNode (hash : Hash) (parents : List Hash) : StoredCommit :=
  ⟨hash, parents, ⟨"root", "dolt", "dolt@local", 0, .text "Initialize data repository"⟩⟩

/-- Two commits written on one base, with `main` at one of them. -/
def forkRepo : Repo :=
  ⟨⟨⟨[userNode "commit-b" ["commit-i"] (written "bob" 9),
      userNode "commit-a" ["commit-i"] (written "alice" 5), plainNode "commit-i" []],
      by decide +kernel⟩, by decide +kernel⟩, "commit-b", by decide +kernel⟩

end Samples

section Calls

variable {env : Env} {repo : Repo} {base mainHeadBefore : Hash} {commits : List CommitWithMeta}

theorem replayCommits_head_mem {st st' : ReplayState} (henv : env.Sound st commits)
    (hhead : st.headHash ∈ st.store.dag.keys)
    (hcommits : ∀ c ∈ hashes commits, c ∈ st.store.dag.keys)
    (hrun : replayCommits env st commits = .ok st') : st'.headHash ∈ st'.store.dag.keys := by
  induction commits generalizing st with
  | nil =>
    obtain rfl := Except.ok.inj hrun
    exact hhead
  | cons cwm rest ih =>
    obtain ⟨mid, hstep, hrest⟩ := replayCommits_cons.mp hrun
    simp only [hashes, List.map_cons, List.mem_cons, forall_eq_or_imp] at hcommits
    obtain ⟨hround, hnext⟩ := henv.cons hstep
    have hmove := replayCommit_move hround hhead hstep
    exact ih hnext (hmove.head_mem hhead hcommits.1)
      (fun c hc => Lib.Dag.keys_subset hmove.grown (hcommits.2 c hc)) hrest

inductive ReplayOutcome (env : Env) (repo : Repo) (base : Hash) (commits : List CommitWithMeta) :
    ReplayResult → Prop
  | notStarted (err : ReplayError) : ReplayOutcome env repo base commits ⟨repo, [], .error err⟩
  | stopped (f : ReplayFailure) : replayCommits env ⟨repo.store, base, 0, []⟩ commits = .error f →
      ReplayOutcome env repo base commits
        ⟨repo.grow f.state.store, f.state.rejected, .error f.error⟩
  | stays (st : ReplayState) (err : ReplayError) :
      replayCommits env ⟨repo.store, base, 0, []⟩ commits = .ok st →
      ReplayOutcome env repo base commits ⟨repo.grow st.store, st.rejected, .error err⟩
  | moved (st : ReplayState) (hhead : st.headHash ∈ st.store.dag.keys) :
      base ∈ repo.store.dag.keys → replayCommits env ⟨repo.store, base, 0, []⟩ commits = .ok st →
      ReplayOutcome env repo base commits
        ⟨⟨st.store, st.headHash, hhead⟩, st.rejected, .ok st.mergeCommits⟩

theorem replayTo_outcome (env : Env) (repo : Repo) (base mainHeadBefore : Hash)
    (commits : List CommitWithMeta) :
    ReplayOutcome env repo base commits
      (replayToTempBranchThenUpdateMain env repo base mainHeadBefore commits) := by
  unfold replayToTempBranchThenUpdateMain
  split
  · exact .notStarted _
  split
  · exact .notStarted _
  next hbase =>
  split
  · exact .notStarted _
  split
  · next f hf => exact .stopped f hf
  · next st hst =>
    dsimp only
    split
    · exact .stays st _ hst
    split
    · exact .stays st _ hst
    split
    · exact .stays st _ hst
    split
    · exact .stays st _ hst
    split
    · exact .moved st _ (not_not.mp fun hnot => hbase (Or.inr hnot)) hst
    · exact .stays st _ hst

theorem replayTo_ok {n : ℕ}
    (h : (replayToTempBranchThenUpdateMain env repo base mainHeadBefore commits).result = .ok n) :
    ∃ st, replayCommits env ⟨repo.store, base, 0, []⟩ commits = .ok st ∧
      (replayToTempBranchThenUpdateMain env repo base mainHeadBefore commits).repo.store =
        st.store ∧
      (replayToTempBranchThenUpdateMain env repo base mainHeadBefore commits).repo.main =
        st.headHash ∧
      (replayToTempBranchThenUpdateMain env repo base mainHeadBefore commits).rejected =
        st.rejected := by
  have hout := replayTo_outcome env repo base mainHeadBefore commits
  generalize replayToTempBranchThenUpdateMain env repo base mainHeadBefore commits = r at h hout ⊢
  cases hout with
  | notStarted err => cases h
  | stopped f hf => cases h
  | stays st err hst => cases h
  | moved st hhead hbase hst => exact ⟨st, hst, rfl, rfl, rfl⟩

theorem replayTo_base_mem {n : ℕ}
    (h : (replayToTempBranchThenUpdateMain env repo base mainHeadBefore commits).result = .ok n) :
    base ∈ repo.store.dag.keys := by
  have hout := replayTo_outcome env repo base mainHeadBefore commits
  generalize replayToTempBranchThenUpdateMain env repo base mainHeadBefore commits = r at h hout
  cases hout with
  | notStarted err => cases h
  | stopped f hf => cases h
  | stays st err hst => cases h
  | moved st hhead hbase hst => exact hbase

theorem replayTo_of_run (hsmooth : env.Smooth) (hmain : env.mainAdvances = false)
    (hbase : base ∈ repo.store.dag.keys) {st : ReplayState}
    (hrun : replayCommits env ⟨repo.store, base, 0, []⟩ commits = .ok st)
    (hhead : st.headHash ∈ st.store.dag.keys) :
    (replayToTempBranchThenUpdateMain env repo base repo.main commits).result =
      .ok st.mergeCommits := by
  simp [replayToTempBranchThenUpdateMain, hsmooth.succeeds, hmain, hbase, hrun, hhead]

theorem Repo.main_grow (repo : Repo) (store : Store) : (repo.grow store).main = repo.main := by
  unfold Repo.grow
  split <;> rfl

theorem Repo.grow_eq (repo : Repo) {store : Store} (h : repo.store.dag ≤ store.dag) :
    (repo.grow store).store = store ∧ (repo.grow store).main = repo.main := by
  have hmain : repo.main ∈ store.dag.keys := Lib.Dag.keys_subset h repo.main_mem
  simp [Repo.grow, hmain]

theorem replayTo_grown (env : Env) (repo : Repo) (base mainHeadBefore : Hash)
    (commits : List CommitWithMeta) :
    repo.store.dag ≤
        (replayToTempBranchThenUpdateMain env repo base mainHeadBefore commits).repo.store.dag ∧
      ∀ err, (replayToTempBranchThenUpdateMain env repo base mainHeadBefore commits).result =
          .error err →
        (replayToTempBranchThenUpdateMain env repo base mainHeadBefore commits).repo.main =
          repo.main := by
  have hgrown := replayCommits_grown env commits ⟨repo.store, base, 0, []⟩
  have hstays : ∀ store : Store, repo.store.dag ≤ store.dag →
      repo.store.dag ≤ (repo.grow store).store.dag ∧ (repo.grow store).main = repo.main := by
    intro store hle
    obtain ⟨hstore, hmain⟩ := repo.grow_eq hle
    rw [hstore]
    exact ⟨hle, hmain⟩
  have hout := replayTo_outcome env repo base mainHeadBefore commits
  generalize replayToTempBranchThenUpdateMain env repo base mainHeadBefore commits = r at hout ⊢
  cases hout with
  | notStarted err => exact ⟨Lib.Dag.le_rfl, fun _ _ => rfl⟩
  | stopped f hf =>
    rw [hf] at hgrown
    obtain ⟨hle, hmain⟩ := hstays _ hgrown
    exact ⟨hle, fun _ _ => hmain⟩
  | stays st err hst =>
    rw [hst] at hgrown
    obtain ⟨hle, hmain⟩ := hstays _ hgrown
    exact ⟨hle, fun _ _ => hmain⟩
  | moved st hhead hbase hst =>
    rw [hst] at hgrown
    exact ⟨hgrown, fun err herr => by cases herr⟩

def localCommits (repo : Repo) (base : Hash) : List Commit :=
  (getCommitsSince repo.store repo.main base).getD []

def commitsToReplay (repo : Repo) (mergeBase : Hash) (imported : List Commit)
    (fb : Option FinalizedBase) : List CommitWithMeta :=
  collectUserCommits (RangeOrder.asStored _) (localCommits repo (effectiveBase mergeBase fb))
    imported fb

def Env.SoundFor (env : Env) (repo : Repo) (mergeBase : Hash) (imported : List Commit)
    (fb : Option FinalizedBase) : Prop :=
  env.Sound ⟨repo.store, effectiveBase mergeBase fb, 0, []⟩
    (commitsToReplay repo mergeBase imported fb)

variable {imported : List Commit}

theorem getCommitsSince_localCommits (repo : Repo) (base : Hash) :
    getCommitsSince repo.store repo.main base = some (localCommits repo base) := by
  obtain ⟨ours, hours, -⟩ := getCommitsSince_stored repo.store repo.main_mem base
  rw [localCommits, hours, Option.getD_some]

theorem stored_localCommits (himp : Stored repo.store imported) (base : Hash) :
    Stored repo.store (localCommits repo base ++ imported) := by
  obtain ⟨ours, hours, hstored⟩ := getCommitsSince_stored repo.store repo.main_mem base
  rw [localCommits, hours, Option.getD_some]
  intro c hc
  rcases List.mem_append.mp hc with hc | hc
  · exact hstored c hc
  · exact himp c hc

theorem listed_commitsToReplay (himp : Stored repo.store imported) (mergeBase : Hash)
    (fb : Option FinalizedBase) : Listed repo.store (commitsToReplay repo mergeBase imported fb) :=
  listed_collectUserCommits (stored_localCommits himp _) _ _

variable {mergeBase : Hash} {fb : Option FinalizedBase}

/-- Past the log line, a call replays what it collects, if that is anything; the order of the
map does not show. -/
theorem replayImportedCommits_eq (himp : Stored repo.store imported)
    (hread : env.fails .lastCommit = false) (hlog : logsOutOfRange mergeBase fb = false) :
    replayImportedCommits env repo mergeBase imported fb =
      if commitsToReplay repo mergeBase imported fb = [] then ⟨repo, [], .ok 0⟩
      else replayToTempBranchThenUpdateMain env repo (effectiveBase mergeBase fb) repo.main
        (commitsToReplay repo mergeBase imported fb) := by
  have hs := stored_localCommits himp (effectiveBase mergeBase fb)
  have hsame : collectUserCommits env.order (localCommits repo (effectiveBase mergeBase fb))
      imported fb = commitsToReplay repo mergeBase imported fb :=
    collectUserCommits_congr hs hs fun _ => Iff.rfl
  simp [replayImportedCommits, hread, hlog, getCommitsSince_localCommits, hsame]

theorem replayImportedCommits_grown (env : Env) (repo : Repo) (mergeBase : Hash)
    (imported : List Commit) (fb : Option FinalizedBase) :
    repo.store.dag ≤ (replayImportedCommits env repo mergeBase imported fb).repo.store.dag ∧
      ∀ err, (replayImportedCommits env repo mergeBase imported fb).result = .error err →
        (replayImportedCommits env repo mergeBase imported fb).repo.main = repo.main := by
  unfold replayImportedCommits
  split
  · exact ⟨Lib.Dag.le_rfl, fun _ _ => rfl⟩
  · split
    · exact ⟨Lib.Dag.le_rfl, fun _ _ => rfl⟩
    · simp only [getCommitsSince_localCommits]
      split
      · exact ⟨Lib.Dag.le_rfl, fun _ _ => rfl⟩
      · exact replayTo_grown _ _ _ _ _

theorem replayImportedCommits_ok {n : ℕ}
    (h : (replayImportedCommits env repo mergeBase imported fb).result = .ok n) :
    env.fails .lastCommit = false ∧ logsOutOfRange mergeBase fb = false := by
  unfold replayImportedCommits at h
  split_ifs at h with hread hlog
  exact ⟨by simpa using hread, by simpa using hlog⟩

end Calls

end DoltSwarm.Core
