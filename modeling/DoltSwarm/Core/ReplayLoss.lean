import DoltSwarm.Core.ReplayReach

/-!
# Commits lost to an amend

`replayToTempBranchThenUpdateMain` amends after every merge that reports no error, also when
the merge found nothing to do or only moved the branch forward. The commit that then stands
in the place of the amended one carries the metadata of a derived merge.
-/

namespace DoltSwarm.Core

set_option autoImplicit false

/-- The timestamp and what the author wrote and signed are the same. -/
def carries (m m' : CommitMetadata) : Prop :=
  m.hlc = m'.hlc ∧ m.message = m'.message ∧ m.author = m'.author ∧
    m.contentHash = m'.contentHash ∧ m.signature = m'.signature

instance (m m' : CommitMetadata) : Decidable (carries m m') :=
  inferInstanceAs (Decidable (_ ∧ _))

def carriedFrom (s : Store) (head : Hash) (m : CommitMetadata) : Prop :=
  ∃ x ∈ s.dag.ancestors head, ∃ m' ∈ s.metadata? x, carries m' m

instance (s : Store) (head : Hash) (m : CommitMetadata) : Decidable (carriedFrom s head m) :=
  inferInstanceAs (Decidable (∃ x ∈ s.dag.ancestors head, ∃ m' ∈ s.metadata? x, carries m' m))

def carriedBelow (s : Store) (x : Hash) (m : CommitMetadata) : Prop :=
  ∃ y ∈ s.dag.ancestors x, y ≠ x ∧ ∃ m' ∈ s.metadata? y, carries m' m

instance (s : Store) (x : Hash) (m : CommitMetadata) : Decidable (carriedBelow s x m) :=
  inferInstanceAs (Decidable (∃ y ∈ s.dag.ancestors x, y ≠ x ∧ ∃ m' ∈ s.metadata? y, carries m' m))

/-- Amending `x` away does no harm: its metadata are carried below it, or it is a derived merge
itself and every commit of the list that is merged in vain from here on has its timestamp. -/
def outlivesAmend (s : Store) (x : Hash) (rest : List CommitWithMeta) : Prop :=
  ∃ m ∈ s.metadata? x, carriedBelow s x m ∨
    carries (mergeMetadata m.hlc 0) m ∧
      ∀ c ∈ rest, c.commit.hash ∈ s.dag.ancestors x → c.hlc = m.hlc

instance (s : Store) (x : Hash) (rest : List CommitWithMeta) :
    Decidable (outlivesAmend s x rest) :=
  inferInstanceAs (Decidable (∃ m ∈ s.metadata? x, _ ∨ _ ∧ _))

/-- From `head` on, each commit continues the branch by its first parent or is unrelated to
it, up to the first one that is amended without harm. -/
def replaySafe (s : Store) (base : Hash) : Hash → List CommitWithMeta → Prop
  | _, [] => True
  | head, c :: rest =>
    if isChildOf s c.commit.hash head then replaySafe s base c.commit.hash rest
    else if c.commit.hash ∈ s.dag.ancestors head then head ≠ base ∧ outlivesAmend s head (c :: rest)
    else if head ∈ s.dag.ancestors c.commit.hash then outlivesAmend s c.commit.hash (c :: rest)
    else replaySafe s base head rest

instance decidableReplaySafe (s : Store) (base : Hash) :
    ∀ (head : Hash) (commits : List CommitWithMeta), Decidable (replaySafe s base head commits)
  | _, [] => instDecidableTrue
  | head, c :: rest =>
    have := decidableReplaySafe s base c.commit.hash rest
    have := decidableReplaySafe s base head rest
    inferInstanceAs (Decidable (
      if isChildOf s c.commit.hash head then replaySafe s base c.commit.hash rest
      else if c.commit.hash ∈ s.dag.ancestors head then
        head ≠ base ∧ outlivesAmend s head (c :: rest)
      else if head ∈ s.dag.ancestors c.commit.hash then outlivesAmend s c.commit.hash (c :: rest)
      else replaySafe s base head rest))

/-- The base is still there, and so is every commit of the list that was not reported. -/
structure LosesNothing (s : Store) (head : Hash) (rejected : List (CommitAd × RejectionReason))
    (base : Hash) (commits : List CommitWithMeta) : Prop where
  base_mem : base ∈ s.dag.ancestors head
  kept : ∀ c ∈ commits, ∀ m, parseCommitMetadata c.commit.message = some m →
    carriedFrom s head m ∨ rejection c ∈ rejected

theorem carries_mergeMetadata {t : HLCTimestamp} {d : Int} {m : CommitMetadata} :
    carries (mergeMetadata t d) m ↔ t = m.hlc ∧ carries (mergeMetadata m.hlc 0) m := by
  simp [carries, mergeMetadata, newCommitMetadata]

section Safe

variable {env : Env} {g : Store} {base : Hash} {st st' : ReplayState} {cwm : CommitWithMeta}
  {done rest : List CommitWithMeta}

/-- The metadata are the head's own, and no amend to come takes them away. -/
def heldAtHead (st : ReplayState) (m : CommitMetadata)
    (rest : List CommitWithMeta) : Prop :=
  (∃ d, st.store.metadata? st.headHash = some (mergeMetadata m.hlc d)) ∧
    carries (mergeMetadata m.hlc 0) m ∧
    ∀ c ∈ rest, c.commit.hash ∈ st.store.dag.ancestors st.headHash → c.hlc = m.hlc

structure Secured (g : Store) (base : Hash) (st : ReplayState)
    (done rest : List CommitWithMeta) : Prop where
  detached : Detached g st
  base_mem : base ∈ st.store.dag.ancestors st.headHash
  kept : ∀ c ∈ done, ∀ m, parseCommitMetadata c.commit.message = some m →
    rejection c ∈ st.rejected ∨ carriedBelow st.store st.headHash m ∨ heldAtHead st m rest

theorem carriedBelow_of_mem {s : Store} {head x : Hash} {m : CommitMetadata}
    (hx : x ∈ s.dag.ancestors head) (hne : x ≠ head) (hm : s.metadata? x = some m) :
    carriedBelow s head m := ⟨x, hx, hne, m, hm, rfl, rfl, rfl, rfl, rfl⟩

theorem Detached.carriedBelow (h : Detached g st) (ha : Amended env st cwm st')
    (hc : cwm.commit.hash ∈ g.dag.keys) {m : CommitMetadata}
    (hm : carriedBelow st.store st.headHash m) : carriedBelow st'.store st'.headHash m := by
  obtain ⟨y, hy, hne, m', hm', hcar⟩ := hm
  refine ⟨y, ?_, ?_, m', Store.metadata?_of_le ha.grown hm', hcar⟩
  · rw [h.mem_ancestors ha hc]
    right
    split
    · exact ⟨hy, hne⟩
    · exact Or.inl hy
  · rintro rfl
    exact ha.fresh (Lib.Dag.mem_keys_of_mem_ancestors hy)

/-- What the head holds is held by the next head, or below it. -/
theorem Detached.heldAtHead (hl : Listed g (done ++ cwm :: rest)) (h : Detached g st)
    (ha : Amended env st cwm st') {m : CommitMetadata} (hm : heldAtHead st m (cwm :: rest)) :
    Core.carriedBelow st'.store st'.headHash m ∨ Core.heldAtHead st' m rest := by
  have hmem := h.mem_ancestors ha (hl.mem_keys _ (by simp [hashes]))
  obtain ⟨⟨d, hmeta⟩, hcar, hrest⟩ := hm
  by_cases hup : cwm.commit.hash ∈ st.store.dag.ancestors st.headHash
  · -- the head is amended again, with a timestamp that is the same
    have hhlc := hrest cwm List.mem_cons_self hup
    refine Or.inr ⟨⟨env.now st.mergeCommits, ?_⟩, hcar, fun c' hc' hanc => ?_⟩
    · rw [ha.metadata_head, hhlc]
    · refine hrest c' (List.mem_cons_of_mem _ hc') ?_
      rw [hmem, if_pos hup] at hanc
      have hc'g : c'.commit.hash ∈ g.dag.keys :=
        hl.mem_keys _ (List.mem_map_of_mem (by simp [hc']))
      exact (hanc.resolve_left ((h.amended ha).ne_head hc'g)).1
  · -- a real merge puts the head below the new one
    refine Or.inl ⟨st.headHash, ?_, ?_, _,
      Store.metadata?_of_le ha.grown hmeta, carries_mergeMetadata.mpr ⟨rfl, hcar⟩⟩
    · rw [hmem, if_neg hup]
      exact Or.inr (Or.inl (Lib.Dag.self_mem_ancestors h.head_mem))
    · intro heq
      exact ha.fresh (heq ▸ h.head_mem)

theorem Secured.step (henv : env.SoundAt st cwm) (hl : Listed g (done ++ cwm :: rest))
    (h : Secured g base st done (cwm :: rest)) (hbase : base ∈ g.dag.keys)
    (hstep : replayCommit env st cwm = .ok st') : Secured g base st' (done ++ [cwm]) rest := by
  have hc : cwm.commit.hash ∈ g.dag.keys := hl.mem_keys _ (by simp [hashes])
  obtain ⟨m₀, hm₀, -, hmeta₀⟩ := hl.metadata (c := cwm) (by simp)
  have hd := h.detached
  cases replayCommit_move henv hd.head_mem hstep with
  | forward hchild => exact absurd hchild (hd.not_child hc)
  | reject _ _ _ _ _ _ =>
    refine ⟨hd.rejected _, h.base_mem, fun c hcd m hm => ?_⟩
    rcases List.mem_append.mp hcd with hcd | hcd
    · rcases h.kept c hcd m hm with hr | hb | ⟨hmeta, hcar, hrest⟩
      · exact Or.inl (List.mem_append_left _ hr)
      · exact Or.inr (Or.inl hb)
      · exact Or.inr (Or.inr ⟨hmeta, hcar, fun c' hc' => hrest c' (List.mem_cons_of_mem _ hc')⟩)
    · obtain rfl := List.mem_singleton.mp hcd
      exact Or.inl (by simp)
  | amend _ hmerge ha =>
    have hd' := hd.amended ha
    have hgrow : g.dag ≤ st'.store.dag := hd'.grown
    have hmem := hd.mem_ancestors ha hc
    refine ⟨hd', ?_, fun c hcd m hm => ?_⟩
    · rw [hmem]
      right
      split
      · exact ⟨h.base_mem, hd.ne_head hbase⟩
      · exact Or.inl h.base_mem
    rcases List.mem_append.mp hcd with hcd | hcd
    · rcases h.kept c hcd m hm with hr | hb | hheld
      · exact Or.inl (ha.rejected ▸ hr)
      · exact Or.inr (Or.inl (hd.carriedBelow ha hc hb))
      · exact Or.inr (hd.heldAtHead hl ha hheld)
    · obtain rfl := List.mem_singleton.mp hcd
      rw [hm₀] at hm
      obtain rfl := Option.some.inj hm
      refine Or.inr (Or.inl (carriedBelow_of_mem ?_ (hd'.ne_head hc)
        (Store.metadata?_of_le hgrow hmeta₀)))
      rw [hmem]
      right
      split
      · next hup => exact ⟨hup, hd.ne_head hc⟩
      · exact Or.inr (Lib.Dag.self_mem_ancestors (Lib.Dag.keys_subset hd.grown hc))

theorem Secured.run (henv : env.Sound st rest) (hl : Listed g (done ++ rest))
    (h : Secured g base st done rest) (hbase : base ∈ g.dag.keys)
    (hrun : replayCommits env st rest = .ok st') :
    LosesNothing st'.store st'.headHash st'.rejected base (done ++ rest) := by
  induction rest generalizing st done with
  | nil =>
    obtain rfl := Except.ok.inj hrun
    refine ⟨h.base_mem, fun c hc m hm => ?_⟩
    rw [List.append_nil] at hc
    rcases h.kept c hc m hm with hr | ⟨y, hy, -, hcar⟩ | ⟨⟨d, hmeta⟩, hcar, -⟩
    · exact Or.inr hr
    · exact Or.inl ⟨y, hy, hcar⟩
    · exact Or.inl ⟨st.headHash, Lib.Dag.self_mem_ancestors h.detached.head_mem, _, hmeta,
        carries_mergeMetadata.mpr ⟨rfl, hcar⟩⟩
  | cons cwm rest ih =>
    obtain ⟨mid, hstep, hrest⟩ := replayCommits_cons.mp hrun
    have hassoc : done ++ cwm :: rest = (done ++ [cwm]) ++ rest := by simp
    obtain ⟨hround, hnext⟩ := henv.cons hstep
    rw [hassoc]
    exact ih hnext (hassoc ▸ hl) (h.step hround hl hbase hstep) hrest

theorem Attached.secure_replaced (hl : Listed g (done ++ cwm :: rest)) (h : Attached g st)
    (ha : Amended env st cwm st') {x : Hash}
    (hsurv : ∀ y, survivesAmend g st.headHash cwm.commit.hash y ↔ y ∈ g.dag.ancestors x ∧ y ≠ x)
    (hout : outlivesAmend g x (cwm :: rest)) (hcx : cwm.commit.hash ∈ g.dag.ancestors x)
    (hbase : base ∈ g.dag.ancestors x) (hbx : base ≠ x)
    (hdone : ∀ c ∈ done ++ [cwm], rejection c ∈ st.rejected ∨
      c.commit.hash ∈ g.dag.ancestors x) : Secured g base st' (done ++ [cwm]) rest := by
  have hd := h.amended ha
  have hc := Lib.Dag.mem_keys_of_mem_ancestors hcx
  have hreach : ∀ y ∈ g.dag.ancestors x, y ≠ x →
      y ∈ st'.store.dag.ancestors st'.headHash ∧ y ≠ st'.headHash := fun y hy hne =>
    ⟨(h.mem_ancestors ha hc y).mpr (Or.inr ((hsurv y).mpr ⟨hy, hne⟩)),
      hd.ne_head (Lib.Dag.mem_keys_of_mem_ancestors hy)⟩
  refine ⟨hd, (hreach base hbase hbx).1, fun c hcd m hm => ?_⟩
  have hmem : c ∈ done ++ cwm :: rest := by
    rcases List.mem_append.mp hcd with hcd | hcd
    · exact List.mem_append_left _ hcd
    · exact List.mem_append_right _ (by simp [List.mem_singleton.mp hcd])
  obtain ⟨m', hm', -, hmeta⟩ := hl.metadata hmem
  rw [hm] at hm'
  obtain rfl := Option.some.inj hm'
  rcases hdone c hcd with hr | hanc
  · exact Or.inl (ha.rejected ▸ hr)
  right
  by_cases hcx' : c.commit.hash = x
  · obtain ⟨m', hm', hcase⟩ := hout
    rw [← hcx', hmeta] at hm'
    obtain rfl := Option.some.inj hm'
    rcases hcase with ⟨y, hy, hne, m', hm', hcar⟩ | ⟨hcar, hrest⟩
    · exact Or.inl ⟨y, (hreach y hy hne).1, (hreach y hy hne).2, m',
        Store.metadata?_of_le hd.grown hm', hcar⟩
    · refine Or.inr ⟨⟨env.now st.mergeCommits, ?_⟩, hcar, fun c' hc' hanc' => ?_⟩
      · rw [ha.metadata_head, hrest cwm List.mem_cons_self hcx]
      · have hc'g : c'.commit.hash ∈ g.dag.keys :=
          hl.mem_keys _ (List.mem_map_of_mem (by simp [hc']))
        rw [h.mem_ancestors ha hc, or_iff_right (hd.ne_head hc'g), hsurv] at hanc'
        exact hrest c' (List.mem_cons_of_mem _ hc') hanc'.1
  · exact Or.inl (carriedBelow_of_mem (hreach _ hanc hcx').1 (hreach _ hanc hcx').2
      (Store.metadata?_of_le hd.grown hmeta))

theorem Attached.secure_merged (hl : Listed g (done ++ cwm :: rest)) (h : Attached g st)
    (ha : Amended env st cwm st') (hup : cwm.commit.hash ∉ g.dag.ancestors st.headHash)
    (hdown : st.headHash ∉ g.dag.ancestors cwm.commit.hash)
    (hbase : base ∈ g.dag.ancestors st.headHash)
    (hdone : ∀ c ∈ done, rejection c ∈ st.rejected ∨
      c.commit.hash ∈ g.dag.ancestors st.headHash) :
    Secured g base st' (done ++ [cwm]) rest := by
  have hd := h.amended ha
  have hc : cwm.commit.hash ∈ g.dag.keys := hl.mem_keys _ (by simp [hashes])
  have hmerged : ∀ y, y ∈ g.dag.ancestors st.headHash ∨ y ∈ g.dag.ancestors cwm.commit.hash →
      y ∈ st'.store.dag.ancestors st'.headHash := by
    intro y hy
    rw [h.mem_ancestors ha hc, survivesAmend, if_neg hup, if_neg hdown]
    exact Or.inr hy
  refine ⟨hd, hmerged base (Or.inl hbase), fun c hcd m hm => ?_⟩
  have hbelow : c ∈ done ++ cwm :: rest → (c.commit.hash ∈ g.dag.ancestors st.headHash ∨
      c.commit.hash ∈ g.dag.ancestors cwm.commit.hash) →
      carriedBelow st'.store st'.headHash m := by
    intro hmem hy
    obtain ⟨m', hm', -, hmeta⟩ := hl.metadata hmem
    rw [hm] at hm'
    obtain rfl := Option.some.inj hm'
    exact carriedBelow_of_mem (hmerged _ hy) (hd.ne_head (Store.mem_keys_of_commit?
      (hl.stored c hmem))) (Store.metadata?_of_le hd.grown hmeta)
  rcases List.mem_append.mp hcd with hcd | hcd
  · rcases hdone c hcd with hr | hanc
    · exact Or.inl (ha.rejected ▸ hr)
    · exact Or.inr (Or.inl (hbelow (List.mem_append_left _ hcd) (Or.inl hanc)))
  · obtain rfl := List.mem_singleton.mp hcd
    exact Or.inr (Or.inl (hbelow (by simp) (Or.inr (Lib.Dag.self_mem_ancestors hc))))

/-- An amend that does no harm secures the branch, whichever commit it replaces. -/
theorem Attached.secure_amended (hl : Listed g (done ++ cwm :: rest)) (h : Attached g st)
    (ha : Amended env st cwm st') (hbase : base ∈ g.dag.ancestors st.headHash)
    (hdone : ∀ c ∈ done, rejection c ∈ st.rejected ∨ c.commit.hash ∈ g.dag.ancestors st.headHash)
    (hchild : ¬ isChildOf g cwm.commit.hash st.headHash)
    (hsafe : replaySafe g base st.headHash (cwm :: rest)) :
    Secured g base st' (done ++ [cwm]) rest := by
  have hc : cwm.commit.hash ∈ g.dag.keys := hl.mem_keys _ (by simp [hashes])
  rw [replaySafe, if_neg hchild] at hsafe
  by_cases hup : cwm.commit.hash ∈ g.dag.ancestors st.headHash
  · rw [if_pos hup] at hsafe
    refine h.secure_replaced hl ha (fun y => ?_) hsafe.2 hup hbase (Ne.symm hsafe.1) ?_
    · rw [survivesAmend, if_pos hup]
    · intro c hcd
      rcases List.mem_append.mp hcd with hcd | hcd
      · exact hdone c hcd
      · exact Or.inr (List.mem_singleton.mp hcd ▸ hup)
  rw [if_neg hup] at hsafe
  by_cases hdown : st.headHash ∈ g.dag.ancestors cwm.commit.hash
  · rw [if_pos hdown] at hsafe
    refine h.secure_replaced hl ha (fun y => ?_) hsafe (Lib.Dag.self_mem_ancestors hc)
      (Lib.Dag.ancestors_trans hbase hdown) (fun heq => hup (heq ▸ hbase)) ?_
    · rw [survivesAmend, if_neg hup, if_pos hdown]
    · intro c hcd
      rcases List.mem_append.mp hcd with hcd | hcd
      · exact (hdone c hcd).imp id fun hanc => Lib.Dag.ancestors_trans hanc hdown
      · obtain rfl := List.mem_singleton.mp hcd
        exact Or.inr (Lib.Dag.self_mem_ancestors hc)
  · exact h.secure_merged hl ha hup hdown hbase hdone

theorem Attached.losesNothing (hl : Listed g done) (h : Attached g st)
    (hbase : base ∈ g.dag.ancestors st.headHash)
    (hdone : ∀ c ∈ done, rejection c ∈ st.rejected ∨ c.commit.hash ∈ g.dag.ancestors st.headHash) :
    LosesNothing st.store st.headHash st.rejected base done := by
  have hanc := Lib.Dag.ancestors_of_le h.grown h.head_mem
  refine ⟨hanc ▸ hbase, fun c hc m hm => ?_⟩
  obtain ⟨m', hm', -, hmeta⟩ := hl.metadata hc
  rw [hm] at hm'
  obtain rfl := Option.some.inj hm'
  rcases hdone c hc with hr | hreach
  · exact Or.inr hr
  · exact Or.inl ⟨_, hanc ▸ hreach, m, Store.metadata?_of_le h.grown hmeta, rfl, rfl, rfl, rfl, rfl⟩

theorem replaySafe_run (henv : env.Sound st rest) (hl : Listed g (done ++ rest))
    (h : Attached g st)
    (hbase : base ∈ g.dag.ancestors st.headHash)
    (hdone : ∀ c ∈ done, rejection c ∈ st.rejected ∨ c.commit.hash ∈ g.dag.ancestors st.headHash)
    (hsafe : replaySafe g base st.headHash rest)
    (hrun : replayCommits env st rest = .ok st') :
    LosesNothing st'.store st'.headHash st'.rejected base (done ++ rest) := by
  induction rest generalizing st done with
  | nil =>
    obtain rfl := Except.ok.inj hrun
    rw [List.append_nil] at hl ⊢
    exact h.losesNothing hl hbase hdone
  | cons cwm rest ih =>
    obtain ⟨mid, hstep, hrest⟩ := replayCommits_cons.mp hrun
    have hassoc : done ++ cwm :: rest = (done ++ [cwm]) ++ rest := by simp
    have hc : cwm.commit.hash ∈ g.dag.keys := hl.mem_keys _ (by simp [hashes])
    obtain ⟨hround, hnext⟩ := henv.cons hstep
    rw [hassoc]
    cases replayCommit_move hround h.head_mem_store hstep with
    | forward hchild =>
      rw [isChildOf_of_le h.grown hc] at hchild
      have hup := Lib.Dag.link_mem_ancestors (mem_links_of_isChildOf hchild)
      rw [replaySafe, if_pos hchild] at hsafe
      refine ih hnext (hassoc ▸ hl) ?_ ?_ ?_ ?_ hrest
      · exact ⟨h.grown, hc⟩
      · exact Lib.Dag.ancestors_trans hbase hup
      · intro c hcd
        rcases List.mem_append.mp hcd with hcd | hcd
        · exact (hdone c hcd).imp id fun hanc => Lib.Dag.ancestors_trans hanc hup
        · rw [List.mem_singleton.mp hcd]
          exact Or.inr (Lib.Dag.self_mem_ancestors hc)
      · exact hsafe
    | reject hchild hup hdown _ _ _ =>
      rw [isChildOf_of_le h.grown hc] at hchild
      rw [Lib.Dag.ancestors_of_le h.grown h.head_mem] at hup
      rw [Lib.Dag.ancestors_of_le h.grown hc] at hdown
      rw [replaySafe, if_neg hchild, if_neg hup, if_neg hdown] at hsafe
      refine ih hnext (hassoc ▸ hl) ?_ ?_ ?_ ?_ hrest
      · exact h.rejected _
      · exact hbase
      · intro c hcd
        rcases List.mem_append.mp hcd with hcd | hcd
        · exact (hdone c hcd).imp (List.mem_append_left _) id
        · rw [List.mem_singleton.mp hcd]
          exact Or.inl (by simp)
      · exact hsafe
    | amend hchild _ ha =>
      rw [isChildOf_of_le h.grown hc] at hchild
      have hsec := h.secure_amended hl ha hbase hdone hchild hsafe
      exact hsec.run hnext (hassoc ▸ hl) (Lib.Dag.mem_keys_of_mem_ancestors hbase) hrest

end Safe

section Unsafe

variable {g : Store} {base x : Hash} {t : HLCTimestamp} {st : ReplayState}
  {done rest : List CommitWithMeta}

/-- The branch is at the commit made in place of `x`, with the timestamp `t`. -/
structure Replaced (g : Store) (x : Hash) (t : HLCTimestamp) (st : ReplayState) : Prop where
  detached : Detached g st
  reached : ∀ y, y ∈ st.store.dag.ancestors st.headHash ↔
    y = st.headHash ∨ y ∈ g.dag.ancestors x ∧ y ≠ x
  held : ∃ d, st.store.metadata? st.headHash = some (mergeMetadata t d)

theorem Attached.replaced {env : Env} {cwm : CommitWithMeta} {st' : ReplayState}
    (h : Attached g st) (ha : Amended env st cwm st') (hc : cwm.commit.hash ∈ g.dag.keys)
    (hsurv : ∀ y, survivesAmend g st.headHash cwm.commit.hash y ↔
      y ∈ g.dag.ancestors x ∧ y ≠ x) : Replaced g x cwm.hlc st' :=
  ⟨h.amended ha, fun y => by rw [h.mem_ancestors ha hc, hsurv], _, ha.metadata_head⟩

theorem Replaced.not_carried (h : Replaced g x t st) {m : CommitMetadata}
    (hbelow : ¬ carriedBelow g x m) (hhead : ¬ carries (mergeMetadata t 0) m) :
    ¬ carriedFrom st.store st.headHash m := by
  rintro ⟨y, hy, m', hm', hcar⟩
  rcases (h.reached y).mp hy with rfl | ⟨hyx, hne⟩
  · obtain ⟨d, hd⟩ := h.held
    rw [hd] at hm'
    obtain rfl := Option.some.inj hm'
    obtain ⟨rfl, hcar'⟩ := carries_mergeMetadata.mp hcar
    exact hhead hcar'
  · refine hbelow ⟨y, hyx, hne, m', ?_, hcar⟩
    rwa [Store.metadata?_eq_of_le h.detached.grown (Lib.Dag.mem_keys_of_mem_ancestors hyx)] at hm'

/-- With every merge refused the branch stays there, taking the timestamps of the commits
that are merged in vain. -/
theorem Replaced.run (hrest : ∀ c ∈ hashes rest, c ∈ g.dag.keys) (h : Replaced g x t st) :
    ∃ st' t', replayCommits (refuseAllBut none) st rest = .ok st' ∧ Replaced g x t' st' ∧
      (∀ r ∈ st'.rejected, r ∈ st.rejected ∨ r.1.commitHash ∈ hashes rest) ∧
      ((t' = t ∧ ∀ c ∈ rest, ¬ (c.commit.hash ∈ g.dag.ancestors x ∧ c.commit.hash ≠ x)) ∨
        ∃ c ∈ rest, t' = c.hlc) := by
  induction rest generalizing st t with
  | nil => exact ⟨st, t, rfl, h, fun r hr => Or.inl hr, Or.inl ⟨rfl, by simp⟩⟩
  | cons cwm rest ih =>
    simp only [hashes, List.map_cons, List.mem_cons, forall_eq_or_imp] at hrest
    have hd := h.detached
    obtain ⟨mid, hstep, hmove⟩ := exists_refusedMove none hd.grown hd.head_mem hrest.1
    have hin : cwm.commit.hash ∈ st.store.dag.ancestors st.headHash ↔
        cwm.commit.hash ∈ g.dag.ancestors x ∧ cwm.commit.hash ≠ x := by
      rw [h.reached, or_iff_right (hd.ne_head hrest.1)]
    cases hmove with
    | forward hchild => exact absurd hchild (hd.not_child hrest.1)
    | reject _ hup _ _ _ _ =>
      have hmid : Replaced g x t { st with rejected := st.rejected ++ [rejection cwm] } :=
        ⟨hd.rejected _, h.reached, h.held⟩
      obtain ⟨st', t', hrun, hrep, hrej, hlast⟩ := ih hrest.2 hmid
      refine ⟨st', t', replayCommits_cons.mpr ⟨_, hstep, hrun⟩, hrep, fun r hr => ?_, ?_⟩
      · rcases hrej r hr with hr | hr
        · rcases List.mem_append.mp hr with hr | hr
          · exact Or.inl hr
          · exact Or.inr (by simp [hashes, List.mem_singleton.mp hr, rejection])
        · exact Or.inr (List.mem_cons_of_mem _ hr)
      · rcases hlast with ⟨rfl, hnone⟩ | ⟨c, hc, hlc⟩
        · refine Or.inl ⟨rfl, fun c hc => ?_⟩
          rcases List.mem_cons.mp hc with rfl | hc
          · exact fun hx => hup (hin.mpr hx)
          · exact hnone c hc
        · exact Or.inr ⟨c, List.mem_cons_of_mem _ hc, hlc⟩
    | amend _ hmerge ha =>
      have hup : cwm.commit.hash ∈ st.store.dag.ancestors st.headHash := by
        rcases hmerge with hup | hdown | ⟨root, hroot⟩
        · exact hup
        · exact absurd hdown (hd.not_below hrest.1)
        · exact absurd (refuseAllBut_merged hroot) (by simp)
      have hmid : Replaced g x cwm.hlc mid := by
        refine ⟨hd.amended ha, fun y => ?_, _, ha.metadata_head⟩
        rw [hd.mem_ancestors ha hrest.1, if_pos hup, h.reached]
        refine or_congr Iff.rfl ⟨fun hy => hy.1.resolve_left hy.2, fun hy => ⟨Or.inr hy, ?_⟩⟩
        exact hd.ne_head (Lib.Dag.mem_keys_of_mem_ancestors hy.1)
      obtain ⟨st', t', hrun, hrep, hrej, hlast⟩ := ih hrest.2 hmid
      refine ⟨st', t', replayCommits_cons.mpr ⟨_, hstep, hrun⟩, hrep, fun r hr => ?_, ?_⟩
      · rcases hrej r hr with hr | hr
        · exact Or.inl (ha.rejected ▸ hr)
        · exact Or.inr (List.mem_cons_of_mem _ hr)
      · right
        rcases hlast with ⟨rfl, -⟩ | ⟨c, hc, hlc⟩
        · exact ⟨cwm, List.mem_cons_self, rfl⟩
        · exact ⟨c, List.mem_cons_of_mem _ hc, hlc⟩

theorem Replaced.lossy {commits : List CommitWithMeta} {cwm c₀ : CommitWithMeta}
    {m : CommitMetadata} (h : Replaced g c₀.commit.hash t st)
    (hrest : ∀ c ∈ hashes rest, c ∈ g.dag.keys) (hc₀ : c₀ ∈ commits)
    (hm : parseCommitMetadata c₀.commit.message = some m)
    (hmeta : g.metadata? c₀.commit.hash = some m)
    (hout : ¬ outlivesAmend g c₀.commit.hash (cwm :: rest))
    (hback : ∀ t', (t' = t ∧ ∀ c ∈ rest, ¬ (c.commit.hash ∈ g.dag.ancestors c₀.commit.hash ∧
      c.commit.hash ≠ c₀.commit.hash)) ∨ (∃ c ∈ rest, t' = c.hlc) → t' = m.hlc →
      ∀ c ∈ cwm :: rest, c.commit.hash ∈ g.dag.ancestors c₀.commit.hash → c.hlc = m.hlc)
    (hrej : ∀ r ∈ st.rejected, r.1.commitHash ≠ c₀.commit.hash)
    (hnot : c₀.commit.hash ∉ hashes rest) :
    ∃ st', replayCommits (refuseAllBut none) st rest = .ok st' ∧
      ¬ LosesNothing st'.store st'.headHash st'.rejected base commits := by
  obtain ⟨st', t', hrun, hrep, hrej', hlast⟩ := h.run hrest
  refine ⟨st', hrun, fun hkeep => ?_⟩
  rcases hkeep.kept c₀ hc₀ m hm with hcar | hr
  · refine hrep.not_carried (fun hb => hout ⟨m, hmeta, Or.inl hb⟩) (fun hcar' => ?_) hcar
    obtain ⟨ht, hmade⟩ := carries_mergeMetadata.mp hcar'
    exact hout ⟨m, hmeta, Or.inr ⟨hmade, hback t' hlast ht⟩⟩
  · rcases hrej' _ hr with hr | hr
    · exact hrej _ hr rfl
    · exact hnot hr

theorem Listed.notMem_hashes {c : CommitWithMeta} (hl : Listed g (done ++ rest)) (hc : c ∈ done) :
    c.commit.hash ∉ hashes rest := by
  intro hmem
  obtain ⟨b, hb, hhash⟩ := List.mem_map.mp hmem
  exact hl.hash_ne hc hb hhash.symm

theorem Listed.rest_mem_keys (hl : Listed g (done ++ rest)) :
    ∀ c ∈ hashes rest, c ∈ g.dag.keys := by
  intro c hc
  apply hl.mem_keys
  simp only [hashes, List.map_append, List.mem_append]
  exact Or.inr hc

theorem Replaced.lossy_head {cwm : CommitWithMeta} {head : Hash}
    (hl : Listed g (done ++ cwm :: rest)) (hbase : base ∈ g.dag.keys)
    (h : Replaced g head cwm.hlc st) (hhead : head = base ∨ head ∈ hashes done)
    (hout : ¬(head ≠ base ∧ outlivesAmend g head (cwm :: rest)))
    (hrej : ∀ r ∈ st.rejected, r.1.commitHash ≠ head) :
    ∃ st', replayCommits (refuseAllBut none) st rest = .ok st' ∧
      ¬ LosesNothing st'.store st'.headHash st'.rejected base (done ++ cwm :: rest) := by
  have hassoc : done ++ cwm :: rest = (done ++ [cwm]) ++ rest := by simp
  have hrest := (hassoc ▸ hl).rest_mem_keys
  by_cases hb : head = base
  · obtain ⟨st', t', hrun, hrep, -, -⟩ := h.run hrest
    refine ⟨st', hrun, fun hkeep => ?_⟩
    rcases (hrep.reached base).mp hkeep.base_mem with heq | ⟨-, hne⟩
    · exact hrep.detached.ne_head hbase heq
    · exact hne hb.symm
  · obtain ⟨c₀, hc₀, rfl⟩ := List.mem_map.mp (hhead.resolve_left hb)
    obtain ⟨m, hm, hhlc, hmeta⟩ := hl.metadata (List.mem_append_left _ hc₀)
    apply h.lossy hrest (List.mem_append_left (cwm :: rest) hc₀) hm hmeta
    · exact fun hlives => hout ⟨hb, hlives⟩
    · -- a later commit with the timestamp of the lost one is alone in having it
      intro t' hlast ht c hcr _
      rw [hhlc] at ht ⊢
      rcases hlast with ⟨rfl, -⟩ | ⟨b, hb', rfl⟩
      · exact hl.hlc_eq hc₀ List.mem_cons_self hcr ht
      · exact hl.hlc_eq hc₀ (List.mem_cons_of_mem _ hb') hcr ht
    · exact hrej
    · exact (hassoc ▸ hl).notMem_hashes (List.mem_append_left [cwm] hc₀)

theorem Replaced.lossy_commit {cwm : CommitWithMeta} (hl : Listed g (done ++ cwm :: rest))
    (h : Replaced g cwm.commit.hash cwm.hlc st)
    (hout : ¬ outlivesAmend g cwm.commit.hash (cwm :: rest))
    (hrej : ∀ r ∈ st.rejected, r.1.commitHash ≠ cwm.commit.hash) :
    ∃ st', replayCommits (refuseAllBut none) st rest = .ok st' ∧
      ¬ LosesNothing st'.store st'.headHash st'.rejected base (done ++ cwm :: rest) := by
  have hassoc : done ++ cwm :: rest = (done ++ [cwm]) ++ rest := by simp
  have hmem : cwm ∈ done ++ cwm :: rest := by simp
  obtain ⟨m, hm, hhlc, hmeta⟩ := hl.metadata hmem
  apply h.lossy (hassoc ▸ hl).rest_mem_keys hmem hm hmeta hout
  · intro t' hlast ht c hcr hanc
    rcases List.mem_cons.mp hcr with rfl | hcr
    · exact hhlc.symm
    · rw [hhlc] at ht ⊢
      rcases hlast with ⟨-, hnone⟩ | ⟨b, hb, rfl⟩
      · exact absurd ⟨hanc, (hl.cons_hash_ne hcr).symm⟩ (hnone c hcr)
      · exact (hassoc ▸ hl).hlc_eq (by simp) hb hcr ht
  · exact hrej
  · exact (hassoc ▸ hl).notMem_hashes (by simp)

/-- A list that is not safe loses a commit when every merge is refused. -/
theorem lossy_of_not_replaySafe {head : Hash} (hl : Listed g (done ++ rest))
    (hbase : base ∈ g.dag.keys) (hsafe : ¬ replaySafe g base head rest) (h : Attached g st)
    (hst : st.headHash = head) (hhead : head = base ∨ head ∈ hashes done)
    (hrej : ∀ r ∈ st.rejected, r.1.commitHash ∈ hashes done ∧ r.1.commitHash ≠ head) :
    ∃ st', replayCommits (refuseAllBut none) st rest = .ok st' ∧
      ¬ LosesNothing st'.store st'.headHash st'.rejected base (done ++ rest) := by
  induction rest generalizing st done head with
  | nil => exact absurd trivial hsafe
  | cons cwm rest ih =>
    subst hst
    have hassoc : done ++ cwm :: rest = (done ++ [cwm]) ++ rest := by simp
    have hc : cwm.commit.hash ∈ g.dag.keys := hl.mem_keys _ (by simp [hashes])
    have hnew : ∀ r ∈ st.rejected, r.1.commitHash ∈ hashes (done ++ [cwm]) ∧
        r.1.commitHash ≠ cwm.commit.hash := by
      intro r hr
      obtain ⟨c, hcd, hhash⟩ := List.mem_map.mp (hrej r hr).1
      refine ⟨by simp only [hashes, List.map_append, List.mem_append]; exact Or.inl (hrej r hr).1,
        ?_⟩
      exact hhash ▸ hl.hash_ne hcd List.mem_cons_self
    obtain ⟨mid, hstep, hmove⟩ := exists_refusedMove none h.grown h.head_mem_store hc
    rw [replaySafe] at hsafe
    by_cases hchild : isChildOf g cwm.commit.hash st.headHash
    · rw [if_pos hchild] at hsafe
      have hchild' := (isChildOf_of_le h.grown hc).mpr hchild
      cases hmove with
      | forward _ =>
        have hmid : Attached g { st with headHash := cwm.commit.hash } := ⟨h.grown, hc⟩
        obtain ⟨st', hrun, hlost⟩ :=
          ih (hassoc ▸ hl) hsafe hmid rfl (Or.inr (by simp [hashes])) hnew
        exact ⟨st', replayCommits_cons.mpr ⟨_, hstep, hrun⟩, hassoc ▸ hlost⟩
      | reject hne _ _ _ _ _ => exact absurd hchild' hne
      | amend hne _ _ => exact absurd hchild' hne
    rw [if_neg hchild] at hsafe
    have hnchild : ¬ isChildOf st.store cwm.commit.hash st.headHash := fun hc' =>
      hchild ((isChildOf_of_le h.grown hc).mp hc')
    have hancH := Lib.Dag.ancestors_of_le h.grown h.head_mem
    have hancC := Lib.Dag.ancestors_of_le h.grown hc
    by_cases hup : cwm.commit.hash ∈ g.dag.ancestors st.headHash
    · -- nothing was merged: the head is amended away
      rw [if_pos hup] at hsafe
      cases hmove with
      | forward hc' => exact absurd hc' hnchild
      | reject _ hup' _ _ _ _ => exact absurd (hancH ▸ hup) hup'
      | amend _ _ ha =>
        have hrep : Replaced g st.headHash cwm.hlc mid :=
          h.replaced ha hc fun y => by rw [survivesAmend, if_pos hup]
        obtain ⟨st', hrun, hlost⟩ := hrep.lossy_head hl hbase hhead hsafe
          fun r hr => (hrej r (ha.rejected ▸ hr)).2
        exact ⟨st', replayCommits_cons.mpr ⟨mid, hstep, hrun⟩, hlost⟩
    rw [if_neg hup] at hsafe
    by_cases hdown : st.headHash ∈ g.dag.ancestors cwm.commit.hash
    · -- the merge was a fast-forward: the commit itself is amended away
      rw [if_pos hdown] at hsafe
      cases hmove with
      | forward hc' => exact absurd hc' hnchild
      | reject _ _ hdown' _ _ _ => exact absurd (hancC ▸ hdown) hdown'
      | amend _ _ ha =>
        have hrep : Replaced g cwm.commit.hash cwm.hlc mid :=
          h.replaced ha hc fun y => by rw [survivesAmend, if_neg hup, if_pos hdown]
        obtain ⟨st', hrun, hlost⟩ := hrep.lossy_commit hl hsafe
          fun r hr => (hnew r (ha.rejected ▸ hr)).2
        exact ⟨st', replayCommits_cons.mpr ⟨mid, hstep, hrun⟩, hlost⟩
    · rw [if_neg hdown] at hsafe
      cases hmove with
      | forward hc' => exact absurd hc' hnchild
      | amend _ hmerge _ =>
        rw [hancH, hancC] at hmerge
        obtain ⟨root, hroot⟩ := (hmerge.resolve_left hup).resolve_left hdown
        exact absurd (refuseAllBut_merged hroot) (by simp)
      | reject _ _ _ _ _ _ =>
        have hmid := h.rejected (st.rejected ++ [rejection cwm])
        have hne : cwm.commit.hash ≠ st.headHash := fun heq =>
          hup (heq ▸ Lib.Dag.self_mem_ancestors hc)
        have hhead' : st.headHash = base ∨ st.headHash ∈ hashes (done ++ [cwm]) := by
          refine hhead.imp id fun hm => ?_
          simp only [hashes, List.map_append, List.mem_append]
          exact Or.inl hm
        have hrej' : ∀ r ∈ st.rejected ++ [rejection cwm],
            r.1.commitHash ∈ hashes (done ++ [cwm]) ∧ r.1.commitHash ≠ st.headHash := by
          intro r hr
          rcases List.mem_append.mp hr with hr | hr
          · exact ⟨(hnew r hr).1, (hrej r hr).2⟩
          · obtain rfl := List.mem_singleton.mp hr
            exact ⟨by simp [hashes, rejection], hne⟩
        obtain ⟨st', hrun, hlost⟩ := ih (hassoc ▸ hl) hsafe hmid rfl hhead' hrej'
        exact ⟨st', replayCommits_cons.mpr ⟨_, hstep, hrun⟩, hassoc ▸ hlost⟩

end Unsafe

/-- What a call that succeeds leaves behind. -/
def ReplayResult.LosesNothing (out : ReplayResult) (base : Hash)
    (commits : List CommitWithMeta) : Prop :=
  Core.LosesNothing out.repo.store out.repo.main out.rejected base commits

theorem losesNothing_iff_replaySafe {repo : Repo} {base : Hash}
    (hbase : base ∈ repo.store.dag.keys) {commits : List CommitWithMeta}
    (hl : Listed repo.store commits) :
    (∀ env : Env, env.Sound ⟨repo.store, base, 0, []⟩ commits → ∀ n,
      (replayToTempBranchThenUpdateMain env repo base repo.main commits).result = .ok n →
      (replayToTempBranchThenUpdateMain env repo base repo.main commits).LosesNothing base
        commits) ↔ replaySafe repo.store base base commits := by
  have hl' : Listed repo.store ([] ++ commits) := hl
  have hstart : Attached repo.store ⟨repo.store, base, 0, []⟩ := ⟨Lib.Dag.le_rfl, hbase⟩
  constructor
  · intro h
    by_contra hsafe
    obtain ⟨st, hrun, hlost⟩ :=
      lossy_of_not_replaySafe hl' hbase hsafe hstart rfl (Or.inl rfl) (by simp)
    have hhead := replayCommits_head_mem (refuseAllBut_sound none _ _) hstart.head_mem_store
      hl.mem_keys hrun
    have hres := replayTo_of_run (refuseAllBut_smooth none) rfl hbase hrun hhead
    have hkeep := h _ (refuseAllBut_sound none _ _) _ hres
    obtain ⟨st', hrun', hstore, hmain, hrej⟩ := replayTo_ok hres
    rw [hrun] at hrun'
    obtain rfl := Except.ok.inj hrun'
    rw [ReplayResult.LosesNothing, hstore, hmain, hrej] at hkeep
    exact hlost hkeep
  · intro hsafe env henv n hres
    obtain ⟨st, hrun, hstore, hmain, hrej⟩ := replayTo_ok hres
    rw [ReplayResult.LosesNothing, hstore, hmain, hrej]
    exact replaySafe_run henv hl' hstart (Lib.Dag.self_mem_ancestors hbase) (by simp) hsafe hrun

/-- A replay of collected commits loses none of them, and keeps its base, whatever the merges
give, exactly if the list is safe. -/
theorem replay_loses_no_commit_iff (repo : Repo) {base : Hash}
    (hbase : base ∈ repo.store.dag.keys) {ours imported : List Commit}
    (hs : Stored repo.store (ours ++ imported)) (order : RangeOrder CommitWithMeta)
    (fb : Option FinalizedBase) :
    (∀ env : Env,
      env.Sound ⟨repo.store, base, 0, []⟩ (collectUserCommits order ours imported fb) → ∀ n,
      (replayToTempBranchThenUpdateMain env repo base repo.main
        (collectUserCommits order ours imported fb)).result = .ok n →
      (replayToTempBranchThenUpdateMain env repo base repo.main
        (collectUserCommits order ours imported fb)).LosesNothing base
          (collectUserCommits order ours imported fb)) ↔
      replaySafe repo.store base base (collectUserCommits order ours imported fb) :=
  losesNothing_iff_replaySafe hbase (listed_collectUserCommits hs order fb)

/-- As `forkRepo`, but the other commit stands on a commit without metadata. -/
def gapRepo : Repo :=
  ⟨⟨⟨[userNode "commit-b" ["commit-i"] (written "bob" 9),
      userNode "commit-a" ["commit-p"] (written "alice" 5), plainNode "commit-p" ["commit-i"],
      plainNode "commit-i" []], by decide +kernel⟩, by decide +kernel⟩, "commit-b",
    by decide +kernel⟩

def sampleCommits (s : Store) : List CommitWithMeta :=
  collectUserCommits (RangeOrder.asStored _) (["commit-b"].filterMap s.commit?)
    (["commit-a"].filterMap s.commit?) none

theorem replay_loses_no_commit_iff_on_fork :
    (replayToTempBranchThenUpdateMain (refuseAllBut (some "commit-b")) forkRepo "commit-i"
      forkRepo.main (sampleCommits forkRepo.store)).LosesNothing "commit-i"
        (sampleCommits forkRepo.store) :=
  (replay_loses_no_commit_iff forkRepo (by decide +kernel) (by decide +kernel) _ _).mpr
    (by decide +kernel) _ (refuseAllBut_sound _ _ _) 1 (by decide +kernel)

/-- The branch moves forward to `commit-a`, which is then amended away. -/
theorem replay_amends_fast_forwarded_commit :
    (refuseAllBut (some "commit-b")).Sound ⟨gapRepo.store, "commit-i", 0, []⟩
        (sampleCommits gapRepo.store) ∧
      (replayToTempBranchThenUpdateMain (refuseAllBut (some "commit-b")) gapRepo "commit-i"
        gapRepo.main (sampleCommits gapRepo.store)).result = .ok 2 ∧
      ¬ (replayToTempBranchThenUpdateMain (refuseAllBut (some "commit-b")) gapRepo "commit-i"
        gapRepo.main (sampleCommits gapRepo.store)).LosesNothing "commit-i"
          (sampleCommits gapRepo.store) := by
  refine ⟨refuseAllBut_sound _ _ _, by decide +kernel, fun h => ?_⟩
  have hkept := h.kept ⟨⟨"commit-a", "alice", "alice@doltswarm", 5, .json (written "alice" 5)⟩,
    ⟨5, 0, "alice"⟩⟩ (by decide +kernel) (written "alice" 5) rfl
  exact absurd hkept (by decide +kernel)

end DoltSwarm.Core
