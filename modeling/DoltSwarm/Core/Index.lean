import DoltSwarm.Core.Reconciler

/-!
# The commit index and the finalized base (core/index_mem.go, core/node.go)

The index holds one entry per timestamp. It is rebuilt from `main` after every change of
`main`; the finalized base is taken from it and survives the rebuilds. Times at which
entries were touched are never read and are left out.
-/

namespace DoltSwarm.Core

set_option autoImplicit false

inductive CommitStatus
  | unknown
  | pending
  | applied
  | rejected
  deriving DecidableEq, Repr

structure CommitIndexEntry where
  hlc : HLCTimestamp
  commitHash : Hash
  status : CommitStatus
  deriving DecidableEq, Repr

structure MemoryCommitIndex where
  entries : AList fun _ : String => CommitIndexEntry
  keyed : ∀ k e, entries.lookup k = some e → e.hlc.string = k
  finalizedBase : Option FinalizedBase

namespace MemoryCommitIndex

def newMemoryCommitIndex : MemoryCommitIndex := ⟨∅, by simp, none⟩

/-- The finalized base is kept. -/
def resetForRebuild (idx : MemoryCommitIndex) : MemoryCommitIndex :=
  { idx with entries := ∅, keyed := by simp }

def upsert (idx : MemoryCommitIndex) (e : CommitIndexEntry) : MemoryCommitIndex where
  entries := idx.entries.insert e.hlc.string e
  keyed := by
    intro k e' h
    by_cases hk : k = e.hlc.string
    · subst hk
      rw [AList.lookup_insert] at h
      rw [← Option.some.inj h]
    · rw [AList.lookup_insert_ne hk] at h
      exact idx.keyed k e' h
  finalizedBase := idx.finalizedBase

def get (idx : MemoryCommitIndex) (hlc : HLCTimestamp) : Option CommitIndexEntry :=
  idx.entries.lookup hlc.string

/-- Sorted by timestamp; no two entries share one, so the order of the map does not show. -/
def listAfter (idx : MemoryCommitIndex) (after : HLCTimestamp) (limit : ℕ) :
    List CommitIndexEntry :=
  let out := Lib.sortList (fun a b => a.hlc.less b.hlc)
    ((idx.entries.entries.map Sigma.snd).filter fun e => after.less e.hlc)
  if 0 < limit ∧ limit < out.length then out.take limit else out

/-- Only an advance is taken. -/
def setFinalizedBase (idx : MemoryCommitIndex) (fb : FinalizedBase) : MemoryCommitIndex :=
  match idx.finalizedBase with
  | some cur =>
    if fb.hlc.less cur.hlc || fb.hlc.equal cur.hlc then idx
    else { idx with finalizedBase := some fb }
  | none => { idx with finalizedBase := some fb }

theorem get_upsert (idx : MemoryCommitIndex) (e : CommitIndexEntry) (hlc : HLCTimestamp) :
    (idx.upsert e).get hlc = if hlc = e.hlc then some e else idx.get hlc := by
  simp only [get, upsert]
  split
  · next h => rw [h, AList.lookup_insert]
  · next h => rw [AList.lookup_insert_ne fun hs => h (HLCTimestamp.string_injective hs)]

@[simp] theorem get_resetForRebuild (idx : MemoryCommitIndex) (hlc : HLCTimestamp) :
    idx.resetForRebuild.get hlc = none := by
  simp [get, resetForRebuild]

@[simp] theorem upsert_finalizedBase (idx : MemoryCommitIndex) (e : CommitIndexEntry) :
    (idx.upsert e).finalizedBase = idx.finalizedBase := rfl

theorem mem_listAfter {idx : MemoryCommitIndex} {after : HLCTimestamp} {e : CommitIndexEntry} :
    e ∈ idx.listAfter after 0 ↔ idx.get e.hlc = some e ∧ after.less e.hlc = true := by
  simp only [listAfter, lt_irrefl, false_and, if_false, Lib.mem_sortList, List.mem_filter,
    List.mem_map]
  refine and_congr_left fun _ => ⟨?_, fun h => ⟨⟨_, e⟩, AList.mem_lookup_iff.mp h, rfl⟩⟩
  rintro ⟨⟨k, e'⟩, hmem, rfl⟩
  have hlook := AList.mem_lookup_iff.mpr hmem
  rw [get, idx.keyed k e' hlook]
  exact hlook

end MemoryCommitIndex

section Rebuild

/-- `none` is the error of a database that cannot be read. -/
def getAllCommits (repo : Repo) (readFails : Bool) : Option (List Commit) :=
  if readFails then none else getCommitsSince repo.store repo.main ""

def indexCommit (idx : MemoryCommitIndex) (c : Commit) : MemoryCommitIndex :=
  match parseCommitMetadata c.message with
  | none => idx
  | some metadata =>
    if metadata.kind ≠ commitKindUser then idx
    else idx.upsert ⟨metadata.hlc, c.hash, .applied⟩

def restoreEntry (idx : MemoryCommitIndex) (e : CommitIndexEntry) : MemoryCommitIndex :=
  match idx.get e.hlc with
  | some cur => if cur.status = .applied then idx else idx.upsert e
  | none => idx.upsert e

def preservedEntries (idx : MemoryCommitIndex) : List CommitIndexEntry :=
  (idx.listAfter HLCTimestamp.zero 0).filter fun e => e.status ≠ .applied ∧ e.status ≠ .unknown

/-- A rebuild that cannot read the database leaves the index empty. -/
def initIndexFromDB (repo : Repo) (readFails : Bool) (idx : MemoryCommitIndex) :
    MemoryCommitIndex :=
  match getAllCommits repo readFails with
  | none => idx.resetForRebuild
  | some commits =>
    (preservedEntries idx).foldl restoreEntry (commits.foldl indexCommit idx.resetForRebuild)

def Repo.carriesHLC (repo : Repo) (hlc : HLCTimestamp) : Prop :=
  ∃ x ∈ repo.store.dag.ancestors repo.main, ∃ m ∈ repo.store.metadata? x, m.hlc = hlc

instance (repo : Repo) (hlc : HLCTimestamp) : Decidable (repo.carriesHLC hlc) :=
  inferInstanceAs (Decidable (∃ x ∈ repo.store.dag.ancestors repo.main,
    ∃ m ∈ repo.store.metadata? x, m.hlc = hlc))

variable {idx : MemoryCommitIndex} {hlc : HLCTimestamp} {e : CommitIndexEntry}

theorem get_indexCommit (idx : MemoryCommitIndex) (c : Commit) (hlc : HLCTimestamp) :
    (indexCommit idx c).get hlc =
      match parseCommitMetadata c.message with
      | some m => if hlc = m.hlc then some ⟨hlc, c.hash, .applied⟩ else idx.get hlc
      | none => idx.get hlc := by
  unfold indexCommit
  cases h : parseCommitMetadata c.message with
  | none => rfl
  | some m =>
    simp only [parseCommitMetadata_kind h, ne_eq, not_true_eq_false, if_false,
      MemoryCommitIndex.get_upsert]
    split
    · next heq => rw [heq]
    · rfl

theorem get_foldl_indexCommit (cs : List Commit) (idx : MemoryCommitIndex)
    (h : (cs.foldl indexCommit idx).get hlc = some e) : idx.get hlc = some e ∨
      ∃ c ∈ cs, ∃ m, parseCommitMetadata c.message = some m ∧ m.hlc = hlc ∧
        e = ⟨hlc, c.hash, .applied⟩ := by
  induction cs generalizing idx with
  | nil => exact Or.inl h
  | cons c cs ih =>
    rcases ih _ h with hidx | ⟨c', hc', hm⟩
    · rw [get_indexCommit] at hidx
      split at hidx
      · next m hm =>
        split at hidx
        · next heq =>
          exact Or.inr ⟨c, List.mem_cons_self, m, hm, heq.symm, (Option.some.inj hidx).symm⟩
        · exact Or.inl hidx
      · exact Or.inl hidx
    · exact Or.inr ⟨c', List.mem_cons_of_mem _ hc', hm⟩

theorem applied_foldl_indexCommit (cs : List Commit) (idx : MemoryCommitIndex)
    (h : (∃ e, idx.get hlc = some e ∧ e.status = .applied) ∨
      ∃ c ∈ cs, ∃ m, parseCommitMetadata c.message = some m ∧ m.hlc = hlc) :
    ∃ e, (cs.foldl indexCommit idx).get hlc = some e ∧ e.status = .applied := by
  induction cs generalizing idx with
  | nil =>
    rcases h with h | ⟨c, hc, -⟩
    · exact h
    · simp at hc
  | cons c cs ih =>
    refine ih _ ?_
    rw [get_indexCommit]
    by_cases hc : ∃ m, parseCommitMetadata c.message = some m ∧ m.hlc = hlc
    · obtain ⟨m, hm, rfl⟩ := hc
      exact Or.inl ⟨⟨m.hlc, c.hash, .applied⟩, by simp [hm], rfl⟩
    · have hsame : (match parseCommitMetadata c.message with
          | some m => if hlc = m.hlc then some ⟨hlc, c.hash, .applied⟩ else idx.get hlc
          | none => idx.get hlc) = idx.get hlc := by
        cases hp : parseCommitMetadata c.message with
        | none => rfl
        | some m => exact if_neg fun heq => hc ⟨m, hp, heq.symm⟩
      rw [hsame]
      rcases h with h | ⟨c', hc', m, hm, heq⟩
      · exact Or.inl h
      · rcases List.mem_cons.mp hc' with rfl | hc'
        · exact absurd ⟨m, hm, heq⟩ hc
        · exact Or.inr ⟨c', hc', m, hm, heq⟩

theorem get_foldl_restoreEntry (es : List CommitIndexEntry) (idx : MemoryCommitIndex)
    (h : (es.foldl restoreEntry idx).get hlc = some e) :
    idx.get hlc = some e ∨ e ∈ es ∧ e.hlc = hlc := by
  induction es generalizing idx with
  | nil => exact Or.inl h
  | cons a es ih =>
    have hstep : (restoreEntry idx a).get hlc = some e → idx.get hlc = some e ∨
        e ∈ a :: es ∧ e.hlc = hlc := by
      have hup : (idx.upsert a).get hlc = some e → idx.get hlc = some e ∨
          e ∈ a :: es ∧ e.hlc = hlc := by
        intro hup
        rw [MemoryCommitIndex.get_upsert] at hup
        split at hup
        · next heq =>
          obtain rfl := Option.some.inj hup
          exact Or.inr ⟨List.mem_cons_self, heq.symm⟩
        · exact Or.inl hup
      unfold restoreEntry
      split
      · split
        · exact Or.inl
        · exact hup
      · exact hup
    rcases ih _ h with hidx | ⟨hmem, heq⟩
    · exact hstep hidx
    · exact Or.inr ⟨List.mem_cons_of_mem _ hmem, heq⟩

theorem applied_foldl_restoreEntry (es : List CommitIndexEntry) (idx : MemoryCommitIndex)
    (h : idx.get hlc = some e) (happ : e.status = .applied) :
    (es.foldl restoreEntry idx).get hlc = some e := by
  induction es generalizing idx with
  | nil => exact h
  | cons a es ih =>
    refine ih _ ?_
    have hother : hlc ≠ a.hlc → (idx.upsert a).get hlc = some e := fun hne => by
      rw [MemoryCommitIndex.get_upsert, if_neg hne, h]
    unfold restoreEntry
    by_cases heq : hlc = a.hlc
    · simp [← heq, h, happ]
    · split
      · split
        · exact h
        · exact hother heq
      · exact hother heq

theorem get_initIndexFromDB {repo : Repo} (h : (initIndexFromDB repo false idx).get hlc = some e) :
    (e.status = .applied ∧ ∃ x ∈ repo.store.dag.ancestors repo.main,
      ∃ m ∈ repo.store.metadata? x, m.hlc = hlc ∧ e.commitHash = x) ∨
    (e ∈ preservedEntries idx ∧ e.hlc = hlc) := by
  obtain ⟨cs, hcs, hstored, hmem⟩ := getCommitsSince_all repo.store repo.main_mem
  simp only [initIndexFromDB, getAllCommits, Bool.false_eq_true, if_false, hcs] at h
  rcases get_foldl_restoreEntry _ _ h with h | h
  · rcases get_foldl_indexCommit cs _ h with h | ⟨c, hc, m, hm, hhlc, rfl⟩
    · simp at h
    · refine Or.inl ⟨rfl, c.hash, (hmem _).mp (List.mem_map_of_mem hc), m, ?_, hhlc, rfl⟩
      simp [Store.metadata?, hstored c hc, hm]
  · exact Or.inr h

theorem applied_initIndexFromDB {repo : Repo} (idx : MemoryCommitIndex)
    (h : repo.carriesHLC hlc) :
    ∃ e, (initIndexFromDB repo false idx).get hlc = some e ∧ e.status = .applied := by
  obtain ⟨cs, hcs, hstored, hmem⟩ := getCommitsSince_all repo.store repo.main_mem
  obtain ⟨x, hx, m, hm, hhlc⟩ := h
  obtain ⟨c, hc, rfl⟩ := List.mem_map.mp ((hmem x).mpr hx)
  have hparse : parseCommitMetadata c.message = some m := by
    simpa [Store.metadata?, hstored c hc] using hm
  obtain ⟨e, he, happ⟩ := applied_foldl_indexCommit cs idx.resetForRebuild
    (Or.inr ⟨c, hc, m, hparse, hhlc⟩)
  refine ⟨e, ?_, happ⟩
  simp only [initIndexFromDB, getAllCommits, Bool.false_eq_true, if_false, hcs]
  exact applied_foldl_restoreEntry _ _ he happ

theorem mem_preservedEntries : e ∈ preservedEntries idx ↔
    idx.get e.hlc = some e ∧ HLCTimestamp.zero.less e.hlc = true ∧
      e.status ≠ .applied ∧ e.status ≠ .unknown := by
  simp [preservedEntries, MemoryCommitIndex.mem_listAfter, and_assoc]

theorem finalizedBase_initIndexFromDB (repo : Repo) (readFails : Bool)
    (idx : MemoryCommitIndex) :
    (initIndexFromDB repo readFails idx).finalizedBase = idx.finalizedBase := by
  have hindex : ∀ (cs : List Commit) (idx : MemoryCommitIndex),
      (cs.foldl indexCommit idx).finalizedBase = idx.finalizedBase := by
    intro cs
    induction cs with
    | nil => exact fun _ => rfl
    | cons c cs ih =>
      intro idx
      rw [List.foldl_cons, ih, indexCommit]
      split
      · rfl
      · split <;> rfl
  have hrestore : ∀ (es : List CommitIndexEntry) (idx : MemoryCommitIndex),
      (es.foldl restoreEntry idx).finalizedBase = idx.finalizedBase := by
    intro es
    induction es with
    | nil => exact fun _ => rfl
    | cons a es ih =>
      intro idx
      rw [List.foldl_cons, ih, restoreEntry]
      split
      · split <;> rfl
      · rfl
  unfold initIndexFromDB
  split
  · rfl
  · rw [hrestore, hindex]
    rfl

end Rebuild

section Finalize

/-- The least of the timestamps heard from the peers; `none` before the first heartbeat. -/
def stableHLC (peerHLC : AList fun _ : String => HLCTimestamp) : Option HLCTimestamp :=
  match peerHLC.entries.map Sigma.snd with
  | [] => none
  | hlc :: rest => some (Lib.best HLCTimestamp.less hlc rest)

theorem stableHLC_le {peerHLC : AList fun _ : String => HLCTimestamp} {stable : HLCTimestamp}
    (hstable : stable ∈ stableHLC peerHLC) {p : String} {h : HLCTimestamp}
    (hp : peerHLC.lookup p = some h) : h.less stable = false := by
  have hmem : h ∈ peerHLC.entries.map Sigma.snd :=
    List.mem_map.mpr ⟨⟨p, h⟩, AList.mem_lookup_iff.mp hp, rfl⟩
  unfold stableHLC at hstable
  split at hstable
  · cases hstable
  · next first rest hlist =>
    obtain rfl := Option.some.inj hstable
    rw [hlist] at hmem
    exact Lib.not_better_best HLCTimestamp.less_strictTotal first rest h hmem

theorem stableHLC_heard {peerHLC : AList fun _ : String => HLCTimestamp} {stable : HLCTimestamp}
    (hstable : stable ∈ stableHLC peerHLC) : ∃ p, peerHLC.lookup p = some stable := by
  unfold stableHLC at hstable
  split at hstable
  · cases hstable
  · next first rest hlist =>
    obtain rfl := Option.some.inj hstable
    have hmem := Lib.best_mem HLCTimestamp.less first rest
    rw [← hlist] at hmem
    obtain ⟨⟨p, h⟩, hentry, heq⟩ := List.mem_map.mp hmem
    exact ⟨p, heq ▸ AList.mem_lookup_iff.mpr hentry⟩

def betterEntry (stable : HLCTimestamp) (currentBase : Option FinalizedBase)
    (best : Option CommitIndexEntry) (e : CommitIndexEntry) : Option CommitIndexEntry :=
  if e.status ≠ .applied then best
  else if !e.hlc.less stable then best
  else if currentBase.any fun base => !base.hlc.less e.hlc then best
  else if best.all fun b => b.hlc.less e.hlc then some e
  else best

def tryFinalize (peerHLC : AList fun _ : String => HLCTimestamp) (idx : MemoryCommitIndex) :
    MemoryCommitIndex :=
  match stableHLC peerHLC with
  | none => idx
  | some stable =>
    if stable.isZero then idx
    else
      match (idx.listAfter HLCTimestamp.zero 0).foldl (betterEntry stable idx.finalizedBase) none
      with
      | none => idx
      | some e => idx.setFinalizedBase ⟨e.hlc, e.commitHash⟩

def finalizable (peerHLC : AList fun _ : String => HLCTimestamp) (idx : MemoryCommitIndex)
    (e : CommitIndexEntry) : Prop :=
  idx.get e.hlc = some e ∧ e.status = .applied ∧ HLCTimestamp.zero.less e.hlc = true ∧
    ∃ stable ∈ stableHLC peerHLC, e.hlc.less stable = true

instance (peerHLC : AList fun _ : String => HLCTimestamp) (idx : MemoryCommitIndex)
    (e : CommitIndexEntry) : Decidable (finalizable peerHLC idx e) :=
  inferInstanceAs (Decidable (_ ∧ _ ∧ _ ∧ ∃ stable ∈ stableHLC peerHLC, e.hlc.less stable = true))

theorem foldl_betterEntry {stable : HLCTimestamp} {base : Option FinalizedBase}
    (es : List CommitIndexEntry) {best : Option CommitIndexEntry} {e : CommitIndexEntry}
    (h : es.foldl (betterEntry stable base) best = some e) : best = some e ∨
      e ∈ es ∧ e.status = .applied ∧ e.hlc.less stable = true ∧
        ∀ b ∈ base, b.hlc.less e.hlc = true := by
  induction es generalizing best with
  | nil => exact Or.inl h
  | cons a es ih =>
    rcases ih h with hb | ⟨hmem, hrest⟩
    · unfold betterEntry at hb
      split_ifs at hb with happ hless hbase hbest
      · exact Or.inl hb
      · exact Or.inl hb
      · exact Or.inl hb
      · obtain rfl := Option.some.inj hb
        refine Or.inr ⟨List.mem_cons_self, not_not.mp happ, by simpa using hless, ?_⟩
        intro b hb'
        simp only [Option.mem_def] at hb'
        simpa [hb'] using hbase
      · exact Or.inl hb
    · exact Or.inr ⟨List.mem_cons_of_mem _ hmem, hrest⟩

theorem foldl_betterEntry_greatest {stable : HLCTimestamp} {base : Option FinalizedBase}
    (es : List CommitIndexEntry) {best : Option CommitIndexEntry} {e : CommitIndexEntry}
    (h : es.foldl (betterEntry stable base) best = some e) :
    (∀ b ∈ best, e.hlc.less b.hlc = false) ∧
      ∀ a ∈ es, a.status = .applied → a.hlc.less stable = true →
        (∀ b ∈ base, b.hlc.less a.hlc = true) → e.hlc.less a.hlc = false := by
  induction es generalizing best with
  | nil =>
    refine ⟨fun b hb => ?_, by simp⟩
    obtain rfl := Option.some.inj (hb.symm.trans h)
    exact HLCTimestamp.less_irrefl _
  | cons a es ih =>
    obtain ⟨hbest, hrest⟩ := ih h
    -- what the round keeps in hand is as high as the entry it looks at
    have hround : (∀ b ∈ best, e.hlc.less b.hlc = false) ∧
        (a.status = .applied → a.hlc.less stable = true →
          (∀ b ∈ base, b.hlc.less a.hlc = true) → e.hlc.less a.hlc = false) := by
      unfold betterEntry at hbest
      split_ifs at hbest with happ hless hbase hhigher
      · exact ⟨hbest, fun h => absurd h happ⟩
      · exact ⟨hbest, fun _ h => by simp [h] at hless⟩
      · refine ⟨hbest, fun _ _ h => ?_⟩
        cases base with
        | none => simp at hbase
        | some b => simp [h b rfl] at hbase
      · have ha := hbest a rfl
        refine ⟨fun b hb => ?_, fun _ _ _ => ha⟩
        have hlow : b.hlc.less a.hlc = true := by simpa [Option.mem_def.mp hb] using hhigher
        by_contra hlt
        rw [HLCTimestamp.less_trans (by simpa using hlt) hlow] at ha
        cases ha
      · refine ⟨hbest, fun _ _ _ => ?_⟩
        cases best with
        | none => simp at hhigher
        | some b =>
          have hb := hbest b rfl
          have hlow : b.hlc.less a.hlc = false := by simpa using hhigher
          by_contra hlt
          rw [HLCTimestamp.less_of_less_of_not_less (by simpa using hlt) hlow] at hb
          cases hb
    refine ⟨hround.1, fun b hb => ?_⟩
    rcases List.mem_cons.mp hb with rfl | hb
    · exact hround.2
    · exact hrest b hb

theorem tryFinalize_cases (peerHLC : AList fun _ : String => HLCTimestamp)
    (idx : MemoryCommitIndex) : tryFinalize peerHLC idx = idx ∨
      ∃ e, finalizable peerHLC idx e ∧ ((∀ b ∈ idx.finalizedBase, b.hlc.less e.hlc = true) ∧
          ∀ e', finalizable peerHLC idx e' → e.hlc.less e'.hlc = false) ∧
        tryFinalize peerHLC idx = { idx with finalizedBase := some ⟨e.hlc, e.commitHash⟩ } := by
  unfold tryFinalize
  split
  · exact Or.inl rfl
  · next stable hstable =>
    split
    · exact Or.inl rfl
    · split
      · exact Or.inl rfl
      · next e he =>
        right
        rcases foldl_betterEntry _ he with hnone | ⟨hmem, happ, hless, hbase⟩
        · cases hnone
        · obtain ⟨hget, hzero⟩ := MemoryCommitIndex.mem_listAfter.mp hmem
          refine ⟨e, ⟨hget, happ, hzero, stable, hstable, hless⟩, ⟨hbase, ?_⟩, ?_⟩
          · rintro e' ⟨hget', happ', hzero', stable', hstable', hless'⟩
            obtain rfl := Option.some.inj (hstable.symm.trans hstable')
            by_cases habove : ∀ b ∈ idx.finalizedBase, b.hlc.less e'.hlc = true
            · exact (foldl_betterEntry_greatest _ he).2 e'
                (MemoryCommitIndex.mem_listAfter.mpr ⟨hget', hzero'⟩) happ' hless' habove
            · simp only [not_forall] at habove
              obtain ⟨b, hb, hlow⟩ := habove
              exact HLCTimestamp.not_less_of_less
                (HLCTimestamp.less_of_not_less_of_less (by simpa using hlow) (hbase b hb))
          · unfold MemoryCommitIndex.setFinalizedBase
            split
            · next cur hcur =>
              have hlt := hbase cur hcur
              rw [if_neg]
              simp only [Bool.or_eq_true, not_or, Bool.not_eq_true]
              refine ⟨HLCTimestamp.not_less_of_less hlt, ?_⟩
              rw [Bool.eq_false_iff, ne_eq, HLCTimestamp.equal_iff]
              rintro heq
              rw [heq, HLCTimestamp.less_irrefl] at hlt
              cases hlt
            · rfl

end Finalize

end DoltSwarm.Core
