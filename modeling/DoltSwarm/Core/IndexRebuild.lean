import DoltSwarm.Core.Index

/-!
# What a rebuild of the commit index keeps (core/node.go)

The rebuild reads the entries to keep with a query for timestamps above zero and clears the
index before it reads the database. Entries at or below zero are therefore not kept, and an
error leaves the index empty.
-/

namespace DoltSwarm.Core

set_option autoImplicit false

def CommitStatus.unsettled (status : CommitStatus) : Prop := status = .pending ∨ status = .rejected

instance (status : CommitStatus) : Decidable status.unsettled :=
  inferInstanceAs (Decidable (status = .pending ∨ status = .rejected))

/-- What is expected of a rebuild, with `idx` before and `idx'` after it. -/
structure RebuildContract (repo : Repo) (readFails : Bool) (idx idx' : MemoryCommitIndex) :
    Prop where
  applied : getAllCommits repo readFails ≠ none → ∀ hlc,
    (∃ e, idx'.get hlc = some e ∧ e.status = .applied) ↔ repo.carriesHLC hlc
  kept : getAllCommits repo readFails ≠ none → ∀ hlc e, ¬ repo.carriesHLC hlc →
    idx.get hlc = some e → e.status.unsettled → idx'.get hlc = some e
  no_other : getAllCommits repo readFails ≠ none → ∀ hlc e, idx'.get hlc = some e →
    repo.carriesHLC hlc ∨ idx.get hlc = some e ∧ e.status.unsettled
  on_error : getAllCommits repo readFails = none → ∀ hlc, idx'.get hlc = idx.get hlc
  base : idx'.finalizedBase = idx.finalizedBase

/-- The database can be read or there is nothing to lose, and no open entry at or below the
zero timestamp is missing on `main`. -/
def rebuildSafe (repo : Repo) (readFails : Bool) (idx : MemoryCommitIndex) : Prop :=
  (readFails = true → ∀ hlc, idx.get hlc = none) ∧
  (readFails = false → ∀ hlc e, idx.get hlc = some e → e.status.unsettled →
    HLCTimestamp.zero.less hlc = false → repo.carriesHLC hlc)

section Restored

variable {idx : MemoryCommitIndex} {hlc : HLCTimestamp} {e : CommitIndexEntry}

theorem MemoryCommitIndex.hlc_of_get (h : idx.get hlc = some e) : e.hlc = hlc :=
  HLCTimestamp.string_injective (idx.keyed _ e h)

theorem CommitStatus.unsettled_iff (status : CommitStatus) :
    status.unsettled ↔ status ≠ .applied ∧ status ≠ .unknown := by
  cases status <;> decide

theorem getAllCommits_eq_none_iff (repo : Repo) (readFails : Bool) :
    getAllCommits repo readFails = none ↔ readFails = true := by
  obtain ⟨cs, hcs, -⟩ := getCommitsSince_all repo.store repo.main_mem
  cases readFails with
  | true => simp [getAllCommits]
  | false => simp [getAllCommits, hcs]

theorem get_foldl_restoreEntry_of_mem (es : List CommitIndexEntry) (idx : MemoryCommitIndex)
    (hopen : e.status ≠ .applied) (huniq : ∀ a ∈ es, a.hlc = e.hlc → a = e)
    (hnot : ∀ cur, idx.get e.hlc = some cur → cur.status ≠ .applied)
    (hmem : idx.get e.hlc = some e ∨ e ∈ es) :
    (es.foldl restoreEntry idx).get e.hlc = some e := by
  induction es generalizing idx with
  | nil =>
    rcases hmem with h | h
    · exact h
    · simp at h
  | cons a es ih =>
    have hrest : ∀ b ∈ es, b.hlc = e.hlc → b = e := fun b hb =>
      huniq b (List.mem_cons_of_mem a hb)
    by_cases heq : a.hlc = e.hlc
    · obtain rfl := huniq a List.mem_cons_self heq
      have hget : (restoreEntry idx a).get a.hlc = some a := by
        unfold restoreEntry
        split
        · next cur hcur =>
          rw [if_neg (hnot cur hcur), MemoryCommitIndex.get_upsert, if_pos rfl]
        · rw [MemoryCommitIndex.get_upsert, if_pos rfl]
      refine ih _ hrest (fun cur hcur => ?_) (Or.inl hget)
      rw [hget] at hcur
      exact Option.some.inj hcur ▸ hopen
    · have hsame : (restoreEntry idx a).get e.hlc = idx.get e.hlc := by
        have hup : (idx.upsert a).get e.hlc = idx.get e.hlc := by
          rw [MemoryCommitIndex.get_upsert, if_neg (Ne.symm heq)]
        unfold restoreEntry
        split
        · split
          · rfl
          · exact hup
        · exact hup
      refine ih _ hrest (hsame ▸ hnot) ?_
      rw [hsame]
      refine hmem.imp id fun h => ?_
      rcases List.mem_cons.mp h with rfl | h
      · exact absurd rfl heq
      · exact h

theorem get_initIndexFromDB_of_preserved {repo : Repo} (hmem : e ∈ preservedEntries idx)
    (habsent : ¬ repo.carriesHLC e.hlc) :
    (initIndexFromDB repo false idx).get e.hlc = some e := by
  obtain ⟨cs, hcs, hstored, hall⟩ := getCommitsSince_all repo.store repo.main_mem
  simp only [initIndexFromDB, getAllCommits, Bool.false_eq_true, if_false, hcs]
  refine get_foldl_restoreEntry_of_mem _ _ (mem_preservedEntries.mp hmem).2.2.1 ?_ ?_ (Or.inr hmem)
  · intro a ha heq
    have hget := (mem_preservedEntries.mp ha).1
    rw [heq, (mem_preservedEntries.mp hmem).1] at hget
    exact (Option.some.inj hget).symm
  · intro cur hcur
    rcases get_foldl_indexCommit cs _ hcur with h | ⟨c, hc, m, hm, hhlc, -⟩
    · simp at h
    · refine absurd ⟨c.hash, (hall _).mp (List.mem_map_of_mem hc), m, ?_, hhlc⟩ habsent
      simp [Store.metadata?, hstored c hc, hm]

theorem applied_initIndexFromDB_iff (repo : Repo) (idx : MemoryCommitIndex)
    (hlc : HLCTimestamp) :
    (∃ e, (initIndexFromDB repo false idx).get hlc = some e ∧ e.status = .applied) ↔
      repo.carriesHLC hlc := by
  refine ⟨?_, applied_initIndexFromDB idx⟩
  rintro ⟨e, he, happ⟩
  rcases get_initIndexFromDB he with ⟨-, x, hx, m, hm, hhlc, -⟩ | ⟨hmem, -⟩
  · exact ⟨x, hx, m, hm, hhlc⟩
  · exact absurd happ (mem_preservedEntries.mp hmem).2.2.1

/-- Every entry after a rebuild is that of a commit on `main` or was there before, open. -/
theorem get_initIndexFromDB_from {repo : Repo}
    (h : (initIndexFromDB repo false idx).get hlc = some e) :
    repo.carriesHLC hlc ∨ idx.get hlc = some e ∧ e.status.unsettled := by
  rcases get_initIndexFromDB h with ⟨-, x, hx, m, hm, hhlc, -⟩ | ⟨hmem, rfl⟩
  · exact Or.inl ⟨x, hx, m, hm, hhlc⟩
  · obtain ⟨hget, -, hstatus⟩ := mem_preservedEntries.mp hmem
    exact Or.inr ⟨hget, (CommitStatus.unsettled_iff _).mpr hstatus⟩

end Restored

section Contract

variable {repo : Repo} {idx : MemoryCommitIndex}

theorem contract_on_error_iff :
    RebuildContract repo true idx (initIndexFromDB repo true idx) ↔
      ∀ hlc, idx.get hlc = none := by
  have hnone : getAllCommits repo true = none := (getAllCommits_eq_none_iff repo true).mpr rfl
  have hget : ∀ hlc, (initIndexFromDB repo true idx).get hlc = none := by
    simp [initIndexFromDB, hnone]
  constructor
  · intro h hlc
    rw [← h.on_error hnone hlc, hget]
  · intro hempty
    refine ⟨fun h => absurd hnone h, fun h => absurd hnone h, fun h => absurd hnone h,
      fun _ hlc => ?_, finalizedBase_initIndexFromDB repo true idx⟩
    rw [hget, hempty]

theorem contract_on_success_iff :
    RebuildContract repo false idx (initIndexFromDB repo false idx) ↔
      ∀ hlc e, idx.get hlc = some e → e.status.unsettled → HLCTimestamp.zero.less hlc = false →
        repo.carriesHLC hlc := by
  have hread : getAllCommits repo false ≠ none := by
    rw [ne_eq, getAllCommits_eq_none_iff]
    exact Bool.false_ne_true
  constructor
  · intro h hlc e he hopen hlow
    by_contra habsent
    rcases get_initIndexFromDB (h.kept hread hlc e habsent he hopen) with ⟨happ, -⟩ | ⟨hmem, rfl⟩
    · exact ((CommitStatus.unsettled_iff _).mp hopen).1 happ
    · rw [(mem_preservedEntries.mp hmem).2.1] at hlow
      cases hlow
  · intro hlow
    refine ⟨fun _ hlc => applied_initIndexFromDB_iff repo idx hlc, ?_,
      fun _ _ _ h => get_initIndexFromDB_from h, fun h => absurd h hread,
      finalizedBase_initIndexFromDB repo false idx⟩
    intro _ hlc e habsent he hopen
    obtain rfl := MemoryCommitIndex.hlc_of_get he
    refine get_initIndexFromDB_of_preserved (mem_preservedEntries.mpr ⟨he, ?_, ?_⟩) habsent
    · by_contra hzero
      exact habsent (hlow _ e he hopen (by simpa using hzero))
    · exact (CommitStatus.unsettled_iff _).mp hopen

end Contract

/-- A rebuild does what is expected of it exactly if it is safe. -/
theorem initIndexFromDB_contract_iff (repo : Repo) (readFails : Bool)
    (idx : MemoryCommitIndex) :
    RebuildContract repo readFails idx (initIndexFromDB repo readFails idx) ↔
      rebuildSafe repo readFails idx := by
  cases readFails with
  | true => simp [rebuildSafe, contract_on_error_iff]
  | false => simp [rebuildSafe, contract_on_success_iff]

def freshRepo : Repo :=
  ⟨⟨⟨[⟨"commit-i", [], ⟨"", "", "", 0, .text "init"⟩⟩], by decide⟩, by decide⟩, "commit-i",
    by decide⟩

def indexOf (e : CommitIndexEntry) : MemoryCommitIndex :=
  MemoryCommitIndex.newMemoryCommitIndex.upsert e

/-- A rejection is forgotten when the database cannot be read, and a pending entry with a
wall time before the epoch at every rebuild. -/
theorem rebuild_forgets_entries :
    ¬ RebuildContract freshRepo true (indexOf ⟨⟨5, 0, "bob"⟩, "commit-b", .rejected⟩)
      (initIndexFromDB freshRepo true (indexOf ⟨⟨5, 0, "bob"⟩, "commit-b", .rejected⟩)) ∧
    ¬ RebuildContract freshRepo false (indexOf ⟨⟨-5, 0, "bob"⟩, "", .pending⟩)
      (initIndexFromDB freshRepo false (indexOf ⟨⟨-5, 0, "bob"⟩, "", .pending⟩)) := by
  constructor
  · intro h
    exact absurd (h.on_error (by decide +kernel) ⟨5, 0, "bob"⟩) (by decide +kernel)
  · intro h
    have hkept := h.kept (by decide +kernel) ⟨-5, 0, "bob"⟩ ⟨⟨-5, 0, "bob"⟩, "", .pending⟩
      (by decide +kernel) (by decide +kernel) (by decide)
    exact absurd hkept (by decide +kernel)

end DoltSwarm.Core
