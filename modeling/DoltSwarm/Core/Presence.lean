import DoltSwarm.Core.ChunkStore
import DoltSwarm.Lib.Runs

/-!
# Presence answers of one process (core/remote_chunk_store.go, core/cache.go)

All chunk stores of a process share one cache of hashes known to be present. A hash that one
provider has is cached for the stores of every other, so an answer is about the provider of the
store exactly as far as the cached hashes it relies on are.
-/

namespace DoltSwarm.Core

open Lib

set_option autoImplicit false

variable {Provider : Type}

structure Process (Provider : Type) where
  has : Finset ChunkHash
  contents : Provider → Finset ChunkHash

/-- `kept` is what the cache holds when the call is over. -/
inductive PresenceEvent (Provider : Type)
  | grow (provider : Provider) (added : Finset ChunkHash)
  | hasMany (rcs : RemoteChunkStore Provider) (call : HasCall) (hashes kept : Finset ChunkHash)
  | has (rcs : RemoteChunkStore Provider) (call : HasCall) (h : ChunkHash)
      (kept : Finset ChunkHash)

/-- `InsertHas` of what a call has found; the cache drops entries as it likes. -/
def insertHas (s : Process Provider) (found : Option (Finset ChunkHash))
    (kept : Finset ChunkHash) : Option (Process Provider) :=
  if kept ⊆ s.has ∪ found.getD ∅ then some { s with has := kept } else none

theorem insertHas_of_subset {s : Process Provider} {found : Option (Finset ChunkHash)}
    {kept : Finset ChunkHash} (h : kept ⊆ s.has ∪ found.getD ∅) :
    insertHas s found kept = some { s with has := kept } := by
  rw [insertHas, if_pos h]

namespace PresenceEvent

def asked : PresenceEvent Provider → Option (RemoteChunkStore Provider × Finset ChunkHash)
  | .grow _ _ => none
  | .hasMany rcs _ hashes _ => some (rcs, hashes)
  | .has rcs _ h _ => some (rcs, {h})

/-- A call that succeeds answers for the provider of its store at that moment. -/
def exact (s : Process Provider) : PresenceEvent Provider → Prop
  | .grow _ _ => True
  | .hasMany rcs call hashes _ => ∀ absent,
      (rcs.hasMany s.has (s.contents rcs.provider) call hashes).result = .ok absent →
      absent = hashes \ s.contents rcs.provider
  | .has rcs call h _ => ∀ present,
      rcs.has s.has (s.contents rcs.provider) call h = .ok present →
      (present = true ↔ h ∈ s.contents rcs.provider)

/-- A call that succeeds finds no requested hash cached that its provider lacks. -/
def ownCached (s : Process Provider) : PresenceEvent Provider → Prop
  | .grow _ _ => True
  | .hasMany rcs call hashes _ =>
      (∃ absent, (rcs.hasMany s.has (s.contents rcs.provider) call hashes).result = .ok absent) →
      hashes ∩ s.has ⊆ s.contents rcs.provider
  | .has rcs call h _ =>
      (∃ present, rcs.has s.has (s.contents rcs.provider) call h = .ok present) →
      h ∈ s.has → h ∈ s.contents rcs.provider

end PresenceEvent

def presenceStep [DecidableEq Provider] (s : Process Provider) :
    PresenceEvent Provider → Option (Process Provider)
  | .grow provider added =>
    some { s with contents := Function.update s.contents provider (s.contents provider ∪ added) }
  | .hasMany rcs call hashes kept =>
    insertHas s (rcs.hasMany s.has (s.contents rcs.provider) call hashes).inserted kept
  | .has rcs call h kept =>
    insertHas s (rcs.hasMany s.has (s.contents rcs.provider) call {h}).inserted kept

def PresenceStep [DecidableEq Provider] (s : Process Provider) (e : PresenceEvent Provider)
    (s' : Process Provider) : Prop := presenceStep s e = some s'

/-! ## One call -/

theorem sdiff_sdiff_eq_iff {α : Type} [DecidableEq α] (asked cached held : Finset α) :
    (asked \ cached) \ held = asked \ held ↔ asked ∩ cached ⊆ held := by
  constructor
  · intro h x hx
    obtain ⟨hasked, hcached⟩ := Finset.mem_inter.mp hx
    by_contra hlack
    have hmem : x ∈ asked \ held := Finset.mem_sdiff.mpr ⟨hasked, hlack⟩
    rw [← h] at hmem
    exact (Finset.mem_sdiff.mp (Finset.mem_sdiff.mp hmem).1).2 hcached
  · intro h
    ext x
    simp only [Finset.mem_sdiff]
    constructor
    · rintro ⟨⟨hasked, -⟩, hlack⟩
      exact ⟨hasked, hlack⟩
    · rintro ⟨hasked, hlack⟩
      refine ⟨⟨hasked, fun hcached => hlack (h ?_)⟩, hlack⟩
      exact Finset.mem_inter.mpr ⟨hasked, hcached⟩

section Call

variable (rcs : RemoteChunkStore Provider) {cache store hashes absent : Finset ChunkHash}
  {call : HasCall}

theorem hasMany_answer (h : (rcs.hasMany cache store call hashes).result = .ok absent) :
    absent = (hashes \ cache) \ store := by
  have hpath := repoPath_ne_empty rcs.named
  rcases hasMany_outcome cache store call hpath hashes with ⟨-, ⟨err, herr⟩, -⟩ | ⟨-, hok, -⟩
  · exact nomatch h.symm.trans herr
  · exact Except.ok.inj (h.symm.trans hok)

theorem hasMany_inserted_subset :
    (rcs.hasMany cache store call hashes).inserted.getD ∅ ⊆ store := by
  have hpath := repoPath_ne_empty rcs.named
  rcases hasMany_outcome cache store call hpath hashes with ⟨-, -, hnone⟩ | ⟨-, -, hinserted⟩
  · have hnone' : (rcs.hasMany cache store call hashes).inserted = none := hnone
    rw [hnone']
    exact Finset.empty_subset _
  · have hinserted' : (rcs.hasMany cache store call hashes).inserted = _ := hinserted
    rw [hinserted']
    split
    · exact Finset.empty_subset _
    · exact Finset.inter_subset_right

theorem has_eq_ok_iff {h : ChunkHash} {present : Bool} :
    rcs.has cache store call h = .ok present ↔
      ∃ absent, (rcs.hasMany cache store call {h}).result = .ok absent ∧
        decide (absent.card = 0) = present := by
  unfold RemoteChunkStore.has
  cases (rcs.hasMany cache store call {h}).result with
  | error err => simp [Except.map]
  | ok absent => simp [Except.map]

end Call

/-- A call is exact if and only if the cached hashes that it relies on are held by its own
provider. -/
theorem exact_iff_ownCached (s : Process Provider) (e : PresenceEvent Provider) :
    e.exact s ↔ e.ownCached s := by
  cases e with
  | grow provider added => exact Iff.rfl
  | hasMany rcs call hashes kept =>
    constructor
    · rintro h ⟨absent, hresult⟩
      have hexact := h absent hresult
      rw [hasMany_answer rcs hresult] at hexact
      exact (sdiff_sdiff_eq_iff _ _ _).mp hexact
    · intro h absent hresult
      rw [hasMany_answer rcs hresult]
      exact (sdiff_sdiff_eq_iff _ _ _).mpr (h ⟨absent, hresult⟩)
  | has rcs call h kept =>
    constructor
    · rintro hexact ⟨present, hpresent⟩ hcached
      apply (hexact present hpresent).mp
      obtain ⟨absent, hresult, rfl⟩ := (has_eq_ok_iff rcs).mp hpresent
      rw [hasMany_answer rcs hresult, Finset.sdiff_eq_empty_iff_subset.mpr
        (Finset.singleton_subset_iff.mpr hcached), Finset.empty_sdiff]
      rfl
    · intro hown present hpresent
      obtain ⟨absent, hresult, rfl⟩ := (has_eq_ok_iff rcs).mp hpresent
      have habsent : absent = {h} \ s.contents rcs.provider := by
        rw [hasMany_answer rcs hresult, sdiff_sdiff_eq_iff]
        intro x hx
        obtain ⟨hxh, hcached⟩ := Finset.mem_inter.mp hx
        rw [Finset.mem_singleton.mp hxh] at hcached ⊢
        exact hown ⟨_, hpresent⟩ hcached
      rw [habsent, decide_eq_true_eq, Finset.card_eq_zero, Finset.sdiff_eq_empty_iff_subset,
        Finset.singleton_subset_iff]

/-! ## Runs -/

/-- Every cached hash was found by an earlier call, at a provider that still holds it. -/
def CachedFrom (tr : List (Process Provider × PresenceEvent Provider)) (s : Process Provider) :
    Prop :=
  ∀ h ∈ s.has, ∃ x ∈ tr, ∃ asked ∈ x.2.asked, h ∈ s.contents asked.1.provider

theorem cachedFrom_insertHas {tr : List (Process Provider × PresenceEvent Provider)}
    {s s' : Process Provider} {e : PresenceEvent Provider} {rcs : RemoteChunkStore Provider}
    {hashes kept : Finset ChunkHash} {call : HasCall} (h : CachedFrom tr s)
    (hasked : e.asked = some (rcs, hashes))
    (hs : insertHas s (rcs.hasMany s.has (s.contents rcs.provider) call hashes).inserted kept =
      some s') : CachedFrom ((s, e) :: tr) s' := by
  unfold insertHas at hs
  split at hs
  · rename_i hkept
    obtain rfl := Option.some.inj hs
    intro x hx
    -- an entry is older than the call, or the provider that was asked has the chunk
    rcases Finset.mem_union.mp (hkept hx) with hold | hnew
    · obtain ⟨y, hy, asked, hasked', hheld⟩ := h x hold
      exact ⟨y, List.mem_cons_of_mem _ hy, asked, hasked', hheld⟩
    · exact ⟨_, List.mem_cons_self, _, hasked, hasMany_inserted_subset rcs hnew⟩
  · cases hs

section Runs

variable [DecidableEq Provider]

theorem cachedFrom_step {tr : List (Process Provider × PresenceEvent Provider)}
    {s s' : Process Provider} {e : PresenceEvent Provider} (h : CachedFrom tr s)
    (hs : PresenceStep s e s') : CachedFrom ((s, e) :: tr) s' := by
  cases e with
  | grow provider added =>
    obtain rfl := Option.some.inj hs
    intro x hx
    obtain ⟨y, hy, asked, hasked, hheld⟩ := h x hx
    refine ⟨y, List.mem_cons_of_mem _ hy, asked, hasked, ?_⟩
    by_cases hp : asked.1.provider = provider
    · rw [hp] at hheld ⊢
      simp only [Function.update_self]
      exact Finset.mem_union_left _ hheld
    · simp only [Function.update_of_ne hp]
      exact hheld
  | hasMany rcs call hashes kept => exact cachedFrom_insertHas h rfl hs
  | has rcs call x kept => exact cachedFrom_insertHas h rfl hs

theorem cachedFrom_of_run {contents : Provider → Finset ChunkHash}
    {tr : List (Process Provider × PresenceEvent Provider)} {s : Process Provider}
    (h : Run PresenceStep ⟨∅, contents⟩ tr s) : CachedFrom tr s := by
  refine Run.induct (I := CachedFrom) (G := fun _ _ => True) ?_ ?_ h fun _ _ => trivial
  · exact fun x hx => absurd hx (Finset.notMem_empty x)
  · exact fun tr s e s' _ hI _ hs => cachedFrom_step hI hs

/-- After any sequence of calls, a call is exact if and only if its provider holds the requested
hashes that are cached; so it is if no provider asked before holds a requested hash that its own
provider lacks. -/
theorem presence_answers_are_exact_iff {contents : Provider → Finset ChunkHash}
    {tr : List (Process Provider × PresenceEvent Provider)} {s : Process Provider}
    (h : Run PresenceStep ⟨∅, contents⟩ tr s) (e : PresenceEvent Provider) :
    (e.exact s ↔ e.ownCached s) ∧
    ((∀ asked ∈ e.asked, ∀ x ∈ tr, ∀ before ∈ x.2.asked,
      asked.2 ∩ s.contents before.1.provider ⊆ s.contents asked.1.provider) → e.exact s) := by
  refine ⟨exact_iff_ownCached s e, fun hshared => (exact_iff_ownCached s e).mpr ?_⟩
  have hcached := cachedFrom_of_run h
  cases e with
  | grow provider added => trivial
  | hasMany rcs call hashes kept =>
    intro _ x hx
    obtain ⟨hasked, hhas⟩ := Finset.mem_inter.mp hx
    obtain ⟨y, hy, before, hbefore, hheld⟩ := hcached x hhas
    exact hshared _ rfl y hy before hbefore (Finset.mem_inter.mpr ⟨hasked, hheld⟩)
  | has rcs call x kept =>
    intro _ hhas
    obtain ⟨y, hy, before, hbefore, hheld⟩ := hcached x hhas
    exact hshared _ rfl y hy before hbefore
      (Finset.mem_inter.mpr ⟨Finset.mem_singleton_self x, hheld⟩)

end Runs

/-! ## Two providers, one of which holds a chunk -/

def aliceOnly (provider : String) : Finset ChunkHash :=
  if provider = "alice" then {plainHash 1} else ∅

def bobStore : RemoteChunkStore String := { mainStore with provider := "bob" }

def askAlice : PresenceEvent String :=
  .hasMany mainStore (ascendingCall fun _ => {}) {plainHash 1} {plainHash 1}

theorem askAlice_runs :
    Run PresenceStep ⟨∅, aliceOnly⟩ [(⟨∅, aliceOnly⟩, askAlice)] ⟨{plainHash 1}, aliceOnly⟩ := by
  have hkept : ({plainHash 1} : Finset ChunkHash) ⊆ ∅ ∪ (mainStore.hasMany ∅ (aliceOnly "alice")
      (ascendingCall fun _ => {}) {plainHash 1}).inserted.getD ∅ := by decide +kernel
  have hstep : presenceStep ⟨∅, aliceOnly⟩ askAlice = some ⟨{plainHash 1}, aliceOnly⟩ :=
    insertHas_of_subset hkept
  exact .snoc .nil hstep

theorem presence_answers_are_exact_iff_on_alice :
    (mainStore.hasMany {plainHash 1} (aliceOnly "alice") (ascendingCall fun _ => {})
      {plainHash 1, plainHash 2}).result = .ok {plainHash 2} := by
  have hexact := (presence_answers_are_exact_iff askAlice_runs
    (.hasMany mainStore (ascendingCall fun _ => {}) {plainHash 1, plainHash 2} ∅)).2 (by
      rintro asked ⟨⟩ x hx before hbefore
      obtain rfl := List.mem_singleton.mp hx
      obtain rfl := Option.some.inj hbefore
      exact Finset.inter_subset_right)
  cases hresult : (mainStore.hasMany {plainHash 1} (aliceOnly "alice") (ascendingCall fun _ => {})
      {plainHash 1, plainHash 2}).result with
  | error err =>
    have hanswered : (mainStore.hasMany {plainHash 1} (aliceOnly "alice")
        (ascendingCall fun _ => {}) {plainHash 1, plainHash 2}).result.isOk = true := by
      decide +kernel
    rw [hresult] at hanswered
    cases hanswered
  | ok absent =>
    rw [hexact absent hresult]
    exact congrArg Except.ok (by decide)

/-- A call on bob's store for the same chunk finds it cached. -/
theorem presence_is_answered_for_another_provider :
    ∃ tr, Run PresenceStep ⟨∅, aliceOnly⟩ tr ⟨{plainHash 1}, aliceOnly⟩ ∧
      plainHash 1 ∉ aliceOnly "bob" ∧
      (bobStore.hasMany {plainHash 1} (aliceOnly "bob") (ascendingCall fun _ => {})
        {plainHash 1}).result = .ok ∅ ∧
      ¬(PresenceEvent.hasMany bobStore (ascendingCall fun _ => {}) {plainHash 1}
        {plainHash 1}).exact ⟨{plainHash 1}, aliceOnly⟩ := by
  have hresult : (bobStore.hasMany {plainHash 1} (aliceOnly "bob") (ascendingCall fun _ => {})
      {plainHash 1}).result = .ok ∅ := rfl
  refine ⟨_, askAlice_runs, by decide, hresult, fun h => ?_⟩
  have hempty := h ∅ hresult
  exact absurd hempty (by decide)

end DoltSwarm.Core
