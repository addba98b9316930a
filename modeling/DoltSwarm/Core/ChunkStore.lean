import DoltSwarm.Core.SwarmURL
import DoltSwarm.Lib.Batches

/-!
# Asking a provider for chunks (core/remote_chunk_store.go, chunkstore_server.go, core/cache.go)

The presence check of the read-only chunk store. The hashes that the cache does not know are sent
in batches; the server answers with the indices of those it lacks, in the order of a Go map, and
the client sorts them and walks hashes and indices together.
-/

namespace DoltSwarm.Core

open Lib

set_option autoImplicit false

def hashByteLen : ℕ := 20

structure ChunkHash where
  bytes : List UInt8
  length_eq : bytes.length = hashByteLen
  deriving DecidableEq

/-- `hash.New`, which panics on another length. -/
def hashNew (data : List UInt8) : Option ChunkHash :=
  if h : data.length = hashByteLen then some ⟨data, h⟩ else none

/-- `remotestorage.HashSetToSlices`: the set in some order, as hashes and as bytes. -/
def hashSetToSlices (order : Enumeration ChunkHash) (hashes : Finset ChunkHash) :
    List ChunkHash × List (List UInt8) :=
  (order.list hashes, (order.list hashes).map ChunkHash.bytes)

/-- `remotestorage.ParseByteSlices`: the set of hashes, and where each stands in the request. -/
def parseByteSlices (byteSlices : List (List UInt8)) : Finset ChunkHash × Map ChunkHash ℕ :=
  let hashes := byteSlices.filterMap hashNew
  (hashes.toFinset,
    hashes.zipIdx.foldl (fun hashToIndex x => hashToIndex.put x.1 x.2) ∅)

/-! ## The server -/

inductive Code
  | invalidArgument
  | internal
  | unavailable
  deriving DecidableEq, Repr

structure Status where
  code : Code
  message : String
  deriving DecidableEq, Repr

def validateRepoRequest (repoPath : String) (repoId : Option RepoID) : Except String Unit :=
  if repoPath = "" ∧ repoId = none then .error "expected repo_path or repo_id, got neither"
  else .ok ()

def validateHashes (field : String) (hashes : List (List UInt8)) : Except String Unit :=
  match hashes.zipIdx.find? fun x => x.1.length ≠ hashByteLen with
  | some (bs, i) => .error ("expected " ++ field ++ "[" ++ toString i ++ "] hash to be " ++
      toString hashByteLen ++ " bytes long, was " ++ toString bs.length)
  | none => .ok ()

/-- What goes wrong in one request besides the request itself. -/
structure RequestFaults where
  transport : Option Status := none
  rebase : Option String := none
  hasMany : Option String := none
  deriving DecidableEq

/-- `ChunkStoreServer.HasChunks` over a store with the chunks `store`; `order` is that of the map
of absent hashes. -/
def serverHasChunks (store : Finset ChunkHash) (order : Enumeration ChunkHash)
    (faults : RequestFaults) (repoPath : String) (hashes : List (List UInt8)) :
    Except Status (List Int32) :=
  match validateRepoRequest repoPath none, validateHashes "hashes" hashes, faults.rebase,
    faults.hasMany with
  | .error err, _, _, _ => .error ⟨.invalidArgument, err⟩
  | .ok _, .error err, _, _ => .error ⟨.invalidArgument, err⟩
  | .ok _, .ok _, some err, _ => .error ⟨.internal, "rebase: " ++ err⟩
  | .ok _, .ok _, none, some err => .error ⟨.internal, "HasMany: " ++ err⟩
  | .ok _, .ok _, none, none =>
    let parsed := parseByteSlices hashes
    .ok ((order.list (parsed.1 \ store)).map fun h => Int32.ofNat (parsed.2.get h))

/-! ## The client -/

def maxHasManyBatchSize : ℕ := 16 * 1024

/-- A store for a repository, which has a name. -/
structure RemoteChunkStore (Provider : Type) where
  provider : Provider
  repo : RepoID
  named : repo.repoName ≠ ""

structure HasCall where
  slices : Enumeration ChunkHash
  answers : ℕ → Enumeration ChunkHash
  faults : ℕ → RequestFaults

def HasCall.hasChunks (call : HasCall) (store : Finset ChunkHash) (repoPath : String) (st : ℕ)
    (byteSl : List (List UInt8)) : Except Status (List Int32) :=
  match (call.faults st).transport with
  | some err => .error err
  | none => serverHasChunks store (call.answers st) (call.faults st) repoPath byteSl

structure HasManyState where
  absent : Finset ChunkHash
  found : Finset ChunkHash
  err : Option Status

/-- The walk over hashes and sorted indices; `i` and `j` are the places in the two. -/
def splitAbsent (absentIndices : List Int32) : List ChunkHash → ℕ → ℕ → HasManyState → HasManyState
  | [], _, _, s => s
  | currHash :: rest, i, j, s =>
    let nextAbsent : Int :=
      match absentIndices[j]? with
      | some index => index.toInt
      | none => -1
    if (i : Int) = nextAbsent then
      splitAbsent absentIndices rest (i + 1) (j + 1) { s with absent := insert currHash s.absent }
    else
      splitAbsent absentIndices rest (i + 1) j { s with found := insert currHash s.found }

def int32Less (a b : Int32) : Bool := a < b

/-- The callback of `HasMany` for one batch. -/
def hasManyBatch (hasChunks : ℕ → List (List UInt8) → Except Status (List Int32))
    (hashSl : List ChunkHash) (byteSl : List (List UInt8)) (st fin : ℕ) (s : HasManyState) :
    HasManyState × Bool :=
  let currHashSl := (hashSl.take fin).drop st
  let currByteSl := (byteSl.take fin).drop st
  match hasChunks st currByteSl with
  | .error err => ({ s with err := some err }, true)
  | .ok absentIndices => (splitAbsent (sortList int32Less absentIndices) currHashSl 0 0 s, false)

/-- What `HasMany` returns, and what it hands to `InsertHas` if it calls it. -/
structure HasManyOutcome where
  result : Except Status (Finset ChunkHash)
  inserted : Option (Finset ChunkHash)

def getCachedHas (cache hs : Finset ChunkHash) : Finset ChunkHash := hs \ cache

/-- `HasMany` with the hashes in `cache` cached as present. -/
def hasMany (cache : Finset ChunkHash) (slices : Enumeration ChunkHash)
    (hasChunks : ℕ → List (List UInt8) → Except Status (List Int32))
    (hashes : Finset ChunkHash) : HasManyOutcome :=
  let notCached := getCachedHas cache hashes
  if notCached = ∅ then ⟨.ok notCached, none⟩
  else
    let slices := hashSetToSlices slices notCached
    let s := batchItr slices.1.length maxHasManyBatchSize
      (hasManyBatch hasChunks slices.1 slices.2) ⟨∅, ∅, none⟩
    match s.err with
    | some err => ⟨.error err, none⟩
    | none => ⟨.ok s.absent, if s.found = ∅ then none else some s.found⟩

def RemoteChunkStore.hasMany {Provider : Type} (rcs : RemoteChunkStore Provider)
    (cache store : Finset ChunkHash) (call : HasCall) (hashes : Finset ChunkHash) :
    HasManyOutcome :=
  DoltSwarm.Core.hasMany cache call.slices (call.hasChunks store (repoPath rcs.repo)) hashes

def RemoteChunkStore.has {Provider : Type} (rcs : RemoteChunkStore Provider)
    (cache store : Finset ChunkHash) (call : HasCall) (h : ChunkHash) : Except Status Bool :=
  (rcs.hasMany cache store call {h}).result.map fun absent => absent.card = 0

/-! ## The indices of the absent hashes -/

def absentFrom (store : Finset ChunkHash) (hashes : List ChunkHash) (i : ℕ) : List Int32 :=
  ((hashes.zipIdx i).filter fun x => x.1 ∉ store).map fun x => Int32.ofNat x.2

section Indices

variable {store : Finset ChunkHash}

theorem absentFrom_cons_absent {h : ChunkHash} (habsent : h ∉ store) (hs : List ChunkHash)
    (i : ℕ) : absentFrom store (h :: hs) i = Int32.ofNat i :: absentFrom store hs (i + 1) := by
  simp [absentFrom, List.zipIdx_cons, habsent]

theorem absentFrom_cons_held {h : ChunkHash} (hheld : h ∈ store) (hs : List ChunkHash)
    (i : ℕ) : absentFrom store (h :: hs) i = absentFrom store hs (i + 1) := by
  simp [absentFrom, List.zipIdx_cons, hheld]

theorem absentFrom_bounds {hs : List ChunkHash} {i : ℕ} {x : Int32}
    (hx : x ∈ absentFrom store hs i) (hbound : i + hs.length ≤ 2 ^ 31) :
    (i : Int) ≤ x.toInt ∧ x.toInt < i + hs.length := by
  obtain ⟨⟨h, k⟩, hk, rfl⟩ := List.mem_map.mp hx
  have hmem := (List.mem_filter.mp hk).1
  have hle := List.le_snd_of_mem_zipIdx hmem
  have hlt := List.snd_lt_add_of_mem_zipIdx hmem
  rw [Int32.toInt_ofNat_of_lt (by omega)]
  omega

theorem splitAbsent_eq {indices : List Int32} {hs : List ChunkHash} {i j : ℕ}
    (s : HasManyState) (hbound : i + hs.length ≤ 2 ^ 31)
    (hindices : indices.drop j = absentFrom store hs i) :
    splitAbsent indices hs i j s =
      { s with
        absent := s.absent ∪ (hs.toFinset \ store)
        found := s.found ∪ (hs.toFinset ∩ store) } := by
  induction hs generalizing i j s with
  | nil => simp [splitAbsent]
  | cons h hs ih =>
    rw [List.length_cons] at hbound
    have hnext : indices[j]? = (absentFrom store (h :: hs) i).head? := by
      rw [← hindices, List.head?_drop]
    simp only [splitAbsent, hnext]
    by_cases hheld : h ∈ store
    · -- the next index, if there is one, belongs to a later hash
      rw [absentFrom_cons_held hheld] at hindices hnext ⊢
      have hne : (i : Int) ≠ match (absentFrom store hs (i + 1)).head? with
          | some index => index.toInt
          | none => -1 := by
        cases hhead : (absentFrom store hs (i + 1)).head? with
        | none => simp only; omega
        | some x =>
          have := (absentFrom_bounds (List.mem_of_mem_head? hhead) (by omega)).1
          simp only
          omega
      rw [if_neg hne, ih _ (by omega) hindices, List.toFinset_cons,
        Finset.insert_sdiff_of_mem _ hheld, Finset.insert_inter_of_mem hheld,
        Finset.union_insert, Finset.insert_union]
    · -- the next index is that of the hash, and both places move on
      rw [absentFrom_cons_absent hheld] at hindices ⊢
      have hdrop : indices.drop (j + 1) = absentFrom store hs (i + 1) := by
        rw [← List.drop_drop, hindices]
        rfl
      have heq : (i : Int) = (Int32.ofNat i).toInt := (Int32.toInt_ofNat_of_lt (by omega)).symm
      rw [List.head?_cons]
      simp only
      rw [if_pos heq, ih _ (by omega) hdrop, List.toFinset_cons,
        Finset.insert_sdiff_of_notMem _ hheld, Finset.insert_inter_of_notMem hheld,
        Finset.union_insert, Finset.insert_union]

theorem splitAbsent_whole {indices : List Int32} {hs : List ChunkHash} (s : HasManyState)
    (hbound : hs.length ≤ 2 ^ 31) (hindices : indices = absentFrom store hs 0) :
    splitAbsent indices hs 0 0 s =
      { s with
        absent := s.absent ∪ (hs.toFinset \ store)
        found := s.found ∪ (hs.toFinset ∩ store) } := by
  apply splitAbsent_eq s (by omega)
  rw [List.drop_zero]
  exact hindices

theorem absentFrom_eq_map {hs : List ChunkHash} (hnodup : hs.Nodup) (i : ℕ) :
    absentFrom store hs i =
      (hs.filter (· ∉ store)).map fun h => Int32.ofNat (i + hs.idxOf h) := by
  induction hs generalizing i with
  | nil => rfl
  | cons h hs ih =>
    obtain ⟨hnot, hnodup⟩ := List.nodup_cons.mp hnodup
    have hshift : ∀ x ∈ hs.filter (· ∉ store),
        Int32.ofNat (i + 1 + hs.idxOf x) = Int32.ofNat (i + (h :: hs).idxOf x) := by
      intro x hx
      have hne : h ≠ x := by
        rintro rfl
        exact hnot (List.mem_filter.mp hx).1
      rw [List.idxOf_cons_ne _ hne, Nat.succ_eq_add_one, Nat.add_right_comm, Nat.add_assoc]
    by_cases hheld : h ∈ store
    · rw [absentFrom_cons_held hheld, ih hnodup, List.filter_cons_of_neg (by simpa using hheld)]
      exact List.map_congr_left hshift
    · rw [absentFrom_cons_absent hheld, ih hnodup, List.filter_cons_of_pos (by simpa using hheld),
        List.map_cons, List.idxOf_cons_self, Nat.add_zero]
      exact congrArg _ (List.map_congr_left hshift)

theorem int32Less_strictTotal : StrictTotalOn int32Less fun _ => True := by
  apply strictTotalOn_of_key Int32.toInt
  · intro a b
    rw [int32Less, decide_eq_true_eq, Int32.lt_iff_toInt_lt]
  · exact fun a b => Int32.toInt_inj.mp

theorem ascending_absentFrom {hs : List ChunkHash} {i : ℕ} (hbound : i + hs.length ≤ 2 ^ 31) :
    Ascending int32Less (absentFrom store hs i) := by
  induction hs generalizing i with
  | nil => exact List.Pairwise.nil
  | cons h hs ih =>
    rw [List.length_cons] at hbound
    by_cases hheld : h ∈ store
    · rw [absentFrom_cons_held hheld]
      exact ih (by omega)
    · rw [absentFrom_cons_absent hheld]
      refine List.pairwise_cons.mpr ⟨fun x hx => ?_, ih (by omega)⟩
      have hbounds := absentFrom_bounds hx (by omega)
      rw [int32Less, decide_eq_false_iff_not, Int32.lt_iff_toInt_lt,
        Int32.toInt_ofNat_of_lt (by omega)]
      omega

end Indices

/-! ## One request -/

theorem hashNew_bytes (h : ChunkHash) : hashNew h.bytes = some h := by
  simp [hashNew, h.length_eq]

theorem filterMap_hashNew (hs : List ChunkHash) :
    (hs.map ChunkHash.bytes).filterMap hashNew = hs := by
  induction hs with
  | nil => rfl
  | cons h hs ih => rw [List.map_cons, List.filterMap_cons_some (hashNew_bytes h), ih]

theorem get_foldl_put {hs : List ChunkHash} (hnodup : hs.Nodup) {i : ℕ} {m : Map ChunkHash ℕ}
    {h : ChunkHash} :
    ((hs.zipIdx i).foldl (fun hashToIndex x => hashToIndex.put x.1 x.2) m).get h =
      if h ∈ hs then i + hs.idxOf h else m.get h := by
  induction hs generalizing i m with
  | nil => rfl
  | cons x hs ih =>
    obtain ⟨hnot, hnodup⟩ := List.nodup_cons.mp hnodup
    rw [List.zipIdx_cons, List.foldl_cons, ih hnodup]
    by_cases hx : h = x
    · subst hx
      simp [hnot]
    · have hne : x ≠ h := fun heq => hx heq.symm
      rw [Map.get_put_of_ne _ _ hx, List.idxOf_cons_ne _ hne]
      simp only [List.mem_cons, hx, false_or]
      split
      · omega
      · rfl

theorem validateHashes_bytes (field : String) (hs : List ChunkHash) :
    validateHashes field (hs.map ChunkHash.bytes) = .ok () := by
  have hnone :
      ((hs.map ChunkHash.bytes).zipIdx.find? fun x => x.1.length ≠ hashByteLen) = none := by
    rw [List.find?_eq_none]
    rintro ⟨bs, i⟩ hx
    obtain ⟨h, -, rfl⟩ := List.mem_map.mp (List.fst_mem_of_mem_zipIdx hx)
    simp [h.length_eq]
  rw [validateHashes, hnone]

def RequestFaults.fails (faults : RequestFaults) : Prop :=
  faults.transport ≠ none ∨ faults.rebase ≠ none ∨ faults.hasMany ≠ none

instance (faults : RequestFaults) : Decidable faults.fails := inferInstanceAs (Decidable (_ ∨ _))

theorem serverHasChunks_eq {store : Finset ChunkHash} {order : Enumeration ChunkHash}
    {faults : RequestFaults} (hfaults : ¬faults.fails) {repoPath : String} (hpath : repoPath ≠ "")
    {hs : List ChunkHash} (hnodup : hs.Nodup) :
    serverHasChunks store order faults repoPath (hs.map ChunkHash.bytes) =
      .ok ((order.list (hs.toFinset \ store)).map fun h => Int32.ofNat (hs.idxOf h)) := by
  have hrepo : validateRepoRequest repoPath none = .ok () := by
    rw [validateRepoRequest, if_neg fun h => hpath h.1]
  have hnone : faults.rebase = none ∧ faults.hasMany = none := by
    constructor
    · by_contra h
      exact hfaults (Or.inr (Or.inl h))
    · by_contra h
      exact hfaults (Or.inr (Or.inr h))
  simp only [serverHasChunks, hrepo, validateHashes_bytes, hnone, parseByteSlices,
    filterMap_hashNew]
  congr 1
  apply List.map_congr_left
  intro h hh
  have hmem : h ∈ hs := by
    rw [Enumeration.mem_list, Finset.mem_sdiff, List.mem_toFinset] at hh
    exact hh.1
  rw [get_foldl_put hnodup, if_pos hmem, Nat.zero_add]

theorem sortList_answer {store : Finset ChunkHash} (order : Enumeration ChunkHash)
    {hs : List ChunkHash} (hnodup : hs.Nodup) (hbound : hs.length ≤ 2 ^ 31) :
    sortList int32Less
      ((order.list (hs.toFinset \ store)).map fun h => Int32.ofNat (hs.idxOf h)) =
      absentFrom store hs 0 := by
  have hperm : (order.list (hs.toFinset \ store)).Perm (hs.filter (· ∉ store)) := by
    rw [List.perm_ext_iff_of_nodup (order.nodup_list _) (hnodup.filter _)]
    intro h
    rw [Enumeration.mem_list, Finset.mem_sdiff, List.mem_toFinset, List.mem_filter,
      decide_eq_true_eq]
  apply Ascending.eq_of_perm int32Less_strictTotal _ (fun _ _ => trivial)
    (ascending_sortList int32Less_strictTotal fun _ _ => trivial)
    (ascending_absentFrom (by omega))
  rw [absentFrom_eq_map hnodup]
  simp only [Nat.zero_add]
  exact (sortList_perm _ _).trans (hperm.map _)

/-! ## A whole call -/

theorem hasChunks_error {call : HasCall} {st : ℕ} (hfails : (call.faults st).fails)
    (store : Finset ChunkHash) (repoPath : String) (byteSl : List (List UInt8)) :
    ∃ err, call.hasChunks store repoPath st byteSl = .error err := by
  unfold HasCall.hasChunks
  split
  · exact ⟨_, rfl⟩
  · rename_i htransport
    unfold serverHasChunks
    split
    · exact ⟨_, rfl⟩
    · exact ⟨_, rfl⟩
    · exact ⟨_, rfl⟩
    · exact ⟨_, rfl⟩
    · rename_i hrebase hhas
      rcases hfails with h | h | h
      · exact absurd htransport h
      · exact absurd hrebase h
      · exact absurd hhas h

/-- How far a call has got: all before `st` is sorted into absent and found. -/
def SplitUpTo (store : Finset ChunkHash) (call : HasCall) (hs : List ChunkHash) (st : ℕ)
    (s : HasManyState) : Prop :=
  s = ⟨(hs.take st).toFinset \ store, (hs.take st).toFinset ∩ store, none⟩ ∧
  ∀ b < st, maxHasManyBatchSize ∣ b → ¬(call.faults b).fails

def StoppedAt (call : HasCall) (hs : List ChunkHash) (s : HasManyState) : Prop :=
  ∃ b < hs.length, maxHasManyBatchSize ∣ b ∧ (call.faults b).fails ∧ ∃ err, s.err = some err

section Call

variable {store : Finset ChunkHash} {call : HasCall} {repoPath : String} (hpath : repoPath ≠ "")
  {hs : List ChunkHash} (hnodup : hs.Nodup)

include hpath hnodup

theorem hasManyBatch_ok {st fin : ℕ} (hfin : fin ≤ st + maxHasManyBatchSize)
    (hfaults : ¬(call.faults st).fails) (s : HasManyState) :
    hasManyBatch (call.hasChunks store repoPath) hs (hs.map ChunkHash.bytes) st fin s =
      ({ s with
        absent := s.absent ∪ (((hs.take fin).drop st).toFinset \ store)
        found := s.found ∪ (((hs.take fin).drop st).toFinset ∩ store) }, false) := by
  have hbound : ((hs.take fin).drop st).length ≤ 2 ^ 31 := by
    rw [List.length_drop, List.length_take]
    have hmax : maxHasManyBatchSize = 16384 := rfl
    omega
  have hsub : ((hs.take fin).drop st).Nodup :=
    hnodup.sublist ((List.drop_sublist _ _).trans (List.take_sublist _ _))
  have htransport : (call.faults st).transport = none := by
    by_contra h
    exact hfaults (Or.inl h)
  have hbytes : ((hs.map ChunkHash.bytes).take fin).drop st =
      ((hs.take fin).drop st).map ChunkHash.bytes := by
    rw [List.map_drop, List.map_take]
  have hserved : call.hasChunks store repoPath st (((hs.take fin).drop st).map ChunkHash.bytes) =
      .ok (((call.answers st).list (((hs.take fin).drop st).toFinset \ store)).map
        fun h => Int32.ofNat (((hs.take fin).drop st).idxOf h)) := by
    simp only [HasCall.hasChunks, htransport]
    exact serverHasChunks_eq hfaults hpath hsub
  simp only [hasManyBatch, hbytes, hserved]
  rw [splitAbsent_whole s hbound (sortList_answer (call.answers st) hsub hbound)]

/-- The callback as the batches come: it stops at a request without an answer and otherwise goes on
where the batch ends. -/
theorem splitUpTo_next {st : ℕ} {s : HasManyState} (hdvd : maxHasManyBatchSize ∣ st)
    (hst : st < hs.length) (hs' : SplitUpTo store call hs st s) :
    let fin := min (st + maxHasManyBatchSize) hs.length
    let called := hasManyBatch (call.hasChunks store repoPath) hs (hs.map ChunkHash.bytes) st fin s
    (called.2 = true → StoppedAt call hs called.1) ∧
      (called.2 = false → SplitUpTo store call hs fin called.1) := by
  intro fin called
  by_cases hfails : (call.faults st).fails
  · obtain ⟨err, herr⟩ := hasChunks_error hfails store repoPath
      (((hs.map ChunkHash.bytes).take fin).drop st)
    have hcalled : called = ({ s with err := some err }, true) := by
      simp only [called, hasManyBatch, herr]
    rw [hcalled]
    exact ⟨fun _ => ⟨st, hst, hdvd, hfails, err, rfl⟩, fun h => nomatch h⟩
  · have hcalled : called = _ := hasManyBatch_ok hpath hnodup (Nat.min_le_left _ _) hfails s
    rw [hcalled]
    refine ⟨fun h => (nomatch h), fun _ => ⟨?_, fun b hb hb' => ?_⟩⟩
    · have hwhole : hs.take st ++ (hs.take fin).drop st = hs.take fin := by
        have htake : (hs.take fin).take st = hs.take st := by
          rw [List.take_take, Nat.min_eq_left (by omega)]
        rw [← htake, List.take_append_drop]
      have hunion := congrArg List.toFinset hwhole
      rw [List.toFinset_append] at hunion
      rw [hs'.1, ← hunion, Finset.union_sdiff_distrib, Finset.union_inter_distrib_right]
    · -- a later start within the batch is the end of it
      rcases Nat.lt_trichotomy b st with hlt | heq | hgt
      · exact hs'.2 b hlt hb'
      · exact heq ▸ hfails
      · have hle := Nat.le_of_dvd (by omega) (Nat.dvd_sub hb' hdvd)
        omega

theorem splitUpTo_batchItr :
    let s := batchItr hs.length maxHasManyBatchSize
      (hasManyBatch (call.hasChunks store repoPath) hs (hs.map ChunkHash.bytes)) ⟨∅, ∅, none⟩
    StoppedAt call hs s ∨ SplitUpTo store call hs hs.length s := by
  apply batchItr_rule (by decide)
  · exact fun st s hdvd hst hI => (splitUpTo_next hpath hnodup hdvd hst hI).1
  · exact fun st s hdvd hst hI => (splitUpTo_next hpath hnodup hdvd hst hI).2
  · refine ⟨by simp, fun b hb => absurd hb (Nat.not_lt_zero b)⟩

end Call

def HasCall.fails (call : HasCall) (pending : Finset ChunkHash) : Prop :=
  ∃ b < pending.card, maxHasManyBatchSize ∣ b ∧ (call.faults b).fails

/-- What a call comes to: an error and no entry if a batch fails, otherwise the hashes that are
neither cached nor held, with those that are held for the cache. -/
theorem hasMany_outcome (cache store : Finset ChunkHash) (call : HasCall) {repoPath : String}
    (hpath : repoPath ≠ "") (hashes : Finset ChunkHash) :
    let pending := hashes \ cache
    let outcome := hasMany cache call.slices (call.hasChunks store repoPath) hashes
    call.fails pending ∧ (∃ err, outcome.result = .error err) ∧ outcome.inserted = none ∨
    ¬call.fails pending ∧ outcome.result = .ok (pending \ store) ∧
      outcome.inserted = if pending ∩ store = ∅ then none else some (pending ∩ store) := by
  intro pending outcome
  by_cases hnone : pending = ∅
  · have houtcome : outcome = ⟨.ok pending, none⟩ := if_pos hnone
    right
    rw [houtcome, hnone]
    refine ⟨?_, by simp, by simp⟩
    rintro ⟨b, hb, -⟩
    exact absurd hb (Nat.not_lt_zero b)
  · have hlist : (call.slices.list pending).toFinset = pending := by
      ext h
      rw [List.mem_toFinset, Enumeration.mem_list]
    have hcard : (call.slices.list pending).length = pending.card := by
      rw [← List.toFinset_card_of_nodup (call.slices.nodup_list pending), hlist]
    let s := batchItr (call.slices.list pending).length maxHasManyBatchSize
      (hasManyBatch (call.hasChunks store repoPath) (call.slices.list pending)
        ((call.slices.list pending).map ChunkHash.bytes)) ⟨∅, ∅, none⟩
    have houtcome : outcome = match s.err with
        | some err => ⟨.error err, none⟩
        | none => ⟨.ok s.absent, if s.found = ∅ then none else some s.found⟩ := if_neg hnone
    have hrun : StoppedAt call (call.slices.list pending) s ∨
        SplitUpTo store call (call.slices.list pending) (call.slices.list pending).length s :=
      splitUpTo_batchItr hpath (call.slices.nodup_list pending)
    rcases hrun with ⟨b, hb, hdvd, hfails, err, herr⟩ | ⟨hstate, hall⟩
    · left
      simp only [herr] at houtcome
      rw [houtcome]
      exact ⟨⟨b, hcard ▸ hb, hdvd, hfails⟩, ⟨err, rfl⟩, rfl⟩
    · right
      rw [List.take_length, hlist] at hstate
      rw [hstate] at houtcome
      simp only at houtcome
      rw [houtcome]
      refine ⟨?_, rfl, rfl⟩
      rintro ⟨b, hb, hdvd, hfails⟩
      exact hall b (hcard ▸ hb) hdvd hfails

theorem repoPath_ne_empty {repo : RepoID} (hname : repo.repoName ≠ "") : repoPath repo ≠ "" := by
  unfold repoPath
  split
  · rename_i horg
    intro h
    exact horg (String.append_eq_empty_iff.mp (String.append_eq_empty_iff.mp h).1).1
  · exact hname

/-- With nothing cached, a call that is answered returns the requested hashes that the provider
lacks and caches those it holds; a call with a failed batch does neither. -/
theorem hasMany_round_trip {Provider : Type} (rcs : RemoteChunkStore Provider)
    (store requested : Finset ChunkHash) (call : HasCall) :
    let outcome := rcs.hasMany ∅ store call requested
    (¬call.fails requested → outcome.result = .ok (requested \ store) ∧
      outcome.inserted = if requested ∩ store = ∅ then none else some (requested ∩ store)) ∧
    (call.fails requested → (∃ err, outcome.result = .error err) ∧ outcome.inserted = none) := by
  intro outcome
  have houtcome := hasMany_outcome ∅ store call (repoPath_ne_empty rcs.named) requested
  rw [Finset.sdiff_empty] at houtcome
  rcases houtcome with ⟨hfails, herr, hnone⟩ | ⟨hok, hresult, hinserted⟩
  · exact ⟨fun h => absurd hfails h, fun _ => ⟨herr, hnone⟩⟩
  · exact ⟨fun _ => ⟨hresult, hinserted⟩, fun h => absurd h hok⟩

/-! ## A call on two hashes -/

def bytesLess (a b : ChunkHash) : Bool := a.bytes.map UInt8.toNat < b.bytes.map UInt8.toNat

theorem bytesLess_strictTotal : StrictTotalOn bytesLess fun _ => True := by
  apply strictTotalOn_of_key fun h : ChunkHash => h.bytes.map UInt8.toNat
  · exact fun a b => decide_eq_true_iff
  · rintro ⟨a, ha⟩ ⟨b, hb⟩ hkey
    have hinjective : Function.Injective UInt8.toNat := fun _ _ => UInt8.toNat_inj.mp
    have hbytes : a = b := List.map_injective_iff.mpr hinjective hkey
    subst hbytes
    rfl

def plainHash (b : UInt8) : ChunkHash := ⟨List.replicate 20 b, List.length_replicate⟩

def ascendingCall (faults : ℕ → RequestFaults) : HasCall where
  slices := Enumeration.sorted bytesLess bytesLess_strictTotal
  answers := fun _ => Enumeration.sorted bytesLess bytesLess_strictTotal
  faults := faults

def mainStore : RemoteChunkStore String := ⟨"alice", ⟨"", "main"⟩, by decide⟩

theorem hasMany_round_trip_on_two :
    (mainStore.hasMany ∅ {plainHash 1} (ascendingCall fun _ => {})
      {plainHash 1, plainHash 2}).result = .ok {plainHash 2} ∧
    (mainStore.hasMany ∅ {plainHash 1} (ascendingCall fun _ => { rebase := some "locked" })
      {plainHash 1, plainHash 2}).inserted = none := by
  have hanswered : ¬(ascendingCall fun _ => {}).fails {plainHash 1, plainHash 2} := by
    rintro ⟨b, -, -, hfails⟩
    have hnone : ¬({} : RequestFaults).fails := by decide
    exact hnone hfails
  have hfailed : (ascendingCall fun _ => { rebase := some "locked" }).fails
      {plainHash 1, plainHash 2} :=
    ⟨0, by decide, Nat.dvd_zero _, by decide⟩
  refine ⟨?_, ((hasMany_round_trip mainStore _ _ _).2 hfailed).2⟩
  rw [((hasMany_round_trip mainStore {plainHash 1} _ _).1 hanswered).1]
  decide

end DoltSwarm.Core
