import DoltSwarm.Core.ChunkStore
import DoltSwarm.Lib.Runs

/-!
# Fetching chunks (core/remote_chunk_store.go, chunkstore_server.go, providers.go, core/cache.go)

`GetMany` calls back for the cached chunks and downloads the others. The server sends a compressed
chunk for every hash of a request, and for a hash that its store lacks it is the compressed empty
chunk. That one has bytes, so the client takes it for a chunk like any other.
-/

namespace DoltSwarm.Core

open Lib

set_option autoImplicit false

/-- The chunk library on the bytes of a chunk, and the texts of hashes. -/
structure ChunkCodec where
  /-- `nbs.ChunkToCompressedChunk`, down to the full compressed chunk -/
  compress : List UInt8 → List UInt8
  /-- The error of `nbs.NewCompressedChunk`. -/
  newCompressedChunk : List UInt8 → Option String
  toChunk : List UInt8 → Except String (List UInt8)
  isEmpty : List UInt8 → Bool
  string : ChunkHash → String
  parse : String → ChunkHash
  compress_ne_nil : ∀ data, compress data ≠ []
  newCompressedChunk_compress : ∀ data, newCompressedChunk (compress data) = none
  toChunk_compress : ∀ data, toChunk (compress data) = .ok data
  isEmpty_compress : ∀ data, isEmpty (compress data) = true ↔ data = []
  string_ne_empty : ∀ h, string h ≠ ""
  parse_string : ∀ h, parse (string h) = h

structure Chunk where
  hash : ChunkHash
  data : List UInt8
  deriving DecidableEq

/-! ## The server -/

/-- `Get` of a store with the chunks `store`: a missing hash gives the empty chunk. -/
def storeGet (content : ChunkHash → List UInt8) (store : Finset ChunkHash) (h : ChunkHash) :
    List UInt8 :=
  if h ∈ store then content h else []

structure DownloadChunksResponse where
  hash : String
  chunk : List UInt8
  deriving DecidableEq

structure DownloadFaults where
  rebase : Option String := none
  get : ChunkHash → Option String := fun _ => none
  send : ChunkHash → Option String := fun _ => none

section Server

variable (codec : ChunkCodec) (content : ChunkHash → List UInt8) (store : Finset ChunkHash)

def sendChunks (faults : DownloadFaults) : List String → List DownloadChunksResponse × Option Status
  | [] => ([], none)
  | hashStr :: rest =>
    let h := codec.parse hashStr
    match faults.get h, faults.send h with
    | some err, _ => ([], some ⟨.internal, "get " ++ hashStr ++ ": " ++ err⟩)
    | none, some err => ([], some ⟨.internal, "send: " ++ err⟩)
    | none, none =>
      -- also for an absent chunk: compressed, the empty one has bytes
      let sent := sendChunks faults rest
      (⟨hashStr, codec.compress (storeGet content store h)⟩ :: sent.1, sent.2)

def serverDownloadChunks (faults : DownloadFaults) (hashes : List String) :
    List DownloadChunksResponse × Option Status :=
  match hashes, faults.rebase with
  | [], _ => ([], some ⟨.invalidArgument, "at least one hash is required"⟩)
  | _ :: _, some err => ([], some ⟨.internal, "rebase: " ++ err⟩)
  | _ :: _, none => sendChunks codec content store faults hashes

end Server

/-! ## The client -/

inductive FetchError
  | rpc (status : Status)
  | client (text : String)
  deriving DecidableEq

/-- The order in which a call meets its hashes, and what goes wrong on the way. After `cut` many
responses the stream breaks off. -/
structure GetCall where
  order : Enumeration ChunkHash
  opening : Option Status := none
  cut : Option (ℕ × Status) := none
  faults : DownloadFaults := {}

/-- What `stream.Recv` yields: the responses, and then the status unless it is the end of file. -/
def GetCall.stream (call : GetCall) (codec : ChunkCodec) (content : ChunkHash → List UInt8)
    (store : Finset ChunkHash) (hashes : List String) :
    List DownloadChunksResponse × Option Status :=
  let served := serverDownloadChunks codec content store call.faults hashes
  match call.cut with
  | none => served
  | some (n, err) => (served.1.take n, some err)

/-- The loop of `downloaderClient.DownloadChunks` over the responses. -/
def recvLoop {σ : Type} (onChunk : String → List UInt8 → σ → σ × Option FetchError)
    (fin : Option Status) : List DownloadChunksResponse → σ → σ × Option FetchError
  | [], s => (s, fin.map .rpc)
  | resp :: rest, s =>
    if resp.hash = "" ∨ resp.chunk = [] then recvLoop onChunk fin rest s
    else
      match onChunk resp.hash resp.chunk s with
      | (s, some err) => (s, some err)
      | (s, none) => recvLoop onChunk fin rest s

def GetCall.downloadChunks {σ : Type} (call : GetCall) (codec : ChunkCodec)
    (content : ChunkHash → List UInt8) (store : Finset ChunkHash) (hashes : List String)
    (onChunk : String → List UInt8 → σ → σ × Option FetchError) (s : σ) : σ × Option FetchError :=
  match call.opening with
  | some err => (s, some (.rpc err))
  | none =>
    let stream := call.stream codec content store hashes
    recvLoop onChunk stream.2 stream.1 s

abbrev ChunkCache := Map ChunkHash (List UInt8)

def insertChunks (cache : ChunkCache) (cs : List (ChunkHash × List UInt8)) : ChunkCache :=
  cs.foldl (fun cache c => cache.put c.1 c.2) cache

def getCachedChunks (cache : ChunkCache) (hs : Finset ChunkHash) : Map ChunkHash (List UInt8) :=
  Map.mapBy (hs ∩ cache.keys) cache.get

/-- What the callbacks have made of a call, and what it has put into the cache. -/
structure Fetching (σ : Type) where
  seen : σ
  inserted : List (ChunkHash × List UInt8)

section Client

variable {σ : Type} (codec : ChunkCodec) (content : ChunkHash → List UInt8)

/-- The callback of `downloadChunksAndCache`. -/
def onChunk (found : ChunkHash → List UInt8 → σ → σ) (toSend : Finset ChunkHash)
    (hashStr : String) (compressed : List UInt8) (s : Fetching σ) :
    Fetching σ × Option FetchError :=
  if compressed = [] then (s, none)
  else
    let h := codec.parse hashStr
    match codec.newCompressedChunk compressed with
    | some err => (s, some (.client ("create compressed chunk " ++ hashStr ++ ": " ++ err)))
    | none =>
      let inserted := s.inserted ++ [(h, compressed)]
      if h ∈ toSend then (⟨found h compressed s.seen, inserted⟩, none)
      else (⟨s.seen, inserted⟩, none)

def downloadChunksAndCache (store : Finset ChunkHash) (call : GetCall)
    (found : ChunkHash → List UInt8 → σ → σ) (notCached : List ChunkHash) (s : Fetching σ) :
    Fetching σ × Option FetchError :=
  call.downloadChunks codec content store (notCached.map codec.string)
    (onChunk codec found notCached.toFinset) s

/-- The loop of `GetManyCompressed`: call back for the cached chunks, collect the other hashes. -/
def cachedLoop (hashToChunk : Map ChunkHash (List UInt8)) (found : ChunkHash → List UInt8 → σ → σ) :
    List ChunkHash → List ChunkHash → σ → List ChunkHash × σ
  | [], notCached, s => (notCached, s)
  | h :: rest, notCached, s =>
    match hashToChunk.lookup h with
    | none => cachedLoop hashToChunk found rest (notCached ++ [h]) s
    | some c =>
      if codec.isEmpty c then cachedLoop hashToChunk found rest (notCached ++ [h]) s
      else cachedLoop hashToChunk found rest notCached (found h c s)

def getManyCompressed (cache : ChunkCache) (store : Finset ChunkHash) (call : GetCall)
    (hashes : Finset ChunkHash) (found : ChunkHash → List UInt8 → σ → σ) (s : σ) :
    Fetching σ × Option FetchError :=
  let hashToChunk := getCachedChunks cache hashes
  let looped := cachedLoop codec hashToChunk found (call.order.list hashes) [] s
  if looped.1 = [] then (⟨looped.2, []⟩, none)
  else downloadChunksAndCache codec content store call found looped.1 ⟨looped.2, []⟩

structure Collected where
  chunks : List Chunk
  ae : Option String

/-- The callback of `GetMany`. -/
def collectChunk (h : ChunkHash) (cc : List UInt8) (s : Collected) : Collected :=
  if s.ae ≠ none then s
  else
    match codec.toChunk cc with
    | .error err => { s with ae := some err }
    | .ok data => { s with chunks := s.chunks ++ [⟨h, data⟩] }

structure GetManyOutcome where
  err : Option FetchError
  found : List Chunk
  inserted : List (ChunkHash × List UInt8)
  deriving DecidableEq

def getMany (cache : ChunkCache) (store : Finset ChunkHash) (call : GetCall)
    (hashes : Finset ChunkHash) : GetManyOutcome :=
  let fetched :=
    getManyCompressed codec content cache store call hashes (collectChunk codec) ⟨[], none⟩
  { err := fetched.2.or (fetched.1.seen.ae.map .client)
    found := fetched.1.seen.chunks
    inserted := fetched.1.inserted }

end Client

/-! ## What comes over the stream -/

structure GetCall.Faultless (call : GetCall) : Prop where
  opening : call.opening = none
  cut : call.cut = none
  rebase : call.faults.rebase = none
  get : ∀ h, call.faults.get h = none
  send : ∀ h, call.faults.send h = none

section Stream

variable (codec : ChunkCodec) (content : ChunkHash → List UInt8) (store : Finset ChunkHash)

def sentBytes (h : ChunkHash) : List UInt8 := codec.compress (storeGet content store h)

def response (h : ChunkHash) : DownloadChunksResponse :=
  ⟨codec.string h, sentBytes codec content store h⟩

/-- The responses are those for the first hashes of the request, and for all of them if the stream
ends well, which it does unless something goes wrong. -/
def ServedFor (hs : List ChunkHash) (faultless : Prop)
    (served : List DownloadChunksResponse × Option Status) : Prop :=
  ∃ sent, sent <+: hs ∧ served.1 = sent.map (response codec content store) ∧
    (served.2 = none → sent = hs) ∧ (faultless → served.2 = none)

theorem servedFor_error (hs : List ChunkHash) {faultless : Prop} (h : ¬faultless) (err : Status) :
    ServedFor codec content store hs faultless ([], some err) :=
  ⟨[], List.nil_prefix, rfl, fun hnone => (nomatch hnone), fun hf => absurd hf h⟩

theorem sendChunks_served (faults : DownloadFaults) (hs : List ChunkHash) :
    ServedFor codec content store hs ((∀ h, faults.get h = none) ∧ ∀ h, faults.send h = none)
      (sendChunks codec content store faults (hs.map codec.string)) := by
  induction hs with
  | nil => exact ⟨[], List.nil_prefix, rfl, fun _ => rfl, fun _ => rfl⟩
  | cons h hs ih =>
    simp only [List.map_cons, sendChunks, codec.parse_string]
    cases hget : faults.get h with
    | some err =>
      apply servedFor_error
      rintro ⟨hgets, -⟩
      exact nomatch (hgets h).symm.trans hget
    | none =>
      cases hsend : faults.send h with
      | some err =>
        apply servedFor_error
        rintro ⟨-, hsends⟩
        exact nomatch (hsends h).symm.trans hsend
      | none =>
        obtain ⟨sent, hpre, hmap, hall, hfaultless⟩ := ih
        refine ⟨h :: sent, (List.prefix_cons_inj h).mpr hpre, ?_, fun hnone => ?_, hfaultless⟩
        · rw [List.map_cons, ← hmap]
          rfl
        · rw [hall hnone]

theorem serverDownloadChunks_served (call : GetCall) {hs : List ChunkHash} (hne : hs ≠ []) :
    ServedFor codec content store hs call.Faultless
      (serverDownloadChunks codec content store call.faults (hs.map codec.string)) := by
  obtain ⟨h, rest, rfl⟩ := List.exists_cons_of_ne_nil hne
  cases hrebase : call.faults.rebase with
  | some err =>
    simp only [List.map_cons, serverDownloadChunks, hrebase]
    apply servedFor_error
    intro hcall
    exact nomatch hcall.rebase.symm.trans hrebase
  | none =>
    obtain ⟨sent, hpre, hmap, hall, hfaultless⟩ :=
      sendChunks_served codec content store call.faults (h :: rest)
    simp only [List.map_cons, serverDownloadChunks, hrebase]
    exact ⟨sent, hpre, hmap, hall, fun hcall => hfaultless ⟨hcall.get, hcall.send⟩⟩

theorem stream_served (call : GetCall) {hs : List ChunkHash} (hne : hs ≠ []) :
    ServedFor codec content store hs call.Faultless
      (call.stream codec content store (hs.map codec.string)) := by
  obtain ⟨sent, hpre, hmap, hall, hfaultless⟩ :=
    serverDownloadChunks_served codec content store call hne
  cases hcut : call.cut with
  | none =>
    simp only [GetCall.stream, hcut]
    exact ⟨sent, hpre, hmap, hall, hfaultless⟩
  | some cut =>
    simp only [GetCall.stream, hcut]
    refine ⟨sent.take cut.1, ( List.take_prefix _ _).trans hpre, ?_, fun hnone => (nomatch hnone),
      fun hcall => ?_⟩
    · rw [hmap, List.map_take]
    · exact nomatch hcall.cut.symm.trans hcut

variable {σ : Type} (found : ChunkHash → List UInt8 → σ → σ)

theorem onChunk_response {toSend : Finset ChunkHash} {h : ChunkHash} (hsend : h ∈ toSend)
    (s : Fetching σ) :
    onChunk codec found toSend (codec.string h) (sentBytes codec content store h) s =
      (⟨found h (sentBytes codec content store h) s.seen,
        s.inserted ++ [(h, sentBytes codec content store h)]⟩, none) := by
  have hbytes : sentBytes codec content store h ≠ [] := codec.compress_ne_nil _
  have hnew : codec.newCompressedChunk (sentBytes codec content store h) = none :=
    codec.newCompressedChunk_compress _
  simp only [onChunk, if_neg hbytes, hnew, codec.parse_string, if_pos hsend]

def received (sent : List ChunkHash) (s : Fetching σ) : Fetching σ where
  seen := sent.foldl (fun seen h => found h (sentBytes codec content store h) seen) s.seen
  inserted := s.inserted ++ sent.map fun h => (h, sentBytes codec content store h)

theorem recvLoop_responses {toSend : Finset ChunkHash} {sent : List ChunkHash}
    (hsend : ∀ h ∈ sent, h ∈ toSend) (fin : Option Status) (s : Fetching σ) :
    recvLoop (onChunk codec found toSend) fin (sent.map (response codec content store)) s =
      (received codec content store found sent s, fin.map .rpc) := by
  induction sent generalizing s with
  | nil => simp [recvLoop, received]
  | cons h sent ih =>
    -- no response is skipped: the test for an absent chunk never holds
    have hskip : ¬(codec.string h = "" ∨ sentBytes codec content store h = []) := by
      rintro (hhash | hchunk)
      · exact codec.string_ne_empty h hhash
      · exact codec.compress_ne_nil _ hchunk
    have hcalled := onChunk_response codec content store found (hsend h List.mem_cons_self) s
    simp only [List.map_cons, recvLoop, response, if_neg hskip, hcalled]
    refine (ih (fun x hx => hsend x (List.mem_cons_of_mem h hx)) _).trans ?_
    simp [received]

theorem downloadChunksAndCache_received (call : GetCall) {notCached : List ChunkHash}
    (hne : notCached ≠ []) (s : Fetching σ) :
    let fetched := downloadChunksAndCache codec content store call found notCached s
    ∃ sent, sent <+: notCached ∧ fetched.1 = received codec content store found sent s ∧
      (fetched.2 = none → sent = notCached) ∧ (call.Faultless → fetched.2 = none) := by
  intro fetched
  cases hopening : call.opening with
  | some err =>
    have hfetched : fetched = (s, some (.rpc err)) := by
      simp only [fetched, downloadChunksAndCache, GetCall.downloadChunks, hopening]
    rw [hfetched]
    refine ⟨[], List.nil_prefix, by simp [received], fun hnone => (nomatch hnone), fun hcall => ?_⟩
    exact nomatch hcall.opening.symm.trans hopening
  | none =>
    obtain ⟨sent, hpre, hmap, hall, hfaultless⟩ := stream_served codec content store call hne
    have hsend : ∀ h ∈ sent, h ∈ notCached.toFinset := by
      intro h hh
      exact List.mem_toFinset.mpr (hpre.subset hh)
    have hfetched : fetched = (received codec content store found sent s,
        (call.stream codec content store (notCached.map codec.string)).2.map .rpc) := by
      simp only [fetched, downloadChunksAndCache, GetCall.downloadChunks, hopening, hmap]
      exact recvLoop_responses codec content store found hsend _ s
    rw [hfetched]
    refine ⟨sent, hpre, rfl, fun hnone => hall (Option.map_eq_none_iff.mp hnone), fun hcall => ?_⟩
    exact Option.map_eq_none_iff.mpr (hfaultless hcall)

end Stream

/-! ## Cached chunks -/

section Cached

variable (codec : ChunkCodec)

def cachedNonEmpty (cache : ChunkCache) (h : ChunkHash) : Bool :=
  match cache.lookup h with
  | none => false
  | some c => !codec.isEmpty c

theorem lookup_getCachedChunks {cache : ChunkCache} {hs : Finset ChunkHash} {h : ChunkHash}
    (hmem : h ∈ hs) : (getCachedChunks cache hs).lookup h = cache.lookup h := by
  rw [getCachedChunks, Map.lookup_mapBy]
  by_cases hkey : h ∈ cache.keys
  · rw [if_pos (Finset.mem_inter.mpr ⟨hmem, hkey⟩), Map.lookup_of_mem hkey]
  · rw [if_neg fun hinter => hkey (Finset.mem_inter.mp hinter).2,
      (Map.lookup_eq_none_iff cache h).mpr hkey]

theorem cachedLoop_eq {σ : Type} (found : ChunkHash → List UInt8 → σ → σ) {cache : ChunkCache}
    {hashToChunk : Map ChunkHash (List UInt8)} {hs : List ChunkHash}
    (hlookup : ∀ h ∈ hs, hashToChunk.lookup h = cache.lookup h) (notCached : List ChunkHash)
    (s : σ) :
    cachedLoop codec hashToChunk found hs notCached s =
      (notCached ++ hs.filter (!cachedNonEmpty codec cache ·),
        (hs.filter (cachedNonEmpty codec cache ·)).foldl
          (fun s h => found h (cache.get h) s) s) := by
  induction hs generalizing notCached s with
  | nil => simp [cachedLoop]
  | cons h hs ih =>
    have ih := ih fun x hx => hlookup x (List.mem_cons_of_mem h hx)
    rw [cachedLoop, hlookup h List.mem_cons_self]
    cases hc : cache.lookup h with
    | none =>
      have hnot : cachedNonEmpty codec cache h = false := by simp [cachedNonEmpty, hc]
      simp [ih, hnot]
    | some c =>
      have hget : cache.get h = c := Map.get_of_lookup hc
      have hcached : cachedNonEmpty codec cache h = !codec.isEmpty c := by
        simp [cachedNonEmpty, hc]
      cases hempty : codec.isEmpty c with
      | true => simp [ih, hcached, hempty]
      | false => simp [ih, hcached, hempty, hget]

end Cached

/-! ## A whole call -/

section Call

variable (codec : ChunkCodec) (content : ChunkHash → List UInt8) (cache : ChunkCache)
  (store : Finset ChunkHash) (call : GetCall) (hashes : Finset ChunkHash)

def pending : List ChunkHash :=
  (call.order.list hashes).filter (!cachedNonEmpty codec cache ·)

def fromCache : List ChunkHash :=
  (call.order.list hashes).filter (cachedNonEmpty codec cache ·)

theorem getManyCompressed_received {σ : Type} (found : ChunkHash → List UInt8 → σ → σ) (s : σ) :
    let fetched := getManyCompressed codec content cache store call hashes found s
    ∃ sent, sent <+: pending codec cache call hashes ∧
      fetched.1 = received codec content store found sent
        ⟨(fromCache codec cache call hashes).foldl (fun s h => found h (cache.get h) s) s, []⟩ ∧
      (fetched.2 = none → sent = pending codec cache call hashes) ∧
      (call.Faultless → fetched.2 = none) := by
  intro fetched
  have hlookup : ∀ h ∈ call.order.list hashes,
      (getCachedChunks cache hashes).lookup h = cache.lookup h :=
    fun h hh => lookup_getCachedChunks ((call.order.mem_list hashes h).mp hh)
  have hlooped := cachedLoop_eq codec found hlookup [] s
  rw [List.nil_append] at hlooped
  by_cases hnone : pending codec cache call hashes = []
  · have hfetched : fetched = (⟨(fromCache codec cache call hashes).foldl
        (fun s h => found h (cache.get h) s) s, []⟩, none) := by
      simp only [fetched, getManyCompressed, hlooped]
      exact if_pos hnone
    rw [hfetched]
    exact ⟨[], List.nil_prefix, by simp [received], fun _ => hnone.symm, fun _ => rfl⟩
  · have hfetched : fetched = downloadChunksAndCache codec content store call found
        (pending codec cache call hashes) ⟨(fromCache codec cache call hashes).foldl
          (fun s h => found h (cache.get h) s) s, []⟩ := by
      simp only [fetched, getManyCompressed, hlooped]
      exact if_neg hnone
    rw [hfetched]
    exact downloadChunksAndCache_received codec content store found call hnone _

theorem foldl_collectChunk (data : ChunkHash → List UInt8) (hs : List ChunkHash)
    (chunks : List Chunk) :
    hs.foldl (fun s h => collectChunk codec h (codec.compress (data h)) s) ⟨chunks, none⟩ =
      ⟨chunks ++ hs.map fun h => ⟨h, data h⟩, none⟩ := by
  induction hs generalizing chunks with
  | nil => simp
  | cons h hs ih =>
    -- `toChunk` gives the data back, so `ae` is never set
    have hstep : collectChunk codec h (codec.compress (data h)) ⟨chunks, none⟩ =
        ⟨chunks ++ [⟨h, data h⟩], none⟩ := by
      simp [collectChunk, codec.toChunk_compress]
    rw [List.foldl_cons, hstep, ih]
    simp

/-- Every cached chunk is the compressed chunk of its hash, or the compressed empty chunk. -/
def Genuine : Prop :=
  ∀ h cc, cache.lookup h = some cc → cc = codec.compress (content h) ∨ cc = codec.compress []

variable {codec content cache}

theorem Genuine.get_eq (hgenuine : Genuine codec content cache) {h : ChunkHash}
    (hcached : cachedNonEmpty codec cache h = true) :
    cache.get h = codec.compress (content h) := by
  unfold cachedNonEmpty at hcached
  split at hcached
  · cases hcached
  · rename_i cc hlookup
    rw [Map.get_of_lookup hlookup]
    -- the empty chunk was cached for a provider that lacked it, and counts as not cached
    rcases hgenuine h cc hlookup with hcontent | hempty
    · exact hcontent
    · rw [hempty, (codec.isEmpty_compress []).mpr rfl] at hcached
      cases hcached

theorem foldl_fromCache (hgenuine : Genuine codec content cache) :
    (fromCache codec cache call hashes).foldl (fun s h => collectChunk codec h (cache.get h) s)
        ⟨[], none⟩ =
      ⟨(fromCache codec cache call hashes).map fun h => ⟨h, content h⟩, none⟩ := by
  rw [← List.nil_append (List.map _ _), ← foldl_collectChunk codec content]
  apply List.foldl_ext
  intro s h hh
  rw [hgenuine.get_eq (List.mem_filter.mp hh).2]

/-- The calls of `found`: first the cached chunks, then what the provider has sent. A call that
returns nil has had a response for every other hash. -/
theorem getMany_found (hgenuine : Genuine codec content cache) :
    let outcome := getMany codec content cache store call hashes
    ∃ sent, sent <+: pending codec cache call hashes ∧
      outcome.found = (fromCache codec cache call hashes).map (fun h => ⟨h, content h⟩) ++
        sent.map (fun h => ⟨h, storeGet content store h⟩) ∧
      (outcome.err = none → sent = pending codec cache call hashes) ∧
      (call.Faultless → outcome.err = none) := by
  intro outcome
  obtain ⟨sent, hpre, hfetched, hall, hfaultless⟩ := getManyCompressed_received codec content cache
    store call hashes (collectChunk codec) ⟨[], none⟩
  have hseen := congrArg Fetching.seen hfetched
  simp only [received, foldl_fromCache call hashes hgenuine, sentBytes] at hseen
  rw [foldl_collectChunk codec (storeGet content store)] at hseen
  have herr : outcome.err = (getManyCompressed codec content cache store call hashes
      (collectChunk codec) ⟨[], none⟩).2 := by
    simp only [outcome, getMany, hseen, Option.map_none, Option.or_none]
  refine ⟨sent, hpre, congrArg Collected.chunks hseen, ?_, ?_⟩
  · rw [herr]
    exact hall
  · rw [herr]
    exact hfaultless

theorem getMany_inserted_genuine (cache : ChunkCache) :
    ∀ x ∈ (getMany codec content cache store call hashes).inserted,
      x.2 = codec.compress (content x.1) ∨ x.2 = codec.compress [] := by
  obtain ⟨sent, -, hfetched, -⟩ := getManyCompressed_received codec content cache
    store call hashes (collectChunk codec) ⟨[], none⟩
  have hinserted := congrArg Fetching.inserted hfetched
  simp only [received, List.nil_append] at hinserted
  intro x hx
  have hx : x ∈ sent.map fun h => (h, sentBytes codec content store h) := hinserted ▸ hx
  obtain ⟨h, -, rfl⟩ := List.mem_map.mp hx
  simp only [sentBytes, storeGet]
  split
  · exact Or.inl rfl
  · exact Or.inr rfl

end Call

/-! ## The cache over a run of calls -/

/-- A call on a store whose provider holds the chunks `store`, and what the cache drops meanwhile.
What goes into the cache does not depend on the caller's callback, so a `GetManyCompressed` is a
call like `GetMany`. -/
structure FetchEvent where
  store : Finset ChunkHash
  call : GetCall
  hashes : Finset ChunkHash
  evicted : Finset ChunkHash

section Runs

variable (codec : ChunkCodec) (content : ChunkHash → List UInt8)

def fetchStep (cache : ChunkCache) (e : FetchEvent) : ChunkCache :=
  Map.removeAll
    (insertChunks cache (getMany codec content cache e.store e.call e.hashes).inserted) e.evicted

def FetchStep (cache : ChunkCache) (e : FetchEvent) (cache' : ChunkCache) : Prop :=
  cache' = fetchStep codec content cache e

theorem lookup_insertChunks {cache : ChunkCache} {cs : List (ChunkHash × List UInt8)}
    {h : ChunkHash} {cc : List UInt8} (hlookup : (insertChunks cache cs).lookup h = some cc) :
    (h, cc) ∈ cs ∨ cache.lookup h = some cc := by
  induction cs generalizing cache with
  | nil => exact Or.inr hlookup
  | cons c cs ih =>
    rcases ih hlookup with hmem | hput
    · exact Or.inl (List.mem_cons_of_mem c hmem)
    · rw [Map.lookup_put] at hput
      split at hput
      · rename_i heq
        left
        rw [heq, ← Option.some.inj hput]
        exact List.mem_cons_self
      · exact Or.inr hput

variable {codec content}

theorem genuine_step {cache cache' : ChunkCache} {e : FetchEvent}
    (hgenuine : Genuine codec content cache) (hs : FetchStep codec content cache e cache') :
    Genuine codec content cache' := by
  intro h cc hlookup
  rw [hs, fetchStep, Map.lookup_removeAll] at hlookup
  split at hlookup
  · cases hlookup
  · rcases lookup_insertChunks hlookup with hnew | hold
    · exact getMany_inserted_genuine e.store e.call e.hashes cache (h, cc) hnew
    · exact hgenuine h cc hold

theorem genuine_of_reachable {cache : ChunkCache}
    (hcache : Reachable (FetchStep codec content) ∅ cache) : Genuine codec content cache := by
  apply hcache.invariant
  · intro h cc hlookup
    rw [Finmap.lookup_empty] at hlookup
    cases hlookup
  · exact fun _ _ _ hgenuine hs => genuine_step hgenuine hs

end Runs

/-! ## Delivery -/

section Delivery

variable (codec : ChunkCodec) (content : ChunkHash → List UInt8) (cache : ChunkCache)
  (store : Finset ChunkHash)

def Available (h : ChunkHash) : Prop := h ∈ store ∨ cachedNonEmpty codec cache h = true

instance (h : ChunkHash) : Decidable (Available codec cache store h) :=
  inferInstanceAs (Decidable (_ ∨ _))

def deliveredChunk (h : ChunkHash) : Chunk :=
  ⟨h, if Available codec cache store h then content h else []⟩

/-- `found` is called once for every available chunk that is requested, and for no other. -/
structure Delivered (hashes : Finset ChunkHash) (found : List Chunk) : Prop where
  once : (found.map Chunk.hash).Nodup
  mem_iff : ∀ c, c ∈ found ↔
    c.hash ∈ hashes ∧ Available codec cache store c.hash ∧ c.data = content c.hash

variable {codec content cache store} {call : GetCall} {hashes : Finset ChunkHash}
  (hgenuine : Genuine codec content cache)
  (hnil : (getMany codec content cache store call hashes).err = none)

include hgenuine hnil

theorem getMany_found_perm :
    (getMany codec content cache store call hashes).found.Perm
      ((call.order.list hashes).map (deliveredChunk codec content cache store)) := by
  obtain ⟨sent, -, hfound, hall, -⟩ := getMany_found store call hashes hgenuine
  -- a hash from the cache is available, any other one is if the provider holds it
  have hcached : (fromCache codec cache call hashes).map (fun h => Chunk.mk h (content h)) =
      (fromCache codec cache call hashes).map (deliveredChunk codec content cache store) := by
    apply List.map_congr_left
    intro h hh
    have havailable : Available codec cache store h := Or.inr (List.mem_filter.mp hh).2
    rw [deliveredChunk, if_pos havailable]
  have hsent : (pending codec cache call hashes).map
        (fun h => Chunk.mk h (storeGet content store h)) =
      (pending codec cache call hashes).map (deliveredChunk codec content cache store) := by
    apply List.map_congr_left
    intro h hh
    have hnot : cachedNonEmpty codec cache h = false := by
      simpa using (List.mem_filter.mp hh).2
    simp [deliveredChunk, storeGet, Available, hnot]
  rw [hfound, hall hnil, hcached, hsent, ← List.map_append]
  exact (List.filter_append_perm _ _).map _

theorem mem_getMany_found_iff (c : Chunk) :
    c ∈ (getMany codec content cache store call hashes).found ↔
      c.hash ∈ hashes ∧ c = deliveredChunk codec content cache store c.hash := by
  rw [(getMany_found_perm hgenuine hnil).mem_iff, List.mem_map]
  constructor
  · rintro ⟨h, hh, rfl⟩
    exact ⟨(call.order.mem_list hashes h).mp hh, rfl⟩
  · rintro ⟨hhash, hc⟩
    exact ⟨c.hash, (call.order.mem_list hashes c.hash).mpr hhash, hc.symm⟩

theorem getMany_once :
    ((getMany codec content cache store call hashes).found.map Chunk.hash).Nodup := by
  have hperm := (getMany_found_perm hgenuine hnil).map Chunk.hash
  have hid : Chunk.hash ∘ deliveredChunk codec content cache store = id := rfl
  rw [List.map_map, hid, List.map_id] at hperm
  exact hperm.nodup_iff.mpr (call.order.nodup_list hashes)

end Delivery

section Results

variable {codec : ChunkCodec} {content : ChunkHash → List UInt8} {cache : ChunkCache}
  (hcache : Reachable (FetchStep codec content) ∅ cache) {store : Finset ChunkHash}
  {call : GetCall}

include hcache

/-- After any calls before it, a call that returns nil has delivered the requested chunks exactly if
and only if all of them are available. -/
theorem chunk_delivery_is_exact_iff {hashes : Finset ChunkHash}
    (hnil : (getMany codec content cache store call hashes).err = none) :
    Delivered codec content cache store hashes
        (getMany codec content cache store call hashes).found ↔
      ∀ h ∈ hashes, Available codec cache store h := by
  have hgenuine := genuine_of_reachable hcache
  constructor
  · intro hdelivered h hh
    have hmem := (mem_getMany_found_iff hgenuine hnil _).mpr
      ⟨hh, (rfl : deliveredChunk codec content cache store h = _)⟩
    exact ((hdelivered.mem_iff _).mp hmem).2.1
  · intro havailable
    refine ⟨getMany_once hgenuine hnil, fun c => ?_⟩
    rw [mem_getMany_found_iff hgenuine hnil]
    constructor
    · rintro ⟨hhash, hc⟩
      have hdata := congrArg Chunk.data hc
      rw [deliveredChunk, if_pos (havailable c.hash hhash)] at hdata
      exact ⟨hhash, havailable c.hash hhash, hdata⟩
    · rintro ⟨hhash, havail, hdata⟩
      refine ⟨hhash, ?_⟩
      rw [deliveredChunk, if_pos havail, ← hdata]

end Results

/-! ## A provider without the chunk -/

def framedCodec : ChunkCodec where
  compress data := 1 :: data
  newCompressedChunk cc := if cc = [] then some "no bytes" else none
  toChunk cc :=
    match cc with
    | [] => .error "no bytes"
    | _ :: data => .ok data
  isEmpty cc := cc.length ≤ 1
  string h := String.ofList (h.bytes.map fun b => Char.ofNat b.toNat)
  parse s := (hashNew (s.toList.map fun c => UInt8.ofNat c.toNat)).getD (plainHash 0)
  compress_ne_nil := by simp
  newCompressedChunk_compress := by simp
  toChunk_compress := by simp
  isEmpty_compress := by simp
  string_ne_empty h heq := by
    have hlength := congrArg List.length (congrArg String.toList heq)
    simp [h.length_eq, hashByteLen] at hlength
  parse_string h := by
    have hbyte : ∀ b : UInt8, UInt8.ofNat (Char.ofNat b.toNat).toNat = b := by
      intro b
      have hlt : b.toNat < 256 := b.toNat_lt
      rw [Char.toNat_ofNat, if_pos (Or.inl (by omega)), UInt8.ofNat_toNat]
    simp [hbyte, Function.comp_def, hashNew_bytes]

def ascendingGet : GetCall where
  order := Enumeration.sorted bytesLess bytesLess_strictTotal

def firstFetch : FetchEvent := ⟨{plainHash 1}, ascendingGet, {plainHash 1}, ∅⟩

theorem chunk_delivery_is_exact_iff_on_two :
    let cache := fetchStep framedCodec ChunkHash.bytes ∅ firstFetch
    Delivered framedCodec ChunkHash.bytes cache {plainHash 2} {plainHash 1, plainHash 2}
      (getMany framedCodec ChunkHash.bytes cache {plainHash 2} ascendingGet
        {plainHash 1, plainHash 2}).found := by
  have hcache : Reachable (FetchStep framedCodec ChunkHash.bytes) ∅
      (fetchStep framedCodec ChunkHash.bytes ∅ firstFetch) := ⟨_, .snoc .nil rfl⟩
  apply (chunk_delivery_is_exact_iff hcache (by decide +kernel)).mpr
  decide +kernel

/-- An absent chunk is delivered as an empty one, and the call returns nil. -/
theorem absent_chunk_is_delivered_empty :
    getMany framedCodec ChunkHash.bytes ∅ ∅ ascendingGet {plainHash 1} =
      ⟨none, [⟨plainHash 1, []⟩], [(plainHash 1, [1])]⟩ ∧
    ¬Delivered framedCodec ChunkHash.bytes ∅ ∅ {plainHash 1}
      (getMany framedCodec ChunkHash.bytes ∅ ∅ ascendingGet {plainHash 1}).found := by
  have houtcome : getMany framedCodec ChunkHash.bytes ∅ ∅ ascendingGet {plainHash 1} =
      ⟨none, [⟨plainHash 1, []⟩], [(plainHash 1, [1])]⟩ := by decide +kernel
  refine ⟨houtcome, fun hdelivered => ?_⟩
  rw [houtcome] at hdelivered
  have hmem := (hdelivered.mem_iff _).mp List.mem_cons_self
  exact absurd hmem.2.1 (by decide)

end DoltSwarm.Core
