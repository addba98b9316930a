import DoltSwarm.Core.Admission
import DoltSwarm.Core.IndexRebuild
import DoltSwarm.Core.MetadataStatement
import DoltSwarm.Core.SyncLoss

/-!
# Advertisements from the author to the index of a peer (protocol/metadata.go, core/node.go,
integration/transport/gossipsub/gossip.go)

The author signs the JSON text of the metadata without the signature, stores the whole text as a
commit message, reads it back and advertises it. The peer parses the text it gets and has the
signature checked against the text it would have signed itself. So that text has to say all there
is in the metadata, and it has to come out the same on both sides.
-/

namespace DoltSwarm.Core

set_option autoImplicit false

/-! ## The text that is signed -/

section Signing

variable {time : DateText} {m m' : CommitMetadata}

/-- `CommitMetadataForSigning` has the members of the metadata but for `sig`, which is left out of
the text when it is empty. -/
def CommitMetadata.signableData (time : DateText) (m : CommitMetadata) : List Char :=
  { m with signature := "" }.marshal time

structure SameSigned (time : DateText) (m m' : CommitMetadata) : Prop where
  kind : m.kind = m'.kind
  message : m.message = m'.message
  hlc : m.hlc = m'.hlc
  contentHash : m.contentHash = m'.contentHash
  author : m.author = m'.author
  email : m.email = m'.email
  date : time.format m.date = time.format m'.date

theorem read_marshal (time : DateText) (m : CommitMetadata) :
    ∃ date, (Lib.Json.parse (m.marshal time)).bind (unmarshal time) =
      some { m with date := date } ∧ time.parse (time.format m.date) = some date := by
  obtain ⟨date, hdate⟩ := Option.isSome_iff_exists.mp (time.accepted m.date)
  refine ⟨date, ?_, hdate⟩
  rw [CommitMetadata.marshal, unmarshal_metadataText rfl fun s _ => readsAs_encodeString s, hdate,
    Option.map_some, readMetadata_encodedBody]

theorem signableData_eq_iff :
    m.signableData time = m'.signableData time ↔ SameSigned time m m' := by
  constructor
  · intro htext
    obtain ⟨date, hread, -⟩ := read_marshal time { m with signature := "" }
    obtain ⟨date', hread', -⟩ := read_marshal time { m' with signature := "" }
    rw [CommitMetadata.signableData, CommitMetadata.signableData] at htext
    rw [htext, hread'] at hread
    obtain ⟨kind, message, hlc, contentHash, author, email, day, signature⟩ := m
    obtain ⟨kind', message', hlc', contentHash', author', email', day', signature'⟩ := m'
    simp only [Option.some.injEq, CommitMetadata.mk.injEq, and_true] at hread
    obtain ⟨rfl, rfl, rfl, rfl, rfl, rfl, -⟩ := hread
    refine ⟨rfl, rfl, rfl, rfl, rfl, rfl, ?_⟩
    simpa [CommitMetadata.marshal, metadataText, tailText, memberText] using htext
  · rintro ⟨hkind, hmessage, hhlc, hcontent, hauthor, hemail, hdate⟩
    simp only [CommitMetadata.signableData, CommitMetadata.marshal, metadataText, tailText, hkind,
      hmessage, hhlc, hcontent, hauthor, hemail, hdate]

end Signing

/-- `protocol.Signer`, with a failed check as `false`. -/
structure KeySigner where
  getID : String
  sign : List Char → String
  verify : List Char → String → String → Bool

/-- `Verify` of the metadata goes through the signed text. -/
def KeySigner.signer (time : DateText) (k : KeySigner) : Signer :=
  ⟨k.getID, fun m pub => k.verify (m.signableData time) m.signature pub⟩

/-! ## Only what was signed becomes pending -/

section Pending

variable {idx idx' idx'' : MemoryCommitIndex} {n : Node}

def addsNoPending (idx idx' : MemoryCommitIndex) : Prop :=
  ∀ h e, idx'.get h = some e → e.status = .pending → idx.get h = some e

theorem addsNoPending_refl (idx : MemoryCommitIndex) : addsNoPending idx idx := fun _ _ he _ => he

theorem addsNoPending.trans (h : addsNoPending idx idx') (h' : addsNoPending idx' idx'') :
    addsNoPending idx idx'' := fun hlc e he hp => h hlc e (h' hlc e he hp) hp

theorem addsNoPending_upsert (idx : MemoryCommitIndex) {e : CommitIndexEntry}
    (hstatus : e.status ≠ .pending) : addsNoPending idx (idx.upsert e) := by
  intro h e' he' hp
  rw [MemoryCommitIndex.get_upsert] at he'
  split_ifs at he' with heq
  · obtain rfl := Option.some.inj he'
    exact absurd hp hstatus
  · exact he'

theorem addsNoPending_initIndexFromDB (repo : Repo) (readFails : Bool) (idx : MemoryCommitIndex) :
    addsNoPending idx (initIndexFromDB repo readFails idx) := by
  intro h e he hp
  cases readFails with
  | true =>
    have hempty : initIndexFromDB repo true idx = idx.resetForRebuild := rfl
    rw [hempty, MemoryCommitIndex.get_resetForRebuild] at he
    cases he
  | false =>
    obtain ⟨happlied, -⟩ | ⟨hmem, rfl⟩ := get_initIndexFromDB he
    · rw [happlied] at hp
      cases hp
    · exact (mem_preservedEntries.mp hmem).1

theorem addsNoPending_recordRejections (dropped : List (CommitAd × RejectionReason))
    (idx : MemoryCommitIndex) : addsNoPending idx (dropped.foldl recordRejection idx) := by
  induction dropped generalizing idx with
  | nil => exact addsNoPending_refl idx
  | cons d dropped ih =>
    have hone : addsNoPending idx (recordRejection idx d) := by
      unfold recordRejection
      split_ifs
      · exact addsNoPending_refl idx
      · exact addsNoPending_upsert idx (by simp)
    exact hone.trans (ih _)

theorem addsNoPending_syncOnce (n : Node) (f : Fetch) :
    addsNoPending n.idx (n.syncOnce f).idx := by
  have hidx : (n.fetched f).idx = n.idx := by
    unfold Node.fetched
    split_ifs <;> rfl
  simp only [Node.syncOnce]
  rw [← hidx]
  split
  · exact addsNoPending_refl _
  · exact addsNoPending_initIndexFromDB _ _ _
  · exact addsNoPending_initIndexFromDB _ _ _
  · split
    · exact addsNoPending_recordRejections _ _
    · exact (addsNoPending_recordRejections _ _).trans (addsNoPending_initIndexFromDB _ _ _)

theorem addsNoPending_tryFinalize (n : Node) : addsNoPending n.idx n.tryFinalize.idx := by
  intro h e he hp
  simp only [Node.tryFinalize] at he
  obtain heq | ⟨b, -, -, heq⟩ := tryFinalize_cases n.peerHLC n.idx
  · rwa [heq] at he
  · rw [heq] at he
    exact he

theorem addsNoPending_publishLocalCommitAd (n : Node) (commitHash : Hash)
    (log : RangeOrder Commit) (readFails : Bool) :
    addsNoPending n.idx (n.publishLocalCommitAd commitHash log readFails).idx := by
  unfold Node.publishLocalCommitAd
  split
  · exact addsNoPending_refl _
  · split_ifs
    · exact addsNoPending_refl _
    · exact addsNoPending_refl _
    · exact addsNoPending_upsert _ (by simp)

theorem pending_onCommitAd {ad : CommitAdV1} {now physicalTime : Int64} {h : HLCTimestamp}
    {e : CommitIndexEntry} (he : (n.onCommitAd ad now physicalTime).idx.get h = some e)
    (hp : e.status = .pending) :
    n.idx.get h = some e ∨ ∃ m, parseCommitMetadata ad.metadataJSON = some m ∧ m.hlc = h ∧
      n.cfg.verified h.peerID m = true := by
  have hreject : addsNoPending n.idx (n.rejectAd ad).idx := addsNoPending_upsert _ (by simp)
  unfold Node.onCommitAd at he
  split_ifs at he with hrepo hdecided hown hskew
  · exact Or.inl he
  · exact Or.inl he
  · exact Or.inl he
  · exact Or.inl (hreject h e he hp)
  cases hparse : parseCommitMetadata ad.metadataJSON with
  | none =>
    simp only [hparse] at he
    exact Or.inl he
  | some m =>
    simp only [hparse] at he
    split_ifs at he with hkind hhlc hsig hverified
    · exact Or.inl he
    · exact Or.inl (hreject h e he hp)
    · exact Or.inl (hreject h e he hp)
    · exact Or.inl (hreject h e he hp)
    -- what is left is the branch that notes the timestamp as pending
    rw [MemoryCommitIndex.get_upsert] at he
    split_ifs at he with hnew
    · simp only [Bool.not_eq_true', Bool.not_eq_false] at hhlc hverified
      rw [HLCTimestamp.equal_iff] at hhlc
      subst hnew
      exact Or.inr ⟨m, rfl, hhlc, hverified⟩
    · exact Or.inl he

theorem pending_handle {a : Event} {h : HLCTimestamp} {e : CommitIndexEntry}
    (he : (n.handle a).idx.get h = some e) (hp : e.status = .pending) :
    n.idx.get h = some e ∨
      ∃ m : CommitMetadata, m.hlc = h ∧ m.kind = commitKindUser ∧
        n.cfg.verified h.peerID m = true := by
  cases a with
  | peerCommit hlc => exact Or.inl he
  | peerHeartbeat hlc => exact Or.inl he
  | onCommitAd ad now physicalTime =>
    obtain hold | ⟨m, hparse, hhlc, hverified⟩ := pending_onCommitAd he hp
    · exact Or.inl hold
    · exact Or.inr ⟨m, hhlc, parseCommitMetadata_kind hparse, hverified⟩
  | onHeartbeat hb physicalTime =>
    left
    simp only [Node.handle, Swarm.next, Node.onHeartbeat] at he
    split_ifs at he <;> exact he
  | publishHeartbeat physicalTime => exact Or.inl he
  | tryFinalize => exact Or.inl (addsNoPending_tryFinalize n h e he hp)
  | commit w =>
    left
    simp only [Node.handle, Swarm.next, Node.commit] at he
    split_ifs at he <;> exact he
  | publishLocalCommitAd commitHash log readFails =>
    exact Or.inl (addsNoPending_publishLocalCommitAd n commitHash log readFails h e he hp)
  | syncOnce f => exact Or.inl (addsNoPending_syncOnce n f h e he hp)

/-- No one but the peers who hold the keys makes a signature that is accepted. -/
def Unforged (time : DateText) (k : KeySigner) (keys : String → Option String)
    (signed : String → List CommitMetadata) : Prop :=
  ∀ peerID pub, keys peerID = some pub → ∀ data signature, k.verify data signature pub = true →
    ∃ m ∈ signed peerID, m.signableData time = data

theorem signed_of_verified {time : DateText} {k : KeySigner} {keys : String → Option String}
    {signed : String → List CommitMetadata} {cfg : NodeConfig} {m : CommitMetadata}
    {peerID : String} (hunforged : Unforged time k keys signed)
    (hsigner : cfg.signer = k.signer time) (hkeys : cfg.identity = some keys)
    (hverified : cfg.verified peerID m = true) :
    ∃ m' ∈ signed peerID, SameSigned time m' m := by
  simp only [NodeConfig.verified, hkeys] at hverified
  split at hverified
  · cases hverified
  · next pub hpub =>
    rw [Bool.and_eq_true, hsigner] at hverified
    obtain ⟨m', hm', hdata⟩ := hunforged peerID pub hpub _ _ hverified.2
    exact ⟨m', hm', signableData_eq_iff.mp hdata⟩

/-- Every pending timestamp is that of a user commit which the peer it names has signed. -/
def PendingSigned (signed : String → List CommitMetadata) (n : Node) : Prop :=
  ∀ h e, n.idx.get h = some e → e.status = .pending →
    ∃ m ∈ signed h.peerID, m.hlc = h ∧ m.kind = commitKindUser

theorem PendingSigned.handle {time : DateText} {k : KeySigner} {keys : String → Option String}
    {signed : String → List CommitMetadata} (hunforged : Unforged time k keys signed)
    (hsigner : n.cfg.signer = k.signer time) (hkeys : n.cfg.identity = some keys)
    (hn : PendingSigned signed n) (a : Event) : PendingSigned signed (n.handle a) := by
  intro h e he hp
  obtain hold | ⟨m, hhlc, hkind, hverified⟩ := pending_handle he hp
  · exact hn h e hold hp
  · obtain ⟨m', hm', hsame⟩ := signed_of_verified hunforged hsigner hkeys hverified
    exact ⟨m', hm', hsame.hlc.trans hhlc, hsame.kind.trans hkind⟩

theorem pendingSigned_foldl_handle {time : DateText} {k : KeySigner}
    {keys : String → Option String} {signed : String → List CommitMetadata}
    (hunforged : Unforged time k keys signed) (hsigner : n.cfg.signer = k.signer time)
    (hkeys : n.cfg.identity = some keys) (hn : PendingSigned signed n) (events : List Event) :
    (events.foldl Node.handle n).cfg = n.cfg ∧
      PendingSigned signed (events.foldl Node.handle n) := by
  induction events generalizing n with
  | nil => exact ⟨rfl, hn⟩
  | cons a events ih =>
    have hcfg : (n.handle a).cfg = n.cfg := Swarm.cfg_next ⟨n, [], []⟩ a
    obtain ⟨hcfg', hsigned⟩ := ih (by rw [hcfg, hsigner]) (by rw [hcfg, hkeys])
      (hn.handle hunforged hsigner hkeys a)
    exact ⟨hcfg'.trans hcfg, hsigned⟩

theorem PendingSigned.rebuild {signed : String → List CommitMetadata} (hn : PendingSigned signed n)
    (readFails : Bool) : PendingSigned signed (n.rebuild readFails) := fun h e he hp =>
  hn h e (addsNoPending_initIndexFromDB n.repo readFails n.idx h e he hp) hp

theorem pendingSigned_started (signed : String → List CommitMetadata) (cfg : NodeConfig)
    (repo : Repo) (hlc : HLC) (own : hlc.peerID = cfg.signer.getID) (readFails : Bool) :
    PendingSigned signed (.started cfg repo hlc own readFails) := by
  intro h e he hp
  have hnone := addsNoPending_initIndexFromDB repo readFails .newMemoryCommitIndex h e he hp
  simp [MemoryCommitIndex.get, MemoryCommitIndex.newMemoryCommitIndex] at hnone

end Pending

/-! ## Gossip messages -/

/-- An advertisement as the transport sees it. -/
structure RawCommitAd where
  repo : RepoID
  hlc : HLCTimestamp
  metadataJSON : List UInt8
  metadataSig : List UInt8
  deriving DecidableEq, Repr

structure GossipEvent where
  commitAd : Option RawCommitAd
  heartbeat : Option HeartbeatV1
  deriving DecidableEq, Repr

-- The messages of gossip.proto. Messages within a message may be absent.

namespace Proto

structure CommitAdV1 where
  repo : Option RepoID
  hlc : Option HLCTimestamp
  metadataJson : List UInt8
  metadataSig : List UInt8
  deriving DecidableEq, Repr

structure HeartbeatV1 where
  repo : Option RepoID
  hlc : Option HLCTimestamp
  peerId : String
  deriving DecidableEq, Repr

inductive Msg
  | commitAd (ad : CommitAdV1)
  | heartbeat (hb : HeartbeatV1)
  deriving DecidableEq, Repr

structure GossipMessage where
  msg : Option Msg
  deriving DecidableEq, Repr

end Proto

/-- `Marshal` and `Unmarshal` for gossip messages; `none` is an error. -/
structure Codec where
  marshal : Proto.GossipMessage → Option (List UInt8)
  unmarshal : List UInt8 → Option Proto.GossipMessage

def Codec.RoundTrips (codec : Codec) : Prop :=
  ∀ msg data, codec.marshal msg = some data → codec.unmarshal data = some msg

namespace GossipSub

section Transport

variable (codec : Codec)

def publishCommitAd (ad : RawCommitAd) : Option (List UInt8) :=
  codec.marshal ⟨some (.commitAd ⟨some ad.repo, some ad.hlc, ad.metadataJSON, ad.metadataSig⟩)⟩

inductive NextError
  | unmarshal
  | invalid (text : String)
  deriving DecidableEq, Repr

def next (data : List UInt8) : Except NextError GossipEvent :=
  match codec.unmarshal data with
  | none => .error .unmarshal
  | some ⟨none⟩ => .ok ⟨none, none⟩
  | some ⟨some (.commitAd ⟨some repo, some hlc, metadataJson, metadataSig⟩)⟩ =>
    .ok ⟨some ⟨repo, hlc, metadataJson, metadataSig⟩, none⟩
  | some ⟨some (.commitAd _)⟩ => .error (.invalid "invalid commit_ad message")
  | some ⟨some (.heartbeat ⟨some repo, some hlc, peerId⟩)⟩ => .ok ⟨none, some ⟨repo, hlc, peerId⟩⟩
  | some ⟨some (.heartbeat _)⟩ => .error (.invalid "invalid heartbeat message")

end Transport

variable {codec : Codec} {data : List UInt8}

theorem next_publishCommitAd (hcodec : codec.RoundTrips) {ad : RawCommitAd}
    (h : publishCommitAd codec ad = some data) : next codec data = .ok ⟨some ad, none⟩ := by
  rw [next, hcodec _ _ h]

end GossipSub

/-! ## What an honest author advertises becomes pending -/

section Honest

open Lib.SqlLiteral (evenQuotes)

/-- `[]byte(s)`. -/
def writeText (s : String) : List UInt8 := s.toList.flatMap String.utf8EncodeChar

/-- `none` if the bytes are no UTF-8. -/
def readText (bs : List UInt8) : Option String :=
  bs.toByteArray.utf8Decode?.map fun cs => String.ofList cs.toList

theorem readText_writeText (s : String) : readText (writeText s) = some s := by
  have hbytes : (writeText s).toByteArray = s.toList.utf8Encode := rfl
  rw [readText, hbytes, List.utf8Decode?_utf8Encode, Option.map_some, List.toList_toArray,
    String.ofList_toList]

/-- `CreateCommitMetadata`. -/
def KeySigner.authored (k : KeySigner) (time : DateText) (msg : String) (hlc : HLCTimestamp)
    (contentHash : String) (date : Int) : CommitMetadata :=
  let m := newCommitMetadata msg hlc contentHash k.getID (k.getID ++ "@doltswarm") date
  { m with signature := k.sign (m.signableData time) }

/-- What `publishLocalCommitAd` makes of the last user commit if that is its message. -/
def advertised (time : DateText) (repo : RepoID) (message : List Char) : Option RawCommitAd :=
  (parseMetadataText time message).map fun metadata =>
    ⟨repo, metadata.hlc, writeText (String.ofList message), writeText metadata.signature⟩

/-- The advertisement for the handler; `none` if its texts are no UTF-8. -/
def RawCommitAd.commitAd? (time : DateText) (raw : RawCommitAd) : Option CommitAdV1 :=
  (readText raw.metadataJSON).bind fun json =>
    (readText raw.metadataSig).map fun sig =>
      ⟨raw.repo, raw.hlc, .ofText time json.toList, sig⟩

def Node.trusts (n : Node) (k author : KeySigner) (peerID : String) : Prop :=
  ∀ keys, n.cfg.identity = some keys → ∃ pub, keys peerID = some pub ∧ pub ≠ "" ∧
    ∀ data, k.verify data (author.sign data) pub = true

theorem verified_of_trusts {time : DateText} {n : Node} {k author : KeySigner} {peerID : String}
    (hsigner : n.cfg.signer = k.signer time) (htrusts : n.trusts k author peerID)
    {m : CommitMetadata} (hsig : m.signature = author.sign (m.signableData time)) :
    n.cfg.verified peerID m = true := by
  unfold NodeConfig.verified
  cases hid : n.cfg.identity with
  | none => rfl
  | some keys =>
    obtain ⟨pub, hpub, hne, hverify⟩ := htrusts keys hid
    simp [hpub, hne, hsigner, KeySigner.signer, hsig, hverify]

theorem onCommitAd_pending {n : Node} (ad : CommitAdV1) {m : CommitMetadata}
    {now physicalTime : Int64} (hrepo : ad.repo = n.cfg.repo) (hnews : ¬ n.idx.decided ad.hlc)
    (hforeign : ad.hlc.peerID ≠ n.cfg.signer.getID)
    (hskew : ¬ (0 < n.cfg.maxClockSkew ∧ now + n.cfg.maxClockSkew < ad.hlc.wall))
    (hparse : parseCommitMetadata ad.metadataJSON = some m) (hhlc : m.hlc = ad.hlc)
    (hsig : m.signature = ad.metadataSig) (hverified : n.cfg.verified ad.hlc.peerID m = true) :
    (n.onCommitAd ad now physicalTime).idx.get ad.hlc = some ⟨ad.hlc, "", .pending⟩ := by
  have hkind := parseCommitMetadata_kind hparse
  have hequal : m.hlc.equal ad.hlc = true := (HLCTimestamp.equal_iff _ _).mpr hhlc
  simp [Node.onCommitAd, hrepo, hnews, hforeign, hskew, hparse, hkind, hequal, hsig, hverified,
    MemoryCommitIndex.get_upsert]

theorem stored_authored {dolt : List Char → Option (List Char)} (hdolt : ReadsCalls dolt)
    {time : DateText} {author : KeySigner} {msg contentHash : String} {hlc : HLCTimestamp}
    {date : Int}
    (hplain : ∀ s ∈ (author.authored time msg hlc contentHash date).strings,
      ∀ c ∈ s.toList, Lib.Json.htmlSafe c = true)
    (hquotes : evenQuotes author.getID.toList = true) (hformat : '\'' ∉ time.format date) :
    storedMessage dolt time (author.authored time msg hlc contentHash date) =
      some ((author.authored time msg hlc contentHash date).marshal time) := by
  have hslash : '\\' ∉ (author.authored time msg hlc contentHash date).marshal time :=
    slash_not_mem_marshal_iff.mpr fun s hs => slash_not_mem_encodeString.mpr (hplain s hs)
  have hemail : evenQuotes (author.getID ++ "@doltswarm").toList = true := by
    have htext : (author.getID ++ "@doltswarm").toList =
        author.getID.toList ++ '@' :: "doltswarm".toList := String.toList_append
    rw [htext, Lib.SqlLiteral.evenQuotes_append (by decide), hquotes, Bool.true_and]
    decide +kernel
  have hsafe : ∀ s ∈ [author.getID, author.getID ++ "@doltswarm"], '\\' ∉ s.toList :=
    fun s hs hmem => absurd (hplain s (by
      simp only [KeySigner.authored, newCommitMetadata, CommitMetadata.strings]
      simp at hs ⊢
      tauto) _ hmem) (by decide)
  have hargs := (arguments_afterAuthorFlag_iff
    (m := author.authored time msg hlc contentHash date) hformat (hsafe author.getID (by simp))
    (hsafe (author.getID ++ "@doltswarm") (by simp))).mpr ⟨hquotes, hemail⟩
  refine hdolt _ _ (calledMessage_eq_some_iff.mpr ⟨?_, hargs⟩)
  rw [metadataText_of_not_mem hslash]

/-- A commit whose texts need no escape reaches the index of every peer that trusts its author,
through the database of the author, the gossip message and the checks. -/
theorem honest_ad_becomes_pending (dolt : List Char → Option (List Char)) (codec : Codec)
    (time : DateText) (author k : KeySigner) (msg : String) (hlc : HLCTimestamp)
    (contentHash : String) (date : Int) (n : Node) (now physicalTime : Int64)
    (hdolt : ReadsCalls dolt) (hcodec : codec.RoundTrips)
    (hplain : ∀ s ∈ (author.authored time msg hlc contentHash date).strings,
      ∀ c ∈ s.toList, Lib.Json.htmlSafe c = true)
    (hquotes : evenQuotes author.getID.toList = true) (hformat : '\'' ∉ time.format date)
    (hdate : ∀ d, time.parse (time.format date) = some d → time.format d = time.format date)
    (hsigner : n.cfg.signer = k.signer time) (htrusts : n.trusts k author hlc.peerID)
    (hnews : ¬ n.idx.decided hlc) (hforeign : hlc.peerID ≠ n.cfg.signer.getID)
    (hskew : ¬ (0 < n.cfg.maxClockSkew ∧ now + n.cfg.maxClockSkew < hlc.wall)) :
    ∃ stored raw ad,
      storedMessage dolt time (author.authored time msg hlc contentHash date) = some stored ∧
      advertised time n.cfg.repo stored = some raw ∧
      (∀ data, GossipSub.publishCommitAd codec raw = some data →
        GossipSub.next codec data = .ok ⟨some raw, none⟩) ∧
      raw.commitAd? time = some ad ∧
      (n.onCommitAd ad now physicalTime).idx.get hlc = some ⟨hlc, "", .pending⟩ := by
  have hstored := stored_authored hdolt hplain hquotes hformat
  set m := author.authored time msg hlc contentHash date with hm
  obtain ⟨d, hread, hd⟩ := read_marshal time m
  have hparse : parseMetadataText time (m.marshal time) = some { m with date := d } := by
    rw [parseMetadataText, hread, Option.filter_some]
    exact if_pos (decide_eq_true rfl)
  -- the peer checks the signature against the text it makes of the date it has read
  have hsigned : SameSigned time { m with date := d } m :=
    ⟨rfl, rfl, rfl, rfl, rfl, rfl, hdate d hd⟩
  have hverified : n.cfg.verified hlc.peerID { m with date := d } = true := by
    apply verified_of_trusts hsigner htrusts
    rw [signableData_eq_iff.mpr hsigned]
    rfl
  have hraw : advertised time n.cfg.repo (m.marshal time) = some ⟨n.cfg.repo, hlc,
      writeText (String.ofList (m.marshal time)), writeText m.signature⟩ := by
    rw [advertised, hparse]
    rfl
  have hmessage : parseCommitMetadata (.ofText time (m.marshal time)) =
      some { m with date := d } := by
    rw [parseCommitMetadata_ofText, hparse]
  refine ⟨_, _, ⟨n.cfg.repo, hlc, .ofText time (m.marshal time), m.signature⟩, hstored, hraw,
    fun data => GossipSub.next_publishCommitAd hcodec, ?_,
    onCommitAd_pending ⟨n.cfg.repo, hlc, .ofText time (m.marshal time), m.signature⟩ rfl hnews
      hforeign hskew hmessage rfl rfl hverified⟩
  simp [RawCommitAd.commitAd?, readText_writeText]

def bobKeys (peerID : String) : Option String := if peerID = "bob" then some "bob-key" else none

def anySigner (getID : String) : KeySigner :=
  ⟨getID, fun _ => "signed", fun _ signature pub => signature = "signed" && pub = "bob-key"⟩

def trustingConfig : NodeConfig :=
  ⟨⟨"org", "repo"⟩, (anySigner "alice").signer oneDay, 5000000000, some bobKeys⟩

theorem peerID_trustingConfig :
    (HLC.newHLC "alice" 1).peerID = trustingConfig.signer.getID := rfl

def trustingNode : Node :=
  .started trustingConfig emptyRepo (HLC.newHLC "alice" 1) peerID_trustingConfig false

def bobNews : CommitMetadata :=
  (anySigner "bob").authored oneDay "it's new" ⟨3, 0, "bob"⟩ "content" 0

def bobNewsJSON : List UInt8 := writeText (String.ofList (bobNews.marshal oneDay))

def bobNewsMessage : Proto.GossipMessage :=
  ⟨some (.commitAd ⟨some ⟨"org", "repo"⟩, some ⟨3, 0, "bob"⟩, bobNewsJSON, writeText "signed"⟩)⟩

/-- The fields of the message with their keys and lengths; a logical time of zero is left out. -/
def bobNewsData : List UInt8 :=
  [10, 204, 1, 10, 11, 10, 3] ++ writeText "org" ++ [18, 4] ++ writeText "repo" ++
    [18, 7, 8, 3, 26, 3] ++ writeText "bob" ++ [26, 171, 1] ++ bobNewsJSON ++
    [34, 6] ++ writeText "signed"

def Codec.single (msg : Proto.GossipMessage) (data : List UInt8) : Codec where
  marshal msg' := if msg' = msg then some data else none
  unmarshal data' := if data' = data then some msg else none

theorem marshal_single (msg : Proto.GossipMessage) (data : List UInt8) :
    (Codec.single msg data).marshal msg = some data := if_pos rfl

theorem roundTrips_single (msg : Proto.GossipMessage) (data : List UInt8) :
    (Codec.single msg data).RoundTrips := by
  intro msg' data' h
  simp only [Codec.single, Option.ite_none_right_eq_some, Option.some.injEq] at h ⊢
  exact ⟨h.2.symm, h.1.symm⟩

def bobCodec : Codec := .single bobNewsMessage bobNewsData

theorem honest_ad_becomes_pending_at_alice :
    ∃ stored raw ad, storedMessage calledMessage oneDay bobNews = some stored ∧
      advertised oneDay trustingNode.cfg.repo stored = some raw ∧
      GossipSub.publishCommitAd bobCodec raw = some bobNewsData ∧
      GossipSub.next bobCodec bobNewsData = .ok ⟨some raw, none⟩ ∧
      raw.commitAd? oneDay = some ad ∧
      (trustingNode.onCommitAd ad 6 6).idx.get ⟨3, 0, "bob"⟩ =
        some ⟨⟨3, 0, "bob"⟩, "", .pending⟩ := by
  have hplain : ∀ s ∈ bobNews.strings, '\\' ∉ encodeString s := by decide +kernel
  have hsafe : ∀ s ∈ bobNews.strings, ∀ c ∈ s.toList, Lib.Json.htmlSafe c = true := fun s hs =>
    slash_not_mem_encodeString.mp (hplain s hs)
  have htrusts : trustingNode.trusts (anySigner "alice") (anySigner "bob") "bob" := by
    rintro keys hkeys
    obtain rfl := Option.some.inj hkeys
    exact ⟨"bob-key", by decide, by decide, fun _ => by simp [anySigner]⟩
  obtain ⟨stored, raw, ad, hstored, hraw, hsent, had, hpending⟩ :=
    honest_ad_becomes_pending calledMessage bobCodec oneDay (anySigner "bob") (anySigner "alice")
      "it's new" ⟨3, 0, "bob"⟩ "content" 0 trustingNode 6 6 (fun _ _ => id)
      (roundTrips_single _ _) hsafe (by decide +kernel) (quote_not_mem_oneDay 0) (fun _ _ => rfl)
      rfl htrusts (by decide +kernel) (by decide) (by decide)
  have hpublished : GossipSub.publishCommitAd bobCodec raw = some bobNewsData := by
    obtain rfl := Option.some.inj (hstored.symm.trans
      (stored_authored (fun _ _ => id) hsafe (by decide +kernel) (quote_not_mem_oneDay 0)))
    have hbob : advertised oneDay ⟨"org", "repo"⟩ (bobNews.marshal oneDay) =
        some ⟨⟨"org", "repo"⟩, ⟨3, 0, "bob"⟩, bobNewsJSON, writeText "signed"⟩ := by
      decide +kernel
    obtain rfl := Option.some.inj (hraw.symm.trans hbob)
    rw [GossipSub.publishCommitAd, bobCodec, ← bobNewsMessage, marshal_single]
  exact ⟨stored, raw, ad, hstored, hraw, hpublished, hsent _ hpublished, had, hpending⟩

end Honest

end DoltSwarm.Core
