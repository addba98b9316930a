import DoltSwarm.Core.Admission

/-!
# What one advertisement does to the next (core/node.go)

An advertisement that fails a check is entered into the index as a rejection of the timestamp
it names, although nothing vouches for that name, and a timestamp that is rejected is not
looked at again. What a list of advertisements leaves under a timestamp is decided by the
verdicts on those that name it.
-/

namespace DoltSwarm.Core

set_option autoImplicit false

structure Delivery where
  ad : CommitAdV1
  now : Int64
  physicalTime : Int64
  deriving DecidableEq, Repr

/-- What the checks of `onCommitAd` make of an advertisement for a timestamp that is open. -/
inductive Verdict
  | ignored
  | turnedDown
  | passed
  deriving DecidableEq, Repr

def NodeConfig.verdict (cfg : NodeConfig) (d : Delivery) : Verdict :=
  if d.ad.repo ≠ cfg.repo ∨ d.ad.hlc.peerID = cfg.signer.getID then .ignored
  else if 0 < cfg.maxClockSkew ∧ d.now + cfg.maxClockSkew < d.ad.hlc.wall then .turnedDown
  else
    match parseCommitMetadata d.ad.metadataJSON with
    | none => .ignored
    | some metadata =>
      if metadata.hlc = d.ad.hlc ∧
          (d.ad.metadataSig = "" ∨ metadata.signature = d.ad.metadataSig) ∧
          cfg.verified d.ad.hlc.peerID metadata = true then .passed
      else .turnedDown

namespace Node

variable {n : Node} {d : Delivery} {hlc : HLCTimestamp}

def deliver (n : Node) (d : Delivery) : Node := n.onCommitAd d.ad d.now d.physicalTime

def statusAfter (n : Node) (ds : List Delivery) (hlc : HLCTimestamp) : Option CommitStatus :=
  ((ds.foldl deliver n).idx.get hlc).map CommitIndexEntry.status

def acceptsAd (n : Node) (d : Delivery) : Prop :=
  ¬ n.idx.decided d.ad.hlc ∧ n.cfg.verdict d = .passed

instance (n : Node) (d : Delivery) : Decidable (n.acceptsAd d) :=
  inferInstanceAs (Decidable (¬ n.idx.decided d.ad.hlc ∧ n.cfg.verdict d = .passed))

def entryAfter (n : Node) (d : Delivery) : Option CommitIndexEntry :=
  match n.cfg.verdict d with
  | .ignored => n.idx.get d.ad.hlc
  | .turnedDown => some ⟨d.ad.hlc, "", .rejected⟩
  | .passed => some ⟨d.ad.hlc, "", .pending⟩

theorem cfg_deliver (n : Node) (d : Delivery) : (n.deliver d).cfg = n.cfg :=
  n.cfg_onCommitAd d.ad d.now d.physicalTime

theorem deliver_eq (n : Node) (d : Delivery) :
    n.deliver d = if n.idx.decided d.ad.hlc then n
      else match n.cfg.verdict d with
        | .ignored => n
        | .turnedDown => n.rejectAd d.ad
        | .passed =>
          { n with
            hlc := n.hlc.update d.ad.hlc d.physicalTime
            own := n.own
            idx := n.idx.upsert ⟨d.ad.hlc, "", .pending⟩ } := by
  unfold deliver onCommitAd NodeConfig.verdict
  by_cases hrepo : d.ad.repo ≠ n.cfg.repo
  · simp [hrepo]
  by_cases hdecided : n.idx.decided d.ad.hlc
  · simp [hdecided]
  by_cases hself : d.ad.hlc.peerID = n.cfg.signer.getID
  · simp [hself]
  by_cases hskew : 0 < n.cfg.maxClockSkew ∧ d.now + n.cfg.maxClockSkew < d.ad.hlc.wall
  · simp [hrepo, hdecided, hself, hskew]
  simp only [hrepo, hdecided, hself, hskew, or_self, if_false]
  cases hparse : parseCommitMetadata d.ad.metadataJSON with
  | none => rfl
  | some metadata =>
    have hequal := HLCTimestamp.equal_iff metadata.hlc d.ad.hlc
    simp only [parseCommitMetadata_kind hparse, ne_eq, not_true_eq_false, if_false]
    by_cases hmatch : metadata.hlc = d.ad.hlc
    · have hsig : ¬ (d.ad.metadataSig ≠ "" ∧ metadata.signature ≠ d.ad.metadataSig) ↔
          d.ad.metadataSig = "" ∨ metadata.signature = d.ad.metadataSig := by tauto
      by_cases hsigned : d.ad.metadataSig = "" ∨ metadata.signature = d.ad.metadataSig
      · cases hverified : n.cfg.verified d.ad.hlc.peerID metadata with
        | false => simp [hequal.mpr hmatch, hsig.mpr hsigned]
        | true => simp [hequal.mpr hmatch, hsig.mpr hsigned, hsigned, and_iff_right hmatch]
      · have hunsigned := not_not.mp (mt hsig.mp hsigned)
        simp [hequal.mpr hmatch, hunsigned.1, hunsigned.2]
    · have hdiffers : metadata.hlc.equal d.ad.hlc = false := by
        rw [Bool.eq_false_iff, ne_eq, hequal]
        exact hmatch
      simp [hmatch, hdiffers]

theorem get_deliver (n : Node) (d : Delivery) (hlc : HLCTimestamp) :
    (n.deliver d).idx.get hlc =
      if hlc = d.ad.hlc ∧ ¬ n.idx.decided d.ad.hlc then n.entryAfter d else n.idx.get hlc := by
  rw [deliver_eq, entryAfter]
  by_cases hdecided : n.idx.decided d.ad.hlc
  · simp [hdecided]
  by_cases heq : hlc = d.ad.hlc
  · subst heq
    cases hverdict : n.cfg.verdict d with
    | ignored => simp [hdecided]
    | turnedDown => simp [hdecided, rejectAd, MemoryCommitIndex.get_upsert]
    | passed => simp [hdecided, MemoryCommitIndex.get_upsert]
  · cases hverdict : n.cfg.verdict d with
    | ignored => simp [hdecided, heq]
    | turnedDown => simp [hdecided, rejectAd, MemoryCommitIndex.get_upsert, heq]
    | passed => simp [hdecided, MemoryCommitIndex.get_upsert, heq]

def someVerdict (cfg : NodeConfig) (ds : List Delivery) (hlc : HLCTimestamp) (v : Verdict) : Prop :=
  ∃ d ∈ ds, d.ad.hlc = hlc ∧ cfg.verdict d = v

instance (cfg : NodeConfig) (ds : List Delivery) (hlc : HLCTimestamp) (v : Verdict) :
    Decidable (someVerdict cfg ds hlc v) :=
  inferInstanceAs (Decidable (∃ d ∈ ds, d.ad.hlc = hlc ∧ cfg.verdict d = v))

theorem decided_congr {idx idx' : MemoryCommitIndex} (h : idx.get hlc = idx'.get hlc) :
    idx.decided hlc ↔ idx'.decided hlc := by
  unfold MemoryCommitIndex.decided
  rw [h]

theorem someVerdict_cons (cfg : NodeConfig) (d : Delivery) (ds : List Delivery)
    (hlc : HLCTimestamp) (v : Verdict) : someVerdict cfg (d :: ds) hlc v ↔
      d.ad.hlc = hlc ∧ cfg.verdict d = v ∨ someVerdict cfg ds hlc v := by
  simp [someVerdict]

/-- What a list of advertisements leaves under a timestamp: a decision stands, else one that is
turned down outweighs all that pass. -/
theorem get_foldl_deliver (ds : List Delivery) (n : Node) (hlc : HLCTimestamp) :
    (ds.foldl deliver n).idx.get hlc =
      if n.idx.decided hlc then n.idx.get hlc
      else if someVerdict n.cfg ds hlc .turnedDown then some ⟨hlc, "", .rejected⟩
      else if someVerdict n.cfg ds hlc .passed then some ⟨hlc, "", .pending⟩
      else n.idx.get hlc := by
  induction ds generalizing n with
  | nil => simp [someVerdict]
  | cons d ds ih =>
    rw [List.foldl_cons, ih, cfg_deliver]
    simp only [someVerdict_cons]
    by_cases heq : d.ad.hlc = hlc
    · subst heq
      have hget := get_deliver n d d.ad.hlc
      by_cases hdecided : n.idx.decided d.ad.hlc
      · rw [if_neg (fun h => h.2 hdecided)] at hget
        rw [hget, if_pos hdecided, if_pos ((decided_congr hget).mpr hdecided)]
      rw [if_pos ⟨rfl, hdecided⟩, entryAfter] at hget
      cases hverdict : n.cfg.verdict d with
      | ignored =>
        rw [hverdict] at hget
        simp [hget, decided_congr hget, hdecided]
      | turnedDown =>
        rw [hverdict] at hget
        have hlater : (n.deliver d).idx.decided d.ad.hlc := ⟨_, hget, Or.inr rfl⟩
        simp [hlater, hget, hdecided]
      | passed =>
        rw [hverdict] at hget
        have hlater : ¬ (n.deliver d).idx.decided d.ad.hlc := by
          simp [MemoryCommitIndex.decided, hget]
        simp [hlater, hget, hdecided]
    · have hget := get_deliver n d hlc
      rw [if_neg (fun h => heq h.1.symm)] at hget
      simp [heq, hget, decided_congr hget]

theorem decided_foldl_deliver (ds : List Delivery) {n : Node} (h : n.idx.decided hlc) :
    (ds.foldl deliver n).idx.decided hlc := by
  have hget := get_foldl_deliver ds n hlc
  rw [if_pos h] at hget
  exact (decided_congr hget).mpr h

theorem open_of_accepted (ds : List Delivery) {n : Node}
    (h : ∃ x ∈ Lib.trail deliver n ds, x.2.ad.hlc = hlc ∧ x.1.acceptsAd x.2) :
    ¬ n.idx.decided hlc ∧ someVerdict n.cfg ds hlc .passed := by
  induction ds generalizing n with
  | nil => simp [Lib.trail] at h
  | cons d ds ih =>
    obtain ⟨x, hx, rfl, haccepts⟩ := h
    rw [Lib.trail, List.mem_append, List.mem_singleton] at hx
    rcases hx with hx | rfl
    · obtain ⟨hopen, hpassed⟩ := ih ⟨x, hx, rfl, haccepts⟩
      rw [cfg_deliver] at hpassed
      refine ⟨fun hdecided => hopen (decided_foldl_deliver [d] hdecided), ?_⟩
      exact (someVerdict_cons _ _ _ _ _).mpr (Or.inr hpassed)
    · exact ⟨haccepts.1, (someVerdict_cons _ _ _ _ _).mpr (Or.inl ⟨rfl, haccepts.2⟩)⟩

theorem status_of_open (ds : List Delivery) {n : Node} (hopen : ¬ n.idx.decided hlc)
    (hpassed : someVerdict n.cfg ds hlc .passed) :
    n.statusAfter ds hlc =
      some (if someVerdict n.cfg ds hlc .turnedDown then .rejected else .pending) := by
  rw [statusAfter, get_foldl_deliver, if_neg hopen]
  split_ifs <;> rfl

end Node

/-! ## Two runs -/

/-- A list of advertisements in which the inserted ones are marked. -/
abbrev Marked := List (Delivery × Bool)

def Marked.extended (ds : Marked) : List Delivery := ds.map Prod.fst

def Marked.original (ds : Marked) : List Delivery := (ds.filter fun x => !x.2).map Prod.fst

/-- An inserted advertisement that names the timestamp is turned down, and no original one is. -/
def Marked.interferes (ds : Marked) (cfg : NodeConfig) (hlc : HLCTimestamp) : Prop :=
  (∃ x ∈ ds, x.2 = true ∧ x.1.ad.hlc = hlc ∧ cfg.verdict x.1 = .turnedDown) ∧
    ∀ x ∈ ds, x.2 = false → x.1.ad.hlc = hlc → cfg.verdict x.1 ≠ .turnedDown

instance (ds : Marked) (cfg : NodeConfig) (hlc : HLCTimestamp) :
    Decidable (ds.interferes cfg hlc) :=
  inferInstanceAs (Decidable (
    (∃ x ∈ ds, x.2 = true ∧ x.1.ad.hlc = hlc ∧ cfg.verdict x.1 = .turnedDown) ∧
      ∀ x ∈ ds, x.2 = false → x.1.ad.hlc = hlc → cfg.verdict x.1 ≠ .turnedDown))

namespace Marked

variable {ds : Marked} {cfg : NodeConfig} {hlc : HLCTimestamp} {v : Verdict}

theorem someVerdict_original : Node.someVerdict cfg ds.original hlc v ↔
    ∃ x ∈ ds, x.2 = false ∧ x.1.ad.hlc = hlc ∧ cfg.verdict x.1 = v := by
  simp [Node.someVerdict, original]

theorem someVerdict_extended : Node.someVerdict cfg ds.extended hlc v ↔
    (∃ x ∈ ds, x.2 = true ∧ x.1.ad.hlc = hlc ∧ cfg.verdict x.1 = v) ∨
      Node.someVerdict cfg ds.original hlc v := by
  rw [someVerdict_original]
  constructor
  · rintro ⟨d, hd, hnames⟩
    obtain ⟨⟨d, inserted⟩, hx, rfl⟩ := List.mem_map.mp hd
    cases inserted with
    | true => exact Or.inl ⟨_, hx, rfl, hnames⟩
    | false => exact Or.inr ⟨_, hx, rfl, hnames⟩
  · rintro (⟨x, hx, -, hnames⟩ | ⟨x, hx, -, hnames⟩) <;>
      exact ⟨x.1, List.mem_map.mpr ⟨x, hx, rfl⟩, hnames⟩

theorem interferes_iff : ds.interferes cfg hlc ↔
    Node.someVerdict cfg ds.extended hlc .turnedDown ∧
      ¬ Node.someVerdict cfg ds.original hlc .turnedDown := by
  have horiginal : (∀ x ∈ ds, x.2 = false → x.1.ad.hlc = hlc → cfg.verdict x.1 ≠ .turnedDown) ↔
      ¬ Node.someVerdict cfg ds.original hlc .turnedDown := by
    rw [someVerdict_original]
    push Not
    rfl
  rw [interferes, someVerdict_extended, horiginal]
  constructor
  · rintro ⟨hinserted, hnone⟩
    exact ⟨Or.inl hinserted, hnone⟩
  · rintro ⟨hinserted | hsome, hnone⟩
    · exact ⟨hinserted, hnone⟩
    · exact absurd hsome hnone

end Marked

/-- Inserted advertisements leave the status of a timestamp that was accepted without them as it
is exactly if none of them interferes. -/
theorem insertions_keep_status_iff (n : Node) (ds : Marked) {hlc : HLCTimestamp}
    (haccepted : ∃ x ∈ Lib.trail Node.deliver n ds.original,
      x.2.ad.hlc = hlc ∧ x.1.acceptsAd x.2) :
    n.statusAfter ds.extended hlc = n.statusAfter ds.original hlc ↔
      ¬ ds.interferes n.cfg hlc := by
  obtain ⟨hopen, hpassed⟩ := Node.open_of_accepted _ haccepted
  have hmore : Node.someVerdict n.cfg ds.original hlc .turnedDown →
      Node.someVerdict n.cfg ds.extended hlc .turnedDown :=
    fun h => Marked.someVerdict_extended.mpr (Or.inr h)
  rw [Node.status_of_open _ hopen hpassed,
    Node.status_of_open _ hopen (Marked.someVerdict_extended.mpr (Or.inr hpassed)),
    Marked.interferes_iff]
  by_cases horiginal : Node.someVerdict n.cfg ds.original hlc .turnedDown
  · simp [horiginal, hmore horiginal]
  · by_cases hextended : Node.someVerdict n.cfg ds.extended hlc .turnedDown <;>
      simp [horiginal, hextended]

def signedAd : Delivery := ⟨checkingConfig.advertises (written "bob" 3), 6, 6⟩

def forgedAd : Delivery := ⟨checkingConfig.advertises forged, 6, 6⟩

def garbledAd : Delivery := ⟨{ signedAd.ad with metadataJSON := .text "garbled" }, 6, 6⟩

theorem insertions_keep_status_iff_garbled :
    (checkingStarts emptyRepo).node.statusAfter [garbledAd, signedAd, garbledAd]
        signedAd.ad.hlc =
      (checkingStarts emptyRepo).node.statusAfter [signedAd] signedAd.ad.hlc :=
  (insertions_keep_status_iff _ [(garbledAd, true), (signedAd, false), (garbledAd, true)]
    (by decide +kernel)).mpr (by decide +kernel)

/-- The copy without the signature is never accepted, and wherever it stands the timestamp that
would be pending is rejected. -/
theorem forged_copy_rejects_signed :
    (checkingStarts emptyRepo).node.cfg.identity.isSome ∧
    ∀ ds ∈ [[(forgedAd, true), (signedAd, false)], [(signedAd, false), (forgedAd, true)]],
      (∀ x ∈ Lib.trail Node.deliver (checkingStarts emptyRepo).node (Marked.extended ds),
        x.2 = forgedAd → ¬ x.1.acceptsAd x.2) ∧
      (∃ x ∈ Lib.trail Node.deliver (checkingStarts emptyRepo).node (Marked.original ds),
        x.2 = signedAd ∧ x.1.acceptsAd x.2) ∧
      (checkingStarts emptyRepo).node.statusAfter (Marked.extended ds) signedAd.ad.hlc =
        some .rejected ∧
      (checkingStarts emptyRepo).node.statusAfter (Marked.original ds) signedAd.ad.hlc =
        some .pending := by
  refine ⟨by decide +kernel, ?_⟩
  intro ds hds
  simp only [List.mem_cons, List.not_mem_nil, or_false] at hds
  rcases hds with rfl | rfl
  · exact ⟨by decide +kernel, by decide +kernel, by decide +kernel, by decide +kernel⟩
  · exact ⟨by decide +kernel, by decide +kernel, by decide +kernel, by decide +kernel⟩

end DoltSwarm.Core
