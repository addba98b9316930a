import DoltSwarm.Core.Stability

/-!
# Heartbeats and the finalized base over whole runs (core/node.go, core/index_mem.go)

Heartbeats and finalization run in the loop of the node; index entries are written, and the
index rebuilt, from other goroutines at any time, between any two steps of that loop. A rebuild
appears here both as a whole and as the clearing and writing it consists of.
-/

namespace DoltSwarm.Core

set_option autoImplicit false

inductive BaseEvent
  | onHeartbeat (hb : HeartbeatV1) (physicalTime : Int64)
  | tryFinalize
  | upsert (e : CommitIndexEntry)
  | recordRejection (dropped : CommitAd × RejectionReason)
  | resetForRebuild
  | initIndexFromDB (repo : Repo) (readFails : Bool)

def isGreatest (cur : Option HLCTimestamp) (heard : List HLCTimestamp) : Prop :=
  match cur with
  | none => heard = []
  | some h => h ∈ heard ∧ ∀ h' ∈ heard, h.less h' = false

instance (cur : Option HLCTimestamp) (heard : List HLCTimestamp) :
    Decidable (isGreatest cur heard) :=
  match cur with
  | none => inferInstanceAs (Decidable (heard = []))
  | some h => inferInstanceAs (Decidable (h ∈ heard ∧ ∀ h' ∈ heard, h.less h' = false))

/-- The base is the same or strictly higher; it is never taken back. -/
def baseAdvances (old new : Option FinalizedBase) : Prop :=
  new = old ∨ ∃ fb, new = some fb ∧ ∀ b ∈ old, b.hlc.less fb.hlc = true

namespace Node

def onBaseEvent (n : Node) : BaseEvent → Node
  | .onHeartbeat hb physicalTime => n.onHeartbeat hb physicalTime
  | .tryFinalize => n.tryFinalize
  | .upsert e => { n with idx := n.idx.upsert e }
  | .recordRejection dropped => { n with idx := Core.recordRejection n.idx dropped }
  | .resetForRebuild => { n with idx := n.idx.resetForRebuild }
  | .initIndexFromDB repo readFails =>
    { n with repo := repo, idx := Core.initIndexFromDB repo readFails n.idx }

def BaseStep (n : Node) (e : BaseEvent) (n' : Node) : Prop := n' = n.onBaseEvent e

/-- The timestamps of the heartbeats that a peer has sent for the repository of the node. The
node does not listen to itself. -/
def heardFrom (cfg : NodeConfig) (q : String) (tr : List (Node × BaseEvent)) :
    List HLCTimestamp :=
  tr.filterMap fun x =>
    match x.2 with
    | .onHeartbeat hb _ =>
      if hb.repo = cfg.repo ∧ hb.peerID = q ∧ q ≠ cfg.signer.getID then some hb.hlc else none
    | _ => none

def belowPeers (n : Node) (e : CommitIndexEntry) : Prop :=
  n.idx.get e.hlc = some e ∧ e.status = .applied ∧
    ∀ q h, n.peerHLC.lookup q = some h → e.hlc.less h = true

variable {n : Node} {q : String}

theorem cfg_onBaseEvent (n : Node) (e : BaseEvent) : (n.onBaseEvent e).cfg = n.cfg := by
  cases e with
  | onHeartbeat hb physicalTime =>
    simp only [onBaseEvent, onHeartbeat]
    split_ifs <;> rfl
  | tryFinalize => rfl
  | upsert e => rfl
  | recordRejection dropped => rfl
  | resetForRebuild => rfl
  | initIndexFromDB repo readFails => rfl

/-! ## What was heard -/

theorem lookup_hearPeer_ne {peerHLC : AList fun _ : String => HLCTimestamp} {p : String}
    (hlc : HLCTimestamp) (hne : q ≠ p) : (hearPeer peerHLC p hlc).lookup q = peerHLC.lookup q := by
  unfold hearPeer
  split
  · exact AList.lookup_insert_ne hne
  · split_ifs
    · exact AList.lookup_insert_ne hne
    · rfl

theorem isGreatest_hearPeer {peerHLC : AList fun _ : String => HLCTimestamp}
    {heard : List HLCTimestamp} (h : isGreatest (peerHLC.lookup q) heard) (hlc : HLCTimestamp) :
    isGreatest ((hearPeer peerHLC q hlc).lookup q) (hlc :: heard) := by
  unfold hearPeer
  cases hcur : peerHLC.lookup q with
  | none =>
    rw [hcur] at h
    obtain rfl : heard = [] := h
    simp only [AList.lookup_insert]
    exact ⟨List.mem_cons_self, by simp [HLCTimestamp.less_irrefl]⟩
  | some cur =>
    rw [hcur] at h
    obtain ⟨hmem, hmax⟩ : cur ∈ heard ∧ ∀ h' ∈ heard, cur.less h' = false := h
    simp only
    split_ifs with hlt
    · rw [AList.lookup_insert]
      refine ⟨List.mem_cons_self, List.forall_mem_cons.mpr ⟨HLCTimestamp.less_irrefl _, ?_⟩⟩
      intro h' hh'
      exact HLCTimestamp.not_less_of_less
        (HLCTimestamp.less_of_not_less_of_less (hmax h' hh') hlt)
    · rw [hcur]
      exact ⟨List.mem_cons_of_mem _ hmem,
        List.forall_mem_cons.mpr ⟨by simpa using hlt, hmax⟩⟩

theorem heardFrom_cons_heartbeat (cfg : NodeConfig) (q : String) (n : Node) (hb : HeartbeatV1)
    (physicalTime : Int64) (tr : List (Node × BaseEvent)) :
    heardFrom cfg q ((n, .onHeartbeat hb physicalTime) :: tr) =
      if hb.repo = cfg.repo ∧ hb.peerID = q ∧ q ≠ cfg.signer.getID then
        hb.hlc :: heardFrom cfg q tr
      else heardFrom cfg q tr := by
  simp only [heardFrom, List.filterMap_cons]
  split_ifs <;> rfl

theorem isGreatest_onBaseEvent {tr : List (Node × BaseEvent)}
    (h : isGreatest (n.peerHLC.lookup q) (heardFrom n.cfg q tr)) (e : BaseEvent) :
    isGreatest ((n.onBaseEvent e).peerHLC.lookup q) (heardFrom n.cfg q ((n, e) :: tr)) := by
  cases e with
  | onHeartbeat hb physicalTime =>
    rw [heardFrom_cons_heartbeat]
    simp only [onBaseEvent, onHeartbeat]
    split_ifs with hrepo hheard hself hheard hheard
    · exact absurd hheard.1 hrepo
    · exact h
    · exact absurd (hself.symm.trans hheard.2.1).symm hheard.2.2
    · exact h
    · obtain ⟨-, rfl, -⟩ := hheard
      exact isGreatest_hearPeer h hb.hlc
    · have hne : q ≠ hb.peerID := by
        rintro rfl
        exact hheard ⟨not_not.mp hrepo, rfl, hself⟩
      rw [lookup_hearPeer_ne hb.hlc hne]
      exact h
  | tryFinalize => exact h
  | upsert e => exact h
  | recordRejection dropped => exact h
  | resetForRebuild => exact h
  | initIndexFromDB repo readFails => exact h

theorem isGreatest_of_run {start : Node} (hstart : start.peerHLC = ∅)
    {tr : List (Node × BaseEvent)} (hrun : Lib.Run BaseStep start tr n) (q : String) :
    n.cfg = start.cfg ∧ isGreatest (n.peerHLC.lookup q) (heardFrom start.cfg q tr) := by
  induction hrun with
  | nil =>
    rw [hstart]
    exact ⟨rfl, rfl⟩
  | @snoc tr n e n' _ hstep ih =>
    obtain ⟨hcfg, hheard⟩ := ih
    obtain rfl : n' = n.onBaseEvent e := hstep
    rw [← hcfg] at hheard ⊢
    exact ⟨cfg_onBaseEvent n e, isGreatest_onBaseEvent hheard e⟩

/-! ## Where the base moves -/

/-- What may be finalized is above the zero timestamp; the rest of what is below the peers is
no higher than that. -/
theorem finalizable_of_belowPeers {e : CommitIndexEntry} {stable : HLCTimestamp}
    (hstable : stable ∈ stableHLC n.peerHLC) (h : n.belowPeers e)
    (hzero : HLCTimestamp.zero.less e.hlc = true) : finalizable n.peerHLC n.idx e := by
  obtain ⟨hget, happ, hbelow⟩ := h
  obtain ⟨q, hq⟩ := stableHLC_heard hstable
  exact ⟨hget, happ, hzero, stable, hstable, hbelow q stable hq⟩

theorem belowPeers_of_finalizable {e : CommitIndexEntry}
    (h : finalizable n.peerHLC n.idx e) : n.belowPeers e := by
  obtain ⟨hget, happ, -, stable, hstable, hless⟩ := h
  exact ⟨hget, happ, fun q h hq =>
    HLCTimestamp.less_of_less_of_not_less hless (stableHLC_le hstable hq)⟩

/-- When the base moves, it moves to the highest applied entry below all peers. -/
theorem tryFinalize_takes_greatest (n : Node)
    (hmoved : n.tryFinalize.idx.finalizedBase ≠ n.idx.finalizedBase) :
    ∃ e, n.tryFinalize.idx.finalizedBase = some ⟨e.hlc, e.commitHash⟩ ∧ n.belowPeers e ∧
      ∀ e', n.belowPeers e' → e' ≠ e → e'.hlc.less e.hlc = true := by
  rcases tryFinalize_cases n.peerHLC n.idx with heq | ⟨e, he, ⟨-, hmax⟩, heq⟩
  · exact absurd (congrArg MemoryCommitIndex.finalizedBase heq) hmoved
  · refine ⟨e, congrArg MemoryCommitIndex.finalizedBase heq, belowPeers_of_finalizable he, ?_⟩
    intro e' he' hne
    obtain ⟨-, -, hzero, stable, hstable, -⟩ := id he
    rcases HLCTimestamp.less_strictTotal.tri e'.hlc e.hlc trivial trivial with hlt | hsame | hlt
    · exact hlt
    · -- one entry per timestamp
      have hget := he'.1
      rw [hsame, he.1] at hget
      exact absurd (Option.some.inj hget).symm hne
    · have hzero' := HLCTimestamp.less_trans hzero hlt
      rw [hmax e' (finalizable_of_belowPeers hstable he' hzero')] at hlt
      cases hlt

theorem baseAdvances_onBaseEvent (n : Node) (e : BaseEvent) :
    baseAdvances n.idx.finalizedBase (n.onBaseEvent e).idx.finalizedBase := by
  cases e with
  | onHeartbeat hb physicalTime =>
    simp only [onBaseEvent, onHeartbeat]
    split_ifs <;> exact Or.inl rfl
  | tryFinalize =>
    rcases tryFinalize_cases n.peerHLC n.idx with heq | ⟨e, -, ⟨hbase, -⟩, heq⟩
    · exact Or.inl (congrArg MemoryCommitIndex.finalizedBase heq)
    · exact Or.inr ⟨_, congrArg MemoryCommitIndex.finalizedBase heq, hbase⟩
  | upsert e => exact Or.inl rfl
  | recordRejection dropped =>
    simp only [onBaseEvent, Core.recordRejection]
    split_ifs <;> exact Or.inl rfl
  | resetForRebuild => exact Or.inl rfl
  | initIndexFromDB repo readFails =>
    exact Or.inl (finalizedBase_initIndexFromDB repo readFails n.idx)

/-- In every run of a node that starts without having heard from anyone, what it holds for a
peer is the greatest timestamp heard from that peer; every step keeps the base or moves it
strictly up; and where finalization moves it, to the highest applied entry below all peers. -/
theorem finalized_base_discipline {start : Node} (hstart : start.peerHLC = ∅)
    {tr : List (Node × BaseEvent)} (hrun : Lib.Run BaseStep start tr n) :
    (∀ q, isGreatest (n.peerHLC.lookup q) (heardFrom start.cfg q tr)) ∧
    (∀ x ∈ tr, baseAdvances x.1.idx.finalizedBase (x.1.onBaseEvent x.2).idx.finalizedBase) ∧
    ∀ x ∈ tr, x.2 = .tryFinalize →
      x.1.tryFinalize.idx.finalizedBase ≠ x.1.idx.finalizedBase →
      ∃ e, x.1.tryFinalize.idx.finalizedBase = some ⟨e.hlc, e.commitHash⟩ ∧ x.1.belowPeers e ∧
        ∀ e', x.1.belowPeers e' → e' ≠ e → e'.hlc.less e.hlc = true :=
  ⟨fun q => (isGreatest_of_run hstart hrun q).2, fun x _ => baseAdvances_onBaseEvent x.1 x.2,
    fun x _ _ hmoved => tryFinalize_takes_greatest x.1 hmoved⟩

def heardAndFinalized : List BaseEvent :=
  [.upsert ⟨⟨5, 0, "alice"⟩, "commit-a", .applied⟩,
    .onHeartbeat ⟨⟨"org", "repo"⟩, ⟨3, 0, "bob"⟩, "bob"⟩ 6,
    .onHeartbeat ⟨⟨"org", "repo"⟩, ⟨9, 0, "bob"⟩, "bob"⟩ 7,
    .onHeartbeat ⟨⟨"org", "repo"⟩, ⟨4, 0, "bob"⟩, "bob"⟩ 8, .tryFinalize, .resetForRebuild]

theorem finalized_base_discipline_alice :
    isGreatest ((heardAndFinalized.foldl onBaseEvent aliceStarts.node).peerHLC.lookup "bob")
        (heardFrom aliceStarts.node.cfg "bob"
          (Lib.trail onBaseEvent aliceStarts.node heardAndFinalized)) ∧
      (heardAndFinalized.foldl onBaseEvent aliceStarts.node).idx.finalizedBase =
        some ⟨⟨5, 0, "alice"⟩, "commit-a"⟩ := by
  have hstep : ∀ n e, True → BaseStep n e (n.onBaseEvent e) := fun _ _ _ => rfl
  have hrun := Lib.run_trail onBaseEvent hstep heardAndFinalized (s := aliceStarts.node)
    fun _ _ => trivial
  exact ⟨(finalized_base_discipline rfl hrun).1 "bob", by decide +kernel⟩

end Node

end DoltSwarm.Core
