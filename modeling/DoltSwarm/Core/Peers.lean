import Mathlib.Data.String.Basic
import DoltSwarm.Lib.Enumeration
import DoltSwarm.Lib.FinMap
import DoltSwarm.Lib.RoundRobin
import DoltSwarm.Lib.Runs

/-!
# Peers and providers (integration/p2p/p2p.go, grpcswarm/providers.go)

The manager of a node keeps a gRPC client for every peer of the gossip topic that answers a ping,
and takes note of the peers to which a connection has failed, so as to leave them alone for a
while. Providers are picked from the clients in turn. Clocks are readings in nanoseconds. Of a
known peer only what is read again is kept: when it stops being rejected, and how often it was.
-/

namespace DoltSwarm.Core

open Lib

set_option autoImplicit false

/-! ## The manager -/

/-- A peer that was never rejected has no time until which it is. Rejections are counted without
bound; the code has an `int`, which suffices for fewer than 2^63 of them. -/
structure KnownPeer where
  rejectedUntil : Option ℤ
  rejects : ℕ
  deriving DecidableEq, Repr

instance : Inhabited KnownPeer := ⟨⟨none, 0⟩⟩

def defaultRejectBackoff : Int64 := 30000000000

def defaultRejectBackoffMax : Int64 := 300000000000

structure P2P where
  hostID : String
  rejectBackoff : Int64
  rejectBackoffMax : Int64
  knownPeers : Map String KnownPeer
  clients : Finset String
  /-- The peer for whose mutex the discovery processor waits in `tryConnectPeer`. -/
  connecting : Option String

/-- What a peer that joins the topic is found to be like: whether the host is connected to it,
whether it can be dialed and whether it answers the ping. -/
structure Link where
  connected : Bool
  dials : Bool
  pings : Bool
  deriving DecidableEq

def Link.answers (link : Link) : Bool := link.dials && link.pings

namespace P2P

def newManager (hostID : String) (rejectBackoff rejectBackoffMax : Int64) : P2P where
  hostID := hostID
  rejectBackoff := if rejectBackoff = 0 then defaultRejectBackoff else rejectBackoff
  rejectBackoffMax := if rejectBackoffMax = 0 then defaultRejectBackoffMax else rejectBackoffMax
  knownPeers := ∅
  clients := ∅
  connecting := none

def recordKnownPeer (p2p : P2P) (peerID : String) : P2P :=
  if peerID = "" then p2p
  else if peerID ∈ p2p.knownPeers.keys then p2p
  else { p2p with knownPeers := p2p.knownPeers.put peerID ⟨none, 0⟩ }

/-- The wait after the given number of rejections. The multiplier `1 << (rejects - 1)` and its
product with the duration are taken in 64 bits. -/
def backoff (p2p : P2P) (rejects : ℕ) : Int64 :=
  let backoff :=
    if rejects > 1 then p2p.rejectBackoff * .ofInt (2 ^ (rejects - 1)) else p2p.rejectBackoff
  if backoff > p2p.rejectBackoffMax then p2p.rejectBackoffMax else backoff

def markRejected (p2p : P2P) (peerID : String) (now : ℤ) : P2P :=
  if peerID = "" then p2p
  else
    let rejects := (p2p.knownPeers.get peerID).rejects + 1
    { p2p with
      knownPeers := p2p.knownPeers.put peerID ⟨some (now + (p2p.backoff rejects).toInt), rejects⟩ }

def isRejected (p2p : P2P) (peerID : String) (now : ℤ) : Bool :=
  if peerID = "" then false
  else
    match (p2p.knownPeers.get peerID).rejectedUntil with
    | none => false
    | some rejectedUntil => now < rejectedUntil

/-- `tryConnectPeer` up to where it takes the mutex of the peer. -/
def tryConnectPeer (p2p : P2P) (peerID : String) (now : ℤ) (connected : Bool) : P2P :=
  if peerID = "" then p2p
  else if peerID = p2p.hostID then p2p
  else if p2p.isRejected peerID now then p2p
  else if connected then p2p
  else { p2p with connecting := some peerID }

/-- The rest of `tryConnectPeer`, with the mutex held. -/
def connectPeer (p2p : P2P) (peerID : String) (connected connects : Bool) (now : ℤ) : P2P :=
  if connected then p2p
  else if connects then p2p
  else p2p.markRejected peerID now

def connectRPCPeer (p2p : P2P) (peerID : String) (now failed : ℤ) (link : Link) : P2P :=
  if peerID = "" then p2p
  else if peerID = p2p.hostID then p2p
  else if peerID ∈ p2p.clients then p2p
  else if p2p.isRejected peerID now then p2p
  else if ¬link.connected then p2p
  else if ¬link.dials then p2p.markRejected peerID failed
  else if ¬link.pings then p2p.markRejected peerID failed
  else { p2p with clients := insert peerID p2p.clients }

def onGossipPeerJoin (p2p : P2P) (peerID : String) (now again failed : ℤ) (link : Link) : P2P :=
  if peerID = "" then p2p
  else if peerID = p2p.hostID then p2p
  else
    let p2p := p2p.recordKnownPeer peerID
    if p2p.isRejected peerID now then p2p
    else p2p.connectRPCPeer peerID again failed link

/-- `onGossipPeerLeave` with `removeRPCPeer`. -/
def onGossipPeerLeave (p2p : P2P) (peerID : String) : P2P :=
  if peerID = "" then p2p else { p2p with clients := p2p.clients.erase peerID }

def snapshotConns (p2p : P2P) : Finset String := p2p.clients.filter (· ≠ "")

def Calls (p2p : P2P) (peerID : String) (now again : ℤ) (link : Link) : Prop :=
  peerID ≠ "" ∧ peerID ≠ p2p.hostID ∧ p2p.isRejected peerID now = false ∧ peerID ∉ p2p.clients ∧
    p2p.isRejected peerID again = false ∧ link.connected = true

instance (p2p : P2P) (peerID : String) (now again : ℤ) (link : Link) :
    Decidable (p2p.Calls peerID now again link) := by
  unfold Calls
  infer_instance

end P2P

/-! ## The providers -/

def idLess (a b : String) : Bool := a < b

theorem idLess_strictTotal : StrictTotalOn idLess fun _ => True :=
  strictTotalOn_of_key id (fun _ _ => decide_eq_true_iff) Function.injective_id

/-- The identifiers in the order of `sort.Strings`. -/
def sortedIDs (ids : Finset String) : List String :=
  (Enumeration.sorted idLess idLess_strictTotal).list ids

structure Providers where
  rr : UInt64
  lastUsed : String

/-- The provider that is picked, and the counter moved on. -/
def Providers.pickProvider (p : Providers) (conns : Finset String) :
    Except String (String × Providers) :=
  if conns = ∅ then .error "no connected providers"
  else
    let id := (turn (sortedIDs conns) p.rr.toNat).getD ""
    .ok (id, ⟨p.rr + 1, id⟩)

/-! ## The node among its peers -/

structure Peering where
  manager : P2P
  providers : Providers

/-- What happens to a node: a peer comes to its knowledge, the discovery processor takes a peer it
is told of, and gets hold of the mutex of that peer, a peer joins the topic or leaves it, and a
provider is asked for. -/
inductive PeerEvent
  | seen (peerID : String)
  | found (peerID : String) (now : ℤ) (connected : Bool)
  | connect (connected connects : Bool) (now : ℤ)
  | join (peerID : String) (now again failed : ℤ) (link : Link)
  | leave (peerID : String)
  | pick
  deriving DecidableEq

namespace Peering

def newNode (hostID : String) (rejectBackoff rejectBackoffMax : Int64) : Peering :=
  ⟨.newManager hostID rejectBackoff rejectBackoffMax, ⟨0, ""⟩⟩

/-- The discovery processor handles one peer after the other. Everything else comes in between. -/
def next (s : Peering) : PeerEvent → Option Peering
  | .seen peerID => some { s with manager := s.manager.recordKnownPeer peerID }
  | .found peerID now connected =>
    if s.manager.connecting = none then
      some { s with
        manager := (s.manager.recordKnownPeer peerID).tryConnectPeer peerID now connected }
    else none
  | .connect connected connects now =>
    match s.manager.connecting with
    | none => none
    | some peerID =>
      let manager := { s.manager with connecting := none }
      some { s with manager := manager.connectPeer peerID connected connects now }
  | .join peerID now again failed link =>
    some { s with manager := s.manager.onGossipPeerJoin peerID now again failed link }
  | .leave peerID => some { s with manager := s.manager.onGossipPeerLeave peerID }
  | .pick =>
    match s.providers.pickProvider s.manager.snapshotConns with
    | .ok (_, providers) => some { s with providers := providers }
    | .error _ => some s

def Step (s : Peering) (a : PeerEvent) (s' : Peering) : Prop := s.next a = some s'

def picked : Peering × PeerEvent → Option String
  | (s, .pick) => (s.providers.pickProvider s.manager.snapshotConns).toOption.map Prod.fst
  | _ => none

/-- The join of a peer is granted if the peer is another one, is not rejected and answers. -/
def Admits (peerID : String) : Peering × PeerEvent → Prop
  | (s, .join joining now again _ link) =>
    joining = peerID ∧ peerID ≠ "" ∧ peerID ≠ s.manager.hostID ∧
      s.manager.isRejected peerID now = false ∧ s.manager.isRejected peerID again = false ∧
      link.connected = true ∧ link.answers = true
  | _ => False

def rejection (peerID : String) : Peering × PeerEvent → Option ℤ
  | (s, .connect connected connects now) =>
    if peerID ≠ "" ∧ s.manager.connecting = some peerID ∧ connected = false ∧ connects = false then
      some now
    else none
  | (s, .join joining now again failed link) =>
    if joining = peerID ∧ s.manager.Calls joining now again link ∧ link.answers = false then
      some failed
    else none
  | _ => none

end Peering

/-! ## What one step changes -/

namespace P2P

variable (p2p : P2P) (peerID other : String) (now : ℤ)

@[simp] theorem get_recordKnownPeer :
    (p2p.recordKnownPeer peerID).knownPeers.get other = p2p.knownPeers.get other := by
  unfold recordKnownPeer
  split_ifs with hempty hknown
  · rfl
  · rfl
  · rw [Map.get_put]
    split
    · next heq =>
      subst heq
      have hnone := (Map.lookup_eq_none_iff p2p.knownPeers other).mpr hknown
      rw [Map.get, hnone]
      rfl
    · rfl

@[simp] theorem isRejected_recordKnownPeer :
    (p2p.recordKnownPeer peerID).isRejected other now = p2p.isRejected other now := by
  simp only [isRejected, get_recordKnownPeer]

@[simp] theorem clients_recordKnownPeer : (p2p.recordKnownPeer peerID).clients = p2p.clients := by
  unfold recordKnownPeer
  split_ifs <;> rfl

@[simp] theorem hostID_recordKnownPeer : (p2p.recordKnownPeer peerID).hostID = p2p.hostID := by
  unfold recordKnownPeer
  split_ifs <;> rfl

@[simp] theorem backoff_recordKnownPeer :
    (p2p.recordKnownPeer peerID).backoff = p2p.backoff := by
  unfold recordKnownPeer
  split_ifs <;> rfl

@[simp] theorem clients_markRejected : (p2p.markRejected peerID now).clients = p2p.clients := by
  unfold markRejected
  split_ifs <;> rfl

@[simp] theorem hostID_markRejected : (p2p.markRejected peerID now).hostID = p2p.hostID := by
  unfold markRejected
  split_ifs <;> rfl

@[simp] theorem backoff_markRejected : (p2p.markRejected peerID now).backoff = p2p.backoff := by
  unfold markRejected
  split_ifs <;> rfl

def rejectedOnceMore (p2p : P2P) (peerID : String) (now : ℤ) : KnownPeer :=
  let rejects := (p2p.knownPeers.get peerID).rejects + 1
  ⟨some (now + (p2p.backoff rejects).toInt), rejects⟩

@[simp] theorem rejectedOnceMore_recordKnownPeer :
    (p2p.recordKnownPeer peerID).rejectedOnceMore other now = p2p.rejectedOnceMore other now := by
  simp only [rejectedOnceMore, get_recordKnownPeer, backoff_recordKnownPeer]

theorem get_markRejected (hid : peerID ≠ "") : (p2p.markRejected peerID now).knownPeers.get other =
    if peerID = other then p2p.rejectedOnceMore other now else p2p.knownPeers.get other := by
  rw [markRejected, if_neg hid]
  split
  · next heq =>
    subst heq
    exact Map.get_put_self _ _ _
  · next hne => exact Map.get_put_of_ne _ _ (Ne.symm hne)

section Join

variable {p2p peerID now} {again : ℤ} (failed : ℤ) {link : Link}

theorem onGossipPeerJoin_of_calls (h : p2p.Calls peerID now again link) :
    p2p.onGossipPeerJoin peerID now again failed link =
      let known := p2p.recordKnownPeer peerID
      if link.answers then { known with clients := insert peerID known.clients }
      else known.markRejected peerID failed := by
  obtain ⟨hid, hhost, hnow, hclient, hagain, hconnected⟩ := h
  unfold onGossipPeerJoin connectRPCPeer
  simp only [isRejected_recordKnownPeer, clients_recordKnownPeer, hostID_recordKnownPeer, hid,
    hhost, hnow, hclient, hagain, hconnected, Link.answers]
  cases link.dials <;> cases link.pings <;> rfl

theorem onGossipPeerJoin_of_not_calls (h : ¬p2p.Calls peerID now again link) :
    p2p.onGossipPeerJoin peerID now again failed link = p2p ∨
    p2p.onGossipPeerJoin peerID now again failed link = p2p.recordKnownPeer peerID := by
  rw [Calls, ← Bool.not_eq_true, ← Bool.not_eq_true] at h
  unfold onGossipPeerJoin connectRPCPeer
  simp only [isRejected_recordKnownPeer, clients_recordKnownPeer, hostID_recordKnownPeer]
  split_ifs with hid hhost hnow hclient hagain hconnected
  · exact Or.inl rfl
  · exact Or.inl rfl
  · exact Or.inr rfl
  · exact Or.inr rfl
  · exact Or.inr rfl
  · exact absurd ⟨hid, hhost, hnow, hclient, hagain, hconnected⟩ h
  · exact absurd ⟨hid, hhost, hnow, hclient, hagain, hconnected⟩ h
  · exact absurd ⟨hid, hhost, hnow, hclient, hagain, hconnected⟩ h
  · exact Or.inr rfl

end Join

end P2P

namespace Peering

variable {s s' : Peering} {a : PeerEvent}

structure Effect (s : Peering) (a : PeerEvent) (s' : Peering) : Prop where
  hostID : s'.manager.hostID = s.manager.hostID
  backoff : s'.manager.backoff = s.manager.backoff
  known : ∀ id, s'.manager.knownPeers.get id =
    match rejection id (s, a) with
    | some now => s.manager.rejectedOnceMore id now
    | none => s.manager.knownPeers.get id
  clients : ∀ id, id ≠ "" →
    (id ∈ s'.manager.clients ↔ Admits id (s, a) ∨ id ∈ s.manager.clients ∧ a ≠ .leave id)
  named : "" ∉ s.manager.clients → "" ∉ s'.manager.clients

/-- The managers differ at most in what is never asked about a peer. -/
structure Alike (p2p p2p' : P2P) : Prop where
  hostID : p2p'.hostID = p2p.hostID
  backoff : p2p'.backoff = p2p.backoff
  known : ∀ id, p2p'.knownPeers.get id = p2p.knownPeers.get id
  clients : p2p'.clients = p2p.clients

theorem Alike.refl (p2p : P2P) : Alike p2p p2p := ⟨rfl, rfl, fun _ => rfl, rfl⟩

theorem alike_recordKnownPeer (p2p : P2P) (peerID : String) :
    Alike p2p (p2p.recordKnownPeer peerID) :=
  ⟨p2p.hostID_recordKnownPeer peerID, p2p.backoff_recordKnownPeer peerID,
    p2p.get_recordKnownPeer peerID, p2p.clients_recordKnownPeer peerID⟩

theorem alike_tryConnectPeer {p2p p2p' : P2P} (h : Alike p2p p2p') (peerID : String) (now : ℤ)
    (connected : Bool) : Alike p2p (p2p'.tryConnectPeer peerID now connected) := by
  unfold P2P.tryConnectPeer
  split_ifs
  · exact h
  · exact h
  · exact h
  · exact h
  · exact ⟨h.hostID, h.backoff, h.known, h.clients⟩

theorem Alike.effect (h : Alike s.manager s'.manager)
    (hrejection : ∀ id, rejection id (s, a) = none)
    (hadmits : ∀ id, Admits id (s, a) → id ∈ s.manager.clients) (hleave : ∀ id, a ≠ .leave id) :
    Effect s a s' where
  hostID := h.hostID
  backoff := h.backoff
  known id := by rw [hrejection id, h.known id]
  clients id _ := by
    rw [h.clients]
    constructor
    · exact fun hmem => Or.inr ⟨hmem, hleave id⟩
    · rintro (hgranted | ⟨hmem, -⟩)
      · exact hadmits id hgranted
      · exact hmem
  named := by
    rw [h.clients]
    exact id

theorem effect_join {peerID : String} {now again failed : ℤ} {link : Link} :
    Effect s (.join peerID now again failed link)
      { s with manager := s.manager.onGossipPeerJoin peerID now again failed link } := by
  by_cases hcalls : s.manager.Calls peerID now again link
  · have hjoin := P2P.onGossipPeerJoin_of_calls failed hcalls
    obtain ⟨hid, hhost, hnow, hclient, hagain, hconnected⟩ := id hcalls
    rw [hjoin]
    cases hanswers : link.answers with
    | true =>
      refine ⟨by simp, s.manager.backoff_recordKnownPeer peerID, fun id => ?_, fun id _ => ?_,
        fun hnamed => ?_⟩
      · simp [rejection, hanswers]
      · simp only [Admits, if_true, P2P.clients_recordKnownPeer, Finset.mem_insert, ne_eq,
          reduceCtorEq, not_false_eq_true, and_true]
        constructor
        · rintro (rfl | hmem)
          · exact Or.inl ⟨rfl, hid, hhost, hnow, hagain, hconnected, hanswers⟩
          · exact Or.inr hmem
        · rintro (⟨rfl, -⟩ | hmem)
          · exact Or.inl rfl
          · exact Or.inr hmem
      · simp [hnamed, hid.symm]
    | false =>
      refine ⟨by simp, by simp, fun id => ?_, fun id _ => ?_, fun hnamed => ?_⟩
      · simp only [rejection, hanswers, hcalls, Bool.false_eq_true, if_false, and_true,
          P2P.get_markRejected _ _ id failed hid, P2P.rejectedOnceMore_recordKnownPeer,
          P2P.get_recordKnownPeer]
        split_ifs <;> rfl
      · simp [Admits, hanswers]
      · simpa using hnamed
  · have halike : Alike s.manager
        (s.manager.onGossipPeerJoin peerID now again failed link) := by
      rcases P2P.onGossipPeerJoin_of_not_calls failed hcalls with heq | heq
      · rw [heq]
        exact Alike.refl _
      · rw [heq]
        exact alike_recordKnownPeer _ _
    refine Alike.effect halike (fun id => ?_) ?_ (by simp)
    · simp [rejection, hcalls]
    · rintro id ⟨rfl, hid, hhost, hnow, hagain, hconnected, -⟩
      by_contra hclient
      exact hcalls ⟨hid, hhost, hnow, hclient, hagain, hconnected⟩

theorem effect_connect {peerID : String} {connected connects : Bool} {now : ℤ}
    (h : s.manager.connecting = some peerID) :
    Effect s (.connect connected connects now)
      { s with
        manager := { s.manager with connecting := none }.connectPeer peerID connected connects
          now } := by
  by_cases hfails : peerID ≠ "" ∧ connected = false ∧ connects = false
  · obtain ⟨hid, rfl, rfl⟩ := hfails
    have hmarks : { s.manager with connecting := none }.connectPeer peerID false false now =
      { s.manager with connecting := none }.markRejected peerID now := rfl
    rw [hmarks]
    refine ⟨by simp, by simp; rfl, fun id => ?_, fun id _ => ?_, fun hnamed => ?_⟩
    · simp only [rejection, h, P2P.get_markRejected _ _ id now hid, Option.some.injEq, and_true]
      by_cases heq : peerID = id
      · subst heq
        rw [if_pos rfl, if_pos ⟨hid, rfl⟩]
        rfl
      · rw [if_neg heq, if_neg fun hand => heq hand.2]
    · simp [Admits]
    · simpa using hnamed
  · have halike : Alike s.manager
        ({ s.manager with connecting := none }.connectPeer peerID connected connects now) := by
      unfold P2P.connectPeer P2P.markRejected
      split_ifs with hconnected hconnects hempty
      · exact ⟨rfl, rfl, fun _ => rfl, rfl⟩
      · exact ⟨rfl, rfl, fun _ => rfl, rfl⟩
      · exact ⟨rfl, rfl, fun _ => rfl, rfl⟩
      · exact absurd ⟨hempty, Bool.eq_false_iff.mpr hconnected, Bool.eq_false_iff.mpr hconnects⟩
          hfails
    refine Alike.effect halike (fun id => if_neg ?_) (fun id => False.elim) (by simp)
    rintro ⟨hid, heq, hconnected, hconnects⟩
    obtain rfl : peerID = id := Option.some.inj (h.symm.trans heq)
    exact hfails ⟨hid, hconnected, hconnects⟩

theorem effect_leave {peerID : String} :
    Effect s (.leave peerID) { s with manager := s.manager.onGossipPeerLeave peerID } := by
  unfold P2P.onGossipPeerLeave
  split_ifs with hempty
  · subst hempty
    refine ⟨rfl, rfl, fun _ => rfl, fun id hne => ?_, id⟩
    simp [Admits, hne.symm]
  · refine ⟨rfl, rfl, fun _ => rfl, fun id hne => ?_, fun hnamed => ?_⟩
    · simp [Admits, and_comm, eq_comm]
    · exact fun hmem => hnamed (Finset.mem_of_mem_erase hmem)

theorem effect_of_step (h : Step s a s') : Effect s a s' := by
  cases a with
  | seen peerID =>
    cases h
    exact Alike.effect (alike_recordKnownPeer _ _) (fun _ => rfl) (fun _ => False.elim)
      (by simp)
  | found peerID now connected =>
    rw [Step, next] at h
    split at h
    · cases h
      exact Alike.effect (alike_tryConnectPeer (alike_recordKnownPeer _ _) _ _ _) (fun _ => rfl)
        (fun _ => False.elim) (by simp)
    · cases h
  | connect connected connects now =>
    rw [Step, next] at h
    split at h
    · cases h
    · next peerID hpeer =>
      cases h
      exact effect_connect hpeer
  | join peerID now again failed link =>
    cases h
    exact effect_join
  | leave peerID =>
    cases h
    exact effect_leave
  | pick =>
    rw [Step, next] at h
    split at h <;> cases h <;>
    exact Alike.effect (Alike.refl _) (fun _ => rfl) (fun _ => False.elim) (by simp)

/-! ## Who is a provider -/

/-- There are no clients but those whose join was granted and that have not left since. -/
theorem mem_clients_of_run {start s : Peering} {tr : List (Peering × PeerEvent)}
    (h : Run Step start tr s) (hstart : start.manager.clients = ∅) (id : String) :
    id ∈ s.manager.clients ↔ Since (Admits id) (fun y => y.2 ≠ .leave id) tr := by
  have hnamed : "" ∉ s.manager.clients :=
    h.invariant (I := fun s => "" ∉ s.manager.clients) (by simp [hstart])
      fun _ _ _ hI hstep => (effect_of_step hstep).named hI
  by_cases hid : id = ""
  · subst hid
    refine iff_of_false hnamed ?_
    rintro ⟨later, ⟨t, a⟩, earlier, -, hadmits, -⟩
    cases a with
    | join => exact hadmits.2.1 rfl
    | _ => exact hadmits
  · clear hnamed
    -- the condition on the steps and the clients are unfolded together, one step at a time
    induction h with
    | nil => exact iff_of_false (by simp [hstart]) not_since_nil
    | snoc _ hs ih =>
      refine ((effect_of_step hs).clients id hid).trans ?_
      rw [since_cons]
      exact or_congr_right (and_congr_left' ih)

theorem mem_sortedIDs {ids : Finset String} {id : String} : id ∈ sortedIDs ids ↔ id ∈ ids :=
  Enumeration.mem_list _ ids id

theorem nodup_sortedIDs (ids : Finset String) : (sortedIDs ids).Nodup :=
  Enumeration.nodup_list _ ids

theorem length_sortedIDs (ids : Finset String) : (sortedIDs ids).length = ids.card := by
  rw [Finset.card, ← Enumeration.coe_list (Enumeration.sorted idLess idLess_strictTotal) ids]
  rfl

/-- Who is picked is whose turn it is, and the counter moves on. -/
theorem next_pick {conns : Finset String} (hconns : s.manager.snapshotConns = conns)
    (hne : conns ≠ ∅) :
    ∃ id, turn (sortedIDs conns) s.providers.rr.toNat = some id ∧ picked (s, .pick) = some id ∧
      next s .pick = some { s with providers := ⟨s.providers.rr + 1, id⟩ } := by
  obtain ⟨first, hfirst⟩ := Finset.nonempty_iff_ne_empty.mpr hne
  have hlist : sortedIDs conns ≠ [] := List.ne_nil_of_mem (mem_sortedIDs.mpr hfirst)
  obtain ⟨id, hturn⟩ := exists_turn hlist s.providers.rr.toNat
  have hpick : s.providers.pickProvider conns = .ok (id, ⟨s.providers.rr + 1, id⟩) := by
    rw [Providers.pickProvider, if_neg hne, hturn]
    rfl
  refine ⟨id, hturn, ?_, ?_⟩
  · rw [picked, hconns, hpick]
    rfl
  · rw [next, hconns, hpick]

theorem mem_clients_of_picked {x : Peering × PeerEvent} {id : String} (h : picked x = some id) :
    id ∈ x.1.manager.clients := by
  obtain ⟨s, a⟩ := x
  cases a with
  | pick =>
    by_cases hne : s.manager.snapshotConns = ∅
    · rw [picked, Providers.pickProvider, if_pos hne] at h
      cases h
    · obtain ⟨turned, hturn, hpicked, -⟩ := next_pick rfl hne
      obtain rfl : turned = id := Option.some.inj (hpicked.symm.trans h)
      exact (Finset.mem_filter.mp (mem_sortedIDs.mp (turn_mem hturn))).1
  | _ => cases h

theorem hostID_of_run {start s : Peering} {tr : List (Peering × PeerEvent)}
    (h : Run Step start tr s) : s.manager.hostID = start.manager.hostID :=
  h.invariant (I := fun s => s.manager.hostID = start.manager.hostID) rfl
    fun _ _ _ hI hstep => (effect_of_step hstep).hostID.trans hI

/-- The clients, and the providers picked from them, are the peers whose join was granted and that
have not left since. A peer that does not answer when it joins is no provider before it joins
again, whatever else is found out about it, and the node itself never is. -/
theorem providers_follow_gossip {hostID : String} {rejectBackoff rejectBackoffMax : Int64}
    {tr : List (Peering × PeerEvent)} {s : Peering}
    (h : Run Step (newNode hostID rejectBackoff rejectBackoffMax) tr s) (id : String) :
    (id ∈ s.manager.clients ↔ Since (Admits id) (fun y => y.2 ≠ .leave id) tr) ∧
    ∀ later x earlier, tr = later ++ x :: earlier → picked x = some id →
      id ≠ hostID ∧ Since (Admits id) (fun y => y.2 ≠ .leave id) earlier := by
  refine ⟨mem_clients_of_run h rfl id, ?_⟩
  rintro later x earlier rfl hpicked
  obtain ⟨t, hbefore, -, -⟩ := h.split
  have hsince := (mem_clients_of_run hbefore rfl id).mp (mem_clients_of_picked hpicked)
  refine ⟨?_, hsince⟩
  obtain ⟨later', ⟨u, a⟩, earlier', rfl, hadmits, -⟩ := hsince
  obtain ⟨-, hjoined, -, -⟩ := hbefore.split
  cases a with
  | join =>
    have hhost : u.manager.hostID = hostID := hostID_of_run hjoined
    rw [← hhost]
    exact hadmits.2.2.1
  | _ => exact hadmits.elim

theorem step_of_next : ∀ s a s', next s a = some s' → Step s a s' := fun _ _ _ h => h

def joinsOfTwo : List PeerEvent :=
  [.join "bob" 0 0 0 ⟨true, true, true⟩, .join "carol" 1 1 2 ⟨true, true, false⟩, .pick]

theorem providers_follow_gossip_of_bob : ∃ tr s, Run Step (newNode "alice" 0 0) tr s ∧
    Since (Admits "bob") (fun y => y.2 ≠ .leave "bob") tr ∧
    ¬Since (Admits "carol") (fun y => y.2 ≠ .leave "carol") tr := by
  have hrun : Run Step (newNode "alice" 0 0) _ _ :=
    run_outcome step_of_next (by decide +kernel : (execute next _ joinsOfTwo).isSome = true)
  refine ⟨_, _, hrun, ?_, ?_⟩
  · exact (providers_follow_gossip hrun "bob").1.mp (by decide +kernel)
  · exact fun hsince =>
      absurd ((providers_follow_gossip hrun "carol").1.mpr hsince) (by decide +kernel)

/-! ## How long a peer is rejected -/

def knownAfter (backoff : ℕ → Int64) (times : List ℤ) : KnownPeer where
  rejectedUntil := times.getLast?.map fun last => last + (backoff times.length).toInt
  rejects := times.length

theorem known_of_run {start s : Peering} {tr : List (Peering × PeerEvent)}
    (h : Run Step start tr s) {id : String} (hstart : start.manager.knownPeers.get id = ⟨none, 0⟩) :
    s.manager.knownPeers.get id = knownAfter start.manager.backoff (outputs (rejection id) tr) ∧
    s.manager.backoff = start.manager.backoff := by
  induction h with
  | nil => exact ⟨hstart, rfl⟩
  | snoc hr hs ih =>
    obtain ⟨hknown, hbackoff⟩ := ih
    have heffect := effect_of_step hs
    refine ⟨?_, heffect.backoff.trans hbackoff⟩
    rw [heffect.known, outputs_cons]
    cases hrejection : rejection id _ with
    | none => simpa using hknown
    | some now =>
      simp only [P2P.rejectedOnceMore, hknown, hbackoff, knownAfter, Option.toList_some,
        List.getLast?_concat, Option.map_some, List.length_append, List.length_singleton]

theorem toInt_backoff (p2p : P2P) {n : ℕ} (hn : 0 < n) : (p2p.backoff n).toInt =
    min ((p2p.rejectBackoff.toInt * 2 ^ (n - 1)).bmod (2 ^ 64)) p2p.rejectBackoffMax.toInt := by
  have hlimit : ∀ d : Int64,
      (if d > p2p.rejectBackoffMax then p2p.rejectBackoffMax else d).toInt =
        min d.toInt p2p.rejectBackoffMax.toInt := by
    intro d
    split
    · next hgt => exact (min_eq_right (Int64.lt_iff_toInt_lt.mp hgt).le).symm
    · next hle =>
      have hle' : d.toInt ≤ p2p.rejectBackoffMax.toInt :=
        not_lt.mp fun hlt => hle (Int64.lt_iff_toInt_lt.mpr hlt)
      exact (min_eq_left hle').symm
  rw [P2P.backoff, hlimit]
  congr 1
  split
  · rw [Int64.toInt_mul, Int64.toInt_ofInt]
    exact Int.mul_bmod_bmod
  · have hone : n = 1 := by omega
    rw [hone, Nat.sub_self, pow_zero, mul_one]
    exact (Int64.toInt_bmod _).symm

theorem rejection_empty (x : Peering × PeerEvent) : rejection "" x = none := by
  obtain ⟨s, a⟩ := x
  cases a with
  | connect => simp [rejection]
  | join =>
    rw [rejection]
    refine if_neg ?_
    rintro ⟨rfl, hcalls, -⟩
    exact hcalls.1 rfl
  | _ => rfl

theorem isRejected_of_run {start s : Peering} {tr : List (Peering × PeerEvent)}
    (h : Run Step start tr s) {id : String} (hstart : start.manager.knownPeers.get id = ⟨none, 0⟩)
    (now : ℤ) :
    let times := outputs (rejection id) tr
    s.manager.isRejected id now = true ↔ ∃ last, times.getLast? = some last ∧
      now < last + (start.manager.backoff times.length).toInt := by
  intro times
  by_cases hid : id = ""
  · subst hid
    have hnever : times = [] := List.filterMap_eq_nil_iff.mpr fun x _ => rejection_empty x
    simp [P2P.isRejected, hnever]
  · have hknown : s.manager.knownPeers.get id = knownAfter start.manager.backoff times :=
      (known_of_run h hstart).1
    rw [P2P.isRejected, if_neg hid, hknown, knownAfter]
    cases times.getLast? with
    | none => simp
    | some last => simp

/-- A peer is rejected from its last rejection on for the time that was doubled with each one, up to
the limit. But where the doubling has gone through all 64 bits the wait is nothing: with the
default of 30 seconds from the 55th rejection on, with any other from the 65th, a peer to which no
connection can be made is tried again each time it is found. -/
theorem rejection_backoff {hostID : String} {rejectBackoff rejectBackoffMax : Int64}
    {tr : List (Peering × PeerEvent)} {s : Peering}
    (h : Run Step (newNode hostID rejectBackoff rejectBackoffMax) tr s) (id : String) :
    let manager := P2P.newManager hostID rejectBackoff rejectBackoffMax
    let times := outputs (rejection id) tr
    let wait := manager.rejectBackoff.toInt * 2 ^ (times.length - 1)
    (times = [] → ∀ now, s.manager.isRejected id now = false) ∧
    ∀ last, times.getLast? = some last →
      (0 ≤ wait → wait < 2 ^ 63 → ∀ now, s.manager.isRejected id now = true ↔
        now < last + min wait manager.rejectBackoffMax.toInt) ∧
      (2 ^ 64 ∣ wait → ∀ now, last ≤ now → s.manager.isRejected id now = false) := by
  intro manager times wait
  have hrejected : ∀ now, s.manager.isRejected id now = true ↔ ∃ last,
      times.getLast? = some last ∧ now < last + (manager.backoff times.length).toInt :=
    isRejected_of_run h rfl
  refine ⟨fun hnever now => ?_, fun last hlast => ?_⟩
  · rw [Bool.eq_false_iff, ne_eq, hrejected, hnever]
    simp
  have hpos : 0 < times.length := List.length_pos_of_mem (List.mem_of_getLast? hlast)
  simp only [hlast, Option.some.injEq, exists_eq_left', toInt_backoff manager hpos] at hrejected
  refine ⟨fun hnonneg hlt now => ?_, fun hdvd now hnow => ?_⟩
  · have hexact : wait.bmod (2 ^ 64) = wait := Int.bmod_eq_of_le (by omega) (by omega)
    rw [hrejected, hexact]
  · have hzero : wait.bmod (2 ^ 64) = 0 := Int.bmod_eq_zero_of_dvd hdvd
    rw [Bool.eq_false_iff, ne_eq, hrejected, hzero]
    have hmin := min_le_left 0 manager.rejectBackoffMax.toInt
    omega

def failures (n : ℕ) : List PeerEvent :=
  (List.range n).flatMap fun i =>
    [.found "bob" (i * 1000000000000) false, .connect false false (i * 1000000000000)]

/-- The fourth rejection is for four minutes, the 55th for no time at all. -/
theorem rejection_backoff_of_bob :
    (∀ now,
      (outcome next (newNode "alice" 0 0) (failures 4)).2.manager.isRejected "bob" now = true ↔
        now < 3240000000000) ∧
    ∀ now, 54000000000000 ≤ now →
      (outcome next (newNode "alice" 0 0) (failures 55)).2.manager.isRejected "bob" now =
        false := by
  have hfour := rejection_backoff (run_outcome step_of_next
    (by decide +kernel : (execute next (newNode "alice" 0 0) (failures 4)).isSome = true)) "bob"
  have hmany := rejection_backoff (run_outcome step_of_next
    (by decide +kernel : (execute next (newNode "alice" 0 0) (failures 55)).isSome = true)) "bob"
  constructor
  · exact (hfour.2 3000000000000 (by decide +kernel)).1 (by decide +kernel) (by decide +kernel)
  · exact (hmany.2 54000000000000 (by decide +kernel)).2 (by decide +kernel)

/-! ## Whose turn it is -/

theorem providers_of_step (h : Step s a s') (ha : a ≠ .pick) :
    picked (s, a) = none ∧ s'.providers = s.providers := by
  cases a with
  | pick => exact absurd rfl ha
  | found =>
    rw [Step, next] at h
    split at h
    · cases h
      exact ⟨rfl, rfl⟩
    · cases h
  | connect =>
    rw [Step, next] at h
    split at h
    · cases h
    · cases h
      exact ⟨rfl, rfl⟩
  | _ =>
    cases h
    exact ⟨rfl, rfl⟩

/-- The picks so far were the turns from the counter `c` on, and the counter stands behind them. -/
structure InTurn (conns : Finset String) (c : ℕ) (picks : List String) (rr : UInt64) : Prop where
  counter : rr.toNat = c + picks.length
  mem : ∀ id ∈ picks, id ∈ conns
  count : ∀ id, picks.count id =
    Nat.count (fun i => turn (sortedIDs conns) (c + i) = some id) picks.length

theorem InTurn.snoc {conns : Finset String} {c : ℕ} {picks : List String} {rr : UInt64}
    (h : InTurn conns c picks rr) {id : String} (hturn : turn (sortedIDs conns) rr.toNat = some id)
    (hroom : c + (picks.length + 1) < 2 ^ 64) : InTurn conns c (picks ++ [id]) (rr + 1) where
  counter := by
    rw [UInt64.toNat_add, h.counter, UInt64.toNat_one, List.length_append, List.length_singleton]
    omega
  mem := by
    intro other hother
    rcases List.mem_append.mp hother with hother | hother
    · exact h.mem other hother
    · rw [List.mem_singleton.mp hother]
      exact mem_sortedIDs.mp (turn_mem hturn)
  count := by
    intro other
    rw [List.count_append, h.count, List.length_append, List.length_singleton, Nat.count_succ,
      ← h.counter, hturn]
    simp only [Option.some.injEq, List.count_singleton, beq_iff_eq]

theorem inTurn_of_run {s s' : Peering} {tr : List (Peering × PeerEvent)} (h : Run Step s tr s')
    {conns : Finset String} (hne : conns ≠ ∅)
    (hconns : ∀ x ∈ tr, x.1.manager.snapshotConns = conns) :
    s.providers.rr.toNat + (outputs picked tr).length < 2 ^ 64 →
    InTurn conns s.providers.rr.toNat (outputs picked tr) s'.providers.rr := by
  -- the counter must not have wrapped at any point: the bound on the whole run covers its parts
  refine Run.induct (G := fun t _ => t.manager.snapshotConns = conns)
    (I := fun tr s' => s.providers.rr.toNat + (outputs picked tr).length < 2 ^ 64 →
      InTurn conns s.providers.rr.toNat (outputs picked tr) s'.providers.rr) ?_ ?_ h hconns
  · exact fun _ => ⟨rfl, fun _ hid => absurd hid List.not_mem_nil, fun _ => rfl⟩
  · intro tr t a t' _ ih hconns hstep
    rw [outputs_cons]
    by_cases hpick : a = .pick
    · subst hpick
      obtain ⟨id, hturn, hpicked, hnext⟩ := next_pick hconns hne
      cases hnext.symm.trans hstep
      rw [hpicked, Option.toList_some, List.length_append, List.length_singleton]
      exact fun hrr => (ih (by omega)).snoc hturn hrr
    · obtain ⟨hnone, hproviders⟩ := providers_of_step hstep hpick
      rw [hnone, hproviders, Option.toList_none, List.append_nil]
      exact ih

/-- As long as the clients stay the same, they are picked evenly: of `m` picks in a row everyone
gets its part of `m`, or one more, whatever else happens in between. -/
theorem picks_are_even {s s' : Peering} {tr : List (Peering × PeerEvent)} (h : Run Step s tr s')
    {conns : Finset String} (hne : conns.Nonempty)
    (hconns : ∀ x ∈ tr, x.1.manager.snapshotConns = conns)
    (hrr : s.providers.rr.toNat + (outputs picked tr).length < 2 ^ 64) :
    let picks := outputs picked tr
    (∀ id ∈ picks, id ∈ conns) ∧ ∀ id ∈ conns,
      picks.length / conns.card ≤ picks.count id ∧
      picks.count id ≤ picks.length / conns.card + 1 := by
  intro picks
  have hturns := inTurn_of_run h hne.ne_empty hconns hrr
  refine ⟨hturns.mem, fun id hid => ?_⟩
  rw [hturns.count id, ← length_sortedIDs]
  exact count_turn (nodup_sortedIDs conns) (mem_sortedIDs.mpr hid) _ _

def withTwo : Peering :=
  (outcome next (newNode "alice" 0 0)
    [.join "carol" 0 0 0 ⟨true, true, true⟩, .join "bob" 1 1 1 ⟨true, true, true⟩]).2

theorem picks_are_even_of_two :
    let picks := outputs picked (outcome next withTwo [.pick, .seen "dave", .pick, .pick]).1
    picks.length = 3 ∧ 1 ≤ picks.count "bob" ∧ picks.count "bob" ≤ 2 := by
  have hrun := run_outcome step_of_next (by decide +kernel :
    (execute next withTwo [.pick, .seen "dave", .pick, .pick]).isSome = true)
  refine ⟨by decide +kernel, ?_⟩
  exact (picks_are_even hrun (by decide : ({"bob", "carol"} : Finset String).Nonempty)
    (by decide +kernel) (by decide +kernel)).2 "bob" (by decide)

theorem sortedIDs_pair {a b : String} (h : a < b) : sortedIDs {a, b} = [a, b] := by
  have hnodup : [a, b].Nodup := by simpa using h.ne
  have hpair : ({a, b} : Finset String) = ⟨[a, b], hnodup⟩ :=
    Finset.eq_of_veq (Finset.insert_val_of_notMem (by simpa using h.ne))
  have hlist : sortedIDs ⟨[a, b], hnodup⟩ = sortList idLess [a, b] := rfl
  rw [hpair, hlist]
  simp [sortList, insertInOrder, idLess, h]

theorem replace_picked {stays out joining : String} (hclients : s.manager.clients = {out, stays})
    (hout : out ≠ "") (hstays : stays ≠ "") (hne : stays ≠ out)
    (hturn : turn (sortedIDs {out, stays}) s.providers.rr.toNat = some out)
    (hjoining : joining ≠ "") (hnew : joining ≠ stays) (hhost : joining ≠ s.manager.hostID)
    (hfree : ∀ now, s.manager.isRejected joining now = false) :
    ∃ tr s', Run Step s tr s' ∧ s'.manager.clients = {joining, stays} ∧
      s'.providers.rr = s.providers.rr + 1 ∧ s'.manager.hostID = s.manager.hostID ∧
      (∀ id, s'.manager.isRejected id = s.manager.isRejected id) ∧
      (∀ t ∈ visited tr s', stays ∈ t.manager.snapshotConns) ∧ outputs picked tr = [out] := by
  have hconns : s.manager.snapshotConns = {out, stays} := by
    rw [P2P.snapshotConns, hclients]
    refine Finset.filter_true_of_mem fun id hid => ?_
    rcases Finset.mem_insert.mp hid with rfl | hid
    · exact hout
    · rwa [Finset.mem_singleton.mp hid]
  obtain ⟨turned, hturned, hpicked, hpick⟩ :=
    next_pick hconns (Finset.insert_ne_empty out {stays})
  obtain rfl : turned = out := Option.some.inj (hturned.symm.trans hturn)
  let afterPick : Peering := ⟨s.manager, ⟨s.providers.rr + 1, turned⟩⟩
  have hpick : Step s .pick afterPick := hpick
  let alone : P2P := { s.manager with clients := {stays} }
  let afterLeave : Peering := ⟨alone, afterPick.providers⟩
  have hleave : Step afterPick (.leave turned) afterLeave := by
    have herase : s.manager.clients.erase turned = {stays} := by
      rw [hclients]
      exact Finset.erase_insert (by simpa using hne.symm)
    rw [Step, next, P2P.onGossipPeerLeave, if_neg hout, herase]
  have hcalls : alone.Calls joining 0 0 ⟨true, true, true⟩ :=
    ⟨hjoining, hhost, hfree 0, by simpa [alone] using hnew, hfree 0, rfl⟩
  let known := alone.recordKnownPeer joining
  let afterJoin : Peering :=
    ⟨{ known with clients := insert joining known.clients }, afterPick.providers⟩
  have hjoin : Step afterLeave (.join joining 0 0 0 ⟨true, true, true⟩) afterJoin := by
    rw [Step, next, P2P.onGossipPeerJoin_of_calls 0 hcalls]
    rfl
  have hjoined : afterJoin.manager.clients = {joining, stays} := by
    rw [show afterJoin.manager.clients = insert joining known.clients from rfl,
      P2P.clients_recordKnownPeer]
  refine ⟨_, afterJoin, ((Run.nil.snoc hpick).snoc hleave).snoc hjoin, hjoined, rfl,
    alone.hostID_recordKnownPeer joining, fun id => ?_, ?_, ?_⟩
  · funext now
    exact alone.isRejected_recordKnownPeer joining id now
  · have hmem : ∀ t ∈ visited [(afterLeave, .join joining 0 0 0 ⟨true, true, true⟩),
        (afterPick, .leave turned), (s, PeerEvent.pick)] afterJoin, stays ∈ t.manager.clients := by
      simp [visited, hjoined, afterLeave, alone, afterPick, hclients]
    exact fun t ht => Finset.mem_filter.mpr ⟨hmem t ht, hstays⟩
  · rw [outputs_cons, outputs_cons, outputs_cons, hpicked]
    rfl

/-- The clients are `a` and `b`, the counter is even, and `a` and `c` are let in whenever they
join. -/
structure Seesaw (a b c : String) (s : Peering) : Prop where
  named : a ≠ "" ∧ b ≠ "" ∧ c ≠ ""
  clients : s.manager.clients = {a, b}
  even : s.providers.rr.toNat % 2 = 0
  others : s.manager.hostID ≠ a ∧ s.manager.hostID ≠ c
  free : ∀ now, s.manager.isRejected a now = false ∧ s.manager.isRejected c now = false

/-- With `a` before `b` and `b` before `c`, it is the turn of the first of two and then, once `c`
has taken the place of `a`, of the second of two. -/
theorem Seesaw.round {a b c : String} (h : Seesaw a b c s) (hab : a < b) (hbc : b < c) :
    ∃ tr s', Run Step s tr s' ∧ Seesaw a b c s' ∧
      (∀ t ∈ visited tr s', b ∈ t.manager.snapshotConns) ∧ outputs picked tr = [a, c] := by
  obtain ⟨ha, hb, hc⟩ := h.named
  have hfirst : turn (sortedIDs {a, b}) s.providers.rr.toNat = some a := by
    rw [sortedIDs_pair hab, turn]
    simp [h.even]
  obtain ⟨tr, t, hrun, hclients, hrr, hhost, hfree, hvisited, hpicks⟩ := replace_picked h.clients ha
    hb hab.ne' hfirst hc hbc.ne' h.others.2.symm fun now => (h.free now).2
  have hodd : t.providers.rr.toNat % 2 = 1 := by
    have heven := h.even
    rw [hrr, UInt64.toNat_add, UInt64.toNat_one]
    omega
  have hsecond : turn (sortedIDs {c, b}) t.providers.rr.toNat = some c := by
    rw [Finset.pair_comm, sortedIDs_pair hbc, turn]
    simp [hodd]
  obtain ⟨tr', t', hrun', hclients', hrr', hhost', hfree', hvisited', hpicks'⟩ :=
    replace_picked hclients hc hb hbc.ne hsecond ha hab.ne (hhost ▸ h.others.1.symm)
      fun now => (congrFun (hfree a) now).trans (h.free now).1
  have heven : t'.providers.rr.toNat % 2 = 0 := by
    rw [hrr', UInt64.toNat_add, UInt64.toNat_one]
    omega
  refine ⟨tr' ++ tr, t', hrun.append hrun', ⟨h.named, hclients', heven, ?_, fun now => ?_⟩, ?_, ?_⟩
  · rw [hhost', hhost]
    exact h.others
  · rw [hfree', hfree', hfree, hfree]
    exact h.free now
  · exact fun u hu => (mem_visited_append t hu).elim (hvisited' u) (hvisited u)
  · rw [outputs_append, hpicks, hpicks']
    rfl

/-- Turns are taken by position among the clients of the moment. Where others come and go, a client
that stays may never be picked, for however many picks. -/
theorem churn_starves {a b c : String} (hab : a < b) (hbc : b < c) (h : Seesaw a b c s) (n : ℕ) :
    ∃ tr s', Run Step s tr s' ∧ (∀ t ∈ visited tr s', b ∈ t.manager.snapshotConns) ∧
      (outputs picked tr).length = 2 * n ∧ b ∉ outputs picked tr := by
  suffices hrounds : ∃ tr s', Run Step s tr s' ∧ Seesaw a b c s' ∧
      (∀ t ∈ visited tr s', b ∈ t.manager.snapshotConns) ∧
      (outputs picked tr).length = 2 * n ∧ b ∉ outputs picked tr by
    obtain ⟨tr, s', hrun, -, hrest⟩ := hrounds
    exact ⟨tr, s', hrun, hrest⟩
  induction n with
  | zero =>
    refine ⟨[], s, .nil, h, fun t ht => ?_, rfl, List.not_mem_nil⟩
    obtain rfl : t = s := List.mem_singleton.mp ht
    exact Finset.mem_filter.mpr ⟨by simp [h.clients], h.named.2.1⟩
  | succ n ih =>
    obtain ⟨tr, t, hrun, hseesaw, hvisited, hlength, hnever⟩ := ih
    obtain ⟨tr', t', hrun', hseesaw', hvisited', hpicks⟩ := hseesaw.round hab hbc
    refine ⟨tr' ++ tr, t', hrun.append hrun', hseesaw', ?_, ?_, ?_⟩
    · exact fun u hu => (mem_visited_append t hu).elim (hvisited' u) (hvisited u)
    · rw [outputs_append, List.length_append, hlength, hpicks, List.length_cons,
        List.length_singleton]
      omega
    · rw [outputs_append, hpicks, List.mem_append]
      rintro (hmem | hmem)
      · exact hnever hmem
      · simp [hab.ne', hbc.ne] at hmem

theorem seesaw_withTwo : Seesaw "bob" "carol" "dave" withTwo where
  named := by decide
  clients := by decide +kernel
  even := by decide +kernel
  others := by decide +kernel
  free := fun _ => ⟨rfl, rfl⟩

theorem churn_starves_carol : ∃ tr s', Run Step withTwo tr s' ∧
    (∀ t ∈ visited tr s', "carol" ∈ t.manager.snapshotConns) ∧
    (outputs picked tr).length = 2 * 1000 ∧ "carol" ∉ outputs picked tr :=
  churn_starves (by decide) (by decide) seesaw_withTwo 1000

end Peering

end DoltSwarm.Core
