import DoltSwarm.Core.Clock
import DoltSwarm.Protocol.Hlc

/-!
# The clock of the code refines the clock of the specification

`protocol/hlc.go` works on machine integers and orders peer ids as strings; `specs/hlc.qnt`
works on integers throughout. `rank` is any way of numbering the peer ids.
-/

namespace DoltSwarm.Core

set_option autoImplicit false

section Refinement

variable (rank : String → Protocol.PeerID)

def HLCTimestamp.toModel (ts : HLCTimestamp) : Protocol.HLC :=
  ⟨ts.wall.toInt, ts.logical.toInt, rank ts.peerID⟩

def HLC.toModel (c : HLC) : Protocol.HLC :=
  ⟨c.timestamp.wall.toInt, c.timestamp.logical.toInt, rank c.peerID⟩

/-- What the specification makes of a call on the clock of `peer`. -/
def ClockCall.onModel (peer : Protocol.PeerID) (clock : Protocol.HLC) : ClockCall → Protocol.HLC
  | .now physicalTime => Protocol.tick clock physicalTime.toInt peer
  | .update remote physicalTime =>
    Protocol.observe clock (remote.toModel rank) physicalTime.toInt peer

theorem toModel_now {c : HLC} {physicalTime : Int64} (hroom : c.hasRoom (.now physicalTime)) :
    (c.now physicalTime).2.toModel rank =
      Protocol.tick (c.toModel rank) physicalTime.toInt (rank c.peerID) := by
  unfold HLC.hasRoom at hroom
  simp only [HLC.now, HLC.toModel, Protocol.tick, gt_iff_lt, ge_iff_le, Int64.le_iff_toInt_le]
    at hroom ⊢
  split_ifs with hwall hlater hlater
  · omega
  · rw [HLC.toInt_succ (hroom hwall)]
  · rw [Int32.toInt_zero]
  · omega

theorem logical_update {c : HLC} {remote : HLCTimestamp} {physicalTime : Int64}
    (hroom : c.hasRoom (.update remote physicalTime)) :
    (c.update remote physicalTime).timestamp.logical.toInt =
      if remote.wall.toInt ≤ c.timestamp.wall.toInt ∧
          physicalTime.toInt ≤ c.timestamp.wall.toInt then
        if c.timestamp.wall.toInt = remote.wall.toInt then
          max c.timestamp.logical.toInt remote.logical.toInt + 1
        else c.timestamp.logical.toInt + 1
      else if physicalTime.toInt ≤ remote.wall.toInt then remote.logical.toInt + 1 else 0 := by
  obtain ⟨hown, hremote⟩ := hroom
  simp only [Int64.le_iff_toInt_le] at hown hremote
  have hmax := HLC.toInt_max c.timestamp.wall (max remote.wall physicalTime)
  have hlater := HLC.toInt_max remote.wall physicalTime
  simp only [HLC.update, ← Int64.toInt_inj]
  by_cases hboth : (max c.timestamp.wall (max remote.wall physicalTime)).toInt =
      c.timestamp.wall.toInt ∧
      (max c.timestamp.wall (max remote.wall physicalTime)).toInt = remote.wall.toInt
  · have hcount := HLC.toInt_max_logical c.timestamp.logical remote.logical
    have hlogical := hown (by omega) (by omega)
    have hlogical' := hremote (by omega) (by omega)
    have hhigher : max c.timestamp.logical remote.logical ≠ Int32.maxValue := by
      rw [ne_eq, ← Int32.toInt_inj, hcount] at *
      omega
    rw [if_pos hboth, if_pos (by omega), if_pos (by omega), HLC.toInt_succ hhigher, hcount]
  rw [if_neg hboth]
  by_cases hwall : (max c.timestamp.wall (max remote.wall physicalTime)).toInt =
      c.timestamp.wall.toInt
  · rw [if_pos hwall, if_pos (by omega), if_neg (by omega),
      HLC.toInt_succ (hown (by omega) (by omega))]
  rw [if_neg hwall]
  by_cases hwall' : (max c.timestamp.wall (max remote.wall physicalTime)).toInt =
      remote.wall.toInt
  · rw [if_pos hwall', if_neg (show ¬ (_ ∧ _) by omega), if_pos (by omega),
      HLC.toInt_succ (hremote (by omega) (by omega))]
  · rw [if_neg hwall', if_neg (show ¬ (_ ∧ _) by omega), if_neg (by omega), Int32.toInt_zero]

/-- `Update` and `observe` break ties by different questions and come to the same clock. -/
theorem toModel_update {c : HLC} {remote : HLCTimestamp} {physicalTime : Int64}
    (hroom : c.hasRoom (.update remote physicalTime)) :
    (c.update remote physicalTime).toModel rank =
      Protocol.observe (c.toModel rank) (remote.toModel rank) physicalTime.toInt
        (rank c.peerID) := by
  have hwall := HLC.wall_update c remote physicalTime
  have hlogical := logical_update hroom
  simp only [Protocol.observe, HLC.toModel, HLCTimestamp.toModel, Protocol.HLC.mk.injEq, hwall,
    hlogical]
  refine ⟨?_, ?_, rfl⟩
  · split_ifs <;> omega
  · split_ifs <;> omega

theorem toModel_call {c : HLC} {call : ClockCall} (hroom : c.hasRoom call) :
    (c.call call).toModel rank = call.onModel rank (rank c.peerID) (c.toModel rank) := by
  cases call with
  | now physicalTime => exact toModel_now rank hroom
  | update remote physicalTime => exact toModel_update rank hroom

theorem peerID_call (c : HLC) (call : ClockCall) : (c.call call).peerID = c.peerID := by
  cases call <;> rfl

theorem toModel_foldl (cs : List ClockCall) {start : HLC}
    (hroom : ∀ x ∈ start.calls cs, x.1.hasRoom x.2) :
    (cs.foldl HLC.call start).toModel rank =
      cs.foldl (fun clock call => call.onModel rank (rank start.peerID) clock)
        (start.toModel rank) := by
  induction cs generalizing start with
  | nil => rfl
  | cons call cs ih =>
    obtain ⟨hfirst, hrest⟩ := (Lib.forall_mem_trail_cons HLC.call).mp hroom
    rw [List.foldl_cons, List.foldl_cons, ih hrest, peerID_call, toModel_call rank hfirst]

theorem less_toModel {a b : HLCTimestamp}
    (hrank : a.peerID < b.peerID ↔ rank a.peerID < rank b.peerID) :
    Protocol.less (a.toModel rank) (b.toModel rank) = a.less b := by
  rw [Bool.eq_iff_iff, Protocol.less_iff, HLCTimestamp.less_iff, hrank]
  rfl

/-- As long as no counter is incremented at its highest value, the clock of the code is at
every step where the specification's clock is, and the two compare timestamps alike. -/
theorem clock_refines_model (start : HLC) (cs : List ClockCall)
    (hroom : ∀ x ∈ start.calls cs, x.1.hasRoom x.2) :
    (cs.foldl HLC.call start).toModel rank =
        cs.foldl (fun clock call => call.onModel rank (rank start.peerID) clock)
          (start.toModel rank) ∧
      ∀ a b : HLCTimestamp, (a.peerID < b.peerID ↔ rank a.peerID < rank b.peerID) →
        a.less b = Protocol.less (a.toModel rank) (b.toModel rank) :=
  ⟨toModel_foldl rank cs hroom, fun _ _ hrank => (less_toModel rank hrank).symm⟩

def aliceBeforeBob (peerID : String) : Protocol.PeerID := if peerID = "bob" then 2 else 1

/-- Every kind of tie: the wall clock behind, a remote clock ahead, at the same time, and
behind; and two timestamps that only their peers tell apart. -/
theorem clock_refines_model_ties :
    (([.now 2, .update ⟨10, 5, "bob"⟩ 3, .update ⟨10, 9, "bob"⟩ 4, .update ⟨7, 1, "bob"⟩ 5,
      .now 9] : List ClockCall).foldl HLC.call (HLC.newHLC "alice" 1)).toModel aliceBeforeBob =
      ⟨10, 12, 1⟩ ∧
    HLCTimestamp.less ⟨10, 12, "alice"⟩ ⟨10, 12, "bob"⟩ = Protocol.less ⟨10, 12, 1⟩ ⟨10, 12, 2⟩ ∧
    Protocol.less ⟨10, 12, 1⟩ ⟨10, 12, 2⟩ = true := by
  obtain ⟨hclock, hless⟩ := clock_refines_model aliceBeforeBob (HLC.newHLC "alice" 1)
    [.now 2, .update ⟨10, 5, "bob"⟩ 3, .update ⟨10, 9, "bob"⟩ 4, .update ⟨7, 1, "bob"⟩ 5, .now 9]
    (by decide +kernel)
  exact ⟨hclock.trans (by decide +kernel),
    hless ⟨10, 12, "alice"⟩ ⟨10, 12, "bob"⟩ (by decide +kernel), by decide⟩

end Refinement

end DoltSwarm.Core
