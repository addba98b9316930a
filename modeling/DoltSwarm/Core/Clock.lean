import DoltSwarm.Core.Stability

/-!
# The clock over whole runs (protocol/hlc.go, core/node.go)

First a clock on its own, under any sequence of `Now` and `Update`: it stays above all it has
issued and received as long as no counter is incremented at its highest value. Then the clock
of a node, which every accepted message may push ahead of the wall clock.
-/

namespace DoltSwarm.Core

set_option autoImplicit false

inductive ClockCall
  | now (physicalTime : Int64)
  | update (remote : HLCTimestamp) (physicalTime : Int64)
  deriving DecidableEq, Repr

namespace HLC

def call (c : HLC) : ClockCall → HLC
  | .now physicalTime => (c.now physicalTime).2
  | .update remote physicalTime => c.update remote physicalTime

def returned (c : HLC) : ClockCall → Option HLCTimestamp
  | .now physicalTime => some (c.now physicalTime).1
  | .update _ _ => none

def noted (c : HLC) : ClockCall → HLCTimestamp
  | .now physicalTime => (c.now physicalTime).1
  | .update remote _ => remote

def hasRoom (c : HLC) : ClockCall → Prop
  | .now physicalTime => physicalTime ≤ c.timestamp.wall → c.timestamp.logical ≠ Int32.maxValue
  | .update remote physicalTime =>
    (remote.wall ≤ c.timestamp.wall → physicalTime ≤ c.timestamp.wall →
      c.timestamp.logical ≠ Int32.maxValue) ∧
    (c.timestamp.wall ≤ remote.wall → physicalTime ≤ remote.wall →
      remote.logical ≠ Int32.maxValue)

instance (c : HLC) (call : ClockCall) : Decidable (c.hasRoom call) :=
  match call with
  | .now physicalTime => inferInstanceAs (Decidable (physicalTime ≤ c.timestamp.wall →
      c.timestamp.logical ≠ Int32.maxValue))
  | .update remote physicalTime => inferInstanceAs (Decidable (
      (remote.wall ≤ c.timestamp.wall → physicalTime ≤ c.timestamp.wall →
        c.timestamp.logical ≠ Int32.maxValue) ∧
      (c.timestamp.wall ≤ remote.wall → physicalTime ≤ remote.wall →
        remote.logical ≠ Int32.maxValue)))

def covers (c : HLC) (ts : HLCTimestamp) : Prop :=
  ts.wall.toInt < c.timestamp.wall.toInt ∨
    ts.wall.toInt = c.timestamp.wall.toInt ∧ ts.logical.toInt ≤ c.timestamp.logical.toInt

variable {c : HLC} {ts : HLCTimestamp}

theorem toInt_max (a b : Int64) : (max a b).toInt = max a.toInt b.toInt := by
  change (if a ≤ b then b else a).toInt = _
  simp only [Int64.le_iff_toInt_le]
  split_ifs <;> omega

theorem toInt_max_logical (a b : Int32) : (max a b).toInt = max a.toInt b.toInt := by
  change (if a ≤ b then b else a).toInt = _
  simp only [Int32.le_iff_toInt_le]
  split_ifs <;> omega

theorem toInt_succ {l : Int32} (h : l ≠ Int32.maxValue) : (l + 1).toInt = l.toInt + 1 := by
  have hlow := Int32.le_toInt l
  have hhigh := Int32.toInt_lt l
  have hne : l.toInt ≠ 2 ^ 31 - 1 := by
    rw [← Int32.toInt_maxValue, ne_eq, Int32.toInt_inj]
    exact h
  rw [Int32.toInt_add, Int32.toInt_one]
  rw [Int.bmod_eq_of_le (by omega) (by omega)]

theorem covers.mono {c' : HLC} (hc : c'.covers c.timestamp) (h : c.covers ts) :
    c'.covers ts := by
  unfold covers at *
  omega

theorem now_passes {physicalTime : Int64} (hroom : c.hasRoom (.now physicalTime)) :
    c.timestamp.wall.toInt < (c.now physicalTime).1.wall.toInt ∨
      c.timestamp.wall.toInt = (c.now physicalTime).1.wall.toInt ∧
        c.timestamp.logical.toInt < (c.now physicalTime).1.logical.toInt := by
  simp only [now]
  split_ifs with hwall
  · refine Or.inr ⟨rfl, ?_⟩
    rw [toInt_succ (hroom hwall)]
    omega
  · refine Or.inl ?_
    rw [ge_iff_le, Int64.le_iff_toInt_le] at hwall
    exact not_le.mp hwall

theorem less_now {physicalTime : Int64} (hroom : c.hasRoom (.now physicalTime))
    (h : c.covers ts) : ts.less (c.now physicalTime).1 = true := by
  have hpass := now_passes hroom
  rw [HLCTimestamp.less_iff]
  unfold covers at h
  omega

theorem covers_now (c : HLC) (physicalTime : Int64) :
    (c.now physicalTime).2.covers (c.now physicalTime).1 := Or.inr ⟨rfl, le_rfl⟩

theorem update_passes {remote : HLCTimestamp} {physicalTime : Int64}
    (hroom : c.hasRoom (.update remote physicalTime)) :
    (c.update remote physicalTime).covers c.timestamp ∧
      (c.update remote physicalTime).covers remote := by
  obtain ⟨hown, hremote⟩ := hroom
  simp only [Int64.le_iff_toInt_le] at hown hremote
  have hmax := toInt_max c.timestamp.wall (max remote.wall physicalTime)
  have hlater := toInt_max remote.wall physicalTime
  simp only [update, covers]
  split_ifs with hboth hwall hwall' <;> dsimp only
  · have hw := congrArg Int64.toInt hboth.1
    have hw' := congrArg Int64.toInt hboth.2
    have hcount := toInt_max_logical c.timestamp.logical remote.logical
    have hlogical := hown (by omega) (by omega)
    have hlogical' := hremote (by omega) (by omega)
    have hhigher : max c.timestamp.logical remote.logical ≠ Int32.maxValue := by
      rw [ne_eq, ← Int32.toInt_inj, hcount] at *
      omega
    have hsucc := toInt_succ hhigher
    omega
  · have hw := congrArg Int64.toInt hwall
    have hbelow : remote.wall.toInt ≠ c.timestamp.wall.toInt := by
      intro he
      exact hboth ⟨hwall, hwall.trans (Int64.toInt_inj.mp he).symm⟩
    have hsucc := toInt_succ (hown (by omega) (by omega))
    omega
  · have hw := congrArg Int64.toInt hwall'
    have habove : remote.wall.toInt ≠ c.timestamp.wall.toInt := by
      intro he
      exact hwall (hwall'.trans (Int64.toInt_inj.mp he))
    have hsucc := toInt_succ (hremote (by omega) (by omega))
    omega
  · rw [← Int64.toInt_inj] at hwall hwall'
    omega

theorem covers_call {call : ClockCall} (hroom : c.hasRoom call) :
    (c.call call).covers (c.noted call) ∧ ∀ ts, c.covers ts → (c.call call).covers ts := by
  cases call with
  | now physicalTime =>
    have hpass : (c.now physicalTime).2.covers c.timestamp := by
      rcases now_passes hroom with hwall | ⟨hwall, hlogical⟩
      · exact Or.inl hwall
      · exact Or.inr ⟨hwall, hlogical.le⟩
    exact ⟨c.covers_now physicalTime, fun ts h => covers.mono hpass h⟩
  | update remote physicalTime =>
    obtain ⟨hpass, hnew⟩ := update_passes hroom
    exact ⟨hnew, fun ts h => covers.mono hpass h⟩

def CallStep (c : HLC) (call : ClockCall) (c' : HLC) : Prop := c' = c.call call

theorem covers_of_run {start : HLC} {tr : List (HLC × ClockCall)}
    (hrun : Lib.Run CallStep start tr c) (hroom : ∀ x ∈ tr, x.1.hasRoom x.2) :
    ∀ x ∈ tr, c.covers (x.1.noted x.2) := by
  refine Lib.Run.induct (I := fun tr c => ∀ x ∈ tr, c.covers (x.1.noted x.2)) (G := hasRoom)
    (by simp) ?_ hrun hroom
  rintro tr c call _ - hcovered hroom rfl x hx
  obtain ⟨hnew, hold⟩ := covers_call hroom
  rcases List.mem_cons.mp hx with rfl | hx
  · exact hnew
  · exact hold _ (hcovered x hx)

/-- In a sequence of calls that always have room, what `Now` returns is above all that any
earlier call has returned or received. -/
theorem now_above_all_before {start : HLC} {tr : List (HLC × ClockCall)}
    (hrun : Lib.Run CallStep start tr c) (hroom : ∀ x ∈ tr, x.1.hasRoom x.2) :
    tr.Pairwise fun later earlier => ∀ ts ∈ later.1.returned later.2,
      (earlier.1.noted earlier.2).less ts = true := by
  refine Lib.Run.induct (I := fun tr _ => (∀ x ∈ tr, x.1.hasRoom x.2) → tr.Pairwise _)
    (G := hasRoom) (fun _ => .nil) ?_ hrun hroom hroom
  rintro tr c call _ hrun hordered hnext rfl hroom
  have hbefore := fun x hx => hroom x (List.mem_cons_of_mem _ hx)
  refine List.pairwise_cons.mpr ⟨fun x hx ts hts => ?_, hordered hbefore⟩
  cases call with
  | now physicalTime =>
    obtain rfl := Option.some.inj hts
    exact less_now hnext (covers_of_run hrun hbefore x hx)
  | update remote physicalTime => cases hts

def calls (start : HLC) (cs : List ClockCall) : List (HLC × ClockCall) :=
  Lib.trail HLC.call start cs

theorem run_calls (start : HLC) (cs : List ClockCall) :
    Lib.Run CallStep start (start.calls cs) (cs.foldl HLC.call start) := by
  have hstep : ∀ c call, True → CallStep c call (c.call call) := fun _ _ _ => rfl
  exact Lib.run_trail HLC.call hstep cs fun _ _ => trivial

/-- A clock that is ahead of the wall clock, by a timestamp it has received. -/
theorem now_above_all_before_ahead :
    ((newHLC "alice" 1).calls [.now 2, .update ⟨10, 5, "bob"⟩ 3, .now 2]).Pairwise
      fun later earlier => ∀ ts ∈ later.1.returned later.2,
        (earlier.1.noted earlier.2).less ts = true :=
  now_above_all_before (run_calls _ _) (by decide +kernel)

/-- A remote counter at its highest value makes the clock fall behind that timestamp. -/
theorem counter_wraps :
    Lib.Run CallStep (newHLC "alice" 1)
      ((newHLC "alice" 1).calls [.update ⟨10, Int32.maxValue, "bob"⟩ 5, .now 6])
      ([ClockCall.update ⟨10, Int32.maxValue, "bob"⟩ 5, .now 6].foldl HLC.call
        (newHLC "alice" 1)) ∧
    ¬ ((newHLC "alice" 1).calls [.update ⟨10, Int32.maxValue, "bob"⟩ 5, .now 6]).Pairwise
      fun later earlier => ∀ ts ∈ later.1.returned later.2,
        (earlier.1.noted earlier.2).less ts = true :=
  ⟨run_calls _ _, by decide +kernel⟩

theorem wall_now (c : HLC) (physicalTime : Int64) :
    (c.now physicalTime).2.timestamp.wall.toInt =
      max c.timestamp.wall.toInt physicalTime.toInt := by
  simp only [now]
  split_ifs with hwall <;> rw [ge_iff_le, Int64.le_iff_toInt_le] at hwall <;> dsimp only <;> omega

theorem wall_update (c : HLC) (remote : HLCTimestamp) (physicalTime : Int64) :
    (c.update remote physicalTime).timestamp.wall.toInt =
      max c.timestamp.wall.toInt (max remote.wall.toInt physicalTime.toInt) := by
  have hmax := toInt_max c.timestamp.wall (max remote.wall physicalTime)
  have hlater := toInt_max remote.wall physicalTime
  simp only [update]
  simp only [← Int64.toInt_inj]
  split_ifs with hboth hwall hwall' <;> dsimp only <;> omega

end HLC

/-- What makes a node read the wall clock: gossip, and its own writes and heartbeats. -/
inductive ClockEvent
  | onCommitAd (ad : CommitAdV1) (now physicalTime : Int64)
  | onHeartbeat (hb : HeartbeatV1) (physicalTime : Int64)
  | commit (w : Write)
  | publishHeartbeat (physicalTime : Int64)

structure Clocked where
  node : Node
  reading : Int64

namespace Clocked

def next (s : Clocked) : ClockEvent → Clocked
  | .onCommitAd ad now physicalTime =>
    ⟨s.node.onCommitAd ad now physicalTime, max s.reading (max now physicalTime)⟩
  | .onHeartbeat hb physicalTime =>
    ⟨s.node.onHeartbeat hb physicalTime, max s.reading physicalTime⟩
  | .commit w => ⟨(s.node.commit w).1, max s.reading w.physicalTime⟩
  | .publishHeartbeat physicalTime =>
    ⟨(s.node.publishHeartbeat physicalTime).2, max s.reading physicalTime⟩

def Step (s : Clocked) (e : ClockEvent) (s' : Clocked) : Prop := s' = s.next e

/-- The clock of the node is no further ahead than the configured bound. -/
def bounded (s : Clocked) : Prop :=
  s.node.hlc.timestamp.wall.toInt ≤ s.reading.toInt + s.node.cfg.maxClockSkew.toInt

/-- The check of `onCommitAd`, for heartbeats, which the node takes without it. -/
def withinSkew (s : Clocked) : ClockEvent → Prop
  | .onHeartbeat hb physicalTime =>
    hb.repo = s.node.cfg.repo → hb.peerID ≠ s.node.cfg.signer.getID →
      hb.hlc.wall.toInt ≤ (max s.reading physicalTime).toInt + s.node.cfg.maxClockSkew.toInt
  | _ => True

instance (s : Clocked) : Decidable s.bounded :=
  inferInstanceAs (Decidable (s.node.hlc.timestamp.wall.toInt ≤
    s.reading.toInt + s.node.cfg.maxClockSkew.toInt))

instance (s : Clocked) (e : ClockEvent) : Decidable (s.withinSkew e) :=
  match e with
  | .onHeartbeat hb physicalTime => inferInstanceAs (Decidable (hb.repo = s.node.cfg.repo →
      hb.peerID ≠ s.node.cfg.signer.getID →
        hb.hlc.wall.toInt ≤ (max s.reading physicalTime).toInt + s.node.cfg.maxClockSkew.toInt))
  | .onCommitAd _ _ _ => instDecidableTrue
  | .commit _ => instDecidableTrue
  | .publishHeartbeat _ => instDecidableTrue

def Started (s : Clocked) : Prop := ∃ peerID, s.node.hlc = HLC.newHLC peerID s.reading

variable {s : Clocked}

theorem cfg_next (s : Clocked) (e : ClockEvent) : (s.next e).node.cfg = s.node.cfg := by
  cases e with
  | onCommitAd ad now physicalTime =>
    rcases s.node.onCommitAd_cases ad now physicalTime with heq | heq | ⟨-, -, -, -, heq⟩
    · simp only [next, heq]
    · simp only [next, heq, Node.rejectAd]
    · simp only [next, heq]
  | onHeartbeat hb physicalTime =>
    simp only [next, Node.onHeartbeat]
    split_ifs <;> rfl
  | commit w =>
    simp only [next, Node.commit]
    split_ifs <;> rfl
  | publishHeartbeat physicalTime => rfl

/-- An accepted advertisement is not ahead of the reading by more than the bound, even where
the sum of the two wraps around. -/
theorem wall_of_accepted {now skew wall : Int64} (hskew : 0 < skew)
    (h : ¬ (0 < skew ∧ now + skew < wall)) : wall.toInt ≤ now.toInt + skew.toInt := by
  rw [and_iff_right hskew, Int64.not_lt, Int64.le_iff_toInt_le, Int64.toInt_add] at h
  rw [Int64.lt_iff_toInt_lt, Int64.toInt_zero] at hskew
  have hnow := Int64.le_toInt now
  refine h.trans ?_
  rw [Int.bmod_def]
  split_ifs <;> omega

theorem bounded_onCommitAd (hskew : 0 < s.node.cfg.maxClockSkew) (hs : s.bounded)
    (ad : CommitAdV1) (now physicalTime : Int64) :
    (s.next (.onCommitAd ad now physicalTime)).bounded := by
  have hreading := HLC.toInt_max s.reading (max now physicalTime)
  have hlater := HLC.toInt_max now physicalTime
  unfold bounded at hs ⊢
  rcases s.node.onCommitAd_cases ad now physicalTime with heq | heq | ⟨-, -, -, hnear, heq⟩
  · simp only [next, heq]
    omega
  · simp only [next, heq, Node.rejectAd]
    omega
  · have hwall := wall_of_accepted hskew hnear
    rw [Int64.lt_iff_toInt_lt, Int64.toInt_zero] at hskew
    simp only [next, heq, HLC.wall_update]
    omega

theorem bounded_next (hskew : 0 < s.node.cfg.maxClockSkew) (hs : s.bounded) (e : ClockEvent) :
    (s.next e).bounded ↔ s.withinSkew e := by
  cases e with
  | onCommitAd ad now physicalTime =>
    exact iff_of_true (bounded_onCommitAd hskew hs ad now physicalTime) trivial
  | onHeartbeat hb physicalTime =>
    have hreading := HLC.toInt_max s.reading physicalTime
    rw [Int64.lt_iff_toInt_lt, Int64.toInt_zero] at hskew
    unfold bounded at hs ⊢
    simp only [next, Node.onHeartbeat, withinSkew]
    split_ifs with hrepo hown
    · exact iff_of_true (by omega) fun h => absurd h hrepo
    · exact iff_of_true (by omega) fun _ h => absurd hown h
    · simp only [HLC.wall_update, not_not.mp hrepo, hown, ne_eq, not_false_eq_true, forall_const]
      omega
  | commit w =>
    refine iff_of_true ?_ trivial
    have hreading := HLC.toInt_max s.reading w.physicalTime
    rw [Int64.lt_iff_toInt_lt, Int64.toInt_zero] at hskew
    unfold bounded at hs ⊢
    simp only [next, Node.commit]
    split_ifs <;> simp only [HLC.wall_now] <;> omega
  | publishHeartbeat physicalTime =>
    refine iff_of_true ?_ trivial
    have hreading := HLC.toInt_max s.reading physicalTime
    rw [Int64.lt_iff_toInt_lt, Int64.toInt_zero] at hskew
    unfold bounded at hs ⊢
    simp only [next, Node.publishHeartbeat, HLC.wall_now]
    omega

theorem bounded_started (hskew : 0 < s.node.cfg.maxClockSkew) (hs : s.Started) : s.bounded := by
  obtain ⟨peerID, hclock⟩ := hs
  rw [Int64.lt_iff_toInt_lt, Int64.toInt_zero] at hskew
  simp only [bounded, hclock, HLC.newHLC]
  omega

/-- The clock stays within the bound in all states of a run exactly if every heartbeat that is
taken in the run is within it. -/
theorem clock_bounded_iff {start : Clocked} (hstart : start.Started)
    (hskew : 0 < start.node.cfg.maxClockSkew) {tr : List (Clocked × ClockEvent)}
    (hrun : Lib.Run Step start tr s) :
    (∀ t ∈ Lib.visited tr s, t.bounded) ↔ ∀ x ∈ tr, x.1.withinSkew x.2 := by
  suffices h : s.node.cfg = start.node.cfg ∧
      ((∀ t ∈ Lib.visited tr s, t.bounded) ↔ ∀ x ∈ tr, x.1.withinSkew x.2) from h.2
  induction hrun with
  | nil => exact ⟨rfl, by simp [Lib.visited, bounded_started hskew hstart]⟩
  | @snoc tr s e s' _ hstep ih =>
    obtain ⟨hcfg, hbefore⟩ := ih
    obtain rfl : s' = s.next e := hstep
    refine ⟨(cfg_next s e).trans hcfg, ?_⟩
    have hvisited : (∀ t ∈ Lib.visited ((s, e) :: tr) (s.next e), t.bounded) ↔
        (s.next e).bounded ∧ ∀ t ∈ Lib.visited tr s, t.bounded := by
      simp [Lib.visited]
    have hnext : (∀ t ∈ Lib.visited tr s, t.bounded) →
        ((s.next e).bounded ↔ s.withinSkew e) := fun hall =>
      bounded_next (hcfg ▸ hskew) (hall s List.mem_cons_self) e
    rw [hvisited, List.forall_mem_cons, ← hbefore]
    exact and_congr_left hnext

def aliceClock : Clocked := ⟨aliceStarts.node, 1⟩

theorem started_aliceClock : aliceClock.Started := ⟨"alice", rfl⟩

def heardThenWritten (wall : Int64) : List ClockEvent :=
  [.onHeartbeat ⟨⟨"org", "repo"⟩, ⟨wall, 0, "bob"⟩, "bob"⟩ 2, .commit aliceWrites]

theorem run_aliceClock (events : List ClockEvent) :
    Lib.Run Step aliceClock (Lib.trail next aliceClock events)
      (events.foldl next aliceClock) := by
  have hstep : ∀ s e, True → Step s e (s.next e) := fun _ _ _ => rfl
  exact Lib.run_trail next hstep events fun _ _ => trivial

theorem clock_bounded_iff_alice :
    ((heardThenWritten 5000000002).foldl next aliceClock).bounded :=
  (clock_bounded_iff started_aliceClock (by decide +kernel) (run_aliceClock _)).mpr
    (by decide +kernel) _ List.mem_cons_self

/-- One heartbeat moves the clock, and with it the next commit, ahead of the bound. -/
theorem heartbeat_poisons_clock :
    (aliceClock.Started ∧ 0 < aliceClock.node.cfg.maxClockSkew ∧
      Lib.Run Step aliceClock (Lib.trail next aliceClock (heardThenWritten 9000000000))
        ((heardThenWritten 9000000000).foldl next aliceClock)) ∧
    ¬ ((heardThenWritten 9000000000).foldl next aliceClock).bounded :=
  ⟨⟨started_aliceClock, by decide +kernel, run_aliceClock _⟩, by decide +kernel⟩

end Clocked

end DoltSwarm.Core
