import DoltSwarm.Core.AdDelivery
import DoltSwarm.Lib.Channel

/-!
# The event loop of a node (core/node.go, `Run`)

`Run` starts one goroutine that reads the gossip subscription and one that runs the sync passes,
and then serves tickers and messages itself. The three meet at channels: up to 256 messages wait to
be handled and further ones are dropped; one request for a sync pass waits and further ones are
dropped too. A step below is one turn of one of them, of the environment, or a call of `Commit` or
`SyncHint` from outside, and any order of them is allowed. A pass takes effect when it ends.
-/

namespace DoltSwarm.Core

set_option autoImplicit false

open Lib.Channel (offer Accounts)

/-- A message as `Next` returns it, with the advertisement parsed; its sender is only logged. -/
structure LoopEvent where
  commitAd : Option CommitAdV1
  heartbeat : Option HeartbeatV1

inductive RunError
  | ctx
  | subscription
  deriving DecidableEq, Repr

/-- `reading`, `passing`: the goroutines have not ended. `subErr`, `syncLoopErr`: what they leave in
their channels when they end is there. -/
structure Loop where
  node : Node
  events : List LoopEvent
  trigger : List Unit
  reading : Bool
  subErr : Bool
  passing : Bool
  syncing : Bool
  syncLoopErr : Bool
  cancelled : Bool
  returned : Option RunError

inductive LoopLabel
  | received (evt : LoopEvent)
  | nextFailed
  | startSync
  | finishSync (f : Fetch)
  | stopSync
  | takeDone
  | takeSubErr
  | takeSyncLoopErr
  | heartbeatTick (physicalTime : Int64)
  | repairTick
  | takeEvent (now physicalTime : Int64)
  | cancel
  | commit (w : Write) (log : RangeOrder Commit) (readFails : Bool)
  | syncHint (f : Fetch)

/-- `onCommitAd` ends with a request for a sync pass. -/
def Node.requestsSync (n : Node) (ad : CommitAdV1) (now : Int64) : Bool :=
  if ad.repo ≠ n.cfg.repo then false
  else if n.idx.decided ad.hlc then false
  else if ad.hlc.peerID = n.cfg.signer.getID then false
  else if 0 < n.cfg.maxClockSkew ∧ now + n.cfg.maxClockSkew < ad.hlc.wall then false
  else
    match parseCommitMetadata ad.metadataJSON with
    | none => false
    | some metadata =>
      if metadata.kind ≠ commitKindUser then false
      else if !metadata.hlc.equal ad.hlc then false
      else if ad.metadataSig ≠ "" ∧ metadata.signature ≠ ad.metadataSig then false
      else n.cfg.verified ad.hlc.peerID metadata

namespace Loop

/-- The state in which `Run` enters its loop. -/
def run (n : Node) (readFails : Bool) : Loop :=
  ⟨n.rebuild readFails, [], [], true, false, true, false, false, false, none⟩

def requestSync (s : Loop) : Loop := { s with trigger := offer 1 s.trigger () }

def onCommitAd (s : Loop) (ad : CommitAdV1) (now physicalTime : Int64) : Loop :=
  let s' := { s with node := s.node.onCommitAd ad now physicalTime }
  if s.node.requestsSync ad now then s'.requestSync else s'

def onHeartbeat (s : Loop) (hb : HeartbeatV1) (physicalTime : Int64) : Loop :=
  { s with node := s.node.onHeartbeat hb physicalTime }

def onEvent (s : Loop) (evt : LoopEvent) (now physicalTime : Int64) : Loop :=
  let s := match evt.commitAd with
    | some ad => s.onCommitAd ad now physicalTime
    | none => s
  match evt.heartbeat with
  | some hb => s.onHeartbeat hb physicalTime
  | none => s

/-- `Commit`, or `ExecAndCommit`. -/
def commit (s : Loop) (w : Write) (log : RangeOrder Commit) (readFails : Bool) : Loop :=
  match s.node.commit w with
  | (n, none) => { s with node := n }
  | (n, some commitHash) => { s with node := n.publishLocalCommitAd commitHash log readFails }

/-- `none`: the step cannot be taken. -/
def next (s : Loop) : LoopLabel → Option Loop
  | .received evt => if s.reading then some { s with events := offer 256 s.events evt } else none
  | .nextFailed => if s.reading then some { s with reading := false, subErr := true } else none
  | .startSync =>
    if s.passing ∧ s.syncing = false then
      match s.trigger with
      | [] => none
      | _ :: rest => some { s with trigger := rest, syncing := true }
    else none
  | .finishSync f =>
    if s.syncing then some { s with syncing := false, node := s.node.syncOnce f } else none
  | .stopSync =>
    if s.passing ∧ s.syncing = false ∧ s.cancelled then
      some { s with passing := false, syncLoopErr := true }
    else none
  | .takeDone =>
    if s.returned = none ∧ s.cancelled then some { s with returned := some .ctx } else none
  | .takeSubErr =>
    if s.returned = none ∧ s.subErr then
      some { s with subErr := false, returned := some .subscription }
    else none
  | .takeSyncLoopErr =>
    if s.returned = none ∧ s.syncLoopErr then
      some { s with syncLoopErr := false, returned := some .ctx }
    else none
  | .heartbeatTick physicalTime =>
    if s.returned = none then
      some { s with node := (s.node.publishHeartbeat physicalTime).2.tryFinalize }
    else none
  | .repairTick => if s.returned = none then some s.requestSync else none
  | .takeEvent now physicalTime =>
    if s.returned = none then
      match s.events with
      | [] => none
      | evt :: rest => some ({ s with events := rest }.onEvent evt now physicalTime)
    else none
  | .cancel => some { s with cancelled := true }
  | .commit w log readFails => some (s.commit w log readFails)
  | .syncHint f => some { s with node := s.node.syncOnce f }

def Step (s : Loop) (a : LoopLabel) (s' : Loop) : Prop := s.next a = some s'

end Loop

/-! ## What the handlers leave alone -/

namespace Loop

variable {s s' : Loop} {a : LoopLabel}

structure Beside (s s' : Loop) : Prop where
  events : s'.events = s.events
  reading : s'.reading = s.reading
  subErr : s'.subErr = s.subErr
  passing : s'.passing = s.passing
  syncing : s'.syncing = s.syncing
  syncLoopErr : s'.syncLoopErr = s.syncLoopErr
  cancelled : s'.cancelled = s.cancelled
  returned : s'.returned = s.returned

theorem beside_onCommitAd (s : Loop) (ad : CommitAdV1) (now physicalTime : Int64) :
    Beside s (s.onCommitAd ad now physicalTime) := by
  unfold onCommitAd
  split_ifs <;> exact ⟨rfl, rfl, rfl, rfl, rfl, rfl, rfl, rfl⟩

theorem beside_onEvent (s : Loop) (evt : LoopEvent) (now physicalTime : Int64) :
    Beside s (s.onEvent evt now physicalTime) := by
  unfold onEvent
  cases evt.commitAd with
  | none => cases evt.heartbeat <;> exact ⟨rfl, rfl, rfl, rfl, rfl, rfl, rfl, rfl⟩
  | some ad =>
    have had := beside_onCommitAd s ad now physicalTime
    cases evt.heartbeat with
    | none => exact had
    | some hb =>
      exact ⟨had.events, had.reading, had.subErr, had.passing, had.syncing, had.syncLoopErr,
        had.cancelled, had.returned⟩

theorem beside_commit (s : Loop) (w : Write) (log : RangeOrder Commit) (readFails : Bool) :
    Beside s (s.commit w log readFails) ∧ (s.commit w log readFails).trigger = s.trigger := by
  unfold commit
  split <;> exact ⟨⟨rfl, rfl, rfl, rfl, rfl, rfl, rfl, rfl⟩, rfl⟩

def requests (s : Loop) : LoopLabel → Bool
  | .repairTick => true
  | .takeEvent now _ =>
    match s.events with
    | [] => false
    | evt :: _ => evt.commitAd.any fun ad => s.node.requestsSync ad now
  | _ => false

theorem trigger_onEvent (s : Loop) (evt : LoopEvent) (now physicalTime : Int64) :
    (s.onEvent evt now physicalTime).trigger =
      if evt.commitAd.any fun ad => s.node.requestsSync ad now then offer 1 s.trigger ()
      else s.trigger := by
  have hbeat : ∀ t : Loop, (match evt.heartbeat with
      | some hb => t.onHeartbeat hb physicalTime
      | none => t).trigger = t.trigger := by
    intro t
    cases evt.heartbeat <;> rfl
  rw [onEvent, hbeat]
  cases evt.commitAd with
  | none => rfl
  | some ad =>
    simp only [onCommitAd, Option.any_some]
    split_ifs <;> rfl

def eventsAfter (s : Loop) : LoopLabel → List LoopEvent
  | .received evt => offer 256 s.events evt
  | .takeEvent _ _ => s.events.tail
  | _ => s.events

def triggerAfter (s : Loop) (a : LoopLabel) : List Unit :=
  match a with
  | .startSync => s.trigger.tail
  | a => if s.requests a then offer 1 s.trigger () else s.trigger

def syncingAfter (s : Loop) : LoopLabel → Bool
  | .startSync => true
  | .finishSync _ => false
  | _ => s.syncing

def readingAfter (s : Loop) : LoopLabel → Bool
  | .nextFailed => false
  | _ => s.reading

def subErrAfter (s : Loop) : LoopLabel → Bool
  | .nextFailed => true
  | .takeSubErr => false
  | _ => s.subErr

def syncLoopErrAfter (s : Loop) : LoopLabel → Bool
  | .stopSync => true
  | .takeSyncLoopErr => false
  | _ => s.syncLoopErr

def cancelledAfter (s : Loop) : LoopLabel → Bool
  | .cancel => true
  | _ => s.cancelled

def returnedAfter (s : Loop) : LoopLabel → Option RunError
  | .takeDone | .takeSyncLoopErr => some .ctx
  | .takeSubErr => some .subscription
  | _ => s.returned

structure Effect (s : Loop) (a : LoopLabel) (s' : Loop) : Prop where
  events : s'.events = s.eventsAfter a
  trigger : s'.trigger = s.triggerAfter a
  syncing : s'.syncing = s.syncingAfter a
  reading : s'.reading = s.readingAfter a
  subErr : s'.subErr = s.subErrAfter a
  syncLoopErr : s'.syncLoopErr = s.syncLoopErrAfter a
  cancelled : s'.cancelled = s.cancelledAfter a
  returned : s'.returned = s.returnedAfter a

theorem effect_of_step (h : Step s a s') : Effect s a s' := by
  cases a with
  | received | nextFailed | finishSync | stopSync | takeDone | takeSubErr | takeSyncLoopErr
  | heartbeatTick | repairTick =>
    simp only [Step, next, Option.ite_none_right_eq_some, Option.some.injEq] at h
    obtain ⟨-, rfl⟩ := h
    exact ⟨rfl, rfl, rfl, rfl, rfl, rfl, rfl, rfl⟩
  | startSync =>
    simp only [Step, next, Option.ite_none_right_eq_some] at h
    obtain ⟨-, h⟩ := h
    cases htrigger : s.trigger with
    | nil => simp [htrigger] at h
    | cons u rest =>
      simp only [htrigger, Option.some.injEq] at h
      subst h
      exact ⟨rfl, by rw [triggerAfter, htrigger]; rfl, rfl, rfl, rfl, rfl, rfl, rfl⟩
  | takeEvent now physicalTime =>
    simp only [Step, next, Option.ite_none_right_eq_some] at h
    obtain ⟨-, h⟩ := h
    cases hevents : s.events with
    | nil => simp [hevents] at h
    | cons evt rest =>
      simp only [hevents, Option.some.injEq] at h
      subst h
      have hbeside := beside_onEvent { s with events := rest } evt now physicalTime
      have htrigger := trigger_onEvent { s with events := rest } evt now physicalTime
      refine ⟨by rw [eventsAfter, hevents]; exact hbeside.events, ?_, hbeside.syncing,
        hbeside.reading, hbeside.subErr, hbeside.syncLoopErr, hbeside.cancelled, hbeside.returned⟩
      simp only [triggerAfter, requests, hevents]
      exact htrigger
  | cancel | syncHint =>
    simp only [Step, next, Option.some.injEq] at h
    subst h
    exact ⟨rfl, rfl, rfl, rfl, rfl, rfl, rfl, rfl⟩
  | commit w log readFails =>
    simp only [Step, next, Option.some.injEq] at h
    subst h
    obtain ⟨hbeside, htrigger⟩ := beside_commit s w log readFails
    exact ⟨hbeside.events, htrigger, hbeside.syncing, hbeside.reading, hbeside.subErr,
      hbeside.syncLoopErr, hbeside.cancelled, hbeside.returned⟩

theorem trigger_of_step (h : Step s a s') :
    (a = .startSync ∧ s'.trigger = s.trigger.tail) ∨
    (a ≠ .startSync ∧ s'.trigger = if s.requests a then offer 1 s.trigger () else s.trigger) := by
  have htrigger := (effect_of_step h).trigger
  cases a with
  | startSync => exact Or.inl ⟨rfl, htrigger⟩
  | _ => exact Or.inr ⟨nofun, htrigger⟩

end Loop

/-! ## Messages -/

namespace Loop

variable {s s' start : Loop} {a : LoopLabel} {tr : List (Loop × LoopLabel)}

def received? (x : Loop × LoopLabel) : Option LoopEvent :=
  match x.2 with
  | .received evt => some evt
  | _ => none

def taken? (x : Loop × LoopLabel) : Option LoopEvent :=
  match x.2 with
  | .takeEvent _ _ => x.1.events.head?
  | _ => none

def arrivals (tr : List (Loop × LoopLabel)) : List LoopEvent := Lib.outputs received? tr

def handled (tr : List (Loop × LoopLabel)) : List LoopEvent := Lib.outputs taken? tr

theorem messages_of_step (h : Step s a s') :
    (∃ evt, received? (s, a) = some evt ∧ taken? (s, a) = none ∧
      s'.events = offer 256 s.events evt) ∨
    (received? (s, a) = none ∧ s.events = (taken? (s, a)).toList ++ s'.events) := by
  have hevents := (effect_of_step h).events
  cases a with
  | received evt => exact Or.inl ⟨evt, rfl, rfl, hevents⟩
  | takeEvent now physicalTime =>
    refine Or.inr ⟨rfl, ?_⟩
    rw [hevents, eventsAfter]
    cases hs : s.events <;> simp [taken?, hs]
  | _ => exact Or.inr ⟨rfl, by rw [hevents]; rfl⟩

theorem accounts_step {sent taken : List LoopEvent} (hacc : Accounts 256 sent taken s.events)
    (h : Step s a s') :
    Accounts 256 (sent ++ (received? (s, a)).toList) (taken ++ (taken? (s, a)).toList)
      s'.events := by
  obtain ⟨evt, hreceived, htaken, hevents⟩ | ⟨hreceived, hevents⟩ := messages_of_step h
  · rw [hreceived, htaken, hevents, Option.toList_none, List.append_nil]
    exact hacc.offer evt
  · rw [hreceived, Option.toList_none, List.append_nil]
    cases htaken : taken? (s, a) with
    | none =>
      rw [htaken] at hevents
      rw [Option.toList_none, List.append_nil, show s'.events = s.events from hevents.symm]
      exact hacc
    | some evt =>
      rw [htaken] at hevents
      rw [show s.events = evt :: s'.events from hevents] at hacc
      exact hacc.take

theorem accounts_of_run {n : Node} {readFails : Bool} (h : Lib.Run Step (run n readFails) tr s) :
    Accounts 256 (arrivals tr) (handled tr) s.events := by
  induction h with
  | nil => exact Lib.Channel.accounts_nil 256
  | snoc _ hs ih =>
    rw [arrivals, handled, Lib.outputs_cons, Lib.outputs_cons]
    exact accounts_step ih hs

/-- The messages that are handled are among those that came in, once each and in that order, and
at most 256 wait. None is lost as long as no message comes in while 256 are waiting. -/
theorem messages_are_handled_in_order {n : Node} {readFails : Bool}
    (h : Lib.Run Step (run n readFails) tr s) :
    Accounts 256 (arrivals tr) (handled tr) s.events ∧
    ((∀ x ∈ tr, (received? x).isSome = true → x.1.events.length < 256) →
      handled tr ++ s.events = arrivals tr) := by
  refine ⟨accounts_of_run h, fun hroom => ?_⟩
  refine h.induct (I := fun tr s => handled tr ++ s.events = arrivals tr)
    (G := fun t a => (received? (t, a)).isSome = true → t.events.length < 256) rfl ?_ hroom
  intro tr t a t' _ ih hG hs
  rw [arrivals, handled] at ih ⊢
  rw [Lib.outputs_cons, Lib.outputs_cons, ← ih, List.append_assoc, List.append_assoc]
  obtain ⟨evt, hreceived, htaken, hevents⟩ | ⟨hreceived, hevents⟩ := messages_of_step hs
  · have hlt : t.events.length < 256 := hG (by rw [hreceived]; rfl)
    rw [hreceived, htaken, hevents, Lib.Channel.offer_of_room hlt]
    rfl
  · rw [hreceived, Option.toList_none, List.append_nil, ← hevents]

theorem received?_of_not_reading (hreading : s.reading = false) (h : Step s a s') :
    received? (s, a) = none := by
  cases a with
  | received evt =>
    obtain ⟨hread, -⟩ := Option.ite_none_right_eq_some.mp h
    rw [hreading] at hread
    cases hread
  | _ => rfl

theorem reading_of_not_reading (hreading : s.reading = false) (h : Step s a s') :
    s'.reading = false := by
  have hafter := (effect_of_step h).reading
  cases a with
  | nextFailed => exact hafter
  | _ => exact hafter.trans hreading

theorem handled_of_not_reading (h : Lib.Run Step start tr s) (hreading : start.reading = false) :
    s.reading = false ∧ arrivals tr = [] ∧ handled tr ++ s.events = start.events := by
  induction h with
  | nil => exact ⟨hreading, rfl, rfl⟩
  | @snoc tr t a t' _ hs ih =>
    obtain ⟨hread, harrivals, hhandled⟩ := ih
    have hnone := received?_of_not_reading hread hs
    rw [arrivals] at harrivals
    rw [handled] at hhandled
    refine ⟨reading_of_not_reading hread hs, ?_, ?_⟩
    · rw [arrivals, Lib.outputs_cons, harrivals, hnone]
      rfl
    · obtain ⟨evt, hreceived, -⟩ | ⟨-, hevents⟩ := messages_of_step hs
      · rw [hnone] at hreceived
        cases hreceived
      · rw [handled, Lib.outputs_cons, List.append_assoc, ← hevents, hhandled]

/-- When `Next` has failed, what is waiting then is all that will ever be handled. -/
theorem failed_next_ends_gossip {n : Node} {readFails : Bool} {later earlier : List _} {t : Loop}
    (h : Lib.Run Step (run n readFails) (later ++ (t, .nextFailed) :: earlier) s) :
    t.events.length ≤ 256 ∧ arrivals later = [] ∧ handled later ++ s.events = t.events := by
  obtain ⟨t', hearlier, hfail, hlater⟩ := h.split
  have hsame : t'.events = t.events := (effect_of_step hfail).events
  obtain ⟨-, harrivals, hhandled⟩ := handled_of_not_reading hlater (effect_of_step hfail).reading
  exact ⟨(accounts_of_run hearlier).room, harrivals, hhandled.trans hsame⟩

def bobsMessage : LoopEvent :=
  ⟨some ⟨⟨"org", "repo"⟩, ⟨3, 0, "bob"⟩, .json (written "bob" 3), "signed"⟩, none⟩

def started : Loop := run trustingNode false

def withMessage : Loop := { started with events := [bobsMessage] }

def afterBob : Loop := { withMessage with events := [] }.onEvent bobsMessage 6 6

def withoutReader : Loop := { withMessage with reading := false, subErr := true }

theorem run_withMessage :
    Lib.Run Step started [(started, .received bobsMessage)] withMessage := Lib.Run.nil.snoc rfl

theorem run_afterBob : Lib.Run Step started
    [(withMessage, .takeEvent 6 6), (started, .received bobsMessage)] afterBob :=
  run_withMessage.snoc rfl

theorem messages_are_handled_in_order_of_bob :
    handled [(withMessage, .takeEvent 6 6), (started, .received bobsMessage)] = [bobsMessage] ∧
    Accounts 256 (arrivals [(withMessage, .takeEvent 6 6), (started, .received bobsMessage)])
      [bobsMessage] afterBob.events :=
  ⟨rfl, (messages_are_handled_in_order run_afterBob).1⟩

theorem failed_next_ends_gossip_of_bob :
    arrivals [(withoutReader, .takeEvent 6 6)] = [] ∧
      handled [(withoutReader, .takeEvent 6 6)] = [bobsMessage] := by
  have hfailed : Lib.Run Step started
      [(withMessage, .nextFailed), (started, .received bobsMessage)] withoutReader :=
    run_withMessage.snoc rfl
  have hrun : Lib.Run Step started ([(withoutReader, .takeEvent 6 6)] ++
      (withMessage, .nextFailed) :: [(started, .received bobsMessage)])
      ({ withoutReader with events := [] }.onEvent bobsMessage 6 6) := hfailed.snoc rfl
  exact ⟨(failed_next_ends_gossip hrun).2.1, rfl⟩

end Loop

/-! ## Requests for a sync pass -/

namespace Loop

variable {s s' t : Loop} {a : LoopLabel} {later : List (Loop × LoopLabel)}

/-- What has become of a request made before the steps `later`: it waits, a pass that began since
then is running, or one that began since then has ended. -/
inductive Served (later : List (Loop × LoopLabel)) (s : Loop) : Prop
  | waiting : s.trigger ≠ [] → Served later s
  | running : s.syncing = true → (∃ x ∈ later, x.2 = .startSync) → Served later s
  | ended (rest before : List (Loop × LoopLabel)) (t : Loop) (f : Fetch) :
      later = rest ++ (t, .finishSync f) :: before → (∃ x ∈ before, x.2 = .startSync) →
      Served later s

theorem Served.step (hserved : Served later s) (h : Step s a s') :
    Served ((s, a) :: later) s' := by
  have heffect := effect_of_step h
  cases hserved with
  | waiting htrigger =>
    obtain ⟨rfl, -⟩ | ⟨-, hafter⟩ := trigger_of_step h
    · exact .running heffect.syncing ⟨_, List.mem_cons_self, rfl⟩
    · refine .waiting ?_
      rw [hafter]
      split_ifs
      · exact Lib.Channel.offer_ne_nil Nat.one_pos _ _
      · exact htrigger
  | running hsyncing hstart =>
    obtain ⟨x, hx, hlabel⟩ := hstart
    have hafter := heffect.syncing
    cases a with
    | finishSync f => exact .ended [] later s f rfl ⟨x, hx, hlabel⟩
    | startSync => exact .running hafter ⟨x, List.mem_cons_of_mem _ hx, hlabel⟩
    | _ => exact .running (hafter.trans hsyncing) ⟨x, List.mem_cons_of_mem _ hx, hlabel⟩
  | ended rest before t f hlater hstart =>
    exact .ended ((s, a) :: rest) before t f (by rw [hlater]; rfl) hstart

theorem served_of_run (h : Lib.Run Step t later s) (htrigger : t.trigger ≠ []) :
    Served later s := by
  induction h with
  | nil => exact .waiting htrigger
  | snoc _ hs ih => exact ih.step hs

end Loop

theorem addsNoPending_onCommitAd {n : Node} {ad : CommitAdV1} {now : Int64}
    (hrequests : n.requestsSync ad now = false) (physicalTime : Int64) :
    addsNoPending n.idx (n.onCommitAd ad now physicalTime).idx := by
  have hreject : addsNoPending n.idx (n.rejectAd ad).idx := addsNoPending_upsert _ (by simp)
  have hkeep := addsNoPending_refl n.idx
  unfold Node.requestsSync at hrequests
  unfold Node.onCommitAd
  split_ifs at hrequests ⊢
  · exact hkeep
  · exact hkeep
  · exact hkeep
  · exact hreject
  cases hparse : parseCommitMetadata ad.metadataJSON with
  | none => exact hkeep
  | some m =>
    simp only [hparse] at hrequests ⊢
    split_ifs at hrequests ⊢ with hkind hhlc hsig hverified
    · exact hkeep
    · exact hreject
    · exact hreject
    · exact hreject
    · rw [hrequests] at hverified
      exact absurd rfl hverified

namespace Loop

variable {s s' t : Loop} {a : LoopLabel}

theorem addsNoPending_onHeartbeat (n : Node) (hb : HeartbeatV1) (physicalTime : Int64) :
    addsNoPending n.idx (n.onHeartbeat hb physicalTime).idx := by
  unfold Node.onHeartbeat
  split_ifs <;> exact addsNoPending_refl _

theorem addsNoPending_onEvent {evt : LoopEvent} {now : Int64}
    (hrequests : (evt.commitAd.any fun ad => s.node.requestsSync ad now) = false)
    (physicalTime : Int64) :
    addsNoPending s.node.idx (s.onEvent evt now physicalTime).node.idx := by
  have hbeat : ∀ u : Loop, addsNoPending u.node.idx (match evt.heartbeat with
      | some hb => u.onHeartbeat hb physicalTime
      | none => u).node.idx := by
    intro u
    cases evt.heartbeat with
    | none => exact addsNoPending_refl _
    | some hb => exact addsNoPending_onHeartbeat u.node hb physicalTime
  rw [onEvent]
  refine addsNoPending.trans ?_ (hbeat _)
  cases had : evt.commitAd with
  | none => exact addsNoPending_refl _
  | some ad =>
    rw [had, Option.any_some] at hrequests
    simp only [onCommitAd, hrequests, Bool.false_eq_true, if_false]
    exact addsNoPending_onCommitAd hrequests physicalTime

theorem addsNoPending_commit (s : Loop) (w : Write) (log : RangeOrder Commit) (readFails : Bool) :
    addsNoPending s.node.idx (s.commit w log readFails).node.idx := by
  have hidx : (s.node.commit w).1.idx = s.node.idx := by
    unfold Node.commit
    split_ifs <;> rfl
  unfold commit
  rw [← hidx]
  split
  · next n hcommit =>
    rw [hcommit]
    exact addsNoPending_refl _
  · next n commitHash hcommit =>
    rw [hcommit]
    exact addsNoPending_publishLocalCommitAd n commitHash log readFails

/-- Whatever adds a pending entry asks for a pass. -/
theorem addsNoPending_of_step (h : Step s a s') (hrequests : s.requests a = false) :
    addsNoPending s.node.idx s'.node.idx := by
  cases a with
  | received | nextFailed | stopSync | takeDone | takeSubErr | takeSyncLoopErr =>
    simp only [Step, next, Option.ite_none_right_eq_some, Option.some.injEq] at h
    obtain ⟨-, rfl⟩ := h
    exact addsNoPending_refl _
  | repairTick => cases hrequests
  | heartbeatTick physicalTime =>
    simp only [Step, next, Option.ite_none_right_eq_some, Option.some.injEq] at h
    obtain ⟨-, rfl⟩ := h
    exact addsNoPending_tryFinalize (s.node.publishHeartbeat physicalTime).2
  | finishSync f =>
    simp only [Step, next, Option.ite_none_right_eq_some, Option.some.injEq] at h
    obtain ⟨-, rfl⟩ := h
    exact addsNoPending_syncOnce s.node f
  | startSync =>
    simp only [Step, next, Option.ite_none_right_eq_some] at h
    obtain ⟨-, h⟩ := h
    split at h
    · cases h
    · obtain rfl := Option.some.inj h
      exact addsNoPending_refl _
  | takeEvent now physicalTime =>
    simp only [Step, next, Option.ite_none_right_eq_some] at h
    obtain ⟨-, h⟩ := h
    cases hevents : s.events with
    | nil => simp [hevents] at h
    | cons evt rest =>
      simp only [hevents, Option.some.injEq] at h
      simp only [requests, hevents] at hrequests
      subst h
      exact addsNoPending_onEvent (s := { s with events := rest }) hrequests physicalTime
  | cancel =>
    obtain rfl := Option.some.inj h
    exact addsNoPending_refl _
  | syncHint f =>
    obtain rfl := Option.some.inj h
    exact addsNoPending_syncOnce s.node f
  | commit w log readFails =>
    obtain rfl := Option.some.inj h
    exact addsNoPending_commit s w log readFails

/-- Every repair tick, and every advertisement that becomes pending, gets a pass that begins after
it: the request waits, or such a pass is running, or one has ended. -/
theorem pending_entries_get_a_pass {n : Node} {readFails : Bool}
    {later earlier : List (Loop × LoopLabel)} {t' : Loop}
    (h : Lib.Run Step (run n readFails) (later ++ (t, a) :: earlier) s) (ht : t.next a = some t')
    (hrequests : a = .repairTick ∨ ¬ addsNoPending t.node.idx t'.node.idx) : Served later s := by
  obtain ⟨u, -, hstep, hlater⟩ := h.split
  obtain rfl : u = t' := Option.some.inj (hstep.symm.trans ht)
  have hrequest : t.requests a = true := by
    obtain rfl | hnew := hrequests
    · rfl
    · by_contra hnone
      exact hnew (addsNoPending_of_step hstep (Bool.not_eq_true _ ▸ hnone))
  apply served_of_run hlater
  obtain ⟨hstart, -⟩ | ⟨-, htrigger⟩ := trigger_of_step hstep
  · obtain rfl : a = .startSync := hstart
    cases hrequest
  · rw [htrigger, if_pos hrequest]
    exact Lib.Channel.offer_ne_nil Nat.one_pos _ _

def bobsPass : Loop := { afterBob with trigger := [], syncing := true }

def afterPass : Loop :=
  { bobsPass with syncing := false, node := bobsPass.node.syncOnce bobIsFetched }

theorem run_afterPass : Lib.Run Step started ([(bobsPass, .finishSync bobIsFetched),
    (afterBob, .startSync)] ++ (withMessage, .takeEvent 6 6) :: [(started, .received bobsMessage)])
      afterPass := by
  have htrigger : afterBob.trigger = [()] := by decide +kernel
  have hstart : Step afterBob .startSync bobsPass := by
    rw [Step, next, if_pos ⟨rfl, rfl⟩, htrigger]
    rfl
  exact (run_afterBob.snoc hstart).snoc rfl

theorem pending_entries_get_a_pass_for_bob :
    afterBob.node.idx.get ⟨3, 0, "bob"⟩ = some ⟨⟨3, 0, "bob"⟩, "", .pending⟩ ∧
      afterPass.trigger = [] ∧ afterPass.syncing = false ∧
      Served [(bobsPass, .finishSync bobIsFetched), (afterBob, .startSync)] afterPass := by
  have hpending : afterBob.node.idx.get ⟨3, 0, "bob"⟩ =
      some ⟨⟨3, 0, "bob"⟩, "", .pending⟩ := by decide +kernel
  have hold : withMessage.node.idx.get ⟨3, 0, "bob"⟩ = none := by decide +kernel
  refine ⟨hpending, rfl, rfl, pending_entries_get_a_pass run_afterPass rfl (Or.inr ?_)⟩
  intro hadds
  rw [hadds _ _ hpending rfl] at hold
  cases hold

end Loop

/-! ## After `Run` has returned -/

namespace Loop

variable {s s' t : Loop} {a : LoopLabel} {tr : List (Loop × LoopLabel)}

def mainLoop : LoopLabel → Bool
  | .takeDone | .takeSubErr | .takeSyncLoopErr | .heartbeatTick _ | .repairTick
  | .takeEvent _ _ => true
  | _ => false

def pass? (x : Loop × LoopLabel) : Option Fetch :=
  match x.2 with
  | .finishSync f => some f
  | _ => none

def passes (tr : List (Loop × LoopLabel)) : List Fetch := Lib.outputs pass? tr

/-- The passes that are still to come if nobody asks for more. -/
def owed (s : Loop) : ℕ := s.trigger.length + s.syncing.toNat

theorem mainLoop_of_returned (hreturned : s.returned ≠ none) (h : Step s a s') :
    mainLoop a = false := by
  cases a with
  | takeDone | takeSubErr | takeSyncLoopErr | heartbeatTick | repairTick | takeEvent =>
    simp [Step, next, hreturned] at h
  | _ => rfl

theorem returned_of_mainLoop (hmain : mainLoop a = false) (h : Step s a s') :
    s'.returned = s.returned ∧ s.requests a = false := by
  have hafter := (effect_of_step h).returned
  cases a with
  | takeDone | takeSubErr | takeSyncLoopErr | heartbeatTick | repairTick | takeEvent => cases hmain
  | _ => exact ⟨hafter, rfl⟩

/-- Without the loop of `Run`, a pass that ends was owed. -/
theorem owed_of_step (hmain : mainLoop a = false) (h : Step s a s') :
    s'.owed + (pass? (s, a)).toList.length = s.owed := by
  have hsyncing := (effect_of_step h).syncing
  have hrequests := (returned_of_mainLoop hmain h).2
  obtain ⟨rfl, htrigger⟩ | ⟨hother, htrigger⟩ := trigger_of_step h
  · simp only [Step, next, Option.ite_none_right_eq_some] at h
    obtain ⟨⟨-, hidle⟩, h⟩ := h
    cases hs : s.trigger with
    | nil => simp [hs] at h
    | cons u rest =>
      rw [owed, owed, htrigger, hsyncing, hidle, hs]
      rfl
  · rw [hrequests, if_neg Bool.false_ne_true] at htrigger
    rw [owed, owed, htrigger, hsyncing]
    cases a with
    | startSync => exact absurd rfl hother
    | finishSync f =>
      obtain ⟨hbusy, -⟩ := Option.ite_none_right_eq_some.mp h
      rw [hbusy]
      rfl
    | _ => rfl

theorem length_trigger_le {n : Node} {readFails : Bool}
    (h : Lib.Run Step (run n readFails) tr s) : s.trigger.length ≤ 1 := by
  refine h.invariant (I := fun s => s.trigger.length ≤ 1) (Nat.zero_le 1) ?_
  intro s a s' hs h
  obtain ⟨-, htrigger⟩ | ⟨-, htrigger⟩ := trigger_of_step h
  · rw [htrigger, List.length_tail]
    omega
  · rw [htrigger]
    split_ifs
    · exact Lib.Channel.length_offer_le hs _
    · exact hs

structure Caused (s : Loop) : Prop where
  ctx : s.returned = some .ctx → s.cancelled = true
  subscription : s.returned = some .subscription → s.reading = false
  syncLoopErr : s.syncLoopErr = true → s.cancelled = true
  subErr : s.subErr = true → s.reading = false

theorem Caused.step (hs : Caused s) (h : Step s a s') : Caused s' := by
  obtain ⟨-, -, -, hreading, hsubErr, hsyncLoopErr, hcancelled, hreturned⟩ := effect_of_step h
  obtain ⟨hctx, hsubscription, hloop, hsub⟩ := hs
  cases a with
  | takeDone | stopSync =>
    have hdone : s.cancelled = true := by
      simp only [Step, next, Option.ite_none_right_eq_some] at h
      simp_all
    refine ⟨fun _ => hcancelled.trans hdone, ?_, fun _ => hcancelled.trans hdone, ?_⟩
    all_goals simp_all [returnedAfter, readingAfter, subErrAfter]
  | takeSyncLoopErr =>
    have hdone : s.cancelled = true := by
      simp only [Step, next, Option.ite_none_right_eq_some] at h
      exact hloop h.1.2
    refine ⟨fun _ => hcancelled.trans hdone, ?_, fun _ => hcancelled.trans hdone, ?_⟩
    all_goals simp_all [returnedAfter, readingAfter, subErrAfter]
  | takeSubErr =>
    have hfailed : s.reading = false := by
      simp only [Step, next, Option.ite_none_right_eq_some] at h
      exact hsub h.1.2
    refine ⟨?_, fun _ => hreading.trans hfailed, ?_, fun _ => hreading.trans hfailed⟩
    all_goals simp_all [returnedAfter, cancelledAfter, syncLoopErrAfter]
  | nextFailed =>
    refine ⟨?_, fun _ => hreading, ?_, fun _ => hreading⟩
    all_goals simp_all [returnedAfter, cancelledAfter, syncLoopErrAfter]
  | cancel =>
    refine ⟨fun _ => hcancelled, ?_, fun _ => hcancelled, ?_⟩
    all_goals simp_all [returnedAfter, readingAfter, subErrAfter]
  | _ =>
    refine ⟨?_, ?_, ?_, ?_⟩
    all_goals simp_all [returnedAfter, cancelledAfter, syncLoopErrAfter, readingAfter, subErrAfter]

theorem caused_of_run {n : Node} {readFails : Bool} (h : Lib.Run Step (run n readFails) tr s) :
    Caused s :=
  h.invariant ⟨by simp [run], by simp [run], by simp [run], by simp [run]⟩
    fun _ _ _ hs hstep => hs.step hstep

/-- When `Run` has returned, no message is handled and nothing becomes pending any more. The
goroutine of the passes goes on, but at most two more passes come to an end. -/
theorem after_run_returns {n : Node} {readFails : Bool} {earlier later : List (Loop × LoopLabel)}
    {err : RunError} (h : Lib.Run Step (run n readFails) earlier t)
    (hreturned : t.returned = some err) (hlater : Lib.Run Step t later s) :
    (err = .ctx → t.cancelled = true) ∧ (err = .subscription → t.reading = false) ∧
    s.returned = some err ∧ (∀ x ∈ later, mainLoop x.2 = false) ∧ (passes later).length ≤ 2 ∧
    addsNoPending t.node.idx s.node.idx := by
  have hcaused := caused_of_run h
  have howed : t.owed ≤ 2 := by
    have := length_trigger_le h
    have := t.syncing.toNat_le
    rw [owed]
    omega
  have hinv : s.returned = some err ∧ (∀ x ∈ later, mainLoop x.2 = false) ∧
      s.owed + (passes later).length = t.owed ∧ addsNoPending t.node.idx s.node.idx := by
    induction hlater with
    | nil => exact ⟨hreturned, by simp, rfl, addsNoPending_refl _⟩
    | @snoc later u a u' _ hs ih =>
      obtain ⟨hreturned, hmain, howed, hpending⟩ := ih
      have hquiet : mainLoop a = false := mainLoop_of_returned (by simp [hreturned]) hs
      obtain ⟨hkept, hrequests⟩ := returned_of_mainLoop hquiet hs
      refine ⟨hkept.trans hreturned, List.forall_mem_cons.mpr ⟨hquiet, hmain⟩, ?_,
        hpending.trans (addsNoPending_of_step hs hrequests)⟩
      have hone := owed_of_step hquiet hs
      rw [passes, Lib.outputs_cons, List.length_append, ← passes]
      omega
  obtain ⟨hsame, hmain, hpasses, hpending⟩ := hinv
  refine ⟨?_, ?_, hsame, hmain, by omega, hpending⟩
  · rintro rfl
    exact hcaused.ctx hreturned
  · rintro rfl
    exact hcaused.subscription hreturned

def passRunning : Loop := { started with trigger := [()], syncing := true }

def lastPass : Loop := { passRunning with cancelled := true, returned := some .ctx }

theorem reachable_lastPass : Lib.Reachable Step started lastPass := by
  have hasked : Lib.Reachable Step started started.requestSync :=
    ⟨_, Lib.Run.nil.snoc (show Step started .repairTick _ from rfl)⟩
  have hbegun := hasked.tail
    (show Step started.requestSync .startSync { started with syncing := true } from rfl)
  have hagain := hbegun.tail (show Step _ .repairTick passRunning from rfl)
  have hcancelled := hagain.tail
    (show Step _ .cancel { passRunning with cancelled := true } from rfl)
  exact hcancelled.tail (show Step _ .takeDone lastPass from rfl)

theorem after_run_returns_in_a_pass :
    (passes [(lastPass, .finishSync bobIsFetched)]).length ≤ 2 ∧
      addsNoPending lastPass.node.idx (lastPass.node.syncOnce bobIsFetched).idx := by
  obtain ⟨tr, hrun⟩ := reachable_lastPass
  have hlater : Lib.Run Step lastPass [(lastPass, .finishSync bobIsFetched)]
      { lastPass with syncing := false, node := lastPass.node.syncOnce bobIsFetched } :=
    Lib.Run.nil.snoc rfl
  exact (after_run_returns hrun rfl hlater).2.2.2.2

end Loop

/-! ## Every run of the loop is a run of the handlers -/

namespace Loop

variable {s s' : Loop} {a : LoopLabel} {tr : List (Loop × LoopLabel)}

def calls (s : Loop) : LoopLabel → List Event
  | .finishSync f => [.syncOnce f]
  | .heartbeatTick physicalTime => [.publishHeartbeat physicalTime, .tryFinalize]
  | .takeEvent now physicalTime =>
    match s.events with
    | [] => []
    | evt :: _ => (evt.commitAd.map fun ad => Event.onCommitAd ad now physicalTime).toList ++
      (evt.heartbeat.map fun hb => Event.onHeartbeat hb physicalTime).toList
  | .commit w log readFails =>
    .commit w :: ((s.node.commit w).2.map fun commitHash =>
      Event.publishLocalCommitAd commitHash log readFails).toList
  | .syncHint f => [.syncOnce f]
  | _ => []

theorem node_onEvent (s : Loop) (evt : LoopEvent) (now physicalTime : Int64) :
    (s.onEvent evt now physicalTime).node =
      ((evt.commitAd.map fun ad => Event.onCommitAd ad now physicalTime).toList ++
        (evt.heartbeat.map fun hb => Event.onHeartbeat hb physicalTime).toList).foldl
          Node.handle s.node := by
  have had : ∀ ad, (s.onCommitAd ad now physicalTime).node =
      s.node.onCommitAd ad now physicalTime := by
    intro ad
    unfold onCommitAd
    split_ifs <;> rfl
  rw [onEvent, List.foldl_append]
  cases evt.commitAd with
  | none => cases evt.heartbeat <;> rfl
  | some ad =>
    cases evt.heartbeat with
    | none => exact had ad
    | some hb => exact congrArg (fun n => Node.onHeartbeat n hb physicalTime) (had ad)

theorem node_of_step (h : Step s a s') : s'.node = (s.calls a).foldl Node.handle s.node := by
  cases a with
  | received | nextFailed | stopSync | takeDone | takeSubErr | takeSyncLoopErr | finishSync
  | heartbeatTick | repairTick =>
    simp only [Step, next, Option.ite_none_right_eq_some, Option.some.injEq] at h
    obtain ⟨-, rfl⟩ := h
    rfl
  | startSync =>
    simp only [Step, next, Option.ite_none_right_eq_some] at h
    obtain ⟨-, h⟩ := h
    split at h
    · cases h
    · obtain rfl := Option.some.inj h
      rfl
  | takeEvent now physicalTime =>
    simp only [Step, next, Option.ite_none_right_eq_some] at h
    obtain ⟨-, h⟩ := h
    cases hevents : s.events with
    | nil => simp [hevents] at h
    | cons evt rest =>
      simp only [hevents, Option.some.injEq] at h
      subst h
      rw [node_onEvent, calls, hevents]
  | cancel | syncHint =>
    obtain rfl := Option.some.inj h
    rfl
  | commit w log readFails =>
    obtain rfl := Option.some.inj h
    simp only [commit, calls]
    cases hcommit : s.node.commit w with
    | mk n result =>
      have hnode : s.node.handle (.commit w) = n := congrArg Prod.fst hcommit
      cases result with
      | none => exact hnode.symm
      | some commitHash =>
        exact congrArg (Node.publishLocalCommitAd · commitHash log readFails) hnode.symm

/-- Whatever is gossiped and in whatever order the goroutines take their turns, nothing becomes
pending but timestamps of user commits that the peer they name has signed. -/
theorem pending_entries_were_signed (time : DateText) (k : KeySigner)
    (keys : String → Option String) (signed : String → List CommitMetadata)
    (hunforged : Unforged time k keys signed) (cfg : NodeConfig)
    (hsigner : cfg.signer = k.signer time) (hkeys : cfg.identity = some keys) (repo : Repo)
    (hlc : HLC) (own : hlc.peerID = cfg.signer.getID) (openFails runFails : Bool)
    (h : Lib.Run Step (run (.started cfg repo hlc own openFails) runFails) tr s) :
    PendingSigned signed s.node := by
  have hinv : s.node.cfg = cfg ∧ PendingSigned signed s.node := by
    refine h.invariant (I := fun s => s.node.cfg = cfg ∧ PendingSigned signed s.node) ?_ ?_
    · exact ⟨rfl, (pendingSigned_started signed cfg repo hlc own openFails).rebuild runFails⟩
    · rintro s a s' ⟨hcfg, hs⟩ hstep
      rw [node_of_step hstep]
      obtain ⟨hcfg', hs'⟩ := pendingSigned_foldl_handle hunforged (by rw [hcfg, hsigner])
        (by rw [hcfg, hkeys]) hs (s.calls a)
      exact ⟨hcfg'.trans hcfg, hs'⟩
  exact hinv.2

def bobSigner : KeySigner where
  getID := "alice"
  sign _ := "signed"
  verify data signature pub :=
    pub = "bob-key" && signature = "signed" && data = (written "bob" 3).signableData oneDay

def bobSigned (peerID : String) : List CommitMetadata :=
  if peerID = "bob" then [written "bob" 3] else []

def keyedConfig : NodeConfig :=
  ⟨⟨"org", "repo"⟩, bobSigner.signer oneDay, 5000000000, some bobKeys⟩

theorem unforged_bobSigner : Unforged oneDay bobSigner bobKeys bobSigned := by
  intro peerID pub hkey data signature hverify
  simp only [bobSigner, Bool.and_eq_true, decide_eq_true_eq] at hverify
  simp only [bobKeys, Option.ite_none_right_eq_some] at hkey
  exact ⟨written "bob" 3, by simp [bobSigned, hkey.1], hverify.2.symm⟩

theorem peerID_keyedConfig : (HLC.newHLC "alice" 1).peerID = keyedConfig.signer.getID := rfl

def keyed : Loop :=
  run (.started keyedConfig emptyRepo (HLC.newHLC "alice" 1) peerID_keyedConfig false) false

def keyedAfterBob : Loop := { keyed with events := [] }.onEvent bobsMessage 6 6

theorem pending_entries_were_signed_by_bob :
    keyedAfterBob.node.idx.get ⟨3, 0, "bob"⟩ = some ⟨⟨3, 0, "bob"⟩, "", .pending⟩ ∧
    PendingSigned bobSigned keyedAfterBob.node := by
  have hreceived : Lib.Run Step keyed [(keyed, .received bobsMessage)]
      { keyed with events := [bobsMessage] } := Lib.Run.nil.snoc rfl
  have hrun : Lib.Run Step keyed [({ keyed with events := [bobsMessage] }, .takeEvent 6 6),
      (keyed, .received bobsMessage)] keyedAfterBob := hreceived.snoc rfl
  exact ⟨by decide +kernel,
    pending_entries_were_signed oneDay bobSigner bobKeys bobSigned unforged_bobSigner keyedConfig
      rfl rfl emptyRepo (HLC.newHLC "alice" 1) peerID_keyedConfig false false hrun⟩

end Loop

end DoltSwarm.Core
