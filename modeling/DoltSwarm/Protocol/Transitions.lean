import DoltSwarm.Lib.Runs
import DoltSwarm.Protocol.Identity
import DoltSwarm.Protocol.Step

/-!
# What a step can do

The step relation leaves the enumeration order of every step open. `Effect` sorts the
actions by what they touch, guards included; all invariants are proved over it.
-/

namespace DoltSwarm.Protocol

open Lib

set_option autoImplicit false

def Step (s : State) (a : Action) (s' : State) : Prop := ∃ o : FoldOrder, @step o s a = some s'

/-- The events an action can emit at a peer. -/
inductive Emission (st : NodeState) (p : PeerID) : Action → Event → Prop
  | write (content : Int) : content ∈ contents →
      Emission st p (.write p content) (writtenEvent st p content)
  | resolveConflict (parked : EventID) (content : Int) : content ∈ contents →
      parked ∈ st.parkedConflicts → parked ∈ st.clock.keys →
      Emission st p (.resolveConflict p parked content) (resolutionEvent st p parked content)
  | resolveFinalizedConflict (cid : FinalizedConflictID) (content : Int) : content ∈ contents →
      cid ∈ st.finalizedConflicts.keys →
      Emission st p (.resolveFinalizedConflict p cid content)
        (finalizedResolutionEvent st p cid content)

/-- The outcome of a list of actions with all folds ascending. -/
def runOutcome (actions : List Action) : List (State × Action) × State :=
  outcome (@step ascendingFolds) init actions

theorem run_runOutcome {actions : List Action}
    (h : (execute (@step ascendingFolds) init actions).isSome = true) :
    Run Step init (runOutcome actions).1 (runOutcome actions).2 :=
  run_outcome (fun _ _ _ hs => ⟨ascendingFolds, hs⟩) h

theorem exists_run_of_actions (actions : List Action) {P : List (State × Action) → State → Prop}
    [∀ tr s, Decidable (P tr s)]
    (h : (execute (@step ascendingFolds) init actions).any (fun r => decide (P r.1 r.2)) = true) :
    ∃ tr s, Run Step init tr s ∧ P tr s :=
  exists_run_of_execute (fun _ _ _ hs => ⟨ascendingFolds, hs⟩) actions h

theorem exists_reachable_of_execute (actions : List Action) {P : State → Prop} [DecidablePred P]
    (h : (execute (@step ascendingFolds) init actions).any (fun r => decide (P r.2)) = true) :
    ∃ s, Reachable Step init s ∧ P s := by
  obtain ⟨tr, s, hrun, hP⟩ := exists_run_of_actions actions (P := fun _ => P) h
  exact ⟨s, ⟨tr, hrun⟩, hP⟩

/-- The peers that did not write an event receive it and its chunks. -/
def deliver (e : Event) : List Action :=
  (([1, 2, 3] : List PeerID).filter (· ≠ e.peer)).flatMap fun p =>
    [.receive p e, .chunksReady p e.eventId]

/-- Every peer hears from the other two. -/
def heartbeats : List Action :=
  [.heartbeat 1 2, .heartbeat 1 3, .heartbeat 2 1, .heartbeat 2 3, .heartbeat 3 1, .heartbeat 3 2]

variable [FoldOrder]

/-- Actions that leave clock, hybrid clock and finalized fields alone. -/
inductive Touch (conn : Finset (PeerID × PeerID)) (st : NodeState) (p : PeerID) :
    Action → NodeState → Prop
  | chunksReady (id : EventID) : id ∈ st.clock.keys → id ∉ st.chunksReady →
      Touch conn st p (.chunksReady p id) (chunksReadyResult st id)
  | reconcile : reconcileEnabled st → Touch conn st p (.reconcile p) (reconcileResult st)
  | tick : st.localWall < maxWall →
      Touch conn st p (.tick p) { st with localWall := st.localWall + 1 }
  | evict (q : PeerID) : q ∈ peers → p ≠ q → q ∈ st.activePeers → (p, q) ∉ conn →
      Touch conn st p (.evict p q) (evictResult st q)

inductive NetworkChange (conn : Finset (PeerID × PeerID)) :
    Action → Finset (PeerID × PeerID) → Prop
  | partition (p q : PeerID) : p ∈ peers → q ∈ peers → p ≠ q → (p, q) ∈ conn →
      NetworkChange conn (.partition p q) (conn \ {(p, q), (q, p)})
  | heal (p q : PeerID) : p ∈ peers → q ∈ peers → p ≠ q → (p, q) ∉ conn →
      NetworkChange conn (.heal p q) (conn ∪ {(p, q), (q, p)})

inductive Effect (s : State) : Action → State → Prop
  | emit {a : Action} (p : PeerID) (e : Event) : p ∈ peers → writeEnabled (s.nodes.get p) →
      Emission (s.nodes.get p) p a e → Effect s a (s.emit p e)
  | receive (p : PeerID) (e : Event) : p ∈ peers →
      e ∈ processable (s.nodes.get p) (s.inbox.get p) →
      Effect s (.receive p e) (s.setNode p (receiveResult (s.nodes.get p) p e))
  | touch {a : Action} (p : PeerID) (st : NodeState) : p ∈ peers →
      Touch s.connected (s.nodes.get p) p a st → Effect s a (s.setNode p st)
  | heartbeat (p q : PeerID) : p ∈ peers → q ∈ peers → p ≠ q → (p, q) ∈ s.connected →
      Effect s (.heartbeat p q) (s.heartbeat p q)
  | finalize (p : PeerID) : p ∈ peers → finalizeEnabled (s.nodes.get p) →
      Effect s (.finalize p) (s.setNode p (finalizeResult (s.nodes.get p)))
  | gc (p : PeerID) (id : EventID) : p ∈ peers → id ∈ gcPruneable (s.nodes.get p) →
      Effect s (.gc p id) (s.setNode p (gcResult (s.nodes.get p) p id))
  | sync (p q : PeerID) : p ∈ peers → q ∈ peers →
      syncEnabled s.connected p q (s.nodes.get p) (s.nodes.get q) →
      Effect s (.syncFinalized p q)
        (s.setNode p (syncResult p (s.nodes.get p) (s.nodes.get q)))
  | network {a : Action} (conn : Finset (PeerID × PeerID)) : NetworkChange s.connected a conn →
      Effect s a { s with connected := conn }

theorem effect_of_step {s s' : State} {a : Action} (h : step s a = some s') : Effect s a s' := by
  cases a with
  | write p content =>
    simp only [step, Option.ite_none_right_eq_some, Option.some.injEq] at h
    obtain ⟨⟨hp, hc, hw⟩, rfl⟩ := h
    exact .emit p _ hp hw (.write content hc)
  | receive p e =>
    simp only [step, Option.ite_none_right_eq_some, Option.some.injEq] at h
    obtain ⟨⟨hp, he⟩, rfl⟩ := h
    exact .receive p e hp he
  | chunksReady p id =>
    simp only [step, Option.ite_none_right_eq_some, Option.some.injEq] at h
    obtain ⟨⟨hp, hk, hr⟩, rfl⟩ := h
    exact .touch p _ hp (.chunksReady id hk hr)
  | reconcile p =>
    simp only [step, Option.ite_none_right_eq_some, Option.some.injEq] at h
    obtain ⟨⟨hp, he⟩, rfl⟩ := h
    exact .touch p _ hp (.reconcile he)
  | tick p =>
    simp only [step, Option.ite_none_right_eq_some, Option.some.injEq] at h
    obtain ⟨⟨hp, hw⟩, rfl⟩ := h
    exact .touch p _ hp (.tick hw)
  | heartbeat p q =>
    simp only [step, Option.ite_none_right_eq_some, Option.some.injEq] at h
    obtain ⟨⟨hp, hq, hne, hc⟩, rfl⟩ := h
    exact .heartbeat p q hp hq hne hc
  | finalize p =>
    simp only [step, Option.ite_none_right_eq_some, Option.some.injEq] at h
    obtain ⟨⟨hp, he⟩, rfl⟩ := h
    exact .finalize p hp he
  | gc p id =>
    simp only [step, Option.ite_none_right_eq_some, Option.some.injEq] at h
    obtain ⟨⟨hp, hg⟩, rfl⟩ := h
    exact .gc p id hp hg
  | partition p q =>
    simp only [step, Option.ite_none_right_eq_some, Option.some.injEq] at h
    obtain ⟨⟨hp, hq, hne, hc⟩, rfl⟩ := h
    exact .network _ (.partition p q hp hq hne hc)
  | heal p q =>
    simp only [step, Option.ite_none_right_eq_some, Option.some.injEq] at h
    obtain ⟨⟨hp, hq, hne, hc⟩, rfl⟩ := h
    exact .network _ (.heal p q hp hq hne hc)
  | evict p q =>
    simp only [step, Option.ite_none_right_eq_some, Option.some.injEq] at h
    obtain ⟨⟨hp, hq, hne, ha, hc⟩, rfl⟩ := h
    exact .touch p _ hp (.evict q hq hne ha hc)
  | syncFinalized p q =>
    simp only [step, Option.ite_none_right_eq_some, Option.some.injEq] at h
    obtain ⟨⟨hp, hq, he⟩, rfl⟩ := h
    exact .sync p q hp hq he
  | resolveConflict p parked content =>
    simp only [step, Option.ite_none_right_eq_some, Option.some.injEq] at h
    obtain ⟨⟨hp, hc, hk, hk', hw⟩, rfl⟩ := h
    exact .emit p _ hp hw (.resolveConflict parked content hc hk hk')
  | resolveFinalizedConflict p cid content =>
    simp only [step, Option.ite_none_right_eq_some, Option.some.injEq] at h
    obtain ⟨⟨hp, hc, hk, hw⟩, rfl⟩ := h
    exact .emit p _ hp hw (.resolveFinalizedConflict cid content hc hk)

omit [FoldOrder] in
theorem invariant_of_effect {I : State → Prop} (h0 : I init)
    (hstep : ∀ (o : FoldOrder) s a s', I s → @Effect o s a s' → I s') {s : State}
    (h : Reachable Step init s) : I s := by
  refine h.invariant h0 ?_
  rintro s a s' hI ⟨o, hs⟩
  exact hstep o s a s' hI (@effect_of_step o s s' a hs)

end DoltSwarm.Protocol
