import DoltSwarm.Protocol.Readiness
import DoltSwarm.Protocol.Subsumption

/-!
# The bounded closure and the real one

The closure behind `isParentClosed` follows parent links for `maxEvents` rounds. A writer holds
fewer events than that, so the rounds suffice for every event whose author had the whole
ancestry at hand when writing. A peer may also write on a basis it only retains, and then
chains of events outgrow the rounds.
-/

namespace DoltSwarm.Protocol

open Lib

set_option autoImplicit false

/-- Everything reached from `id` by parent links, however far back, is in the clock. -/
def allAncestorsPresent (clock : Clock) (id : EventID) : Prop :=
  ∀ x, Path (clockParents clock) id x → x ∈ clock.keys

instance (clock : Clock) (id : EventID) : Decidable (allAncestorsPresent clock id) :=
  decidable_of_iff (fullyHeld clock clock.keys id)
    ⟨fun h x hx => (h x hx).1, fun h x hx => ⟨h x hx, h x hx⟩⟩

/-- New events are written on parents whose whole ancestry the author holds. -/
def writesOnWholeAncestry (s : State) : Action → Prop
  | .write p _ | .resolveFinalizedConflict p _ _ =>
    ∀ b ∈ (s.nodes.get p).projectionBasis, allAncestorsPresent (s.nodes.get p).clock b
  | .resolveConflict p parked _ =>
    ∀ b ∈ (s.nodes.get p).projectionBasis ∪ {parked},
      allAncestorsPresent (s.nodes.get p).clock b
  | _ => True

instance (s : State) (a : Action) : Decidable (writesOnWholeAncestry s a) :=
  match a with
  | .write _ _ | .resolveFinalizedConflict _ _ _ | .resolveConflict _ _ _ =>
    inferInstanceAs (Decidable (∀ b ∈ _, _))
  | .receive _ _ | .chunksReady _ _ | .reconcile _ | .tick _ | .heartbeat _ _ | .finalize _
  | .gc _ _ | .partition _ _ | .heal _ _ | .evict _ _ | .syncFinalized _ _ => instDecidableTrue

theorem parents_present_of_emission {s : State} {p : PeerID} {a : Action} {e : Event}
    (he : Emission (s.nodes.get p) p a e) (hG : writesOnWholeAncestry s a) :
    ∀ b ∈ e.parentEventIds, allAncestorsPresent (s.nodes.get p).clock b := by
  cases he <;> exact hG

/-! ## Ancestries on the ledger -/

/-- The proper ancestors of an event are all in a set that is closed under parent links and
smaller than a full clock. -/
def SmallAncestry (L : Finset Event) (e : Event) : Prop :=
  ∃ ancestors : Finset EventID, e.parentEventIds ⊆ ancestors ∧
    ancestors ⊆ L.image Event.eventId ∧ (∀ x ∈ ancestors, parentsIn L x ⊆ ancestors) ∧
    ancestors.card < maxEvents

theorem SmallAncestry.insert {L : Finset Event} {e : Event}
    (hfresh : ∀ x ∈ L, x.eventId ≠ e.eventId) {x : Event} (hx : SmallAncestry L x) :
    SmallAncestry (insert e L) x := by
  obtain ⟨ancestors, hpar, hknown, hclosed, hcard⟩ := hx
  refine ⟨ancestors, hpar, hknown.trans ?_, fun y hy => ?_, hcard⟩
  · exact Finset.image_subset_image (Finset.subset_insert e L)
  · have hne : e.eventId ≠ y := by
      rintro rfl
      obtain ⟨z, hz, hid⟩ := Finset.mem_image.mp (hknown hy)
      exact hfresh z hz hid
    rw [parentsIn, Finset.filter_insert, if_neg hne]
    exact hclosed y hy

section

variable {s : State} (h : LedgerInv s)

include h

theorem LedgerInv.parentsIn_eq_clockParents {p : PeerID} (hp : p ∈ peers) {id : EventID}
    (hid : id ∈ (s.nodes.get p).clock.keys) :
    parentsIn s.ledger id = clockParents (s.nodes.get p).clock id := by
  obtain ⟨hmem, heq⟩ := (h.node p hp).get_mem hid
  refine Finset.Subset.antisymm (fun v hv => ?_) (h.clockParents_subset hp id)
  obtain ⟨x, hx, hxid, hpar⟩ := mem_parentsIn.mp hv
  rw [h.unique x hx _ hmem (hxid.trans heq.symm)] at hpar
  rw [clockParents, if_pos hid]
  exact hpar

theorem LedgerInv.smallAncestry_emission {p : PeerID} (hp : p ∈ peers) {a : Action}
    {e : Event} (he : Emission (s.nodes.get p) p a e) (hw : writeEnabled (s.nodes.get p))
    (hpresent : ∀ b ∈ e.parentEventIds, allAncestorsPresent (s.nodes.get p).clock b) :
    SmallAncestry s.ledger e := by
  classical
  -- the events of the clock that some parent descends from
  let ancestors := (s.nodes.get p).clock.keys.filter fun x =>
    ∃ b ∈ e.parentEventIds, Path (clockParents (s.nodes.get p).clock) b x
  refine ⟨ancestors, fun b hb => ?_, fun x hx => ?_, fun x hx v hv => ?_, ?_⟩
  · exact Finset.mem_filter.mpr ⟨h.emission_parents hp he hb, b, hb, .refl⟩
  · obtain ⟨hmem, hid⟩ := (h.node p hp).get_mem (Finset.mem_filter.mp hx).1
    exact Finset.mem_image.mpr ⟨_, hmem, hid⟩
  · obtain ⟨hkey, b, hb, hpath⟩ := Finset.mem_filter.mp hx
    rw [h.parentsIn_eq_clockParents hp hkey] at hv
    have hpath' : Path (clockParents (s.nodes.get p).clock) b v := hpath.tail hv
    exact Finset.mem_filter.mpr ⟨hpresent b hb v hpath', b, hb, hpath'⟩
  · exact lt_of_le_of_lt (Finset.card_filter_le _ _) hw.2

end

structure AncestryInv (s : State) : Prop extends LedgerInv s where
  small : ∀ e ∈ s.ledger, SmallAncestry s.ledger e

theorem ancestryInv_effect [FoldOrder] {s s' : State} {a : Action} (h : AncestryInv s)
    (hG : writesOnWholeAncestry s a) (heff : Effect s a s') : AncestryInv s' := by
  have hledger := ledgerInv_effect h.toLedgerInv heff
  refine ⟨hledger, ?_⟩
  cases heff with
  | emit p e hp hw he =>
    have hL : (s.emit p e).ledger = insert e s.ledger :=
      ledger_emit (by rw [(emission_hlc he).1, h.inbox_keys]; exact hp)
    have hfresh : ∀ x ∈ s.ledger, x.eventId ≠ e.eventId := fun x hx => h.emission_fresh hp he hx
    have hnew := h.smallAncestry_emission hp he hw (parents_present_of_emission he hG)
    rw [hL]
    intro x hx
    rcases Finset.mem_insert.mp hx with rfl | hx
    · exact hnew.insert hfresh
    · exact (h.small x hx).insert hfresh
  | receive p e _ _ => exact h.small
  | touch p st _ _ => exact h.small
  | heartbeat p q hp hq _ _ => exact (ledger_heartbeat h.toLedgerInv hp hq).1 ▸ h.small
  | finalize p _ _ => exact h.small
  | gc p id _ _ => exact h.small
  | sync p q _ _ _ => exact h.small
  | network conn _ => exact h.small

theorem ancestryInv_of_run {tr : List (State × Action)} {s : State} (h : Run Step init tr s)
    (hG : ∀ x ∈ tr, writesOnWholeAncestry x.1 x.2) : AncestryInv s := by
  refine Run.induct (I := fun _ s => AncestryInv s) (G := writesOnWholeAncestry) ?_ ?_ h hG
  · have hL : init.ledger = ∅ := by decide
    exact ⟨ledgerInv_init, by simp [hL]⟩
  · rintro _ s a s' _ hI hGa ⟨o, hs⟩
    exact @ancestryInv_effect o _ _ _ hI hGa (@effect_of_step o s s' a hs)

/-! ## Clocks -/

/-- Within a small ancestry the rounds of the closure reach everything. -/
theorem AncestryInv.mem_closure_iff {s : State} (h : AncestryInv s) {p : PeerID}
    (hp : p ∈ peers) {id : EventID} (hid : id ∈ (s.nodes.get p).clock.keys) (x : EventID) :
    x ∈ ancestorIdClosure {id} (s.nodes.get p).clock ↔
      Path (clockParents (s.nodes.get p).clock) id x := by
  constructor
  · intro hx
    obtain ⟨y, hy, hpath⟩ := path_of_mem_unrolledClosure hx
    rw [Finset.mem_singleton.mp hy] at hpath
    exact hpath
  · intro hpath
    obtain ⟨hmem, _⟩ := (h.node p hp).get_mem hid
    obtain ⟨ancestors, hpar, _, hclosed, hcard⟩ := h.small _ hmem
    have hlink : clockParents (s.nodes.get p).clock id =
        ((s.nodes.get p).clock.get id).parentEventIds := if_pos hid
    have hclosed' : ∀ y ∈ ancestors, clockParents (s.nodes.get p).clock y ⊆ ancestors :=
      fun y hy => (h.clockParents_subset hp y).trans (hclosed y hy)
    change x ∈ unrolledClosure (7 + 1) (clockParents (s.nodes.get p).clock) {id}
    rw [unrolledClosure_singleton_succ, hlink, Finset.mem_insert]
    rcases hpath.cases_head with heq | ⟨b, hb, hpath'⟩
    · exact Or.inl heq.symm
    · exact Or.inr (mem_unrolledClosure_of_path hpar hclosed' (Nat.le_of_lt hcard)
        (hlink ▸ hb) hpath')

/-- If every write is made on parents whose whole ancestry its author holds, the rounds of
`ancestorIdClosure` never stop short, and `isParentClosed` says that all ancestors are there. -/
theorem bounded_closure_is_exact {tr : List (State × Action)} {s : State}
    (h : Run Step init tr s) (hG : ∀ x ∈ tr, writesOnWholeAncestry x.1 x.2) {p : PeerID}
    (hp : p ∈ peers) {id : EventID} (hid : id ∈ (s.nodes.get p).clock.keys) :
    (isParentClosed (s.nodes.get p).clock id ↔ allAncestorsPresent (s.nodes.get p).clock id) ∧
    ∀ x, x ∈ ancestorIdClosure {id} (s.nodes.get p).clock ↔
      Path (clockParents (s.nodes.get p).clock) id x := by
  have hclosure := (ancestryInv_of_run h hG).mem_closure_iff hp hid
  refine ⟨?_, hclosure⟩
  constructor
  · rintro ⟨-, hsub⟩ x hpath
    exact hsub ((hclosure x).mpr hpath)
  · intro hall
    exact ⟨hid, fun x hx => hall x ((hclosure x).mp hx)⟩

theorem bounded_closure_is_exact_on_relay :
    allAncestorsPresent (relayState.nodes.get 2).clock ⟨2, 1, 3⟩ ∧
    (⟨1, 1, 1⟩ : EventID) ∈ (relayState.nodes.get 2).clock.keys := by
  have hheld : (⟨2, 1, 3⟩ : EventID) ∈ (relayState.nodes.get 2).clock.keys := by decide +kernel
  have hpresent := (bounded_closure_is_exact relayRun_runs (by decide +kernel) (by decide)
    hheld).1.mp (by decide +kernel)
  refine ⟨hpresent, hpresent _ (.single ?_)⟩
  decide +kernel

/-! ## A chain that outgrows the rounds -/

/-- The first write of peer 3 and the seven that peer 1 puts on top of it. -/
def chainLink : ℕ → Event
  | 0 => ⟨⟨3, 1, 1⟩, 11, 0, ∅, none, none, ⟨1, 1, 3⟩, 3⟩
  | 1 => ⟨⟨1, 1, 3⟩, 11, 0, {⟨3, 1, 1⟩}, none, none, ⟨1, 3, 1⟩, 1⟩
  | n + 2 => ⟨⟨1, 1, n + 4⟩, 11, 0, {⟨1, 1, n + 3⟩}, none, none, ⟨1, n + 4, 1⟩, 1⟩

def chainLinks : List Event := (List.range 7).map fun n => chainLink (n + 1)

/-- Peers 2 and 3 each write on a basis that SYNC_FINALIZED left them without its ancestors:
peer 2 has lost the bottom of the chain, peer 3 all of it but the write of peer 2. Peer 2 then
receives the write of peer 3. -/
def outgrownRun : List Action :=
  let ninth : Event := ⟨⟨2, 1, 11⟩, 11, 11, {⟨1, 1, 9⟩}, none, none, ⟨1, 11, 2⟩, 2⟩
  let tenth : Event := ⟨⟨3, 1, 13⟩, 11, 11, {⟨2, 1, 11⟩}, none, none, ⟨1, 13, 3⟩, 3⟩
  List.flatten [
    [.write 3 11, .receive 1 (chainLink 0), .chunksReady 1 ⟨3, 1, 1⟩, .receive 2 (chainLink 0),
      .heartbeat 3 1, .heartbeat 3 2, .finalize 3],
    List.replicate 7 (.write 1 11), chainLinks.map (.receive 2),
    [.chunksReady 2 ⟨1, 1, 9⟩, .heartbeat 1 2, .syncFinalized 2 3, .write 2 11],
    chainLinks.map (.receive 3),
    [.heartbeat 1 3, .receive 3 ninth, .chunksReady 3 ⟨2, 1, 11⟩],
    List.replicate 8 (.finalize 1),
    [.syncFinalized 3 1, .write 3 11, .receive 2 tenth]]

/-- The last write counts as parent-closed at peer 2, which lacks the bottom of the chain. -/
theorem closure_stops_short : ∃ s, Reachable Step init s ∧ ∃ p ∈ peers,
    ∃ id ∈ (s.nodes.get p).clock.keys, isParentClosed (s.nodes.get p).clock id ∧
      ¬allAncestorsPresent (s.nodes.get p).clock id := by
  have hrun : ∃ s, Reachable Step init s ∧
      (⟨3, 1, 13⟩ : EventID) ∈ (s.nodes.get 2).clock.keys ∧
      isParentClosed (s.nodes.get 2).clock ⟨3, 1, 13⟩ ∧
      ¬allAncestorsPresent (s.nodes.get 2).clock ⟨3, 1, 13⟩ :=
    exists_reachable_of_execute outgrownRun (by decide +kernel)
  obtain ⟨s, hs, hfacts⟩ := hrun
  exact ⟨s, hs, 2, by decide, _, hfacts⟩

end DoltSwarm.Protocol
