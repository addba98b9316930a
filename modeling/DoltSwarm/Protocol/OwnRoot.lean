import DoltSwarm.Protocol.HeadClasses
import DoltSwarm.Protocol.SerialContent

/-!
# What a replay makes of a write that saw everything

An event is replayed on the root its author merged from the basis, and what it left alone there is
taken from the finalized root. So it comes out as it was written exactly if the finalized root has
what the author saw wherever the event left it. That all finalized events are its ancestors is not
enough: a value that is taken back to what the anchor had, or that was finalized at one author
and not at the next, is missing from what the next author sees. Where every author still writes
over the empty root and none takes anything back to it, it is.
-/

namespace DoltSwarm.Protocol

open Lib

set_option autoImplicit false

/-! ## The root a write starts from -/

def writtenOver [FoldOrder] (st : NodeState) : ProllyRootHash :=
  (anchoredFold st.projectionBasis st.clock st.finalizedProllyRootHash).1

theorem writtenOver_of_no_basis [FoldOrder] {st : NodeState} (h : st.projectionBasis = ∅) :
    writtenOver st = st.finalizedProllyRootHash := by
  rw [writtenOver, h, anchoredFold_empty]

theorem exists_emission {tr : List (State × Action)} {s : State} (h : Run Step init tr s)
    {e : Event} (he : e ∈ s.ledger) : ∃ t a w, (t, a) ∈ tr ∧ w ∈ peers ∧
      Emission (t.nodes.get w) w a e := by
  induction h with
  | nil =>
    have hL : init.ledger = ∅ := by decide
    rw [hL] at he
    exact absurd he (Finset.notMem_empty e)
  | @snoc tr s a s' hr hs ih =>
    obtain ⟨o, hs⟩ := hs
    have hold : e ∈ s.ledger → ∃ t a' w, (t, a') ∈ (s, a) :: tr ∧ w ∈ peers ∧
        Emission (t.nodes.get w) w a' e := by
      intro hmem
      obtain ⟨t, a', w, hx, hw, hemit⟩ := ih hmem
      exact ⟨t, a', w, List.mem_cons_of_mem _ hx, hw, hemit⟩
    rcases @ledger_effect o _ _ _ (ledgerInv_of_reachable ⟨tr, hr⟩) (@effect_of_step o _ _ _ hs)
      with ⟨w, m, hw, hemit, hL⟩ | hL
    · rw [hL] at he
      rcases Finset.mem_insert.mp he with rfl | hmem
      · exact ⟨s, a, w, List.mem_cons_self, hw, hemit⟩
      · exact hold hmem
    · exact hold (hL ▸ he)

theorem writtenOver_eq_tentative {s : State} (h : Reachable Step init s) {p : PeerID}
    (hp : p ∈ peers) (o : FoldOrder) (hlive : tentativeHeadEventIDs (s.nodes.get p) = ∅ ∨
      mergeableHeadEventIDs (s.nodes.get p) ≠ ∅) :
    @writtenOver o (s.nodes.get p) = (s.nodes.get p).tentativeProllyRootHash := by
  have hsettled := settledInv_of_reachable h
  rw [writtenOver, ((hsettled.settled p hp).basis_fold (hsettled.keyed hp)
    (hsettled.node p hp).heads hlive o).1]

/-! ## The event that is finalized -/

/-- A conflict-free merge gives `theirs` exactly if `ours` has what the base has wherever `theirs`
does. -/
theorem mergeRoots_eq_theirs_iff {ours theirs base : ProllyRootHash} (ho : ours ∈ contentRoots)
    (ht : theirs ∈ contents) (hb : base ∈ contentRoots)
    (hne : mergeRoots ours theirs base ≠ conflictHash) :
    mergeRoots ours theirs base = theirs ↔
      (∀ i, contentOf theirs i = contentOf base i → contentOf ours i = contentOf base i) ∧
      (theirs = base → ours = base) := by
  have hall : ∀ ours ∈ contentRoots, ∀ theirs ∈ contents, ∀ base ∈ contentRoots,
      mergeRoots ours theirs base ≠ conflictHash →
      (mergeRoots ours theirs base = theirs ↔
        (∀ i, contentOf theirs i = contentOf base i → contentOf ours i = contentOf base i) ∧
        (theirs = base → ours = base)) := by
    decide +kernel
  exact hall ours ho theirs ht base hb hne

theorem mergeRoots_mem_contents {ours theirs base : ProllyRootHash}
    (ho : ours ∈ contents ∨ ours = emptyRoot ∧ base = emptyRoot) (ht : theirs ∈ contents)
    (hb : base ∈ contentRoots) (hne : mergeRoots ours theirs base ≠ conflictHash) :
    mergeRoots ours theirs base ∈ contents := by
  have hall : ∀ ours ∈ contents, ∀ theirs ∈ contents, ∀ base ∈ contentRoots,
      mergeRoots ours theirs base ≠ conflictHash → mergeRoots ours theirs base ∈ contents := by
    decide +kernel
  rcases ho with ho | ⟨rfl, rfl⟩
  · exact hall ours ho theirs ht base hb hne
  · have hempty : ∀ theirs ∈ contents, mergeRoots emptyRoot theirs emptyRoot ∈ contents := by
      decide
    exact hempty theirs ht

section

variable {tr : List (State × Action)} {s : State} (h : Run Step init tr s) {p : PeerID}
  (hp : p ∈ peers) (o : FoldOrder) (he : @finalizeEnabled o (s.nodes.get p))
  (hsub : @nextFinalizationEventID o (s.nodes.get p) ∉ subsumedEvents (s.nodes.get p).clock)

include h hp he hsub

theorem exists_author :
    let e := (s.nodes.get p).clock.get (@nextFinalizationEventID o (s.nodes.get p))
    ∃ t a w, (t, a) ∈ tr ∧ w ∈ peers ∧ Emission (t.nodes.get w) w a e ∧
      (@anchoredFold o (t.nodes.get w).projectionBasis (t.nodes.get w).clock
        (t.nodes.get w).finalizedProllyRootHash).2 = ∅ ∧
      @finalizationReplayBase o (s.nodes.get p).clock (@nextFinalizationEventID o (s.nodes.get p)) =
        @writtenOver o (t.nodes.get w) := by
  intro e
  have hinv := contentInv_of_reachable ⟨tr, h⟩
  rcases finalizeResult_cases _ he with ⟨hs, _⟩ | ⟨_, hroot, _⟩
  · exact absurd hs hsub
  obtain ⟨hkeys, hbase, _⟩ := hinv.mergeRoot_spec hp he.1 hroot
  obtain ⟨hmem, hid⟩ := (hinv.node p hp).get_mem hkeys
  obtain ⟨t, a, w, hstep, hw, hemit⟩ := exists_emission h hmem
  refine ⟨t, a, w, hstep, hw, hemit, ?_⟩
  have hne : @finalizationReplayBase o (s.nodes.get p).clock e.eventId ≠ conflictHash := by
    rw [hid]
    exact fun hconf => conflictHash_notMem (hconf ▸ hbase)
  have hpar : finalizationReplayParents e ⊆ (s.nodes.get p).clock.keys := by
    by_contra hmiss
    refine hne ?_
    rw [hid]
    simp only [finalizationReplayBase]
    split_ifs with hempty
    · exact absurd (hempty ▸ Finset.empty_subset _) hmiss
    · rfl
  have hapart := (classesInv_of_reachable (h.reachable_of_mem hstep)).apart w hw
  have hfold := replayBase_of_emission h hstep hemit hapart hp (hid.symm ▸ hkeys) hpar o
  rw [hfold] at hne
  rw [hid] at hfold
  simp only at hfold hne
  split at hfold
  · next hnone => exact ⟨hnone, hfold⟩
  · next hsome => exact absurd (if_neg hsome) hne

theorem replayed_root_eq :
    let id := @nextFinalizationEventID o (s.nodes.get p)
    @finalizationReplayBase o (s.nodes.get p).clock id ∈ contentRoots ∧
    mergeRoots (s.nodes.get p).finalizedProllyRootHash
      ((s.nodes.get p).clock.get id).prollyRootHash
      (@finalizationReplayBase o (s.nodes.get p).clock id) ≠ conflictHash ∧
    (@finalizeResult o (s.nodes.get p)).finalizedProllyRootHash =
      mergeRoots (s.nodes.get p).finalizedProllyRootHash
        ((s.nodes.get p).clock.get id).prollyRootHash
        (@finalizationReplayBase o (s.nodes.get p).clock id) := by
  have hinv := contentInv_of_reachable ⟨tr, h⟩
  rcases finalizeResult_cases _ he with ⟨hs, _⟩ | ⟨_, hroot, heq⟩
  · exact absurd hs hsub
  obtain ⟨_, hbase, hmerge⟩ := hinv.mergeRoot_spec hp he.1 hroot
  rw [hmerge] at hroot
  refine ⟨hbase, hroot, ?_⟩
  rw [heq, (hinv.finalized p hp).replayNextEvent_eq]
  exact hmerge

end

/-! ## Histories over the empty root -/

/-- A write of an author that has finalized nothing, which takes no dimension back to what the
empty root has. -/
def plainWrite [FoldOrder] (st : NodeState) (root : ProllyRootHash) : Prop :=
  st.finalizedProllyRootHash = emptyRoot ∧
  ∀ i, contentOf root i ≠ contentOf (writtenOver st) i → contentOf root i ≠ contentOf emptyRoot i

instance [FoldOrder] (st : NodeState) (root : ProllyRootHash) : Decidable (plainWrite st root) :=
  inferInstanceAs (Decidable (_ ∧ _))

/-- Of the given events, a plain write, and nothing but FINALIZE at `p` itself that would change
what `p` has finalized. -/
def plainStep [FoldOrder] (p : PeerID) (ids : Finset EventID) (s : State) : Action → Prop
  | .write w content =>
    (writtenEvent (s.nodes.get w) w content).eventId ∈ ids → plainWrite (s.nodes.get w) content
  | .resolveFinalizedConflict w cid content =>
    (finalizedResolutionEvent (s.nodes.get w) w cid content).eventId ∈ ids →
      plainWrite (s.nodes.get w) content
  | .resolveConflict _ _ _ => False
  | .syncFinalized q _ => q ≠ p
  | _ => True

instance [FoldOrder] (p : PeerID) (ids : Finset EventID) (s : State) (a : Action) :
    Decidable (plainStep p ids s a) :=
  match a with
  | .write _ _ | .resolveFinalizedConflict _ _ _ => inferInstanceAs (Decidable (_ → _))
  | .resolveConflict _ _ _ => instDecidableFalse
  | .syncFinalized _ _ => inferInstanceAs (Decidable (_ ≠ _))
  | .receive _ _ | .chunksReady _ _ | .reconcile _ | .tick _ | .heartbeat _ _ | .finalize _
  | .gc _ _ | .partition _ _ | .heal _ _ | .evict _ _ => instDecidableTrue

theorem plainStep_emission [FoldOrder] {p w : PeerID} {ids : Finset EventID} {s : State}
    {a : Action} {e : Event} (h : plainStep p ids s a) (he : Emission (s.nodes.get w) w a e) :
    e.resolvedParkedEventId = none ∧ e.parentEventIds = (s.nodes.get w).projectionBasis ∧
    (e.eventId ∈ ids → plainWrite (s.nodes.get w) e.prollyRootHash) := by
  cases he with
  | write content _ => exact ⟨rfl, rfl, h⟩
  | resolveConflict _ _ _ _ _ => exact h.elim
  | resolveFinalizedConflict _ content _ _ => exact ⟨rfl, rfl, h⟩

/-- The content that parents written over the empty root merge to: what one of them has set, and
otherwise what the empty root has. -/
structure Overlays (L : Finset Event) (parents : Finset EventID) (seen : Fin 2 → Int) : Prop where
  untouched : ∀ i, (∀ e ∈ L, e.eventId ∈ parents →
    contentOf e.prollyRootHash i = contentOf emptyRoot i) → seen i = contentOf emptyRoot i
  taken : ∀ e ∈ L, e.eventId ∈ parents → ∀ i,
    contentOf e.prollyRootHash i ≠ contentOf emptyRoot i → seen i = contentOf e.prollyRootHash i

/-- Where the finalized value of a dimension comes from: no finalized event has set it, or it is
the value of some finalized events and of all those that stand on them. -/
def Sourced (L : Finset Event) (finalized : Finset EventID) (root : ProllyRootHash) (i : Fin 2) :
    Prop :=
  (contentOf root i = contentOf emptyRoot i ∧ ∀ e ∈ L, e.eventId ∈ finalized →
    contentOf e.prollyRootHash i = contentOf emptyRoot i) ∨
  contentOf root i ≠ contentOf emptyRoot i ∧ ∃ above ⊆ finalized, above.Nonempty ∧
    (∀ e ∈ L, e.eventId ∈ finalized → (∃ b ∈ e.parentEventIds, b ∈ above) → e.eventId ∈ above) ∧
    ∀ e ∈ L, e.eventId ∈ above → contentOf e.prollyRootHash i = contentOf root i

structure Attributed (L : Finset Event) (finalized : Finset EventID) (root : ProllyRootHash) :
    Prop where
  known : finalized ⊆ L.image Event.eventId
  closed : ∀ e ∈ L, e.eventId ∈ finalized → e.parentEventIds ⊆ finalized
  start : finalized = ∅ → root = emptyRoot
  written : finalized.Nonempty → root ∈ contents
  sourced : ∀ i, Sourced L finalized root i

section Attribution

variable {L : Finset Event} {finalized : Finset EventID} {root : ProllyRootHash}

theorem Attributed.emitted (h : Attributed L finalized root) {m : Event}
    (hm : m.eventId ∉ finalized) : Attributed (insert m L) finalized root where
  known := h.known.trans (Finset.image_subset_image (Finset.subset_insert m L))
  closed := by
    intro e he hid
    rcases Finset.mem_insert.mp he with rfl | he
    · exact absurd hid hm
    · exact h.closed e he hid
  start := h.start
  written := h.written
  sourced := by
    intro i
    rcases h.sourced i with ⟨hroot, hnone⟩ | ⟨hroot, above, hsub, hne, hup, hvalue⟩
    · refine Or.inl ⟨hroot, fun e he hid => ?_⟩
      rcases Finset.mem_insert.mp he with rfl | he
      · exact absurd hid hm
      · exact hnone e he hid
    · refine Or.inr ⟨hroot, above, hsub, hne, fun e he hid => ?_, fun e he hid => ?_⟩
      · rcases Finset.mem_insert.mp he with rfl | he
        · exact absurd hid hm
        · exact hup e he hid
      · rcases Finset.mem_insert.mp he with rfl | he
        · exact absurd (hsub hid) hm
        · exact hvalue e he hid

variable {m : Event} {seen : Fin 2 → Int} {root' : ProllyRootHash}

section Replayed

variable (h : Attributed L finalized root) (hunique : ∀ e ∈ L, e.eventId = m.eventId → e = m)
  (hnew : m.eventId ∉ finalized)

include h hunique hnew

/-- A dimension that the replayed event has changed is its own. -/
theorem Attributed.sourced_of_change {i : Fin 2}
    (hset : contentOf m.prollyRootHash i ≠ contentOf emptyRoot i)
    (hroot : contentOf root' i = contentOf m.prollyRootHash i) :
    Sourced L (insert m.eventId finalized) root' i := by
  refine Or.inr ⟨hroot ▸ hset, {m.eventId}, by simp, by simp, ?_, ?_⟩
  · rintro e he hid ⟨b, hb, hin⟩
    rw [Finset.mem_singleton] at hin ⊢
    rcases Finset.mem_insert.mp hid with hid | hid
    · exact hid
    · -- nothing that is finalized stands on `m`
      exact absurd (h.closed e he hid (hin ▸ hb)) hnew
  · intro e he hid
    rw [hunique e he (Finset.mem_singleton.mp hid), hroot]

theorem Attributed.sourced_of_same (hpar : m.parentEventIds ⊆ finalized)
    (hseen : Overlays L m.parentEventIds seen) {i : Fin 2}
    (hsame : contentOf m.prollyRootHash i = seen i) (hroot : contentOf root' i = contentOf root i) :
    Sourced L (insert m.eventId finalized) root' i := by
  rcases h.sourced i with ⟨hold, hnone⟩ | ⟨hold, above, hsub, hne, hup, hvalue⟩
  · have hzero := hseen.untouched i fun e he hid => hnone e he (hpar hid)
    refine Or.inl ⟨hroot.trans hold, fun e he hid => ?_⟩
    rcases Finset.mem_insert.mp hid with hid | hid
    · rw [hunique e he hid, hsame, hzero]
    · exact hnone e he hid
  · rw [← hroot] at hold hvalue
    by_cases hon : ∃ b ∈ m.parentEventIds, b ∈ above
    · -- `m` saw the value and left it
      obtain ⟨b, hb, hin⟩ := hon
      obtain ⟨x, hx, rfl⟩ := Finset.mem_image.mp (h.known (hsub hin))
      have hvalue' : contentOf m.prollyRootHash i = contentOf root' i := by
        rw [hsame, hseen.taken x hx hb i (hvalue x hx hin ▸ hold), hvalue x hx hin]
      refine Or.inr ⟨hold, insert m.eventId above, Finset.insert_subset_insert _ hsub, by simp,
        ?_, ?_⟩
      · rintro e he hid ⟨c, hc, hcin⟩
        rcases Finset.mem_insert.mp hid with hid | hid
        · exact hid ▸ Finset.mem_insert_self _ _
        · refine Finset.mem_insert_of_mem (hup e he hid ⟨c, hc, ?_⟩)
          refine (Finset.mem_insert.mp hcin).resolve_left ?_
          rintro rfl
          exact hnew (h.closed e he hid hc)
      · intro e he hid
        rcases Finset.mem_insert.mp hid with hid | hid
        · rw [hunique e he hid, hvalue']
        · exact hvalue e he hid
    · refine Or.inr ⟨hold, above, hsub.trans (Finset.subset_insert _ _), hne, ?_, hvalue⟩
      rintro e he hid ⟨b, hb, hin⟩
      rcases Finset.mem_insert.mp hid with hid | hid
      · rw [hunique e he hid] at hb
        exact absurd ⟨b, hb, hin⟩ hon
      · exact hup e he hid ⟨b, hb, hin⟩

end Replayed

/-- A plain write that has all finalized events among its ancestors saw what is finalized. -/
theorem Attributed.seen_eq (h : Attributed L finalized root) {clock : Clock}
    (hclock : ∀ x ∈ clock.keys, clock.get x ∈ L ∧ (clock.get x).eventId = x) {id : EventID}
    (hid : id ∈ clock.keys) (hnew : id ∉ finalized)
    (hpar : (clock.get id).parentEventIds ⊆ finalized)
    (hsaw : ∀ x ∈ finalized, Path (clockParents clock) id x)
    (hseen : Overlays L (clock.get id).parentEventIds seen) (i : Fin 2) :
    seen i = contentOf root i := by
  rcases h.sourced i with ⟨hold, hnone⟩ | ⟨hold, above, hsub, ⟨c, hc⟩, hup, hvalue⟩
  · rw [hold]
    exact hseen.untouched i fun e he hmem => hnone e he (hpar hmem)
  · -- every finalized event on the way down to `c` has its value
    have hbelow : ∀ x, Path (clockParents clock) x c → x ∈ finalized → x ∈ above := by
      intro x hpath
      induction hpath using Relation.ReflTransGen.head_induction_on with
      | refl => exact fun _ => hc
      | @head x y hlink _ ih =>
        intro hx
        have hkey := mem_keys_of_mem_clockParents hlink
        obtain ⟨hmem, hxid⟩ := hclock x hkey
        rw [clockParents, if_pos hkey] at hlink
        rw [← hxid] at hx ⊢
        exact hup _ hmem hx ⟨y, hlink, ih (h.closed _ hmem hx hlink)⟩
    rcases (hsaw c (hsub hc)).cases_head with heq | ⟨b, hlink, hpath⟩
    · exact absurd (heq ▸ hsub hc) hnew
    · rw [clockParents, if_pos hid] at hlink
      have hb := hbelow b hpath (hpar hlink)
      obtain ⟨x, hx, rfl⟩ := Finset.mem_image.mp (h.known (hsub hb))
      rw [hseen.taken x hx hlink i (hvalue x hx hb ▸ hold), hvalue x hx hb]

end Attribution

section Author

variable [FoldOrder] {st : NodeState} (hclock : ContentClock st.clock)
  (hbasis : st.projectionBasis ⊆ st.clock.keys) (hroot : st.finalizedProllyRootHash = emptyRoot)
  (hanchor : ∀ b ∈ st.projectionBasis, (st.clock.get b).anchorProllyRootHash = emptyRoot)
  (hnone : (anchoredFold st.projectionBasis st.clock st.finalizedProllyRootHash).2 = ∅)

include hclock hbasis hroot hnone in
theorem serial_writtenOver : serial (headEdit st.clock) (contentOf emptyRoot)
    (sortEventIDsByHLC st.projectionBasis st.clock) = (contentOf (writtenOver st), ∅) := by
  have hheads : ∀ id ∈ sortEventIDsByHLC st.projectionBasis st.clock,
      (st.clock.get id).prollyRootHash ∈ contentRoots ∧
        (st.clock.get id).anchorProllyRootHash ∈ contentRoots := by
    intro id hid
    obtain ⟨hin, hout⟩ := hclock id (hbasis ((mem_sortEventIDsByHLC _ _ _).mp hid))
    exact ⟨Finset.mem_insert_of_mem hin, hout⟩
  rw [writtenOver, ← hnone, ← hroot]
  exact foldl_anchoredStep_serial _ hheads (st.finalizedProllyRootHash, ∅)
    (hroot ▸ Finset.mem_insert_self _ _)

omit [FoldOrder] in
include hanchor in
theorem headEdit_changes_iff {b : EventID} (hb : b ∈ st.projectionBasis) (i : Fin 2) :
    (headEdit st.clock b).changes i ↔
      contentOf (st.clock.get b).prollyRootHash i ≠ contentOf emptyRoot i := by
  rw [← hanchor b hb]
  exact Iff.rfl

include hclock hbasis hroot hanchor hnone

theorem overlays_writtenOver {L : Finset Event}
    (hheld : ∀ b ∈ st.projectionBasis, st.clock.get b ∈ L ∧ (st.clock.get b).eventId = b)
    (hunique : ∀ e ∈ L, ∀ e' ∈ L, e.eventId = e'.eventId → e = e') :
    Overlays L st.projectionBasis (contentOf (writtenOver st)) := by
  have hmem : ∀ {b}, b ∈ sortEventIDsByHLC st.projectionBasis st.clock ↔ b ∈ st.projectionBasis :=
    fun {b} => mem_sortEventIDsByHLC _ _ b
  have hover : Overlaid (headEdit st.clock) (contentOf emptyRoot)
      (sortEventIDsByHLC st.projectionBasis st.clock) := by
    apply overlaid_of_common_base
    · exact (sortList_perm _ _).nodup_iff.mpr (Enumeration.nodup_list _ _)
    · intro b hb
      exact congrArg contentOf (hanchor b (hmem.mp hb))
  obtain ⟨happlied, huntouched, -⟩ := hover
  rw [serial_writtenOver hclock hbasis hroot hnone] at happlied huntouched
  constructor
  · intro i hall
    refine huntouched i fun b hb _ hchange => ?_
    obtain ⟨hin, hid⟩ := hheld b (hmem.mp hb)
    exact (headEdit_changes_iff hanchor (hmem.mp hb) i).mp hchange
      (hall _ hin (hid.symm ▸ hmem.mp hb))
  · intro e he hid i hne
    obtain ⟨hin, hid'⟩ := hheld _ hid
    have heq := hunique _ hin _ he hid'
    rw [← heq] at hne
    have hvalue := happlied _ (hmem.mpr hid) (Finset.notMem_empty _) i
      ((headEdit_changes_iff hanchor hid i).mpr hne)
    exact hvalue.trans (congrArg (fun x : Event => contentOf x.prollyRootHash i) heq)

end Author

theorem writtenOver_order (o o' : FoldOrder) {s : State} (h : LedgerInv s) {p : PeerID}
    (hp : p ∈ peers) : @writtenOver o (s.nodes.get p) = @writtenOver o' (s.nodes.get p) :=
  congrArg Prod.fst (anchoredFold_order o o' (h.keyed hp) (h.node p hp).basis_subset_keys _)

/-! ## Runs over the empty root -/

section Plain

variable {tr : List (State × Action)} {s : State} (h : Run Step init tr s) {p : PeerID}
  (hp : p ∈ peers) (o : FoldOrder) {ids : Finset EventID}
  (hplain : ∀ x ∈ tr, @plainStep o p ids x.1 x.2)

include h hplain

theorem exists_plain_emission {e : Event} (he : e ∈ s.ledger) :
    e.resolvedParkedEventId = none ∧ (e.eventId ∈ ids → e.anchorProllyRootHash = emptyRoot) := by
  obtain ⟨t, a, w, hstep, -, hemit⟩ := exists_emission h he
  obtain ⟨hres, -, hwrite⟩ := plainStep_emission (hplain _ hstep) hemit
  refine ⟨hres, fun hid => ?_⟩
  obtain ⟨hroot, -⟩ := hwrite hid
  obtain ⟨_, _, _, _, _, rfl, _, _⟩ := emission_spec hemit
  exact hroot

include hp

theorem notMem_subsumed_of_plain (id : EventID) :
    id ∉ subsumedEvents (s.nodes.get p).clock := by
  intro hmem
  obtain ⟨root, hroot, -⟩ := path_of_mem_unrolledClosure hmem
  obtain ⟨x, hx, hres⟩ := mem_resolvedParkedRoots.mp hroot
  obtain ⟨hin, -⟩ := ((ledgerInv_of_reachable ⟨tr, h⟩).node p hp).get_mem hx
  rw [(exists_plain_emission h o hplain hin).1] at hres
  cases hres

theorem plain_author {o' : FoldOrder} (he : @finalizeEnabled o' (s.nodes.get p))
    (hids : (s.nodes.get p).finalizedEvents.keys ⊆ ids)
    (hid : @nextFinalizationEventID o' (s.nodes.get p) ∈ ids) :
    let id := @nextFinalizationEventID o' (s.nodes.get p)
    let m := (s.nodes.get p).clock.get id
    let base := @finalizationReplayBase o' (s.nodes.get p).clock id
    m.parentEventIds ⊆ (s.nodes.get p).finalizedEvents.keys ∧
    (m.parentEventIds = ∅ → base = emptyRoot) ∧
    Overlays s.ledger m.parentEventIds (contentOf base) ∧
    ∀ i, contentOf m.prollyRootHash i ≠ contentOf base i →
      contentOf m.prollyRootHash i ≠ contentOf emptyRoot i := by
  intro id m base
  have hinv := contentInv_of_reachable ⟨tr, h⟩
  have helig := Finset.mem_filter.mp (@nextFinalizationEventID_mem o' _ he.1)
  have hkeys := (Finset.mem_filter.mp helig.1).1
  obtain ⟨t, a, w, hstep, hw, hemit, hnone, hbase⟩ :=
    exists_author h hp o' he (notMem_subsumed_of_plain h hp o hplain _)
  obtain ⟨-, hparents, hwrite⟩ := @plainStep_emission o _ _ _ _ _ _ (hplain _ hstep) hemit
  obtain ⟨hroot, hkeep⟩ := hwrite (((hinv.node p hp).get_mem hkeys).2.symm ▸ hid)
  have ht := contentInv_of_reachable (h.reachable_of_mem hstep)
  obtain ⟨tr₀, hrun₀, hsub₀⟩ := h.initial_of_mem hstep
  obtain ⟨t', tr', ⟨o₁, hs⟩, hrest⟩ := h.step_of_mem hstep
  have hL : t.ledger ⊆ s.ledger :=
    (ledger_subset_of_run ht.toLedgerInv ((Run.nil.snoc ⟨o₁, hs⟩).append hrest)).2
  have hheld : ∀ b ∈ (t.nodes.get w).projectionBasis, (t.nodes.get w).clock.get b ∈ t.ledger ∧
      ((t.nodes.get w).clock.get b).eventId = b := fun b hb =>
    (ht.node w hw).get_mem ((ht.node w hw).basis_subset_keys hb)
  have hanchor : ∀ b ∈ (t.nodes.get w).projectionBasis,
      ((t.nodes.get w).clock.get b).anchorProllyRootHash = emptyRoot := by
    intro b hb
    obtain ⟨hin, hbid⟩ := hheld b hb
    refine (exists_plain_emission hrun₀ o (fun x hx => hplain x (hsub₀ hx)) hin).2 ?_
    exact hbid.symm ▸ hids (helig.2.1 (hparents.symm ▸ hb))
  have hbase : base = @writtenOver o' (t.nodes.get w) := hbase
  have hparents : m.parentEventIds = (t.nodes.get w).projectionBasis := hparents
  rw [hbase, hparents]
  refine ⟨hparents ▸ helig.2.1, fun hnil => ?_, ?_, ?_⟩
  · rw [@writtenOver_of_no_basis o' _ hnil]
    exact hroot
  · exact @overlays_writtenOver o' _ (ht.contentClock hw) (ht.node w hw).basis_subset_keys hroot
      hanchor hnone _ (fun b hb => ⟨hL (hheld b hb).1, (hheld b hb).2⟩) hinv.unique
  · rw [writtenOver_order o' o ht.toLedgerInv hw]
    exact hkeep

theorem attributed_finalize {o' : FoldOrder} (he : @finalizeEnabled o' (s.nodes.get p))
    (hold : Attributed s.ledger (s.nodes.get p).finalizedEvents.keys
      (s.nodes.get p).finalizedProllyRootHash)
    (hids : (@finalizeResult o' (s.nodes.get p)).finalizedEvents.keys ⊆ ids) :
    Attributed s.ledger (@finalizeResult o' (s.nodes.get p)).finalizedEvents.keys
      (@finalizeResult o' (s.nodes.get p)).finalizedProllyRootHash := by
  have hinv := contentInv_of_reachable ⟨tr, h⟩
  have hsub := notMem_subsumed_of_plain h hp o hplain (@nextFinalizationEventID o' (s.nodes.get p))
  have hnext := @finalized_finalizeResult o' _ hinv _ hp he
  obtain ⟨hbase, hconf, hmerge⟩ := replayed_root_eq h hp o' he hsub
  rw [hnext.events] at hids ⊢
  rw [Finset.insert_subset_iff] at hids
  obtain ⟨hpar, hfirst, hseen, hkeep⟩ := plain_author h hp o hplain he hids.2 hids.1
  obtain ⟨hmem, hid⟩ := (hinv.node p hp).get_mem hnext.fresh.1
  obtain ⟨hroot, -⟩ := hinv.contentClock hp _ hnext.fresh.1
  have hunique := fun e he => hinv.unique e he _ hmem
  constructor
  case known =>
    refine Finset.insert_subset ?_ hold.known
    exact Finset.mem_image.mpr ⟨_, hmem, hid⟩
  case closed =>
    intro e he hin
    refine Finset.Subset.trans ?_ (Finset.subset_insert _ _)
    rcases Finset.mem_insert.mp hin with hin | hin
    · rw [hunique e he (hin.trans hid.symm)]
      exact hpar
    · exact hold.closed e he hin
  case start => exact fun hnil => absurd hnil (Finset.insert_ne_empty _ _)
  case written =>
    intro _
    rw [hmerge]
    refine mergeRoots_mem_contents ?_ hroot hbase hconf
    rcases Finset.eq_empty_or_nonempty (s.nodes.get p).finalizedEvents.keys with hnil | hsome
    · exact Or.inr ⟨hold.start hnil, hfirst (Finset.subset_empty.mp (hnil ▸ hpar))⟩
    · exact Or.inl (hold.written hsome)
  case sourced =>
    intro i
    rw [← hid]
    have hnew := hid.symm ▸ hnext.fresh.2
    have hreplay := congrFun (hnext.replayed hsub).2 i
    by_cases hchange : (@replayEdit o' (s.nodes.get p).clock
        (@nextFinalizationEventID o' (s.nodes.get p))).changes i
    · rw [Edit.appliedTo, if_pos hchange] at hreplay
      exact hold.sourced_of_change hunique hnew (hkeep i hchange) hreplay
    · rw [Edit.appliedTo, if_neg hchange] at hreplay
      exact hold.sourced_of_same hunique hnew hpar hseen (not_not.mp hchange) hreplay

theorem attributed_of_run (hids : (s.nodes.get p).finalizedEvents.keys ⊆ ids) :
    Attributed s.ledger (s.nodes.get p).finalizedEvents.keys
      (s.nodes.get p).finalizedProllyRootHash := by
  induction h with
  | nil =>
    have hget : init.nodes.get p = emptyNodeState p := Map.get_mapBy_of_mem _ hp
    have hL : init.ledger = ∅ := by decide
    rw [hget, hL]
    exact ⟨by simp [emptyNodeState], by simp, fun _ => rfl, by simp [emptyNodeState],
      fun i => Or.inl ⟨rfl, by simp⟩⟩
  | @snoc tr s a s' hr hs ih =>
    rw [List.forall_mem_cons] at hplain
    obtain ⟨o', hs⟩ := hs
    have hled := ledgerInv_of_reachable ⟨tr, hr⟩
    have heff := @effect_of_step o' _ _ _ hs
    rcases @finalized_effect o' _ _ _ heff p with hsame | ⟨rfl, he, hst⟩ | ⟨q, -, rfl, -⟩
    · obtain ⟨-, hroot, hfin, -⟩ := hsame
      rw [hfin] at hids ⊢
      rw [hroot]
      have hold := ih hplain.2 hids
      rcases @ledger_effect o' _ _ _ hled heff with ⟨w, m, hw, hemit, hL⟩ | hL
      · rw [hL]
        refine hold.emitted fun hmem => ?_
        obtain ⟨x, hx, hid⟩ := Finset.mem_image.mp (hold.known hmem)
        exact hled.emission_fresh hw hemit hx hid
      · rw [hL]
        exact hold
    · have hL : s'.ledger = s.ledger := by
        rcases @ledger_effect o' _ _ _ hled heff with ⟨w, m, -, hemit, -⟩ | hL
        · cases hemit
        · exact hL
      rw [hst] at hids ⊢
      rw [hL]
      refine attributed_finalize hr hp o hplain.2 he (ih hplain.2 ?_) hids
      exact (Finset.subset_insert _ _).trans (((@finalized_finalizeResult o' _
        (contentInv_of_reachable ⟨tr, hr⟩) _ hp he).events).ge.trans hids)
    · exact absurd rfl hplain.1

end Plain

/-! ## A write that saw everything -/

theorem contents_ext {a b : ProllyRootHash} (ha : a ∈ contents) (hb : b ∈ contents)
    (h : ∀ i, contentOf a i = contentOf b i) : a = b := by
  have hall : ∀ a ∈ contents, ∀ b ∈ contents, (∀ i, contentOf a i = contentOf b i) → a = b := by
    decide
  exact hall a ha b hb h

/-- An event that has everything finalized among its ancestors is replayed to its own root exactly
if, in every dimension that it left as its author saw it, the finalized root has what the author
saw; if it changed nothing at all, that is the finalized root itself. What the author saw is its
tentative root, unless none of its tentative heads was ready. In a history of plain writes, which
the peer has finalized on its own, this is always so. -/
theorem latest_write_keeps_its_root_iff {tr : List (State × Action)} {s : State}
    (h : Run Step init tr s) {p : PeerID} (hp : p ∈ peers) (o : FoldOrder)
    (he : @finalizeEnabled o (s.nodes.get p))
    (hsub : ¬@nextFinalizationIsSubsumed o (s.nodes.get p))
    (hsaw : ∀ x ∈ (s.nodes.get p).finalizedEvents.keys, Path (clockParents (s.nodes.get p).clock)
      (@nextFinalizationEventID o (s.nodes.get p)) x) :
    let id := @nextFinalizationEventID o (s.nodes.get p)
    let e := (s.nodes.get p).clock.get id
    let finalized := (s.nodes.get p).finalizedProllyRootHash
    let result := (@finalizeResult o (s.nodes.get p)).finalizedProllyRootHash
    (∃ t a w, (t, a) ∈ tr ∧ Emission (t.nodes.get w) w a e ∧
      (tentativeHeadEventIDs (t.nodes.get w) = ∅ ∨ mergeableHeadEventIDs (t.nodes.get w) ≠ ∅ →
        @writtenOver o (t.nodes.get w) = (t.nodes.get w).tentativeProllyRootHash) ∧
      (result = e.prollyRootHash ↔
        (∀ i, contentOf e.prollyRootHash i = contentOf (@writtenOver o (t.nodes.get w)) i →
          contentOf finalized i = contentOf (@writtenOver o (t.nodes.get w)) i) ∧
        (e.prollyRootHash = @writtenOver o (t.nodes.get w) →
          finalized = @writtenOver o (t.nodes.get w)))) ∧
    ((∀ x ∈ tr, @plainStep o p (insert id (s.nodes.get p).finalizedEvents.keys) x.1 x.2) →
      result = e.prollyRootHash) := by
  intro id e finalized result
  have hinv := contentInv_of_reachable ⟨tr, h⟩
  have hnot : id ∉ subsumedEvents (s.nodes.get p).clock := fun hs => hsub ⟨he.1, hs⟩
  have hkeys : id ∈ (s.nodes.get p).clock.keys := (Finset.mem_filter.mp (Finset.mem_filter.mp
    (@nextFinalizationEventID_mem o _ he.1)).1).1
  obtain ⟨hroot, -⟩ := hinv.contentClock hp _ hkeys
  obtain ⟨hbase, hconf, hmerge⟩ := replayed_root_eq h hp o he hnot
  have hiff := mergeRoots_eq_theirs_iff (hinv.finalized_root hp) hroot hbase hconf
  rw [← hmerge] at hiff
  constructor
  · obtain ⟨t, a, w, hstep, hw, hemit, -, hseen⟩ := exists_author h hp o he hnot
    refine ⟨t, a, w, hstep, hemit, writtenOver_eq_tentative (h.reachable_of_mem hstep) hw o, ?_⟩
    rw [← hseen]
    exact hiff
  · intro hplain
    have hown := attributed_of_run h hp o hplain (Finset.subset_insert _ _)
    obtain ⟨hpar, hfirst, hover, -⟩ := plain_author h hp o hplain he (Finset.subset_insert _ _)
      (Finset.mem_insert_self _ _)
    have hsame := hown.seen_eq (fun x hx => (hinv.node p hp).get_mem hx) hkeys
      (@finalized_finalizeResult o _ hinv _ hp he).fresh.2 hpar hsaw hover
    refine hiff.mpr ⟨fun i _ => (hsame i).symm, fun heq => ?_⟩
    -- a write that changed nothing had something finalized below it
    have hsome : (s.nodes.get p).finalizedEvents.keys.Nonempty := by
      rw [Finset.nonempty_iff_ne_empty]
      intro hnil
      rw [hfirst (Finset.subset_empty.mp (hnil ▸ hpar))] at heq
      exact absurd (heq ▸ hroot) (by decide)
    exact contents_ext (hown.written hsome) (heq ▸ hroot) fun i => (hsame i).symm

/-! ## A write that keeps its root, and two that lose it -/

theorem path_of_closure {clock : Clock} {id : EventID} {ids : Finset EventID}
    (h : ids ⊆ ancestorIdClosure {id} clock) : ∀ x ∈ ids, Path (clockParents clock) id x := by
  intro x hx
  obtain ⟨y, hy, hpath⟩ := path_of_mem_unrolledClosure (h hx)
  rw [← Finset.mem_singleton.mp hy]
  exact hpath

/-- Peers 1 and 2 set dimension A side by side, peer 1 sets dimension B on top of both, and
finalizes the two. -/
def joinRun : List Action :=
  let left : Event := ⟨⟨1, 1, 1⟩, 11, 0, ∅, none, none, ⟨1, 1, 1⟩, 1⟩
  let right : Event := ⟨⟨2, 1, 1⟩, 11, 0, ∅, none, none, ⟨1, 1, 2⟩, 2⟩
  let top : Event := ⟨⟨1, 1, 3⟩, 13, 0, {⟨2, 1, 1⟩, ⟨1, 1, 1⟩}, none, none, ⟨1, 3, 1⟩, 1⟩
  [.write 1 11, .write 2 11] ++ deliver left ++ deliver right ++ [.write 1 13] ++ deliver top ++
    heartbeats ++ [.finalize 1, .finalize 1]

theorem latest_write_keeps_its_root_iff_on_join : ∃ s, Reachable Step init s ∧
    (s.nodes.get 1).finalizedEvents.keys = {⟨1, 1, 1⟩, ⟨2, 1, 1⟩} ∧
    (s.nodes.get 1).finalizedProllyRootHash = 11 ∧
    (@finalizeResult ascendingFolds (s.nodes.get 1)).finalizedProllyRootHash =
      ((s.nodes.get 1).clock.get
        (@nextFinalizationEventID ascendingFolds (s.nodes.get 1))).prollyRootHash := by
  have hrun : Run Step init (runOutcome joinRun).1 (runOutcome joinRun).2 :=
    run_runOutcome (by decide +kernel)
  refine ⟨_, ⟨_, hrun⟩, by decide +kernel, by decide +kernel, ?_⟩
  exact (latest_write_keeps_its_root_iff hrun (p := 1) (by decide) ascendingFolds
    (by decide +kernel) (by decide +kernel) (path_of_closure (by decide +kernel))).2
    (by decide +kernel)

/-- Peer 1 sets dimension A, takes it back, and writes once more; each write has the one before
as its parent. The second write is anchored at the empty root, so once the first is
finalized its revert no longer counts as a change. -/
def revertRun : List Action :=
  let first : Event := ⟨⟨1, 1, 1⟩, 11, 0, ∅, none, none, ⟨1, 1, 1⟩, 1⟩
  let second : Event := ⟨⟨1, 1, 2⟩, 10, 0, {⟨1, 1, 1⟩}, none, none, ⟨1, 2, 1⟩, 1⟩
  let third : Event := ⟨⟨1, 1, 3⟩, 13, 11, {⟨1, 1, 2⟩}, none, none, ⟨1, 3, 1⟩, 1⟩
  [.write 1 11] ++ deliver first ++ heartbeats ++ [.write 1 10, .finalize 1] ++ deliver second ++
    [.write 1 13] ++ deliver third ++ heartbeats ++ [.finalize 1]

def revertState : State := (runOutcome revertRun).2

/-- Peers 2 and 1 each write the content of peer 1 again, peer 1 after it has finalized the first.
Against that anchor its second write changes nothing, so peer 3, which has finalized nothing,
sees the empty root and writes dimension B alone. -/
def laggingRun : List Action :=
  let first : Event := ⟨⟨1, 1, 1⟩, 11, 0, ∅, none, none, ⟨1, 1, 1⟩, 1⟩
  let second : Event := ⟨⟨2, 1, 3⟩, 11, 0, {⟨1, 1, 1⟩}, none, none, ⟨1, 3, 2⟩, 2⟩
  let third : Event := ⟨⟨1, 1, 5⟩, 11, 11, {⟨2, 1, 3⟩}, none, none, ⟨1, 5, 1⟩, 1⟩
  let last : Event := ⟨⟨3, 1, 7⟩, 12, 0, {⟨1, 1, 5⟩}, none, none, ⟨1, 7, 3⟩, 3⟩
  [.write 1 11] ++ deliver first ++ heartbeats ++ [.finalize 1, .write 2 11] ++ deliver second ++
    [.write 1 11] ++ deliver third ++ [.write 3 12] ++ deliver last ++ heartbeats ++
    [.finalize 1, .finalize 1]

def laggingState : State := (runOutcome laggingRun).2

/-- FINALIZE replays an event that has everything finalized among its ancestors, and the root it
comes to is another than that of the event. -/
def LosesLatestWrite [FoldOrder] (st : NodeState) : Prop :=
  finalizeEnabled st ∧ ¬nextFinalizationIsSubsumed st ∧
  (∀ x ∈ st.finalizedEvents.keys, Path (clockParents st.clock) (nextFinalizationEventID st) x) ∧
  (finalizeResult st).finalizedProllyRootHash ≠
    (st.clock.get (nextFinalizationEventID st)).prollyRootHash

/-- The third write of the one run and the last one of the other saw all that is finalized, and
yet their replay gives another root. In the second run every change of an event shows against
its anchor. -/
theorem latest_write_loses_its_root :
    (Reachable Step init revertState ∧
      @LosesLatestWrite ascendingFolds (revertState.nodes.get 1)) ∧
    Reachable Step init laggingState ∧
      @LosesLatestWrite ascendingFolds (laggingState.nodes.get 1) ∧
      ∀ id ∈ (laggingState.nodes.get 1).clock.keys, ∀ i,
        (@replayEdit ascendingFolds (laggingState.nodes.get 1).clock id).changes i →
          (headEdit (laggingState.nodes.get 1).clock id).changes i :=
  ⟨⟨⟨_, run_runOutcome (by decide +kernel)⟩, by decide +kernel, by decide +kernel,
    path_of_closure (by decide +kernel), by decide +kernel⟩,
    ⟨_, run_runOutcome (by decide +kernel)⟩, ⟨by decide +kernel, by decide +kernel,
    path_of_closure (by decide +kernel), by decide +kernel⟩, by decide +kernel⟩

end DoltSwarm.Protocol
