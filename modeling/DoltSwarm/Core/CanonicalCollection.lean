import DoltSwarm.Core.Collect

/-!
# The collected list is canonical

Whatever order the commits come in, however they are split between the two sides and however
the reducing map is ranged over, the collected list is the same. All that is assumed of the
commits is that a hash comes with one message.
-/

namespace DoltSwarm.Core

set_option autoImplicit false

def Determined (cs : List Commit) : Prop :=
  ∀ a ∈ cs, ∀ b ∈ cs, a.hash = b.hash → a.message = b.message

/-- Strictly above the finalized base; a base at the zero timestamp does not count. -/
def aboveBase (fb : Option FinalizedBase) (hlc : HLCTimestamp) : Prop :=
  ∀ base ∈ fb, base.hlc ≠ HLCTimestamp.zero → base.hlc.less hlc = true

def carriesAbove (fb : Option FinalizedBase) (cs : List Commit) (c : Commit) (hlc : HLCTimestamp) :
    Prop :=
  c ∈ cs ∧ (∃ m, parseCommitMetadata c.message = some m ∧ m.hlc = hlc) ∧ aboveBase fb hlc

/-- What the list collected from the commits `cs` has to be. -/
structure Canonical (fb : Option FinalizedBase) (cs : List Commit) (l : List CommitWithMeta) :
    Prop where
  ascending : l.Pairwise fun a b => commitLess a b = true
  sound : ∀ x ∈ l, carriesAbove fb cs x.commit x.hlc
  smallest : ∀ c hlc, carriesAbove fb cs c hlc → hlc ≠ HLCTimestamp.zero →
    ∃ x ∈ l, x.hlc = hlc ∧ (∀ y ∈ l, y.hlc = hlc → y = x) ∧
      ∀ d, carriesAbove fb cs d hlc → x.commit.hash ≤ d.hash
  zeros : ∀ c, carriesAbove fb cs c HLCTimestamp.zero →
    ∃ x ∈ l, x.hlc = HLCTimestamp.zero ∧ x.commit.hash = c.hash ∧
      ∀ y ∈ l, y.hlc = HLCTimestamp.zero → y.commit.hash = c.hash → y = x
  zeros_last : l.Pairwise fun a b => a.hlc = HLCTimestamp.zero → b.hlc = HLCTimestamp.zero

instance (cs : List Commit) : Decidable (Determined cs) :=
  inferInstanceAs (Decidable (∀ a ∈ cs, ∀ b ∈ cs, a.hash = b.hash → a.message = b.message))

section Members

variable {fb : Option FinalizedBase} {cs : List Commit}

theorem belowBase_eq_false_iff (fb : Option FinalizedBase) (hlc : HLCTimestamp) :
    belowBase fb hlc = false ↔ aboveBase fb hlc := by
  cases fb with
  | none => simp [belowBase, aboveBase]
  | some base =>
    have hzero := HLCTimestamp.isZero_iff base.hlc
    cases hz : base.hlc.isZero with
    | true =>
      have hbase : base.hlc = HLCTimestamp.zero := hzero.mp hz
      exact iff_of_true (by simp [belowBase, hz]) (by simp [aboveBase, hbase])
    | false =>
      have hbase : base.hlc ≠ HLCTimestamp.zero := fun h => by simp [hzero.mpr h] at hz
      simp [belowBase, aboveBase, hz, hbase]

theorem mem_userCommits_iff {x : CommitWithMeta} :
    x ∈ userCommits fb cs ↔ carriesAbove fb cs x.commit x.hlc := by
  rw [mem_userCommits, userCommit_eq_some_iff, belowBase_eq_false_iff]
  constructor
  · rintro ⟨hc, -, habove, m, hm, -, hhlc⟩
    exact ⟨hc, ⟨m, hm, hhlc⟩, habove⟩
  · rintro ⟨hc, ⟨m, hm, hhlc⟩, habove⟩
    exact ⟨hc, rfl, habove, m, hm, parseCommitMetadata_kind hm, hhlc⟩

theorem carriesAbove_hlc_eq {a b : Commit} {h h' : HLCTimestamp} (hdet : Determined cs)
    (ha : carriesAbove fb cs a h) (hb : carriesAbove fb cs b h') (hash : a.hash = b.hash) :
    h = h' := by
  obtain ⟨hac, ⟨m, hm, rfl⟩, -⟩ := ha
  obtain ⟨hbc, ⟨m', hm', rfl⟩, -⟩ := hb
  rw [hdet a hac b hbc hash, hm'] at hm
  rw [Option.some.inj hm]

theorem dedupKey_eq_iff (a b : CommitWithMeta) : dedupKey a = dedupKey b ↔
    a.hlc = b.hlc ∧ (a.hlc = HLCTimestamp.zero → a.commit.hash = b.commit.hash) := by
  constructor
  · intro h
    have hhlc := hlc_eq_of_dedupKey h
    refine ⟨hhlc, fun hzero => ?_⟩
    have hz : a.hlc.isZero = true := (HLCTimestamp.isZero_iff _).mpr hzero
    simp only [dedupKey, ← hhlc, hz, if_true] at h
    have htext := congrArg String.toList h
    rw [String.toList_append, String.toList_append] at htext
    exact String.toList_inj.mp (List.append_cancel_left htext)
  · rintro ⟨hhlc, hhash⟩
    unfold dedupKey
    rw [hhlc] at hhash ⊢
    split_ifs with hz
    · rw [hhash ((HLCTimestamp.isZero_iff _).mp hz)]
    · rfl

end Members

section Survivors

variable {l l' : List CommitWithMeta} {order order' : RangeOrder CommitWithMeta}
  {x y : CommitWithMeta}

theorem hash_le_of_survivor (hx : x ∈ deduplicateByHLCDeterministic order l) :
    x ∈ l ∧ ∀ y ∈ l, dedupKey y = dedupKey x → x.commit.hash ≤ y.commit.hash := by
  obtain ⟨hmem, -, hmin⟩ := (smallestKept_foldl l).kept _ x (mem_deduplicate.mp hx)
  exact ⟨hmem, fun y hy hkey => not_lt.mp (hmin y hy hkey)⟩

theorem exists_survivor (order : RangeOrder CommitWithMeta) (hy : y ∈ l) :
    ∃ x ∈ deduplicateByHLCDeterministic order l, dedupKey x = dedupKey y := by
  obtain ⟨x, hx⟩ := (smallestKept_foldl l).found y hy
  have hkey := ((smallestKept_foldl l).kept _ x hx).2.1
  exact ⟨x, mem_deduplicate.mpr (hkey.symm ▸ hx), hkey⟩

theorem survivor_unique (hx : x ∈ deduplicateByHLCDeterministic order l)
    (hy : y ∈ deduplicateByHLCDeterministic order l) (hkey : dedupKey x = dedupKey y) : x = y :=
  List.inj_on_of_nodup_map (nodup_dedupKey order l) hx hy hkey

theorem hashesTell_survivors (fb : Option FinalizedBase) (order : RangeOrder CommitWithMeta)
    {cs : List Commit} (hdet : Determined cs) :
    HashesTell (deduplicateByHLCDeterministic order (userCommits fb cs)) := by
  intro a ha b hb hash
  refine survivor_unique ha hb ((dedupKey_eq_iff a b).mpr ⟨?_, fun _ => hash⟩)
  exact carriesAbove_hlc_eq hdet (mem_userCommits_iff.mp (hash_le_of_survivor ha).1)
    (mem_userCommits_iff.mp (hash_le_of_survivor hb).1) hash

def place (x : CommitWithMeta) : HLCTimestamp × Hash := (x.hlc, x.commit.hash)

def placeBefore (u v : HLCTimestamp × Hash) : Prop := hlcBefore u.1 v.1 ∨ u.1 = v.1 ∧ u.2 < v.2

theorem placeBefore_asymm {u v : HLCTimestamp × Hash} (huv : placeBefore u v) :
    ¬ placeBefore v u := by
  intro hvu
  rcases huv with h | ⟨h, hlt⟩ <;> rcases hvu with h' | ⟨h', hlt'⟩
  · exact hlcBefore_irrefl _ (hlcBefore_trans h h')
  · exact hlcBefore_irrefl _ (h' ▸ h)
  · exact hlcBefore_irrefl _ (h ▸ h')
  · exact lt_asymm hlt hlt'

theorem exists_survivor_at_place (hsub : ∀ z, z ∈ l ↔ z ∈ l')
    (hx : x ∈ deduplicateByHLCDeterministic order l) :
    ∃ y ∈ deduplicateByHLCDeterministic order' l', place y = place x := by
  obtain ⟨hmem, hmin⟩ := hash_le_of_survivor hx
  obtain ⟨y, hy, hkey⟩ := exists_survivor order' ((hsub x).mp hmem)
  obtain ⟨hymem, hymin⟩ := hash_le_of_survivor hy
  have hle := hmin y ((hsub y).mpr hymem) hkey
  have hge := hymin x ((hsub x).mp hmem) hkey.symm
  exact ⟨y, hy, Prod.ext ((dedupKey_eq_iff y x).mp hkey).1 (le_antisymm hge hle)⟩

end Survivors

section Lists

variable {ours imported ours' imported' : List Commit} (fb : Option FinalizedBase)
  (order order' : RangeOrder CommitWithMeta)

theorem ascending_collectUserCommits (hdet : Determined (ours ++ imported)) :
    Lib.Ascending commitLess (collectUserCommits order ours imported fb) := by
  rw [collectUserCommits, userCommits_append]
  exact Lib.ascending_sortList (commitLess_strictTotal (hashesTell_survivors fb order hdet))
    fun a ha => ha

theorem strictlyAscending_collectUserCommits (hdet : Determined (ours ++ imported)) :
    (collectUserCommits order ours imported fb).Pairwise fun a b => commitLess a b = true := by
  have hnodup := nodup_collectUserCommits order ours imported fb
  rw [List.nodup_iff_pairwise_ne, List.pairwise_map] at hnodup
  refine List.Pairwise.imp_of_mem (fun {a b} ha hb h => ?_)
    ((ascending_collectUserCommits fb order hdet).and hnodup)
  have htotal := commitLess_strictTotal (hashesTell_survivors fb order hdet)
  rcases htotal.tri a b (mem_collectUserCommits.mp ha) (mem_collectUserCommits.mp hb)
    with hlt | rfl | hlt
  · exact hlt
  · exact absurd rfl h.2
  · rw [h.1] at hlt
    cases hlt

theorem canonical_collectUserCommits (hdet : Determined (ours ++ imported)) :
    Canonical fb (ours ++ imported) (collectUserCommits order ours imported fb) where
  ascending := strictlyAscending_collectUserCommits fb order hdet
  sound x hx := mem_userCommits_iff.mp (mem_userCommits_of_collected hx)
  smallest c hlc hc hne := by
    have hmem : (⟨c, hlc⟩ : CommitWithMeta) ∈ userCommits fb (ours ++ imported) :=
      mem_userCommits_iff.mpr hc
    obtain ⟨x, hx, hkey⟩ := exists_survivor order hmem
    have hhlc : x.hlc = hlc := ((dedupKey_eq_iff _ _).mp hkey).1
    have hsame : ∀ y : CommitWithMeta, y.hlc = hlc → dedupKey y = dedupKey x := fun y hy =>
      (dedupKey_eq_iff y x).mpr ⟨hy.trans hhlc.symm, fun hz => absurd (hy ▸ hz) hne⟩
    refine ⟨x, mem_collectUserCommits.mpr hx, hhlc, fun y hy hyh => ?_, fun d hd => ?_⟩
    · exact survivor_unique (mem_collectUserCommits.mp hy) hx (hsame y hyh)
    · exact (hash_le_of_survivor hx).2 ⟨d, hlc⟩ (mem_userCommits_iff.mpr hd) (hsame ⟨d, hlc⟩ rfl)
  zeros c hc := by
    have hmem : (⟨c, HLCTimestamp.zero⟩ : CommitWithMeta) ∈ userCommits fb (ours ++ imported) :=
      mem_userCommits_iff.mpr hc
    obtain ⟨x, hx, hkey⟩ := exists_survivor order hmem
    obtain ⟨hhlc, hhash⟩ := (dedupKey_eq_iff _ _).mp hkey
    refine ⟨x, mem_collectUserCommits.mpr hx, hhlc, hhash hhlc, fun y hy hyh hash => ?_⟩
    refine survivor_unique (mem_collectUserCommits.mp hy) hx ((dedupKey_eq_iff y x).mpr ?_)
    exact ⟨hyh.trans hhlc.symm, fun _ => hash.trans (hhash hhlc).symm⟩
  zeros_last := by
    refine (strictlyAscending_collectUserCommits fb order hdet).imp fun {a b} hlt hzero => ?_
    rcases (commitLess_iff a b).mp hlt with hbefore | ⟨heq, -⟩
    · have hz := (HLCTimestamp.isZero_iff _).mpr hzero
      rw [hbefore.1] at hz
      cases hz
    · exact heq ▸ hzero

theorem places_ascending (hdet : Determined (ours ++ imported)) :
    ((collectUserCommits order ours imported fb).map place).Pairwise placeBefore :=
  List.pairwise_map.mpr ((strictlyAscending_collectUserCommits fb order hdet).imp
    fun {a b} h => (commitLess_iff a b).mp h)

theorem places_collectUserCommits (hdet : Determined (ours ++ imported))
    (hsame : ∀ c, c ∈ ours ++ imported ↔ c ∈ ours' ++ imported') :
    (collectUserCommits order ours imported fb).map place =
      (collectUserCommits order' ours' imported' fb).map place := by
  have hdet' : Determined (ours' ++ imported') := fun a ha b hb =>
    hdet a ((hsame a).mpr ha) b ((hsame b).mpr hb)
  have husers : ∀ z, z ∈ userCommits fb (ours ++ imported) ↔
      z ∈ userCommits fb (ours' ++ imported') := by
    intro z
    rw [mem_userCommits, mem_userCommits, hsame]
  refine Lib.eq_of_pairwise_of_mem_iff (fun _ _ => placeBefore_asymm)
    (places_ascending fb order hdet) (places_ascending fb order' hdet') fun u => ?_
  simp only [List.mem_map, mem_collectUserCommits]
  constructor
  · rintro ⟨x, hx, rfl⟩
    exact exists_survivor_at_place husers hx
  · rintro ⟨x, hx, rfl⟩
    exact exists_survivor_at_place (fun z => (husers z).symm) hx

theorem map_eq_of_map_place {β : Type} {l l' : List CommitWithMeta} {f : CommitWithMeta → β}
    (h : l.map place = l'.map place)
    (hf : ∀ a ∈ l, ∀ b ∈ l', place a = place b → f a = f b) : l.map f = l'.map f := by
  induction l generalizing l' with
  | nil =>
    rw [List.map_eq_nil_iff.mp h.symm]
  | cons a l ih =>
    obtain ⟨b, l', rfl, hab, hrest⟩ := List.map_eq_cons_iff.mp h.symm
    rw [List.map_cons, List.map_cons, hf a List.mem_cons_self b List.mem_cons_self hab.symm,
      ih hrest.symm fun x hx y hy => hf x (List.mem_cons_of_mem a hx) y (List.mem_cons_of_mem b hy)]

/-- Two pairs of lists with the same commits are collected into the same list, whatever the
orders, and that list is what it has to be. Copies of a commit that differ in nothing but
author or date may stand in for each other. Any sorted permutation of the survivors is the
collected list, so it does not matter how the sort proceeds. -/
theorem collectUserCommits_canonical (hdet : Determined (ours ++ imported))
    (hsame : ∀ c, c ∈ ours ++ imported ↔ c ∈ ours' ++ imported') :
    Canonical fb (ours ++ imported) (collectUserCommits order ours imported fb) ∧
    ((collectUserCommits order ours imported fb).map fun x =>
        (x.hlc, x.commit.hash, x.commit.message)) =
      ((collectUserCommits order' ours' imported' fb).map fun x =>
        (x.hlc, x.commit.hash, x.commit.message)) ∧
    ((∀ a ∈ ours ++ imported, ∀ b ∈ ours ++ imported, a.hash = b.hash → a = b) →
      collectUserCommits order ours imported fb =
        collectUserCommits order' ours' imported' fb) ∧
    ∀ l : List CommitWithMeta,
      l.Perm (deduplicateByHLCDeterministic order
        (userCommits fb ours ++ userCommits fb imported)) →
      (l.Pairwise fun a b => commitLess b a = false) →
      l = collectUserCommits order ours imported fb := by
  have hplaces := places_collectUserCommits fb order order' hdet hsame
  have hfrom : ∀ x ∈ collectUserCommits order ours imported fb,
      x.commit ∈ ours ++ imported := fun x hx =>
    (mem_userCommits.mp (mem_userCommits_of_collected hx)).1
  have hfrom' : ∀ x ∈ collectUserCommits order' ours' imported' fb,
      x.commit ∈ ours ++ imported := fun x hx =>
    (hsame _).mpr (mem_userCommits.mp (mem_userCommits_of_collected hx)).1
  refine ⟨canonical_collectUserCommits fb order hdet, ?_, fun hrows => ?_, fun l hl hsorted => ?_⟩
  · refine map_eq_of_map_place hplaces fun a ha b hb hab => ?_
    obtain ⟨hhlc, hhash⟩ := Prod.mk.inj hab
    rw [hhlc, hhash, hdet _ (hfrom a ha) _ (hfrom' b hb) hhash]
  · have hid := map_eq_of_map_place (f := id) hplaces fun a ha b hb hab => by
      obtain ⟨hhlc, hhash⟩ := Prod.mk.inj hab
      have hcommit := hrows _ (hfrom a ha) _ (hfrom' b hb) hhash
      cases a
      cases b
      simp_all
    simpa using hid
  · rw [userCommits_append] at hl
    refine Lib.Ascending.eq_of_perm (commitLess_strictTotal (hashesTell_survivors fb order hdet))
      (hl.trans ?_) (fun a ha => hl.mem_iff.mp ha) hsorted
      (ascending_collectUserCommits fb order hdet)
    rw [collectUserCommits, userCommits_append]
    exact (Lib.sortList_perm _ _).symm

def userRow (hash : Hash) (hlc : HLCTimestamp) : Commit :=
  ⟨hash, "doltswarm", "doltswarm@local", 0,
    .json (newCommitMetadata "write" hlc "" "doltswarm" "doltswarm@local" 0)⟩

/-- Two commits of one timestamp and one without, in two splits. -/
theorem collectUserCommits_canonical_split :
    collectUserCommits (.asStored _) [userRow "b" ⟨5, 0, "alice"⟩]
        [userRow "c" .zero, userRow "a" ⟨5, 0, "alice"⟩] none =
      collectUserCommits (.asStored _) [userRow "a" ⟨5, 0, "alice"⟩, userRow "b" ⟨5, 0, "alice"⟩]
        [userRow "c" .zero] none :=
  (collectUserCommits_canonical none (.asStored _) (.asStored _) (by decide)
    fun _ => (show List.Perm _ _ by decide).mem_iff).2.2.1 (by decide)

end Lists

end DoltSwarm.Core
