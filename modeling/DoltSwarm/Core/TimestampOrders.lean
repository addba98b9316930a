import DoltSwarm.Core.CanonicalCollection

/-!
# Keys, orders and boundaries of timestamps

Three places write the finalization boundary down on their own: the filter in front of the
replay and the two tests of core/finalization.go. They agree because the order on timestamps is
total. Keys are texts, and a peer id may contain the separator.
-/

namespace DoltSwarm.Core

set_option autoImplicit false

def isFinalized (hlc stableHLC : HLCTimestamp) : Bool :=
  if stableHLC.isZero then false else hlc.less stableHLC || hlc.equal stableHLC

/-- Strictly after the finalized base; without one everything is. -/
def isAfterFinalizedBase (hlc : HLCTimestamp) (base : Option FinalizedBase) : Bool :=
  match base with
  | none => true
  | some base => if base.hlc.isZero then true else base.hlc.less hlc

/-! ## Keys -/

theorem string_eq_iff_equal (a b : HLCTimestamp) : a.string = b.string ↔ a.equal b = true := by
  rw [HLCTimestamp.equal_iff]
  exact HLCTimestamp.string_injective.eq_iff

/-- Equal keys are equal timestamps, and a commit without a timestamp shares no key with one
that has it. -/
theorem timestamp_keys_injective :
    (∀ a b : HLCTimestamp, a.string = b.string ↔ a.equal b = true) ∧
    ∀ x y : CommitWithMeta, x.hlc.isZero = true → y.hlc.isZero = false →
      dedupKey x ≠ dedupKey y := by
  refine ⟨string_eq_iff_equal, fun x y hx hy hkey => ?_⟩
  rw [hlc_eq_of_dedupKey hkey, hy] at hx
  cases hx

/-- A commit hash that spells a timestamp. -/
theorem timestamp_keys_injective_on_lookalike :
    dedupKey ⟨userRow "5:0:alice" .zero, .zero⟩ ≠
      dedupKey ⟨userRow "c" ⟨5, 0, "alice"⟩, ⟨5, 0, "alice"⟩⟩ :=
  timestamp_keys_injective.2 _ _ (by decide) (by decide)

/-! ## Orders -/

theorem less_upTo : Lib.StrictTotalUpTo HLCTimestamp.less fun a b => a.equal b = true :=
  HLCTimestamp.less_strictTotal.upTo HLCTimestamp.equal_iff

theorem commitLess_zero_last {a b : CommitWithMeta} (ha : a.hlc.isZero = false)
    (hb : b.hlc.isZero = true) : commitLess a b = true ∧ commitLess b a = false := by
  simp [commitLess, ha, hb]

/-! ## The finalization boundary -/

theorem belowBase_eq_not_isAfter (fb : Option FinalizedBase) (hlc : HLCTimestamp) :
    belowBase fb hlc = !isAfterFinalizedBase hlc fb := by
  cases fb with
  | none => rfl
  | some base =>
    simp only [belowBase, isAfterFinalizedBase]
    cases base.hlc.isZero <;> rfl

theorem isFinalized_eq_not_less {hlc stableHLC : HLCTimestamp} (h : stableHLC.isZero = false) :
    isFinalized hlc stableHLC = !stableHLC.less hlc := by
  have hequal := HLCTimestamp.equal_iff hlc stableHLC
  simp only [isFinalized, h, if_false, Bool.false_eq_true]
  rcases HLCTimestamp.less_strictTotal.tri hlc stableHLC trivial trivial with hlt | heq | hgt
  · rw [hlt, HLCTimestamp.not_less_of_less hlt]
    rfl
  · rw [hequal.mpr heq, heq, HLCTimestamp.less_irrefl]
    rfl
  · have hne : hlc.equal stableHLC = false := by
      rw [Bool.eq_false_iff, ne_eq, hequal]
      rintro rfl
      rw [HLCTimestamp.less_irrefl] at hgt
      cases hgt
    rw [HLCTimestamp.not_less_of_less hgt, hne, hgt]
    rfl

theorem mem_userCommits_iff_isAfter {fb : Option FinalizedBase} {cs : List Commit} {c : Commit}
    {m : CommitMetadata} (hc : c ∈ cs) (hm : parseCommitMetadata c.message = some m) :
    ⟨c, m.hlc⟩ ∈ userCommits fb cs ↔ isAfterFinalizedBase m.hlc fb = true := by
  rw [mem_userCommits, userCommit_eq_some_iff, belowBase_eq_not_isAfter, Bool.not_eq_false']
  constructor
  · rintro ⟨-, -, hafter, -⟩
    exact hafter
  · intro hafter
    exact ⟨hc, rfl, hafter, m, hm, parseCommitMetadata_kind hm, rfl⟩

/-- The timestamp order and the commit comparison are total, and the three tests of the
finalization boundary are one. -/
theorem orderings_are_total :
    Lib.StrictTotalUpTo HLCTimestamp.less (fun a b => a.equal b = true) ∧
    (Lib.StrictTotalUpTo commitLess fun a b => a.hlc = b.hlc ∧ a.commit.hash = b.commit.hash) ∧
    (∀ a b : CommitWithMeta, a.hlc.isZero = false → b.hlc.isZero = true →
      commitLess a b = true ∧ commitLess b a = false) ∧
    ∀ (fb : Option FinalizedBase) (cs : List Commit) (c : Commit) (m : CommitMetadata),
      c ∈ cs → parseCommitMetadata c.message = some m →
      (⟨c, m.hlc⟩ ∈ userCommits fb cs ↔ isAfterFinalizedBase m.hlc fb = true) ∧
      ∀ base ∈ fb, base.hlc.isZero = false →
        (⟨c, m.hlc⟩ ∈ userCommits fb cs ↔ isFinalized m.hlc base.hlc = false) := by
  refine ⟨less_upTo, commitLess_upTo, fun a b => commitLess_zero_last, ?_⟩
  intro fb cs c m hc hm
  refine ⟨mem_userCommits_iff_isAfter hc hm, fun base hbase hzero => ?_⟩
  obtain rfl := Option.mem_def.mp hbase
  rw [mem_userCommits_iff_isAfter hc hm, isFinalized_eq_not_less hzero, Bool.not_eq_false']
  simp only [isAfterFinalizedBase, hzero, Bool.false_eq_true, if_false]

/-- A commit at the base itself is finalized and filtered out. -/
theorem orderings_are_total_at_base :
    isFinalized ⟨5, 0, "alice"⟩ ⟨5, 0, "alice"⟩ = true ∧
    ⟨userRow "a" ⟨5, 0, "alice"⟩, ⟨5, 0, "alice"⟩⟩ ∉
      userCommits (some ⟨⟨5, 0, "alice"⟩, "base"⟩) [userRow "a" ⟨5, 0, "alice"⟩] := by
  have hfilter := orderings_are_total.2.2.2 (some ⟨⟨5, 0, "alice"⟩, "base"⟩)
    [userRow "a" ⟨5, 0, "alice"⟩] (userRow "a" ⟨5, 0, "alice"⟩) _ List.mem_cons_self rfl
  refine ⟨by decide, fun hmem => ?_⟩
  have hnot := (hfilter.2 _ rfl (by decide)).mp hmem
  exact absurd hnot (by decide)

end DoltSwarm.Core
