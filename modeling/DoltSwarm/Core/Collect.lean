import DoltSwarm.Core.Commit

/-!
# Collecting the commits to replay (core/reconciler_core.go)

User commits above the finalized base are gathered, reduced to one per timestamp and sorted.
Go leaves the iteration order of the reducing map open; the collected list does not depend on
it.
-/

namespace DoltSwarm.Core

set_option autoImplicit false

/-- The finalization position (core/finalization.go). -/
structure FinalizedBase where
  hlc : HLCTimestamp
  commitHash : Hash
  deriving DecidableEq, Repr

structure CommitWithMeta where
  commit : Commit
  hlc : HLCTimestamp
  deriving DecidableEq, Repr

def belowBase (finalizedBase : Option FinalizedBase) (hlc : HLCTimestamp) : Bool :=
  match finalizedBase with
  | none => false
  | some base => !base.hlc.isZero && !base.hlc.less hlc

def userCommit (finalizedBase : Option FinalizedBase) (c : Commit) : Option CommitWithMeta :=
  match parseCommitMetadata c.message with
  | none => none
  | some metadata =>
    if metadata.kind ≠ commitKindUser then none
    else if belowBase finalizedBase metadata.hlc then none
    else some ⟨c, metadata.hlc⟩

def userCommits (finalizedBase : Option FinalizedBase) (cs : List Commit) :
    List CommitWithMeta := cs.filterMap (userCommit finalizedBase)

def dedupKey (cwm : CommitWithMeta) : String :=
  if cwm.hlc.isZero then "hash:" ++ cwm.commit.hash else "hlc:" ++ cwm.hlc.string

abbrev CommitMap := AList fun _ : String => CommitWithMeta

def keepSmaller (byKey : CommitMap) (cwm : CommitWithMeta) : CommitMap :=
  match byKey.lookup (dedupKey cwm) with
  | none => byKey.insert (dedupKey cwm) cwm
  | some existing =>
    if cwm.commit.hash < existing.commit.hash then byKey.insert (dedupKey cwm) cwm else byKey

/-- An order in which a map may be ranged over. -/
structure RangeOrder (α : Type) where
  list : List α → List α
  perm : ∀ l, (list l).Perm l

def RangeOrder.asStored (α : Type) : RangeOrder α := ⟨id, fun l => List.Perm.refl l⟩

def deduplicateByHLCDeterministic (order : RangeOrder CommitWithMeta)
    (commits : List CommitWithMeta) : List CommitWithMeta :=
  order.list ((commits.foldl keepSmaller ∅).entries.map Sigma.snd)

/-- The comparison of `sortCommitsByHLC`: zero timestamps last, ties by hash. -/
def commitLess (a b : CommitWithMeta) : Bool :=
  if a.hlc.isZero && b.hlc.isZero then a.commit.hash < b.commit.hash
  else if a.hlc.isZero then false
  else if b.hlc.isZero then true
  else if a.hlc.equal b.hlc then a.commit.hash < b.commit.hash
  else a.hlc.less b.hlc

def sortCommitsByHLC (commits : List CommitWithMeta) : List CommitWithMeta :=
  Lib.sortList commitLess commits

/-- `local` is a word of Lean, hence `ours`. -/
def collectUserCommits (order : RangeOrder CommitWithMeta) (ours imported : List Commit)
    (finalizedBase : Option FinalizedBase) : List CommitWithMeta :=
  sortCommitsByHLC (deduplicateByHLCDeterministic order
    (userCommits finalizedBase ours ++ userCommits finalizedBase imported))

theorem userCommit_eq_some_iff {fb : Option FinalizedBase} {c : Commit} {x : CommitWithMeta} :
    userCommit fb c = some x ↔ x.commit = c ∧ belowBase fb x.hlc = false ∧
      ∃ m, parseCommitMetadata c.message = some m ∧ m.kind = commitKindUser ∧ m.hlc = x.hlc := by
  unfold userCommit
  constructor
  · intro h
    split at h
    · cases h
    · next m hm =>
      split_ifs at h with hkind hbelow
      obtain rfl := Option.some.inj h
      exact ⟨rfl, by simpa using hbelow, m, hm, by simpa using hkind, rfl⟩
  · rintro ⟨rfl, hbelow, m, hm, hkind, hhlc⟩
    rw [hm]
    simp [hkind, hhlc, hbelow]

theorem mem_userCommits {fb : Option FinalizedBase} {cs : List Commit} {x : CommitWithMeta} :
    x ∈ userCommits fb cs ↔ x.commit ∈ cs ∧ userCommit fb x.commit = some x := by
  simp only [userCommits, List.mem_filterMap]
  constructor
  · rintro ⟨c, hc, hx⟩
    have hxc := (userCommit_eq_some_iff.mp hx).1
    exact ⟨hxc ▸ hc, hxc ▸ hx⟩
  · rintro ⟨hc, hx⟩
    exact ⟨x.commit, hc, hx⟩

def HashesTell (l : List CommitWithMeta) : Prop :=
  ∀ a ∈ l, ∀ b ∈ l, a.commit.hash = b.commit.hash → a = b

theorem hashesTell_userCommits {s : Store} {cs : List Commit} (hcs : Stored s cs)
    (fb : Option FinalizedBase) : HashesTell (userCommits fb cs) := by
  intro a ha b hb hash
  rw [mem_userCommits] at ha hb
  have hc : a.commit = b.commit := by
    have h := hcs _ ha.1
    rw [hash, hcs _ hb.1] at h
    exact (Option.some.inj h).symm
  rw [hc, hb.2] at ha
  exact (Option.some.inj ha.2).symm

section Dedup

variable {l : List CommitWithMeta}

/-- What the map holds after the commits of `l`: under each key the first of the commits with
the smallest hash. -/
structure SmallestKept (byKey : CommitMap) (l : List CommitWithMeta) : Prop where
  kept : ∀ k x, byKey.lookup k = some x →
    x ∈ l ∧ dedupKey x = k ∧ ∀ y ∈ l, dedupKey y = k → ¬ y.commit.hash < x.commit.hash
  found : ∀ y ∈ l, ∃ x, byKey.lookup (dedupKey y) = some x

theorem SmallestKept.insert {byKey : CommitMap} (h : SmallestKept byKey l) {cwm : CommitWithMeta}
    (hsmaller : ∀ x, byKey.lookup (dedupKey cwm) = some x → cwm.commit.hash < x.commit.hash) :
    SmallestKept (byKey.insert (dedupKey cwm) cwm) (l ++ [cwm]) := by
  refine ⟨fun k x hx => ?_, fun y hy => ?_⟩
  · by_cases hk : k = dedupKey cwm
    · subst hk
      rw [AList.lookup_insert] at hx
      obtain rfl := Option.some.inj hx
      refine ⟨by simp, rfl, fun y hy hkey hlt => ?_⟩
      rcases List.mem_append.mp hy with hy | hy
      · obtain ⟨z, hz⟩ := h.found y hy
        rw [hkey] at hz
        exact (h.kept _ z hz).2.2 y hy hkey (hlt.trans (hsmaller z hz))
      · obtain rfl := List.mem_singleton.mp hy
        exact lt_irrefl _ hlt
    · rw [AList.lookup_insert_ne hk] at hx
      obtain ⟨hmem, hkey, hmin⟩ := h.kept k x hx
      refine ⟨by simp [hmem], hkey, fun y hy hyk => ?_⟩
      rcases List.mem_append.mp hy with hy | hy
      · exact hmin y hy hyk
      · obtain rfl := List.mem_singleton.mp hy
        exact absurd hyk.symm hk
  · by_cases hk : dedupKey y = dedupKey cwm
    · exact ⟨cwm, by rw [hk, AList.lookup_insert]⟩
    · rw [AList.lookup_insert_ne hk]
      rcases List.mem_append.mp hy with hy | hy
      · exact h.found y hy
      · obtain rfl := List.mem_singleton.mp hy
        exact absurd rfl hk

theorem SmallestKept.pass {byKey : CommitMap} (h : SmallestKept byKey l)
    {cwm existing : CommitWithMeta} (hex : byKey.lookup (dedupKey cwm) = some existing)
    (hnlt : ¬ cwm.commit.hash < existing.commit.hash) : SmallestKept byKey (l ++ [cwm]) := by
  refine ⟨fun k x hx => ?_, fun y hy => ?_⟩
  · obtain ⟨hmem, hkey, hmin⟩ := h.kept k x hx
    refine ⟨by simp [hmem], hkey, fun y hy hyk => ?_⟩
    rcases List.mem_append.mp hy with hy | hy
    · exact hmin y hy hyk
    · obtain rfl := List.mem_singleton.mp hy
      rw [hyk, hx] at hex
      exact Option.some.inj hex ▸ hnlt
  · rcases List.mem_append.mp hy with hy | hy
    · exact h.found y hy
    · obtain rfl := List.mem_singleton.mp hy
      exact ⟨existing, hex⟩

theorem smallestKept_keepSmaller {byKey : CommitMap} (h : SmallestKept byKey l)
    (cwm : CommitWithMeta) : SmallestKept (keepSmaller byKey cwm) (l ++ [cwm]) := by
  unfold keepSmaller
  split
  · next hnone => exact h.insert fun x hx => by simp [hnone] at hx
  · next existing hex =>
    split
    · next hlt =>
      refine h.insert fun x hx => ?_
      rw [hex] at hx
      exact Option.some.inj hx ▸ hlt
    · next hnlt => exact h.pass hex hnlt

theorem smallestKept_foldl (l : List CommitWithMeta) :
    SmallestKept (l.foldl keepSmaller ∅) l := by
  have hstep : ∀ (rest done : List CommitWithMeta) (byKey : CommitMap),
      SmallestKept byKey done → SmallestKept (rest.foldl keepSmaller byKey) (done ++ rest) := by
    intro rest
    induction rest with
    | nil =>
      intro done byKey h
      simpa using h
    | cons x rest ih =>
      intro done byKey h
      have := ih (done ++ [x]) _ (smallestKept_keepSmaller h x)
      rwa [List.append_assoc, List.singleton_append] at this
  have hempty : SmallestKept ∅ [] := ⟨fun k x hx => by simp at hx, fun y hy => by simp at hy⟩
  simpa using hstep l [] ∅ hempty

theorem mem_deduplicate {order : RangeOrder CommitWithMeta} {x : CommitWithMeta} :
    x ∈ deduplicateByHLCDeterministic order l ↔
      (l.foldl keepSmaller ∅).lookup (dedupKey x) = some x := by
  rw [deduplicateByHLCDeterministic, (order.perm _).mem_iff, List.mem_map]
  constructor
  · rintro ⟨⟨k, y⟩, hy, rfl⟩
    have hlook := AList.mem_lookup_iff.mpr hy
    rwa [((smallestKept_foldl l).kept k y hlook).2.1]
  · intro hx
    exact ⟨⟨dedupKey x, x⟩, AList.mem_lookup_iff.mp hx, rfl⟩

theorem mem_deduplicate_iff (hl : HashesTell l) {order : RangeOrder CommitWithMeta}
    {x : CommitWithMeta} : x ∈ deduplicateByHLCDeterministic order l ↔
      x ∈ l ∧ ∀ y ∈ l, dedupKey y = dedupKey x → ¬ y.commit.hash < x.commit.hash := by
  have hkept := smallestKept_foldl l
  rw [mem_deduplicate]
  constructor
  · intro hx
    obtain ⟨hmem, -, hmin⟩ := hkept.kept _ x hx
    exact ⟨hmem, hmin⟩
  · rintro ⟨hmem, hmin⟩
    obtain ⟨y, hy⟩ := hkept.found x hmem
    obtain ⟨hymem, hykey, hymin⟩ := hkept.kept _ y hy
    have hhash : y.commit.hash = x.commit.hash :=
      le_antisymm (not_lt.mp (hymin x hmem rfl)) (not_lt.mp (hmin y hymem hykey))
    rw [hy, hl y hymem x hmem hhash]

theorem nodup_dedupKey (order : RangeOrder CommitWithMeta) (l : List CommitWithMeta) :
    ((deduplicateByHLCDeterministic order l).map dedupKey).Nodup := by
  rw [deduplicateByHLCDeterministic, ((order.perm _).map dedupKey).nodup_iff, List.map_map]
  have hkeys : (l.foldl keepSmaller ∅).entries.map (dedupKey ∘ Sigma.snd) =
      (l.foldl keepSmaller ∅).keys := by
    refine List.map_congr_left fun e he => ?_
    exact ((smallestKept_foldl l).kept e.1 e.2 (AList.mem_lookup_iff.mpr he)).2.1
  rw [hkeys]
  exact AList.keys_nodup _

end Dedup

section Comparison

def hlcBefore (a b : HLCTimestamp) : Prop :=
  a.isZero = false ∧ (b.isZero = true ∨ a.less b = true)

theorem commitLess_iff (a b : CommitWithMeta) : commitLess a b = true ↔
    hlcBefore a.hlc b.hlc ∨ a.hlc = b.hlc ∧ a.commit.hash < b.commit.hash := by
  have hirr := HLCTimestamp.less_irrefl
  have hzero := HLCTimestamp.isZero_iff
  have hequal := HLCTimestamp.equal_iff a.hlc b.hlc
  simp only [commitLess, hlcBefore]
  grind

/-- A timestamp behind a bit for the zero timestamp, which comes last. -/
def placeKey (a : HLCTimestamp) : Bool ×ₗ Int ×ₗ Int ×ₗ String := toLex (a.isZero, a.key)

theorem placeKey_injective : Function.Injective placeKey := by
  intro a b hkey
  simp only [placeKey, toLex_inj, Prod.mk.injEq] at hkey
  exact HLCTimestamp.key_injective hkey.2

theorem hlcBefore_iff_key (a b : HLCTimestamp) : hlcBefore a b ↔ placeKey a < placeKey b := by
  rw [placeKey, placeKey, Prod.Lex.toLex_lt_toLex, ← HLCTimestamp.less_iff_key, hlcBefore]
  cases ha : a.isZero with
  | false => cases hb : b.isZero <;> simp
  | true =>
    cases hb : b.isZero with
    | false => simp
    | true =>
      -- both are the zero timestamp
      rw [(HLCTimestamp.isZero_iff a).mp ha, (HLCTimestamp.isZero_iff b).mp hb]
      simp [HLCTimestamp.less_irrefl]

theorem hlcBefore_irrefl (a : HLCTimestamp) : ¬ hlcBefore a a := by
  rw [hlcBefore_iff_key]
  exact lt_irrefl _

theorem hlcBefore_trans {a b c : HLCTimestamp} (hab : hlcBefore a b) (hbc : hlcBefore b c) :
    hlcBefore a c := by
  rw [hlcBefore_iff_key] at *
  exact hab.trans hbc

theorem commitLess_upTo : Lib.StrictTotalUpTo commitLess fun a b =>
    a.hlc = b.hlc ∧ a.commit.hash = b.commit.hash := by
  apply Lib.strictTotalUpTo_of_key fun c => toLex (placeKey c.hlc, c.commit.hash)
  · intro a b
    rw [commitLess_iff, hlcBefore_iff_key, Prod.Lex.toLex_lt_toLex, placeKey_injective.eq_iff]
  · intro a b
    rw [toLex_inj, Prod.mk.injEq, placeKey_injective.eq_iff]

theorem commitLess_strictTotal {l : List CommitWithMeta} (hl : HashesTell l) :
    Lib.StrictTotalOn commitLess (· ∈ l) :=
  commitLess_upTo.strictTotalOn fun a b ha hb hsame => hl a ha b hb hsame.2

end Comparison

section Collected

variable {s : Store} {ours imported : List Commit} {fb : Option FinalizedBase}
  {order : RangeOrder CommitWithMeta}

theorem userCommits_append (fb : Option FinalizedBase) (ours imported : List Commit) :
    userCommits fb ours ++ userCommits fb imported = userCommits fb (ours ++ imported) :=
  List.filterMap_append.symm

theorem mem_collectUserCommits {x : CommitWithMeta} :
    x ∈ collectUserCommits order ours imported fb ↔
      x ∈ deduplicateByHLCDeterministic order (userCommits fb (ours ++ imported)) := by
  rw [collectUserCommits, sortCommitsByHLC, Lib.mem_sortList, userCommits_append]

theorem mem_userCommits_of_collected {x : CommitWithMeta}
    (hx : x ∈ collectUserCommits order ours imported fb) :
    x ∈ userCommits fb (ours ++ imported) := by
  rw [mem_collectUserCommits, mem_deduplicate] at hx
  exact ((smallestKept_foldl _).kept _ x hx).1

theorem hlc_eq_of_dedupKey {a b : CommitWithMeta} (h : dedupKey a = dedupKey b) :
    a.hlc = b.hlc := by
  unfold dedupKey at h
  split_ifs at h with ha hb hb
  · rw [(HLCTimestamp.isZero_iff _).mp ha, (HLCTimestamp.isZero_iff _).mp hb]
  · have := congrArg String.toList h
    simp at this
  · have := congrArg String.toList h
    simp at this
  · refine HLCTimestamp.string_injective ?_
    have := congrArg String.toList h
    rw [String.toList_append, String.toList_append] at this
    exact String.toList_inj.mp (List.append_cancel_left this)

theorem exists_collected {c : Commit} (hc : c ∈ ours ++ imported) {m : CommitMetadata}
    (hm : parseCommitMetadata c.message = some m) (habove : belowBase fb m.hlc = false) :
    ∃ x ∈ collectUserCommits order ours imported fb, x.hlc = m.hlc := by
  have huser : userCommit fb c = some ⟨c, m.hlc⟩ :=
    userCommit_eq_some_iff.mpr ⟨rfl, habove, m, hm, parseCommitMetadata_kind hm, rfl⟩
  have hmem : (⟨c, m.hlc⟩ : CommitWithMeta) ∈ userCommits fb (ours ++ imported) :=
    mem_userCommits.mpr ⟨hc, huser⟩
  have hkept := smallestKept_foldl (userCommits fb (ours ++ imported))
  obtain ⟨x, hx⟩ := hkept.found _ hmem
  have hkey := (hkept.kept _ x hx).2.1
  refine ⟨x, ?_, hlc_eq_of_dedupKey hkey⟩
  rw [mem_collectUserCommits, mem_deduplicate, hkey]
  exact hx

theorem stored_of_collected (hs : Stored s (ours ++ imported)) {x : CommitWithMeta}
    (hx : x ∈ collectUserCommits order ours imported fb) :
    s.commit? x.commit.hash = some x.commit :=
  hs _ (mem_userCommits.mp (mem_userCommits_of_collected hx)).1

theorem nodup_collectUserCommits (order : RangeOrder CommitWithMeta) (ours imported : List Commit)
    (fb : Option FinalizedBase) :
    ((collectUserCommits order ours imported fb).map dedupKey).Nodup := by
  rw [collectUserCommits, sortCommitsByHLC,
    ((Lib.sortList_perm commitLess _).map dedupKey).nodup_iff]
  exact nodup_dedupKey order _

/-- The commits come in ascending order, and two of them share a timestamp only if it is
the zero timestamp. -/
theorem collected_pairwise (hs : Stored s (ours ++ imported)) :
    (collectUserCommits order ours imported fb).Pairwise fun a b =>
      a.commit.hash ≠ b.commit.hash ∧ (a.hlc.isZero = true ∧ b.hlc.isZero = true ∨
        hlcBefore a.hlc b.hlc) := by
  have htell := hashesTell_userCommits hs fb
  have hnodup := nodup_collectUserCommits order ours imported fb
  rw [List.nodup_iff_pairwise_ne, List.pairwise_map] at hnodup
  have hmem : ∀ a ∈ deduplicateByHLCDeterministic order
      (userCommits fb ours ++ userCommits fb imported), a ∈ userCommits fb (ours ++ imported) := by
    intro a ha
    rw [userCommits_append] at ha
    exact mem_userCommits_of_collected (mem_collectUserCommits.mpr ha)
  have hasc := Lib.ascending_sortList (commitLess_strictTotal htell) hmem
  refine List.Pairwise.imp_of_mem (fun {a b} ha hb h => ?_) (hasc.and hnodup)
  have ha' : a ∈ userCommits fb (ours ++ imported) := mem_userCommits_of_collected ha
  have hb' : b ∈ userCommits fb (ours ++ imported) := mem_userCommits_of_collected hb
  have hne : a ≠ b := fun heq => h.2 (heq ▸ rfl)
  refine ⟨fun hash => hne (htell a ha' b hb' hash), ?_⟩
  have hlt : commitLess a b = true := by
    rcases (commitLess_strictTotal htell).tri a b ha' hb' with hlt | heq | hlt
    · exact hlt
    · exact absurd heq hne
    · rw [h.1] at hlt
      cases hlt
  rcases (commitLess_iff a b).mp hlt with hbefore | ⟨heq, -⟩
  · exact Or.inr hbefore
  · left
    -- equal timestamps that are not zero would be one key of the map
    by_contra hz
    have hza : a.hlc.isZero = false := by
      rw [heq] at hz ⊢
      simpa using hz
    exact h.2 (by simp [dedupKey, hza, ← heq])

/-- The collected list is a function of the set of user commits. -/
theorem collectUserCommits_congr {ours' imported' : List Commit} {fb' : Option FinalizedBase}
    {order' : RangeOrder CommitWithMeta} (hs : Stored s (ours ++ imported))
    (hs' : Stored s (ours' ++ imported'))
    (hsame : ∀ x, x ∈ userCommits fb (ours ++ imported) ↔
      x ∈ userCommits fb' (ours' ++ imported')) :
    collectUserCommits order ours imported fb = collectUserCommits order' ours' imported' fb' := by
  have htell := hashesTell_userCommits hs fb
  have htell' := hashesTell_userCommits hs' fb'
  rw [collectUserCommits, collectUserCommits, userCommits_append, userCommits_append]
  refine Lib.sortList_eq_of_perm (commitLess_strictTotal htell) ?_ fun a ha =>
    ((mem_deduplicate_iff htell).mp ha).1
  rw [List.perm_ext_iff_of_nodup (List.Nodup.of_map _ (nodup_dedupKey _ _))
    (List.Nodup.of_map _ (nodup_dedupKey _ _))]
  intro x
  rw [mem_deduplicate_iff htell, mem_deduplicate_iff htell', hsame]
  simp only [hsame]

end Collected

end DoltSwarm.Core
