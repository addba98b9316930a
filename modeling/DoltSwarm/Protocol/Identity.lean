import Mathlib.Algebra.Order.BigOperators.Group.List
import Mathlib.Algebra.Order.Group.Nat
import Mathlib.Data.List.Lex
import DoltSwarm.Protocol.Types

/-!
# Identities of events and finalized commits

The comparisons of the specification are strict total orders. A finalized commit id is a
function of its root, kind and set of parents, and determines that set again.
-/

namespace DoltSwarm.Protocol

open Lib

set_option autoImplicit false

/-! ## Comparison of ids -/

def EventID.key (id : EventID) : Int ×ₗ Int ×ₗ Int := toLex (id.peer, toLex (id.wall, id.logical))

theorem eventIDLess_strictTotal : StrictTotalOn eventIDLess fun _ => True := by
  apply strictTotalOn_of_key EventID.key
  · intro a b
    rw [EventID.key, EventID.key, Prod.Lex.toLex_lt_toLex, Prod.Lex.toLex_lt_toLex]
    simp only [eventIDLess, ite_ne_lt_iff Int.lt_irrefl, decide_eq_true_eq]
  · rintro ⟨pa, wa, la⟩ ⟨pb, wb, lb⟩ hkey
    simpa [EventID.key] using hkey

/-- The comparison pass of `intListLess`, as a function of the cursor state. -/
def compareStep (b : List Int) (acc : Nat × Bool × Bool) (value : Int) : Nat × Bool × Bool :=
  if acc.2.1 then acc
  else if acc.1 ≥ b.length then (acc.1, true, false)
  else if value < b.getD acc.1 0 then (acc.1, true, true)
  else if value > b.getD acc.1 0 then (acc.1, true, false)
  else (acc.1 + 1, false, false)

def verdict (b : List Int) (c : Nat × Bool × Bool) : Bool :=
  if c.2.1 then c.2.2 else c.1 < b.length

theorem foldl_compareStep_decided (b a : List Int) (i : Nat) (r : Bool) :
    a.foldl (compareStep b) (i, true, r) = (i, true, r) := by
  induction a with
  | nil => rfl
  | cons x xs ih => simpa [compareStep] using ih

theorem verdict_from_cursor (b a : List Int) (i : Nat) :
    verdict b (a.foldl (compareStep b) (i, false, false)) = true ↔ a < b.drop i := by
  induction a generalizing i with
  | nil =>
    rcases Nat.lt_or_ge i b.length with hlt | hge
    · rw [List.drop_eq_getElem_cons hlt]
      exact iff_of_true (decide_eq_true hlt) (List.nil_lt_cons _ _)
    · rw [List.drop_eq_nil_of_le hge]
      have hlt : ¬i < b.length := Nat.not_lt.mpr hge
      exact iff_of_false (by simp [verdict, hlt]) (List.not_lt_nil _)
  | cons x xs ih =>
    rw [List.foldl_cons]
    rcases Nat.lt_or_ge i b.length with hlt | hge
    · rw [List.drop_eq_getElem_cons hlt, List.cons_lt_cons_iff]
      rcases lt_trichotomy x b[i] with hx | hx | hx
      · have hstep : compareStep b (i, false, false) x = (i, true, true) := by
          simp [compareStep, hlt, hx]
        simp [hstep, foldl_compareStep_decided, verdict, hx]
      · have hstep : compareStep b (i, false, false) x = (i + 1, false, false) := by
          simp [compareStep, hlt, hx]
        rw [hstep, ih (i + 1)]
        simp [hx]
      · have hstep : compareStep b (i, false, false) x = (i, true, false) := by
          simp [compareStep, hlt, hx, hx.le]
        simp [hstep, foldl_compareStep_decided, verdict, hx.le, hx.ne']
    · have hstep : compareStep b (i, false, false) x = (i, true, false) := by
        simp [compareStep, hge]
      rw [List.drop_eq_nil_of_le hge, hstep, foldl_compareStep_decided]
      simp [verdict]

/-- The cursor pass decides the lexicographic order. -/
theorem intListLess_iff (a b : List Int) : intListLess a b = true ↔ a < b :=
  verdict_from_cursor b a 0

/-- Reading a list in the specification, which has no value outside of the list. -/
def listNth (b : List Int) (i : Int) : Option Int := if i < 0 then none else b[i.toNat]?

/-- The comparison pass with the cursor of the specification and reads that may fail. -/
def compareStepChecked (b : List Int) (acc : Int × Bool × Bool) (value : Int) :
    Option (Int × Bool × Bool) :=
  if acc.2.1 then some acc
  else if acc.1 ≥ b.length then some (acc.1, true, false)
  else do
    let first ← listNth b acc.1
    if value < first then some (acc.1, true, true)
    else do
      let second ← listNth b acc.1
      if value > second then some (acc.1, true, false)
      else some (acc.1 + 1, false, false)

def intListLessChecked (a b : List Int) : Option Bool := do
  let comparison ← a.foldlM (compareStepChecked b) (0, false, false)
  if comparison.2.1 then some comparison.2.2 else some (comparison.1 < b.length)

theorem listNth_of_lt {b : List Int} {i : Nat} (h : i < b.length) :
    listNth b i = some (b.getD i 0) := by
  simp [listNth, h]

/-- A cursor as the integer that the specification counts with. -/
def intCursor (acc : Nat × Bool × Bool) : Int × Bool × Bool := (acc.1, acc.2)

theorem compareStepChecked_eq (b : List Int) (acc : Nat × Bool × Bool) (value : Int) :
    compareStepChecked b (intCursor acc) value = some (intCursor (compareStep b acc value)) := by
  obtain ⟨i, done, smaller⟩ := acc
  cases done with
  | true => rfl
  | false =>
    rcases Nat.lt_or_ge i b.length with hlt | hge
    · -- the guard that ends the pass behind the last entry keeps the read in range
      have hguard : ¬i ≥ b.length := Nat.not_le.mpr hlt
      have hguard' : ¬(i : Int) ≥ b.length := by omega
      have hread := listNth_of_lt hlt
      simp only [compareStepChecked, compareStep, intCursor, Bool.false_eq_true, if_false,
        if_neg hguard, if_neg hguard', hread, Option.bind_eq_bind, Option.bind_some]
      split_ifs <;> rfl
    · have hguard : (i : Int) ≥ b.length := by omega
      simp only [compareStepChecked, compareStep, intCursor, Bool.false_eq_true, if_false,
        if_pos hge]
      exact if_pos hguard

theorem foldlM_compareStepChecked (b a : List Int) (acc : Nat × Bool × Bool) :
    a.foldlM (compareStepChecked b) (intCursor acc) =
      some (intCursor (a.foldl (compareStep b) acc)) := by
  induction a generalizing acc with
  | nil => rfl
  | cons value a ih =>
    rw [List.foldlM_cons, compareStepChecked_eq]
    exact ih (compareStep b acc value)

theorem intListLessChecked_eq (a b : List Int) :
    intListLessChecked a b = some (intListLess a b) := by
  have hpass := foldlM_compareStepChecked b a (0, false, false)
  have hless : intListLess a b = verdict b (a.foldl (compareStep b) (0, false, false)) := rfl
  rw [hless]
  generalize a.foldl (compareStep b) (0, false, false) = comparison at hpass ⊢
  have hchecked : intListLessChecked a b =
      if comparison.2.1 then some comparison.2.2 else some ((comparison.1 : Int) < b.length) :=
    congrArg (Option.bind · _) hpass
  rw [hchecked, verdict]
  split
  · rfl
  · simp only [Int.ofNat_lt]

theorem finalizedCommitLess_iff (a b : FinalizedCommitID) :
    finalizedCommitLess a b = true ↔ a.root < b.root ∨
      a.root = b.root ∧ (a.kind < b.kind ∨ a.kind = b.kind ∧ a.tokens < b.tokens) := by
  simp only [finalizedCommitLess, ite_ne_lt_iff Int.lt_irrefl, intListLess_iff]

def FinalizedCommitID.key (c : FinalizedCommitID) : Int ×ₗ Int ×ₗ List Int :=
  toLex (c.root, toLex (c.kind, c.tokens))

theorem finalizedCommitLess_iff_key (a b : FinalizedCommitID) :
    finalizedCommitLess a b = true ↔ a.key < b.key := by
  rw [finalizedCommitLess_iff, FinalizedCommitID.key, FinalizedCommitID.key,
    Prod.Lex.toLex_lt_toLex, Prod.Lex.toLex_lt_toLex]

theorem FinalizedCommitID.key_injective : Function.Injective FinalizedCommitID.key := by
  rintro ⟨ra, ta, ka⟩ ⟨rb, tb, kb⟩ hkey
  simp only [key, toLex_inj, Prod.mk.injEq] at hkey
  obtain ⟨rfl, rfl, rfl⟩ := hkey
  rfl

theorem finalizedCommitLess_strictTotal : StrictTotalOn finalizedCommitLess fun _ => True :=
  strictTotalOn_of_key FinalizedCommitID.key finalizedCommitLess_iff_key
    FinalizedCommitID.key_injective

/-- `intListLess` is the lexicographic order, in which a proper prefix is smaller, and reads no
list out of range; with it the finalized commit ids are totally ordered. -/
theorem list_comparison_is_lexicographic :
    (∀ a b : List Int, intListLess a b = true ↔ List.Lex (· < ·) a b) ∧
    (∀ a b : List Int, intListLessChecked a b = some (intListLess a b)) ∧
    StrictTotalUpTo finalizedCommitLess fun a b => a = b := by
  refine ⟨intListLess_iff, intListLessChecked_eq, ?_⟩
  apply finalizedCommitLess_strictTotal.upTo
  exact fun a b => Iff.rfl

/-- Folds visit their sets in ascending order; used where a run is evaluated. -/
@[reducible] def ascendingFolds : FoldOrder where
  events := Enumeration.sorted eventIDLess eventIDLess_strictTotal
  commits := Enumeration.sorted finalizedCommitLess finalizedCommitLess_strictTotal

/-! ## Commit ids as encodings of their parents -/

/-- Each parent as its length followed by its tokens. -/
def taggedTokens (parents : List FinalizedCommitID) : List Int :=
  parents.flatMap fun parent => (parent.tokens.length : Int) :: parent.tokens

theorem foldl_appendTaggedIntList (parents : List FinalizedCommitID) (acc : List Int) :
    parents.foldl (fun acc parent => appendTaggedIntList acc parent.tokens) acc =
      acc ++ taggedTokens parents := by
  induction parents generalizing acc with
  | nil => simp [taggedTokens]
  | cons p ps ih =>
    rw [List.foldl_cons, ih]
    simp [appendTaggedIntList, taggedTokens]

/-- The length tags make the concatenation uniquely decodable. -/
theorem tokens_eq_of_taggedTokens_eq {ps qs : List FinalizedCommitID}
    (h : taggedTokens ps = taggedTokens qs) :
    ps.map FinalizedCommitID.tokens = qs.map FinalizedCommitID.tokens := by
  induction ps generalizing qs with
  | nil =>
    cases qs with
    | nil => rfl
    | cons q qs => simp [taggedTokens] at h
  | cons p ps ih =>
    cases qs with
    | nil => simp [taggedTokens] at h
    | cons q qs =>
      simp only [taggedTokens, List.flatMap_cons, List.cons_append, List.cons.injEq,
        Int.natCast_inj] at h
      obtain ⟨hp, hps⟩ := List.append_inj h.2 h.1
      simp only [List.map_cons, hp, ih hps]

/-- The tokens repeat root and kind, so they alone determine the id. -/
def headed (c : FinalizedCommitID) : Prop := ∃ rest, c.tokens = c.root :: c.kind :: rest

theorem eq_of_tokens_eq {c d : FinalizedCommitID} (hc : headed c) (hd : headed d)
    (h : c.tokens = d.tokens) : c = d := by
  obtain ⟨r, hr⟩ := hc
  obtain ⟨r', hr'⟩ := hd
  rw [hr, hr'] at h
  obtain ⟨_, _, _⟩ := c
  obtain ⟨_, _, _⟩ := d
  simp_all

theorem eq_of_map_tokens_eq {ps qs : List FinalizedCommitID} (hp : ∀ p ∈ ps, headed p)
    (hq : ∀ q ∈ qs, headed q)
    (h : ps.map FinalizedCommitID.tokens = qs.map FinalizedCommitID.tokens) : ps = qs := by
  induction ps generalizing qs with
  | nil =>
    cases qs with
    | nil => rfl
    | cons q qs => simp at h
  | cons p ps ih =>
    cases qs with
    | nil => simp at h
    | cons q qs =>
      simp only [List.map_cons, List.cons.injEq] at h
      simp only [List.mem_cons, forall_eq_or_imp] at hp hq
      rw [eq_of_tokens_eq hp.1 hq.1 h.1, ih hp.2 hq.2 h.2]

section

variable (o o' : FoldOrder)

/-- The parents of a commit in the order its id lists them. -/
def sortedParents (parents : Finset FinalizedCommitID) : List FinalizedCommitID :=
  sortList finalizedCommitLess (o.commits.list parents)

theorem mem_sortedParents (parents : Finset FinalizedCommitID) (c : FinalizedCommitID) :
    c ∈ sortedParents o parents ↔ c ∈ parents :=
  (mem_sortList _ _ c).trans (o.commits.mem_list parents c)

theorem makeFinalizedCommitID_tokens (root : ProllyRootHash) (parents : Finset FinalizedCommitID)
    (kind : Int) : (@makeFinalizedCommitID o root parents kind).tokens =
      [root, kind, ((sortedParents o parents).length : Int)] ++
        taggedTokens (sortedParents o parents) :=
  foldl_appendTaggedIntList _ _

theorem makeFinalizedCommitID_order (root : ProllyRootHash)
    (parents : Finset FinalizedCommitID) (kind : Int) :
    @makeFinalizedCommitID o root parents kind = @makeFinalizedCommitID o' root parents kind := by
  have h : sortedParents o parents = sortedParents o' parents :=
    sortList_eq_of_perm finalizedCommitLess_strictTotal
      (o.commits.list_perm o'.commits parents) fun _ _ => trivial
  simp only [sortedParents] at h
  simp only [makeFinalizedCommitID, h]

@[simp] theorem makeFinalizedCommitID_root (root : ProllyRootHash)
    (parents : Finset FinalizedCommitID) (kind : Int) :
    (@makeFinalizedCommitID o root parents kind).root = root := rfl

@[simp] theorem makeFinalizedCommitID_kind (root : ProllyRootHash)
    (parents : Finset FinalizedCommitID) (kind : Int) :
    (@makeFinalizedCommitID o root parents kind).kind = kind := rfl

theorem headed_makeFinalizedCommitID (root : ProllyRootHash)
    (parents : Finset FinalizedCommitID) (kind : Int) :
    headed (@makeFinalizedCommitID o root parents kind) :=
  ⟨_, makeFinalizedCommitID_tokens o root parents kind⟩

theorem length_tokens_lt_make {root : ProllyRootHash} {parents : Finset FinalizedCommitID}
    {kind : Int} {p : FinalizedCommitID} (hp : p ∈ parents) :
    p.tokens.length < (@makeFinalizedCommitID o root parents kind).tokens.length := by
  rw [makeFinalizedCommitID_tokens, List.length_append, taggedTokens, List.length_flatMap]
  have hmem : p.tokens.length + 1 ∈ (sortedParents o parents).map
      (fun parent => ((parent.tokens.length : Int) :: parent.tokens).length) :=
    List.mem_map.mpr ⟨p, (mem_sortedParents o parents p).mpr hp, rfl⟩
  have hle := List.single_le_sum (fun _ _ => Nat.zero_le _) _ hmem
  simp only [List.length_cons] at hle ⊢
  omega

theorem parents_eq_of_make_eq {r r' : ProllyRootHash} {k k' : Int}
    {ps ps' : Finset FinalizedCommitID} (hps : ∀ p ∈ ps, headed p) (hps' : ∀ p ∈ ps', headed p)
    (h : @makeFinalizedCommitID o r ps k = @makeFinalizedCommitID o' r' ps' k') : ps = ps' := by
  have ht := congrArg FinalizedCommitID.tokens h
  rw [makeFinalizedCommitID_tokens, makeFinalizedCommitID_tokens] at ht
  simp only [List.cons_append, List.nil_append, List.cons.injEq] at ht
  have hl := eq_of_map_tokens_eq
    (fun p hp => hps p ((mem_sortedParents o ps p).mp hp))
    (fun p hp => hps' p ((mem_sortedParents o' ps' p).mp hp))
    (tokens_eq_of_taggedTokens_eq ht.2.2.2)
  ext p
  rw [← mem_sortedParents o ps p, hl, mem_sortedParents]

end

/-- The ids that calls of `makeFinalizedCommitID` lead to from the empty one. -/
inductive Generated : FinalizedCommitID → Prop
  | empty : Generated emptyFinalizedCommitId
  | make (o : FoldOrder) (root : ProllyRootHash) {parents : Finset FinalizedCommitID}
      (kind : Int) (hparents : ∀ p ∈ parents, Generated p) :
      Generated (@makeFinalizedCommitID o root parents kind)

theorem Generated.headed {c : FinalizedCommitID} (h : Generated c) : headed c := by
  cases h with
  | empty => exact ⟨_, rfl⟩
  | make o root kind hparents => exact headed_makeFinalizedCommitID o root _ kind

/-- Over generated parents the id is a function of root, parents and kind, however the parents
are visited, and gives all three back; it is longer than the id of each parent. -/
theorem finalizedCommitID_identifies {ps ps' : Finset FinalizedCommitID}
    (hps : ∀ p ∈ ps, Generated p) (hps' : ∀ p ∈ ps', Generated p) (o o' : FoldOrder)
    (r r' : ProllyRootHash) (k k' : Int) :
    @makeFinalizedCommitID o r ps k = @makeFinalizedCommitID o' r ps k ∧
      (@makeFinalizedCommitID o r ps k = @makeFinalizedCommitID o' r' ps' k' →
        r = r' ∧ k = k' ∧ ps = ps') ∧
      ∀ p ∈ ps, p.tokens.length < (@makeFinalizedCommitID o r ps k).tokens.length := by
  refine ⟨makeFinalizedCommitID_order o o' r ps k, fun h => ⟨?_, ?_, ?_⟩,
    fun p hp => length_tokens_lt_make o hp⟩
  · exact congrArg FinalizedCommitID.root h
  · exact congrArg FinalizedCommitID.kind h
  · exact parents_eq_of_make_eq o o' (fun p hp => (hps p hp).headed)
      (fun p hp => (hps' p hp).headed) h

/-- A commit with two parents against one with a single parent and the same content. -/
theorem finalizedCommitID_identifies_merge :
    @makeFinalizedCommitID ascendingFolds 5
        {emptyFinalizedCommitId, @makeFinalizedCommitID ascendingFolds 3 ∅ 1} 2 ≠
      @makeFinalizedCommitID ascendingFolds 5 {emptyFinalizedCommitId} 2 := by
  have hchild : Generated (@makeFinalizedCommitID ascendingFolds 3 ∅ 1) :=
    .make ascendingFolds 3 1 (by simp)
  have hps : ∀ p ∈ ({emptyFinalizedCommitId, @makeFinalizedCommitID ascendingFolds 3 ∅ 1} :
      Finset FinalizedCommitID), Generated p := by
    intro p hp
    rcases Finset.mem_insert.mp hp with rfl | hp
    · exact .empty
    · exact Finset.mem_singleton.mp hp ▸ hchild
  have hps' : ∀ p ∈ ({emptyFinalizedCommitId} : Finset FinalizedCommitID), Generated p :=
    fun p hp => Finset.mem_singleton.mp hp ▸ .empty
  intro h
  have hparents := ((finalizedCommitID_identifies hps hps' _ _ _ _ _ _).2.1 h).2.2
  exact absurd hparents (by decide)

end DoltSwarm.Protocol
