import Mathlib.Data.Finset.Dedup
import Mathlib.Data.Finset.Insert
import Mathlib.Data.List.Sort
import Mathlib.Data.Multiset.Basic

/-!
# Folds over sets

A fold over a set visits its elements in an order the language leaves open. `Enumeration`
is one such order; whatever is proved for every enumeration does not depend on it.
`sortList` is the insertion sort through which an order is usually made canonical.
-/

namespace DoltSwarm.Lib

set_option autoImplicit false

/-- A way to list the elements of every finite set, each once. -/
structure Enumeration (α : Type) where
  list : Finset α → List α
  coe_list : ∀ s, (list s : Multiset α) = s.val

namespace Enumeration

variable {α : Type} (e : Enumeration α)

theorem mem_list (s : Finset α) (a : α) : a ∈ e.list s ↔ a ∈ s := by
  rw [← Multiset.mem_coe, e.coe_list, Finset.mem_val]

theorem nodup_list (s : Finset α) : (e.list s).Nodup := by
  rw [← Multiset.coe_nodup, e.coe_list]
  exact s.nodup

theorem list_perm (e e' : Enumeration α) (s : Finset α) : (e.list s).Perm (e'.list s) := by
  rw [← Multiset.coe_eq_coe, e.coe_list, e'.coe_list]

end Enumeration

section Sorting

variable {α : Type} (lt : α → α → Bool)

def insertInOrder : List α → α → List α
  | [], x => [x]
  | c :: cs, x => if lt c x then c :: insertInOrder cs x else x :: c :: cs

def sortList (l : List α) : List α := l.foldl (insertInOrder lt) []

theorem insertInOrder_perm (l : List α) (x : α) : (insertInOrder lt l x).Perm (x :: l) := by
  induction l with
  | nil => exact List.Perm.refl _
  | cons c cs ih =>
    simp only [insertInOrder]
    split
    · exact (ih.cons c).trans (List.Perm.swap x c cs)
    · exact List.Perm.refl _

theorem foldl_insertInOrder_perm (l acc : List α) :
    (l.foldl (insertInOrder lt) acc).Perm (l ++ acc) := by
  induction l generalizing acc with
  | nil => exact List.Perm.refl _
  | cons x xs ih =>
    refine (ih _).trans ?_
    exact ((insertInOrder_perm lt acc x).append_left xs).trans List.perm_middle

theorem sortList_perm (l : List α) : (sortList lt l).Perm l := by
  simpa [sortList] using foldl_insertInOrder_perm lt l []

theorem mem_sortList (l : List α) (a : α) : a ∈ sortList lt l ↔ a ∈ l :=
  (sortList_perm lt l).mem_iff

@[simp] theorem length_sortList (l : List α) : (sortList lt l).length = l.length :=
  (sortList_perm lt l).length_eq

theorem insertInOrder_congr {lt lt' : α → α → Bool} {l : List α} {x : α}
    (h : ∀ a ∈ l, lt a x = lt' a x) : insertInOrder lt l x = insertInOrder lt' l x := by
  induction l with
  | nil => rfl
  | cons c cs ih =>
    simp only [List.mem_cons, forall_eq_or_imp] at h
    simp only [insertInOrder, h.1, ih h.2]

theorem sortList_congr {lt lt' : α → α → Bool} {l : List α}
    (h : ∀ a ∈ l, ∀ b ∈ l, lt a b = lt' a b) : sortList lt l = sortList lt' l := by
  have hfold : ∀ (xs acc : List α), xs ⊆ l → acc ⊆ l →
      xs.foldl (insertInOrder lt) acc = xs.foldl (insertInOrder lt') acc := by
    intro xs
    induction xs with
    | nil => exact fun _ _ _ => rfl
    | cons x xs ih =>
      intro acc hxs hacc
      have hx : x ∈ l := hxs List.mem_cons_self
      rw [List.foldl_cons, List.foldl_cons,
        insertInOrder_congr fun a ha => h a (hacc ha) x hx]
      refine ih _ (fun y hy => hxs (List.mem_cons_of_mem x hy)) fun y hy => ?_
      rcases List.mem_cons.mp ((insertInOrder_perm lt' acc x).mem_iff.mp hy) with rfl | hy
      · exact hx
      · exact hacc hy
  exact hfold l [] (List.Subset.refl l) (List.nil_subset l)

/-- What makes a comparison a strict total order on the elements satisfying `P`. -/
structure StrictTotalOn (P : α → Prop) : Prop where
  irrefl : ∀ a, P a → lt a a = false
  trans : ∀ {a b c}, P a → P b → P c → lt a b = true → lt b c = true → lt a c = true
  tri : ∀ a b, P a → P b → lt a b = true ∨ a = b ∨ lt b a = true

variable {lt} {P : α → Prop}

theorem StrictTotalOn.asymm (h : StrictTotalOn lt P) {a b : α} (ha : P a) (hb : P b)
    (hab : lt a b = true) : lt b a = false := by
  cases hba : lt b a with
  | false => rfl
  | true =>
    have haa := h.trans ha hb ha hab hba
    rw [h.irrefl a ha] at haa
    cases haa

theorem StrictTotalOn.of_not_of_lt (h : StrictTotalOn lt P) {a b c : α} (ha : P a) (hb : P b)
    (hc : P c) (hba : lt b a = false) (hbc : lt b c = true) : lt a c = true := by
  rcases h.tri a b ha hb with hab | rfl | hab
  · exact h.trans ha hb hc hab hbc
  · exact hbc
  · rw [hba] at hab
    cases hab

/-- A strict order under which elements are incomparable exactly if they are the same in the
sense of `same`. -/
structure StrictTotalUpTo (lt : α → α → Bool) (same : α → α → Prop) : Prop where
  irrefl : ∀ a, lt a a = false
  trans : ∀ {a b c}, lt a b = true → lt b c = true → lt a c = true
  incomparable : ∀ a b, lt a b = false ∧ lt b a = false ↔ same a b

theorem StrictTotalUpTo.strictTotalOn {same : α → α → Prop} (h : StrictTotalUpTo lt same)
    (hP : ∀ a b, P a → P b → same a b → a = b) : StrictTotalOn lt P := by
  refine ⟨fun a _ => h.irrefl a, fun _ _ _ hab hbc => h.trans hab hbc, fun a b ha hb => ?_⟩
  cases hab : lt a b with
  | true => exact Or.inl rfl
  | false =>
    cases hba : lt b a with
    | true => exact Or.inr (Or.inr rfl)
    | false => exact Or.inr (Or.inl (hP a b ha hb ((h.incomparable a b).mp ⟨hab, hba⟩)))

theorem StrictTotalOn.upTo {same : α → α → Prop} (h : StrictTotalOn lt fun _ => True)
    (hsame : ∀ a b, same a b ↔ a = b) : StrictTotalUpTo lt same := by
  refine ⟨fun a => h.irrefl a trivial, h.trans trivial trivial trivial, fun a b => ?_⟩
  rw [hsame]
  constructor
  · rintro ⟨hab, hba⟩
    rcases h.tri a b trivial trivial with hlt | heq | hlt
    · rw [hab] at hlt
      cases hlt
    · exact heq
    · rw [hba] at hlt
      cases hlt
  · rintro rfl
    exact ⟨h.irrefl a trivial, h.irrefl a trivial⟩

section Keys

variable {κ : Type}

theorem ite_ne_lt_iff [LT κ] [DecidableEq κ] [DecidableLT κ] (hirrefl : ∀ x : κ, ¬x < x) {x y : κ}
    {rest : Bool} :
    (if x ≠ y then decide (x < y) else rest) = true ↔ x < y ∨ x = y ∧ rest = true := by
  by_cases heq : x = y
  · subst heq
    simp [hirrefl x]
  · simp [heq]

variable [LinearOrder κ] (key : α → κ)

theorem strictTotalUpTo_of_key {same : α → α → Prop} (hkey : ∀ a b, lt a b = true ↔ key a < key b)
    (hsame : ∀ a b, key a = key b ↔ same a b) : StrictTotalUpTo lt same := by
  constructor
  case irrefl =>
    intro a
    rw [Bool.eq_false_iff, ne_eq, hkey]
    exact lt_irrefl _
  case trans =>
    intro a b c hab hbc
    rw [hkey] at *
    exact hab.trans hbc
  case incomparable =>
    intro a b
    rw [Bool.eq_false_iff, Bool.eq_false_iff, ne_eq, ne_eq, hkey, hkey, ← hsame]
    constructor
    · rintro ⟨hab, hba⟩
      exact le_antisymm (not_lt.mp hba) (not_lt.mp hab)
    · intro heq
      rw [heq]
      exact ⟨lt_irrefl _, lt_irrefl _⟩

theorem strictTotalOn_of_key (hkey : ∀ a b, lt a b = true ↔ key a < key b)
    (hinjective : Function.Injective key) : StrictTotalOn lt fun _ => True := by
  have htotal : StrictTotalUpTo lt fun a b => key a = key b :=
    strictTotalUpTo_of_key key hkey fun _ _ => Iff.rfl
  exact htotal.strictTotalOn fun a b _ _ heq => hinjective heq

end Keys

theorem StrictTotalOn.exists_first (h : StrictTotalOn lt P) {s : Finset α} (hne : s.Nonempty)
    (hs : ∀ a ∈ s, P a) : ∃ m ∈ s, ∀ x ∈ s, lt x m = false := by
  induction hne using Finset.Nonempty.cons_induction with
  | singleton a =>
    refine ⟨a, Finset.mem_singleton_self a, fun x hx => ?_⟩
    rw [Finset.mem_singleton.mp hx]
    exact h.irrefl a (hs a (Finset.mem_singleton_self a))
  | cons a s ha _ ih =>
    simp only [Finset.mem_cons, forall_eq_or_imp] at hs
    obtain ⟨m, hm, hmin⟩ := ih hs.2
    cases ham : lt a m with
    | false => exact ⟨m, Finset.mem_cons_of_mem hm, by simp [ham]; exact hmin⟩
    | true =>
      refine ⟨a, Finset.mem_cons_self a s, fun x hx => ?_⟩
      rcases Finset.mem_cons.mp hx with rfl | hx
      · exact h.irrefl x hs.1
      · cases hxa : lt x a with
        | false => rfl
        | true =>
          have hxm := h.trans (hs.2 x hx) hs.1 (hs.2 m hm) hxa ham
          rw [hmin x hx] at hxm
          cases hxm

/-- Ascending in the sense an insertion sort produces: no later element is below an earlier one. -/
def Ascending (lt : α → α → Bool) (l : List α) : Prop := l.Pairwise fun a b => lt b a = false

theorem ascending_insertInOrder (h : StrictTotalOn lt P) {l : List α} {x : α}
    (hl : ∀ a ∈ l, P a) (hx : P x) (hs : Ascending lt l) :
    Ascending lt (insertInOrder lt l x) := by
  induction l with
  | nil => exact List.pairwise_singleton _ x
  | cons c cs ih =>
    have hc := hl c List.mem_cons_self
    have hcs : ∀ a ∈ cs, P a := fun a ha => hl a (List.mem_cons_of_mem c ha)
    obtain ⟨hcl, hsl⟩ := List.pairwise_cons.mp hs
    simp only [insertInOrder]
    split
    · rename_i hlt
      refine List.pairwise_cons.mpr ⟨?_, ih hcs hsl⟩
      intro a ha
      rcases List.mem_cons.mp ((insertInOrder_perm lt cs x).mem_iff.mp ha) with rfl | ha
      · exact h.asymm hc hx hlt
      · exact hcl a ha
    · rename_i hlt
      have hcx : lt c x = false := by simpa using hlt
      refine List.pairwise_cons.mpr ⟨?_, hs⟩
      intro a ha
      rcases List.mem_cons.mp ha with rfl | ha
      · exact hcx
      · -- an element behind `c` and below `x` would be below `c` or give `c` below `x`
        cases hax : lt a x with
        | false => rfl
        | true =>
          have hPa := hcs a ha
          rcases h.tri c a hc hPa with hca | rfl | hac
          · rw [h.trans hc hPa hx hca hax] at hcx
            cases hcx
          · rw [hax] at hcx
            cases hcx
          · rw [hcl a ha] at hac
            cases hac

theorem ascending_foldl (h : StrictTotalOn lt P) (l acc : List α) (hl : ∀ a ∈ l, P a)
    (hacc : ∀ a ∈ acc, P a) (hs : Ascending lt acc) :
    Ascending lt (l.foldl (insertInOrder lt) acc) := by
  induction l generalizing acc with
  | nil => exact hs
  | cons x xs ih =>
    have hx := hl x List.mem_cons_self
    apply ih _ (fun a ha => hl a (List.mem_cons_of_mem x ha))
    · intro a ha
      rcases List.mem_cons.mp ((insertInOrder_perm lt acc x).mem_iff.mp ha) with rfl | ha
      · exact hx
      · exact hacc a ha
    · exact ascending_insertInOrder h hacc hx hs

theorem ascending_sortList (h : StrictTotalOn lt P) {l : List α} (hl : ∀ a ∈ l, P a) :
    Ascending lt (sortList lt l) :=
  ascending_foldl h l [] hl (by simp) List.Pairwise.nil

/-- A list in strict order is determined by its members. -/
theorem eq_of_pairwise_of_mem_iff {r : α → α → Prop} (hasymm : ∀ a b, r a b → ¬ r b a)
    {l l' : List α} (hl : l.Pairwise r) (hl' : l'.Pairwise r) (hmem : ∀ a, a ∈ l ↔ a ∈ l') :
    l = l' := by
  have hne : ∀ {a b}, r a b → a ≠ b := by
    rintro a b h rfl
    exact hasymm a a h h
  refine List.Perm.eq_of_pairwise (fun a b _ _ h h' => absurd h' (hasymm a b h)) hl hl' ?_
  exact (List.perm_ext_iff_of_nodup (hl.imp hne) (hl'.imp hne)).mpr hmem

theorem Ascending.eq_of_perm (h : StrictTotalOn lt P) {l l' : List α} (hp : l.Perm l')
    (hl : ∀ a ∈ l, P a) (hs : Ascending lt l) (hs' : Ascending lt l') : l = l' := by
  refine List.Perm.eq_of_pairwise ?_ hs hs' hp
  intro a b ha hb hba hab
  rcases h.tri a b (hl a ha) (hl b (hp.mem_iff.mpr hb)) with hlt | heq | hlt
  · rw [hab] at hlt
    cases hlt
  · exact heq
  · rw [hba] at hlt
    cases hlt

theorem Ascending.filter_lt (h : StrictTotalOn lt P) {before after : List α} {a : α}
    (hP : ∀ x ∈ before ++ a :: after, P x) (hs : Ascending lt (before ++ a :: after))
    (hnodup : (before ++ a :: after).Nodup) :
    (before ++ a :: after).filter (fun x => lt x a) = before := by
  have ha : P a := hP a (by simp)
  obtain ⟨-, hrest, hbefore⟩ := List.pairwise_append.mp hs
  obtain ⟨hafter, -⟩ := List.pairwise_cons.mp hrest
  have hne : ∀ x ∈ before, x ≠ a := by
    rintro x hx rfl
    exact (List.nodup_append.mp hnodup).2.2 x hx x List.mem_cons_self rfl
  have hkept : before.filter (fun x => lt x a) = before := by
    refine List.filter_eq_self.mpr fun x hx => ?_
    rcases h.tri x a (hP x (List.mem_append_left _ hx)) ha with hlt | heq | hgt
    · exact hlt
    · exact absurd heq (hne x hx)
    · rw [hbefore x hx a List.mem_cons_self] at hgt
      cases hgt
  have hdropped : (a :: after).filter (fun x => lt x a) = [] := by
    refine List.filter_eq_nil_iff.mpr fun x hx => ?_
    rcases List.mem_cons.mp hx with rfl | hx
    · simp [h.irrefl x ha]
    · simp [hafter x hx]
  rw [List.filter_append, hkept, hdropped, List.append_nil]

/-- Sorting forgets the order in which a set was listed. -/
theorem sortList_eq_of_perm (h : StrictTotalOn lt P) {l l' : List α} (hp : l.Perm l')
    (hl : ∀ a ∈ l, P a) : sortList lt l = sortList lt l' := by
  have hperm : (sortList lt l).Perm (sortList lt l') :=
    (sortList_perm lt l).trans (hp.trans (sortList_perm lt l').symm)
  exact Ascending.eq_of_perm h hperm (fun a ha => hl a ((mem_sortList lt l a).mp ha))
    (ascending_sortList h hl) (ascending_sortList h fun a ha => hl a (hp.mem_iff.mpr ha))

theorem sortList_of_perm_filter (h : StrictTotalOn lt P) {l l' : List α} {q : α → Bool}
    (hp : l'.Perm (l.filter q)) (hl : ∀ a ∈ l, P a) :
    sortList lt l' = (sortList lt l).filter q := by
  have hl' : ∀ a ∈ l', P a := fun a ha => hl a (List.mem_filter.mp (hp.mem_iff.mp ha)).1
  have hperm : (sortList lt l').Perm ((sortList lt l).filter q) :=
    (sortList_perm lt l').trans (hp.trans ((sortList_perm lt l).filter q).symm)
  exact Ascending.eq_of_perm h hperm (fun a ha => hl' a ((mem_sortList lt l' a).mp ha))
    (ascending_sortList h hl') (List.Pairwise.filter q (ascending_sortList h hl))

end Sorting

section Best

variable {α : Type} (better : α → α → Bool)

/-- Keep the better of two elements along a list. -/
def best (init : α) (l : List α) : α := l.foldl (fun b c => if better c b then c else b) init

theorem best_mem (init : α) (l : List α) : best better init l ∈ init :: l := by
  induction l generalizing init with
  | nil => exact List.mem_singleton.mpr rfl
  | cons c cs ih =>
    simp only [best, List.foldl_cons] at ih ⊢
    split
    · exact List.mem_cons_of_mem _ (ih c)
    · rcases List.mem_cons.mp (ih init) with h | h
      · rw [h]
        exact List.mem_cons_self
      · exact List.mem_cons_of_mem _ (List.mem_cons_of_mem _ h)

variable {better} (h : StrictTotalOn better fun _ => True)

include h

theorem not_better_best (init : α) (l : List α) :
    ∀ x ∈ init :: l, better x (best better init l) = false := by
  induction l generalizing init with
  | nil =>
    intro x hx
    rw [List.mem_singleton.mp hx]
    exact h.irrefl _ trivial
  | cons c cs ih =>
    have hkeep : ∀ {a b}, better a b = true → better b (best better a cs) = false := by
      intro a b hab
      cases hb : better b (best better a cs) with
      | false => rfl
      | true =>
        have ha := ih a a List.mem_cons_self
        rw [h.trans trivial trivial trivial hab hb] at ha
        cases ha
    intro x hx
    have heq : best better init (c :: cs) =
        best better (if better c init then c else init) cs := rfl
    rw [heq]
    split
    · rename_i hc
      rcases List.mem_cons.mp hx with rfl | hx
      · exact hkeep hc
      · exact ih c x hx
    · rename_i hc
      rcases List.mem_cons.mp hx with rfl | hx
      · exact ih x x List.mem_cons_self
      · rcases List.mem_cons.mp hx with rfl | hx
        · rcases h.tri init x trivial trivial with hlt | rfl | hgt
          · exact hkeep hlt
          · exact ih init init List.mem_cons_self
          · exact absurd hgt hc
        · exact ih init x (List.mem_cons_of_mem _ hx)

/-- The best element depends on what is listed, not on the order. -/
theorem best_eq_of_mem_iff {a b : α} {l l' : List α} (hmem : ∀ x, x ∈ a :: l ↔ x ∈ b :: l') :
    best better a l = best better b l' := by
  have h₁ := not_better_best h a l _ ((hmem _).mpr (best_mem better b l'))
  have h₂ := not_better_best h b l' _ ((hmem _).mp (best_mem better a l))
  rcases h.tri (best better a l) (best better b l') trivial trivial with hlt | heq | hgt
  · rw [h₂] at hlt
    cases hlt
  · exact heq
  · rw [h₁] at hgt
    cases hgt

end Best

section Sorted

variable {α : Type} (lt : α → α → Bool) (h : StrictTotalOn lt fun _ => True)

/-- The enumeration in ascending order, computable from any listing of the set. -/
def Enumeration.sorted : Enumeration α where
  list s := Quotient.liftOn s.val (sortList lt) fun _ _ hp =>
    sortList_eq_of_perm h hp fun _ _ => trivial
  coe_list s := by
    obtain ⟨m, hm⟩ := s
    induction m using Quotient.inductionOn with
    | h l => exact Multiset.coe_eq_coe.mpr (sortList_perm lt l)

end Sorted

end DoltSwarm.Lib
