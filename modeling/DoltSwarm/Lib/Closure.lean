import Mathlib.Data.Finset.Card
import Mathlib.Data.Finset.Max
import Mathlib.Data.Finset.Union
import Mathlib.Data.List.Chain
import Mathlib.Logic.Function.Iterate
import Mathlib.Logic.Relation

/-!
# Closure of a set under a successor function, unrolled a fixed number of times

A model checker cannot run a loop to its fixed point, so a closure is written there as a
fold over a range. `unrolledClosure n` is that fold; `Path` is the unbounded relation it
approximates from below.
-/

namespace DoltSwarm.Lib

set_option autoImplicit false

variable {α : Type} [DecidableEq α] {next next' : α → Finset α}

def closureStep (next : α → Finset α) (acc : Finset α) : Finset α := acc ∪ acc.biUnion next

def unrolledClosure (n : ℕ) (next : α → Finset α) (seed : Finset α) : Finset α :=
  (closureStep next)^[n] seed

abbrev Path (next : α → Finset α) : α → α → Prop :=
  Relation.ReflTransGen fun a b => b ∈ next a

theorem mem_closureStep (next : α → Finset α) (acc : Finset α) (b : α) :
    b ∈ closureStep next acc ↔ b ∈ acc ∨ ∃ a ∈ acc, b ∈ next a := by
  simp [closureStep]

theorem unrolledClosure_succ (n : ℕ) (next : α → Finset α) (seed : Finset α) :
    unrolledClosure (n + 1) next seed = closureStep next (unrolledClosure n next seed) :=
  Function.iterate_succ_apply' _ _ _

theorem subset_unrolledClosure (n : ℕ) (seed : Finset α) :
    seed ⊆ unrolledClosure n next seed := by
  induction n with
  | zero => exact Finset.Subset.refl seed
  | succ n ih =>
    intro x hx
    rw [unrolledClosure_succ, mem_closureStep]
    exact Or.inl (ih hx)

theorem unrolledClosure_mono_seed (n : ℕ) {seed seed' : Finset α} (h : seed ⊆ seed') :
    unrolledClosure n next seed ⊆ unrolledClosure n next seed' := by
  induction n with
  | zero => exact h
  | succ n ih =>
    intro x hx
    rw [unrolledClosure_succ, mem_closureStep] at hx ⊢
    rcases hx with hx | ⟨a, ha, hax⟩
    · exact Or.inl (ih hx)
    · exact Or.inr ⟨a, ih ha, hax⟩

theorem unrolledClosure_le {n m : ℕ} (h : n ≤ m) (seed : Finset α) :
    unrolledClosure n next seed ⊆ unrolledClosure m next seed := by
  induction h with
  | refl => exact Finset.Subset.refl _
  | step _ ih =>
    intro x hx
    rw [unrolledClosure_succ, mem_closureStep]
    exact Or.inl (ih hx)

/-- Of a second set of links only those inside the larger closure matter. -/
theorem unrolledClosure_mono_within {n : ℕ} {seed : Finset α}
    (h : ∀ a ∈ unrolledClosure n next' seed, next a ⊆ next' a) :
    unrolledClosure n next seed ⊆ unrolledClosure n next' seed := by
  induction n with
  | zero => exact Finset.Subset.refl seed
  | succ n ih =>
    have hrounds : unrolledClosure n next' seed ⊆ unrolledClosure (n + 1) next' seed :=
      unrolledClosure_le (Nat.le_succ n) seed
    have hsub := ih fun a ha => h a (hrounds ha)
    intro x hx
    rw [unrolledClosure_succ, mem_closureStep] at hx ⊢
    rcases hx with hx | ⟨a, ha, hax⟩
    · exact Or.inl (hsub hx)
    · exact Or.inr ⟨a, hsub ha, h a (hrounds (hsub ha)) hax⟩

theorem unrolledClosure_mono_next (n : ℕ) (h : ∀ a, next a ⊆ next' a) (seed : Finset α) :
    unrolledClosure n next seed ⊆ unrolledClosure n next' seed :=
  unrolledClosure_mono_within fun a _ => h a

theorem unrolledClosure_next_subset (n : ℕ) (a : α) :
    unrolledClosure n next (next a) ⊆ unrolledClosure (n + 1) next {a} := by
  have hfirst : next a ⊆ closureStep next {a} := by simp [closureStep]
  exact unrolledClosure_mono_seed n hfirst

theorem next_subset_unrolledClosure {n : ℕ} (hn : 0 < n) {seed : Finset α} {a b : α}
    (ha : a ∈ seed) (hb : b ∈ next a) : b ∈ unrolledClosure n next seed := by
  apply unrolledClosure_le (Nat.succ_le_of_lt hn)
  rw [unrolledClosure_succ, mem_closureStep]
  exact Or.inr ⟨a, ha, hb⟩

theorem path_of_mem_unrolledClosure {n : ℕ} {seed : Finset α} {b : α}
    (h : b ∈ unrolledClosure n next seed) : ∃ a ∈ seed, Path next a b := by
  induction n generalizing b with
  | zero => exact ⟨b, h, .refl⟩
  | succ n ih =>
    rw [unrolledClosure_succ, mem_closureStep] at h
    rcases h with h | ⟨c, hc, hcb⟩
    · exact ih h
    · obtain ⟨a, ha, hac⟩ := ih hc
      exact ⟨a, ha, hac.tail hcb⟩

theorem unrolledClosure_subset {s seed : Finset α} (hseed : seed ⊆ s)
    (hclosed : ∀ a ∈ s, next a ⊆ s) (n : ℕ) : unrolledClosure n next seed ⊆ s := by
  induction n with
  | zero => exact hseed
  | succ n ih =>
    intro x hx
    rw [unrolledClosure_succ, mem_closureStep] at hx
    rcases hx with hx | ⟨a, ha, hax⟩
    · exact ih hx
    · exact hclosed a (ih ha) hax

theorem unrolledClosure_congr {n : ℕ} {seed : Finset α}
    (heq : ∀ a ∈ unrolledClosure n next seed, next' a = next a) :
    unrolledClosure n next' seed = unrolledClosure n next seed := by
  induction n with
  | zero => rfl
  | succ n ih =>
    have hrounds : unrolledClosure n next seed ⊆ unrolledClosure (n + 1) next seed :=
      unrolledClosure_le (Nat.le_succ n) seed
    ext x
    rw [unrolledClosure_succ, unrolledClosure_succ, ih fun a ha => heq a (hrounds ha),
      mem_closureStep, mem_closureStep]
    refine or_congr Iff.rfl (exists_congr fun a => and_congr_right fun ha => ?_)
    rw [heq a (hrounds ha)]

/-- A round of the closure changes nothing any more, or the closure has grown every time. -/
theorem unrolledClosure_stable_or_grown (n : ℕ) {seed : Finset α} (hne : seed.Nonempty) :
    unrolledClosure (n + 1) next seed = unrolledClosure n next seed ∨
      n + 1 < (unrolledClosure (n + 1) next seed).card := by
  induction n with
  | zero =>
    rcases (unrolledClosure_le (Nat.zero_le 1) seed).eq_or_ssubset with h | h
    · exact Or.inl h.symm
    · exact Or.inr (lt_of_le_of_lt hne.card_pos (Finset.card_lt_card h))
  | succ n ih =>
    rcases ih with ih | ih
    · left
      rw [unrolledClosure_succ (n + 1), ih, ← unrolledClosure_succ, ih]
    · rcases (unrolledClosure_le (Nat.le_add_right (n + 1) 1) seed).eq_or_ssubset
        with h | h
      · exact Or.inl h.symm
      · have hlt := Finset.card_lt_card h
        exact Or.inr (by omega)

theorem unrolledClosure_stable_of_card {s seed : Finset α} {n : ℕ} (hne : seed.Nonempty)
    (hsub : unrolledClosure (n + 1) next seed ⊆ s) (hcard : s.card ≤ n + 1) :
    unrolledClosure (n + 1) next seed = unrolledClosure n next seed := by
  rcases unrolledClosure_stable_or_grown n hne with h | h
  · exact h
  · have hle := Finset.card_le_card hsub
    omega

/-- Inside a closed set of at most `n + 1` elements, `n` rounds collect all that is reached. -/
theorem mem_unrolledClosure_of_path {s seed : Finset α} (hseed : seed ⊆ s)
    (hclosed : ∀ a ∈ s, next a ⊆ s) {n : ℕ} (hn : s.card ≤ n + 1) {a b : α} (ha : a ∈ seed)
    (hpath : Path next a b) : b ∈ unrolledClosure n next seed := by
  have hstable : unrolledClosure (n + 1) next seed = unrolledClosure n next seed :=
    unrolledClosure_stable_of_card ⟨a, ha⟩ (unrolledClosure_subset hseed hclosed (n + 1)) hn
  induction hpath with
  | refl => exact subset_unrolledClosure n seed ha
  | tail _ hlink ih =>
    rw [← hstable, unrolledClosure_succ, mem_closureStep]
    exact Or.inr ⟨_, ih, hlink⟩

theorem mem_unrolledClosure_iff_of_seed {n : ℕ} {seed : Finset α} {b : α} :
    b ∈ unrolledClosure n next seed ↔ ∃ a ∈ seed, b ∈ unrolledClosure n next {a} := by
  constructor
  · intro h
    induction n generalizing b with
    | zero => exact ⟨b, h, Finset.mem_singleton_self b⟩
    | succ n ih =>
      rw [unrolledClosure_succ, mem_closureStep] at h
      rcases h with h | ⟨c, hc, hcb⟩
      · obtain ⟨a, ha, hab⟩ := ih h
        exact ⟨a, ha, unrolledClosure_le (Nat.le_succ n) _ hab⟩
      · obtain ⟨a, ha, hac⟩ := ih hc
        refine ⟨a, ha, ?_⟩
        rw [unrolledClosure_succ, mem_closureStep]
        exact Or.inr ⟨c, hac, hcb⟩
  · rintro ⟨a, ha, hab⟩
    exact unrolledClosure_mono_seed n (Finset.singleton_subset_iff.mpr ha) hab

theorem unrolledClosure_singleton_succ (n : ℕ) (a : α) :
    unrolledClosure (n + 1) next {a} = insert a (unrolledClosure n next (next a)) := by
  apply Finset.Subset.antisymm
  · induction n with
    | zero =>
      intro x hx
      rw [unrolledClosure_succ, mem_closureStep] at hx
      rcases hx with hx | ⟨c, hc, hcx⟩
      · exact Finset.mem_insert.mpr (Or.inl (Finset.mem_singleton.mp hx))
      · exact Finset.mem_insert_of_mem (Finset.mem_singleton.mp hc ▸ hcx)
    | succ n ih =>
      have hrounds : unrolledClosure n next (next a) ⊆ unrolledClosure (n + 1) next (next a) :=
        unrolledClosure_le (Nat.le_succ n) _
      intro x hx
      rw [unrolledClosure_succ, mem_closureStep] at hx
      rcases hx with hx | ⟨c, hc, hcx⟩
      · exact Finset.insert_subset_insert a hrounds (ih hx)
      · refine Finset.mem_insert_of_mem ?_
        rcases Finset.mem_insert.mp (ih hc) with rfl | hc
        · exact subset_unrolledClosure _ _ hcx
        · rw [unrolledClosure_succ, mem_closureStep]
          exact Or.inr ⟨c, hc, hcx⟩
  · refine Finset.insert_subset ?_ (unrolledClosure_next_subset n a)
    exact subset_unrolledClosure _ _ (Finset.mem_singleton_self a)

theorem mem_unrolledClosure_of_isChain (l : List α) {a : α}
    (h : (a :: l).IsChain fun x y => y ∈ next x) :
    (a :: l).getLast (List.cons_ne_nil a l) ∈ unrolledClosure l.length next {a} := by
  induction l generalizing a with
  | nil => exact Finset.mem_singleton_self a
  | cons b l ih =>
    obtain ⟨hlink, hrest⟩ := List.isChain_cons_cons.mp h
    rw [List.getLast_cons_cons]
    apply unrolledClosure_next_subset
    exact unrolledClosure_mono_seed _ (Finset.singleton_subset_iff.mpr hlink) (ih hrest)

theorem mem_unrolledClosure_of_bounded {n : ℕ} {a b : α}
    (hbound : ∀ l : List α, (a :: l).IsChain (fun x y => y ∈ next x) → l.length ≤ n)
    (h : Path next a b) : b ∈ unrolledClosure n next {a} := by
  obtain ⟨l, hl, rfl⟩ := List.exists_isChain_cons_of_relationReflTransGen h
  exact unrolledClosure_le (hbound l hl) _ (mem_unrolledClosure_of_isChain l hl)

omit [DecidableEq α] in
theorem Path.mono (h : ∀ a, next a ⊆ next' a) {a b : α} (hab : Path next a b) :
    Path next' a b := Relation.ReflTransGen.mono (fun x _ hy => h x hy) a b hab

/-- A loop that makes a measure smaller until it changes nothing has settled after as many
rounds as the measure allows. -/
theorem iterate_settles {σ : Type} {f : σ → σ} (measure : σ → ℕ)
    (h : ∀ s, f s = s ∨ measure (f s) < measure s) {n : ℕ} {s : σ} (hn : measure s ≤ n) :
    f (f^[n] s) = f^[n] s := by
  induction n generalizing s with
  | zero =>
    rcases h s with heq | hlt
    · exact heq
    · omega
  | succ n ih =>
    rw [Function.iterate_succ_apply]
    rcases h s with heq | hlt
    · rw [heq, Function.iterate_fixed heq, heq]
    · exact ih (by omega)

/-! ## Links without cycles -/

section Acyclic

omit [DecidableEq α]

/-- No element is reached from itself by one link or more. -/
def Acyclic (next : α → Finset α) : Prop :=
  ∀ a, ¬Relation.TransGen (fun x y => y ∈ next x) a a

def ChainsWithin (next : α → Finset α) (n : ℕ) : Prop :=
  ∀ a l, (a :: l).IsChain (fun x y => y ∈ next x) → l.length ≤ n

theorem acyclic_of_rank (rank : α → ℕ) (h : ∀ a, ∀ b ∈ next a, rank b < rank a) :
    Acyclic next := by
  have hlt : ∀ a b, Relation.TransGen (fun x y => y ∈ next x) a b → rank b < rank a := by
    intro a b hab
    induction hab with
    | single hlink => exact h _ _ hlink
    | tail _ hlink ih => exact (h _ _ hlink).trans ih
  exact fun a hcycle => lt_irrefl _ (hlt a a hcycle)

theorem Acyclic.mono (h : Acyclic next') (hsub : ∀ a, next a ⊆ next' a) : Acyclic next :=
  fun a hcycle => h a (Relation.TransGen.mono (fun x _ hy => hsub x hy) a a hcycle)

theorem exists_chain_of_cycle (n : ℕ) {a : α}
    (h : Relation.TransGen (fun x y => y ∈ next x) a a) :
    ∃ l, (a :: l).IsChain (fun x y => y ∈ next x) ∧ l.length = n := by
  induction n generalizing a with
  | zero => exact ⟨[], .singleton a, rfl⟩
  | succ n ih =>
    obtain ⟨b, hab, hba⟩ := Relation.TransGen.head'_iff.mp h
    obtain ⟨l, hl, hlen⟩ := ih (Relation.TransGen.tail' hba hab)
    exact ⟨b :: l, List.isChain_cons_cons.mpr ⟨hab, hl⟩, by rw [List.length_cons, hlen]⟩

theorem ChainsWithin.acyclic {n : ℕ} (h : ChainsWithin next n) : Acyclic next := by
  intro a hcycle
  obtain ⟨l, hl, hlen⟩ := exists_chain_of_cycle (n + 1) hcycle
  have hle := h a l hl
  omega

/-- Without cycles a chain passes every element it leaves once. -/
theorem Acyclic.chainsWithin (h : Acyclic next) {s : Finset α}
    (hsrc : ∀ a b, b ∈ next a → a ∈ s) : ChainsWithin next s.card := by
  classical
  intro a l hl
  have hpairs : (a :: l).Pairwise (Relation.TransGen fun x y => y ∈ next x) :=
    (hl.imp fun _ _ hlink => .single hlink).pairwise
  have hnodup : (a :: l).Nodup := by
    refine hpairs.imp ?_
    rintro x y hxy rfl
    exact h x hxy
  have hmem : ∀ x ∈ (a :: l).dropLast, x ∈ s := by
    clear hpairs hnodup
    induction l generalizing a with
    | nil => simp
    | cons b l ih =>
      obtain ⟨hlink, hrest⟩ := List.isChain_cons_cons.mp hl
      rw [List.dropLast_cons_cons, List.forall_mem_cons]
      exact ⟨hsrc a b hlink, ih b hrest⟩
  have hcard := Finset.card_le_card (s := (a :: l).dropLast.toFinset) (t := s)
    fun x hx => hmem x (List.mem_toFinset.mp hx)
  rw [List.toFinset_card_of_nodup (hnodup.sublist (List.dropLast_sublist _)),
    List.length_dropLast] at hcard
  exact hcard

open Classical in
theorem Acyclic.card_reached_lt (h : Acyclic next) {s : Finset α} {c m : α} (hc : c ∈ s)
    (hm : m ∈ next c) :
    (s.filter fun y => Path next m y).card < (s.filter fun y => Path next c y).card := by
  refine Finset.card_lt_card ⟨fun y hy => ?_, fun hsub => ?_⟩
  · obtain ⟨hys, hpath⟩ := Finset.mem_filter.mp hy
    exact Finset.mem_filter.mpr ⟨hys, hpath.head hm⟩
  · have hself : c ∈ s.filter fun y => Path next c y := Finset.mem_filter.mpr ⟨hc, .refl⟩
    have hback := (Finset.mem_filter.mp (hsub hself)).2
    exact h c (Relation.TransGen.head' hm hback)

theorem Acyclic.exists_top (h : Acyclic next) {s : Finset α} {a : α} (ha : a ∈ s) :
    ∃ m ∈ s, Path next m a ∧ ∀ c ∈ s, m ∉ next c := by
  classical
  obtain ⟨m, hm, hmax⟩ := Finset.exists_max_image (s.filter fun x => Path next x a)
    (fun x => (s.filter fun y => Path next x y).card) ⟨a, Finset.mem_filter.mpr ⟨ha, .refl⟩⟩
  obtain ⟨hms, hpath⟩ := Finset.mem_filter.mp hm
  refine ⟨m, hms, hpath, fun c hc hlink => ?_⟩
  have hle := hmax c (Finset.mem_filter.mpr ⟨hc, hpath.head hlink⟩)
  have hlt := h.card_reached_lt hc hlink
  omega

end Acyclic

/-- As many rounds as the longest chain has links find exactly what is reached. -/
theorem ChainsWithin.mem_unrolledClosure_iff {n : ℕ} (h : ChainsWithin next n) {a b : α} :
    b ∈ unrolledClosure n next {a} ↔ Path next a b := by
  constructor
  · intro hb
    obtain ⟨x, hx, hpath⟩ := path_of_mem_unrolledClosure hb
    rwa [Finset.mem_singleton.mp hx] at hpath
  · exact mem_unrolledClosure_of_bounded (h a)

end DoltSwarm.Lib
