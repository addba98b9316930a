import Mathlib.Data.List.Basic
import Mathlib.Logic.Relation

/-!
# Append-only acyclic graphs

The nodes are kept newest first and every link leads to an older node, so a graph can only
grow at its head, and what is reached from a node never changes once the node is there.
-/

namespace DoltSwarm.Lib

set_option autoImplicit false

structure DagNode (K V : Type) where
  key : K
  links : List K
  value : V
  deriving DecidableEq, Repr

section Nodes

variable {K V : Type}

def keysOf (l : List (DagNode K V)) : List K := l.map DagNode.key

/-- Each key is new and each link leads to a node that was there before. -/
def Grown : List (DagNode K V) → Prop
  | [] => True
  | n :: rest => n.key ∉ keysOf rest ∧ (∀ p ∈ n.links, p ∈ keysOf rest) ∧ Grown rest

@[simp] theorem keysOf_nil : keysOf ([] : List (DagNode K V)) = [] := rfl

@[simp] theorem keysOf_cons (n : DagNode K V) (l : List (DagNode K V)) :
    keysOf (n :: l) = n.key :: keysOf l := rfl

theorem key_mem_keysOf {n : DagNode K V} {l : List (DagNode K V)} (h : n ∈ l) :
    n.key ∈ keysOf l := List.mem_map_of_mem h

theorem Grown.tail {n : DagNode K V} {l : List (DagNode K V)} (h : Grown (n :: l)) :
    Grown l := h.2.2

theorem Grown.ne_head {n : DagNode K V} {l : List (DagNode K V)} (h : Grown (n :: l)) {k : K}
    (hk : k ∈ keysOf l) : n.key ≠ k := by
  rintro rfl
  exact h.1 hk

theorem Grown.links_subset {l : List (DagNode K V)} (h : Grown l) {n : DagNode K V}
    (hn : n ∈ l) : ∀ p ∈ n.links, p ∈ keysOf l := by
  induction l with
  | nil => simp at hn
  | cons m l ih =>
    intro p hp
    rcases List.mem_cons.mp hn with rfl | hn
    · exact List.mem_cons_of_mem _ (h.2.1 p hp)
    · exact List.mem_cons_of_mem _ (ih h.tail hn p hp)

variable [DecidableEq K]

instance decidableGrown : ∀ l : List (DagNode K V), Decidable (Grown l)
  | [] => instDecidableTrue
  | n :: rest =>
    have := decidableGrown rest
    inferInstanceAs
      (Decidable (n.key ∉ keysOf rest ∧ (∀ p ∈ n.links, p ∈ keysOf rest) ∧ Grown rest))

def lookupIn (l : List (DagNode K V)) (k : K) : Option (DagNode K V) :=
  l.find? fun n => n.key = k

/-- The node itself and all that its links lead to, in one pass over the older nodes. -/
def ancestorsIn : List (DagNode K V) → K → List K
  | [], _ => []
  | n :: rest, k =>
    if n.key = k then k :: n.links.flatMap (ancestorsIn rest) else ancestorsIn rest k

theorem ancestorsIn_cons_of_ne {n : DagNode K V} {k : K} (h : n.key ≠ k)
    (l : List (DagNode K V)) : ancestorsIn (n :: l) k = ancestorsIn l k := if_neg h

theorem mem_ancestorsIn_head (n : DagNode K V) (l : List (DagNode K V)) (x : K) :
    x ∈ ancestorsIn (n :: l) n.key ↔ x = n.key ∨ ∃ p ∈ n.links, x ∈ ancestorsIn l p := by
  simp [ancestorsIn]

theorem mem_keysOf_of_mem_ancestorsIn {l : List (DagNode K V)} {k x : K}
    (h : x ∈ ancestorsIn l k) : x ∈ keysOf l ∧ k ∈ keysOf l := by
  induction l generalizing k with
  | nil => simp [ancestorsIn] at h
  | cons n l ih =>
    by_cases hk : n.key = k
    · subst hk
      rw [mem_ancestorsIn_head] at h
      rcases h with rfl | ⟨p, _, hx⟩
      · simp
      · exact ⟨List.mem_cons_of_mem _ (ih hx).1, by simp⟩
    · rw [ancestorsIn_cons_of_ne hk] at h
      exact ⟨List.mem_cons_of_mem _ (ih h).1, List.mem_cons_of_mem _ (ih h).2⟩

theorem self_mem_ancestorsIn {l : List (DagNode K V)} {k : K} (h : k ∈ keysOf l) :
    k ∈ ancestorsIn l k := by
  induction l with
  | nil => simp at h
  | cons n l ih =>
    by_cases hk : n.key = k
    · simp [ancestorsIn, hk]
    · rw [ancestorsIn_cons_of_ne hk]
      rcases List.mem_cons.mp h with rfl | h
      · exact absurd rfl hk
      · exact ih h

theorem mem_ancestorsIn_iff {l : List (DagNode K V)} (hl : Grown l) {n : DagNode K V}
    (hn : n ∈ l) (x : K) :
    x ∈ ancestorsIn l n.key ↔ x = n.key ∨ ∃ p ∈ n.links, x ∈ ancestorsIn l p := by
  induction l with
  | nil => simp at hn
  | cons m l ih =>
    -- below the head nothing sees it, so the links may be followed in the shorter list
    have hskip : ∀ p ∈ keysOf l, ancestorsIn (m :: l) p = ancestorsIn l p :=
      fun p hp => ancestorsIn_cons_of_ne (hl.ne_head hp) l
    rcases List.mem_cons.mp hn with rfl | hn
    · rw [mem_ancestorsIn_head]
      refine or_congr Iff.rfl (exists_congr fun p => and_congr_right fun hp => ?_)
      rw [hskip p (hl.2.1 p hp)]
    · rw [hskip _ (key_mem_keysOf hn), ih hl.tail hn]
      refine or_congr Iff.rfl (exists_congr fun p => and_congr_right fun hp => ?_)
      rw [hskip p (hl.tail.links_subset hn p hp)]

theorem ancestorsIn_trans {l : List (DagNode K V)} (hl : Grown l) {x y z : K}
    (hxy : x ∈ ancestorsIn l y) (hyz : y ∈ ancestorsIn l z) : x ∈ ancestorsIn l z := by
  induction l generalizing z with
  | nil => simp [ancestorsIn] at hxy
  | cons n l ih =>
    by_cases hz : n.key = z
    · subst hz
      rw [mem_ancestorsIn_head] at hyz
      rcases hyz with rfl | ⟨p, hp, hy⟩
      · exact hxy
      · have hyl := (mem_keysOf_of_mem_ancestorsIn hy).1
        rw [ancestorsIn_cons_of_ne (hl.ne_head hyl)] at hxy
        exact (mem_ancestorsIn_head n l x).mpr (Or.inr ⟨p, hp, ih hl.tail hxy hy⟩)
    · rw [ancestorsIn_cons_of_ne hz] at hyz ⊢
      have hyl := (mem_keysOf_of_mem_ancestorsIn hyz).1
      rw [ancestorsIn_cons_of_ne (hl.ne_head hyl)] at hxy
      exact ih hl.tail hxy hyz

theorem ancestorsIn_antisymm {l : List (DagNode K V)} (hl : Grown l) {x y : K}
    (hxy : x ∈ ancestorsIn l y) (hyx : y ∈ ancestorsIn l x) : x = y := by
  induction l with
  | nil => simp [ancestorsIn] at hxy
  | cons n l ih =>
    by_cases hx : x ∈ keysOf l
    · rw [ancestorsIn_cons_of_ne (hl.ne_head hx)] at hyx
      have hy := (mem_keysOf_of_mem_ancestorsIn hyx).1
      rw [ancestorsIn_cons_of_ne (hl.ne_head hy)] at hxy
      exact ih hl.tail hxy hyx
    · by_cases hy : y ∈ keysOf l
      · rw [ancestorsIn_cons_of_ne (hl.ne_head hy)] at hxy
        exact absurd (mem_keysOf_of_mem_ancestorsIn hxy).1 hx
      · have hkx := (mem_keysOf_of_mem_ancestorsIn hxy).1
        have hky := (mem_keysOf_of_mem_ancestorsIn hxy).2
        rw [keysOf_cons, List.mem_cons] at hkx hky
        rw [hkx.resolve_right hx, hky.resolve_right hy]

theorem ancestorsIn_of_suffix {l l' : List (DagNode K V)} (hs : l <:+ l') (hl : Grown l') {k : K}
    (hk : k ∈ keysOf l) : ancestorsIn l' k = ancestorsIn l k := by
  obtain ⟨new, rfl⟩ := hs
  induction new with
  | nil => rfl
  | cons n new ih =>
    have hkn : k ∈ keysOf (new ++ l) := by
      rw [keysOf, List.map_append]
      exact List.mem_append_right _ hk
    rw [List.cons_append, ancestorsIn_cons_of_ne (Grown.ne_head hl hkn)]
    exact ih hl.tail

theorem lookupIn_eq_some_iff {l : List (DagNode K V)} (hl : Grown l) {k : K}
    {n : DagNode K V} : lookupIn l k = some n ↔ n ∈ l ∧ n.key = k := by
  induction l with
  | nil => simp [lookupIn]
  | cons m l ih =>
    by_cases hk : m.key = k
    · have hfirst : lookupIn (m :: l) k = some m := by simp [lookupIn, hk]
      rw [hfirst]
      constructor
      · rintro ⟨⟩
        exact ⟨List.mem_cons_self, hk⟩
      · rintro ⟨hn, rfl⟩
        rcases List.mem_cons.mp hn with rfl | hn
        · rfl
        · exact absurd hk (hl.ne_head (key_mem_keysOf hn))
    · have hrest : lookupIn (m :: l) k = lookupIn l k := by simp [lookupIn, hk]
      rw [hrest, ih hl.tail]
      constructor
      · rintro ⟨hn, hkey⟩
        exact ⟨List.mem_cons_of_mem _ hn, hkey⟩
      · rintro ⟨hn, hkey⟩
        rcases List.mem_cons.mp hn with rfl | hn
        · exact absurd hkey hk
        · exact ⟨hn, hkey⟩

end Nodes

structure Dag (K V : Type) where
  nodes : List (DagNode K V)
  grown : Grown nodes

namespace Dag

variable {K V : Type}

def keys (g : Dag K V) : List K := keysOf g.nodes

def empty : Dag K V := ⟨[], trivial⟩

/-- `g'` has grown out of `g`. -/
instance : LE (Dag K V) := ⟨fun g g' => g.nodes <:+ g'.nodes⟩

instance [DecidableEq K] [DecidableEq V] (g g' : Dag K V) : Decidable (g ≤ g') :=
  inferInstanceAs (Decidable (g.nodes <:+ g'.nodes))

theorem le_rfl {g : Dag K V} : g ≤ g := List.suffix_rfl

theorem le_trans {g₁ g₂ g₃ : Dag K V} (h : g₁ ≤ g₂) (h' : g₂ ≤ g₃) : g₁ ≤ g₃ :=
  List.IsSuffix.trans h h'

theorem keys_subset {g g' : Dag K V} (h : g ≤ g') {k : K} (hk : k ∈ g.keys) : k ∈ g'.keys := by
  obtain ⟨n, hn, rfl⟩ := List.mem_map.mp hk
  exact key_mem_keysOf (List.IsSuffix.subset h hn)

theorem nodup_keys (g : Dag K V) : g.keys.Nodup := by
  obtain ⟨nodes, grown⟩ := g
  induction nodes with
  | nil => exact List.nodup_nil
  | cons n rest ih => exact List.nodup_cons.mpr ⟨grown.1, ih grown.tail⟩

variable [DecidableEq K]

def lookup (g : Dag K V) (k : K) : Option (DagNode K V) := lookupIn g.nodes k

def links (g : Dag K V) (k : K) : List K := ((g.lookup k).map DagNode.links).getD []

/-- The keys reached from `k`, itself included. -/
def ancestors (g : Dag K V) (k : K) : List K := ancestorsIn g.nodes k

/-- A node whose key is taken, or one of whose links leads nowhere, is not added. -/
def add (g : Dag K V) (n : DagNode K V) : Dag K V :=
  if h : n.key ∉ g.keys ∧ ∀ p ∈ n.links, p ∈ g.keys then ⟨n :: g.nodes, h.1, h.2, g.grown⟩ else g

theorem lookup_eq_some_iff {g : Dag K V} {k : K} {n : DagNode K V} :
    g.lookup k = some n ↔ n ∈ g.nodes ∧ n.key = k := lookupIn_eq_some_iff g.grown

theorem exists_lookup {g : Dag K V} {k : K} (h : k ∈ g.keys) :
    ∃ n, g.lookup k = some n := by
  obtain ⟨n, hn, rfl⟩ := List.mem_map.mp h
  exact ⟨n, lookup_eq_some_iff.mpr ⟨hn, rfl⟩⟩

theorem mem_keys_of_lookup {g : Dag K V} {k : K} {n : DagNode K V} (h : g.lookup k = some n) :
    k ∈ g.keys := by
  obtain ⟨hn, rfl⟩ := lookup_eq_some_iff.mp h
  exact key_mem_keysOf hn

theorem lookup_of_le {g g' : Dag K V} (h : g ≤ g') {k : K} {n : DagNode K V}
    (hk : g.lookup k = some n) : g'.lookup k = some n := by
  obtain ⟨hn, rfl⟩ := lookup_eq_some_iff.mp hk
  exact lookup_eq_some_iff.mpr ⟨List.IsSuffix.subset h hn, rfl⟩

theorem links_of_lookup {g : Dag K V} {k : K} {n : DagNode K V} (h : g.lookup k = some n) :
    g.links k = n.links := by
  simp [links, h]

theorem mem_keys_of_mem_links {g : Dag K V} {k p : K} (hp : p ∈ g.links k) : p ∈ g.keys := by
  cases h : g.lookup k with
  | none => simp [links, h] at hp
  | some n =>
    rw [links_of_lookup h] at hp
    exact g.grown.links_subset (lookup_eq_some_iff.mp h).1 p hp

theorem links_of_le {g g' : Dag K V} (h : g ≤ g') {k : K} (hk : k ∈ g.keys) :
    g'.links k = g.links k := by
  obtain ⟨n, hn⟩ := exists_lookup hk
  rw [links_of_lookup hn, links_of_lookup (lookup_of_le h hn)]

theorem mem_ancestors_iff {g : Dag K V} {k : K} (hk : k ∈ g.keys) (x : K) :
    x ∈ g.ancestors k ↔ x = k ∨ ∃ p ∈ g.links k, x ∈ g.ancestors p := by
  obtain ⟨n, hn⟩ := exists_lookup hk
  obtain ⟨hmem, rfl⟩ := lookup_eq_some_iff.mp hn
  rw [links_of_lookup hn]
  exact mem_ancestorsIn_iff g.grown hmem x

theorem self_mem_ancestors {g : Dag K V} {k : K} (hk : k ∈ g.keys) : k ∈ g.ancestors k :=
  self_mem_ancestorsIn hk

theorem mem_keys_of_mem_ancestors {g : Dag K V} {k x : K} (h : x ∈ g.ancestors k) :
    x ∈ g.keys := (mem_keysOf_of_mem_ancestorsIn h).1

theorem mem_keys_of_ancestors {g : Dag K V} {k x : K} (h : x ∈ g.ancestors k) :
    k ∈ g.keys := (mem_keysOf_of_mem_ancestorsIn h).2

theorem ancestors_trans {g : Dag K V} {x y z : K} (hxy : x ∈ g.ancestors y)
    (hyz : y ∈ g.ancestors z) : x ∈ g.ancestors z := ancestorsIn_trans g.grown hxy hyz

theorem ancestors_antisymm {g : Dag K V} {x y : K} (hxy : x ∈ g.ancestors y)
    (hyx : y ∈ g.ancestors x) : x = y := ancestorsIn_antisymm g.grown hxy hyx

theorem ancestors_of_le {g g' : Dag K V} (h : g ≤ g') {k : K} (hk : k ∈ g.keys) :
    g'.ancestors k = g.ancestors k := ancestorsIn_of_suffix h g'.grown hk

theorem link_mem_ancestors {g : Dag K V} {k p : K} (hp : p ∈ g.links k) :
    p ∈ g.ancestors k := by
  cases h : g.lookup k with
  | none => simp [links, h] at hp
  | some n =>
    exact (mem_ancestors_iff (mem_keys_of_lookup h) p).mpr
      (Or.inr ⟨p, hp, self_mem_ancestors (mem_keys_of_mem_links hp)⟩)

theorem mem_ancestors_of_link {g : Dag K V} {k x : K} (h : x ∈ g.ancestors k) (hne : x ≠ k) :
    ∃ p ∈ g.links k, x ∈ g.ancestors p :=
  ((mem_ancestors_iff (mem_keys_of_ancestors h) x).mp h).resolve_left hne

theorem links_cons (n : DagNode K V) (rest : List (DagNode K V)) (h : Grown (n :: rest)) (k : K) :
    (⟨n :: rest, h⟩ : Dag K V).links k =
      if n.key = k then n.links else (⟨rest, h.tail⟩ : Dag K V).links k := by
  by_cases hk : n.key = k <;> simp [links, lookup, lookupIn, hk]

theorem mem_rest_of_mem_links {n : DagNode K V} {rest : List (DagNode K V)}
    {h : Grown (n :: rest)} {k p : K} (hp : p ∈ (⟨n :: rest, h⟩ : Dag K V).links k) :
    p ∈ keysOf rest := by
  rw [links_cons] at hp
  split at hp
  · exact h.2.1 p hp
  · exact mem_keys_of_mem_links (g := ⟨rest, h.tail⟩) hp

theorem not_mem_links_self (g : Dag K V) (k : K) : k ∉ g.links k := by
  obtain ⟨nodes, grown⟩ := g
  induction nodes with
  | nil => simp [links, lookup, lookupIn]
  | cons n rest ih =>
    intro hk
    have hne := grown.ne_head (mem_rest_of_mem_links hk)
    rw [links_cons, if_neg hne] at hk
    exact ih grown.tail hk

theorem not_mem_ancestors_link {g : Dag K V} {k p : K} (hp : p ∈ g.links k) :
    k ∉ g.ancestors p := by
  intro hk
  have heq := ancestors_antisymm hk (link_mem_ancestors hp)
  subst heq
  exact not_mem_links_self g k hp

theorem mem_proper_ancestors_iff {g : Dag K V} {k x : K} :
    x ∈ g.ancestors k ∧ x ≠ k ↔ ∃ p ∈ g.links k, x ∈ g.ancestors p := by
  constructor
  · rintro ⟨hx, hne⟩
    exact mem_ancestors_of_link hx hne
  · rintro ⟨p, hp, hx⟩
    refine ⟨ancestors_trans hx (link_mem_ancestors hp), ?_⟩
    rintro rfl
    exact not_mem_ancestors_link hp hx

theorem path_of_mem_ancestors {g : Dag K V} {k x : K} (h : x ∈ g.ancestors k) :
    Relation.ReflTransGen (fun a b => b ∈ g.links a) k x := by
  obtain ⟨nodes, grown⟩ := g
  induction nodes generalizing k with
  | nil => simp [ancestors, ancestorsIn] at h
  | cons n rest ih =>
    by_cases hx : x = k
    · exact hx ▸ .refl
    · obtain ⟨p, hp, hxp⟩ := mem_ancestors_of_link h hx
      have hpk := mem_rest_of_mem_links hp
      have hxp' : x ∈ (⟨rest, grown.tail⟩ : Dag K V).ancestors p := by
        rwa [ancestors, ancestorsIn_cons_of_ne (grown.ne_head hpk)] at hxp
      refine .head hp (Relation.ReflTransGen.mono (fun a b hb => ?_) _ _ (ih grown.tail hxp'))
      rw [links_cons]
      split
      · next hn =>
        subst hn
        have hnone : (⟨rest, grown.tail⟩ : Dag K V).lookup n.key = none := by
          cases hl : (⟨rest, grown.tail⟩ : Dag K V).lookup n.key with
          | none => rfl
          | some m => exact absurd (mem_keys_of_lookup hl) grown.1
        simp [links, hnone] at hb
      · exact hb

theorem mem_ancestors_iff_path {g : Dag K V} {k : K} (hk : k ∈ g.keys) (x : K) :
    x ∈ g.ancestors k ↔ Relation.ReflTransGen (fun a b => b ∈ g.links a) k x := by
  refine ⟨path_of_mem_ancestors, fun h => ?_⟩
  induction h with
  | refl => exact self_mem_ancestors hk
  | tail _ hlink ih => exact ancestors_trans (link_mem_ancestors hlink) ih

theorem mem_ancestors_of_agree {g g' : Dag K V} {k x : K} (hk : k ∈ g.keys)
    (hagree : ∀ y ∈ g.ancestors k, g'.lookup y = g.lookup y) (hx : x ∈ g'.ancestors k) :
    x ∈ g.ancestors k := by
  have hpath := path_of_mem_ancestors hx
  induction hpath with
  | refl => exact self_mem_ancestors hk
  | @tail y z hyz hlink ih =>
    have hy : y ∈ g.ancestors k :=
      ih ((mem_ancestors_iff_path (mem_keys_of_ancestors hx) y).mpr hyz)
    rw [links, hagree y hy, ← links] at hlink
    exact ancestors_trans (link_mem_ancestors hlink) hy

section Add

variable {g : Dag K V} {n : DagNode K V}

theorem le_add : g ≤ g.add n := by
  unfold add
  split
  · exact List.suffix_cons n g.nodes
  · exact le_rfl

theorem add_of_fresh (hkey : n.key ∉ g.keys) (hlinks : ∀ p ∈ n.links, p ∈ g.keys) :
    (g.add n).nodes = n :: g.nodes := by
  rw [add, dif_pos ⟨hkey, hlinks⟩]

theorem lookup_add (hkey : n.key ∉ g.keys) (hlinks : ∀ p ∈ n.links, p ∈ g.keys) :
    (g.add n).lookup n.key = some n := by
  rw [lookup_eq_some_iff, add_of_fresh hkey hlinks]
  exact ⟨List.mem_cons_self, rfl⟩

end Add

end Dag

end DoltSwarm.Lib
