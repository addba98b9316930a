import Mathlib.Data.Finmap
import Mathlib.Data.Finset.Union

/-!
# Finite maps with the operators of a specification language

`Finmap` under the vocabulary `keys`, `get`, `put`, `mapBy`. A read of an absent key is an
error in the specification language; here it gives `default`, and every use below stands
behind a test of the key.
-/

namespace DoltSwarm.Lib

set_option autoImplicit false

abbrev Map (K V : Type) := Finmap fun _ : K => V

namespace Map

variable {K V : Type} [DecidableEq K]

def get [Inhabited V] (m : Map K V) (k : K) : V := (m.lookup k).getD default

def put (m : Map K V) (k : K) (v : V) : Map K V := m.insert k v

/-- The map that sends every element of a set to its image. -/
def mapBy (s : Finset K) (f : K → V) : Map K V :=
  ⟨s.val.map fun k => ⟨k, f k⟩, by
    rw [← Multiset.nodup_keys, Multiset.keys, Multiset.map_map]
    simpa using s.nodup⟩

theorem mem_keys_iff (m : Map K V) (k : K) : k ∈ m.keys ↔ ∃ v, m.lookup k = some v :=
  Finmap.mem_keys.trans Finmap.mem_iff

theorem mem_keys_of_lookup {m : Map K V} {k : K} {v : V} (h : m.lookup k = some v) :
    k ∈ m.keys := (mem_keys_iff m k).mpr ⟨v, h⟩

theorem lookup_eq_none_iff (m : Map K V) (k : K) : m.lookup k = none ↔ k ∉ m.keys := by
  rw [Finmap.lookup_eq_none, Finmap.mem_keys]

theorem get_of_lookup [Inhabited V] {m : Map K V} {k : K} {v : V}
    (h : m.lookup k = some v) : m.get k = v := by simp [get, h]

theorem lookup_of_mem [Inhabited V] {m : Map K V} {k : K} (h : k ∈ m.keys) :
    m.lookup k = some (m.get k) := by
  obtain ⟨v, hv⟩ := (mem_keys_iff m k).mp h
  rw [hv, get_of_lookup hv]

theorem lookup_eq_some_iff [Inhabited V] (m : Map K V) (k : K) (v : V) :
    m.lookup k = some v ↔ k ∈ m.keys ∧ m.get k = v := by
  constructor
  · exact fun h => ⟨mem_keys_of_lookup h, get_of_lookup h⟩
  · rintro ⟨hk, rfl⟩
    exact lookup_of_mem hk

theorem lookup_put (m : Map K V) (k k' : K) (v : V) :
    (m.put k v).lookup k' = if k' = k then some v else m.lookup k' := by
  split
  · subst k'
    exact Finmap.lookup_insert m
  · exact Finmap.lookup_insert_of_ne m ‹_›

@[simp] theorem lookup_put_self (m : Map K V) (k : K) (v : V) :
    (m.put k v).lookup k = some v := Finmap.lookup_insert m

theorem lookup_put_of_ne (m : Map K V) {k k' : K} (v : V) (h : k' ≠ k) :
    (m.put k v).lookup k' = m.lookup k' := Finmap.lookup_insert_of_ne m h

@[simp] theorem keys_put (m : Map K V) (k : K) (v : V) :
    (m.put k v).keys = insert k m.keys := by
  ext x
  simp [put, Finmap.mem_keys, Finmap.mem_insert]

@[simp] theorem get_put_self [Inhabited V] (m : Map K V) (k : K) (v : V) :
    (m.put k v).get k = v := get_of_lookup (lookup_put_self m k v)

theorem get_put_of_ne [Inhabited V] (m : Map K V) {k k' : K} (v : V) (h : k' ≠ k) :
    (m.put k v).get k' = m.get k' := by simp [get, lookup_put_of_ne m v h]

theorem get_put [Inhabited V] (m : Map K V) (k k' : K) (v : V) :
    (m.put k v).get k' = if k' = k then v else m.get k' := by
  split
  · subst k'
    exact get_put_self m k v
  · exact get_put_of_ne m v ‹_›

theorem forall_get_put [Inhabited V] {P : K → V → Prop} {m : Map K V} {s : Finset K}
    (h : ∀ k ∈ s, P k (m.get k)) {k : K} {v : V} (hv : P k v) :
    ∀ k' ∈ s, P k' ((m.put k v).get k') := by
  intro k' hk'
  rw [get_put]
  split
  · rename_i heq
    exact heq ▸ hv
  · exact h k' hk'

theorem rel_get_put [Inhabited V] {R : V → V → Prop} (hrefl : ∀ v, R v v) {m : Map K V} {k : K}
    {v : V} (hv : R (m.get k) v) (k' : K) : R (m.get k') ((m.put k v).get k') := by
  rw [get_put]
  split
  · rename_i heq
    exact heq ▸ hv
  · exact hrefl _

omit [DecidableEq K] in
@[simp] theorem keys_mapBy (s : Finset K) (f : K → V) : (mapBy s f).keys = s := by
  ext x
  rw [Finmap.mem_keys, Finmap.mem_def]
  simp [mapBy, Multiset.keys]

theorem lookup_mapBy_of_mem {s : Finset K} {k : K} (f : K → V) (h : k ∈ s) :
    (mapBy s f).lookup k = some (f k) := by
  rw [Finmap.lookup_eq_some_iff]
  simpa [mapBy] using h

theorem lookup_mapBy (s : Finset K) (f : K → V) (k : K) :
    (mapBy s f).lookup k = if k ∈ s then some (f k) else none := by
  split
  · exact lookup_mapBy_of_mem f ‹_›
  · rw [lookup_eq_none_iff, keys_mapBy]
    assumption

theorem get_mapBy_of_mem [Inhabited V] {s : Finset K} {k : K} (f : K → V) (h : k ∈ s) :
    (mapBy s f).get k = f k := get_of_lookup (lookup_mapBy_of_mem f h)

theorem ext {m m' : Map K V} (h : ∀ k, m.lookup k = m'.lookup k) : m = m' :=
  Finmap.ext_lookup h

theorem put_put (m : Map K V) (k : K) (v v' : V) : (m.put k v).put k v' = m.put k v' := by
  apply ext
  intro k'
  simp only [lookup_put]
  split <;> rfl

theorem ext_get [Inhabited V] {m m' : Map K V} (hk : m.keys = m'.keys)
    (hv : ∀ k ∈ m.keys, m.get k = m'.get k) : m = m' := by
  apply ext
  intro k
  by_cases h : k ∈ m.keys
  · rw [lookup_of_mem h, lookup_of_mem (hk ▸ h), hv k h]
  · rw [(lookup_eq_none_iff m k).mpr h, (lookup_eq_none_iff m' k).mpr (hk ▸ h)]

def removeAll [Inhabited V] (m : Map K V) (ks : Finset K) : Map K V :=
  mapBy (m.keys \ ks) m.get

@[simp] theorem keys_removeAll [Inhabited V] (m : Map K V) (ks : Finset K) :
    (m.removeAll ks).keys = m.keys \ ks := keys_mapBy _ _

theorem lookup_removeAll [Inhabited V] (m : Map K V) (ks : Finset K) (k : K) :
    (m.removeAll ks).lookup k = if k ∈ ks then none else m.lookup k := by
  rw [removeAll, lookup_mapBy]
  by_cases hk : k ∈ m.keys
  · by_cases hks : k ∈ ks <;> simp [hk, hks, lookup_of_mem hk]
  · simp [hk, (lookup_eq_none_iff m k).mpr hk]

/-- Union of the keys; the first map wins on a shared key. -/
def firstWins [Inhabited V] (m₁ m₂ : Map K V) : Map K V :=
  mapBy (m₁.keys ∪ m₂.keys) fun k => if k ∈ m₁.keys then m₁.get k else m₂.get k

@[simp] theorem keys_firstWins [Inhabited V] (m₁ m₂ : Map K V) :
    (firstWins m₁ m₂).keys = m₁.keys ∪ m₂.keys := keys_mapBy _ _

theorem lookup_firstWins [Inhabited V] (m₁ m₂ : Map K V) (k : K) :
    (firstWins m₁ m₂).lookup k = (m₁.lookup k).or (m₂.lookup k) := by
  rw [firstWins, lookup_mapBy]
  by_cases h₁ : k ∈ m₁.keys
  · simp [h₁, lookup_of_mem h₁]
  · by_cases h₂ : k ∈ m₂.keys
    · simp [h₁, h₂, lookup_of_mem h₂, (lookup_eq_none_iff m₁ k).mpr h₁]
    · simp [h₁, h₂, (lookup_eq_none_iff m₁ k).mpr h₁, (lookup_eq_none_iff m₂ k).mpr h₂]

theorem lookup_firstWins_some [Inhabited V] {m₁ m₂ : Map K V} {k : K} {v : V}
    (h : (firstWins m₁ m₂).lookup k = some v) : m₁.lookup k = some v ∨ m₂.lookup k = some v := by
  rw [lookup_firstWins, Option.or_eq_some_iff] at h
  rcases h with h | h
  · exact Or.inl h
  · exact Or.inr h.2

/-- Two maps give the same value to a key they share. -/
def Agree (m₁ m₂ : Map K V) : Prop :=
  ∀ k v₁ v₂, m₁.lookup k = some v₁ → m₂.lookup k = some v₂ → v₁ = v₂

theorem firstWins_comm [Inhabited V] {m₁ m₂ : Map K V} (h : Agree m₁ m₂) :
    firstWins m₁ m₂ = firstWins m₂ m₁ := by
  apply ext
  intro k
  rw [lookup_firstWins, lookup_firstWins]
  cases h₁ : m₁.lookup k with
  | none => cases m₂.lookup k <;> rfl
  | some v₁ =>
    cases h₂ : m₂.lookup k with
    | none => rfl
    | some v₂ => simp [h k v₁ v₂ h₁ h₂]

def SubMap (m m' : Map K V) : Prop := ∀ k v, m.lookup k = some v → m'.lookup k = some v

theorem SubMap.refl (m : Map K V) : SubMap m m := fun _ _ h => h

theorem SubMap.trans {m₁ m₂ m₃ : Map K V} (h₁ : SubMap m₁ m₂) (h₂ : SubMap m₂ m₃) :
    SubMap m₁ m₃ := fun k v h => h₂ k v (h₁ k v h)

theorem SubMap.keys_subset {m m' : Map K V} (h : SubMap m m') : m.keys ⊆ m'.keys := by
  intro k hk
  obtain ⟨v, hv⟩ := (mem_keys_iff m k).mp hk
  exact mem_keys_of_lookup (h k v hv)

theorem SubMap.get_eq [Inhabited V] {m m' : Map K V} (h : SubMap m m') {k : K}
    (hk : k ∈ m.keys) : m.get k = m'.get k :=
  (get_of_lookup (h k _ (lookup_of_mem hk))).symm

theorem SubMap.lookup_eq {m m' M : Map K V} (h : SubMap m M) (h' : SubMap m' M) {k : K}
    (hk : k ∈ m.keys) (hk' : k ∈ m'.keys) : m.lookup k = m'.lookup k := by
  obtain ⟨v, hv⟩ := (mem_keys_iff m k).mp hk
  obtain ⟨v', hv'⟩ := (mem_keys_iff m' k).mp hk'
  rw [hv, hv', ← h k v hv, h' k v' hv']

theorem subMap_removeAll [Inhabited V] (m : Map K V) (ks : Finset K) :
    SubMap (m.removeAll ks) m := by
  intro k v hv
  rw [lookup_removeAll] at hv
  split at hv
  · cases hv
  · exact hv

end Map

end DoltSwarm.Lib
