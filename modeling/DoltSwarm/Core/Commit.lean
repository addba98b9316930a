import DoltSwarm.Core.Timestamp
import DoltSwarm.Lib.Dag
import DoltSwarm.Lib.Traversal

/-!
# Commits, their metadata and the commit store

Metadata are the JSON text of a commit message (protocol/metadata.go). A message is kept as
what `json.Unmarshal` makes of it. The store is Dolt's commit graph: a commit enters it after
its parents and is never changed.
-/

namespace DoltSwarm.Core

set_option autoImplicit false

abbrev Hash := String

structure CommitMetadata where
  kind : String
  message : String
  hlc : HLCTimestamp
  contentHash : String
  author : String
  email : String
  date : Int
  signature : String
  deriving DecidableEq, Repr

def commitKindUser : String := "user"

def newCommitMetadata (msg : String) (hlc : HLCTimestamp) (contentHash author email : String)
    (date : Int) : CommitMetadata :=
  ⟨commitKindUser, msg, hlc, contentHash, author, email, date, ""⟩

inductive CommitMessage
  | json (metadata : CommitMetadata)
  | text (text : String)
  deriving DecidableEq, Repr

/-- `none` is the error: no JSON metadata, or metadata of an unknown kind. -/
def parseCommitMetadata : CommitMessage → Option CommitMetadata
  | .json m => if m.kind = commitKindUser then some m else none
  | .text _ => none

theorem parseCommitMetadata_kind {message : CommitMessage} {m : CommitMetadata}
    (h : parseCommitMetadata message = some m) : m.kind = commitKindUser := by
  cases message with
  | json m' =>
    simp only [parseCommitMetadata] at h
    split_ifs at h with hk
    exact Option.some.inj h ▸ hk
  | text t => cases h

/-- What a commit records besides its parents. -/
structure CommitBody where
  root : String
  committer : String
  email : String
  date : Int
  message : CommitMessage
  deriving DecidableEq, Repr

/-- A row of `dolt_log`. -/
structure Commit where
  hash : Hash
  committer : String
  email : String
  date : Int
  message : CommitMessage
  deriving DecidableEq, Repr

abbrev StoredCommit := Lib.DagNode Hash CommitBody

def StoredCommit.commit (n : StoredCommit) : Commit :=
  ⟨n.key, n.value.committer, n.value.email, n.value.date, n.value.message⟩

/-- All commits a database knows, on whatever branch. -/
structure Store where
  dag : Lib.Dag Hash CommitBody
  named : "" ∉ dag.keys

namespace Store

def add (s : Store) (n : StoredCommit) : Store :=
  if h : n.key = "" then s
  else ⟨s.dag.add n, by
    unfold Lib.Dag.add
    split
    · simp only [Lib.Dag.keys, Lib.keysOf_cons, List.mem_cons, not_or]
      exact ⟨fun he => h he.symm, s.named⟩
    · exact s.named⟩

theorem le_add (s : Store) (n : StoredCommit) : s.dag ≤ (s.add n).dag := by
  unfold add
  split
  · exact Lib.Dag.le_rfl
  · exact Lib.Dag.le_add

theorem lookup_add {s : Store} {n : StoredCommit} (hname : n.key ≠ "")
    (hkey : n.key ∉ s.dag.keys) (hlinks : ∀ p ∈ n.links, p ∈ s.dag.keys) :
    (s.add n).dag.lookup n.key = some n := by
  rw [add, dif_neg hname]
  exact Lib.Dag.lookup_add hkey hlinks

theorem mem_keys_add {s : Store} {n : StoredCommit} (hname : n.key ≠ "")
    (hlinks : ∀ p ∈ n.links, p ∈ s.dag.keys) : n.key ∈ (s.add n).dag.keys := by
  by_cases hkey : n.key ∈ s.dag.keys
  · exact Lib.Dag.keys_subset (s.le_add n) hkey
  · exact Lib.Dag.mem_keys_of_lookup (lookup_add hname hkey hlinks)

theorem ne_empty {s : Store} {h : Hash} (hh : h ∈ s.dag.keys) : h ≠ "" := by
  rintro rfl
  exact s.named hh

def commit? (s : Store) (h : Hash) : Option Commit := (s.dag.lookup h).map StoredCommit.commit

def metadata? (s : Store) (h : Hash) : Option CommitMetadata :=
  (s.commit? h).bind fun c => parseCommitMetadata c.message

theorem commit?_of_le {s s' : Store} (h : s.dag ≤ s'.dag) {x : Hash} {c : Commit}
    (hc : s.commit? x = some c) : s'.commit? x = some c := by
  simp only [commit?, Option.map_eq_some_iff] at hc ⊢
  obtain ⟨n, hn, rfl⟩ := hc
  exact ⟨n, Lib.Dag.lookup_of_le h hn, rfl⟩

theorem metadata?_of_le {s s' : Store} (h : s.dag ≤ s'.dag) {x : Hash} {m : CommitMetadata}
    (hm : s.metadata? x = some m) : s'.metadata? x = some m := by
  simp only [metadata?, Option.bind_eq_some_iff] at hm ⊢
  obtain ⟨c, hc, hparse⟩ := hm
  exact ⟨c, commit?_of_le h hc, hparse⟩

theorem mem_keys_of_commit? {s : Store} {x : Hash} {c : Commit} (hc : s.commit? x = some c) :
    x ∈ s.dag.keys := by
  simp only [commit?, Option.map_eq_some_iff] at hc
  obtain ⟨n, hn, -⟩ := hc
  exact Lib.Dag.mem_keys_of_lookup hn

theorem metadata?_eq_of_le {s s' : Store} (h : s.dag ≤ s'.dag) {x : Hash}
    (hx : x ∈ s.dag.keys) : s'.metadata? x = s.metadata? x := by
  obtain ⟨n, hn⟩ := Lib.Dag.exists_lookup hx
  simp [metadata?, commit?, hn, Lib.Dag.lookup_of_le h hn]

theorem hash_of_commit? {s : Store} {x : Hash} {c : Commit} (hc : s.commit? x = some c) :
    c.hash = x := by
  simp only [commit?, Option.map_eq_some_iff] at hc
  obtain ⟨n, hn, rfl⟩ := hc
  exact (Lib.Dag.lookup_eq_some_iff.mp hn).2

theorem exists_commit? {s : Store} {x : Hash} (hx : x ∈ s.dag.keys) :
    ∃ c, s.commit? x = some c := by
  obtain ⟨n, hn⟩ := Lib.Dag.exists_lookup hx
  exact ⟨StoredCommit.commit n, by simp [commit?, hn]⟩

end Store

/-- A database: its commits and the commit `main` is at. -/
structure Repo where
  store : Store
  main : Hash
  main_mem : main ∈ store.dag.keys

def Stored (s : Store) (cs : List Commit) : Prop := ∀ c ∈ cs, s.commit? c.hash = some c

instance (s : Store) (cs : List Commit) : Decidable (Stored s cs) :=
  inferInstanceAs (Decidable (∀ c ∈ cs, s.commit? c.hash = some c))

/-- Breadth first from `head` along the parents, not into `base`; `none` is an SQL error. -/
def getCommitsSince (s : Store) (head base : Hash) : Option (List Commit) :=
  if head = "" ∨ head = base then some []
  else
    (Lib.traverse s.dag.links (fun h => h = "" ∨ h = base)
      (1 + (s.dag.keys.map fun h => (s.dag.links h).length).sum) [head] []).bind
      fun hashes => hashes.mapM s.commit?

abbrev PathAround (s : Store) (base : Hash) : Hash → Hash → Prop :=
  Lib.OpenPath s.dag.links fun h => h = "" ∨ h = base

theorem mapM_commit? {s : Store} {hashes : List Hash} (h : ∀ x ∈ hashes, x ∈ s.dag.keys) :
    ∃ cs, hashes.mapM s.commit? = some cs ∧ cs.map Commit.hash = hashes ∧ Stored s cs := by
  induction hashes with
  | nil => exact ⟨[], rfl, rfl, by simp [Stored]⟩
  | cons x xs ih =>
    obtain ⟨c, hc⟩ := Store.exists_commit? (h x (by simp))
    obtain ⟨cs, hcs, hmap, hstored⟩ := ih fun y hy => h y (List.mem_cons_of_mem _ hy)
    refine ⟨c :: cs, by simp [hc, hcs], by simp [hmap, Store.hash_of_commit? hc], ?_⟩
    intro d hd
    rcases List.mem_cons.mp hd with rfl | hd
    · rw [Store.hash_of_commit? hc, hc]
    · exact hstored d hd

theorem getCommitsSince_spec (s : Store) {head base : Hash} (hhead : head ∈ s.dag.keys)
    (hne : head ≠ base) : ∃ cs, getCommitsSince s head base = some cs ∧
      (cs.map Commit.hash).Nodup ∧ Stored s cs ∧
      ∀ x, x ∈ cs.map Commit.hash ↔ PathAround s base head x := by
  have hname := Store.ne_empty hhead
  have hfuel : 1 + ∑ h ∈ s.dag.keys.toFinset, (s.dag.links h).length ≤
      1 + (s.dag.keys.map fun h => (s.dag.links h).length).sum := by
    rw [List.sum_toFinset _ s.dag.nodup_keys]
  obtain ⟨hashes, htrav, hnodup, hmem⟩ := Lib.traverse_spec s.dag.links
    (fun h => h = "" ∨ h = base)
    (fun _ _ p hp => List.mem_toFinset.mpr (Lib.Dag.mem_keys_of_mem_links hp)) hfuel
    (List.mem_toFinset.mpr hhead) (by simp [hname, hne])
  have hkeys : ∀ x ∈ hashes, x ∈ s.dag.keys := by
    intro x hx
    have hpath := (hmem x).mp hx
    induction hpath with
    | refl => exact hhead
    | tail _ hlink _ => exact Lib.Dag.mem_keys_of_mem_links hlink.1
  obtain ⟨cs, hcs, hmap, hstored⟩ := mapM_commit? hkeys
  refine ⟨cs, ?_, by rw [hmap]; exact hnodup, hstored, fun x => by rw [hmap]; exact hmem x⟩
  rw [getCommitsSince, if_neg (by simp [hname, hne]), htrav, Option.bind_some, hcs]

theorem getCommitsSince_stored (s : Store) {head : Hash} (hhead : head ∈ s.dag.keys)
    (base : Hash) : ∃ cs, getCommitsSince s head base = some cs ∧ Stored s cs := by
  by_cases hne : head = base
  · exact ⟨[], by simp [getCommitsSince, hne], by simp [Stored]⟩
  · obtain ⟨cs, hcs, -, hstored, -⟩ := getCommitsSince_spec s hhead hne
    exact ⟨cs, hcs, hstored⟩

theorem pathAround_of_mem {s : Store} {head base x : Hash} (hx : x ∈ s.dag.ancestors head)
    (hbase : x ∉ s.dag.ancestors base) : PathAround s base head x := by
  have hpath := (Lib.Dag.mem_ancestors_iff_path (Lib.Dag.mem_keys_of_ancestors hx) x).mp hx
  clear hx
  induction hpath using Relation.ReflTransGen.head_induction_on with
  | refl => exact Relation.ReflTransGen.refl
  | head hlink hrest ih =>
    refine Relation.ReflTransGen.head ⟨hlink, ?_⟩ ih
    have hkey := Lib.Dag.mem_keys_of_mem_links hlink
    simp only [decide_eq_false_iff_not, not_or]
    refine ⟨Store.ne_empty hkey, ?_⟩
    rintro rfl
    exact hbase ((Lib.Dag.mem_ancestors_iff_path hkey x).mpr hrest)

theorem mem_getCommitsSince {s : Store} {head base x : Hash} (hx : x ∈ s.dag.ancestors head)
    (hbase : x ∉ s.dag.ancestors base) {cs : List Commit}
    (h : getCommitsSince s head base = some cs) : ∃ c ∈ cs, c.hash = x := by
  have hne : head ≠ base := fun heq => hbase (heq ▸ hx)
  obtain ⟨cs', hcs, -, -, hmem⟩ :=
    getCommitsSince_spec s (Lib.Dag.mem_keys_of_ancestors hx) hne
  obtain rfl := Option.some.inj (h.symm.trans hcs)
  exact List.mem_map.mp ((hmem x).mpr (pathAround_of_mem hx hbase))

theorem getCommitsSince_all (s : Store) {head : Hash} (hhead : head ∈ s.dag.keys) :
    ∃ cs, getCommitsSince s head "" = some cs ∧ Stored s cs ∧
      ∀ x, x ∈ cs.map Commit.hash ↔ x ∈ s.dag.ancestors head := by
  obtain ⟨cs, hcs, -, hstored, hmem⟩ := getCommitsSince_spec s hhead (Store.ne_empty hhead)
  refine ⟨cs, hcs, hstored, fun x => ?_⟩
  rw [hmem, Lib.Dag.mem_ancestors_iff_path hhead]
  have hlink : ∀ a b, Lib.openLink s.dag.links (fun h => h = "" ∨ h = "") a b ↔
      b ∈ s.dag.links a := by
    intro a b
    refine ⟨fun h => h.1, fun h => ⟨h, ?_⟩⟩
    simp [Store.ne_empty (Lib.Dag.mem_keys_of_mem_links h)]
  constructor
  · exact Relation.ReflTransGen.mono (fun a b h => (hlink a b).mp h) _ _
  · exact Relation.ReflTransGen.mono (fun a b h => (hlink a b).mpr h) _ _

/-- The history of `base` is entered at `base` only: the head is not below it, and a commit
that is not below it has no parent strictly below it. -/
def entersAtBase (s : Store) (head base : Hash) : Prop :=
  (head ∈ s.dag.ancestors base → head = base) ∧
    ∀ y ∈ s.dag.ancestors head, y ∉ s.dag.ancestors base →
      ∀ p ∈ s.dag.links y, p ∈ s.dag.ancestors base → p = base

instance (s : Store) (head base : Hash) : Decidable (entersAtBase s head base) :=
  inferInstanceAs (Decidable ((head ∈ s.dag.ancestors base → head = base) ∧
    ∀ y ∈ s.dag.ancestors head, y ∉ s.dag.ancestors base →
      ∀ p ∈ s.dag.links y, p ∈ s.dag.ancestors base → p = base))

theorem mem_ancestors_of_pathAround {s : Store} {head base x : Hash} (hhead : head ∈ s.dag.keys)
    (h : PathAround s base head x) : x ∈ s.dag.ancestors head := by
  induction h with
  | refl => exact Lib.Dag.self_mem_ancestors hhead
  | tail _ hlink ih => exact Lib.Dag.ancestors_trans (Lib.Dag.link_mem_ancestors hlink.1) ih

/-- The walk leaves out the history of the base exactly if there is no way around the base. -/
theorem pathAround_exact_iff {s : Store} {head base : Hash} (hhead : head ∈ s.dag.keys)
    (hne : head ≠ base) :
    (∀ x, PathAround s base head x ↔ x ∈ s.dag.ancestors head ∧ x ∉ s.dag.ancestors base) ↔
      entersAtBase s head base := by
  constructor
  · intro hexact
    refine ⟨fun hbelow => absurd hbelow ((hexact head).mp .refl).2, ?_⟩
    intro y hy hbase p hlink hbelow
    by_contra hp
    have hopen : Lib.openLink s.dag.links (fun h => h = "" ∨ h = base) y p :=
      ⟨hlink, by simp [Store.ne_empty (Lib.Dag.mem_keys_of_mem_links hlink), hp]⟩
    exact ((hexact p).mp ((pathAround_of_mem hy hbase).tail hopen)).2 hbelow
  · rintro ⟨hstart, henter⟩ x
    refine ⟨fun hpath => ⟨mem_ancestors_of_pathAround hhead hpath, ?_⟩,
      fun hx => pathAround_of_mem hx.1 hx.2⟩
    induction hpath with
    | refl => exact fun hbelow => hne (hstart hbelow)
    | @tail y p hy hlink ih =>
      intro hbelow
      obtain rfl := henter y (mem_ancestors_of_pathAround hhead hy) ih p hlink.1 hbelow
      exact absurd hlink.2 (by simp)

/-- The walk ends and lists no commit twice. What it lists are the commits that are reached
from the head and not from the base exactly if the history of the base is entered at the base;
without a base it lists all that is reached. -/
theorem getCommitsSince_exact_iff (s : Store) {head : Hash} (hhead : head ∈ s.dag.keys)
    (base : Hash) :
    (∃ cs, getCommitsSince s head base = some cs ∧ (cs.map Commit.hash).Nodup ∧ Stored s cs ∧
      ((∀ x, x ∈ cs.map Commit.hash ↔ x ∈ s.dag.ancestors head ∧ x ∉ s.dag.ancestors base) ↔
        entersAtBase s head base)) ∧
    ∃ cs, getCommitsSince s head "" = some cs ∧ (cs.map Commit.hash).Nodup ∧ Stored s cs ∧
      ∀ x, x ∈ cs.map Commit.hash ↔ x ∈ s.dag.ancestors head := by
  constructor
  · by_cases hne : head = base
    · subst hne
      refine ⟨[], by simp [getCommitsSince], .nil, by simp [Stored], iff_of_true ?_ ?_⟩
      · intro x
        simp
      · exact ⟨fun _ => rfl, fun y hy hbase => absurd hy hbase⟩
    · obtain ⟨cs, hcs, hnodup, hstored, hmem⟩ := getCommitsSince_spec s hhead hne
      refine ⟨cs, hcs, hnodup, hstored, ?_⟩
      simp only [hmem]
      exact pathAround_exact_iff hhead hne
  · obtain ⟨cs, hcs, hnodup, hstored, hmem⟩ :=
      getCommitsSince_spec s hhead (Store.ne_empty hhead)
    obtain ⟨cs', hcs', -, hall⟩ := getCommitsSince_all s hhead
    obtain rfl := Option.some.inj (hcs.symm.trans hcs')
    exact ⟨cs, hcs, hnodup, hstored, hall⟩

/-- A merge of `commit-b` with a commit that left its history one commit earlier. -/
def detourStore : Store :=
  ⟨⟨[⟨"commit-m", ["commit-b", "commit-c"], ⟨"", "", "", 0, .text "merge"⟩⟩,
    ⟨"commit-c", ["commit-a"], ⟨"", "", "", 0, .text "left"⟩⟩,
    ⟨"commit-b", ["commit-a"], ⟨"", "", "", 0, .text "right"⟩⟩,
    ⟨"commit-a", [], ⟨"", "", "", 0, .text "first"⟩⟩], by decide +kernel⟩, by decide +kernel⟩

theorem getCommitsSince_exact_iff_linear :
    ∃ cs, getCommitsSince detourStore "commit-c" "commit-a" = some cs ∧
      "commit-c" ∈ cs.map Commit.hash ∧ "commit-a" ∉ cs.map Commit.hash := by
  obtain ⟨⟨cs, hcs, -, -, hexact⟩, -⟩ :=
    getCommitsSince_exact_iff detourStore (by decide +kernel : "commit-c" ∈ _) "commit-a"
  have hmem := hexact.mpr (by decide +kernel)
  refine ⟨cs, hcs, (hmem _).mpr (by decide +kernel), ?_⟩
  rw [hmem]
  decide +kernel

/-- The walk around `commit-b` comes to `commit-a` below it. -/
theorem getCommitsSince_returns_ancestor_of_base :
    ((getCommitsSince detourStore "commit-m" "commit-b").map fun cs => cs.map Commit.hash) =
        some ["commit-m", "commit-c", "commit-a"] ∧
      "commit-a" ∈ detourStore.dag.ancestors "commit-b" ∧
      "commit-m" ∈ detourStore.dag.keys := by
  decide +kernel

end DoltSwarm.Core
