import DoltSwarm.Core.Node
import DoltSwarm.Lib.FinMap
import DoltSwarm.Lib.Separated

/-!
# Repository ids and the swarm remote (core/db.go, core/swarm_dbfactory.go, core/swarm_registry.go)

A node registers its providers under its repository id and a remote under a URL made from that
id. Dolt hands the URL back when it fetches, and the id parsed from it is looked up. Encoder and
decoder agree on an id exactly if its slashes stand where the decoder does not look for one.
-/

namespace DoltSwarm.Core

open Lib

set_option autoImplicit false

def swarmDBFactoryScheme : String := "swarm"

/-- The path under which a provider serves a repository (core/remote_chunk_store.go). -/
def repoPath (r : RepoID) : String :=
  if r.org ≠ "" then r.org ++ "/" ++ r.repoName else r.repoName

def swarmURL (repo : RepoID) : String :=
  if repo.org ≠ "" then swarmDBFactoryScheme ++ "://" ++ repo.org ++ "/" ++ repo.repoName
  else swarmDBFactoryScheme ++ "://" ++ repo.repoName

/-! ## The remote -/

/-- The row of `dolt_remotes` under the name `swarm`; the column may be NULL. -/
structure RemoteRow where
  url : Option String
  deriving DecidableEq, Repr

/-- The errors with which the statements of one call fail, apart from those that follow from the
table. -/
structure RemoteFaults where
  query : Option String := none
  remove : Option String := none
  add : Option String := none

def queryRemote (faults : RemoteFaults) (row : Option RemoteRow) : Except String RemoteRow :=
  match faults.query, row with
  | some err, _ => .error err
  | none, none => .error "sql: no rows in result set"
  | none, some cur => .ok cur

/-- Dolt refuses to remove a remote that is not there. -/
def removeRemote (faults : RemoteFaults) (row : Option RemoteRow) :
    Except String Unit × Option RemoteRow :=
  match faults.remove, row with
  | some err, _ => (.error err, row)
  | none, none => (.error "unknown remote: 'swarm'", none)
  | none, some _ => (.ok (), none)

/-- Dolt refuses to add a remote that is there. -/
def addRemote (faults : RemoteFaults) (url : String) (row : Option RemoteRow) :
    Except String Unit × Option RemoteRow :=
  match faults.add, row with
  | some err, _ => (.error err, row)
  | none, some cur => (.error "remote already exists: 'swarm'", some cur)
  | none, none => (.ok (), some ⟨some url⟩)

def containsText (s sub : String) : Bool := decide (sub.toList <:+: s.toList)

/-- A missing table and an unknown error are treated alike. -/
def needRewrite (url : String) : Except String RemoteRow → Bool
  | .ok cur => cur.url ≠ some url
  | .error err => !containsText err "no rows"

def ensureSwarmRemote (faults : RemoteFaults) (repo : RepoID) (row : Option RemoteRow) :
    Except String Unit × Option RemoteRow :=
  if repo.repoName = "" then (.error "repo name is required", row)
  else
    let url := swarmURL repo
    match queryRemote faults row with
    | .ok ⟨some cur⟩ =>
      if cur = url then (.ok (), row) else rewrite (.ok ⟨some cur⟩) url
    | answer => rewrite answer url
where
  rewrite (answer : Except String RemoteRow) (url : String) :=
    let removed := if needRewrite url answer then removeRemote faults row else (.ok (), row)
    match removed with
    | (.error err, row') =>
      if containsText err "unknown remote" then add url row'
      else (.error ("failed to remove swarm remote: " ++ err), row')
    | (.ok _, row') => add url row'
  add (url : String) (row' : Option RemoteRow) :=
    match addRemote faults url row' with
    | (.error err, row'') =>
      if containsText err "already exists" then (.ok (), row'')
      else (.error ("failed to add swarm remote: " ++ err), row'')
    | (.ok _, row'') => (.ok (), row'')

theorem ensureSwarmRemote_registers {repo : RepoID} (hname : repo.repoName ≠ "")
    (row : Option RemoteRow) :
    ensureSwarmRemote {} repo row = (.ok (), some ⟨some (swarmURL repo)⟩) := by
  cases row with
  | none =>
    have htext : containsText "sql: no rows in result set" "no rows" = true := by decide
    simp [ensureSwarmRemote, hname, queryRemote, ensureSwarmRemote.rewrite, needRewrite, htext,
      ensureSwarmRemote.add, addRemote]
  | some cur =>
    obtain ⟨url⟩ := cur
    cases url with
    | none =>
      simp [ensureSwarmRemote, hname, queryRemote, ensureSwarmRemote.rewrite, needRewrite,
        removeRemote, ensureSwarmRemote.add, addRemote]
    | some cur =>
      by_cases hcur : cur = swarmURL repo
      · simp [ensureSwarmRemote, hname, queryRemote, hcur]
      · simp [ensureSwarmRemote, hname, queryRemote, hcur, ensureSwarmRemote.rewrite, needRewrite,
          removeRemote, ensureSwarmRemote.add, addRemote]

/-! ## The factory -/

structure URL where
  scheme : String
  host : String
  path : String
  deriving DecidableEq, Repr

def URL.string (u : URL) : String :=
  if u.host = "" ∧ u.path = "" then u.scheme ++ ":" else u.scheme ++ "://" ++ u.host ++ u.path

/-- `url.Parse` on a text that needs no escaping: the host ends at the first slash. -/
def parseURL (url : String) : URL :=
  let scheme := url.toList.takeWhile (· ≠ ':')
  let rest := (url.toList.dropWhile (· ≠ ':')).drop 3
  ⟨.ofList scheme, .ofList (cutAt '/' rest).1, .ofList (cutAt '/' rest).2⟩

def trimSlashes (s : String) : String := .ofList (trimBoth '/' s.toList)

def parseSwarmRepoID (urlObj : URL) : RepoID :=
  let path := trimSlashes urlObj.path
  if urlObj.host ≠ "" ∧ path ≠ "" then ⟨urlObj.host, path⟩
  else if path ≠ "" then ⟨"", path⟩
  else ⟨"", urlObj.host⟩

section Registry

variable {Picker Provider : Type}

/-- A missing picker is not registered. -/
def registerSwarmProviders (swarmProviders : Map RepoID Picker) (repo : RepoID)
    (picker : Option Picker) : Map RepoID Picker :=
  match picker with
  | none => swarmProviders
  | some picker => swarmProviders.put repo picker

def getSwarmProviderPicker (swarmProviders : Map RepoID Picker) (repo : RepoID) : Option Picker :=
  swarmProviders.lookup repo

/-- The provider that a picker chooses and the repository, for which the chunk store of a fetch is
made. -/
def dbFor (pickProvider : Picker → RepoID → Except String Provider) (picker : Picker)
    (repo : RepoID) : Except String (Provider × RepoID) :=
  match pickProvider picker repo with
  | .error err => .error ("pick provider: " ++ err)
  | .ok provider => .ok (provider, repo)

def createDB (swarmProviders : Map RepoID Picker)
    (pickProvider : Picker → RepoID → Except String Provider) (urlObj : URL) :
    Except String (Provider × RepoID) :=
  let repo := parseSwarmRepoID urlObj
  if repo.repoName = "" then
    .error ("swarm url missing repo name: \"" ++ urlObj.string ++ "\"")
  else
    match getSwarmProviderPicker swarmProviders repo with
    | none => .error ("no swarm ProviderPicker registered for repo \"" ++ repo.repoName ++ "\"")
    | some picker => dbFor pickProvider picker repo

end Registry

/-! ## The round trip -/

theorem swarmURL_eq (repo : RepoID) : swarmURL repo = "swarm://" ++ repoPath repo := by
  unfold swarmURL repoPath
  split
  · simp only [swarmDBFactoryScheme, ← String.append_assoc]
    rfl
  · rfl

theorem parseURL_swarm (rest : String) :
    parseURL ("swarm://" ++ rest) =
      ⟨"swarm", .ofList (cutAt '/' rest.toList).1, .ofList (cutAt '/' rest.toList).2⟩ := by
  have hscheme : "swarm://".toList = "swarm".toList ++ ':' :: '/' :: '/' :: [] := by decide
  have hcolon : ':' ∉ "swarm".toList := by decide
  have hcut := cutAt_append_cons (b := '/' :: '/' :: rest.toList) hcolon
  simp only [cutAt, Prod.mk.injEq] at hcut
  simp only [parseURL, String.toList_append, hscheme, List.append_assoc, List.cons_append,
    List.nil_append, hcut.1, hcut.2]
  rfl

def reparsed (rest : List Char) : RepoID :=
  parseSwarmRepoID ⟨"swarm", .ofList (cutAt '/' rest).1, .ofList (cutAt '/' rest).2⟩

theorem parse_swarmURL (repo : RepoID) :
    parseSwarmRepoID (parseURL (swarmURL repo)) = reparsed (repoPath repo).toList := by
  rw [swarmURL_eq, parseURL_swarm, reparsed]

theorem reparsed_of_notMem {l : List Char} (hl : '/' ∉ l) : reparsed l = ⟨"", .ofList l⟩ := by
  have hpath : trimSlashes (.ofList []) = "" := by decide
  simp only [reparsed, cutAt_of_notMem hl, parseSwarmRepoID, hpath]
  simp

/-- A path with a slash gives the part before it and what is left of the rest, or the part before
it alone. -/
theorem reparsed_append {a b : List Char} (ha : '/' ∉ a) :
    reparsed (a ++ '/' :: b) =
      if trimBoth '/' b = [] then ⟨"", .ofList a⟩
      else ⟨.ofList a, .ofList (trimBoth '/' b)⟩ := by
  have hpath : trimSlashes (.ofList ('/' :: b)) = .ofList (trimBoth '/' b) := by
    rw [trimSlashes, String.toList_ofList, trimBoth_cons_self]
  simp only [reparsed, cutAt_append_cons ha, parseSwarmRepoID, hpath, ne_eq,
    String.ofList_eq_empty_iff]
  by_cases htrim : trimBoth '/' b = []
  · simp [htrim]
  · by_cases hhost : a = []
    · simp [htrim, hhost]
    · simp [htrim, hhost]

/-- Slashes only where the decoder does not look for one. -/
def urlSafe (repo : RepoID) : Prop :=
  repo.org = "" ∧ '/' ∉ repo.repoName.toList ∨
  repo.org ≠ "" ∧ '/' ∉ repo.org.toList ∧
    repo.repoName.toList.head? ≠ some '/' ∧ repo.repoName.toList.getLast? ≠ some '/'

instance (repo : RepoID) : Decidable (urlSafe repo) := inferInstanceAs (Decidable (_ ∨ _))

theorem reparsed_name_iff (name : String) :
    reparsed name.toList = ⟨"", name⟩ ↔ '/' ∉ name.toList := by
  constructor
  · intro h hslash
    obtain ⟨a, b, hname, ha⟩ := List.eq_append_cons_of_mem hslash
    have hlen : name.toList.length = a.length + b.length + 1 := by
      rw [hname, List.length_append, List.length_cons]
      omega
    rw [hname, reparsed_append ha] at h
    split at h
    · have hhost := congrArg (fun r => r.repoName.toList.length) h
      simp only [String.toList_ofList] at hhost
      omega
    · have hpath := congrArg (fun r => r.repoName.toList.length) h
      simp only [String.toList_ofList] at hpath
      have := length_trimBoth_le '/' b
      omega
  · intro hslash
    rw [reparsed_of_notMem hslash, String.ofList_toList]

theorem reparsed_org_iff {org : String} (horg : org ≠ "") {name : String} (hname : name ≠ "") :
    reparsed (org.toList ++ '/' :: name.toList) = ⟨org, name⟩ ↔ '/' ∉ org.toList ∧
      name.toList.head? ≠ some '/' ∧ name.toList.getLast? ≠ some '/' := by
  rw [← trimBoth_eq_self_iff]
  constructor
  · intro h
    have hslash : '/' ∉ org.toList := by
      intro hslash
      obtain ⟨a, b, hsplit, ha⟩ := List.eq_append_cons_of_mem hslash
      rw [hsplit, List.append_assoc, List.cons_append, reparsed_append ha] at h
      split at h
      · exact horg (congrArg RepoID.org h).symm
      · have hhost := congrArg (fun r => r.org.toList) h
        simp only [String.toList_ofList] at hhost
        rw [hsplit] at hhost
        simp at hhost
    refine ⟨hslash, ?_⟩
    rw [reparsed_append hslash] at h
    split at h
    · exact absurd (congrArg RepoID.org h).symm horg
    · have hpath := congrArg (fun r => r.repoName.toList) h
      simpa only [String.toList_ofList] using hpath
  · rintro ⟨hslash, htrim⟩
    have hne : name.toList ≠ [] := by
      intro hnil
      exact hname (String.toList_eq_nil_iff.mp hnil)
    rw [reparsed_append hslash, htrim, if_neg hne, String.ofList_toList, String.ofList_toList]

theorem toList_repoPath_org {repo : RepoID} (horg : repo.org ≠ "") :
    (repoPath repo).toList = repo.org.toList ++ '/' :: repo.repoName.toList := by
  have hslash : "/".toList = ['/'] := by decide
  rw [repoPath, if_pos horg, String.toList_append, String.toList_append, hslash,
    List.append_assoc, List.singleton_append]

theorem reparsed_repoPath_iff {repo : RepoID} (hname : repo.repoName ≠ "") :
    reparsed (repoPath repo).toList = repo ↔ urlSafe repo := by
  obtain ⟨org, name⟩ := repo
  by_cases horg : org = ""
  · subst horg
    simp only [urlSafe, repoPath, ne_eq, not_true_eq_false, if_false, false_and, or_false,
      true_and]
    exact reparsed_name_iff name
  · rw [toList_repoPath_org horg, reparsed_org_iff horg hname]
    simp only [urlSafe, horg, false_and, false_or, ne_eq, not_false_eq_true, true_and]

/-- An id comes back from the URL of its remote exactly if its slashes allow it; then the fetch
asks the provider registered for it, and no other such id has its path. -/
theorem repo_id_survives_swarm_url {repo : RepoID} (hname : repo.repoName ≠ "") :
    (∀ row, ensureSwarmRemote {} repo row = (.ok (), some ⟨some (swarmURL repo)⟩)) ∧
    (parseSwarmRepoID (parseURL (swarmURL repo)) = repo ↔ urlSafe repo) ∧
    (urlSafe repo →
      (∀ {Picker Provider : Type} (swarmProviders : Map RepoID Picker) (picker : Picker)
          (pickProvider : Picker → RepoID → Except String Provider),
        createDB (registerSwarmProviders swarmProviders repo (some picker)) pickProvider
          (parseURL (swarmURL repo)) = dbFor pickProvider picker repo) ∧
      ∀ other : RepoID, other.repoName ≠ "" → urlSafe other →
        repoPath other = repoPath repo → other = repo) := by
  refine ⟨ensureSwarmRemote_registers hname, ?_, fun hsafe => ⟨?_, ?_⟩⟩
  · rw [parse_swarmURL]
    exact reparsed_repoPath_iff hname
  · intro Picker Provider swarmProviders picker pickProvider
    have hback : parseSwarmRepoID (parseURL (swarmURL repo)) = repo := by
      rw [parse_swarmURL, (reparsed_repoPath_iff hname).mpr hsafe]
    have hpicker : getSwarmProviderPicker
        (registerSwarmProviders swarmProviders repo (some picker)) repo = some picker :=
      Map.lookup_put_self _ _ _
    simp only [createDB, hback, hname, if_false, hpicker]
  · intro other hother hsafe' hpath
    rw [← (reparsed_repoPath_iff hname).mpr hsafe, ← (reparsed_repoPath_iff hother).mpr hsafe',
      hpath]

theorem repo_id_survives_swarm_url_with_org :
    urlSafe ⟨"org", "a/b"⟩ ∧
    parseSwarmRepoID (parseURL (swarmURL ⟨"org", "a/b"⟩)) = ⟨"org", "a/b"⟩ :=
  ⟨by decide, (repo_id_survives_swarm_url (by decide)).2.1.mpr (by decide)⟩

/-- Without an organisation, a name with a slash comes back as the repository of another
organisation, has its path, and is served by its provider. -/
theorem slash_in_name_is_read_as_org :
    parseSwarmRepoID (parseURL (swarmURL ⟨"", "a/b"⟩)) = ⟨"a", "b"⟩ ∧
    repoPath ⟨"", "a/b"⟩ = repoPath ⟨"a", "b"⟩ ∧
    (createDB (registerSwarmProviders (registerSwarmProviders ∅ ⟨"a", "b"⟩ (some 1))
      ⟨"", "a/b"⟩ (some 2)) (fun picker _ => .ok picker)
      (parseURL (swarmURL ⟨"", "a/b"⟩))).toOption = some (1, ⟨"a", "b"⟩) := by
  decide

end DoltSwarm.Core
