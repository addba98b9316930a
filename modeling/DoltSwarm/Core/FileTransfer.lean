import Mathlib.Data.List.TakeWhile
import Mathlib.Data.Nat.Digits.Defs
import DoltSwarm.Lib.Path
import DoltSwarm.Lib.Runs

/-!
# Table files (core/remote_table_file.go, grpcswarm/chunkstore_server.go, grpcswarm/providers.go)

A provider lists its table files with their locations as URLs. The client asks for the last element
of a location, the provider opens what that leads to below its own directory and streams it, and
the client hands the bytes to a reader through a pipe. Texts are lists of characters.
-/

namespace DoltSwarm.Core

open Lib

set_option autoImplicit false

/-! ## What is listed and what is asked for -/

/-- A table file as the store of a provider lists it. -/
structure TableFile where
  fileID : List Char
  numChunks : ℕ
  locationPrefix : List Char
  locationSuffix : List Char
  splitOffset : UInt64

structure TableFileInfo where
  fileID : List Char
  numChunks : UInt32
  url : List Char
  splitOffset : UInt64

def buildTableFileInfo (tableList : List TableFile) : List TableFileInfo :=
  tableList.map fun t =>
    ⟨t.fileID, .ofNat t.numChunks, t.locationPrefix ++ t.fileID ++ t.locationSuffix, t.splitOffset⟩

def archiveFileSuffix : List Char := ".darc".toList

/-- The path that `url.Parse` finds in a text without scheme, host and escapes. -/
def urlPath (url : List Char) : List Char := (url.takeWhile (· ≠ '#')).takeWhile (· ≠ '?')

structure RemoteTableFile where
  info : TableFileInfo

namespace RemoteTableFile

def locationSuffix (rtf : RemoteTableFile) : List Char :=
  if archiveFileSuffix <:+ urlPath rtf.info.url then archiveFileSuffix else []

def numChunks (rtf : RemoteTableFile) : ℕ := rtf.info.numChunks.toNat

/-- The identifier with which `Open` asks for the file. -/
def downloadID (rtf : RemoteTableFile) : List Char :=
  let base := Path.base (urlPath rtf.info.url)
  if base ≠ [] ∧ base ≠ Path.dot ∧ base ≠ ['/'] then base else rtf.info.fileID

end RemoteTableFile

def getTableFiles (infoList : List TableFileInfo) : List RemoteTableFile :=
  infoList.map RemoteTableFile.mk

/-! ## The provider's side -/

inductive RPCStatus where
  | ok | invalidArgument | notFound | internal
  deriving DecidableEq, Repr

def downloadChunkSize : ℕ := 3 * 1024

/-- The path that `DownloadFile` opens for an identifier. -/
def downloadPath (filePath id : List Char) : List Char :=
  Path.join [filePath, ".dolt".toList, "noms".toList, id]

def formatInt (n : ℕ) : List Char :=
  if n = 0 then ['0'] else ((Nat.digits 10 n).map Nat.digitChar).reverse

/-- `strconv.ParseUint` to base 10 and 64 bits. -/
def parseUint (s : List Char) : Option ℕ :=
  let n := s.foldl (fun r c => r * 10 + (c.toNat - '0'.toNat)) 0
  if s ≠ [] ∧ s.all Char.isDigit = true ∧ n < 2 ^ 64 then some n else none

inductive PipeEnd where
  | eof | failed
  deriving DecidableEq, Repr

/-- A download under way: what the provider has not read yet, its buffer, the messages that were
sent and not received, the status with which the handler returned, and what the client has written
into the pipe. -/
structure Download where
  rest : List UInt8
  buffer : ℕ
  wire : List (List UInt8)
  status : Option RPCStatus
  received : List UInt8
  closed : Option PipeEnd
  deriving DecidableEq, Repr

def Download.start (content : List UInt8) : Download :=
  ⟨content, downloadChunkSize, [], none, [], none⟩

/-- `DownloadFile` up to its loop: the file size in the header and the stream, or the status with
which it fails. `fails` is whether opening the file or sending the header does. -/
def downloadFile (files : List Char → Option (List UInt8)) (filePath id : List Char)
    (fails : Bool) : Except RPCStatus (List Char × Download) :=
  if id = [] then .error .invalidArgument
  else
    match files (downloadPath filePath id) with
    | none => .error .notFound
    | some content =>
      if fails then .error .internal else .ok (formatInt content.length, .start content)

/-- The size that the client makes of the header. -/
def downloadSize (header : List Char) : ℕ := (parseUint header).getD 0

/-! ## The stream -/

inductive DownloadLabel where
  | read (n : ℕ)
  | readEOF
  | readFails
  | sendFails (n : ℕ)
  | recv
  | recvEnd
  | broken
  deriving DecidableEq, Repr

def DownloadLabel.fault : DownloadLabel → Bool
  | readFails | sendFails _ | broken => true
  | _ => false

namespace Download

/-- `Read` gives at least one byte and no more than the buffer holds, unless the file is at its
end. -/
def readable (d : Download) (n : ℕ) : Prop :=
  d.status = none ∧ 0 < n ∧ n ≤ d.buffer ∧ n ≤ d.rest.length

instance (d : Download) (n : ℕ) : Decidable (d.readable n) :=
  inferInstanceAs (Decidable (_ ∧ _))

/-- One call of either side. The buffer is cut to what was read and never grows again. `Recv` gives
the messages in order and the status after the last one; it fails when the connection breaks, as
writing to the pipe does when the reader has closed it. -/
def next (d : Download) : DownloadLabel → Option Download
  | .read n =>
    if d.readable n then
      some { d with rest := d.rest.drop n, buffer := n, wire := d.wire ++ [d.rest.take n] }
    else none
  | .readEOF => if d.status = none ∧ d.rest = [] then some { d with status := some .ok } else none
  | .readFails => if d.status = none then some { d with status := some .internal } else none
  | .sendFails n =>
    if d.readable n then
      some { d with rest := d.rest.drop n, buffer := n, status := some .internal }
    else none
  | .recv =>
    match d.closed, d.wire with
    | none, chunk :: wire => some { d with wire := wire, received := d.received ++ chunk }
    | _, _ => none
  | .recvEnd =>
    match d.closed, d.wire, d.status with
    | none, [], some status =>
      some { d with closed := some (if status = .ok then .eof else .failed) }
    | _, _, _ => none
  | .broken => if d.closed = none then some { d with closed := some .failed } else none

def Step (d : Download) (a : DownloadLabel) (d' : Download) : Prop := d.next a = some d'

inductive Effect (d : Download) : DownloadLabel → Download → Prop
  | read {n : ℕ} (h : d.readable n) : Effect d (.read n)
      { d with rest := d.rest.drop n, buffer := n, wire := d.wire ++ [d.rest.take n] }
  | readEOF (hstatus : d.status = none) (hrest : d.rest = []) :
      Effect d .readEOF { d with status := some .ok }
  | readFails (hstatus : d.status = none) : Effect d .readFails { d with status := some .internal }
  | sendFails {n : ℕ} (h : d.readable n) : Effect d (.sendFails n)
      { d with rest := d.rest.drop n, buffer := n, status := some .internal }
  | recv {chunk : List UInt8} {wire : List (List UInt8)} (hclosed : d.closed = none)
      (hwire : d.wire = chunk :: wire) :
      Effect d .recv { d with wire := wire, received := d.received ++ chunk }
  | recvEnd {status : RPCStatus} (hclosed : d.closed = none) (hwire : d.wire = [])
      (hstatus : d.status = some status) :
      Effect d .recvEnd { d with closed := some (if status = .ok then .eof else .failed) }
  | broken (hclosed : d.closed = none) : Effect d .broken { d with closed := some .failed }

theorem effect_of_step {d d' : Download} {a : DownloadLabel} (h : Step d a d') :
    Effect d a d' := by
  cases a <;> simp only [Step, next] at h
  case read n =>
    split_ifs at h with hg
    cases h
    exact .read hg
  case readEOF =>
    split_ifs at h with hg
    cases h
    exact .readEOF hg.1 hg.2
  case readFails =>
    split_ifs at h with hg
    cases h
    exact .readFails hg
  case sendFails n =>
    split_ifs at h with hg
    cases h
    exact .sendFails hg
  case recv =>
    split at h
    · cases h
      exact .recv ‹_› ‹_›
    · cases h
  case recvEnd =>
    split at h
    · cases h
      exact .recvEnd ‹_› ‹_› ‹_›
    · cases h
  case broken =>
    split_ifs at h with hg
    cases h
    exact .broken hg

/-- What is received, what is under way and what is not read yet make up the file, as long as the
handler goes on; nothing else is ever received, and the end of the file is seen at its end only. -/
structure Intact (content : List UInt8) (d : Download) : Prop where
  buffer_pos : 0 < d.buffer
  sent : d.received ++ d.wire.flatten <+: content
  reading : d.status = none → d.received ++ d.wire.flatten ++ d.rest = content
  done : d.status = some .ok → d.received ++ d.wire.flatten = content
  ended : d.closed = some .eof → d.received = content

theorem intact_start (content : List UInt8) : Intact content (.start content) :=
  ⟨(by decide : 0 < downloadChunkSize), List.nil_prefix, fun _ => rfl, nofun, nofun⟩

section

variable {content : List UInt8} {d d' : Download} {a : DownloadLabel}

theorem Intact.step (h : Intact content d) (hstep : Step d a d') : Intact content d' := by
  cases effect_of_step hstep with
  | @read n hg =>
    obtain ⟨hstatus, hpos, -, -⟩ := hg
    have hwhole : d.received ++ (d.wire ++ [d.rest.take n]).flatten ++ d.rest.drop n =
        content := by
      rw [← h.reading hstatus]
      simp
    refine ⟨hpos, ?_, fun _ => hwhole, fun hok => ?_, h.ended⟩
    · rw [← hwhole]
      exact List.prefix_append _ _
    · rw [hstatus] at hok
      cases hok
  | readEOF hstatus hrest =>
    have hwhole := h.reading hstatus
    rw [hrest, List.append_nil] at hwhole
    exact ⟨h.buffer_pos, h.sent, nofun, fun _ => hwhole, h.ended⟩
  | readFails => exact ⟨h.buffer_pos, h.sent, nofun, nofun, h.ended⟩
  | sendFails hg => exact ⟨hg.2.1, h.sent, nofun, nofun, h.ended⟩
  | recv hclosed hwire =>
    have hsame : ∀ chunk wire, d.wire = chunk :: wire →
        d.received ++ chunk ++ wire.flatten = d.received ++ d.wire.flatten := by
      intro chunk wire hwire
      rw [hwire, List.flatten_cons, List.append_assoc]
    refine ⟨h.buffer_pos, ?_, fun hnone => ?_, fun hok => ?_, fun heof => ?_⟩
    · rw [hsame _ _ hwire]
      exact h.sent
    · rw [hsame _ _ hwire]
      exact h.reading hnone
    · rw [hsame _ _ hwire]
      exact h.done hok
    · rw [hclosed] at heof
      cases heof
  | @recvEnd status hclosed hwire hstatus =>
    refine ⟨h.buffer_pos, h.sent, h.reading, h.done, fun heof => ?_⟩
    have hok : status = .ok := by
      by_contra hne
      rw [if_neg hne] at heof
      cases heof
    have hdone := h.done (hok ▸ hstatus)
    rwa [hwire, List.flatten_nil, List.append_nil] at hdone
  | broken => exact ⟨h.buffer_pos, h.sent, h.reading, h.done, nofun⟩

/-- Bytes to be read count twice, since each of them may make a message. -/
def remaining (d : Download) : ℕ :=
  2 * d.rest.length + d.wire.length + (if d.status = none then 1 else 0) +
    if d.closed = none then 1 else 0

theorem remaining_lt (hstep : Step d a d') : d'.remaining < d.remaining := by
  cases effect_of_step hstep with
  | read hg =>
    obtain ⟨-, hpos, -, hle⟩ := hg
    simp only [remaining, List.length_drop, List.length_append, List.length_singleton]
    omega
  | readEOF hstatus => simp [remaining, hstatus]
  | readFails hstatus => simp [remaining, hstatus]
  | sendFails hg =>
    obtain ⟨hstatus, hpos, -, hle⟩ := hg
    simp only [remaining, List.length_drop, hstatus, reduceCtorEq, if_false, if_true]
    omega
  | recv hclosed hwire => simp [remaining, hwire]
  | recvEnd hclosed => simp [remaining, hclosed]
  | broken hclosed => simp [remaining, hclosed]

theorem exists_step (h : Intact content d) (hclosed : d.closed = none) :
    ∃ a d', a.fault = false ∧ Step d a d' := by
  cases hwire : d.wire with
  | cons chunk wire => exact ⟨.recv, _, rfl, by rw [Step, next, hclosed, hwire]⟩
  | nil =>
    cases hstatus : d.status with
    | some status => exact ⟨.recvEnd, _, rfl, by rw [Step, next, hclosed, hwire, hstatus]⟩
    | none =>
      cases hrest : d.rest with
      | nil => exact ⟨.readEOF, _, rfl, if_pos ⟨hstatus, hrest⟩⟩
      | cons b rest =>
        refine ⟨.read 1, _, rfl, if_pos ⟨hstatus, Nat.one_pos, h.buffer_pos, ?_⟩⟩
        rw [hrest, List.length_cons]
        omega

/-- Without faults the handler returns in good order, and the pipe is closed at the end of the
file. -/
structure Faultless (d : Download) : Prop where
  status : d.status = none ∨ d.status = some .ok
  closed : d.closed = none ∨ d.closed = some .eof

theorem Faultless.step (h : Faultless d) (hfault : a.fault = false) (hstep : Step d a d') :
    Faultless d' := by
  cases effect_of_step hstep with
  | read => exact ⟨h.status, h.closed⟩
  | readEOF => exact ⟨Or.inr rfl, h.closed⟩
  | readFails => cases hfault
  | sendFails => cases hfault
  | recv => exact ⟨h.status, h.closed⟩
  | @recvEnd status hclosed hwire hstatus =>
    have hok : status = .ok := by
      rcases h.status with hnone | hok
      · rw [hnone] at hstatus
        cases hstatus
      · rw [hok] at hstatus
        exact (Option.some.inj hstatus).symm
    exact ⟨h.status, Or.inr (by rw [if_pos hok])⟩
  | broken => cases hfault

def messageSize? : Download × DownloadLabel → Option ℕ
  | (_, .read n) => some n
  | _ => none

def messageSizes (tr : List (Download × DownloadLabel)) : List ℕ := outputs messageSize? tr

theorem buffer_le_of_step (hstep : Step d a d') :
    d'.buffer ≤ d.buffer ∧ ∀ n ∈ messageSize? (d, a), n = d'.buffer ∧ 0 < n := by
  cases effect_of_step hstep with
  | read hg =>
    refine ⟨hg.2.2.1, fun n hn => ?_⟩
    obtain rfl := Option.some.inj hn
    exact ⟨rfl, hg.2.1⟩
  | sendFails hg => exact ⟨hg.2.2.1, nofun⟩
  | readEOF => exact ⟨le_refl _, nofun⟩
  | readFails => exact ⟨le_refl _, nofun⟩
  | recv => exact ⟨le_refl _, nofun⟩
  | recvEnd => exact ⟨le_refl _, nofun⟩
  | broken => exact ⟨le_refl _, nofun⟩

/-- Messages are never empty and never get longer again. -/
theorem messageSizes_of_run {tr : List (Download × DownloadLabel)}
    (hrun : Run Step (.start content) tr d) : (messageSizes tr).Pairwise (· ≥ ·) ∧
      (∀ n ∈ messageSizes tr, 0 < n ∧ n ≤ downloadChunkSize ∧ d.buffer ≤ n) ∧
      d.buffer ≤ downloadChunkSize := by
  induction hrun with
  | nil => exact ⟨.nil, by simp [messageSizes, outputs], le_refl _⟩
  | snoc _ hstep ih =>
    obtain ⟨hsorted, hbounds, hbuffer⟩ := ih
    obtain ⟨hle, hsize⟩ := buffer_le_of_step hstep
    rw [messageSizes, outputs_cons, List.pairwise_append]
    refine ⟨⟨hsorted, ?_, fun m hm n hn => ?_⟩, fun n hn => ?_, hle.trans hbuffer⟩
    · cases messageSize? _ <;> simp
    · obtain ⟨rfl, -⟩ := hsize n (Option.mem_toList.mp hn)
      exact hle.trans (hbounds m hm).2.2
    · rcases List.mem_append.mp hn with hn | hn
      · obtain ⟨hpos, hchunk, hbuf⟩ := hbounds n hn
        exact ⟨hpos, hchunk, hle.trans hbuf⟩
      · obtain ⟨rfl, hpos⟩ := hsize n (Option.mem_toList.mp hn)
        exact ⟨hpos, hle.trans hbuffer, le_refl _⟩

end

end Download

/-! ## Sizes -/

theorem digitChar_spec : ∀ d < 10, (Nat.digitChar d).toNat - '0'.toNat = d ∧
    (Nat.digitChar d).isDigit = true := by decide

theorem foldr_digitChar {ds : List ℕ} (h : ∀ d ∈ ds, d < 10) :
    (ds.map Nat.digitChar).foldr (fun c r => r * 10 + (c.toNat - '0'.toNat)) 0 =
      Nat.ofDigits 10 ds := by
  induction ds with
  | nil => rfl
  | cons d ds ih =>
    rw [List.map_cons, List.foldr_cons, ih fun d hd => h d (List.mem_cons_of_mem _ hd),
      (digitChar_spec d (h d List.mem_cons_self)).1, Nat.ofDigits_cons]
    ring

theorem parseUint_formatInt {n : ℕ} (hn : n < 2 ^ 64) : parseUint (formatInt n) = some n := by
  by_cases hzero : n = 0
  · subst hzero
    rfl
  · have hdigits : ∀ d ∈ Nat.digits 10 n, d < 10 := fun d hd => Nat.digits_lt_base (by norm_num) hd
    have hvalue : (formatInt n).foldl (fun r c => r * 10 + (c.toNat - '0'.toNat)) 0 = n := by
      rw [formatInt, if_neg hzero, List.foldl_reverse, foldr_digitChar hdigits,
        Nat.ofDigits_digits]
    have hne : formatInt n ≠ [] := by
      rw [formatInt, if_neg hzero]
      simpa using Nat.digits_ne_nil_iff_ne_zero.mpr hzero
    have hall : (formatInt n).all Char.isDigit = true := by
      rw [formatInt, if_neg hzero, List.all_eq_true]
      intro c hc
      obtain ⟨d, hd, rfl⟩ := List.mem_map.mp (List.mem_reverse.mp hc)
      exact (digitChar_spec d (hdigits d hd)).2
    rw [parseUint, hvalue, if_pos ⟨hne, hall, hn⟩]

/-! ## Paths -/

def nomsDir (filePath : List Char) : List (List Char) :=
  (Path.resolve true [] filePath).reverse ++ [".dolt".toList, "noms".toList]

def climbingID (filePath : List Char) (names : List (List Char)) : List Char :=
  ['/'].intercalate (List.replicate (nomsDir filePath).length Path.dotDot ++ names)

section

variable {filePath : List Char} (hroot : filePath.head? = some '/')

include hroot

theorem downloadPath_eq (id : List Char) : downloadPath filePath id =
    Path.rootedAt (Path.resolve true (nomsDir filePath).reverse id).reverse := by
  have hdolt : Path.IsName ".dolt".toList := ⟨by decide, by decide, by decide, by decide⟩
  have hnoms : Path.IsName "noms".toList := ⟨by decide, by decide, by decide, by decide⟩
  rw [downloadPath, Path.join_rooted hroot, List.foldl_cons, List.foldl_cons, List.foldl_cons,
    List.foldl_nil, Path.resolve_of_isName hdolt, Path.resolve_of_isName hnoms]
  simp [nomsDir]

theorem downloadPath_inside {id : List Char} (hid : Path.dotDot ∉ id.splitOn '/') :
    ∃ more, downloadPath filePath id = Path.rootedAt (nomsDir filePath ++ more) := by
  obtain ⟨more, hmore⟩ : ∃ more, (id.splitOn '/').foldl (Path.cleanStep true)
      (nomsDir filePath).reverse = more ++ (nomsDir filePath).reverse :=
    Path.foldl_cleanStep_inside hid
  refine ⟨more.reverse, ?_⟩
  rw [downloadPath_eq hroot, Path.resolve, hmore]
  simp

theorem downloadPath_climbingID {names : List (List Char)} (hnames : ∀ c ∈ names, Path.IsName c) :
    downloadPath filePath (climbingID filePath names) = Path.rootedAt names := by
  have hclimb : Path.dotDot ∉ (nomsDir filePath).reverse := by
    have hfile := Path.resolve_true_noClimb (List.not_mem_nil : Path.dotDot ∉ []) filePath
    simp only [nomsDir, List.mem_reverse, List.mem_append, not_or]
    exact ⟨hfile, by decide⟩
  have hsplit : (climbingID filePath names).splitOn '/' =
      List.replicate (nomsDir filePath).length Path.dotDot ++ names := by
    refine List.splitOn_intercalate '/' (fun c hc => ?_) ?_
    · rcases List.mem_append.mp hc with hc | hc
      · rw [List.eq_of_mem_replicate hc]
        decide
      · exact (hnames c hc).no_slash
    · simp [nomsDir]
  have hdrop : (nomsDir filePath).reverse.drop (nomsDir filePath).length = [] := by
    rw [← List.length_reverse, List.drop_length]
  rw [downloadPath_eq hroot, Path.resolve, hsplit, List.foldl_append,
    Path.foldl_cleanStep_dotDot hclimb, hdrop, Path.foldl_cleanStep_names hnames,
    List.append_nil, List.reverse_reverse]

end

/-! ## Downloads -/

/-- A table file whose location is a relative URL that needs no escaping and that ends in the name
of the file, with or without the suffix of an archive. -/
structure TableFile.Listable (t : TableFile) : Prop where
  dir : t.locationPrefix = [] ∨ t.locationPrefix.getLast? = some '/'
  relative : t.locationPrefix.head? ≠ some '/'
  name : Path.IsName (t.fileID ++ t.locationSuffix)
  plain : ∀ c ∈ t.locationPrefix ++ t.fileID ++ t.locationSuffix,
    c ∉ [':', '?', '#', '%', '\x7f'] ∧ ' ' ≤ c
  suffix : t.locationSuffix = archiveFileSuffix ∨
    t.locationSuffix = [] ∧ ¬archiveFileSuffix <:+ t.fileID

section

variable {t : TableFile} (h : t.Listable)

include h

theorem urlPath_of_listable : urlPath (t.locationPrefix ++ t.fileID ++ t.locationSuffix) =
    t.locationPrefix ++ t.fileID ++ t.locationSuffix := by
  have hkeep : ∀ x ∈ ['#', '?'], (t.locationPrefix ++ t.fileID ++ t.locationSuffix).takeWhile
      (· ≠ x) = t.locationPrefix ++ t.fileID ++ t.locationSuffix := by
    intro x hx
    refine List.takeWhile_eq_self_iff.mpr fun c hc => decide_eq_true ?_
    rintro rfl
    have hsub : ['#', '?'] ⊆ [':', '?', '#', '%', '\x7f'] := by simp
    exact (h.plain c hc).1 (hsub hx)
  rw [urlPath, hkeep '#' (by simp), hkeep '?' (by simp)]

/-- What is asked for is the name of the file; the directory of its location is not in it. -/
theorem downloadID_of_listable (rtf : RemoteTableFile)
    (hurl : rtf.info.url = t.locationPrefix ++ t.fileID ++ t.locationSuffix) :
    rtf.downloadID = t.fileID ++ t.locationSuffix := by
  have hbase : Path.base (urlPath rtf.info.url) = t.fileID ++ t.locationSuffix := by
    rw [hurl, urlPath_of_listable h, List.append_assoc]
    exact Path.base_append h.dir h.name.ne_nil h.name.no_slash
  have hslash : t.fileID ++ t.locationSuffix ≠ ['/'] := by
    intro heq
    exact h.name.no_slash (heq ▸ List.mem_singleton_self '/')
  rw [RemoteTableFile.downloadID, hbase, if_pos ⟨h.name.ne_nil, h.name.ne_dot, hslash⟩]

theorem locationSuffix_of_listable (rtf : RemoteTableFile)
    (hurl : rtf.info.url = t.locationPrefix ++ t.fileID ++ t.locationSuffix) :
    rtf.locationSuffix = t.locationSuffix := by
  rw [RemoteTableFile.locationSuffix, hurl, urlPath_of_listable h]
  rcases h.suffix with hsuffix | ⟨hsuffix, hnot⟩
  · rw [hsuffix, if_pos (List.suffix_append _ _)]
  · rw [hsuffix, List.append_nil, if_neg]
    intro hend
    -- the suffix is shorter than the name or reaches back over the slash before it
    by_cases hlen : archiveFileSuffix.length ≤ t.fileID.length
    · exact hnot (List.suffix_of_suffix_length_le hend (List.suffix_append _ _) hlen)
    · have hback : t.fileID <:+ archiveFileSuffix :=
        List.suffix_of_suffix_length_le (List.suffix_append _ _) hend (by omega)
      obtain ⟨front, hfront⟩ := hback
      obtain ⟨before, hbefore⟩ := hend
      rw [← hfront, ← List.append_assoc] at hbefore
      have hdir := List.append_cancel_right hbefore
      have hne : front ≠ [] := by
        rintro rfl
        rw [← hfront] at hlen
        exact hlen (le_refl _)
      rcases h.dir with hempty | hlast
      · rw [hempty] at hdir
        exact hne (List.append_eq_nil_iff.mp hdir).2
      · rw [← hdir, List.getLast?_append_of_ne_nil _ hne] at hlast
        have hmem : '/' ∈ archiveFileSuffix :=
          hfront ▸ List.mem_append_left _ (List.mem_of_getLast? hlast)
        revert hmem
        decide

end

/-- Where the location of a table file leads below the directory of the table files. -/
def TableFile.path (filePath : List Char) (t : TableFile) : List Char :=
  downloadPath filePath (t.locationPrefix ++ t.fileID ++ t.locationSuffix)

/-- A listed file that lies directly in the directory of the table files arrives: under its name
and with the suffix that tells its format, with its size, and whole. In every run, whatever is read
in one piece and wherever the stream breaks, the reader gets an initial part of the file and does
not see the end before the end. Runs are finite, and one in which nothing fails can go on until all
is delivered. The directory of a location is not asked for, so a file elsewhere is not found unless
one of its name lies there as well. -/
theorem listed_table_file_arrives (files : List Char → Option (List UInt8)) (filePath : List Char)
    {tableList : List TableFile} {t : TableFile} (hlisted : t ∈ tableList) (h : t.Listable)
    {content : List UInt8} (hcontent : files (t.path filePath) = some content)
    (hsize : content.length < 2 ^ 63) :
    ∃ rtf ∈ getTableFiles (buildTableFileInfo tableList),
      rtf.info.fileID = t.fileID ∧ rtf.locationSuffix = t.locationSuffix ∧
      rtf.info.splitOffset = t.splitOffset ∧ rtf.numChunks = t.numChunks % 2 ^ 32 ∧
      (files (downloadPath filePath (t.fileID ++ t.locationSuffix)) = none →
        downloadFile files filePath rtf.downloadID false = .error .notFound) ∧
      (t.locationPrefix = [] → ∃ header,
        downloadFile files filePath rtf.downloadID false = .ok (header, .start content) ∧
        downloadSize header = content.length) ∧
      ∀ tr d, Run Download.Step (.start content) tr d →
        d.received <+: content ∧ (d.closed = some .eof → d.received = content) ∧
        tr.length ≤ 2 * content.length + 2 ∧
        (Download.messageSizes tr).Pairwise (· ≥ ·) ∧
        ((∀ x ∈ tr, x.2.fault = false) → d.received = content ∧ d.closed = some .eof ∨
          ∃ a d', a.fault = false ∧ Download.Step d a d') := by
  let info : TableFileInfo :=
    ⟨t.fileID, .ofNat t.numChunks, t.locationPrefix ++ t.fileID ++ t.locationSuffix, t.splitOffset⟩
  have hid := downloadID_of_listable h ⟨info⟩ rfl
  refine ⟨⟨info⟩, List.mem_map_of_mem (List.mem_map.mpr ⟨t, hlisted, rfl⟩), rfl,
    locationSuffix_of_listable h ⟨info⟩ rfl, rfl, UInt32.toNat_ofNat', fun hnone => ?_,
    fun htop => ⟨formatInt content.length, ?_, ?_⟩, ?_⟩
  · rw [hid, downloadFile, if_neg h.name.ne_nil, hnone]
  · rw [TableFile.path, htop, List.nil_append] at hcontent
    rw [hid, downloadFile, if_neg h.name.ne_nil, hcontent]
    rfl
  · have hlt : content.length < 2 ^ 64 := hsize.trans (by norm_num)
    rw [downloadSize, parseUint_formatInt hlt, Option.getD_some]
  · intro tr d hrun
    have hintact : Download.Intact content d :=
      hrun.invariant (Download.intact_start content) fun _ _ _ hI hstep => hI.step hstep
    have hlen := hrun.length_add_le Download.remaining fun _ _ _ => Download.remaining_lt
    have hstart : (Download.start content).remaining = 2 * content.length + 2 := rfl
    refine ⟨(List.prefix_append _ _).trans hintact.sent, hintact.ended, by omega,
      (Download.messageSizes_of_run hrun).1, fun hfaultless => ?_⟩
    have hgood : Download.Faultless d :=
      Run.induct (I := fun _ d => Download.Faultless d) (G := fun _ a => a.fault = false)
        ⟨Or.inl rfl, Or.inl rfl⟩ (fun _ _ _ _ _ hI hG hstep => hI.step hG hstep) hrun hfaultless
    rcases hgood.closed with hopen | heof
    · exact Or.inr (Download.exists_step hintact hopen)
    · exact Or.inl ⟨hintact.ended heof, heof⟩

def archive (locationPrefix : List Char) : TableFile :=
  ⟨"0a".toList, 1, locationPrefix, archiveFileSuffix, 0⟩

theorem listable_archive {locationPrefix : List Char}
    (h : locationPrefix ∈ [[], "oldgen/".toList]) : (archive locationPrefix).Listable where
  dir := by revert h locationPrefix; decide
  relative := by revert h locationPrefix; decide
  name := by
    have hname : "0a".toList ++ archiveFileSuffix ≠ [] ∧
        "0a".toList ++ archiveFileSuffix ≠ Path.dot ∧
        "0a".toList ++ archiveFileSuffix ≠ Path.dotDot ∧
        '/' ∉ "0a".toList ++ archiveFileSuffix := by
      decide
    exact ⟨hname.1, hname.2.1, hname.2.2.1, hname.2.2.2⟩
  plain := by
    simp only [List.mem_cons, List.not_mem_nil, or_false] at h
    rcases h with rfl | rfl <;> simp [archive, archiveFileSuffix]
  suffix := Or.inl rfl

def oneFile (path : String) (content : List UInt8) (asked : List Char) : Option (List UInt8) :=
  if asked = path.toList then some content else none

theorem listed_table_file_arrives_of_archive :
    (∃ rtf ∈ getTableFiles (buildTableFileInfo [archive []]),
      rtf.locationSuffix = archiveFileSuffix ∧ ∃ header,
      downloadFile (oneFile "/srv/db/.dolt/noms/0a.darc" [1, 2, 3]) "/srv/db".toList rtf.downloadID
        false = .ok (header, .start [1, 2, 3]) ∧ downloadSize header = 3) ∧
    ∃ rtf ∈ getTableFiles (buildTableFileInfo [archive "oldgen/".toList]),
      downloadFile (oneFile "/srv/db/.dolt/noms/oldgen/0a.darc" [1, 2, 3]) "/srv/db".toList
        rtf.downloadID false = .error .notFound := by
  have hnew : oneFile "/srv/db/.dolt/noms/0a.darc" [1, 2, 3]
      ((archive []).path "/srv/db".toList) = some [1, 2, 3] := by decide
  have hold : oneFile "/srv/db/.dolt/noms/oldgen/0a.darc" [1, 2, 3]
      ((archive "oldgen/".toList).path "/srv/db".toList) = some [1, 2, 3] := by decide
  constructor
  · obtain ⟨rtf, hmem, -, hsuffix, -, -, -, harrives, -⟩ := listed_table_file_arrives _ _
      (List.mem_singleton_self _) (listable_archive (by simp)) hnew (by decide)
    exact ⟨rtf, hmem, hsuffix, harrives rfl⟩
  · obtain ⟨rtf, hmem, -, -, -, -, hlost, -⟩ := listed_table_file_arrives _ _
      (List.mem_singleton_self _) (listable_archive (by simp)) hold (by decide)
    exact ⟨rtf, hmem, hlost (by decide)⟩

/-- The identifier of a request is not checked. Without a climbing component it leads below the
directory of the table files, but every file that the provider can open is served to whoever sends
the right identifier. -/
theorem any_file_is_served (files : List Char → Option (List UInt8)) {filePath : List Char}
    (hroot : filePath.head? = some '/') :
    (∀ id, Path.dotDot ∉ id.splitOn '/' → ∃ more,
      downloadPath filePath id = Path.rootedAt (nomsDir filePath ++ more)) ∧
    ∀ names content, (∀ c ∈ names, Path.IsName c) → files (Path.rootedAt names) = some content →
      ∃ id, downloadFile files filePath id false =
        .ok (formatInt content.length, .start content) := by
  refine ⟨fun id hid => downloadPath_inside hroot hid, fun names content hnames hcontent => ?_⟩
  refine ⟨climbingID filePath names, ?_⟩
  have hne : climbingID filePath names ≠ [] := by
    simp [climbingID, nomsDir, List.intercalate, List.replicate_succ, Path.dotDot]
  rw [downloadFile, if_neg hne, downloadPath_climbingID hroot hnames, hcontent]
  rfl

theorem any_file_is_served_by_id :
    ∃ id, downloadFile (oneFile "/etc/key" [7]) "/srv/db".toList id false =
      .ok (['1'], .start [7]) :=
  (any_file_is_served (oneFile "/etc/key" [7]) rfl).2 ["etc".toList, "key".toList] [7]
    (by
      intro c hc
      have hname : ∀ c ∈ ["etc".toList, "key".toList], c ≠ [] ∧ c ≠ Path.dot ∧
          c ≠ Path.dotDot ∧ '/' ∉ c := by decide
      obtain ⟨h₁, h₂, h₃, h₄⟩ := hname c hc
      exact ⟨h₁, h₂, h₃, h₄⟩)
    (by decide)

end DoltSwarm.Core
