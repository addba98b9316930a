import DoltSwarm.Core.Commit
import DoltSwarm.Lib.JsonStrings

/-!
# Commit metadata as text (protocol/metadata.go)

`Marshal` writes the metadata as JSON and `ParseCommitMetadata` reads such a text. The text is
written with the way its strings are written left open, and read whenever each of them reads as
some string, so that the results also hold for a text that someone else has changed.
-/

namespace DoltSwarm.Core

set_option autoImplicit false

open Lib.Json (Value Token Mode Body)

/-- How a `time.Time` stands in JSON, without its quotes, and what is read from such a text. -/
structure DateText where
  format : Int → List Char
  parse : List Char → Option Int
  zero : Int
  plain : ∀ date, ∀ c ∈ format date, Lib.Json.mustEscape c = false
  accepted : ∀ date, (parse (format date)).isSome = true

section Marshal

def decimal (i : Int) : List Char := i.repr.toList

def memberHead (key : List Char) : List Char := [',', '"'] ++ (key ++ ['"', ':', '"'])

def memberText (key body : List Char) : List Char := memberHead key ++ (body ++ ['"'])

/-- With `omitempty`. -/
def optionalText (key : List Char) (s : String) (body : List Char) : List Char :=
  if s = "" then [] else memberText key body

def hlcHead (h : HLCTimestamp) : List Char :=
  [',', '"', 'h', 'l', 'c', '"', ':', '\x7b', '"', 'w', '"', ':'] ++
    ((decimal h.wall.toInt ++ [',']) ++ (['"', 'l', '"', ':'] ++
      ((decimal h.logical.toInt ++ [',']) ++ ['"', 'p', '"', ':', '"'])))

def hlcText (h : HLCTimestamp) (peerID : List Char) : List Char :=
  hlcHead h ++ (peerID ++ ['"', '\x7d'])

/-- The members after `msg` and `hlc`, and the end. -/
def tailText (time : DateText) (body : String → List Char) (m : CommitMetadata) : List Char :=
  optionalText ['c', 'o', 'n', 't', 'e', 'n', 't', '_', 'h', 'a', 's', 'h'] m.contentHash
      (body m.contentHash) ++
    (optionalText ['a', 'u', 't', 'h', 'o', 'r'] m.author (body m.author) ++
      (optionalText ['e', 'm', 'a', 'i', 'l'] m.email (body m.email) ++
        (memberText ['d', 'a', 't', 'e'] (time.format m.date) ++
          (optionalText ['s', 'i', 'g'] m.signature (body m.signature) ++ ['\x7d']))))

/-- The JSON text, with `body` for how a string is written between its quotes. -/
def metadataText (time : DateText) (body : String → List Char) (m : CommitMetadata) : List Char :=
  ['\x7b', '"', 'k', 'i', 'n', 'd', '"', ':', '"'] ++ ((body m.kind ++ ['"']) ++
    (memberText ['m', 's', 'g'] (body m.message) ++
      (hlcText m.hlc (body m.hlc.peerID) ++ tailText time body m)))

def encodeString (s : String) : List Char := Lib.Json.encodeText s.toList

def CommitMetadata.marshal (time : DateText) (m : CommitMetadata) : List Char :=
  metadataText time encodeString m

end Marshal

section Unmarshal

/-- Keys are compared without regard to case; two more letters count as `s` and `k`. -/
def foldChar (c : Char) : Char :=
  if c = Char.ofNat 0x17F then 's' else if c = Char.ofNat 0x212A then 'k' else c.toLower

def assignString (old : String) : Value → Option String
  | .string _ text => some (String.ofList text)
  | .null => some old
  | _ => none

/-- `strconv.ParseInt` on a JSON number. -/
def parseInt (raw : List Char) : Option Int :=
  match raw with
  | [] => none
  | c :: cs =>
    if c = '-' then
      if cs ≠ [] ∧ cs.all Char.isDigit then some (-(Nat.ofDigitChars 10 cs 0 : ℕ)) else none
    else if (c :: cs).all Char.isDigit then some (Nat.ofDigitChars 10 (c :: cs) 0 : ℕ)
    else none

def assignInt (bits : ℕ) (old : Int) : Value → Option Int
  | .number raw => (parseInt raw).filter fun i => -2 ^ (bits - 1) ≤ i ∧ i < 2 ^ (bits - 1)
  | .null => some old
  | _ => none

def assignHLCMember (h : HLCTimestamp) (member : List Char × Value) : Option HLCTimestamp :=
  let name := member.1.map foldChar
  if name = ['w'] then
    (assignInt 64 h.wall.toInt member.2).map fun w => { h with wall := Int64.ofInt w }
  else if name = ['l'] then
    (assignInt 32 h.logical.toInt member.2).map fun l => { h with logical := Int32.ofInt l }
  else if name = ['p'] then
    (assignString h.peerID member.2).map fun p => { h with peerID := p }
  else some h

def assignHLC (old : HLCTimestamp) : Value → Option HLCTimestamp
  | .object members => members.foldlM assignHLCMember old
  | .null => some old
  | _ => none

/-- `Time.UnmarshalJSON` looks at the text as it is written. -/
def assignDate (time : DateText) (old : Int) : Value → Option Int
  | .string raw _ => time.parse raw
  | .null => some old
  | _ => none

/-- Unknown members are skipped, and a later member overwrites an earlier one. -/
def assignMember (time : DateText) (m : CommitMetadata) (member : List Char × Value) :
    Option CommitMetadata :=
  let name := member.1.map foldChar
  if name = ['k', 'i', 'n', 'd'] then
    (assignString m.kind member.2).map fun s => { m with kind := s }
  else if name = ['m', 's', 'g'] then
    (assignString m.message member.2).map fun s => { m with message := s }
  else if name = ['h', 'l', 'c'] then
    (assignHLC m.hlc member.2).map fun h => { m with hlc := h }
  else if name = ['c', 'o', 'n', 't', 'e', 'n', 't', '_', 'h', 'a', 's', 'h'] then
    (assignString m.contentHash member.2).map fun s => { m with contentHash := s }
  else if name = ['a', 'u', 't', 'h', 'o', 'r'] then
    (assignString m.author member.2).map fun s => { m with author := s }
  else if name = ['e', 'm', 'a', 'i', 'l'] then
    (assignString m.email member.2).map fun s => { m with email := s }
  else if name = ['d', 'a', 't', 'e'] then
    (assignDate time m.date member.2).map fun d => { m with date := d }
  else if name = ['s', 'i', 'g'] then
    (assignString m.signature member.2).map fun s => { m with signature := s }
  else some m

/-- `json.Unmarshal` into fresh metadata; `none` is an error. -/
def unmarshal (time : DateText) : Value → Option CommitMetadata
  | .object members =>
    members.foldlM (assignMember time) ⟨"", "", .zero, "", "", "", time.zero, ""⟩
  | .null => some ⟨"", "", .zero, "", "", "", time.zero, ""⟩
  | _ => none

/-- `ParseCommitMetadata` on the text of a commit message. -/
def parseMetadataText (time : DateText) (text : List Char) : Option CommitMetadata :=
  ((Lib.Json.parse text).bind (unmarshal time)).filter fun m => m.kind = commitKindUser

/-- The message a text is for the rest of the model. -/
def CommitMessage.ofText (time : DateText) (text : List Char) : CommitMessage :=
  match (Lib.Json.parse text).bind (unmarshal time) with
  | some m => .json m
  | none => .text (String.ofList text)

theorem parseCommitMetadata_ofText (time : DateText) (text : List Char) :
    parseCommitMetadata (.ofText time text) = parseMetadataText time text := by
  unfold CommitMessage.ofText parseMetadataText
  cases (Lib.Json.parse text).bind (unmarshal time) with
  | none => rfl
  | some m => simp [parseCommitMetadata, Option.filter_some]

end Unmarshal

section Numbers

theorem decimal_eq (i : Int) :
    decimal i = if 0 ≤ i then Nat.toDigits 10 i.toNat else '-' :: Nat.toDigits 10 (-i).toNat := by
  rw [decimal, Int.repr_eq_if]
  split_ifs
  · rw [Nat.repr_eq_ofList_toDigits, String.toList_ofList]
  · rw [String.toList_append, Nat.repr_eq_ofList_toDigits]
    simp

theorem isDigit_toDigits (n : ℕ) : ∀ c ∈ Nat.toDigits 10 n, c.isDigit = true := fun _ hc =>
  Nat.isDigit_of_mem_toDigits (by decide) (by decide) hc

theorem toDigits_ne_nil (n : ℕ) : Nat.toDigits 10 n ≠ [] := by
  rw [Nat.toDigits_eq_if (by decide)]
  split <;> simp

theorem toDigits_cases (n : ℕ) :
    Nat.toDigits 10 n = ['0'] ∨ ∃ c cs, Nat.toDigits 10 n = c :: cs ∧ c ≠ '0' := by
  induction n using Nat.strong_induction_on with
  | _ n ih =>
    rw [Nat.toDigits_eq_if (by decide)]
    split
    · next hlt =>
      by_cases hzero : n = 0
      · left
        rw [hzero]
        rfl
      · right
        have hdigit : ∀ k < 10, k ≠ 0 → Nat.digitChar k ≠ '0' := by decide
        exact ⟨_, _, rfl, hdigit n hlt hzero⟩
    · next hge =>
      right
      rcases ih (n / 10) (by omega) with hzero | ⟨c, cs, hcs, hc⟩
      · have hvalue : Nat.ofDigitChars 10 (Nat.toDigits 10 (n / 10)) 0 = n / 10 :=
          Nat.ofDigitChars_ten_toDigits
        rw [hzero] at hvalue
        have hnone : Nat.ofDigitChars 10 ['0'] 0 = 0 := by decide
        omega
      · rw [hcs]
        exact ⟨c, _, rfl, hc⟩

theorem dropWhile_isDigit {cs : List Char} (h : ∀ c ∈ cs, c.isDigit = true) :
    cs.dropWhile Char.isDigit = [] := by
  rw [List.dropWhile_eq_nil_iff]
  exact h

theorem integerPart_digits (n : ℕ) : ∀ cs, cs = Nat.toDigits 10 n ∨ cs = '-' :: Nat.toDigits 10 n →
    Lib.Json.integerPart cs = some [] := by
  have hdigits := isDigit_toDigits n
  have hrest : ∀ c cs, Nat.toDigits 10 n = c :: cs →
      (if c = '0' then some cs else if c.isDigit then some (cs.dropWhile Char.isDigit) else none) =
        some [] := by
    intro c cs hcs
    rw [hcs, List.forall_mem_cons] at hdigits
    split_ifs with hzero
    · rcases toDigits_cases n with hone | ⟨c', cs', hcs', hne⟩
      · rw [hcs] at hone
        rw [(List.cons.inj hone).2]
      · rw [hcs] at hcs'
        exact absurd hzero ((List.cons.inj hcs').1 ▸ hne)
    · rw [dropWhile_isDigit hdigits.2]
    · exact absurd hdigits.1 (by assumption)
  obtain ⟨c, cs, hcs⟩ := List.exists_cons_of_ne_nil (toDigits_ne_nil n)
  rintro _ (rfl | rfl)
  · have hminus : c ≠ '-' := by
      rintro rfl
      exact absurd (hdigits '-' (hcs ▸ List.mem_cons_self)) (by decide)
    rw [hcs, Lib.Json.integerPart]
    simpa [hminus] using hrest c cs hcs
  · rw [hcs, Lib.Json.integerPart]
    simpa using hrest c cs hcs

theorem isNumber_decimal (i : Int) : Lib.Json.isNumber (decimal i) = true := by
  have hpart : Lib.Json.integerPart (decimal i) = some [] := by
    rw [decimal_eq]
    split_ifs
    · exact integerPart_digits _ _ (Or.inl rfl)
    · exact integerPart_digits _ _ (Or.inr rfl)
  rw [Lib.Json.isNumber, hpart]
  decide

theorem parseInt_decimal (i : Int) : parseInt (decimal i) = some i := by
  rw [decimal_eq]
  split_ifs with hsign
  · obtain ⟨c, cs, hcs⟩ := List.exists_cons_of_ne_nil (toDigits_ne_nil i.toNat)
    have hdigits := isDigit_toDigits i.toNat
    have hv : Nat.ofDigitChars 10 (Nat.toDigits 10 i.toNat) 0 = i.toNat :=
      Nat.ofDigitChars_ten_toDigits
    rw [hcs] at hdigits hv ⊢
    have hminus : c ≠ '-' := by
      rintro rfl
      exact absurd (hdigits '-' List.mem_cons_self) (by decide)
    have hall : (c :: cs).all Char.isDigit = true := List.all_eq_true.mpr hdigits
    simp only [parseInt, hminus, if_false, hall, if_true, hv]
    rw [Int.toNat_of_nonneg hsign]
  · have hall : (Nat.toDigits 10 (-i).toNat).all Char.isDigit = true :=
      List.all_eq_true.mpr (isDigit_toDigits _)
    simp only [parseInt, if_true, ne_eq, toDigits_ne_nil, not_false_eq_true, hall, and_self,
      Nat.ofDigitChars_ten_toDigits]
    rw [Int.toNat_of_nonneg (by omega), neg_neg]

theorem not_delimiter_of_isDigit {c : Char} (hc : c.isDigit = true) :
    Lib.Json.isDelimiter c = false := by
  have hsmall : c.toNat < 58 := by
    simp only [Char.isDigit, Bool.and_eq_true, decide_eq_true_eq] at hc
    have hle : c.toNat ≤ 57 := hc.2
    omega
  have hall : ∀ n < 58, (Char.ofNat n).isDigit = true →
      Lib.Json.isDelimiter (Char.ofNat n) = false := by decide
  have h := hall c.toNat hsmall
  rw [Char.ofNat_toNat] at h
  exact h hc

theorem not_delimiter_decimal (i : Int) : ∀ c ∈ decimal i, Lib.Json.isDelimiter c = false := by
  intro c hc
  rw [decimal_eq] at hc
  split_ifs at hc
  · exact not_delimiter_of_isDigit (isDigit_toDigits _ c hc)
  · rcases List.mem_cons.mp hc with rfl | hc
    · decide
    · exact not_delimiter_of_isDigit (isDigit_toDigits _ c hc)

theorem decimal_ne_nil (i : Int) : decimal i ≠ [] := by
  rw [decimal_eq]
  split_ifs
  · exact toDigits_ne_nil _
  · simp

theorem slash_not_mem_decimal (i : Int) : '\\' ∉ decimal i := by
  intro h
  rw [decimal_eq] at h
  split_ifs at h
  · exact absurd (isDigit_toDigits _ _ h) (by decide)
  · rcases List.mem_cons.mp h with h | h
    · exact absurd h (by decide)
    · exact absurd (isDigit_toDigits _ _ h) (by decide)

theorem wordToken_decimal (i : Int) :
    Lib.Json.wordToken (decimal i) = some (.number (decimal i)) := by
  have hnumber := isNumber_decimal i
  have hword : ∀ w, Lib.Json.isNumber w = false → decimal i ≠ w := by
    rintro _ hw rfl
    rw [hnumber] at hw
    cases hw
  rw [Lib.Json.wordToken, if_neg (hword _ (by decide)), if_neg (hword _ (by decide)),
    if_neg (hword _ (by decide)), if_pos hnumber]

theorem reads_decimal (i : Int) :
    Lib.Json.reads .outside (decimal i ++ [',']) =
      some ([.number (decimal i), .comma], .outside) := by
  rw [Lib.Json.reads_word_delimiter (decimal_ne_nil i) (not_delimiter_decimal i) (by decide),
    wordToken_decimal]
  rfl

end Numbers

section Reading

variable {body rest : List Char} {b : Body}

def ReadsAs (body : List Char) (b : Body) : Prop :=
  Lib.Json.reads (.inside .empty) body = some ([], .inside b)

theorem readsAs_plain {cs : List Char} (h : ∀ c ∈ cs, Lib.Json.mustEscape c = false) :
    ReadsAs cs ⟨cs, cs, none⟩ :=
  Lib.Json.reads_plain (b := .empty) rfl h

theorem reads_memberHead {key : List Char} (hkey : key.any Lib.Json.mustEscape = false) :
    Lib.Json.reads .outside (memberHead key) =
      some ([.comma, .string key key, .colon], .inside .empty) := by
  have hopen : Lib.Json.reads .outside [',', '"'] = some ([.comma], .inside .empty) := rfl
  have hplain : ∀ c ∈ key, Lib.Json.mustEscape c = false := fun c hc => by
    simpa using List.any_eq_false.mp hkey c hc
  rw [memberHead, Lib.Json.reads_append_of_eq hopen,
    Lib.Json.reads_append_of_eq (readsAs_plain hplain)]
  rfl

theorem reads_hlcHead (h : HLCTimestamp) :
    Lib.Json.reads .outside (hlcHead h) =
      some ([.comma, .string ['h', 'l', 'c'] ['h', 'l', 'c'], .colon, .openBrace,
        .string ['w'] ['w'], .colon, .number (decimal h.wall.toInt), .comma,
        .string ['l'] ['l'], .colon, .number (decimal h.logical.toInt), .comma,
        .string ['p'] ['p'], .colon], .inside .empty) := by
  have hopen : Lib.Json.reads .outside
      [',', '"', 'h', 'l', 'c', '"', ':', '\x7b', '"', 'w', '"', ':'] =
        some ([.comma, .string ['h', 'l', 'c'] ['h', 'l', 'c'], .colon, .openBrace,
          .string ['w'] ['w'], .colon], .outside) := rfl
  have hmiddle : Lib.Json.reads .outside ['"', 'l', '"', ':'] =
      some ([.string ['l'] ['l'], .colon], .outside) := rfl
  rw [hlcHead, Lib.Json.reads_append_of_eq hopen, Lib.Json.reads_append_of_eq (reads_decimal _),
    Lib.Json.reads_append_of_eq hmiddle, Lib.Json.reads_append_of_eq (reads_decimal _)]
  rfl

/-- A text that adds these members to the object that is being read. -/
structure Adds (text : List Char) (members : List (List Char × Value)) : Prop where
  adds : ∃ ts, Lib.Json.reads .outside text = some (ts, .outside) ∧ ∀ ms key, ∃ key',
    ts.foldlM Lib.Json.next (.within [.object ms key] .more) =
      some (.within [.object (ms ++ members) key'] .more)

/-- A text that adds these members and ends the object. -/
structure Ends (text : List Char) (members : List (List Char × Value)) : Prop where
  ends : ∃ ts, Lib.Json.reads .outside text = some (ts, .outside) ∧ ∀ ms key,
    ts.foldlM Lib.Json.next (.within [.object ms key] .more) =
      some (.done (.object (ms ++ members)))

theorem ends_brace : Ends ['\x7d'] [] :=
  ⟨[.closeBrace], rfl, fun ms _ => by rw [List.append_nil]; rfl⟩

theorem adds_nil : Adds [] [] := ⟨[], rfl, fun ms key => ⟨key, by rw [List.append_nil]; rfl⟩⟩

theorem Adds.ends {xs ys : List Char} {ms ns : List (List Char × Value)} (hx : Adds xs ms)
    (hy : Ends ys ns) : Ends (xs ++ ys) (ms ++ ns) := by
  obtain ⟨ts, hreads, hfold⟩ := hx.adds
  obtain ⟨us, hreads', hfold'⟩ := hy.ends
  refine ⟨ts ++ us, by rw [Lib.Json.reads_append_of_eq hreads, hreads']; rfl, fun ls key => ?_⟩
  obtain ⟨key', hkey⟩ := hfold ls key
  rw [List.foldlM_append, hkey, ← List.append_assoc]
  exact hfold' _ _

theorem adds_memberText {key : List Char} (hkey : key.any Lib.Json.mustEscape = false)
    (hbody : ReadsAs body b) : Adds (memberText key body) [(key, .string b.raw b.closed)] := by
  refine ⟨[.comma, .string key key, .colon, .string b.raw b.closed], ?_, fun _ _ => ⟨[], rfl⟩⟩
  rw [memberText, Lib.Json.reads_append_of_eq (reads_memberHead hkey),
    Lib.Json.reads_append_of_eq hbody]
  rfl

theorem adds_optionalText {key : List Char} (hkey : key.any Lib.Json.mustEscape = false)
    (s : String) (hbody : ReadsAs body b) :
    Adds (optionalText key s body) (if s = "" then [] else [(key, .string b.raw b.closed)]) := by
  unfold optionalText
  split_ifs
  · exact adds_nil
  · exact adds_memberText hkey hbody

def hlcMember (h : HLCTimestamp) (b : Body) : List Char × Value :=
  (['h', 'l', 'c'], .object [(['w'], .number (decimal h.wall.toInt)),
    (['l'], .number (decimal h.logical.toInt)), (['p'], .string b.raw b.closed)])

theorem adds_hlcText (h : HLCTimestamp) (hbody : ReadsAs body b) :
    Adds (hlcText h body) [hlcMember h b] := by
  refine ⟨[.comma, .string ['h', 'l', 'c'] ['h', 'l', 'c'], .colon, .openBrace,
    .string ['w'] ['w'], .colon, .number (decimal h.wall.toInt), .comma, .string ['l'] ['l'],
    .colon, .number (decimal h.logical.toInt), .comma, .string ['p'] ['p'], .colon,
    .string b.raw b.closed, .closeBrace], ?_, fun _ _ => ⟨[], rfl⟩⟩
  rw [hlcText, Lib.Json.reads_append_of_eq (reads_hlcHead h), Lib.Json.reads_append_of_eq hbody]
  rfl

def CommitMetadata.strings (m : CommitMetadata) : List String :=
  [m.kind, m.message, m.hlc.peerID, m.contentHash, m.author, m.email, m.signature]

variable {time : DateText} {write : String → List Char} {bodies : String → Body}
  {m : CommitMetadata}

def tailMembers (time : DateText) (bodies : String → Body) (m : CommitMetadata) :
    List (List Char × Value) :=
  let string := fun (key : List Char) (s : String) =>
    if s = "" then [] else [(key, Value.string (bodies s).raw (bodies s).closed)]
  string ['c', 'o', 'n', 't', 'e', 'n', 't', '_', 'h', 'a', 's', 'h'] m.contentHash ++
    (string ['a', 'u', 't', 'h', 'o', 'r'] m.author ++
      (string ['e', 'm', 'a', 'i', 'l'] m.email ++
        ([(['d', 'a', 't', 'e'], .string (time.format m.date) (time.format m.date))] ++
          (string ['s', 'i', 'g'] m.signature ++ []))))

theorem ends_tailText (h : ∀ s ∈ m.strings, ReadsAs (write s) (bodies s)) :
    Ends (tailText time write m) (tailMembers time bodies m) := by
  simp only [CommitMetadata.strings, List.forall_mem_cons] at h
  obtain ⟨-, -, -, hcontent, hauthor, hemail, hsig, -⟩ := h
  exact (adds_optionalText rfl _ hcontent).ends <|
    (adds_optionalText rfl _ hauthor).ends <|
    (adds_optionalText rfl _ hemail).ends <|
    (adds_memberText rfl (readsAs_plain (time.plain m.date))).ends <|
    (adds_optionalText rfl _ hsig).ends ends_brace

theorem parse_metadataText (h : ∀ s ∈ m.strings, ReadsAs (write s) (bodies s)) :
    Lib.Json.parse (metadataText time write m) =
      some (.object ((['k', 'i', 'n', 'd'],
          .string (bodies m.kind).raw (bodies m.kind).closed) ::
        (['m', 's', 'g'], .string (bodies m.message).raw (bodies m.message).closed) ::
        hlcMember m.hlc (bodies m.hlc.peerID) :: tailMembers time bodies m)) := by
  have htail : Ends (tailText time write m) _ := ends_tailText h
  simp only [CommitMetadata.strings, List.forall_mem_cons] at h
  obtain ⟨hkind, hmsg, hpeer, -⟩ := h
  have hends : Ends (memberText ['m', 's', 'g'] (write m.message) ++
      (hlcText m.hlc (write m.hlc.peerID) ++ tailText time write m)) _ :=
    (adds_memberText rfl hmsg).ends ((adds_hlcText m.hlc hpeer).ends htail)
  obtain ⟨ts, hreads, hfold⟩ := hends.ends
  have hopen : Lib.Json.reads .outside ['\x7b', '"', 'k', 'i', 'n', 'd', '"', ':', '"'] =
      some ([.openBrace, .string ['k', 'i', 'n', 'd'] ['k', 'i', 'n', 'd'], .colon],
        .inside .empty) := rfl
  have hfirst : Lib.Json.reads (.inside .empty) (write m.kind ++ ['"']) =
      some ([.string (bodies m.kind).raw (bodies m.kind).closed], .outside) := by
    rw [Lib.Json.reads_append_of_eq hkind]
    rfl
  have htokens : Lib.Json.tokens (metadataText time write m) =
      some ([.openBrace, .string ['k', 'i', 'n', 'd'] ['k', 'i', 'n', 'd'], .colon,
        .string (bodies m.kind).raw (bodies m.kind).closed] ++ ts) := by
    rw [Lib.Json.tokens, Lib.Json.scan, metadataText, Lib.Json.reads_append_of_eq hopen,
      Lib.Json.reads_append_of_eq hfirst, hreads]
    simp [Lib.Json.finish]
  rw [Lib.Json.parse, htokens, Option.bind_some, List.foldlM_append]
  have hstart : List.foldlM Lib.Json.next (.within [] .value)
      [.openBrace, .string ['k', 'i', 'n', 'd'] ['k', 'i', 'n', 'd'], .colon,
        .string (bodies m.kind).raw (bodies m.kind).closed] =
      some (.within [.object [(['k', 'i', 'n', 'd'],
        .string (bodies m.kind).raw (bodies m.kind).closed)] []] .more) := rfl
  rw [hstart, Option.bind_eq_bind, Option.bind_some, hfold]
  rfl

end Reading

section Assigning

variable {time : DateText} {write : String → List Char} {bodies : String → Body}
  {m : CommitMetadata}

theorem assignHLC_hlcMember (old h : HLCTimestamp) (b : Body) :
    assignHLC old (hlcMember h b).2 = some { h with peerID := String.ofList b.closed } := by
  have hwall : assignInt 64 old.wall.toInt (.number (decimal h.wall.toInt)) =
      some h.wall.toInt := by
    rw [assignInt, parseInt_decimal, Option.filter_some, if_pos]
    exact decide_eq_true ⟨h.wall.le_toInt, h.wall.toInt_lt⟩
  have hlogical : assignInt 32 old.logical.toInt (.number (decimal h.logical.toInt)) =
      some h.logical.toInt := by
    rw [assignInt, parseInt_decimal, Option.filter_some, if_pos]
    exact decide_eq_true ⟨h.logical.le_toInt, h.logical.toInt_lt⟩
  have hw : assignHLCMember old (['w'], .number (decimal h.wall.toInt)) =
      some { old with wall := h.wall } := by
    change (assignInt 64 _ _).map _ = _
    rw [hwall, Option.map_some, Int64.ofInt_toInt]
  have hl : assignHLCMember { old with wall := h.wall } (['l'], .number (decimal h.logical.toInt)) =
      some { old with wall := h.wall, logical := h.logical } := by
    change (assignInt 32 _ _).map _ = _
    rw [hlogical, Option.map_some, Int32.ofInt_toInt]
  change List.foldlM assignHLCMember old [_, _, _] = _
  rw [List.foldlM_cons, hw, Option.bind_eq_bind, Option.bind_some, List.foldlM_cons, hl]
  rfl

theorem assign_hlc (old : CommitMetadata) (h : HLCTimestamp) (b : Body)
    (rest : List (List Char × Value)) :
    List.foldlM (assignMember time) old (hlcMember h b :: rest) =
      List.foldlM (assignMember time)
        { old with hlc := { h with peerID := String.ofList b.closed } } rest := by
  have hmember : assignMember time old (hlcMember h b) =
      some { old with hlc := { h with peerID := String.ofList b.closed } } := by
    change (assignHLC _ _).map _ = _
    rw [assignHLC_hlcMember]
    rfl
  rw [List.foldlM_cons, hmember]
  rfl

theorem assign_date (old : CommitMetadata) (date : List Char) (rest : List (List Char × Value)) :
    List.foldlM (assignMember time) old ((['d', 'a', 't', 'e'], .string date date) :: rest) =
      (time.parse date).bind fun d =>
        List.foldlM (assignMember time) { old with date := d } rest := by
  have hmember : assignMember time old (['d', 'a', 't', 'e'], .string date date) =
      (time.parse date).map fun d => { old with date := d } := rfl
  rw [List.foldlM_cons, hmember, Option.bind_eq_bind, Option.bind_map]
  rfl

theorem assign_string {key : List Char} (set : CommitMetadata → String → CommitMetadata)
    (hset : ∀ m raw text,
      assignMember time m (key, .string raw text) = some (set m (String.ofList text)))
    (old : CommitMetadata) (b : Body) (rest : List (List Char × Value)) :
    List.foldlM (assignMember time) old ((key, .string b.raw b.closed) :: rest) =
      List.foldlM (assignMember time) (set old (String.ofList b.closed)) rest := by
  rw [List.foldlM_cons, hset]
  rfl

theorem assign_optional {key : List Char} (set : CommitMetadata → String → CommitMetadata)
    (hset : ∀ m raw text,
      assignMember time m (key, .string raw text) = some (set m (String.ofList text)))
    {old : CommitMetadata} (hold : set old "" = old) {s : String}
    (hs : s = "" → (bodies s).closed = []) (rest : List (List Char × Value)) :
    List.foldlM (assignMember time) old ((if s = "" then [] else
        [(key, Value.string (bodies s).raw (bodies s).closed)]) ++ rest) =
      List.foldlM (assignMember time) (set old (String.ofList (bodies s).closed)) rest := by
  split_ifs with h
  · rw [hs h]
    change _ = List.foldlM (assignMember time) (set old "") rest
    rw [hold]
    rfl
  · rw [List.cons_append, List.nil_append, assign_string set hset]

/-- The metadata with each string as its text reads and the date as given. -/
def readMetadata (bodies : String → Body) (m : CommitMetadata) (date : Int) : CommitMetadata :=
  let string := fun s => String.ofList (bodies s).closed
  { kind := string m.kind, message := string m.message,
    hlc := { m.hlc with peerID := string m.hlc.peerID }, contentHash := string m.contentHash,
    author := string m.author, email := string m.email, date := date,
    signature := string m.signature }

theorem unmarshal_metadataText (hempty : write "" = [])
    (h : ∀ s ∈ m.strings, ReadsAs (write s) (bodies s)) :
    (Lib.Json.parse (metadataText time write m)).bind (unmarshal time) =
      (time.parse (time.format m.date)).map (readMetadata bodies m) := by
  have hnil : ∀ s ∈ m.strings, s = "" → (bodies s).closed = [] := by
    rintro s hs rfl
    have hread := h "" hs
    rw [hempty] at hread
    obtain ⟨-, hmode⟩ := Prod.mk.inj (Option.some.inj hread)
    rw [← Mode.inside.inj hmode]
    rfl
  rw [parse_metadataText h, Option.bind_some]
  simp only [CommitMetadata.strings, List.forall_mem_cons] at hnil
  obtain ⟨-, -, -, hcontent, hauthor, hemail, hsig, -⟩ := hnil
  rw [unmarshal, assign_string (fun m s => { m with kind := s }) (fun _ _ _ => rfl),
    assign_string (fun m s => { m with message := s }) (fun _ _ _ => rfl), assign_hlc, tailMembers,
    assign_optional (fun m s => { m with contentHash := s }) (fun _ _ _ => rfl) rfl hcontent,
    assign_optional (fun m s => { m with author := s }) (fun _ _ _ => rfl) rfl hauthor,
    assign_optional (fun m s => { m with email := s }) (fun _ _ _ => rfl) rfl hemail,
    List.singleton_append, assign_date]
  cases time.parse (time.format m.date) with
  | none => rfl
  | some date =>
    rw [Option.bind_some,
      assign_optional (fun m s => { m with signature := s }) (fun _ _ _ => rfl) rfl hsig]
    rfl

def encodedBody (s : String) : Body := Body.empty.extend (encodeString s) s.toList

theorem readsAs_encodeString (s : String) : ReadsAs (encodeString s) (encodedBody s) :=
  Lib.Json.reads_encodeText (b := .empty) rfl s.toList

theorem readMetadata_encodedBody (m : CommitMetadata) (date : Int) :
    readMetadata encodedBody m date = { m with date := date } := by
  have hstring : ∀ s, String.ofList (encodedBody s).closed = s := fun s => String.ofList_toList
  simp only [readMetadata, hstring]

theorem parseMetadataText_marshal (time : DateText) (hkind : m.kind = commitKindUser) :
    ∃ date, parseMetadataText time (m.marshal time) = some { m with date := date } := by
  obtain ⟨date, hdate⟩ := Option.isSome_iff_exists.mp (time.accepted m.date)
  refine ⟨date, ?_⟩
  rw [parseMetadataText, CommitMetadata.marshal,
    unmarshal_metadataText rfl fun s _ => readsAs_encodeString s, hdate, Option.map_some,
    readMetadata_encodedBody, Option.filter_some, if_pos (decide_eq_true hkind)]

end Assigning

end DoltSwarm.Core
