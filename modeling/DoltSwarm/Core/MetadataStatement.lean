import DoltSwarm.Core.MetadataText
import DoltSwarm.Lib.SqlLiteral

/-!
# Commit metadata in an SQL statement (core/commit_sql_helpers.go)

`doCommitWithMetadata` puts the JSON text of the metadata into an SQL statement with its quotes
doubled. The SQL engine takes the backslashes of the JSON text for its own, so the text comes
back without them, and what is read from it can only be the same if there were none: it takes
a backslash to write a quote, a backslash or a control character, and what is left of any other
escape is longer than the character it stood for. Author and email go into the statement as they
are, so a single quote in them that has no other one beside it ends their literal, and the
statement is not the call that was meant.
-/

namespace DoltSwarm.Core

set_option autoImplicit false

open Lib.Json (Value Token Mode Body)
open Lib.SqlLiteral (paired meaning arguments evenQuotes)

section Statement

def escapeSQL (s : List Char) : List Char := Lib.SqlLiteral.doubled s

/-- The `DOLT_COMMIT` statement from the author on. -/
def afterAuthorFlag (time : DateText) (m : CommitMetadata) : List Char :=
  m.author.toList ++ " <".toList ++ m.email.toList ++
    (">', '--date', '".toList ++ time.format m.date ++ "');".toList)

/-- The statement of `doCommitWithMetadata`: only the message is escaped. -/
def commitStatement (time : DateText) (m : CommitMetadata) : List Char :=
  "CALL DOLT_COMMIT('".toList ++ ("-A', '-m', '".toList ++ (escapeSQL (m.marshal time) ++
    ("', '--author', '".toList ++ afterAuthorFlag time m)))

/-- The message in a statement that is the call with these seven literals. -/
def calledMessage (statement : List Char) : Option (List Char) :=
  match (statement.dropPrefix? "CALL DOLT_COMMIT('".toList).bind arguments with
  | some [all, flag, msg, author, _, date, _] =>
    if all = "-A".toList ∧ flag = "-m".toList ∧ author = "--author".toList ∧
        date = "--date".toList then some msg
    else none
  | _ => none

/-- The engine stores the message of such a call. What it makes of any other statement is left
open. -/
def ReadsCalls (dolt : List Char → Option (List Char)) : Prop :=
  ∀ statement msg, calledMessage statement = some msg → dolt statement = some msg

def storedMessage (dolt : List Char → Option (List Char)) (time : DateText) (m : CommitMetadata) :
    Option (List Char) :=
  dolt (commitStatement time m)

/-- What is stored is read like the text it was made from. -/
def Survives (dolt : List Char → Option (List Char)) (time : DateText) (m : CommitMetadata) :
    Prop :=
  ∃ stored, storedMessage dolt time m = some stored ∧
    parseMetadataText time stored = parseMetadataText time (m.marshal time)

end Statement

section Stored

variable {time : DateText} {m : CommitMetadata}

structure ComesBack (xs ys : List Char) : Prop where
  paired : paired xs = true
  meaning : meaning xs = ys

theorem ComesBack.append {xs ys xs' ys' : List Char} (h : ComesBack xs ys)
    (h' : ComesBack xs' ys') : ComesBack (xs ++ xs') (ys ++ ys') := by
  constructor
  · rw [Lib.SqlLiteral.paired_append h.paired, h'.paired]
  · rw [Lib.SqlLiteral.meaning_append h.paired, h.meaning, h'.meaning]

theorem comesBack_of_not_mem {xs : List Char} (h : '\\' ∉ xs) : ComesBack xs xs :=
  ⟨Lib.SqlLiteral.paired_of_not_mem h, Lib.SqlLiteral.meaning_of_not_mem h⟩

def storedChar (c : Char) : List Char := meaning (Lib.Json.encodeChar c)

def storedString (s : String) : List Char := s.toList.flatMap storedChar

/-- What the text `ys` that is left of the encoded character `xs` keeps of the character. -/
structure Remains (c : Char) (xs ys : List Char) : Prop where
  paired : paired xs = true
  slashes : ys.count '\\' = [c].count '\\'
  quotes : '"' ∈ ys → c = '"'
  gauge : Lib.Json.gauge ys = Lib.Json.gauge [c]
  length : Lib.Json.mustEscape c = false → ys.length = 1 + 4 * xs.count '\\'

theorem remains_plain {c : Char} (hc : Lib.Json.mustEscape c = false) :
    Remains c [c] (meaning [c]) := by
  have hslash : c ≠ '\\' := by
    rintro rfl
    cases hc
  rw [Lib.SqlLiteral.meaning_cons hslash]
  refine ⟨Lib.SqlLiteral.paired_cons hslash [], rfl, fun h => ?_, rfl, fun _ => ?_⟩
  · exact (List.mem_singleton.mp h).symm
  · simp [hslash, meaning]

theorem remains_unit {c d₁ d₂ d₃ d₄ : Char} (hslash : c ≠ '\\') (hu : c ≠ 'u')
    (hd : ∀ d ∈ [d₁, d₂, d₃, d₄], (Lib.Json.hexDigit? d).isSome) :
    Remains c ['\\', 'u', d₁, d₂, d₃, d₄] (meaning ['\\', 'u', d₁, d₂, d₃, d₄]) := by
  have hslashes : '\\' ∉ [d₁, d₂, d₃, d₄] := fun h => absurd (hd _ h) (by decide)
  have hquotes : '"' ∉ [d₁, d₂, d₃, d₄] := fun h => absurd (hd _ h) (by decide)
  have hus : 'u' ∉ [d₁, d₂, d₃, d₄] := fun h => absurd (hd _ h) (by decide)
  have hmeaning : meaning ['\\', 'u', d₁, d₂, d₃, d₄] = 'u' :: [d₁, d₂, d₃, d₄] := by
    rw [Lib.SqlLiteral.meaning_slash, Lib.SqlLiteral.meaning_of_not_mem hslashes]
    rfl
  rw [hmeaning]
  refine ⟨?_, ?_, fun h => ?_, ?_, fun _ => ?_⟩
  · rw [Lib.SqlLiteral.paired_slash, Lib.SqlLiteral.paired_of_not_mem hslashes]
    rfl
  · rw [List.count_cons_of_ne (by decide), List.count_eq_zero.mpr hslashes,
      List.count_eq_zero.mpr (by simpa using Ne.symm hslash)]
  · rcases List.mem_cons.mp h with h | h
    · exact absurd h (by decide)
    · exact absurd h hquotes
  · rw [Lib.Json.gauge_singleton hu, Lib.Json.gauge, List.count_cons_self,
      List.count_eq_zero.mpr hus]
    rfl
  · rw [List.count_cons_self, List.count_cons_of_ne (by decide), List.count_eq_zero.mpr hslashes]
    rfl

theorem remains_encodeChar (c : Char) : Remains c (Lib.Json.encodeChar c) (storedChar c) := by
  have h := Lib.Json.encoded_encodeChar c
  unfold storedChar
  generalize Lib.Json.encodeChar c = xs at h ⊢
  cases h with
  | plain hc => exact remains_plain (Lib.Json.mustEscape_of_htmlSafe hc)
  | short e he =>
    simp only [Lib.Json.shortEscapes, List.mem_cons, List.not_mem_nil, or_false,
      Prod.mk.injEq] at he
    rcases he with ⟨rfl, rfl⟩ | ⟨rfl, rfl⟩ | ⟨rfl, rfl⟩ | ⟨rfl, rfl⟩ | ⟨rfl, rfl⟩ | ⟨rfl, rfl⟩ |
      ⟨rfl, rfl⟩ <;> exact ⟨rfl, rfl, by decide, rfl, by decide⟩
  | unit d₁ d₂ d₃ d₄ _ hslash hu _ hd => exact remains_unit hslash hu hd

theorem comesBack_encodeText (cs : List Char) :
    ComesBack (Lib.Json.encodeText cs) (cs.flatMap storedChar) := by
  induction cs with
  | nil => exact ⟨rfl, rfl⟩
  | cons c cs ih => exact ComesBack.append ⟨(remains_encodeChar c).paired, rfl⟩ ih

theorem comesBack_memberText {key xs ys : List Char} (hkey : '\\' ∉ memberHead key)
    (h : ComesBack xs ys) : ComesBack (memberText key xs) (memberText key ys) :=
  (comesBack_of_not_mem hkey).append (h.append (comesBack_of_not_mem (by decide)))

theorem comesBack_optionalText {key xs ys : List Char} (hkey : '\\' ∉ memberHead key) (s : String)
    (h : ComesBack xs ys) : ComesBack (optionalText key s xs) (optionalText key s ys) := by
  unfold optionalText
  split_ifs
  · exact ⟨rfl, rfl⟩
  · exact comesBack_memberText hkey h

theorem slash_not_mem_hlcHead (h : HLCTimestamp) : '\\' ∉ hlcHead h := by
  simp [hlcHead, slash_not_mem_decimal]

theorem slash_not_mem_format (time : DateText) (date : Int) : '\\' ∉ time.format date := fun h =>
  absurd (time.plain date _ h) (by decide)

theorem comesBack_marshal (time : DateText) (m : CommitMetadata) :
    ComesBack (m.marshal time) (metadataText time storedString m) := by
  have hstring : ∀ s, ComesBack (encodeString s) (storedString s) := fun s =>
    comesBack_encodeText s.toList
  have hdate : ComesBack (time.format m.date) (time.format m.date) :=
    comesBack_of_not_mem (slash_not_mem_format time m.date)
  have htail : ComesBack (tailText time encodeString m) (tailText time storedString m) :=
    (comesBack_optionalText (by decide) _ (hstring _)).append <|
    (comesBack_optionalText (by decide) _ (hstring _)).append <|
    (comesBack_optionalText (by decide) _ (hstring _)).append <|
    (comesBack_memberText (by decide) hdate).append <|
    (comesBack_optionalText (by decide) _ (hstring _)).append
    (comesBack_of_not_mem (by decide))
  have hhlc : ComesBack (hlcText m.hlc (encodeString m.hlc.peerID))
      (hlcText m.hlc (storedString m.hlc.peerID)) :=
    (comesBack_of_not_mem (slash_not_mem_hlcHead m.hlc)).append
      ((hstring _).append (comesBack_of_not_mem (by decide)))
  exact (comesBack_of_not_mem (by decide)).append <|
    ((hstring _).append (comesBack_of_not_mem (by decide))).append <|
    (comesBack_memberText (by decide) (hstring _)).append (hhlc.append htail)

theorem arguments_flags (rest : List Char) :
    arguments ("-A', '-m', '".toList ++ rest) =
      (arguments rest).map fun as => "-A".toList :: "-m".toList :: as := by
  have htext : "-A', '-m', '".toList ++ rest = "-A".toList ++ '\'' :: ',' :: ' ' :: '\'' ::
      ("-m".toList ++ '\'' :: ',' :: ' ' :: '\'' :: rest) := rfl
  have hall : '\'' ∉ "-A".toList ∧ '\\' ∉ "-A".toList := by decide
  have hmsg : '\'' ∉ "-m".toList ∧ '\\' ∉ "-m".toList := by decide
  generalize "-A".toList = all, "-m".toList = flag at htext hall hmsg ⊢
  rw [htext, Lib.SqlLiteral.arguments_next hall.1 hall.2,
    Lib.SqlLiteral.arguments_next hmsg.1 hmsg.2, Option.map_map, Function.comp_def]

theorem arguments_authorFlag (rest : List Char) :
    arguments ("', '--author', '".toList ++ rest) =
      (arguments rest).map fun as => [] :: "--author".toList :: as := by
  have htext : "', '--author', '".toList ++ rest = '\'' :: ',' :: ' ' :: '\'' ::
      ("--author".toList ++ '\'' :: ',' :: ' ' :: '\'' :: rest) := rfl
  have hflag : '\'' ∉ "--author".toList ∧ '\\' ∉ "--author".toList := by decide
  generalize "--author".toList = flag at htext hflag ⊢
  rw [htext, Lib.SqlLiteral.arguments_comma, Lib.SqlLiteral.arguments_next hflag.1 hflag.2,
    Option.map_map, Function.comp_def]

theorem arguments_date (hdate : '\'' ∉ time.format m.date) :
    arguments (">', '--date', '".toList ++ time.format m.date ++ "');".toList) =
      some [['>'], "--date".toList, time.format m.date] := by
  have htext : ">', '--date', '".toList ++ time.format m.date ++ "');".toList =
      ['>'] ++ '\'' :: ',' :: ' ' :: '\'' :: ("--date".toList ++ '\'' :: ',' :: ' ' :: '\'' ::
        (time.format m.date ++ ['\'', ')', ';'])) := rfl
  have hflag : '\'' ∉ "--date".toList ∧ '\\' ∉ "--date".toList := by decide
  generalize "--date".toList = flag at htext hflag ⊢
  rw [htext, Lib.SqlLiteral.arguments_next (by decide) (by decide),
    Lib.SqlLiteral.arguments_next hflag.1 hflag.2,
    Lib.SqlLiteral.arguments_last hdate (slash_not_mem_format time m.date)]
  rfl

theorem arguments_commitStatement (time : DateText) (m : CommitMetadata) :
    ((commitStatement time m).dropPrefix? "CALL DOLT_COMMIT('".toList).bind arguments =
      (arguments (afterAuthorFlag time m)).map fun as =>
        "-A".toList :: "-m".toList :: metadataText time storedString m :: "--author".toList ::
          as := by
  have hback := comesBack_marshal time m
  have hdrop : (commitStatement time m).dropPrefix? "CALL DOLT_COMMIT('".toList =
      some ("-A', '-m', '".toList ++ (escapeSQL (m.marshal time) ++
        ("', '--author', '".toList ++ afterAuthorFlag time m))) :=
    List.dropPrefix?_append_of_beq _ (beq_self_eq_true _)
  have hmessage := Lib.SqlLiteral.arguments_doubled hback.paired
    ("', '--author', '".toList ++ afterAuthorFlag time m)
  rw [hback.meaning, arguments_authorFlag, Option.map_map] at hmessage
  rw [hdrop, Option.bind_some, arguments_flags, escapeSQL, hmessage, Option.map_map]
  simp only [Function.comp_def, Lib.SqlLiteral.extend, List.append_nil]

theorem calledMessage_eq_some_iff {stored : List Char} :
    calledMessage (commitStatement time m) = some stored ↔
      stored = metadataText time storedString m ∧
      ∃ author date, arguments (afterAuthorFlag time m) = some [author, "--date".toList, date] := by
  rw [calledMessage, arguments_commitStatement]
  generalize "-A".toList = all, "-m".toList = flag, "--author".toList = author,
    "--date".toList = date, metadataText time storedString m = msg
  rcases arguments (afterAuthorFlag time m) with _ | ⟨_ | ⟨a, _ | ⟨b, _ | ⟨c, _ | ⟨d, as⟩⟩⟩⟩⟩
  case some.cons.cons.cons.nil =>
    by_cases hb : b = date
    · simp [hb, @eq_comm _ stored]
    · simp [hb]
  all_goals simp

/-- The author is one argument if no quote in it is on its own. -/
theorem arguments_afterAuthorFlag_iff (hdate : '\'' ∉ time.format m.date)
    (hauthor : '\\' ∉ m.author.toList) (hemail : '\\' ∉ m.email.toList) :
    (∃ author date, arguments (afterAuthorFlag time m) = some [author, "--date".toList, date]) ↔
      evenQuotes m.author.toList = true ∧ evenQuotes m.email.toList = true := by
  set who := m.author.toList ++ " <".toList ++ m.email.toList with hwho
  have hslash : '\\' ∉ who := by
    simp [hwho, hauthor, hemail]
  have heven : evenQuotes who = (evenQuotes m.author.toList && evenQuotes m.email.toList) := by
    have hblank : who = m.author.toList ++ ' ' :: '<' :: m.email.toList := by simp [hwho]
    rw [hblank, Lib.SqlLiteral.evenQuotes_append (by decide),
      Lib.SqlLiteral.evenQuotes_cons (by decide)]
  have hrest := arguments_date hdate
  generalize "--date".toList = flag at hrest ⊢
  rw [← Bool.and_eq_true, ← heven]
  constructor
  · rintro ⟨author, date, h⟩
    have htext : afterAuthorFlag time m = who ++ '>' ::
        ("', '--date', '".toList ++ time.format m.date ++ "');".toList) := rfl
    rw [htext] at h
    obtain ⟨as, has, -, hlt⟩ := Lib.SqlLiteral.arguments_of_append (by decide) hslash h
    obtain rfl := Option.some.inj (hrest.symm.trans has)
    by_contra hodd
    exact absurd (hlt (Bool.eq_false_of_not_eq_true hodd)) (by simp)
  · intro h
    obtain ⟨value, hvalue⟩ := Lib.SqlLiteral.arguments_of_even hslash h
    refine ⟨value ++ ['>'], time.format m.date, ?_⟩
    rw [afterAuthorFlag, hvalue, hrest, Option.map_some, Lib.SqlLiteral.extend]

theorem metadataText_of_not_mem (hslash : '\\' ∉ m.marshal time) :
    metadataText time storedString m = m.marshal time := by
  rw [← (comesBack_marshal time m).meaning, Lib.SqlLiteral.meaning_of_not_mem hslash]

end Stored

section Strings

theorem count_stored (cs : List Char) : (cs.flatMap storedChar).count '\\' = cs.count '\\' := by
  induction cs with
  | nil => rfl
  | cons c cs ih =>
    rw [List.flatMap_cons, List.count_append, (remains_encodeChar c).slashes, ih,
      ← List.count_append]
    rfl

theorem gauge_stored (cs : List Char) :
    Lib.Json.gauge (cs.flatMap storedChar) = Lib.Json.gauge cs := by
  induction cs with
  | nil => rfl
  | cons c cs ih =>
    rw [List.flatMap_cons, Lib.Json.gauge_append, (remains_encodeChar c).gauge, ih,
      ← Lib.Json.gauge_cons]

theorem quote_not_mem_stored {cs : List Char} (h : '"' ∉ cs) : '"' ∉ cs.flatMap storedChar := by
  intro hmem
  obtain ⟨c, hc, hquote⟩ := List.mem_flatMap.mp hmem
  rw [(remains_encodeChar c).quotes hquote] at hc
  exact h hc

theorem length_stored {cs : List Char} (h : ∀ c ∈ cs, Lib.Json.mustEscape c = false) :
    (cs.flatMap storedChar).length =
      cs.length + 4 * (Lib.Json.encodeText cs).count '\\' := by
  induction cs with
  | nil => rfl
  | cons c cs ih =>
    rw [List.forall_mem_cons] at h
    have hcons : Lib.Json.encodeText (c :: cs) =
        Lib.Json.encodeChar c ++ Lib.Json.encodeText cs := rfl
    rw [List.flatMap_cons, List.length_append, (remains_encodeChar c).length h.1, ih h.2, hcons,
      List.count_append, List.length_cons]
    ring

theorem slash_not_mem_of_readsAs {cs : List Char} {b : Body}
    (hplain : ∀ c ∈ cs, c = '\\' ∨ Lib.Json.mustEscape c = false)
    (hread : ReadsAs (cs.flatMap storedChar) b) (hclosed : b.closed = cs) :
    '\\' ∉ Lib.Json.encodeText cs := by
  have hquote : '"' ∉ cs := fun h => absurd (hplain _ h) (by decide)
  have hquotes := quote_not_mem_stored hquote
  -- an escape would have lowered the gauge
  have hslash : '\\' ∉ cs.flatMap storedChar := by
    intro hmem
    have hlt := Lib.Json.gauge_lt_of_slash rfl hquotes hmem hread
    rw [hclosed, gauge_stored] at hlt
    have hempty : Lib.Json.gauge Body.empty.closed = 0 := rfl
    omega
  have hsame : cs.flatMap storedChar = cs := by
    have hread' := readsAs_plain (Lib.Json.plain_of_reads hquotes hslash hread)
    have heq := Mode.inside.inj (Prod.mk.inj (Option.some.inj (hread.symm.trans hread'))).2
    rw [heq] at hclosed
    exact hclosed
  rw [hsame] at hslash
  have hall : ∀ c ∈ cs, Lib.Json.mustEscape c = false := fun c hc =>
    (hplain c hc).resolve_left fun heq => hslash (heq ▸ hc)
  have hlength := length_stored hall
  rw [hsame] at hlength
  exact List.count_eq_zero.mp (by omega)

end Strings

section Escapes

variable {time : DateText} {m m' : CommitMetadata}

def CommitMetadata.escapes (m : CommitMetadata) : ℕ :=
  (m.strings.map fun s => Lib.Json.escapes s.toList).sum

theorem assignString_escapes {old s : String} {v : Value} (h : assignString old v = some s) :
    Lib.Json.escapes s.toList ≤ Lib.Json.escapes old.toList + v.escapes := by
  cases v with
  | string raw text =>
    obtain rfl := Option.some.inj h
    rw [String.toList_ofList, Value.escapes]
    exact Nat.le_add_left _ _
  | null =>
    obtain rfl := Option.some.inj h
    exact Nat.le_add_right _ _
  | bool b => cases h
  | number raw => cases h
  | array elements => cases h
  | object members => cases h

theorem assignHLCMember_escapes {h h' : HLCTimestamp} {member : List Char × Value}
    (heq : assignHLCMember h member = some h') :
    Lib.Json.escapes h'.peerID.toList ≤
      Lib.Json.escapes h.peerID.toList + member.2.escapes := by
  unfold assignHLCMember at heq
  dsimp only at heq
  split_ifs at heq
  · obtain ⟨w, -, rfl⟩ := Option.map_eq_some_iff.mp heq
    exact Nat.le_add_right _ _
  · obtain ⟨l, -, rfl⟩ := Option.map_eq_some_iff.mp heq
    exact Nat.le_add_right _ _
  · obtain ⟨p, hp, rfl⟩ := Option.map_eq_some_iff.mp heq
    exact assignString_escapes hp
  · obtain rfl := Option.some.inj heq
    exact Nat.le_add_right _ _

theorem assignHLC_escapes {h h' : HLCTimestamp} {v : Value} (heq : assignHLC h v = some h') :
    Lib.Json.escapes h'.peerID.toList ≤ Lib.Json.escapes h.peerID.toList + v.escapes := by
  cases v with
  | object members =>
    rw [Value.escapes, Lib.Json.memberEscapes_eq]
    exact Lib.Json.foldlM_le (fun h : HLCTimestamp => Lib.Json.escapes h.peerID.toList)
      (fun member => member.2.escapes) (fun _ _ _ => assignHLCMember_escapes) heq
  | null =>
    obtain rfl := Option.some.inj heq
    exact Nat.le_add_right _ _
  | string raw text => cases heq
  | bool b => cases heq
  | number raw => cases heq
  | array elements => cases heq

theorem escapes_of_assignString {old : String} {v : Value} {set : String → CommitMetadata}
    (hset : ∀ s, (set s).escapes + Lib.Json.escapes old.toList =
      m.escapes + Lib.Json.escapes s.toList) (h : (assignString old v).map set = some m') :
    m'.escapes ≤ m.escapes + v.escapes := by
  obtain ⟨s, hs, rfl⟩ := Option.map_eq_some_iff.mp h
  have hle := assignString_escapes hs
  have heq := hset s
  omega

theorem escapes_eq (m : CommitMetadata) :
    m.escapes = Lib.Json.escapes m.kind.toList + Lib.Json.escapes m.message.toList +
      Lib.Json.escapes m.hlc.peerID.toList + Lib.Json.escapes m.contentHash.toList +
      Lib.Json.escapes m.author.toList + Lib.Json.escapes m.email.toList +
      Lib.Json.escapes m.signature.toList := by
  simp only [CommitMetadata.escapes, CommitMetadata.strings, List.map_cons, List.map_nil,
    List.sum_cons, List.sum_nil]
  omega

theorem assignMember_escapes {member : List Char × Value}
    (h : assignMember time m member = some m') :
    m'.escapes ≤ m.escapes + member.2.escapes := by
  unfold assignMember at h
  dsimp only at h
  split_ifs at h
  · exact escapes_of_assignString (fun s => by simp only [escapes_eq]; omega) h
  · exact escapes_of_assignString (fun s => by simp only [escapes_eq]; omega) h
  · obtain ⟨hlc, hh, rfl⟩ := Option.map_eq_some_iff.mp h
    have hle := assignHLC_escapes hh
    simp only [escapes_eq]
    omega
  · exact escapes_of_assignString (fun s => by simp only [escapes_eq]; omega) h
  · exact escapes_of_assignString (fun s => by simp only [escapes_eq]; omega) h
  · exact escapes_of_assignString (fun s => by simp only [escapes_eq]; omega) h
  · obtain ⟨d, -, rfl⟩ := Option.map_eq_some_iff.mp h
    exact Nat.le_add_right _ _
  · exact escapes_of_assignString (fun s => by simp only [escapes_eq]; omega) h
  · obtain rfl := Option.some.inj h
    exact Nat.le_add_right _ _

theorem unmarshal_escapes {v : Value} (h : unmarshal time v = some m) : m.escapes ≤ v.escapes := by
  cases v with
  | object members =>
    have hle := Lib.Json.foldlM_le CommitMetadata.escapes (fun member => member.2.escapes)
      (fun _ _ _ => assignMember_escapes) h
    rw [Value.escapes, Lib.Json.memberEscapes_eq]
    have hzero : CommitMetadata.escapes ⟨"", "", .zero, "", "", "", time.zero, ""⟩ = 0 := by
      simp [CommitMetadata.escapes, CommitMetadata.strings, Lib.Json.escapes, HLCTimestamp.zero]
    omega
  | null =>
    obtain rfl := Option.some.inj h
    simp [CommitMetadata.escapes, CommitMetadata.strings, Lib.Json.escapes, HLCTimestamp.zero]
  | string raw text => cases h
  | bool b => cases h
  | number raw => cases h
  | array elements => cases h

/-- The metadata read from a text holds no more characters that must be escaped than the text
has backslashes. -/
theorem parseMetadataText_escapes {text : List Char} (h : parseMetadataText time text = some m) :
    m.escapes ≤ text.count '\\' := by
  obtain ⟨hread, -⟩ := Option.filter_eq_some_iff.mp h
  obtain ⟨v, hv, hm⟩ := Option.bind_eq_some_iff.mp hread
  exact (unmarshal_escapes hm).trans (Lib.Json.parse_escapes hv)

theorem count_memberText {key : List Char} (hkey : '\\' ∉ memberHead key) (body : List Char) :
    (memberText key body).count '\\' = body.count '\\' := by
  simp [memberText, List.count_append, List.count_eq_zero.mpr hkey]

theorem count_optionalText {key : List Char} (hkey : '\\' ∉ memberHead key) {s : String}
    {body : List Char} (hempty : s = "" → body = []) :
    (optionalText key s body).count '\\' = body.count '\\' := by
  unfold optionalText
  split_ifs with hs
  · rw [hempty hs]
  · exact count_memberText hkey body

theorem count_hlcText (h : HLCTimestamp) (peerID : List Char) :
    (hlcText h peerID).count '\\' = peerID.count '\\' := by
  simp [hlcText, List.count_append, List.count_eq_zero.mpr (slash_not_mem_hlcHead h)]

/-- Only the strings of the metadata bring backslashes. -/
theorem count_metadataText {write : String → List Char} (hempty : write "" = []) :
    (metadataText time write m).count '\\' =
      (m.strings.map fun s => (write s).count '\\').sum := by
  have hnil : ∀ s, s = "" → write s = [] := by
    rintro _ rfl
    exact hempty
  have hdate := List.count_eq_zero.mpr (slash_not_mem_format time m.date)
  simp only [metadataText, tailText, CommitMetadata.strings, List.count_append, List.map_cons,
    List.map_nil, List.sum_cons, List.sum_nil, count_hlcText]
  rw [count_memberText (by decide), count_optionalText (by decide) (hnil _),
    count_optionalText (by decide) (hnil _), count_optionalText (by decide) (hnil _),
    count_memberText (by decide), count_optionalText (by decide) (hnil _), hdate]
  simp

theorem count_le_escapes (cs : List Char) : cs.count '\\' ≤ Lib.Json.escapes cs := by
  refine List.countP_mono_left fun c _ hc => ?_
  rw [eq_of_beq hc]
  rfl

theorem plain_of_escapes_le {cs : List Char} (h : Lib.Json.escapes cs ≤ cs.count '\\') :
    ∀ c ∈ cs, c = '\\' ∨ Lib.Json.mustEscape c = false := by
  induction cs with
  | nil => simp
  | cons c cs ih =>
    have hle := count_le_escapes cs
    rw [Lib.Json.escapes, List.countP_cons, List.count_cons] at h
    rw [Lib.Json.escapes] at hle ih
    by_cases hc : c = '\\'
    · subst hc
      have hmust : Lib.Json.mustEscape '\\' = true := rfl
      simp only [hmust, if_true, beq_self_eq_true] at h
      exact List.forall_mem_cons.mpr ⟨Or.inl rfl, ih (by omega)⟩
    · simp only [beq_iff_eq, hc, if_false] at h
      split_ifs at h with hmust
      · omega
      · exact List.forall_mem_cons.mpr ⟨Or.inr (by simpa using hmust), ih (by omega)⟩

theorem plain_of_parse {date : Int}
    (h : parseMetadataText time (metadataText time storedString m) = some { m with date := date }) :
    ∀ s ∈ m.strings, ∀ c ∈ s.toList, c = '\\' ∨ Lib.Json.mustEscape c = false := by
  have hle := parseMetadataText_escapes h
  rw [count_metadataText rfl] at hle
  change m.escapes ≤ _ at hle
  intro s hs
  apply plain_of_escapes_le
  by_contra hlt
  have hsum := List.sum_lt_sum (l := m.strings) (fun s => (storedString s).count '\\')
    (fun s => Lib.Json.escapes s.toList)
    (fun s _ => (count_stored s.toList).le.trans (count_le_escapes s.toList))
    ⟨s, hs, by rw [storedString, count_stored]; omega⟩
  exact absurd hsum (Nat.not_lt.mpr hle)

end Escapes

section Bodies

variable {time : DateText} {write : String → List Char} {m : CommitMetadata}
  {key body rest : List Char} {s : String}

/-- Nothing that follows a string can be read as a part of it. -/
def Breaks (rest : List Char) : Prop := ∀ b, Lib.Json.scan (.inside b) rest = none

theorem breaks_brace (h : Breaks rest) : Breaks ('\x7d' :: rest) := fun b => by
  have hbrace : Lib.Json.reads (.inside b) ['\x7d'] = some ([], .inside (b.plain '\x7d')) := rfl
  have hscan := Lib.Json.scan_append_of_eq hbrace rest
  rw [h] at hscan
  exact hscan

theorem breaks_memberText (hkey : ∀ b, Lib.Json.reads (.inside b) (memberHead key) = none)
    (body rest : List Char) : Breaks (memberText key body ++ rest) := fun b => by
  rw [memberText, List.append_assoc]
  exact Lib.Json.scan_append_of_none (hkey b) _

theorem breaks_optionalText (hkey : ∀ b, Lib.Json.reads (.inside b) (memberHead key) = none)
    (s : String) (body : List Char) (hrest : Breaks rest) :
    Breaks (optionalText key s body ++ rest) := by
  unfold optionalText
  split_ifs
  · exact hrest
  · exact breaks_memberText hkey body rest

theorem breaks_hlcText (h : HLCTimestamp) (peerID rest : List Char) :
    Breaks (hlcText h peerID ++ rest) := fun b => by
  have hhead : Lib.Json.reads (.inside b) (hlcHead h) = none := rfl
  rw [hlcText, List.append_assoc]
  exact Lib.Json.scan_append_of_none hhead _

theorem readsAs_of_scan {mode : Mode} {head : List Char} {ts : List Token}
    (hhead : Lib.Json.reads mode head = some (ts, .inside .empty)) (hquote : '"' ∉ body)
    (hrest : Breaks rest) (h : Lib.Json.scan mode (head ++ (body ++ '"' :: rest)) ≠ none) :
    (∃ b, ReadsAs body b) ∧ Lib.Json.scan .outside rest ≠ none := by
  rw [Lib.Json.scan_append_of_eq hhead, ne_eq, Option.map_eq_none_iff] at h
  obtain ⟨b, hb⟩ := Lib.Json.body_of_scan hquote hrest h
  refine ⟨⟨b, hb⟩, ?_⟩
  have hend : Lib.Json.reads (.inside b) ['"'] = some ([.string b.raw b.closed], .outside) := rfl
  rw [Lib.Json.scan_append_of_eq hb, Option.map_eq_none_iff, ← List.singleton_append,
    Lib.Json.scan_append_of_eq hend, Option.map_eq_none_iff] at h
  exact h

theorem readsAs_of_memberText (hkey : key.any Lib.Json.mustEscape = false) (hquote : '"' ∉ body)
    (hrest : Breaks rest) (h : Lib.Json.scan .outside (memberText key body ++ rest) ≠ none) :
    (∃ b, ReadsAs body b) ∧ Lib.Json.scan .outside rest ≠ none := by
  rw [memberText, List.append_assoc, List.append_assoc, List.singleton_append] at h
  exact readsAs_of_scan (reads_memberHead hkey) hquote hrest h

theorem readsAs_of_optionalText (hkey : key.any Lib.Json.mustEscape = false)
    (hempty : s = "" → body = []) (hquote : '"' ∉ body) (hrest : Breaks rest)
    (h : Lib.Json.scan .outside (optionalText key s body ++ rest) ≠ none) :
    (∃ b, ReadsAs body b) ∧ Lib.Json.scan .outside rest ≠ none := by
  unfold optionalText at h
  split_ifs at h with hs
  · rw [hempty hs]
    exact ⟨⟨.empty, rfl⟩, h⟩
  · exact readsAs_of_memberText hkey hquote hrest h

theorem readsAs_of_hlcText {hlc : HLCTimestamp} (hquote : '"' ∉ body) (hrest : Breaks rest)
    (h : Lib.Json.scan .outside (hlcText hlc body ++ rest) ≠ none) :
    (∃ b, ReadsAs body b) ∧ Lib.Json.scan .outside rest ≠ none := by
  have hassoc : hlcText hlc body ++ rest = hlcHead hlc ++ (body ++ '"' :: '\x7d' :: rest) := by
    simp [hlcText]
  have hbrace : Lib.Json.reads .outside ['\x7d'] = some ([.closeBrace], .outside) := rfl
  rw [hassoc] at h
  obtain ⟨hbody, hscan⟩ := readsAs_of_scan (reads_hlcHead hlc) hquote (breaks_brace hrest) h
  rw [← List.singleton_append, Lib.Json.scan_append_of_eq hbrace, ne_eq,
    Option.map_eq_none_iff] at hscan
  exact ⟨hbody, hscan⟩

theorem breaks_tailText (time : DateText) (write : String → List Char) (m : CommitMetadata) :
    Breaks (tailText time write m) :=
  breaks_optionalText (fun _ => rfl) _ _ <| breaks_optionalText (fun _ => rfl) _ _ <|
    breaks_optionalText (fun _ => rfl) _ _ <| breaks_memberText (fun _ => rfl) _ _

theorem readsAs_of_tailText (hempty : ∀ s, s = "" → write s = [])
    (hquote : ∀ s ∈ [m.contentHash, m.author, m.email, m.signature], '"' ∉ write s)
    (h : Lib.Json.scan .outside (tailText time write m) ≠ none) :
    ∀ s ∈ [m.contentHash, m.author, m.email, m.signature], ∃ b, ReadsAs (write s) b := by
  simp only [List.forall_mem_cons] at hquote ⊢
  obtain ⟨hcontent, hauthor, hemail, hsig, -⟩ := hquote
  have hdate : '"' ∉ time.format m.date := fun hmem =>
    absurd (time.plain m.date _ hmem) (by decide)
  have hend : Breaks ['\x7d'] := breaks_brace fun _ => rfl
  obtain ⟨hc, h⟩ := readsAs_of_optionalText rfl (hempty _) hcontent
    (breaks_optionalText (by exact fun _ => rfl) _ _ <|
      breaks_optionalText (by exact fun _ => rfl) _ _ <|
      breaks_memberText (by exact fun _ => rfl) _ _) h
  obtain ⟨ha, h⟩ := readsAs_of_optionalText rfl (hempty _) hauthor
    (breaks_optionalText (by exact fun _ => rfl) _ _ <|
      breaks_memberText (by exact fun _ => rfl) _ _) h
  obtain ⟨he, h⟩ := readsAs_of_optionalText rfl (hempty _) hemail
    (breaks_memberText (by exact fun _ => rfl) _ _) h
  obtain ⟨-, h⟩ := readsAs_of_memberText rfl hdate
    (breaks_optionalText (by exact fun _ => rfl) _ _ hend) h
  obtain ⟨hs, -⟩ := readsAs_of_optionalText rfl (hempty _) hsig hend h
  exact ⟨hc, ha, he, hs, by simp⟩

theorem readsAs_of_tokens (hempty : write "" = []) (hquote : ∀ s ∈ m.strings, '"' ∉ write s)
    (h : Lib.Json.tokens (metadataText time write m) ≠ none) :
    ∀ s ∈ m.strings, ∃ b, ReadsAs (write s) b := by
  have hnil : ∀ s, s = "" → write s = [] := by
    rintro _ rfl
    exact hempty
  rw [CommitMetadata.strings, List.forall_mem_cons, List.forall_mem_cons,
    List.forall_mem_cons] at hquote ⊢
  obtain ⟨hkind, hmsg, hpeer, htail⟩ := hquote
  have hhead : Lib.Json.reads .outside ['\x7b', '"', 'k', 'i', 'n', 'd', '"', ':', '"'] =
      some ([.openBrace, .string ['k', 'i', 'n', 'd'] ['k', 'i', 'n', 'd'], .colon],
        .inside .empty) := rfl
  rw [Lib.Json.tokens, metadataText, List.append_assoc (write m.kind),
    List.singleton_append] at h
  obtain ⟨hk, h⟩ := readsAs_of_scan hhead hkind (breaks_memberText (by exact fun _ => rfl) _ _) h
  obtain ⟨hm, h⟩ := readsAs_of_memberText rfl hmsg (breaks_hlcText _ _ _) h
  obtain ⟨hp, h⟩ := readsAs_of_hlcText hpeer (breaks_tailText time write m) h
  exact ⟨hk, hm, hp, readsAs_of_tailText hnil htail h⟩

end Bodies

section Survival

variable {time : DateText} {m : CommitMetadata}

theorem slash_not_mem_marshal_iff :
    '\\' ∉ m.marshal time ↔ ∀ s ∈ m.strings, '\\' ∉ encodeString s := by
  rw [← List.count_eq_zero, CommitMetadata.marshal, count_metadataText rfl, List.sum_eq_zero_iff]
  simp [List.count_eq_zero]

theorem slash_not_mem_of_parse {date : Int}
    (h : parseMetadataText time (metadataText time storedString m) =
      some { m with date := date }) : '\\' ∉ m.marshal time := by
  have hplain := plain_of_parse h
  obtain ⟨hread, -⟩ := Option.filter_eq_some_iff.mp h
  obtain ⟨v, hv, -⟩ := Option.bind_eq_some_iff.mp hread
  have htokens : Lib.Json.tokens (metadataText time storedString m) ≠ none := by
    intro hnone
    rw [Lib.Json.parse, hnone] at hv
    cases hv
  have hquote : ∀ s ∈ m.strings, '"' ∉ storedString s := fun s hs =>
    quote_not_mem_stored fun hmem => absurd (hplain s hs _ hmem) (by decide)
  have hbody := readsAs_of_tokens rfl hquote htokens
  have hsome : Nonempty Body := ⟨.empty⟩
  choose! bodies hbodies using hbody
  rw [unmarshal_metadataText rfl hbodies] at hread
  obtain ⟨date', -, heq⟩ := Option.map_eq_some_iff.mp hread
  have hstrings : m.strings.map (fun s => String.ofList (bodies s).closed) = m.strings.map id := by
    rw [List.map_id]
    exact congrArg CommitMetadata.strings heq
  have hclosed : ∀ s ∈ m.strings, (bodies s).closed = s.toList := fun s hs => by
    rw [← String.toList_ofList (l := (bodies s).closed), List.map_inj_left.mp hstrings s hs, id]
  rw [slash_not_mem_marshal_iff]
  intro s hs
  exact slash_not_mem_of_readsAs (hplain s hs) (hbodies s hs) (hclosed s hs)

theorem slash_not_mem_encodeString {s : String} :
    '\\' ∉ encodeString s ↔ ∀ c ∈ s.toList, Lib.Json.htmlSafe c = true :=
  Lib.Json.slash_not_mem_encodeText

/-- Where the engine reads the statement as the call, only escapes do harm. -/
theorem survives_iff {dolt : List Char → Option (List Char)} (hdolt : ReadsCalls dolt)
    (hkind : m.kind = commitKindUser)
    (hargs : ∃ author date,
      arguments (afterAuthorFlag time m) = some [author, "--date".toList, date]) :
    Survives dolt time m ↔ '\\' ∉ m.marshal time := by
  have hstored : storedMessage dolt time m = some (metadataText time storedString m) :=
    hdolt _ _ (calledMessage_eq_some_iff.mpr ⟨rfl, hargs⟩)
  constructor
  · rintro ⟨stored, hsome, hparse⟩
    obtain rfl := Option.some.inj (hstored.symm.trans hsome)
    obtain ⟨date, hread⟩ := parseMetadataText_marshal time hkind
    rw [hread] at hparse
    exact slash_not_mem_of_parse hparse
  · intro hslash
    rw [metadataText_of_not_mem hslash] at hstored
    exact ⟨m.marshal time, hstored, rfl⟩

/-- What `doCommitWithMetadata` stores is sure to be read like the text it was given if and only
if the JSON encoder escapes no character of the metadata and the quotes of the author and of the
email stand in pairs. With an author and an email that do no harm the escapes decide. -/
theorem metadata_survives_sql_iff (time : DateText) (msg : String) (hlc : HLCTimestamp)
    (contentHash author email : String) (date : Int) (signature : String)
    (hdate : '\'' ∉ time.format date) :
    let m := { newCommitMetadata msg hlc contentHash author email date with
      signature := signature }
    ((∀ dolt, ReadsCalls dolt → Survives dolt time m) ↔
      (∀ s ∈ [msg, hlc.peerID, contentHash, author, email, signature],
        ∀ c ∈ s.toList, Lib.Json.htmlSafe c = true) ∧
      evenQuotes author.toList = true ∧ evenQuotes email.toList = true) ∧
    ((∀ s ∈ [author, email], '\\' ∉ s.toList ∧ evenQuotes s.toList = true) →
      ∀ dolt, ReadsCalls dolt → (Survives dolt time m ↔
        ∀ s ∈ [msg, hlc.peerID, contentHash, author, email, signature],
          ∀ c ∈ s.toList, Lib.Json.htmlSafe c = true)) := by
  intro m
  have hkind : '\\' ∉ encodeString commitKindUser := by decide +kernel
  have hstrings : m.strings =
      commitKindUser :: [msg, hlc.peerID, contentHash, author, email, signature] := rfl
  have hmarshal : '\\' ∉ m.marshal time ↔
      ∀ s ∈ [msg, hlc.peerID, contentHash, author, email, signature],
        ∀ c ∈ s.toList, Lib.Json.htmlSafe c = true := by
    rw [slash_not_mem_marshal_iff, hstrings, List.forall_mem_cons, and_iff_right hkind]
    exact forall₂_congr fun s _ => slash_not_mem_encodeString
  have harguments (hsafe : ∀ s ∈ [author, email], '\\' ∉ s.toList) :
      (∃ author date, arguments (afterAuthorFlag time m) = some [author, "--date".toList, date]) ↔
        evenQuotes author.toList = true ∧ evenQuotes email.toList = true :=
    arguments_afterAuthorFlag_iff hdate (hsafe author (by simp)) (hsafe email (by simp))
  -- a backslash would have been escaped, so what is not escaped has none
  have hsafe (hslash : '\\' ∉ m.marshal time) : ∀ s ∈ [author, email], '\\' ∉ s.toList :=
    fun s hs hmem => absurd (hmarshal.mp hslash s (by simp at hs ⊢; tauto) _ hmem) (by decide)
  rw [← hmarshal]
  refine ⟨⟨fun hall => ?_, fun ⟨hslash, hquotes⟩ dolt hdolt => ?_⟩, fun hplain dolt hdolt => ?_⟩
  · -- an engine that stores nothing for other statements
    obtain ⟨stored, hstored, hparse⟩ := hall calledMessage fun _ _ => id
    obtain ⟨rfl, hargs⟩ := calledMessage_eq_some_iff.mp hstored
    have hslash := (survives_iff (fun _ _ => id) rfl hargs).mp ⟨_, hstored, hparse⟩
    exact ⟨hslash, (harguments (hsafe hslash)).mp hargs⟩
  · exact (survives_iff hdolt rfl ((harguments (hsafe hslash)).mpr hquotes)).mpr hslash
  · exact survives_iff hdolt rfl ((harguments fun s hs => (hplain s hs).1).mpr
      ⟨(hplain author (by simp)).2, (hplain email (by simp)).2⟩)

def newYear : List Char := "2024-01-01T00:00:00Z".toList

def oneDay : DateText where
  format _ := newYear
  parse text := if text = newYear then some 0 else none
  zero := 0
  plain _ c hc := by
    have hall : newYear.all (fun c => !Lib.Json.mustEscape c) = true := by decide +kernel
    simpa using List.all_eq_true.mp hall c hc
  accepted _ := by simp

theorem quote_not_mem_oneDay (date : Int) : '\'' ∉ oneDay.format date := by
  change '\'' ∉ newYear
  decide +kernel

theorem metadata_survives_sql_iff_quote :
    Survives calledMessage oneDay { newCommitMetadata "it's new" ⟨1, 0, "alice"⟩ "content" "alice"
      "alice@doltswarm" 0 with signature := "signed" } := by
  have hplain : ∀ s ∈ ["it's new", "alice", "content", "alice", "alice@doltswarm", "signed"],
      '\\' ∉ encodeString s := by decide +kernel
  exact (metadata_survives_sql_iff oneDay "it's new" ⟨1, 0, "alice"⟩ "content" "alice"
    "alice@doltswarm" 0 "signed" (quote_not_mem_oneDay 0)).1.mpr
    ⟨fun s hs => slash_not_mem_encodeString.mp (hplain s hs), by decide +kernel, by decide +kernel⟩
    calledMessage fun _ _ => id

def quotingMessage : CommitMetadata :=
  { newCommitMetadata "say \"hi\"" ⟨1, 0, "alice"⟩ "content" "alice" "alice@doltswarm" 0 with
    signature := "signed" }

/-- A message with double quotes makes a commit that is no user commit, and with a single quote in
the author the statement is no call any more. -/
theorem quoted_message_is_lost :
    parseMetadataText oneDay (quotingMessage.marshal oneDay) = some quotingMessage ∧
    (∃ stored, storedMessage calledMessage oneDay quotingMessage = some stored ∧
      parseMetadataText oneDay stored = none) ∧
    storedMessage calledMessage oneDay
      { quotingMessage with message := "hi", author := "o'brien" } = none := by
  have hemail : '\\' ∉ "alice@doltswarm".toList ∧ evenQuotes "alice@doltswarm".toList = true := by
    decide +kernel
  have hauthor : '\\' ∉ "alice".toList ∧ evenQuotes "alice".toList = true := by
    decide +kernel
  have hquoted : '\\' ∉ "o'brien".toList ∧ evenQuotes "o'brien".toList = false := by
    decide +kernel
  refine ⟨by decide +kernel, ⟨_, calledMessage_eq_some_iff.mpr ⟨rfl, ?_⟩, by decide +kernel⟩, ?_⟩
  · exact (arguments_afterAuthorFlag_iff (quote_not_mem_oneDay 0) hauthor.1 hemail.1).mpr
      ⟨hauthor.2, hemail.2⟩
  · rw [Option.eq_none_iff_forall_ne_some]
    intro stored hstored
    have hodd := (arguments_afterAuthorFlag_iff (quote_not_mem_oneDay 0) hquoted.1 hemail.1).mp
      (calledMessage_eq_some_iff.mp hstored).2
    exact Bool.false_ne_true (hquoted.2.symm.trans hodd.1)

end Survival

end DoltSwarm.Core
