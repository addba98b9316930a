import Mathlib

/-!
# JSON texts

A text is read character by character into tokens and token by token into a value, as Go's
`encoding/json` does it, with an explicit stack and its limit on nesting. Strings keep how they
were written besides what they mean. What a string means can only hold as many quotes,
backslashes and control characters as it was written with backslashes, and this bound carries
over from the text to the value.
-/

namespace DoltSwarm.Lib.Json

set_option autoImplicit false

inductive Token
  | openBrace
  | closeBrace
  | openBracket
  | closeBracket
  | colon
  | comma
  | string (raw text : List Char)
  | number (raw : List Char)
  | bool (b : Bool)
  | null
  deriving DecidableEq, Repr

section Strings

/-- The characters that stand in no string unescaped. -/
def mustEscape (c : Char) : Bool := c = '"' || c = '\\' || c < ' '

/-- The number of characters that were escaped, at the least. -/
def escapes (text : List Char) : ℕ := text.countP mustEscape

/-- U+FFFD stands for a surrogate without its other half. -/
def replacementChar : Char := Char.ofNat 0xFFFD

def isSurrogate (r : ℕ) : Bool := 0xD800 ≤ r && r < 0xE000

def surrogatePair (hi lo : ℕ) : Option Char :=
  if 0xD800 ≤ hi ∧ hi < 0xDC00 ∧ 0xDC00 ≤ lo ∧ lo < 0xE000 then
    some (Char.ofNat ((hi - 0xD800) * 0x400 + (lo - 0xDC00) + 0x10000))
  else none

/-- A string that is being read: how it is written so far, what that means, and a surrogate
that may be the first half of a pair. -/
structure Body where
  raw : List Char
  text : List Char
  surrogate : Option ℕ

namespace Body

def empty : Body := ⟨[], [], none⟩

def closed (b : Body) : List Char :=
  match b.surrogate with
  | none => b.text
  | some _ => b.text ++ [replacementChar]

def plain (b : Body) (c : Char) : Body := ⟨b.raw ++ [c], b.closed ++ [c], none⟩

def escaped (b : Body) (c out : Char) : Body := ⟨b.raw ++ ['\\', c], b.closed ++ [out], none⟩

end Body

def hexDigit? (c : Char) : Option ℕ :=
  if '0' ≤ c ∧ c ≤ '9' then some (c.toNat - '0'.toNat)
  else if 'a' ≤ c ∧ c ≤ 'f' then some (c.toNat - 'a'.toNat + 10)
  else if 'A' ≤ c ∧ c ≤ 'F' then some (c.toNat - 'A'.toNat + 10)
  else none

def hexNumber (digits : List Char) : ℕ :=
  digits.foldl (fun r c => r * 16 + (hexDigit? c).getD 0) 0

/-- The body after a `\u` with these digits. -/
def Body.unit (b : Body) (digits : List Char) : Body :=
  match b.surrogate.bind fun hi => surrogatePair hi (hexNumber digits) with
  | some c => ⟨b.raw ++ '\\' :: 'u' :: digits, b.text ++ [c], none⟩
  | none =>
    if isSurrogate (hexNumber digits) then
      ⟨b.raw ++ '\\' :: 'u' :: digits, b.closed, some (hexNumber digits)⟩
    else ⟨b.raw ++ '\\' :: 'u' :: digits, b.closed ++ [Char.ofNat (hexNumber digits)], none⟩

def shortEscape (c : Char) : Option Char :=
  if c = '"' ∨ c = '\\' ∨ c = '/' then some c
  else if c = 'b' then some (Char.ofNat 8)
  else if c = 'f' then some (Char.ofNat 12)
  else if c = 'n' then some '\n'
  else if c = 'r' then some '\r'
  else if c = 't' then some '\t'
  else none

end Strings

section Words

/-- An optional `-` and an integer without leading zeros; what is left after it. -/
def integerPart (cs : List Char) : Option (List Char) :=
  match if cs.head? = some '-' then cs.tail else cs with
  | [] => none
  | c :: rest =>
    if c = '0' then some rest
    else if c.isDigit then some (rest.dropWhile Char.isDigit)
    else none

def digitsPart (cs : List Char) : Option (List Char) :=
  if (cs.takeWhile Char.isDigit) = [] then none else some (cs.dropWhile Char.isDigit)

def fractionPart (cs : List Char) : Option (List Char) :=
  if cs.head? = some '.' then digitsPart cs.tail else some cs

def exponentPart (cs : List Char) : Option (List Char) :=
  if cs.head? = some 'e' ∨ cs.head? = some 'E' then
    if cs.tail.head? = some '+' ∨ cs.tail.head? = some '-' then digitsPart cs.tail.tail
    else digitsPart cs.tail
  else some cs

def isNumber (cs : List Char) : Bool :=
  (((integerPart cs).bind fractionPart).bind exponentPart) = some []

def wordToken (w : List Char) : Option Token :=
  if w = ['t', 'r', 'u', 'e'] then some (.bool true)
  else if w = ['f', 'a', 'l', 's', 'e'] then some (.bool false)
  else if w = ['n', 'u', 'l', 'l'] then some .null
  else if isNumber w then some (.number w)
  else none

end Words

section Scanner

inductive Mode
  | outside
  | word (chars : List Char)
  | inside (b : Body)
  | escape (b : Body)
  | hex (b : Body) (digits : List Char)

def isSpace (c : Char) : Bool := c = ' ' || c = '\t' || c = '\r' || c = '\n'

def punctuation (c : Char) : Option Token :=
  if c = '\x7b' then some .openBrace
  else if c = '\x7d' then some .closeBrace
  else if c = '[' then some .openBracket
  else if c = ']' then some .closeBracket
  else if c = ':' then some .colon
  else if c = ',' then some .comma
  else none

/-- A character that ends a word. -/
def isDelimiter (c : Char) : Bool := isSpace c || (punctuation c).isSome || c = '"'

/-- What a character does between two tokens. -/
def opening (c : Char) : List Token × Mode :=
  if isSpace c then ([], .outside)
  else
    match punctuation c with
    | some t => ([t], .outside)
    | none => if c = '"' then ([], .inside .empty) else ([], .word [c])

def step : Mode → Char → Option (List Token × Mode)
  | .outside, c => some (opening c)
  | .word w, c =>
    if isDelimiter c then (wordToken w).map fun t => (t :: (opening c).1, (opening c).2)
    else some ([], .word (w ++ [c]))
  | .inside b, c =>
    if c = '"' then some ([.string b.raw b.closed], .outside)
    else if c = '\\' then some ([], .escape b)
    else if c < ' ' then none
    else some ([], .inside (b.plain c))
  | .escape b, c =>
    if c = 'u' then some ([], .hex b [])
    else (shortEscape c).map fun out => ([], .inside (b.escaped c out))
  | .hex b digits, c =>
    if (hexDigit? c).isSome then
      if digits.length < 3 then some ([], .hex b (digits ++ [c]))
      else some ([], .inside (b.unit (digits ++ [c])))
    else none

def reads : Mode → List Char → Option (List Token × Mode)
  | m, [] => some ([], m)
  | m, c :: cs => (step m c).bind fun p => (reads p.2 cs).map fun q => (p.1 ++ q.1, q.2)

/-- A text ends outside of a string. -/
def finish : Mode → Option (List Token)
  | .outside => some []
  | .word w => (wordToken w).map fun t => [t]
  | _ => none

def scan (m : Mode) (cs : List Char) : Option (List Token) :=
  (reads m cs).bind fun p => (finish p.2).map fun ts => p.1 ++ ts

def tokens (cs : List Char) : Option (List Token) := scan .outside cs

inductive Stepped : Mode → Char → List Token → Mode → Prop
  | opens (c : Char) : Stepped .outside c (opening c).1 (opening c).2
  | wordEnds {w : List Char} {c : Char} {t : Token} : wordToken w = some t →
      Stepped (.word w) c (t :: (opening c).1) (opening c).2
  | wordGoesOn (w : List Char) (c : Char) : Stepped (.word w) c [] (.word (w ++ [c]))
  | closes (b : Body) : Stepped (.inside b) '"' [.string b.raw b.closed] .outside
  | escapes (b : Body) : Stepped (.inside b) '\\' [] (.escape b)
  | plain (b : Body) {c : Char} : mustEscape c = false →
      Stepped (.inside b) c [] (.inside (b.plain c))
  | unicode (b : Body) : Stepped (.escape b) 'u' [] (.hex b [])
  | short (b : Body) (out : Char) {c : Char} : c ≠ 'u' → shortEscape c = some out →
      Stepped (.escape b) c [] (.inside (b.escaped c out))
  | digit (b : Body) (digits : List Char) {c : Char} : (hexDigit? c).isSome = true →
      Stepped (.hex b digits) c [] (.hex b (digits ++ [c]))
  | lastDigit (b : Body) (digits : List Char) {c : Char} : (hexDigit? c).isSome = true →
      ¬ digits.length < 3 → Stepped (.hex b digits) c [] (.inside (b.unit (digits ++ [c])))

theorem stepped_of_step {m m' : Mode} {c : Char} {ts : List Token}
    (h : step m c = some (ts, m')) : Stepped m c ts m' := by
  cases m with
  | outside =>
    obtain ⟨rfl, rfl⟩ := Prod.mk.inj (Option.some.inj h)
    exact .opens c
  | word w =>
    simp only [step] at h
    split_ifs at h
    · obtain ⟨t, ht, heq⟩ := Option.map_eq_some_iff.mp h
      obtain ⟨rfl, rfl⟩ := Prod.mk.inj heq
      exact .wordEnds ht
    · obtain ⟨rfl, rfl⟩ := Prod.mk.inj (Option.some.inj h)
      exact .wordGoesOn w c
  | inside b =>
    simp only [step] at h
    split_ifs at h with hquote hslash hcontrol
    · obtain ⟨rfl, rfl⟩ := Prod.mk.inj (Option.some.inj h)
      subst hquote
      exact .closes b
    · obtain ⟨rfl, rfl⟩ := Prod.mk.inj (Option.some.inj h)
      subst hslash
      exact .escapes b
    · obtain ⟨rfl, rfl⟩ := Prod.mk.inj (Option.some.inj h)
      exact .plain b (by simp [mustEscape, hquote, hslash, hcontrol])
  | escape b =>
    simp only [step] at h
    split_ifs at h with hu
    · obtain ⟨rfl, rfl⟩ := Prod.mk.inj (Option.some.inj h)
      subst hu
      exact .unicode b
    · obtain ⟨out, hout, heq⟩ := Option.map_eq_some_iff.mp h
      obtain ⟨rfl, rfl⟩ := Prod.mk.inj heq
      exact .short b out hu hout
  | hex b digits =>
    simp only [step] at h
    split_ifs at h with hhex hfew
    · obtain ⟨rfl, rfl⟩ := Prod.mk.inj (Option.some.inj h)
      exact .digit b digits hhex
    · obtain ⟨rfl, rfl⟩ := Prod.mk.inj (Option.some.inj h)
      exact .lastDigit b digits hhex hfew

theorem reads_append (m : Mode) (xs ys : List Char) :
    reads m (xs ++ ys) =
      (reads m xs).bind fun p => (reads p.2 ys).map fun q => (p.1 ++ q.1, q.2) := by
  induction xs generalizing m with
  | nil => simp [reads]
  | cons c xs ih =>
    rw [List.cons_append, reads, reads]
    cases step m c with
    | none => rfl
    | some p =>
      rw [Option.bind_some, Option.bind_some, ih]
      cases reads p.2 xs with
      | none => rfl
      | some q =>
        rw [Option.bind_some, Option.map_some, Option.bind_some]
        cases reads q.2 ys with
        | none => rfl
        | some r => simp

theorem reads_append_of_eq {m m' : Mode} {xs : List Char} {ts : List Token}
    (h : reads m xs = some (ts, m')) (ys : List Char) :
    reads m (xs ++ ys) = (reads m' ys).map fun q => (ts ++ q.1, q.2) := by
  rw [reads_append, h, Option.bind_some]

theorem scan_append_of_eq {m m' : Mode} {xs : List Char} {ts : List Token}
    (h : reads m xs = some (ts, m')) (ys : List Char) :
    scan m (xs ++ ys) = (scan m' ys).map fun us => ts ++ us := by
  rw [scan, scan, reads_append_of_eq h]
  cases reads m' ys with
  | none => rfl
  | some q =>
    rw [Option.map_some, Option.bind_some, Option.bind_some]
    cases finish q.2 with
    | none => rfl
    | some us => simp

theorem scan_append_of_none {m : Mode} {xs : List Char} (h : reads m xs = none)
    (ys : List Char) : scan m (xs ++ ys) = none := by
  rw [scan, reads_append, h, Option.bind_none, Option.bind_none]

theorem reads_word (v : List Char) {w : List Char} (hw : ∀ c ∈ w, isDelimiter c = false) :
    reads (.word v) w = some ([], .word (v ++ w)) := by
  induction w generalizing v with
  | nil => simp [reads]
  | cons c w ih =>
    rw [List.forall_mem_cons] at hw
    simp [reads, step, hw.1, ih (v ++ [c]) hw.2]

theorem opening_of_not_delimiter {c : Char} (hc : isDelimiter c = false) :
    opening c = ([], .word [c]) := by
  simp only [isDelimiter, Bool.or_eq_false_iff, Option.isSome_eq_false_iff,
    Option.isNone_iff_eq_none, decide_eq_false_iff_not] at hc
  simp [opening, hc]

theorem reads_word_delimiter {w : List Char} (hne : w ≠ []) (hw : ∀ c ∈ w, isDelimiter c = false)
    {c : Char} (hc : isDelimiter c = true) :
    reads .outside (w ++ [c]) =
      (wordToken w).map fun t => (t :: (opening c).1, (opening c).2) := by
  obtain ⟨c₀, w, rfl⟩ := List.exists_cons_of_ne_nil hne
  rw [List.forall_mem_cons] at hw
  have hstart : reads .outside (c₀ :: w) = some ([], .word (c₀ :: w)) := by
    rw [reads, step, opening_of_not_delimiter hw.1, Option.bind_some, reads_word [c₀] hw.2]
    rfl
  rw [reads_append_of_eq hstart]
  simp only [reads, step, hc, if_true]
  cases wordToken (c₀ :: w) with
  | none => rfl
  | some t => simp

end Scanner

section Bound

def Token.escapes : Token → ℕ
  | .string _ text => Json.escapes text
  | _ => 0

/-- A backslash that was read and not used yet counts for the escape it begins. -/
def Mode.escapes : Mode → ℕ
  | .outside => 0
  | .word _ => 0
  | .inside b => Json.escapes b.text
  | .escape b => Json.escapes b.text + 1
  | .hex b _ => Json.escapes b.text + 1

def allEscapes (ts : List Token) : ℕ := (ts.map Token.escapes).sum

@[simp] theorem allEscapes_nil : allEscapes [] = 0 := rfl

@[simp] theorem allEscapes_cons (t : Token) (ts : List Token) :
    allEscapes (t :: ts) = t.escapes + allEscapes ts := by
  simp [allEscapes]

@[simp] theorem allEscapes_append (ts us : List Token) :
    allEscapes (ts ++ us) = allEscapes ts + allEscapes us := by
  simp [allEscapes]

theorem escapes_closed (b : Body) : escapes b.closed = escapes b.text := by
  unfold Body.closed
  split
  · rfl
  · have hreplacement : mustEscape replacementChar = false := by decide
    simp [escapes, hreplacement]

theorem escapes_plain {c : Char} (hc : mustEscape c = false) (b : Body) :
    escapes (b.plain c).text = escapes b.text := by
  rw [← escapes_closed b]
  simp [Body.plain, escapes, hc]

theorem escapes_snoc_le (text : List Char) (c : Char) :
    escapes (text ++ [c]) ≤ escapes text + 1 := by
  simp only [escapes, List.countP_append, List.countP_singleton]
  split <;> omega

theorem escapes_escaped_le (b : Body) (c out : Char) :
    escapes (b.escaped c out).text ≤ escapes b.text + 1 := by
  rw [← escapes_closed b]
  exact escapes_snoc_le _ _

theorem escapes_unit_le (b : Body) (digits : List Char) :
    escapes (b.unit digits).text ≤ escapes b.text + 1 := by
  unfold Body.unit
  split
  · exact escapes_snoc_le _ _
  · rw [← escapes_closed b]
    split_ifs
    · exact Nat.le_succ _
    · exact escapes_snoc_le _ _

theorem opening_escapes (c : Char) : allEscapes (opening c).1 + (opening c).2.escapes = 0 := by
  unfold opening punctuation
  split_ifs <;> rfl

theorem wordToken_escapes {w : List Char} {t : Token} (h : wordToken w = some t) :
    t.escapes = 0 := by
  unfold wordToken at h
  split_ifs at h <;> obtain rfl := Option.some.inj h <;> rfl

theorem step_escapes {m m' : Mode} {c : Char} {ts : List Token} (h : step m c = some (ts, m')) :
    allEscapes ts + m'.escapes ≤ m.escapes + [c].count '\\' := by
  have hopening := opening_escapes c
  cases stepped_of_step h with
  | opens => exact hopening.le.trans (Nat.zero_le _)
  | wordEnds ht =>
    rw [allEscapes_cons, wordToken_escapes ht]
    omega
  | wordGoesOn w => exact Nat.zero_le _
  | closes b => simp [Token.escapes, Mode.escapes, escapes_closed]
  | escapes b => simp [Mode.escapes]
  | plain b hc => simp [Mode.escapes, escapes_plain hc]
  | unicode b => simp [Mode.escapes]
  | short b out hu hout =>
    have hle := escapes_escaped_le b c out
    simp only [allEscapes_nil, Mode.escapes]
    omega
  | digit b digits hhex => simp [Mode.escapes]
  | lastDigit b digits hhex hfull =>
    have hle := escapes_unit_le b (digits ++ [c])
    simp only [allEscapes_nil, Mode.escapes]
    omega

theorem reads_escapes {m m' : Mode} {cs : List Char} {ts : List Token}
    (h : reads m cs = some (ts, m')) :
    allEscapes ts + m'.escapes ≤ m.escapes + cs.count '\\' := by
  induction cs generalizing m ts with
  | nil =>
    obtain ⟨rfl, rfl⟩ := Prod.mk.inj (Option.some.inj h)
    simp
  | cons c cs ih =>
    obtain ⟨⟨us, mid⟩, hstep, hrest⟩ := Option.bind_eq_some_iff.mp h
    obtain ⟨⟨vs, last⟩, hreads, heq⟩ := Option.map_eq_some_iff.mp hrest
    obtain ⟨rfl, rfl⟩ := Prod.mk.inj heq
    have hfirst := step_escapes hstep
    have hlater : allEscapes vs + last.escapes ≤ mid.escapes + cs.count '\\' := ih hreads
    have hcount : (c :: cs).count '\\' = [c].count '\\' + cs.count '\\' := by
      rw [← List.singleton_append, List.count_append]
    simp only [allEscapes_append, hcount]
    omega

theorem tokens_escapes {cs : List Char} {ts : List Token} (h : tokens cs = some ts) :
    allEscapes ts ≤ cs.count '\\' := by
  obtain ⟨⟨us, m⟩, hreads, hrest⟩ := Option.bind_eq_some_iff.mp h
  obtain ⟨vs, hfinish, rfl⟩ := Option.map_eq_some_iff.mp hrest
  have hle := reads_escapes hreads
  have hlast : allEscapes vs = 0 := by
    cases m with
    | outside =>
      obtain rfl := Option.some.inj hfinish
      rfl
    | word w =>
      obtain ⟨t, ht, rfl⟩ := Option.map_eq_some_iff.mp hfinish
      simp [wordToken_escapes ht]
    | inside b => cases hfinish
    | escape b => cases hfinish
    | hex b digits => cases hfinish
  have hstart : Mode.escapes .outside = 0 := rfl
  simp only [allEscapes_append, hlast]
  omega

end Bound

section Values

inductive Value
  | null
  | bool (b : Bool)
  | number (raw : List Char)
  | string (raw text : List Char)
  | array (elements : List Value)
  | object (members : List (List Char × Value))

/-- A value that is being read, with the key of the member to come. -/
inductive Frame
  | array (elements : List Value)
  | object (members : List (List Char × Value)) (key : List Char)

inductive Expect
  | value
  | valueOrClose
  | key
  | keyOrClose
  | colon
  | more

inductive State
  | within (stack : List Frame) (expect : Expect)
  | done (v : Value)

def maxNestingDepth : ℕ := 10000

def complete (v : Value) : List Frame → State
  | [] => .done v
  | .array elements :: stack => .within (.array (elements ++ [v]) :: stack) .more
  | .object members key :: stack => .within (.object (members ++ [(key, v)]) [] :: stack) .more

def push (stack : List Frame) (frame : Frame) (expect : Expect) : Option State :=
  if stack.length < maxNestingDepth then some (.within (frame :: stack) expect) else none

def beginValue (stack : List Frame) : Token → Option State
  | .openBrace => push stack (.object [] []) .keyOrClose
  | .openBracket => push stack (.array []) .valueOrClose
  | .string raw text => some (complete (.string raw text) stack)
  | .number raw => some (complete (.number raw) stack)
  | .bool b => some (complete (.bool b) stack)
  | .null => some (complete .null stack)
  | _ => none

def beginKey : List Frame → Token → Option State
  | .object members _ :: stack, .string _ key =>
    some (.within (.object members key :: stack) .colon)
  | _, _ => none

def close : List Frame → Token → Option State
  | .array elements :: stack, .closeBracket => some (complete (.array elements) stack)
  | .object members _ :: stack, .closeBrace => some (complete (.object members) stack)
  | _, _ => none

def afterComma : List Frame → Option State
  | .array elements :: stack => some (.within (.array elements :: stack) .value)
  | .object members key :: stack => some (.within (.object members key :: stack) .key)
  | [] => none

def next : State → Token → Option State
  | .done _, _ => none
  | .within stack .value, t => beginValue stack t
  | .within stack .valueOrClose, t =>
    if t = .closeBracket then close stack t else beginValue stack t
  | .within stack .key, t => beginKey stack t
  | .within stack .keyOrClose, t => if t = .closeBrace then close stack t else beginKey stack t
  | .within stack .colon, t => if t = .colon then some (.within stack .value) else none
  | .within stack .more, t => if t = .comma then afterComma stack else close stack t

def result : State → Option Value
  | .done v => some v
  | .within _ _ => none

def parse (cs : List Char) : Option Value :=
  ((tokens cs).bind fun ts => ts.foldlM next (.within [] .value)).bind result

mutual

def Value.escapes : Value → ℕ
  | .null => 0
  | .bool _ => 0
  | .number _ => 0
  | .string _ text => Json.escapes text
  | .array elements => elementEscapes elements
  | .object members => memberEscapes members

def elementEscapes : List Value → ℕ
  | [] => 0
  | v :: vs => v.escapes + elementEscapes vs

def memberEscapes : List (List Char × Value) → ℕ
  | [] => 0
  | (_, v) :: ms => v.escapes + memberEscapes ms

end

@[simp] theorem elementEscapes_append (vs ws : List Value) :
    elementEscapes (vs ++ ws) = elementEscapes vs + elementEscapes ws := by
  induction vs with
  | nil => simp [elementEscapes]
  | cons v vs ih =>
    rw [List.cons_append, elementEscapes, elementEscapes, ih]
    omega

@[simp] theorem memberEscapes_append (ms ns : List (List Char × Value)) :
    memberEscapes (ms ++ ns) = memberEscapes ms + memberEscapes ns := by
  induction ms with
  | nil => simp [memberEscapes]
  | cons m ms ih =>
    obtain ⟨key, v⟩ := m
    rw [List.cons_append, memberEscapes, memberEscapes, ih]
    omega

theorem memberEscapes_eq (ms : List (List Char × Value)) :
    memberEscapes ms = (ms.map fun member => member.2.escapes).sum := by
  induction ms with
  | nil => rw [memberEscapes, List.map_nil, List.sum_nil]
  | cons m ms ih =>
    obtain ⟨key, v⟩ := m
    rw [memberEscapes, ih, List.map_cons, List.sum_cons]

def Frame.escapes : Frame → ℕ
  | .array elements => elementEscapes elements
  | .object members _ => memberEscapes members

def stackEscapes (stack : List Frame) : ℕ := (stack.map Frame.escapes).sum

@[simp] theorem stackEscapes_cons (frame : Frame) (stack : List Frame) :
    stackEscapes (frame :: stack) = frame.escapes + stackEscapes stack := by
  simp [stackEscapes]

def State.escapes : State → ℕ
  | .within stack _ => stackEscapes stack
  | .done v => v.escapes

theorem complete_escapes (v : Value) (stack : List Frame) :
    (complete v stack).escapes = v.escapes + stackEscapes stack := by
  cases stack with
  | nil => simp [complete, State.escapes, stackEscapes]
  | cons frame stack =>
    cases frame with
    | array elements =>
      simp only [complete, State.escapes, stackEscapes_cons, Frame.escapes,
        elementEscapes_append, elementEscapes]
      omega
    | object members key =>
      simp only [complete, State.escapes, stackEscapes_cons, Frame.escapes,
        memberEscapes_append, memberEscapes]
      omega

theorem push_escapes {stack : List Frame} {frame : Frame} {expect : Expect} {st : State}
    (h : push stack frame expect = some st) :
    st.escapes = frame.escapes + stackEscapes stack := by
  unfold push at h
  split_ifs at h
  obtain rfl := Option.some.inj h
  exact stackEscapes_cons frame stack

theorem beginValue_escapes {stack : List Frame} {t : Token} {st : State}
    (h : beginValue stack t = some st) : st.escapes = stackEscapes stack + t.escapes := by
  cases t with
  | openBrace =>
    rw [push_escapes h]
    simp [Frame.escapes, memberEscapes, Token.escapes]
  | openBracket =>
    rw [push_escapes h]
    simp [Frame.escapes, elementEscapes, Token.escapes]
  | string raw text =>
    obtain rfl := Option.some.inj h
    rw [complete_escapes, Value.escapes, Token.escapes, Nat.add_comm]
  | number raw =>
    obtain rfl := Option.some.inj h
    simp [complete_escapes, Value.escapes, Token.escapes]
  | bool b =>
    obtain rfl := Option.some.inj h
    simp [complete_escapes, Value.escapes, Token.escapes]
  | null =>
    obtain rfl := Option.some.inj h
    simp [complete_escapes, Value.escapes, Token.escapes]
  | closeBrace => cases h
  | closeBracket => cases h
  | colon => cases h
  | comma => cases h

theorem beginKey_escapes {stack : List Frame} {t : Token} {st : State}
    (h : beginKey stack t = some st) : st.escapes = stackEscapes stack := by
  unfold beginKey at h
  split at h
  · obtain rfl := Option.some.inj h
    simp [State.escapes, Frame.escapes]
  · cases h

theorem close_escapes {stack : List Frame} {t : Token} {st : State}
    (h : close stack t = some st) : st.escapes = stackEscapes stack := by
  unfold close at h
  split at h
  · obtain rfl := Option.some.inj h
    rw [complete_escapes, stackEscapes_cons, Value.escapes, Frame.escapes]
  · obtain rfl := Option.some.inj h
    rw [complete_escapes, stackEscapes_cons, Value.escapes, Frame.escapes]
  · cases h

theorem afterComma_escapes {stack : List Frame} {st : State}
    (h : afterComma stack = some st) : st.escapes = stackEscapes stack := by
  unfold afterComma at h
  split at h
  · obtain rfl := Option.some.inj h
    rfl
  · obtain rfl := Option.some.inj h
    rfl
  · cases h

theorem next_escapes {st st' : State} {t : Token} (h : next st t = some st') :
    st'.escapes ≤ st.escapes + t.escapes := by
  cases st with
  | done v => cases h
  | within stack expect =>
    change st'.escapes ≤ stackEscapes stack + t.escapes
    cases expect with
    | value => exact (beginValue_escapes h).le
    | valueOrClose =>
      simp only [next] at h
      split_ifs at h
      · exact (close_escapes h).le.trans (Nat.le_add_right _ _)
      · exact (beginValue_escapes h).le
    | key => exact (beginKey_escapes h).le.trans (Nat.le_add_right _ _)
    | keyOrClose =>
      simp only [next] at h
      split_ifs at h
      · exact (close_escapes h).le.trans (Nat.le_add_right _ _)
      · exact (beginKey_escapes h).le.trans (Nat.le_add_right _ _)
    | colon =>
      simp only [next] at h
      split_ifs at h
      obtain rfl := Option.some.inj h
      exact Nat.le_add_right _ _
    | more =>
      simp only [next] at h
      split_ifs at h
      · exact (afterComma_escapes h).le.trans (Nat.le_add_right _ _)
      · exact (close_escapes h).le.trans (Nat.le_add_right _ _)

/-- A measure that a step raises by at most the weight of what it takes. -/
theorem foldlM_le {σ α : Type} {f : σ → α → Option σ} (size : σ → ℕ) (weight : α → ℕ)
    (hstep : ∀ s s' a, f s a = some s' → size s' ≤ size s + weight a) {as : List α} {s s' : σ}
    (h : as.foldlM f s = some s') : size s' ≤ size s + (as.map weight).sum := by
  induction as generalizing s with
  | nil =>
    obtain rfl := Option.some.inj h
    exact Nat.le_add_right _ _
  | cons a as ih =>
    rw [List.foldlM_cons] at h
    obtain ⟨mid, hfirst, hrest⟩ := Option.bind_eq_some_iff.mp h
    have hle := hstep _ _ _ hfirst
    have hlater := ih hrest
    rw [List.map_cons, List.sum_cons]
    omega

/-- A value holds no more characters that must be escaped than its text has backslashes. -/
theorem parse_escapes {cs : List Char} {v : Value} (h : parse cs = some v) :
    v.escapes ≤ cs.count '\\' := by
  obtain ⟨st, hst, hresult⟩ := Option.bind_eq_some_iff.mp h
  obtain ⟨ts, hts, hfold⟩ := Option.bind_eq_some_iff.mp hst
  have hle : st.escapes ≤ _ + allEscapes ts :=
    foldlM_le State.escapes Token.escapes (fun _ _ _ => next_escapes) hfold
  have htokens := tokens_escapes hts
  cases st with
  | within stack expect => cases hresult
  | done w =>
    obtain rfl := Option.some.inj hresult
    have hstart : State.escapes (.within [] .value) = 0 := rfl
    have hdone : State.escapes (.done w) = w.escapes := rfl
    omega

end Values

end DoltSwarm.Lib.Json
