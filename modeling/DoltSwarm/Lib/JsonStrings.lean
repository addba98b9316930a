import DoltSwarm.Lib.Json

/-!
# Strings in JSON texts

How Go's encoder writes a string and that the scanner reads it back. For a text between quotes
that was written by someone else: when the scanner takes it for one string, and a `gauge` that
every escape in it lowers.
-/

namespace DoltSwarm.Lib.Json

set_option autoImplicit false

section Encoding

def lowerHex (n : ℕ) : Char :=
  ['0', '1', '2', '3', '4', '5', '6', '7', '8', '9', 'a', 'b', 'c', 'd', 'e', 'f'].getD n '0'

/-- With the escapes for HTML that are on by default. -/
def encodeChar (c : Char) : List Char :=
  if c = '"' ∨ c = '\\' then ['\\', c]
  else if c = Char.ofNat 8 then ['\\', 'b']
  else if c = Char.ofNat 12 then ['\\', 'f']
  else if c = '\n' then ['\\', 'n']
  else if c = '\r' then ['\\', 'r']
  else if c = '\t' then ['\\', 't']
  else if c < ' ' ∨ c = '<' ∨ c = '>' ∨ c = '&' then
    ['\\', 'u', '0', '0', lowerHex (c.toNat / 16), lowerHex (c.toNat % 16)]
  else if c = Char.ofNat 0x2028 ∨ c = Char.ofNat 0x2029 then
    ['\\', 'u', '2', '0', '2', lowerHex (c.toNat % 16)]
  else [c]

/-- The characters that are written as they are. -/
def htmlSafe (c : Char) : Bool :=
  !(mustEscape c || c = '<' || c = '>' || c = '&' || c = Char.ofNat 0x2028 ||
    c = Char.ofNat 0x2029)

theorem mustEscape_of_htmlSafe {c : Char} (h : htmlSafe c = true) : mustEscape c = false := by
  cases hc : mustEscape c with
  | false => rfl
  | true => simp [htmlSafe, hc] at h

def encodeText (text : List Char) : List Char := text.flatMap encodeChar

/-- The body after more of the string was read and means `text`. -/
def Body.extend (b : Body) (raw text : List Char) : Body :=
  ⟨b.raw ++ raw, b.closed ++ text, none⟩

theorem Body.extend_extend (b : Body) (raw text raw' text' : List Char) :
    (b.extend raw text).extend raw' text' = b.extend (raw ++ raw') (text ++ text') := by
  simp [extend, closed]

theorem Body.extend_nil {b : Body} (hb : b.surrogate = none) : b.extend [] [] = b := by
  obtain ⟨raw, text, surrogate⟩ := b
  subst hb
  simp [extend, closed]

theorem Body.unit_eq (b : Body) {digits : List Char} (h : hexNumber digits < 0xD800) :
    b.unit digits = b.extend ('\\' :: 'u' :: digits) [Char.ofNat (hexNumber digits)] := by
  have hpair : (b.surrogate.bind fun hi => surrogatePair hi (hexNumber digits)) = none := by
    rw [Option.bind_eq_none_iff]
    intro hi _
    rw [surrogatePair, if_neg]
    omega
  have hsurrogate : isSurrogate (hexNumber digits) = false := by
    simp only [isSurrogate, Bool.and_eq_false_imp, decide_eq_true_eq, decide_eq_false_iff_not]
    omega
  simp [unit, hpair, hsurrogate, extend]

theorem reads_unit (b : Body) {d₁ d₂ d₃ d₄ : Char} (h₁ : (hexDigit? d₁).isSome)
    (h₂ : (hexDigit? d₂).isSome) (h₃ : (hexDigit? d₃).isSome) (h₄ : (hexDigit? d₄).isSome) :
    reads (.inside b) ['\\', 'u', d₁, d₂, d₃, d₄] =
      some ([], .inside (b.unit [d₁, d₂, d₃, d₄])) := by
  have hslash : step (.inside b) '\\' = some ([], .escape b) := rfl
  have hu : step (.escape b) 'u' = some ([], .hex b []) := rfl
  have hd₁ : step (.hex b []) d₁ = some ([], .hex b [d₁]) := if_pos h₁
  have hd₂ : step (.hex b [d₁]) d₂ = some ([], .hex b [d₁, d₂]) := if_pos h₂
  have hd₃ : step (.hex b [d₁, d₂]) d₃ = some ([], .hex b [d₁, d₂, d₃]) := if_pos h₃
  have hd₄ : step (.hex b [d₁, d₂, d₃]) d₄ = some ([], .inside (b.unit [d₁, d₂, d₃, d₄])) :=
    if_pos h₄
  simp only [reads, hslash, hu, hd₁, hd₂, hd₃, hd₄, Option.bind_some, Option.map_some,
    List.nil_append]

theorem hexDigit?_lowerHex : ∀ n < 16, (hexDigit? (lowerHex n)).isSome = true := by decide

theorem hexNumber_lowerHex :
    ∀ n < 64, hexNumber ['0', '0', lowerHex (n / 16), lowerHex (n % 16)] = n := by decide

theorem step_plain (b : Body) {c : Char} (hc : mustEscape c = false) :
    step (.inside b) c = some ([], .inside (b.extend [c] [c])) := by
  simp only [mustEscape, Bool.or_eq_false_iff, decide_eq_false_iff_not] at hc
  simp [step, hc, Body.plain, Body.extend]

theorem toNat_lt_of_hex {c : Char} (h : c < ' ' ∨ c = '<' ∨ c = '>' ∨ c = '&') :
    c.toNat < 64 := by
  rcases h with hlt | rfl | rfl | rfl
  · exact lt_trans hlt (by decide)
  · decide
  · decide
  · decide

def shortEscapes : List (Char × Char) :=
  [('"', '"'), ('\\', '\\'), (Char.ofNat 8, 'b'), (Char.ofNat 12, 'f'), ('\n', 'n'),
    ('\r', 'r'), ('\t', 't')]

/-- The ways in which the encoder writes a character. -/
inductive Encoded (c : Char) : List Char → Prop
  | plain : htmlSafe c = true → Encoded c [c]
  | short (e : Char) : (c, e) ∈ shortEscapes → Encoded c ['\\', e]
  | unit (d₁ d₂ d₃ d₄ : Char) : htmlSafe c = false → c ≠ '\\' → c ≠ 'u' → c.toNat < 0xD800 →
      (∀ d ∈ [d₁, d₂, d₃, d₄], (hexDigit? d).isSome) → hexNumber [d₁, d₂, d₃, d₄] = c.toNat →
      Encoded c ['\\', 'u', d₁, d₂, d₃, d₄]

theorem encoded_hex {c : Char} (h : c < ' ' ∨ c = '<' ∨ c = '>' ∨ c = '&') :
    Encoded c ['\\', 'u', '0', '0', lowerHex (c.toNat / 16), lowerHex (c.toNat % 16)] := by
  have hsmall := toNat_lt_of_hex h
  refine .unit _ _ _ _ ?_ ?_ ?_ (by omega) ?_ (hexNumber_lowerHex _ hsmall)
  · rcases h with h | rfl | rfl | rfl
    · simp [htmlSafe, mustEscape, h]
    · rfl
    · rfl
    · rfl
  · rintro rfl
    exact absurd hsmall (by decide)
  · rintro rfl
    exact absurd hsmall (by decide)
  · simp only [List.forall_mem_cons]
    exact ⟨rfl, rfl, hexDigit?_lowerHex _ (by omega), hexDigit?_lowerHex _ (by omega), by simp⟩

theorem encoded_encodeChar (c : Char) : Encoded c (encodeChar c) := by
  unfold encodeChar
  split_ifs with hself hb hf hn hr ht hhex hline
  · rcases hself with rfl | rfl <;> exact .short _ (by decide)
  · subst hb
    exact .short 'b' (by decide)
  · subst hf
    exact .short 'f' (by decide)
  · subst hn
    exact .short 'n' (by decide)
  · subst hr
    exact .short 'r' (by decide)
  · subst ht
    exact .short 't' (by decide)
  · exact encoded_hex hhex
  · rcases hline with rfl | rfl <;>
    · refine .unit _ _ _ _ rfl (by decide) (by decide) (by decide) ?_ rfl
      simp only [List.forall_mem_cons]
      exact ⟨rfl, rfl, rfl, rfl, by simp⟩
  · simp only [not_or] at hself hhex hline
    exact .plain (by simp [htmlSafe, mustEscape, hself, hhex, hline])

theorem reads_encodeChar (b : Body) (c : Char) :
    reads (.inside b) (encodeChar c) = some ([], .inside (b.extend (encodeChar c) [c])) := by
  have h := encoded_encodeChar c
  generalize encodeChar c = xs at h ⊢
  cases h with
  | plain hc =>
    rw [reads, step_plain b (mustEscape_of_htmlSafe hc)]
    rfl
  | short e he =>
    simp only [shortEscapes, List.mem_cons, List.not_mem_nil, or_false, Prod.mk.injEq] at he
    rcases he with ⟨rfl, rfl⟩ | ⟨rfl, rfl⟩ | ⟨rfl, rfl⟩ | ⟨rfl, rfl⟩ | ⟨rfl, rfl⟩ | ⟨rfl, rfl⟩ |
      ⟨rfl, rfl⟩ <;> rfl
  | unit d₁ d₂ d₃ d₄ _ _ _ hlt hd hnumber =>
    simp only [List.forall_mem_cons] at hd
    rw [reads_unit b hd.1 hd.2.1 hd.2.2.1 hd.2.2.2.1, b.unit_eq (by omega), hnumber,
      Char.ofNat_toNat]

/-- What the encoder writes is read back. -/
theorem reads_encodeText {b : Body} (hb : b.surrogate = none) (text : List Char) :
    reads (.inside b) (encodeText text) =
      some ([], .inside (b.extend (encodeText text) text)) := by
  induction text generalizing b with
  | nil => simp [encodeText, reads, Body.extend_nil hb]
  | cons c text ih =>
    have hcons : encodeText (c :: text) = encodeChar c ++ encodeText text := rfl
    rw [hcons, reads_append_of_eq (reads_encodeChar b c), ih rfl, Body.extend_extend]
    rfl

theorem slash_mem_encodeChar (c : Char) : '\\' ∈ encodeChar c ↔ htmlSafe c = false := by
  have h := encoded_encodeChar c
  generalize encodeChar c = xs at h ⊢
  cases h with
  | plain hc =>
    have hslash : c ≠ '\\' := by
      rintro rfl
      cases hc
    simp [hc, Ne.symm hslash]
  | short e he =>
    have hall : shortEscapes.all (fun p => !htmlSafe p.1) = true := by decide
    exact iff_of_true List.mem_cons_self (by simpa using List.all_eq_true.mp hall _ he)
  | unit d₁ d₂ d₃ d₄ hc => exact iff_of_true List.mem_cons_self hc

theorem slash_not_mem_encodeText {text : List Char} :
    '\\' ∉ encodeText text ↔ ∀ c ∈ text, htmlSafe c = true := by
  simp [encodeText, List.mem_flatMap, slash_mem_encodeChar]

end Encoding

section Plain

theorem reads_plain {b : Body} (hb : b.surrogate = none) {cs : List Char}
    (hcs : ∀ c ∈ cs, mustEscape c = false) :
    reads (.inside b) cs = some ([], .inside (b.extend cs cs)) := by
  induction cs generalizing b with
  | nil => simp [reads, Body.extend_nil hb]
  | cons c cs ih =>
    rw [List.forall_mem_cons] at hcs
    rw [reads, step_plain b hcs.1, Option.bind_some, ih rfl hcs.2, Body.extend_extend]
    rfl

theorem plain_of_reads {b : Body} {cs : List Char} (hquote : '"' ∉ cs) (hslash : '\\' ∉ cs)
    {p : List Token × Mode} (h : reads (.inside b) cs = some p) :
    ∀ c ∈ cs, mustEscape c = false := by
  induction cs generalizing b p with
  | nil => simp
  | cons c cs ih =>
    rw [List.mem_cons, not_or] at hquote hslash
    obtain ⟨⟨us, mid⟩, hstep, hrest⟩ := Option.bind_eq_some_iff.mp h
    have hc : mustEscape c = false := by
      cases stepped_of_step hstep with
      | closes => exact absurd rfl hquote.1
      | escapes => exact absurd rfl hslash.1
      | plain _ hc => exact hc
    rw [step_plain b hc] at hstep
    obtain ⟨rfl, rfl⟩ := Prod.mk.inj (Option.some.inj hstep)
    obtain ⟨r, hreads, -⟩ := Option.map_eq_some_iff.mp hrest
    rw [List.forall_mem_cons]
    exact ⟨hc, ih hquote.2 hslash.2 hreads⟩

end Plain

section Quoteless

def Mode.inString : Mode → Bool
  | .outside => false
  | .word _ => false
  | .inside _ => true
  | .escape _ => true
  | .hex _ _ => true

theorem step_inString {m m' : Mode} {c : Char} {ts : List Token} (hm : m.inString = true)
    (hc : c ≠ '"') (h : step m c = some (ts, m')) : ts = [] ∧ m'.inString = true := by
  cases stepped_of_step h with
  | opens => cases hm
  | wordEnds => cases hm
  | wordGoesOn => cases hm
  | closes => exact absurd rfl hc
  | escapes => exact ⟨rfl, rfl⟩
  | plain => exact ⟨rfl, rfl⟩
  | unicode => exact ⟨rfl, rfl⟩
  | short => exact ⟨rfl, rfl⟩
  | digit => exact ⟨rfl, rfl⟩
  | lastDigit => exact ⟨rfl, rfl⟩

theorem reads_inString {m m' : Mode} {cs : List Char} {ts : List Token}
    (hm : m.inString = true) (hcs : '"' ∉ cs) (h : reads m cs = some (ts, m')) :
    ts = [] ∧ m'.inString = true := by
  induction cs generalizing m ts with
  | nil =>
    obtain ⟨rfl, rfl⟩ := Prod.mk.inj (Option.some.inj h)
    exact ⟨rfl, hm⟩
  | cons c cs ih =>
    rw [List.mem_cons, not_or] at hcs
    obtain ⟨⟨us, mid⟩, hstep, hrest⟩ := Option.bind_eq_some_iff.mp h
    obtain ⟨⟨vs, last⟩, hreads, heq⟩ := Option.map_eq_some_iff.mp hrest
    obtain ⟨rfl, rfl⟩ := Prod.mk.inj heq
    obtain ⟨rfl, hmid⟩ := step_inString hm (Ne.symm hcs.1) hstep
    obtain ⟨rfl, hlast⟩ := ih hmid hcs.2 hreads
    exact ⟨rfl, hlast⟩

theorem body_of_scan {b : Body} {cs rest : List Char} (hquote : '"' ∉ cs)
    (hrest : ∀ b, scan (.inside b) rest = none)
    (h : scan (.inside b) (cs ++ '"' :: rest) ≠ none) :
    ∃ b', reads (.inside b) cs = some ([], .inside b') := by
  cases hreads : reads (.inside b) cs with
  | none => exact absurd (scan_append_of_none hreads _) h
  | some p =>
    obtain ⟨ts, m⟩ := p
    obtain ⟨rfl, hm⟩ := reads_inString rfl hquote hreads
    rw [scan_append_of_eq hreads] at h
    cases m with
    | outside => cases hm
    | word w => cases hm
    | inside b' => exact ⟨b', rfl⟩
    | escape b' =>
      -- the quote is escaped, so the string would go on
      have hstep : reads (.escape b') ['"'] = some ([], .inside (b'.escaped '"' '"')) := rfl
      have hfail := scan_append_of_eq hstep rest
      rw [hrest] at hfail
      rw [List.singleton_append] at hfail
      rw [hfail] at h
      exact absurd rfl h
    | hex b' digits =>
      have hstep : reads (.hex b' digits) ['"'] = none := rfl
      have hfail := scan_append_of_none hstep rest
      rw [List.singleton_append] at hfail
      rw [hfail] at h
      exact absurd rfl h

end Quoteless

section Gauge

/-- The length, with each `u` counted as minus three. -/
def gauge (cs : List Char) : ℤ := cs.length - 4 * cs.count 'u'

theorem gauge_append (xs ys : List Char) : gauge (xs ++ ys) = gauge xs + gauge ys := by
  simp only [gauge, List.length_append, List.count_append]
  push_cast
  ring

theorem gauge_cons (c : Char) (cs : List Char) : gauge (c :: cs) = gauge [c] + gauge cs :=
  gauge_append [c] cs

theorem gauge_singleton_le (c : Char) : gauge [c] ≤ 1 := by
  simp only [gauge, List.length_singleton]
  omega

theorem gauge_singleton {c : Char} (hc : c ≠ 'u') : gauge [c] = 1 := by
  simp [gauge, hc]

/-- A string that is being read, with the escape that was begun. -/
def Mode.gauge : Mode → ℤ
  | .outside => 0
  | .word _ => 0
  | .inside b => Json.gauge b.closed
  | .escape b => Json.gauge b.closed
  | .hex b digits => Json.gauge b.closed - 3 + digits.length

theorem gauge_unit_le (b : Body) (digits : List Char) :
    gauge (b.unit digits).closed ≤ gauge b.closed + 1 := by
  have hreplacement : gauge [replacementChar] = 1 := by decide
  unfold Body.unit
  split
  · next c hc =>
    have hclosed : gauge b.closed = gauge b.text + 1 := by
      unfold Body.closed
      cases hb : b.surrogate with
      | none => simp [hb] at hc
      | some hi => rw [gauge_append, hreplacement]
    have hle := gauge_singleton_le c
    simp only [Body.closed, gauge_append] at hclosed ⊢
    omega
  · split_ifs
    · change gauge (b.closed ++ [replacementChar]) ≤ _
      rw [gauge_append, hreplacement]
    · change gauge (b.closed ++ [Char.ofNat (hexNumber digits)]) ≤ _
      have hle := gauge_singleton_le (Char.ofNat (hexNumber digits))
      rw [gauge_append]
      omega

theorem gauge_hexDigit {c : Char} (hc : (hexDigit? c).isSome = true) : gauge [c] = 1 := by
  apply gauge_singleton
  rintro rfl
  exact absurd hc (by decide)

theorem step_gauge {m m' : Mode} {c : Char} {ts : List Token} (hm : m.inString = true)
    (hc : c ≠ '"') (h : step m c = some (ts, m')) : m'.gauge ≤ m.gauge + gauge [c] := by
  cases stepped_of_step h with
  | opens => cases hm
  | wordEnds => cases hm
  | wordGoesOn => cases hm
  | closes => exact absurd rfl hc
  | escapes b =>
    have hone : gauge ['\\'] = 1 := by decide
    simp only [Mode.gauge]
    omega
  | plain b => exact (gauge_append b.closed [c]).le
  | unicode b =>
    have hthree : gauge ['u'] = -3 := by decide
    simp only [Mode.gauge, List.length_nil]
    omega
  | short b out hu =>
    have hle := gauge_singleton_le out
    change gauge (b.closed ++ [out]) ≤ gauge b.closed + gauge [c]
    rw [gauge_append, gauge_singleton hu]
    omega
  | digit b digits hhex =>
    simp only [Mode.gauge, List.length_append, List.length_singleton, gauge_hexDigit hhex]
    push_cast
    omega
  | lastDigit b digits hhex hfull =>
    have hle := gauge_unit_le b (digits ++ [c])
    simp only [Mode.gauge, gauge_hexDigit hhex]
    omega

theorem reads_gauge {m m' : Mode} {cs : List Char} {ts : List Token} (hm : m.inString = true)
    (hcs : '"' ∉ cs) (h : reads m cs = some (ts, m')) : m'.gauge ≤ m.gauge + gauge cs := by
  induction cs generalizing m ts with
  | nil =>
    obtain ⟨rfl, rfl⟩ := Prod.mk.inj (Option.some.inj h)
    simp [gauge]
  | cons c cs ih =>
    rw [List.mem_cons, not_or] at hcs
    obtain ⟨⟨us, mid⟩, hstep, hrest⟩ := Option.bind_eq_some_iff.mp h
    obtain ⟨⟨vs, last⟩, hreads, heq⟩ := Option.map_eq_some_iff.mp hrest
    obtain ⟨-, rfl⟩ := Prod.mk.inj heq
    have hfirst := step_gauge hm (Ne.symm hcs.1) hstep
    have hlater : last.gauge ≤ mid.gauge + gauge cs :=
      ih (step_inString hm (Ne.symm hcs.1) hstep).2 hcs.2 hreads
    rw [gauge_cons]
    change last.gauge ≤ _
    omega

/-- The backslash of an escape does not pay for what the escape means. -/
theorem gauge_lt_of_slash {b b' : Body} (hb : b.surrogate = none) {cs : List Char}
    {ts : List Token} (hquote : '"' ∉ cs) (hslash : '\\' ∈ cs)
    (h : reads (.inside b) cs = some (ts, .inside b')) :
    gauge b'.closed < gauge b.closed + gauge cs := by
  obtain ⟨xs, ys, rfl, hxs⟩ := List.eq_append_cons_of_mem hslash
  rw [List.mem_append, not_or, List.mem_cons, not_or] at hquote
  rw [reads_append] at h
  obtain ⟨p, hp, hrest⟩ := Option.bind_eq_some_iff.mp h
  rw [reads_plain hb (plain_of_reads hquote.1 hxs hp)] at hp
  obtain rfl := Option.some.inj hp
  obtain ⟨⟨vs, last⟩, hreads, heq⟩ := Option.map_eq_some_iff.mp hrest
  obtain ⟨-, rfl⟩ := Prod.mk.inj heq
  obtain ⟨q, hq, hlater⟩ := Option.bind_eq_some_iff.mp hreads
  obtain rfl : ([], Mode.escape (b.extend xs xs)) = q := Option.some.inj hq
  obtain ⟨⟨ws, last'⟩, hafter, heq⟩ := Option.map_eq_some_iff.mp hlater
  obtain ⟨-, rfl⟩ := Prod.mk.inj heq
  have hle := reads_gauge rfl hquote.2.2 hafter
  have hone : gauge ['\\'] = 1 := by decide
  have hstart : gauge (b.extend xs xs).closed = gauge b.closed + gauge xs :=
    gauge_append b.closed xs
  simp only [Mode.gauge, hstart] at hle
  rw [gauge_append, gauge_cons, hone]
  omega

end Gauge

end DoltSwarm.Lib.Json
