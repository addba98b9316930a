import Mathlib

/-!
# String literals of SQL

Two quotes in a literal stand for one, and a backslash gives the next character another meaning
or none at all. Doubling the quotes of a text before it is put between quotes therefore saves
its quotes only: what comes back is the `meaning` of the text. A text that is put between quotes
as it is stays one literal if its own quotes stand in pairs.
-/

namespace DoltSwarm.Lib.SqlLiteral

set_option autoImplicit false

def backslashed (c : Char) : List Char :=
  if c = '0' then [Char.ofNat 0]
  else if c = 'b' then [Char.ofNat 8]
  else if c = 'n' then ['\n']
  else if c = 'r' then ['\r']
  else if c = 't' then ['\t']
  else if c = 'Z' then [Char.ofNat 26]
  else if c = '%' ∨ c = '_' then ['\\', c]
  else [c]

def extend (xs : List Char) : List (List Char) → List (List Char)
  | [] => []
  | a :: as => (xs ++ a) :: as

/-- The arguments of a call, each a literal, from within the first of them to the end of the
statement. -/
def arguments : List Char → Option (List (List Char))
  | [] => none
  | c :: cs =>
    if c = '\'' then
      match cs with
      | [] => none
      | c₁ :: cs₁ =>
        if c₁ = '\'' then (arguments cs₁).map (extend ['\''])
        else if c₁ :: cs₁ = [')', ';'] then some [[]]
        else
          match cs₁ with
          | c₂ :: c₃ :: cs₃ =>
            if c₁ = ',' ∧ c₂ = ' ' ∧ c₃ = '\'' then (arguments cs₃).map ([] :: ·) else none
          | _ => none
    else if c = '\\' then
      match cs with
      | [] => none
      | c' :: cs' => (arguments cs').map (extend (backslashed c'))
    else (arguments cs).map (extend [c])

def doubled (cs : List Char) : List Char :=
  cs.flatMap fun c => if c = '\'' then ['\'', '\''] else [c]

/-- Every backslash is followed by a character other than a quote. -/
def paired : List Char → Bool
  | [] => true
  | c :: cs =>
    if c = '\\' then
      match cs with
      | [] => false
      | c' :: cs' => c' ≠ '\'' && paired cs'
    else paired cs

/-- What is read back for a text whose quotes were doubled. -/
def meaning : List Char → List Char
  | [] => []
  | c :: cs =>
    if c = '\\' then
      match cs with
      | [] => []
      | c' :: cs' => backslashed c' ++ meaning cs'
    else c :: meaning cs

/-- The quotes stand in pairs. -/
def evenQuotes : List Char → Bool
  | [] => true
  | c :: cs =>
    if c = '\'' then
      match cs with
      | [] => false
      | c' :: cs' => c' = '\'' && evenQuotes cs'
    else evenQuotes cs

theorem paired_slash (c : Char) (cs : List Char) :
    paired ('\\' :: c :: cs) = (c ≠ '\'' && paired cs) := by
  rw [paired.eq_def]
  rfl

theorem paired_cons {c : Char} (hc : c ≠ '\\') (cs : List Char) :
    paired (c :: cs) = paired cs := by
  rw [paired.eq_def]
  simp [hc]

theorem meaning_slash (c : Char) (cs : List Char) :
    meaning ('\\' :: c :: cs) = backslashed c ++ meaning cs := by
  rw [meaning.eq_def]
  rfl

theorem meaning_cons {c : Char} (hc : c ≠ '\\') (cs : List Char) :
    meaning (c :: cs) = c :: meaning cs := by
  rw [meaning.eq_def]
  simp [hc]

theorem extend_extend (xs ys : List Char) (as : List (List Char)) :
    extend xs (extend ys as) = extend (xs ++ ys) as := by
  cases as with
  | nil => rfl
  | cons a as => rw [extend, extend, extend, List.append_assoc]

theorem length_extend (xs : List Char) (as : List (List Char)) :
    (extend xs as).length = as.length := by
  cases as <;> rfl

theorem arguments_slash (c : Char) (cs : List Char) :
    arguments ('\\' :: c :: cs) = (arguments cs).map (extend (backslashed c)) := by
  rw [arguments.eq_def]
  rfl

theorem arguments_quotes (cs : List Char) :
    arguments ('\'' :: '\'' :: cs) = (arguments cs).map (extend ['\'']) := by
  rw [arguments.eq_def]
  rfl

theorem arguments_comma (cs : List Char) :
    arguments ('\'' :: ',' :: ' ' :: '\'' :: cs) = (arguments cs).map ([] :: ·) := by
  rw [arguments.eq_def]
  rfl

theorem arguments_end : arguments ['\'', ')', ';'] = some [[]] := rfl

theorem arguments_cons {c : Char} (hquote : c ≠ '\'') (hc : c ≠ '\\') (cs : List Char) :
    arguments (c :: cs) = (arguments cs).map (extend [c]) := by
  rw [arguments.eq_def]
  simp [hquote, hc]

theorem evenQuotes_quotes (cs : List Char) : evenQuotes ('\'' :: '\'' :: cs) = evenQuotes cs := by
  rw [evenQuotes.eq_def]
  simp

theorem evenQuotes_cons {c : Char} (hc : c ≠ '\'') (cs : List Char) :
    evenQuotes (c :: cs) = evenQuotes cs := by
  rw [evenQuotes.eq_def]
  simp [hc]

theorem doubled_cons (c : Char) (cs : List Char) :
    doubled (c :: cs) = (if c = '\'' then ['\'', '\''] else [c]) ++ doubled cs := rfl

theorem evenQuotes_append {c : Char} (hc : c ≠ '\'') (xs ys : List Char) :
    evenQuotes (xs ++ c :: ys) = (evenQuotes xs && evenQuotes ys) := by
  induction xs using evenQuotes.induct with
  | case1 => rw [List.nil_append, evenQuotes_cons hc, evenQuotes, Bool.true_and]
  | case2 => simp [evenQuotes, hc]
  | case3 c' xs ih =>
    rw [List.cons_append, List.cons_append, evenQuotes.eq_def, evenQuotes.eq_def ('\'' :: c' :: xs)]
    simp [ih, Bool.and_assoc]
  | case4 c' xs hc' ih => rw [List.cons_append, evenQuotes_cons hc', evenQuotes_cons hc', ih]

/-- What is put between quotes is read back up to the meaning of its backslashes. -/
theorem arguments_doubled {cs : List Char} (h : paired cs = true) (rest : List Char) :
    arguments (doubled cs ++ rest) = (arguments rest).map (extend (meaning cs)) := by
  have hnil : extend [] = id := by
    funext as
    cases as <;> rfl
  induction cs using paired.induct with
  | case1 => simp [doubled, meaning, hnil]
  | case2 => simp [paired] at h
  | case3 c cs ih =>
    rw [paired_slash, Bool.and_eq_true, decide_eq_true_eq] at h
    rw [doubled_cons, doubled_cons, if_neg (by decide), if_neg h.1]
    simp [arguments_slash, meaning_slash, ih h.2, Function.comp_def, extend_extend]
  | case4 c cs hc ih =>
    rw [paired_cons hc] at h
    rw [doubled_cons]
    by_cases hquote : c = '\''
    · subst hquote
      simp [arguments_quotes, meaning_cons hc, ih h, Function.comp_def, extend_extend]
    · simp [arguments_cons hquote hc, meaning_cons hc, hquote, ih h, Function.comp_def,
        extend_extend]

theorem paired_append {xs : List Char} (h : paired xs = true) (ys : List Char) :
    paired (xs ++ ys) = paired ys := by
  induction xs using paired.induct with
  | case1 => rfl
  | case2 => simp [paired] at h
  | case3 c cs ih =>
    rw [paired_slash, Bool.and_eq_true, decide_eq_true_eq] at h
    simp [paired_slash, h.1, ih h.2]
  | case4 c cs hc ih =>
    rw [paired_cons hc] at h
    rw [List.cons_append, paired_cons hc, ih h]

theorem meaning_append {xs : List Char} (h : paired xs = true) (ys : List Char) :
    meaning (xs ++ ys) = meaning xs ++ meaning ys := by
  induction xs using paired.induct with
  | case1 => rfl
  | case2 => simp [paired] at h
  | case3 c cs ih =>
    rw [paired_slash, Bool.and_eq_true, decide_eq_true_eq] at h
    simp [meaning_slash, ih h.2]
  | case4 c cs hc ih =>
    rw [paired_cons hc] at h
    rw [List.cons_append, meaning_cons hc, meaning_cons hc, ih h, List.cons_append]

theorem meaning_of_not_mem {cs : List Char} (h : '\\' ∉ cs) : meaning cs = cs := by
  induction cs with
  | nil => rfl
  | cons c cs ih =>
    rw [List.mem_cons, not_or] at h
    rw [meaning_cons (Ne.symm h.1), ih h.2]

theorem paired_of_not_mem {cs : List Char} (h : '\\' ∉ cs) : paired cs = true := by
  induction cs with
  | nil => rfl
  | cons c cs ih =>
    rw [List.mem_cons, not_or] at h
    rw [paired_cons (Ne.symm h.1), ih h.2]

theorem doubled_of_not_mem {cs : List Char} (h : '\'' ∉ cs) : doubled cs = cs := by
  induction cs with
  | nil => rfl
  | cons c cs ih =>
    rw [List.mem_cons, not_or] at h
    rw [doubled_cons, if_neg (Ne.symm h.1), ih h.2, List.singleton_append]

theorem arguments_plain {cs : List Char} (hquote : '\'' ∉ cs) (hslash : '\\' ∉ cs)
    (rest : List Char) : arguments (cs ++ rest) = (arguments rest).map (extend cs) := by
  have h := arguments_doubled (paired_of_not_mem hslash) rest
  rw [doubled_of_not_mem hquote, meaning_of_not_mem hslash] at h
  exact h

theorem arguments_next {cs : List Char} (hquote : '\'' ∉ cs) (hslash : '\\' ∉ cs)
    (rest : List Char) :
    arguments (cs ++ '\'' :: ',' :: ' ' :: '\'' :: rest) = (arguments rest).map (cs :: ·) := by
  simp [arguments_plain hquote hslash, arguments_comma, Function.comp_def, extend]

theorem arguments_last {cs : List Char} (hquote : '\'' ∉ cs) (hslash : '\\' ∉ cs) :
    arguments (cs ++ ['\'', ')', ';']) = some [cs] := by
  simp [arguments_plain hquote hslash, arguments_end, extend]

theorem arguments_of_even {cs : List Char} (hslash : '\\' ∉ cs) (heven : evenQuotes cs = true) :
    ∃ value, ∀ rest, arguments (cs ++ rest) = (arguments rest).map (extend value) := by
  induction cs using evenQuotes.induct with
  | case1 => exact ⟨[], arguments_plain (by simp) (by simp)⟩
  | case2 => simp [evenQuotes] at heven
  | case3 c cs ih =>
    rw [evenQuotes.eq_def] at heven
    simp only [if_true, Bool.and_eq_true, decide_eq_true_eq] at heven
    obtain ⟨rfl, heven⟩ := heven
    simp only [List.mem_cons, not_or] at hslash
    obtain ⟨value, hvalue⟩ := ih hslash.2.2 heven
    refine ⟨'\'' :: value, fun rest => ?_⟩
    simp [arguments_quotes, hvalue, Function.comp_def, extend_extend]
  | case4 c cs hc ih =>
    rw [evenQuotes_cons hc] at heven
    rw [List.mem_cons, not_or] at hslash
    obtain ⟨value, hvalue⟩ := ih hslash.2 heven
    refine ⟨c :: value, fun rest => ?_⟩
    simp [arguments_cons hc (Ne.symm hslash.1), hvalue, Function.comp_def, extend_extend]

theorem arguments_stray {c₁ : Char} {cs : List Char} (hquote : c₁ ≠ '\'')
    (hend : c₁ :: cs ≠ [')', ';']) (hcomma : ∀ cs', c₁ :: cs ≠ ',' :: ' ' :: '\'' :: cs') :
    arguments ('\'' :: c₁ :: cs) = none := by
  rw [arguments.eq_def]
  simp only [if_true, if_neg hquote, if_neg hend]
  split
  · next c₂ c₃ cs₃ =>
    refine if_neg ?_
    rintro ⟨rfl, rfl, rfl⟩
    exact hcomma cs₃ rfl
  · rfl

section Closed

-- a character that the syntax between arguments does not use ends the text
variable {c : Char} (hc : c ∉ ['\'', ',', ' ', ')', ';']) {rest cs : List Char}
  {as : List (List Char)}

include hc

/-- At a quote that is not one of a pair the literal ends, so another one has to begin. -/
theorem exists_next_of_quote (hpair : cs.head? ≠ some '\'')
    (h : arguments ('\'' :: (cs ++ c :: rest)) = some as) :
    ∃ cs', cs = ',' :: ' ' :: '\'' :: cs' := by
  simp only [List.mem_cons, List.not_mem_nil, or_false, not_or] at hc
  obtain ⟨hquote, hcomma, hblank, hparen, hsemi⟩ := hc
  rcases cs with _ | ⟨c₁, _ | ⟨c₂, _ | ⟨c₃, cs⟩⟩⟩
  · rw [List.nil_append, arguments_stray hquote (by simp [hparen]) (by simp [hcomma])] at h
    cases h
  all_goals simp only [List.head?_cons, ne_eq, Option.some.injEq] at hpair
  · rw [List.cons_append, List.nil_append,
      arguments_stray hpair (by simp [hsemi]) (by simp [hblank])] at h
    cases h
  · rw [List.cons_append, List.cons_append, List.nil_append,
      arguments_stray hpair (by simp) (by simp [hquote])] at h
    cases h
  · by_cases hnext : c₁ = ',' ∧ c₂ = ' ' ∧ c₃ = '\''
    · obtain ⟨rfl, rfl, rfl⟩ := hnext
      exact ⟨cs, rfl⟩
    · simp only [List.cons_append] at h
      rw [arguments_stray hpair (by simp) fun cs' heq => hnext (by simp_all)] at h
      cases h

/-- A text that is put between quotes as it is takes up at least one argument, and more than one
if its quotes do not stand in pairs. -/
theorem arguments_of_append (hslash : '\\' ∉ cs) (h : arguments (cs ++ c :: rest) = some as) :
    ∃ as', arguments (c :: rest) = some as' ∧ as'.length ≤ as.length ∧
      (evenQuotes cs = false → as'.length < as.length) := by
  induction hn : cs.length using Nat.strong_induction_on generalizing cs as with
  | h n ih =>
    cases cs with
    | nil => exact ⟨as, h, le_rfl, fun hodd => by cases hodd⟩
    | cons c₀ cs =>
      rw [List.mem_cons, not_or] at hslash
      by_cases hfirst : c₀ = '\''
      · subst hfirst
        by_cases hpair : cs.head? = some '\''
        · obtain ⟨cs, rfl⟩ := List.head?_eq_some_iff.mp hpair
          rw [List.cons_append, List.cons_append, arguments_quotes] at h
          obtain ⟨as₁, h₁, rfl⟩ := Option.map_eq_some_iff.mp h
          rw [evenQuotes_quotes, length_extend]
          exact ih cs.length (by simp at hn; omega) (by simp_all) h₁ rfl
        · obtain ⟨cs, rfl⟩ := exists_next_of_quote hc hpair h
          simp only [List.cons_append, arguments_comma] at h
          obtain ⟨as₁, h₁, rfl⟩ := Option.map_eq_some_iff.mp h
          obtain ⟨as', has', hle, -⟩ := ih cs.length (by simp at hn; omega) (by simp_all) h₁ rfl
          exact ⟨as', has', by simp; omega, fun _ => by simp; omega⟩
      · rw [List.cons_append, arguments_cons hfirst (Ne.symm hslash.1)] at h
        obtain ⟨as₁, h₁, rfl⟩ := Option.map_eq_some_iff.mp h
        rw [evenQuotes_cons hfirst, length_extend]
        exact ih cs.length (by simp at hn; omega) hslash.2 h₁ rfl

end Closed

end DoltSwarm.Lib.SqlLiteral
