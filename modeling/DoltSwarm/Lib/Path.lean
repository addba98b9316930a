import Mathlib.Data.List.Basic

/-!
# Slash-separated paths

Cleaning a path goes through its components: empty ones and `.` are dropped, and `..` takes the
name before it away. At the root there is nothing to take away, so with enough `..` every rooted
path leads to every other place.
-/

namespace DoltSwarm.Lib.Path

set_option autoImplicit false

def dot : List Char := ['.']

def dotDot : List Char := ['.', '.']

/-- A component that stands for itself. -/
structure IsName (c : List Char) : Prop where
  ne_nil : c ≠ []
  ne_dot : c ≠ dot
  ne_dotDot : c ≠ dotDot
  no_slash : '/' ∉ c

/-- What `..` does to the names so far, which stand in reverse. In a path that is not rooted it
stays if there is no name to take away. -/
def climb (rooted : Bool) : List (List Char) → List (List Char)
  | [] => if rooted then [] else [dotDot]
  | last :: rest => if last = dotDot then dotDot :: last :: rest else rest

def cleanStep (rooted : Bool) (out : List (List Char)) (c : List Char) : List (List Char) :=
  if c = [] ∨ c = dot then out else if c = dotDot then climb rooted out else c :: out

/-- The names that a path comes to after `out`, in reverse. -/
def resolve (rooted : Bool) (out : List (List Char)) (path : List Char) : List (List Char) :=
  (path.splitOn '/').foldl (cleanStep rooted) out

def rootedAt (names : List (List Char)) : List Char := '/' :: ['/'].intercalate names

/-- The shortest path to the same place, found without looking at the file system. -/
def clean (path : List Char) : List Char :=
  if path.head? = some '/' then rootedAt (resolve true [] path).reverse
  else
    let names := (resolve false [] path).reverse
    if names = [] then dot else ['/'].intercalate names

/-- The elements from the first one on that is not empty, separated by slashes and cleaned. -/
def join (elems : List (List Char)) : List Char :=
  let elems := elems.dropWhile (· = [])
  if elems = [] then [] else clean (['/'].intercalate elems)

/-- The last element of a path. -/
def base (path : List Char) : List Char :=
  let last := (path.reverse.dropWhile (· = '/')).takeWhile (· ≠ '/')
  if path = [] then dot else if last = [] then ['/'] else last.reverse

/-! ## Components -/

section

variable {rooted : Bool} {out names : List (List Char)} {c path : List Char}

theorem cleanStep_of_isName (h : IsName c) : cleanStep rooted out c = c :: out := by
  simp [cleanStep, h.ne_nil, h.ne_dot, h.ne_dotDot]

theorem resolve_append_cons (a b : List Char) :
    resolve rooted out (a ++ '/' :: b) = resolve rooted (resolve rooted out a) b := by
  rw [resolve, List.splitOn_append_cons_self, List.foldl_append]
  rfl

theorem resolve_of_isName (h : IsName c) : resolve rooted out c = c :: out := by
  rw [resolve, List.splitOn_eq_singleton h.no_slash]
  exact cleanStep_of_isName h

theorem foldl_cleanStep_names (h : ∀ c ∈ names, IsName c) :
    names.foldl (cleanStep rooted) out = names.reverse ++ out := by
  induction names generalizing out with
  | nil => rfl
  | cons c names ih =>
    rw [List.foldl_cons, cleanStep_of_isName (h c List.mem_cons_self),
      ih fun c hc => h c (List.mem_cons_of_mem _ hc), List.reverse_cons, List.append_assoc]
    rfl

/-- Climbing from names takes them away one by one, and stops at the root. -/
theorem foldl_cleanStep_dotDot (hout : dotDot ∉ out) (n : ℕ) :
    (List.replicate n dotDot).foldl (cleanStep true) out = out.drop n := by
  induction n generalizing out with
  | zero => rfl
  | succ n ih =>
    rw [List.replicate_succ, List.foldl_cons]
    cases out with
    | nil =>
      have hroot : cleanStep true [] dotDot = [] := rfl
      rw [hroot, ih (by simp), List.drop_nil, List.drop_nil]
    | cons last rest =>
      have hlast : last ≠ dotDot := fun heq => hout (heq ▸ List.mem_cons_self)
      have hrest : dotDot ∉ rest := fun hmem => hout (List.mem_cons_of_mem _ hmem)
      have hup : cleanStep true (last :: rest) dotDot = rest := if_neg hlast
      rw [hup, ih hrest, List.drop_succ_cons]

theorem foldl_cleanStep_inside {cs : List (List Char)} (h : dotDot ∉ cs) :
    ∃ more, cs.foldl (cleanStep rooted) out = more ++ out := by
  induction cs generalizing out with
  | nil => exact ⟨[], rfl⟩
  | cons c cs ih =>
    have hc : c ≠ dotDot := fun heq => h (heq ▸ List.mem_cons_self)
    have hcs : dotDot ∉ cs := fun hmem => h (List.mem_cons_of_mem _ hmem)
    rw [List.foldl_cons]
    by_cases hskip : c = [] ∨ c = dot
    · have hstep : cleanStep rooted out c = out := if_pos hskip
      rw [hstep]
      exact ih hcs
    · have hstep : cleanStep rooted out c = c :: out := by
        rw [cleanStep, if_neg hskip, if_neg hc]
      obtain ⟨more, hmore⟩ := @ih (c :: out) hcs
      rw [hstep, hmore]
      exact ⟨more ++ [c], by simp⟩

theorem cleanStep_true_noClimb (h : dotDot ∉ out) (c : List Char) :
    dotDot ∉ cleanStep true out c := by
  unfold cleanStep
  split_ifs with hskip hup
  · exact h
  · cases out with
    | nil => exact h
    | cons last rest =>
      have hlast : last ≠ dotDot := fun heq => h (heq ▸ List.mem_cons_self)
      rw [climb, if_neg hlast]
      exact fun hmem => h (List.mem_cons_of_mem _ hmem)
  · intro hmem
    rcases List.mem_cons.mp hmem with heq | hmem
    · exact hup heq.symm
    · exact h hmem

theorem resolve_true_noClimb (h : dotDot ∉ out) (path : List Char) :
    dotDot ∉ resolve true out path := by
  rw [resolve]
  generalize path.splitOn '/' = cs
  induction cs generalizing out with
  | nil => exact h
  | cons c cs ih => exact ih (cleanStep_true_noClimb h c)

end

/-! ## Joining below a rooted directory -/

section

variable {dir : List Char} (hdir : dir.head? = some '/')

include hdir

theorem join_rooted (elems : List (List Char)) : join (dir :: elems) =
    rootedAt (elems.foldl (resolve true) (resolve true [] dir)).reverse := by
  obtain ⟨rest, rfl⟩ := List.head?_eq_some_iff.mp hdir
  have hjoined : ∀ (text : List Char) (out : List (List Char)),
      resolve true out (['/'].intercalate (text :: elems)) =
        elems.foldl (resolve true) (resolve true out text) := by
    induction elems with
    | nil =>
      intro text out
      simp [List.intercalate]
    | cons e elems ih =>
      intro text out
      have hcons : ['/'].intercalate (text :: e :: elems) =
          text ++ '/' :: ['/'].intercalate (e :: elems) := by simp [List.intercalate]
      rw [hcons, resolve_append_cons, ih, List.foldl_cons]
  have hhead : (['/'].intercalate (('/' :: rest) :: elems)).head? = some '/' := by
    cases elems <;> simp [List.intercalate]
  have hdrop : (('/' :: rest) :: elems).dropWhile (· = []) = ('/' :: rest) :: elems := by simp
  rw [join, hdrop, if_neg (List.cons_ne_nil _ _), clean, if_pos hhead, hjoined]

end

/-! ## Last elements -/

theorem base_append {parent name : List Char} (hparent : parent = [] ∨ parent.getLast? = some '/')
    (hname : name ≠ []) (hslash : '/' ∉ name) : base (parent ++ name) = name := by
  have hkeep : ∀ c ∈ name.reverse, decide (c ≠ '/') = true := by
    intro c hc
    rw [decide_eq_true_eq]
    rintro rfl
    exact hslash (List.mem_reverse.mp hc)
  have hdrop : (name.reverse ++ parent.reverse).dropWhile (· = '/') =
      name.reverse ++ parent.reverse := by
    obtain ⟨c, t, hct⟩ := List.exists_cons_of_ne_nil (List.reverse_ne_nil_iff.mpr hname)
    have hc := hkeep c (hct ▸ List.mem_cons_self)
    rw [hct, List.cons_append, List.dropWhile_cons, if_neg (by simpa using hc)]
  have hstop : parent.reverse.takeWhile (· ≠ '/') = [] := by
    rcases hparent with rfl | hlast
    · rfl
    · obtain ⟨t, rfl⟩ := List.getLast?_eq_some_iff.mp hlast
      simp
  have hne : parent ++ name ≠ [] := by simp [hname]
  rw [base, List.reverse_append, hdrop, List.takeWhile_append_of_pos hkeep, hstop,
    List.append_nil, if_neg hne, if_neg (List.reverse_ne_nil_iff.mpr hname), List.reverse_reverse]

end DoltSwarm.Lib.Path
