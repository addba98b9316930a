import Mathlib.Tactic.TypeStar

/-!
# Runs of a labelled transition system

A run keeps, for every step taken, the state it was taken in and its label, so that a
condition on a run can speak about the state before a step and about pairs of steps.
-/

namespace DoltSwarm.Lib

set_option autoImplicit false

variable {S A : Type}

/-- The steps of a run, the last one first, and the state they lead to. -/
inductive Run (step : S → A → S → Prop) (start : S) : List (S × A) → S → Prop
  | nil : Run step start [] start
  | snoc {tr : List (S × A)} {s : S} {a : A} {s' : S} :
      Run step start tr s → step s a s' → Run step start ((s, a) :: tr) s'

def Reachable (step : S → A → S → Prop) (start s : S) : Prop := ∃ tr, Run step start tr s

variable {step : S → A → S → Prop} {start : S}

/-- A property of the steps so far and the present state holds along the run if every step,
allowed by the guard, carries it on. -/
theorem Run.induct {I : List (S × A) → S → Prop} {G : S → A → Prop} (h0 : I [] start)
    (hstep : ∀ tr s a s', Run step start tr s → I tr s → G s a → step s a s' →
      I ((s, a) :: tr) s')
    {tr : List (S × A)} {s : S} (h : Run step start tr s) (hG : ∀ x ∈ tr, G x.1 x.2) :
    I tr s := by
  induction h with
  | nil => exact h0
  | snoc hr hs ih =>
    simp only [List.mem_cons, forall_eq_or_imp] at hG
    exact hstep _ _ _ _ hr (ih hG.2) hG.1 hs

theorem Run.invariant {I : S → Prop} (h0 : I start)
    (hstep : ∀ s a s', I s → step s a s' → I s') {tr : List (S × A)} {s : S}
    (h : Run step start tr s) : I s :=
  Run.induct (I := fun _ s => I s) (G := fun _ _ => True) h0
    (fun _ _ _ _ _ hI _ hs => hstep _ _ _ hI hs) h fun _ _ => trivial

theorem Reachable.invariant {I : S → Prop} (h0 : I start)
    (hstep : ∀ s a s', I s → step s a s' → I s') {s : S} (h : Reachable step start s) : I s := by
  obtain ⟨tr, hr⟩ := h
  exact hr.invariant h0 hstep

theorem Reachable.tail {s s' : S} {a : A} (h : Reachable step start s) (hs : step s a s') :
    Reachable step start s' := by
  obtain ⟨tr, hr⟩ := h
  exact ⟨_, hr.snoc hs⟩

theorem Run.initial_of_mem {tr : List (S × A)} {s : S} (h : Run step start tr s)
    {x : S × A} (hx : x ∈ tr) : ∃ tr₀, Run step start tr₀ x.1 ∧ tr₀ ⊆ tr := by
  induction h with
  | nil => simp at hx
  | snoc hr _ ih =>
    rcases List.mem_cons.mp hx with rfl | hx
    · exact ⟨_, hr, List.subset_cons_self _ _⟩
    · obtain ⟨tr₀, hr₀, hsub⟩ := ih hx
      exact ⟨tr₀, hr₀, List.subset_cons_of_subset _ hsub⟩

theorem Run.reachable_of_mem {tr : List (S × A)} {s : S} (h : Run step start tr s)
    {x : S × A} (hx : x ∈ tr) : Reachable step start x.1 := by
  obtain ⟨tr₀, hr₀, _⟩ := h.initial_of_mem hx
  exact ⟨tr₀, hr₀⟩

theorem Run.step_of_mem {tr : List (S × A)} {s : S} (h : Run step start tr s) {x : S × A}
    (hx : x ∈ tr) : ∃ t tr', step x.1 x.2 t ∧ Run step t tr' s := by
  induction h with
  | nil => simp at hx
  | snoc hr hs ih =>
    rcases List.mem_cons.mp hx with rfl | hx
    · exact ⟨_, [], hs, .nil⟩
    · obtain ⟨t, tr', ht, hrest⟩ := ih hx
      exact ⟨t, _, ht, hrest.snoc hs⟩

theorem Run.append {tr tr' : List (S × A)} {s s' : S} (h : Run step start tr s)
    (h' : Run step s tr' s') : Run step start (tr' ++ tr) s' := by
  induction h' with
  | nil => exact h
  | snoc _ hs ih => exact ih.snoc hs

theorem Run.split {later earlier : List (S × A)} {x : S × A} {s : S}
    (h : Run step start (later ++ x :: earlier) s) :
    ∃ t, Run step start earlier x.1 ∧ step x.1 x.2 t ∧ Run step t later s := by
  induction later generalizing s with
  | nil =>
    cases h with
    | snoc hr hs => exact ⟨s, hr, hs, .nil⟩
  | cons y later ih =>
    cases h with
    | snoc hr hs =>
      obtain ⟨t, hearlier, hx, hlater⟩ := ih hr
      exact ⟨t, hearlier, hx, hlater.snoc hs⟩

/-- A system in which every step from a state that satisfies `I` makes a measure smaller, and
keeps `I`, comes to a halt. -/
theorem exists_halting_run {I : S → Prop} (measure : S → Nat)
    (h : ∀ s a s', I s → step s a s' → I s' ∧ measure s' < measure s) {s : S} (hs : I s) :
    ∃ tr s', Run step s tr s' ∧ ∀ a s'', ¬step s' a s'' := by
  induction hn : measure s using Nat.strongRecOn generalizing s with
  | ind n ih =>
    by_cases hstep : ∃ a s', step s a s'
    · obtain ⟨a, t, ht⟩ := hstep
      obtain ⟨hI, hlt⟩ := h s a t hs ht
      obtain ⟨tr, t', hrun, hhalt⟩ := ih (measure t) (hn ▸ hlt) hI rfl
      exact ⟨_, t', (Run.nil.snoc ht).append hrun, hhalt⟩
    · exact ⟨[], s, .nil, fun a t ht => hstep ⟨a, t, ht⟩⟩

theorem Run.length_add_le (measure : S → Nat)
    (h : ∀ s a s', step s a s' → measure s' < measure s) {tr : List (S × A)} {s : S}
    (hrun : Run step start tr s) : tr.length + measure s ≤ measure start := by
  induction hrun with
  | nil => exact Nat.le_of_eq (Nat.zero_add _)
  | snoc _ hs ih =>
    have hlt := h _ _ _ hs
    rw [List.length_cons]
    omega

/-- What the steps of a run give out, in the order in which they were taken. -/
def outputs {B : Type} (f : S × A → Option B) (tr : List (S × A)) : List B :=
  tr.reverse.filterMap f

theorem outputs_cons {B : Type} (f : S × A → Option B) (x : S × A) (tr : List (S × A)) :
    outputs f (x :: tr) = outputs f tr ++ (f x).toList := by
  rw [outputs, List.reverse_cons, List.filterMap_append]
  cases h : f x <;> simp [outputs, h]

theorem outputs_append {B : Type} (f : S × A → Option B) (later earlier : List (S × A)) :
    outputs f (later ++ earlier) = outputs f earlier ++ outputs f later := by
  rw [outputs, List.reverse_append, List.filterMap_append]
  rfl

/-- A step of the first kind was taken, and only steps of the second kind after it. -/
def Since (P Q : S × A → Prop) (tr : List (S × A)) : Prop :=
  ∃ later x earlier, tr = later ++ x :: earlier ∧ P x ∧ ∀ y ∈ later, Q y

theorem not_since_nil {P Q : S × A → Prop} : ¬Since P Q [] := by
  rintro ⟨later, x, earlier, htr, -⟩
  exact List.append_ne_nil_of_right_ne_nil later (List.cons_ne_nil x earlier) htr.symm

theorem since_cons {P Q : S × A → Prop} {x : S × A} {tr : List (S × A)} :
    Since P Q (x :: tr) ↔ P x ∨ Since P Q tr ∧ Q x := by
  constructor
  · rintro ⟨later, y, earlier, htr, hy, hlater⟩
    cases later with
    | nil =>
      obtain ⟨rfl, -⟩ := List.cons.inj htr
      exact Or.inl hy
    | cons z later =>
      obtain ⟨rfl, rfl⟩ := List.cons.inj htr
      simp only [List.mem_cons, forall_eq_or_imp] at hlater
      exact Or.inr ⟨⟨later, y, earlier, rfl, hy, hlater.2⟩, hlater.1⟩
  · rintro (hx | ⟨⟨later, y, earlier, rfl, hy, hlater⟩, hx⟩)
    · exact ⟨[], x, tr, rfl, hx, by simp⟩
    · refine ⟨x :: later, y, earlier, rfl, hy, ?_⟩
      simp only [List.mem_cons, forall_eq_or_imp]
      exact ⟨hx, hlater⟩

/-- The states a run has passed through, the present one included. -/
def visited (tr : List (S × A)) (s : S) : List S := s :: tr.map Prod.fst

theorem mem_visited_snoc {tr : List (S × A)} {s t : S} (ht : t ∈ visited tr s) (a : A) (s' : S) :
    t ∈ visited ((s, a) :: tr) s' := List.mem_cons_of_mem _ ht

theorem mem_visited_append {later earlier : List (S × A)} {s t : S} (u : S)
    (h : t ∈ visited (later ++ earlier) s) : t ∈ visited later s ∨ t ∈ visited earlier u := by
  rw [visited, List.map_append, ← List.cons_append] at h
  exact (List.mem_append.mp h).imp_right (List.mem_cons_of_mem u)

theorem Run.of_visited {tr : List (S × A)} {s t : S} (h : Run step start tr s)
    (ht : t ∈ visited tr s) : Reachable step start t ∧ ∃ tr', Run step t tr' s := by
  rcases List.mem_cons.mp ht with rfl | ht
  · exact ⟨⟨_, h⟩, [], .nil⟩
  · obtain ⟨x, hx, rfl⟩ := List.mem_map.mp ht
    obtain ⟨u, tr', hstep, hrest⟩ := h.step_of_mem hx
    exact ⟨h.reachable_of_mem hx, _, (Run.nil.snoc hstep).append hrest⟩

section Executable

variable (f : S → A → Option S)

/-- Take one step of an executable system and record it. -/
def record (acc : List (S × A) × S) (a : A) : Option (List (S × A) × S) :=
  (f acc.2 a).map fun s' => ((acc.2, a) :: acc.1, s')

/-- Run a list of labels; `none` when one of them is not enabled. -/
def execute (s : S) (actions : List A) : Option (List (S × A) × S) :=
  actions.foldlM (record f) ([], s)

variable {f}

theorem run_of_foldlM (hf : ∀ s a s', f s a = some s' → step s a s') (actions : List A)
    {tr tr' : List (S × A)} {s s' : S} (hr : Run step start tr s)
    (h : actions.foldlM (record f) (tr, s) = some (tr', s')) : Run step start tr' s' := by
  induction actions generalizing tr s with
  | nil =>
    simp only [List.foldlM_nil, Option.pure_def, Option.some.injEq, Prod.mk.injEq] at h
    obtain ⟨rfl, rfl⟩ := h
    exact hr
  | cons a as ih =>
    rw [List.foldlM_cons] at h
    cases hfa : f s a with
    | none => simp [record, hfa] at h
    | some t =>
      simp only [record, hfa, Option.map_some, Option.bind_eq_bind, Option.bind_some] at h
      exact ih (hr.snoc (hf s a t hfa)) h

theorem run_of_execute (hf : ∀ s a s', f s a = some s' → step s a s') {actions : List A}
    {tr : List (S × A)} {s : S} (h : execute f start actions = some (tr, s)) :
    Run step start tr s := run_of_foldlM hf actions Run.nil h

/-- The recorded steps and the last state of a run that goes through. -/
def outcome (f : S → A → Option S) (s : S) (actions : List A) : List (S × A) × S :=
  (execute f s actions).getD ([], s)

theorem run_outcome (hf : ∀ s a s', f s a = some s' → step s a s') {actions : List A}
    (h : (execute f start actions).isSome = true) :
    Run step start (outcome f start actions).1 (outcome f start actions).2 := by
  obtain ⟨x, hx⟩ := Option.isSome_iff_exists.mp h
  rw [outcome, hx, Option.getD_some]
  exact run_of_execute hf hx

/-- A property of the steps and the last state is read off a single execution. -/
theorem exists_run_of_execute (hf : ∀ s a s', f s a = some s' → step s a s') (actions : List A)
    {P : List (S × A) → S → Prop} [∀ tr s, Decidable (P tr s)]
    (h : (execute f start actions).any (fun r => decide (P r.1 r.2)) = true) :
    ∃ tr s, Run step start tr s ∧ P tr s := by
  cases hr : execute f start actions with
  | none => simp [hr] at h
  | some r =>
    rw [hr] at h
    exact ⟨r.1, r.2, run_of_execute hf hr, of_decide_eq_true h⟩

end Executable

section Deterministic

variable (next : S → A → S)

/-- The steps taken under a list of labels, the last one first. -/
def trail (s : S) : List A → List (S × A)
  | [] => []
  | a :: actions => trail (next s a) actions ++ [(s, a)]

theorem forall_mem_trail_cons {P : S × A → Prop} {s : S} {a : A} {actions : List A} :
    (∀ x ∈ trail next s (a :: actions), P x) ↔
      P (s, a) ∧ ∀ x ∈ trail next (next s a) actions, P x := by
  simp [trail, or_imp, forall_and, and_comm]

theorem run_trail {possible : S → A → Prop}
    (hstep : ∀ s a, possible s a → step s a (next s a)) (actions : List A) {s : S}
    (h : ∀ x ∈ trail next s actions, possible x.1 x.2) :
    Run step s (trail next s actions) (actions.foldl next s) := by
  induction actions generalizing s with
  | nil => exact .nil
  | cons a actions ih =>
    obtain ⟨hfirst, hrest⟩ := (forall_mem_trail_cons next).mp h
    exact (Run.nil.snoc (hstep s a hfirst)).append (ih hrest)

end Deterministic

end DoltSwarm.Lib
