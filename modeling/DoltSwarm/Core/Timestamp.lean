import DoltSwarm.Lib.Enumeration
import Mathlib

/-!
# Hybrid logical clock timestamps (protocol/hlc.go)

Wall times are `int64` nanoseconds and counters `int32`, with the wrap-around of Go's
arithmetic. Peer ids are compared as Go compares strings.
-/

namespace DoltSwarm.Core

set_option autoImplicit false

structure HLCTimestamp where
  wall : Int64
  logical : Int32
  peerID : String
  deriving DecidableEq, Repr

namespace HLCTimestamp

def zero : HLCTimestamp := ⟨0, 0, ""⟩

/-- Lexicographic on wall time, counter, peer id. -/
def less (h other : HLCTimestamp) : Bool :=
  if h.wall ≠ other.wall then h.wall < other.wall
  else if h.logical ≠ other.logical then h.logical < other.logical
  else h.peerID < other.peerID

def equal (h other : HLCTimestamp) : Bool :=
  h.wall == other.wall && h.logical == other.logical && h.peerID == other.peerID

def isZero (h : HLCTimestamp) : Bool := h.wall == 0 && h.logical == 0 && h.peerID == ""

/-- `"%d:%d:%s"`, the key of the commit index. -/
def string (h : HLCTimestamp) : String :=
  h.wall.toInt.repr ++ ":" ++ h.logical.toInt.repr ++ ":" ++ h.peerID

theorem equal_iff (a b : HLCTimestamp) : a.equal b = true ↔ a = b := by
  obtain ⟨wa, la, pa⟩ := a
  obtain ⟨wb, lb, pb⟩ := b
  simp [equal, and_assoc]

theorem isZero_iff (a : HLCTimestamp) : a.isZero = true ↔ a = zero := by
  obtain ⟨w, l, p⟩ := a
  simp [isZero, zero, and_assoc]

theorem less_iff (a b : HLCTimestamp) : a.less b = true ↔ a.wall.toInt < b.wall.toInt ∨
    a.wall.toInt = b.wall.toInt ∧ (a.logical.toInt < b.logical.toInt ∨
      a.logical.toInt = b.logical.toInt ∧ a.peerID < b.peerID) := by
  rw [Int64.toInt_inj, Int32.toInt_inj, ← Int64.lt_iff_toInt_lt, ← Int32.lt_iff_toInt_lt]
  simp only [less, Lib.ite_ne_lt_iff @Int64.lt_irrefl, Lib.ite_ne_lt_iff @Int32.lt_irrefl,
    decide_eq_true_eq]

def key (a : HLCTimestamp) : Int ×ₗ Int ×ₗ String :=
  toLex (a.wall.toInt, toLex (a.logical.toInt, a.peerID))

theorem less_iff_key (a b : HLCTimestamp) : a.less b = true ↔ a.key < b.key := by
  rw [less_iff, key, key, Prod.Lex.toLex_lt_toLex, Prod.Lex.toLex_lt_toLex]

theorem key_injective : Function.Injective key := by
  rintro ⟨wa, la, pa⟩ ⟨wb, lb, pb⟩ hkey
  simp only [key, toLex_inj, Prod.mk.injEq, Int64.toInt_inj, Int32.toInt_inj] at hkey
  obtain ⟨rfl, rfl, rfl⟩ := hkey
  rfl

theorem less_strictTotal : Lib.StrictTotalOn less fun _ => True :=
  Lib.strictTotalOn_of_key key less_iff_key key_injective

theorem less_irrefl (a : HLCTimestamp) : a.less a = false := less_strictTotal.irrefl a trivial

theorem less_trans {a b c : HLCTimestamp} (hab : a.less b = true) (hbc : b.less c = true) :
    a.less c = true := less_strictTotal.trans trivial trivial trivial hab hbc

theorem not_less_of_less {a b : HLCTimestamp} (hab : a.less b = true) : b.less a = false :=
  less_strictTotal.asymm trivial trivial hab

theorem less_of_not_less_of_less {a b c : HLCTimestamp} (hba : b.less a = false)
    (hbc : b.less c = true) : a.less c = true :=
  less_strictTotal.of_not_of_lt trivial trivial trivial hba hbc

theorem less_of_less_of_not_less {a b c : HLCTimestamp} (hab : a.less b = true)
    (hcb : c.less b = false) : a.less c = true := by
  rcases less_strictTotal.tri b c trivial trivial with hbc | rfl | hlt
  · exact less_trans hab hbc
  · exact hab
  · rw [hcb] at hlt
    cases hlt

theorem colon_not_mem_repr (i : Int) : ':' ∉ i.repr.toList := by
  have hdigits : ∀ n : ℕ, ':' ∉ n.repr.toList := by
    intro n hn
    rw [Nat.repr_eq_ofList_toDigits, String.toList_ofList] at hn
    have hdigit := Nat.isDigit_of_mem_toDigits (b := 10) (by decide) (by decide) hn
    exact absurd hdigit (by decide)
  rw [Int.repr_eq_if]
  split
  · exact hdigits _
  · rw [String.toList_append, List.mem_append, not_or]
    exact ⟨by decide, hdigits _⟩

theorem append_separator_inj {c : Char} {a a' b b' : List Char} (ha : c ∉ a) (ha' : c ∉ a')
    (h : a ++ c :: b = a' ++ c :: b') : a = a' ∧ b = b' := by
  induction a generalizing a' with
  | nil =>
    cases a' with
    | nil => simpa using h
    | cons x a' =>
      simp only [List.nil_append, List.cons_append, List.cons.injEq] at h
      exact absurd (h.1 ▸ List.mem_cons_self) ha'
  | cons x a ih =>
    cases a' with
    | nil =>
      simp only [List.nil_append, List.cons_append, List.cons.injEq] at h
      exact absurd (h.1 ▸ List.mem_cons_self) ha
    | cons y a' =>
      simp only [List.cons_append, List.cons.injEq] at h
      obtain ⟨rfl, hb⟩ := ih (List.not_mem_of_not_mem_cons ha)
        (List.not_mem_of_not_mem_cons ha') h.2
      exact ⟨by rw [h.1], hb⟩

theorem string_injective : Function.Injective string := by
  intro a b h
  obtain ⟨wa, la, pa⟩ := a
  obtain ⟨wb, lb, pb⟩ := b
  have hl := congrArg String.toList h
  have hcolon : ":".toList = [':'] := by decide
  simp only [string, String.toList_append, List.append_assoc, hcolon, List.singleton_append] at hl
  obtain ⟨hw, hrest⟩ := append_separator_inj (colon_not_mem_repr _) (colon_not_mem_repr _) hl
  obtain ⟨hlog, hp⟩ :=
    append_separator_inj (colon_not_mem_repr _) (colon_not_mem_repr _) hrest
  rw [String.toList_inj] at hw hlog hp
  rw [Int64.toInt_inj.mp (Int.repr_inj.mp hw), Int32.toInt_inj.mp (Int.repr_inj.mp hlog), hp]

end HLCTimestamp

/-- The clock of one peer. -/
structure HLC where
  timestamp : HLCTimestamp
  peerID : String
  deriving DecidableEq, Repr

namespace HLC

def newHLC (peerID : String) (physicalTime : Int64) : HLC := ⟨⟨physicalTime, 0, peerID⟩, peerID⟩

def now (c : HLC) (physicalTime : Int64) : HLCTimestamp × HLC :=
  let timestamp :=
    if c.timestamp.wall ≥ physicalTime then
      { c.timestamp with logical := c.timestamp.logical + 1 }
    else { c.timestamp with wall := physicalTime, logical := 0 }
  (⟨timestamp.wall, timestamp.logical, c.peerID⟩, { c with timestamp := timestamp })

def update (c : HLC) (remote : HLCTimestamp) (physicalTime : Int64) : HLC :=
  let maxWall := max c.timestamp.wall (max remote.wall physicalTime)
  let timestamp :=
    if maxWall = c.timestamp.wall ∧ maxWall = remote.wall then
      { c.timestamp with logical := max c.timestamp.logical remote.logical + 1 }
    else if maxWall = c.timestamp.wall then
      { c.timestamp with logical := c.timestamp.logical + 1 }
    else if maxWall = remote.wall then
      { c.timestamp with wall := remote.wall, logical := remote.logical + 1 }
    else { c.timestamp with wall := physicalTime, logical := 0 }
  { c with timestamp := timestamp }

end HLC

end DoltSwarm.Core
