import DoltSwarm.Lib.Enumeration
import Mathlib.Data.Prod.Lex

/-!
# The hybrid logical clock of the protocol model (specs/hlc.qnt)

Wall times, counters and peer ids are unbounded integers, as in the specification.
-/

namespace DoltSwarm.Protocol

set_option autoImplicit false

abbrev PeerID := Int

structure HLC where
  wall : Int
  logical : Int
  peer : PeerID
  deriving DecidableEq, Repr

/-- Lexicographic on (wall, logical, peer). -/
def less (a b : HLC) : Bool :=
  if a.wall ≠ b.wall then a.wall < b.wall
  else if a.logical ≠ b.logical then a.logical < b.logical
  else a.peer < b.peer

def tick (clock : HLC) (localWall : Int) (peer : PeerID) : HLC :=
  if localWall > clock.wall then ⟨localWall, 0, peer⟩
  else ⟨clock.wall, clock.logical + 1, peer⟩

def observe (clock remote : HLC) (localWall : Int) (peer : PeerID) : HLC :=
  let maxWall :=
    if localWall ≥ remote.wall ∧ localWall ≥ clock.wall then localWall
    else if remote.wall ≥ clock.wall then remote.wall
    else clock.wall
  let newLogical :=
    if maxWall > clock.wall ∧ maxWall > remote.wall then 0
    else if maxWall = clock.wall ∧ maxWall = remote.wall then
      if clock.logical > remote.logical then clock.logical + 1 else remote.logical + 1
    else if maxWall = clock.wall then clock.logical + 1
    else remote.logical + 1
  ⟨maxWall, newLogical, peer⟩

theorem less_iff (a b : HLC) : less a b = true ↔ a.wall < b.wall ∨
    a.wall = b.wall ∧ (a.logical < b.logical ∨ a.logical = b.logical ∧ a.peer < b.peer) := by
  simp only [less, Lib.ite_ne_lt_iff Int.lt_irrefl, decide_eq_true_eq]

def HLC.key (a : HLC) : Int ×ₗ Int ×ₗ Int := toLex (a.wall, toLex (a.logical, a.peer))

theorem less_strictTotal : Lib.StrictTotalOn less fun _ => True := by
  apply Lib.strictTotalOn_of_key HLC.key
  · intro a b
    rw [less_iff, HLC.key, HLC.key, Prod.Lex.toLex_lt_toLex, Prod.Lex.toLex_lt_toLex]
  · rintro ⟨wa, la, pa⟩ ⟨wb, lb, pb⟩ hkey
    simpa [HLC.key] using hkey

theorem less_trans {a b c : HLC} (hab : less a b = true) (hbc : less b c = true) :
    less a c = true := less_strictTotal.trans trivial trivial trivial hab hbc

theorem less_of_not_less_of_less {a b c : HLC} (hba : less b a = false)
    (hbc : less b c = true) : less a c = true :=
  less_strictTotal.of_not_of_lt trivial trivial trivial hba hbc

theorem not_less_of_less {a b : HLC} (hab : less a b = true) : less b a = false :=
  less_strictTotal.asymm trivial trivial hab

theorem not_less_trans {a b c : HLC} (hab : less a b = false) (hbc : less b c = false) :
    less a c = false := by
  cases hac : less a c with
  | false => rfl
  | true =>
    rw [less_of_not_less_of_less hab hac] at hbc
    cases hbc

theorem less_tick (clock : HLC) (localWall : Int) (peer : PeerID) :
    less clock (tick clock localWall peer) = true := by
  rw [less_iff]
  simp only [tick]
  split_ifs with hlater
  · exact Or.inl hlater
  · exact Or.inr ⟨rfl, Or.inl (Int.lt_succ _)⟩

theorem less_observe (clock remote : HLC) (localWall : Int) (peer : PeerID) :
    less clock (observe clock remote localWall peer) = true ∧
      less remote (observe clock remote localWall peer) = true := by
  rw [less_iff, less_iff]
  simp only [observe]
  split_ifs <;> constructor <;> omega

end DoltSwarm.Protocol
