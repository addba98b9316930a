import Mathlib.Data.List.Basic

/-!
# Buffered channels

A channel holds what was sent and not yet taken, the oldest first. `offer` is a send that gives up
when the buffer is full.
-/

namespace DoltSwarm.Lib.Channel

set_option autoImplicit false

variable {α : Type} {cap : ℕ} {sent taken waiting : List α}

/-- `select` with a send and a `default` that does nothing. -/
def offer (cap : ℕ) (waiting : List α) (x : α) : List α :=
  if waiting.length < cap then waiting ++ [x] else waiting

theorem offer_of_room (hroom : waiting.length < cap) (x : α) :
    offer cap waiting x = waiting ++ [x] := if_pos hroom

theorem offer_ne_nil (hcap : 0 < cap) (waiting : List α) (x : α) : offer cap waiting x ≠ [] := by
  unfold offer
  split_ifs with hroom
  · simp
  · intro hnil
    rw [hnil] at hroom
    exact hroom hcap

theorem length_offer_le (hroom : waiting.length ≤ cap) (x : α) :
    (offer cap waiting x).length ≤ cap := by
  unfold offer
  split_ifs with h
  · rw [List.length_append]
    exact h
  · exact hroom

/-- What has been taken and what is waiting was sent, in that order, and there is room for it. -/
structure Accounts (cap : ℕ) (sent taken waiting : List α) : Prop where
  room : waiting.length ≤ cap
  order : (taken ++ waiting).Sublist sent

theorem accounts_nil (cap : ℕ) : Accounts cap ([] : List α) [] [] := ⟨Nat.zero_le cap, .refl _⟩

theorem Accounts.offer (h : Accounts cap sent taken waiting) (x : α) :
    Accounts cap (sent ++ [x]) taken (offer cap waiting x) where
  room := length_offer_le h.room x
  order := by
    unfold Channel.offer
    split_ifs
    · rw [← List.append_assoc]
      exact h.order.append (List.Sublist.refl [x])
    · exact h.order.trans (List.sublist_append_left sent [x])

theorem Accounts.take {x : α} (h : Accounts cap sent taken (x :: waiting)) :
    Accounts cap sent (taken ++ [x]) waiting where
  room := Nat.le_of_succ_le h.room
  order := by
    rw [List.append_assoc]
    exact h.order

end DoltSwarm.Lib.Channel
