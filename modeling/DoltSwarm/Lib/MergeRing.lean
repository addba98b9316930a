import Mathlib.Order.Defs.Unbundled

/-!
# One-way merges around a ring

Three elements `a`, `b`, `c` are moved in turn: `a` to a join with `b`, `b` to a join with `c`, `c`
to a join with the new `a`. A join of this kind lies above its two arguments and above nothing
else, so an element that is apart from both neighbours stays apart from them for ever.
-/

namespace DoltSwarm.Lib

set_option autoImplicit false

universe u

variable {α : Type u} (le : α → α → Prop)

/-- `x` is put on top of `a` and `b`, with nothing in between. -/
structure JoinOf (x a b : α) : Prop where
  left : le a x
  right : le b x
  below : ∀ c, le c x → c = x ∨ le c a ∨ le c b

/-- `b` is apart from `a` and from `c`, and `a` does not have `c` below it. -/
structure RingApart (a b c : α) : Prop where
  left : ¬le a b
  left' : ¬le b a
  right : ¬le b c
  right' : ¬le c b
  closing : ¬le c a

variable {le} {a b c x y z : α}

theorem JoinOf.not_below (hx : JoinOf le x a b) (ha : ¬le c a) (hb : ¬le c b) (hbc : ¬le b c) :
    ¬le c x := by
  intro hcx
  rcases hx.below c hcx with rfl | h | h
  · exact hbc hx.right
  · exact ha h
  · exact hb h

/-- A turn around the ring leads to the same situation one level up. -/
theorem RingApart.turn [IsPreorder α le] (h : RingApart le a b c) (hx : JoinOf le x a b)
    (hy : JoinOf le y b c) (hz : JoinOf le z c x) : RingApart le x y z := by
  have hcx : ¬le c x := hx.not_below h.closing h.right' h.right
  have hyx : ¬le y x := fun hle => hcx (trans_of le hy.right hle)
  have hxb : ¬le x b := fun hle => h.left (trans_of le hx.left hle)
  have hxc : ¬le x c := fun hle => h.right (trans_of le hx.right hle)
  have hxy : ¬le x y := by
    intro hle
    rcases hy.below x hle with rfl | h' | h'
    · exact hyx (refl _)
    · exact hxb h'
    · exact hxc h'
  have hyz : ¬le y z := by
    intro hle
    rcases hz.below y hle with rfl | h' | h'
    · exact hxy hz.right
    · exact h.right (trans_of le hy.left h')
    · exact hyx h'
  exact
    { left := hxy
      left' := hyx
      right := hyz
      right' := fun hle => hxy (trans_of le hz.right hle)
      closing := fun hle => hcx (trans_of le hz.left hle) }

end DoltSwarm.Lib
