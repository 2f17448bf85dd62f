/-
# Bounded channels

A first-in-first-out queue that never holds more than its capacity. A push
waits where the queue is full, a pop where it is empty.

Key definitions: `Channel`, `Channel.push`, `Channel.pop`.
-/
import Mathlib.Tactic.Common

namespace Zerohop

/-- What is in the channel, at most `cap` items. -/
structure Channel (cap : ℕ) (α : Type*) where
  items : List α
  le_cap : items.length ≤ cap

namespace Channel

variable {cap : ℕ} {α : Type*}

def empty : Channel cap α := ⟨[], Nat.zero_le cap⟩

/-- `none` where the channel is full. -/
def push (c : Channel cap α) (x : α) : Option (Channel cap α) :=
  if h : c.items.length < cap then
    some ⟨c.items ++ [x], by rw [List.length_append]; exact h⟩
  else none

/-- `none` where the channel is empty. -/
def pop : Channel cap α → Option (α × Channel cap α)
  | ⟨[], _⟩ => none
  | ⟨x :: items, h⟩ => some (x, ⟨items, Nat.le_of_succ_le h⟩)

theorem items_of_push {c d : Channel cap α} {x : α} (h : c.push x = some d) :
    d.items = c.items ++ [x] := by
  unfold push at h
  split_ifs at h
  rw [← Option.some.inj h]

theorem push_of_empty {c : Channel cap α} (hc : c.items = []) (hcap : 0 < cap) (x : α) :
    ∃ d, c.push x = some d := by
  unfold push
  rw [dif_pos (by rw [hc]; exact hcap)]
  exact ⟨_, rfl⟩

theorem items_of_pop {c d : Channel cap α} {x : α} (h : c.pop = some (x, d)) :
    c.items = x :: d.items := by
  obtain ⟨items, hle⟩ := c
  cases items with
  | nil => cases h
  | cons y items =>
    cases h
    rfl

theorem pop_eq_none {c : Channel cap α} : c.pop = none ↔ c.items = [] := by
  obtain ⟨items, hle⟩ := c
  cases items with
  | nil => exact iff_of_true rfl rfl
  | cons y items => exact iff_of_false (by nofun) (by nofun)

end Channel

end Zerohop
