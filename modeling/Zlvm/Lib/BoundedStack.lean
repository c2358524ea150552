import Mathlib.Data.List.Basic

/-!
# Bounded stacks

A last-in-first-out stack that holds at most `capacity` items, the most recent first.

* `BoundedStack` — the items with their bound.
* `push`, `pop` — overflow exactly at the capacity, underflow exactly when empty.
-/

/-- A stack of at most `capacity` items, the top first. -/
structure BoundedStack (α : Type) (capacity : ℕ) where
  items : List α
  bounded : items.length ≤ capacity

namespace BoundedStack

/-- What can go wrong. -/
inductive Fault
  | overflow
  | underflow
deriving DecidableEq

variable {α : Type} {capacity : ℕ}

/-- The number of items. -/
def depth (s : BoundedStack α capacity) : ℕ := s.items.length

/-- Put an item on top. -/
def push (s : BoundedStack α capacity) (x : α) : Except Fault (BoundedStack α capacity) :=
  if h : s.depth < capacity then .ok ⟨x :: s.items, h⟩ else .error .overflow

/-- Take the top item off. -/
def pop (s : BoundedStack α capacity) : Except Fault (α × BoundedStack α capacity) :=
  match s with
  | ⟨[], _⟩ => .error .underflow
  | ⟨x :: xs, h⟩ => .ok (x, ⟨xs, Nat.le_of_succ_le h⟩)

theorem push_of_lt {s : BoundedStack α capacity} (h : s.depth < capacity) (x : α) :
    s.push x = .ok ⟨x :: s.items, h⟩ := dif_pos h

@[simp] theorem pop_nil {h : ([] : List α).length ≤ capacity} :
    (⟨[], h⟩ : BoundedStack α capacity).pop = .error .underflow := rfl

@[simp] theorem pop_cons {x : α} {xs : List α} {h : (x :: xs).length ≤ capacity} :
    (⟨x :: xs, h⟩ : BoundedStack α capacity).pop = .ok (x, ⟨xs, Nat.le_of_succ_le h⟩) := rfl

end BoundedStack
