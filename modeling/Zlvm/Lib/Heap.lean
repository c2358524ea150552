import Mathlib.Data.Nat.Basic
import Mathlib.Logic.Function.Basic

/-!
# A heap and the C library

Blocks that are allocated and freed, as a C program sees them: it is given their addresses, and may
use no other ones.

* `Heap` — the blocks that are there, each with its contents, and how many calls have been refused.
* `Libc` — what the library answers: null, or an address without a block.  It may depend on the
  number of the call, so any allocation may be refused.
* `Heap.malloc`, `Heap.calloc`, `Heap.realloc`, `Heap.free` — the functions; the last two are not
  defined for an address without a block.
* `Heap.malloc_placed`, `Heap.calloc_placed`, `Heap.realloc_resized`, `Heap.free_of_owned` — what they
  do.
-/

namespace CHeap

/-- An address. -/
abbrev Pointer := ℕ

/-- `NULL` -/
def null : Pointer := 0

/-- The contents of the blocks, by their addresses. -/
abbrev Blocks (β : Type) := Pointer → Option (List β)

/-- What the library answers, and what uninitialised memory holds. -/
structure Libc (β : Type) where
  malloc : ℕ → (blocks : Blocks β) → ℕ → Option { p : Pointer // p ≠ null ∧ blocks p = none }
  realloc : ℕ → (blocks : Blocks β) → (p : Pointer) → ℕ →
    Option { q : Pointer // q ≠ null ∧ (q = p ∨ blocks q = none) }
  garbage : ℕ → ℕ → β

/-- The blocks, how many calls there have been, and how many of them have answered null to a request
for memory. -/
structure Heap (β : Type) where
  calls : ℕ
  refusals : ℕ
  blocks : Blocks β
  null_free : blocks null = none

variable {β : Type}

namespace Heap

/-- The heap after a call that has answered null. -/
def refuse (heap : Heap β) : Heap β :=
  { heap with calls := heap.calls + 1, refusals := heap.refusals + 1 }

/-- The heap with other contents at an address. -/
def set (heap : Heap β) (p : Pointer) (hp : p ≠ null) (contents : Option (List β)) : Heap β where
  calls := heap.calls + 1
  refusals := heap.refusals
  blocks := Function.update heap.blocks p contents
  null_free := by rw [Function.update_of_ne hp.symm, heap.null_free]

/-- A new block with some contents, or null. -/
def place (heap : Heap β) (contents : List β) :
    Option { p : Pointer // p ≠ null ∧ heap.blocks p = none } → Pointer × Heap β
  | none => (null, heap.refuse)
  | some p => (p, heap.set p p.2.1 (some contents))

/-- Uninitialised memory. -/
def garbage (heap : Heap β) (libc : Libc β) (size : ℕ) : List β :=
  (List.range size).map (libc.garbage heap.calls)

/-- `malloc` -/
def malloc (libc : Libc β) (size : ℕ) (heap : Heap β) : Pointer × Heap β :=
  heap.place (heap.garbage libc size) (libc.malloc heap.calls heap.blocks size)

/-- `calloc`, which fills the block with zeros. -/
def calloc (libc : Libc β) (zero : β) (count size : ℕ) (heap : Heap β) : Pointer × Heap β :=
  heap.place (List.replicate (count * size) zero)
    (libc.malloc heap.calls heap.blocks (count * size))

/-- A block with new contents, maybe elsewhere, or the old one and null. -/
def move (heap : Heap β) (p : Pointer) (hp : p ≠ null) (contents : List β) :
    Option { q : Pointer // q ≠ null ∧ (q = p ∨ heap.blocks q = none) } → Pointer × Heap β
  | none => (null, heap.refuse)
  | some q => (q, (heap.set p hp none).set q q.2.1 (some contents))

/-- `realloc`, which leaves the block alone if it fails. -/
def realloc (libc : Libc β) (p : Pointer) (size : ℕ) (heap : Heap β) : Option (Pointer × Heap β) :=
  if hp : p = null then some (heap.malloc libc size)
  else (heap.blocks p).map fun contents =>
    heap.move p hp (contents.take size ++ heap.garbage libc (size - contents.length))
      (libc.realloc heap.calls heap.blocks p size)

/-- `free` -/
def free (p : Pointer) (heap : Heap β) : Option (Heap β) :=
  if hp : p = null then some heap
  else (heap.blocks p).map fun _ => heap.set p hp none

/-! ## What the functions do -/

section Rules

variable {libc : Libc β} {heap heap' : Heap β} {p : Pointer}

/-- There is a new block, unless the answer is null. -/
inductive Placed (heap : Heap β) (contents : List β) (p : Pointer) (heap' : Heap β) : Prop
  | refused (isNull : p = null) (same : heap'.blocks = heap.blocks)
      (counted : heap'.refusals = heap.refusals + 1)
  | placed (notNull : p ≠ null) (fresh : heap.blocks p = none)
      (block : heap'.blocks = Function.update heap.blocks p (some contents))
      (served : heap'.refusals = heap.refusals)

theorem placed_place {contents : List β} (answer : Option { p : Pointer // p ≠ null ∧ heap.blocks p = none }) :
    Placed heap contents (heap.place contents answer).1 (heap.place contents answer).2 := by
  cases answer with
  | none => exact .refused rfl rfl rfl
  | some p => exact .placed p.2.1 p.2.2 rfl rfl

theorem Placed.refusals_le {contents : List β} (h : Placed heap contents p heap') :
    heap.refusals ≤ heap'.refusals := by
  cases h with
  | refused isNull same counted => omega
  | placed notNull fresh block served => omega

theorem malloc_placed (libc : Libc β) (size : ℕ) (heap : Heap β) :
    Placed heap (heap.garbage libc size) (heap.malloc libc size).1 (heap.malloc libc size).2 :=
  placed_place _

theorem calloc_placed (libc : Libc β) (zero : β) (count size : ℕ) (heap : Heap β) :
    Placed heap (List.replicate (count * size) zero) (heap.calloc libc zero count size).1
      (heap.calloc libc zero count size).2 :=
  placed_place _

@[simp] theorem length_garbage (heap : Heap β) (libc : Libc β) (size : ℕ) :
    (heap.garbage libc size).length = size := by
  rw [garbage, List.length_map, List.length_range]

/-- A block is at an address, or the address is null. -/
def Owned (blocks : Blocks β) (p : Pointer) : Prop := p = null ∨ (blocks p).isSome = true

/-- What is at an address; at null there is nothing. -/
def contents (blocks : Blocks β) (p : Pointer) : List β := (blocks p).getD []

/-- The block has another size and maybe another address, unless the answer is null. -/
inductive Resized (heap : Heap β) (p : Pointer) (size : ℕ) (q : Pointer) (heap' : Heap β) : Prop
  | refused (isNull : q = null) (same : heap'.blocks = heap.blocks)
      (counted : heap'.refusals = heap.refusals + 1)
  | resized (notNull : q ≠ null) (fresh : q = p ∨ heap.blocks q = none) (rest : List β)
      (length : rest.length = size - (contents heap.blocks p).length)
      (block : heap'.blocks = Function.update (Function.update heap.blocks p none) q
        (some ((contents heap.blocks p).take size ++ rest)))
      (served : heap'.refusals = heap.refusals)

theorem update_null (heap : Heap β) : Function.update heap.blocks null none = heap.blocks := by
  rw [← heap.null_free, Function.update_eq_self]

/-- **Changing the size** of a block that is there, or of none. -/
theorem realloc_resized (libc : Libc β) (size : ℕ) (h : Owned heap.blocks p) :
    ∃ q heap', heap.realloc libc p size = some (q, heap') ∧ Resized heap p size q heap' := by
  by_cases hp : p = null
  · refine ⟨_, _, dif_pos hp, ?_⟩
    have hempty : contents heap.blocks p = [] := by rw [contents, hp, heap.null_free, Option.getD]
    cases malloc_placed libc size heap with
    | refused isNull same counted => exact .refused isNull same counted
    | placed notNull fresh block served =>
        refine .resized notNull (.inr fresh) (heap.garbage libc size) ?_ ?_ served
        · rw [length_garbage, hempty, List.length_nil, Nat.sub_zero]
        · rw [hempty, hp, update_null, List.take_nil, List.nil_append]
          exact block
  · obtain ⟨old, hold⟩ := Option.isSome_iff_exists.mp (h.resolve_left hp)
    have hcontents : contents heap.blocks p = old := by rw [contents, hold, Option.getD]
    have hrealloc : heap.realloc libc p size = some (heap.move p hp
        (old.take size ++ heap.garbage libc (size - old.length))
        (libc.realloc heap.calls heap.blocks p size)) := by
      rw [realloc, dif_neg hp, hold, Option.map_some]
    refine ⟨_, _, hrealloc, ?_⟩
    cases libc.realloc heap.calls heap.blocks p size with
    | none => exact .refused rfl rfl rfl
    | some q =>
        refine .resized q.2.1 q.2.2 (heap.garbage libc (size - old.length)) ?_ ?_ rfl
        · rw [length_garbage, hcontents]
        · rw [hcontents]
          rfl

/-- **Freeing** a block that is there, or none. -/
theorem free_of_owned (h : Owned heap.blocks p) : ∃ heap', heap.free p = some heap' ∧
    heap'.blocks = Function.update heap.blocks p none ∧ heap'.refusals = heap.refusals := by
  by_cases hp : p = null
  · exact ⟨heap, dif_pos hp, by rw [hp, update_null], rfl⟩
  · obtain ⟨old, hold⟩ := Option.isSome_iff_exists.mp (h.resolve_left hp)
    refine ⟨heap.set p hp none, ?_, rfl, rfl⟩
    rw [free, dif_neg hp, hold, Option.map_some]

end Rules

end Heap

end CHeap
