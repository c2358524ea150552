import Mathlib.Data.List.Nodup

/-!
# Slots that are filled once

A row of slots, some of them free.  Entries come one by one, and each needs a free slot at its
index.

* `Fills` — the entries find free slots; `Fills.unique_free` and `exists_fills` say when.
* `Fills.getElem?_entry`, `Fills.getElem?_other` — what the slots hold afterwards.
* **`exists_full_iff`** — the entries fill all slots exactly if their indices are those of the free
  slots, each of them once and in any order.
-/

namespace Slots

variable {β : Type*}

/-- The entries go to free slots, one after the other. -/
inductive Fills : List (Option β) → List (ℕ × β) → List (Option β) → Prop
  | nil (slots : List (Option β)) : Fills slots [] slots
  | cons {slots filled : List (Option β)} {entry : ℕ × β} {entries : List (ℕ × β)}
      (free : slots[entry.1]? = some none)
      (later : Fills (slots.set entry.1 (some entry.2)) entries filled) :
      Fills slots (entry :: entries) filled

variable {slots filled : List (Option β)} {entries : List (ℕ × β)}

theorem Fills.length_eq (h : Fills slots entries filled) : filled.length = slots.length := by
  induction h with
  | nil slots => rfl
  | cons free later ih => rw [ih, List.length_set]

/-- Taking a slot leaves the others as they are. -/
theorem getElem?_set_eq_free {entry : ℕ × β} {i : ℕ} :
    (slots.set entry.1 (some entry.2))[i]? = some none ↔ i ≠ entry.1 ∧ slots[i]? = some none := by
  by_cases hi : i = entry.1
  · rw [hi, List.getElem?_set_self']
    cases slots[entry.1]? with
    | none => simp
    | some slot => simp
  · rw [List.getElem?_set_ne (Ne.symm hi)]
    exact (and_iff_right hi).symm

/-- No two entries share a slot, and every entry's slot was free. -/
theorem Fills.unique_free (h : Fills slots entries filled) :
    (entries.map Prod.fst).Nodup ∧ ∀ entry ∈ entries, slots[entry.1]? = some none := by
  induction h with
  | nil slots => simp
  | @cons slots filled entry entries free later ih =>
      obtain ⟨hnodup, hfree⟩ := ih
      refine ⟨List.nodup_cons.mpr ⟨fun hmem => ?_, hnodup⟩, fun other hother => ?_⟩
      · obtain ⟨other, hother, heq⟩ := List.mem_map.mp hmem
        exact (getElem?_set_eq_free.mp (hfree other hother)).1 heq
      · rcases List.mem_cons.mp hother with rfl | hother
        · exact free
        · exact (getElem?_set_eq_free.mp (hfree other hother)).2

/-- Entries with different free slots can be put. -/
theorem exists_fills : ∀ {entries : List (ℕ × β)} {slots : List (Option β)},
    (entries.map Prod.fst).Nodup → (∀ entry ∈ entries, slots[entry.1]? = some none) →
      ∃ filled, Fills slots entries filled
  | [], slots, _, _ => ⟨slots, .nil slots⟩
  | entry :: entries, slots, hnodup, hfree => by
      obtain ⟨hnot, hnodup⟩ := List.nodup_cons.mp hnodup
      obtain ⟨filled, hfills⟩ := @exists_fills entries (slots.set entry.1 (some entry.2)) hnodup
        fun other hother => getElem?_set_eq_free.mpr
          ⟨fun heq => hnot (List.mem_map.mpr ⟨other, hother, heq⟩),
            hfree other (List.mem_cons_of_mem _ hother)⟩
      exact ⟨filled, .cons (hfree entry List.mem_cons_self) hfills⟩

/-- A slot that no entry takes keeps what it held. -/
theorem Fills.getElem?_other (h : Fills slots entries filled) {i : ℕ}
    (hi : i ∉ entries.map Prod.fst) : filled[i]? = slots[i]? := by
  induction h with
  | nil slots => rfl
  | @cons slots filled entry entries free later ih =>
      rw [List.map_cons, List.mem_cons, not_or] at hi
      rw [ih hi.2, List.getElem?_set_ne (Ne.symm hi.1)]

/-- The slot of an entry holds its value. -/
theorem Fills.getElem?_entry (h : Fills slots entries filled) :
    ∀ entry ∈ entries, filled[entry.1]? = some (some entry.2) := by
  induction h with
  | nil slots => simp
  | @cons slots filled entry entries free later ih =>
      intro other hother
      rcases List.mem_cons.mp hother with rfl | hother
      · have hnot := (List.nodup_cons.mp (Fills.cons free later).unique_free.1).1
        have hlt := (List.getElem?_eq_some_iff.mp free).1
        rw [later.getElem?_other hnot, List.getElem?_set_self hlt]
      · exact ih other hother

/-- All slots are filled if and only if every free one is taken. -/
theorem Fills.full_iff (h : Fills slots entries filled) :
    none ∉ filled ↔ ∀ i, slots[i]? = some none → i ∈ entries.map Prod.fst := by
  constructor
  · intro hfull i hi
    by_contra hnot
    exact hfull (List.mem_of_getElem? ((h.getElem?_other hnot).trans hi))
  · intro htaken hnone
    obtain ⟨i, hi⟩ := List.mem_iff_getElem?.mp hnone
    by_cases hmem : i ∈ entries.map Prod.fst
    · obtain ⟨entry, hentry, rfl⟩ := List.mem_map.mp hmem
      rw [h.getElem?_entry entry hentry] at hi
      cases hi
    · exact hmem (htaken i ((h.getElem?_other hmem).symm.trans hi))

theorem none_not_mem_iff : none ∉ filled ↔ ∃ values : List β, filled = values.map some := by
  constructor
  · intro hfull
    induction filled with
    | nil => exact ⟨[], rfl⟩
    | cons slot filled ih =>
        rw [List.mem_cons, not_or] at hfull
        obtain ⟨values, rfl⟩ := ih hfull.2
        cases slot with
        | none => exact absurd rfl hfull.1
        | some value => exact ⟨value :: values, rfl⟩
  · rintro ⟨values, rfl⟩
    simp

/-- **Filling every slot.** -/
theorem exists_full_iff :
    (∃ filled, Fills slots entries filled ∧ none ∉ filled) ↔
      (entries.map Prod.fst).Nodup ∧ ∀ i, i ∈ entries.map Prod.fst ↔ slots[i]? = some none := by
  constructor
  · rintro ⟨filled, hfills, hfull⟩
    obtain ⟨hnodup, hfree⟩ := hfills.unique_free
    refine ⟨hnodup, fun i => ⟨fun hmem => ?_, hfills.full_iff.mp hfull i⟩⟩
    obtain ⟨entry, hentry, rfl⟩ := List.mem_map.mp hmem
    exact hfree entry hentry
  · rintro ⟨hnodup, hmem⟩
    obtain ⟨filled, hfills⟩ := exists_fills hnodup fun entry hentry =>
      (hmem entry.1).mp (List.mem_map_of_mem hentry)
    exact ⟨filled, hfills, hfills.full_iff.mpr fun i => (hmem i).mpr⟩

end Slots
