import Mathlib.Data.Nat.Digits.Defs
import Zlvm.Lib.Loop

/-!
# Numbers read digit by digit

Reading a number from its most significant digit on, with a bound that is checked before each
multiplication.

* `horner` — the number; `horner_eq_ofDigits` — it is that of its digits.
* `boundedStep` — one digit, checked with a truncated division.
* **`foldlM_boundedStep`** — the checks reject exactly the numbers above the bound.
-/

namespace Horner

open Loop

variable {ε : Type*} {base bound : ℕ}

/-- The number with the given digits, the most significant one first, behind `value`. -/
def horner (base value : ℕ) (digits : List ℕ) : ℕ :=
  digits.foldl (fun value digit => value * base + digit) value

@[simp] theorem horner_nil (value : ℕ) : horner base value [] = value := rfl

@[simp] theorem horner_cons (value digit : ℕ) (digits : List ℕ) :
    horner base value (digit :: digits) = horner base (value * base + digit) digits := rfl

theorem horner_eq (value : ℕ) (digits : List ℕ) :
    horner base value digits = base ^ digits.length * value + Nat.ofDigits base digits.reverse := by
  induction digits generalizing value with
  | nil => simp
  | cons digit digits ih =>
      rw [horner_cons, ih, Nat.ofDigits_reverse_cons, List.length_cons]
      ring

theorem horner_eq_ofDigits (digits : List ℕ) :
    horner base 0 digits = Nat.ofDigits base digits.reverse := by
  rw [horner_eq, Nat.mul_zero, Nat.zero_add]

/-- More digits make a number larger. -/
theorem le_horner (hbase : 0 < base) (value : ℕ) (digits : List ℕ) :
    value ≤ horner base value digits := by
  rw [horner_eq]
  exact (Nat.le_mul_of_pos_left value (Nat.pow_pos hbase)).trans (Nat.le_add_right _ _)

/-- One digit, if the number does not exceed the bound. -/
def boundedStep (base bound : ℕ) (e : ε) (value digit : ℕ) : Except ε ℕ := do
  require (value ≤ (bound - digit) / base) e
  return value * base + digit

/-- **The check is exact**, although the division truncates. -/
theorem le_div_iff (hbase : 0 < base) {value digit : ℕ} (hdigit : digit ≤ bound) :
    value ≤ (bound - digit) / base ↔ value * base + digit ≤ bound := by
  rw [Nat.le_div_iff_mul_le hbase]
  omega

theorem boundedStep_eq (hbase : 0 < base) {e : ε} {value digit : ℕ} (hdigit : digit ≤ bound) :
    boundedStep base bound e value digit
      = if value * base + digit ≤ bound then .ok (value * base + digit) else .error e := by
  rw [boundedStep, require]
  by_cases h : value * base + digit ≤ bound
  · rw [if_pos h, if_pos ((le_div_iff hbase hdigit).mpr h)]
    rfl
  · rw [if_neg h, if_neg fun hle => h ((le_div_iff hbase hdigit).mp hle)]
    rfl

/-- **Reading a number** fails exactly if it exceeds the bound. -/
theorem foldlM_boundedStep (hbase : 0 < base) (e : ε) {digits : List ℕ} {value : ℕ}
    (hdigits : ∀ digit ∈ digits, digit ≤ bound) (hvalue : value ≤ bound) :
    digits.foldlM (boundedStep base bound e) value
      = if horner base value digits ≤ bound then .ok (horner base value digits)
        else .error e := by
  induction digits generalizing value with
  | nil =>
      rw [horner_nil, if_pos hvalue]
      rfl
  | cons digit digits ih =>
      obtain ⟨hdigit, hdigits⟩ := List.forall_mem_cons.mp hdigits
      rw [List.foldlM_cons, horner_cons, boundedStep_eq hbase hdigit]
      by_cases hstep : value * base + digit ≤ bound
      · rw [if_pos hstep, ok_bind]
        exact ih hdigits hstep
      · -- once above the bound the number does not come back
        have hle := le_horner hbase (value * base + digit) digits
        rw [if_neg hstep, if_neg fun h => hstep (hle.trans h), error_bind]

end Horner
