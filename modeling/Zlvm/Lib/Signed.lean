import Mathlib.Algebra.Ring.Int.Defs
import Mathlib.Algebra.Ring.Nat
import Mathlib.Data.Int.Basic

/-!
# Two's complement

Words as signed numbers, and arithmetic on them in twice the width, where nothing overflows.

* `toInt_word` — the signed value of a word; `toInt_word_emod` — it is the word modulo `2 ^ 32`.
* `toNat_low` — the low half of a signed number.
* `toInt_add_wide`, `toInt_sub_wide`, `toInt_mul_wide`, `toInt_div_wide`, `toInt_mod_wide` — the
  operations on sign-extended words.
-/

namespace Signed

/-- **The signed value** of a word. -/
theorem toInt_word (w : UInt32) : w.toInt32.toInt
    = if w.toNat < 2 ^ 31 then (w.toNat : ℤ) else (w.toNat : ℤ) - 2 ^ 32 := by
  have h : w.toInt32.toInt = if 2 * w.toNat < 2 ^ 32 then (w.toNat : ℤ) else w.toNat - (2 ^ 32 : ℕ) :=
    BitVec.toInt_eq_toNat_cond _
  rw [h]
  split <;> split <;> omega

theorem toInt_word_emod (w : UInt32) : w.toInt32.toInt % 2 ^ 32 = w.toNat := by
  have hlt := w.toNat_lt
  rw [toInt_word]
  split <;> omega

theorem toInt_word_inj {a b : UInt32} : a.toInt32.toInt = b.toInt32.toInt ↔ a = b :=
  ⟨fun h => by
    have hb := toInt_word_emod b
    rw [← h, toInt_word_emod] at hb
    exact UInt32.toNat_inj.mp (by omega), fun h => by rw [h]⟩

/-- **The low half** of a signed number is the number modulo `2 ^ 32`. -/
theorem toNat_low (v : Int64) : (v.toUInt64.toUInt32.toNat : ℤ) = v.toInt % 2 ^ 32 := by
  have h : v.toInt = if 2 * v.toUInt64.toNat < 2 ^ 64 then (v.toUInt64.toNat : ℤ)
      else v.toUInt64.toNat - (2 ^ 64 : ℕ) := BitVec.toInt_eq_toNat_cond _
  rw [UInt64.toNat_toUInt32, h]
  split <;> omega

theorem bmod_eq_self {x : ℤ} (hlow : -2 ^ 63 ≤ x) (hhigh : x < 2 ^ 63) : x.bmod (2 ^ 64) = x :=
  Int.bmod_eq_of_le (by omega) (by omega)

section Wide

variable (a b : UInt32)

theorem toInt_add_wide : (a.toInt32.toInt64 + b.toInt32.toInt64).toInt
    = a.toInt32.toInt + b.toInt32.toInt := by
  have ha := a.toInt32.le_toInt
  have ha' := a.toInt32.toInt_lt
  have hb := b.toInt32.le_toInt
  have hb' := b.toInt32.toInt_lt
  rw [Int64.toInt_add, Int32.toInt_toInt64, Int32.toInt_toInt64, bmod_eq_self] <;> omega

theorem toInt_sub_wide : (a.toInt32.toInt64 - b.toInt32.toInt64).toInt
    = a.toInt32.toInt - b.toInt32.toInt := by
  have ha := a.toInt32.le_toInt
  have ha' := a.toInt32.toInt_lt
  have hb := b.toInt32.le_toInt
  have hb' := b.toInt32.toInt_lt
  rw [Int64.toInt_sub, Int32.toInt_toInt64, Int32.toInt_toInt64, bmod_eq_self] <;> omega

/-- The product of two words is far from the bounds. -/
theorem natAbs_mul_le : (a.toInt32.toInt * b.toInt32.toInt).natAbs ≤ 2 ^ 62 := by
  have hword : ∀ w : UInt32, w.toInt32.toInt.natAbs ≤ 2 ^ 31 := fun w => by
    have hlow := w.toInt32.le_toInt
    have hhigh := w.toInt32.toInt_lt
    omega
  rw [Int.natAbs_mul]
  exact Nat.le_trans (Nat.mul_le_mul (hword a) (hword b)) (by decide)

theorem toInt_mul_wide : (a.toInt32.toInt64 * b.toInt32.toInt64).toInt
    = a.toInt32.toInt * b.toInt32.toInt := by
  have hle := natAbs_mul_le a b
  rw [Int64.toInt_mul, Int32.toInt_toInt64, Int32.toInt_toInt64, bmod_eq_self] <;> omega

theorem toInt_div_wide : (a.toInt32.toInt64 / b.toInt32.toInt64).toInt
    = a.toInt32.toInt.tdiv b.toInt32.toInt := by
  have hmin : a.toInt32.toInt64 ≠ Int64.minValue := fun heq => by
    have htoInt := congrArg Int64.toInt heq
    have ha := a.toInt32.le_toInt
    rw [Int32.toInt_toInt64] at htoInt
    rw [htoInt] at ha
    exact absurd ha (by decide)
  rw [Int64.toInt_div_of_ne_left _ _ hmin, Int32.toInt_toInt64, Int32.toInt_toInt64]

theorem toInt_mod_wide : (a.toInt32.toInt64 % b.toInt32.toInt64).toInt
    = a.toInt32.toInt.tmod b.toInt32.toInt := by
  rw [Int64.toInt_mod, Int32.toInt_toInt64, Int32.toInt_toInt64]

end Wide

end Signed
