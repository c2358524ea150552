import Mathlib.Data.Nat.Log
import Mathlib.Data.Nat.Bitwise
import Mathlib.Order.Bounds.Defs

/-!
# Powers of two and rounding up

The two bit tricks of alignment code: `n & (n - 1) == 0` recognises powers of two, and masking off
the low bits after adding `a - 1` rounds up to a multiple of `a`.
-/

namespace Alignment

/-- Bit `log2 n` is set in every number of the binade of `n`. -/
theorem testBit_log2 {n m : ℕ} (hlow : 2 ^ Nat.log2 n ≤ m) (hhigh : m < 2 ^ (Nat.log2 n + 1)) :
    m.testBit (Nat.log2 n) = true := by
  have hdiv : m / 2 ^ Nat.log2 n = 1 := by
    rw [Nat.div_eq_iff (Nat.two_pow_pos _)]
    rw [pow_succ] at hhigh
    omega
  rw [Nat.testBit_eq_decide_div_mod_eq, hdiv, decide_eq_true_eq]

/-- **A number that shares no bit with its predecessor is a power of two.** -/
theorem eq_two_pow_of_and_pred {n : ℕ} (hn : n ≠ 0) (h : n &&& (n - 1) = 0) :
    n = 2 ^ Nat.log2 n := by
  by_contra hne
  have hlow : 2 ^ Nat.log2 n ≤ n := Nat.log2_self_le hn
  have hhigh : n < 2 ^ (Nat.log2 n + 1) := Nat.lt_log2_self
  have hbit : (n &&& (n - 1)).testBit (Nat.log2 n) = true := by
    rw [Nat.testBit_and, testBit_log2 hlow hhigh, testBit_log2 (by omega) (by omega)]
    rfl
  rw [h] at hbit
  simp at hbit

/-! ## Rounding up -/

/-- The least multiple of `a` that is not below `v`. -/
def roundUp (a v : ℕ) : ℕ := (v + (a - 1)) / a * a

theorem isLeast_roundUp {a : ℕ} (ha : 0 < a) (v : ℕ) :
    IsLeast {m | a ∣ m ∧ v ≤ m} (roundUp a v) := by
  have hdiv := Nat.div_add_mod (v + (a - 1)) a
  have hmod := Nat.mod_lt (v + (a - 1)) ha
  rw [roundUp, Nat.mul_comm _ a]
  refine ⟨⟨Nat.dvd_mul_right _ _, by omega⟩, ?_⟩
  rintro m ⟨⟨k, rfl⟩, hle⟩
  refine Nat.mul_le_mul_left a (Nat.le_of_lt_succ ?_)
  rw [Nat.div_lt_iff_lt_mul ha, Nat.succ_mul, Nat.mul_comm k a]
  omega

theorem dvd_roundUp {a : ℕ} (ha : 0 < a) (v : ℕ) : a ∣ roundUp a v := (isLeast_roundUp ha v).1.1

theorem le_roundUp {a : ℕ} (ha : 0 < a) (v : ℕ) : v ≤ roundUp a v := (isLeast_roundUp ha v).1.2

/-- A multiple is rounded up to itself. -/
theorem roundUp_eq_self {a v : ℕ} (ha : 0 < a) : roundUp a v = v ↔ a ∣ v := by
  constructor
  · intro h
    exact h ▸ dvd_roundUp ha v
  · intro h
    exact Nat.le_antisymm ((isLeast_roundUp ha v).2 ⟨h, Nat.le_refl v⟩) (le_roundUp ha v)

/-- **Padding to the next multiple** of a power of two. -/
theorem add_padding (v k : ℕ) :
    v + (if v &&& (2 ^ k - 1) = 0 then 0 else 2 ^ k - (v &&& (2 ^ k - 1))) = roundUp (2 ^ k) v := by
  have hpos : 0 < 2 ^ k := Nat.two_pow_pos k
  have hdiv := Nat.div_add_mod v (2 ^ k)
  have hmod := Nat.mod_lt v hpos
  rw [Nat.and_two_pow_sub_one_eq_mod]
  split
  · rename_i hzero
    exact ((roundUp_eq_self hpos).mpr (Nat.dvd_of_mod_eq_zero hzero)).symm
  · rename_i hrest
    have hup : (v + (2 ^ k - 1)) / 2 ^ k = v / 2 ^ k + 1 := by
      rw [Nat.div_eq_iff hpos, Nat.succ_mul, Nat.mul_comm]
      omega
    rw [roundUp, hup, Nat.succ_mul, Nat.mul_comm]
    omega

/-- Masking off the low `k` bits. -/
theorem and_not_two_pow_sub_one (x m : UInt64) {k : ℕ} (hm : m.toNat = 2 ^ k - 1) :
    (x &&& ~~~m).toNat = x.toNat / 2 ^ k * 2 ^ k := by
  have hx : x.toNat < 2 ^ 64 := x.toNat_lt
  refine Nat.eq_of_testBit_eq fun i => ?_
  rw [← Nat.shiftRight_eq_div_pow, ← Nat.shiftLeft_eq, Nat.testBit_shiftLeft,
    Nat.testBit_shiftRight, UInt64.toNat_and, Nat.testBit_and]
  have hnot : (~~~m).toNat = 2 ^ 64 - (m.toNat + 1) := by
    rw [UInt64.toNat_not, UInt64.size]
    omega
  rw [hnot, Nat.testBit_two_pow_sub_succ m.toNat_lt, hm, Nat.testBit_two_pow_sub_one]
  by_cases hi : i < 64
  · by_cases hk : i < k
    · simp [hk]
    · have hsub : k + (i - k) = i := by omega
      simp [hi, hk, Nat.not_lt.mp hk, hsub]
  · have hhigh : x.toNat.testBit i = false :=
      Nat.testBit_lt_two_pow (Nat.lt_of_lt_of_le hx (Nat.pow_le_pow_right (by decide) (by omega)))
    by_cases hk : k ≤ i
    · have hsub : k + (i - k) = i := by omega
      simp [hhigh, hsub]
    · simp [hhigh, hk]

/-- **Rounding up with a mask.** -/
theorem toNat_roundUp {v a : UInt64} {k : ℕ} (ha : a.toNat = 2 ^ k)
    (hroom : v.toNat + a.toNat ≤ 2 ^ 64) :
    ((v + a - 1) &&& ~~~(a - 1)).toNat = roundUp a.toNat v.toNat := by
  have hpos : 0 < a.toNat := by
    rw [ha]
    exact Nat.two_pow_pos k
  have hone : (1 : UInt64).toNat = 1 := rfl
  have hmask : (a - 1).toNat = 2 ^ k - 1 := by
    rw [UInt64.toNat_sub_of_le _ _ (by rw [UInt64.le_iff_toNat_le, hone]; omega), ha, hone]
  have hsum : v + a - 1 = v + (a - 1) := by
    rw [UInt64.sub_eq_add_neg, UInt64.sub_eq_add_neg, UInt64.add_assoc]
  have hadd : (v + (a - 1)).toNat = v.toNat + (a.toNat - 1) := by
    rw [UInt64.toNat_add, hmask, ← ha, Nat.mod_eq_of_lt (by omega)]
  rw [hsum, and_not_two_pow_sub_one _ _ hmask, hadd, roundUp, ha]

end Alignment
