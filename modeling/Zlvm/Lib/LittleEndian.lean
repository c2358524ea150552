import Mathlib.Data.List.Basic
import Mathlib.Data.Nat.Bitwise
import Mathlib.Tactic.Ring

/-!
# Little-endian byte strings

A natural number as its `w` low bytes, least significant first, and back.

* `bytes` / `value` — the two directions, with the round trips `value_bytes` and `bytes_value`.
* `foldl_or_word`, `foldl_or_dword` — the same number computed by or-ing shifted bytes into an
  accumulator, the way byte-wise C loops do it.
* `map_shift_word`, `map_shift_dword` — the same bytes computed by shifting a word to the right.
-/

namespace LittleEndian

/-- The `w` low bytes of `n`, least significant first. -/
def bytes : ℕ → ℕ → List UInt8
  | 0, _ => []
  | w + 1, n => UInt8.ofNat n :: bytes w (n / 256)

/-- The number whose bytes, least significant first, are the given ones. -/
def value : List UInt8 → ℕ
  | [] => 0
  | b :: bs => b.toNat + 256 * value bs

@[simp] theorem length_bytes : ∀ w n : ℕ, (bytes w n).length = w
  | 0, _ => rfl
  | w + 1, n => by simp [bytes, length_bytes w]

@[simp] theorem value_nil : value [] = 0 := rfl

@[simp] theorem value_cons (b : UInt8) (bs : List UInt8) :
    value (b :: bs) = b.toNat + 256 * value bs := rfl

theorem value_bytes : ∀ w n : ℕ, value (bytes w n) = n % 256 ^ w
  | 0, n => by simp [bytes, Nat.mod_one]
  | w + 1, n => by
      rw [bytes, value_cons, value_bytes w, pow_succ', Nat.mod_mul]
      simp

theorem value_bytes_of_lt {w n : ℕ} (h : n < 256 ^ w) : value (bytes w n) = n := by
  rw [value_bytes, Nat.mod_eq_of_lt h]

theorem value_lt : ∀ bs : List UInt8, value bs < 256 ^ bs.length
  | [] => by simp
  | b :: bs => by
      have ih := value_lt bs
      have hb : b.toNat < 256 := b.toNat_lt
      rw [value_cons, List.length_cons, pow_succ]
      omega

theorem bytes_value : ∀ bs : List UInt8, bytes bs.length (value bs) = bs
  | [] => rfl
  | b :: bs => by
      have hb : b.toNat < 256 := b.toNat_lt
      have hdiv : (b.toNat + 256 * value bs) / 256 = value bs := by omega
      rw [List.length_cons, bytes, value_cons, hdiv, bytes_value bs]
      refine congrArg (· :: bs) (UInt8.toNat_inj.mp ?_)
      simp

theorem value_append : ∀ as bs : List UInt8,
    value (as ++ bs) = value as + 256 ^ as.length * value bs
  | [], bs => by simp
  | a :: as, bs => by
      rw [List.cons_append, value_cons, value_cons, value_append as bs, List.length_cons, pow_succ]
      ring

/-- Two byte strings of one length are equal when their values are. -/
theorem value_inj {as bs : List UInt8} (hlen : as.length = bs.length)
    (h : value as = value bs) : as = bs := by
  rw [← bytes_value as, ← bytes_value bs, hlen, h]

/-- Dropping high bits that `w` bytes cannot hold changes none of them. -/
theorem bytes_mod (w n : ℕ) : bytes w (n % 256 ^ w) = bytes w n := by
  refine value_inj (by simp) ?_
  rw [value_bytes, value_bytes, Nat.mod_mod]

/-- The bytes of the word that four bytes make up are those bytes. -/
theorem bytes_value_word {bs : List UInt8} (h : bs.length = 4) :
    bytes 4 (UInt32.ofNat (value bs)).toNat = bs := by
  have hlt := value_lt bs
  rw [h] at hlt
  rw [UInt32.toNat_ofNat', Nat.mod_eq_of_lt (by norm_num at hlt; omega), ← h, bytes_value]

/-- Byte `i` is the number shifted right by `i` bytes. -/
theorem getElem_bytes : ∀ (w n i : ℕ) (h : i < (bytes w n).length),
    (bytes w n)[i] = UInt8.ofNat (n / 256 ^ i)
  | 0, _, _, h => absurd h (by simp [bytes])
  | w + 1, n, 0, _ => by simp [bytes]
  | w + 1, n, i + 1, h => by
      have hi : i < (bytes w (n / 256)).length := by simpa using h
      have ih := getElem_bytes w (n / 256) i hi
      simp only [bytes, List.getElem_cons_succ, ih]
      rw [Nat.div_div_eq_div_mul, pow_succ']

/-! ## Byte-wise loops -/

/-- Or-ing in a byte above all the bits of the accumulator adds it. -/
theorem or_shiftLeft_byte {acc i : ℕ} (b : ℕ) (h : acc < 256 ^ i) :
    acc ||| b <<< (8 * i) = acc + 256 ^ i * b := by
  have hpow : (256 : ℕ) ^ i = 2 ^ (8 * i) := by rw [pow_mul]; norm_num
  rw [hpow] at h ⊢
  rw [Nat.or_comm, ← Nat.shiftLeft_add_eq_or_of_lt h, Nat.shiftLeft_eq]
  ring

/-- A byte shifted to position `i` fits in any width that has a byte at position `i`. -/
theorem shiftLeft_byte_lt (b : UInt8) {i n : ℕ} (h : 8 * i + 8 ≤ n) :
    b.toNat <<< (8 * i) < 2 ^ n := by
  rw [Nat.shiftLeft_eq]
  calc b.toNat * 2 ^ (8 * i) < 2 ^ 8 * 2 ^ (8 * i) :=
        Nat.mul_lt_mul_of_pos_right b.toNat_lt (Nat.two_pow_pos _)
    _ = 2 ^ (8 * i + 8) := by rw [Nat.pow_add, Nat.mul_comm]
    _ ≤ 2 ^ n := Nat.pow_le_pow_right (by norm_num) h

/-- The 32-bit accumulator holds the value as long as at most four bytes go in. -/
theorem foldl_or_word (f : ℕ → UInt8) : ∀ w : ℕ, w ≤ 4 →
    ((List.range w).foldl
        (fun acc i => acc ||| (f i).toUInt32 <<< UInt32.ofNat (8 * i)) 0).toNat
      = value ((List.range w).map f)
  | 0, _ => rfl
  | w + 1, hw => by
      have ih := foldl_or_word f w (by omega)
      have hlt : value ((List.range w).map f) < 256 ^ w := by
        simpa using value_lt ((List.range w).map f)
      have hshift : (f w).toNat <<< (8 * w) < 2 ^ 32 := shiftLeft_byte_lt (f w) (by omega)
      rw [List.range_succ, List.foldl_append, List.map_append, value_append, ← ih]
      rw [← ih] at hlt
      simp only [List.foldl_cons, List.foldl_nil, UInt32.toNat_or, UInt32.toNat_shiftLeft,
        UInt8.toNat_toUInt32, UInt32.toNat_ofNat', List.length_map, List.length_range,
        List.map_cons, List.map_nil, value_cons, value_nil, Nat.mul_zero, Nat.add_zero]
      rw [Nat.mod_eq_of_lt (show 8 * w % 2 ^ 32 < 32 by omega),
        Nat.mod_eq_of_lt (show 8 * w < 2 ^ 32 by omega), Nat.mod_eq_of_lt hshift,
        or_shiftLeft_byte _ hlt]

/-- The 64-bit accumulator holds the value as long as at most eight bytes go in. -/
theorem foldl_or_dword (f : ℕ → UInt8) : ∀ w : ℕ, w ≤ 8 →
    ((List.range w).foldl
        (fun acc i => acc ||| (f i).toUInt64 <<< UInt64.ofNat (8 * i)) 0).toNat
      = value ((List.range w).map f)
  | 0, _ => rfl
  | w + 1, hw => by
      have ih := foldl_or_dword f w (by omega)
      have hlt : value ((List.range w).map f) < 256 ^ w := by
        simpa using value_lt ((List.range w).map f)
      have hshift : (f w).toNat <<< (8 * w) < 2 ^ 64 := shiftLeft_byte_lt (f w) (by omega)
      rw [List.range_succ, List.foldl_append, List.map_append, value_append, ← ih]
      rw [← ih] at hlt
      simp only [List.foldl_cons, List.foldl_nil, UInt64.toNat_or, UInt64.toNat_shiftLeft,
        UInt8.toNat_toUInt64, UInt64.toNat_ofNat', List.length_map, List.length_range,
        List.map_cons, List.map_nil, value_cons, value_nil, Nat.mul_zero, Nat.add_zero]
      rw [Nat.mod_eq_of_lt (show 8 * w % 2 ^ 64 < 64 by omega),
        Nat.mod_eq_of_lt (show 8 * w < 2 ^ 64 by omega), Nat.mod_eq_of_lt hshift,
        or_shiftLeft_byte _ hlt]

/-- **The byte-wise writing loop** of a number of any size. -/
theorem map_shift (n w : ℕ) :
    (List.range w).map (fun i => UInt8.ofNat (n >>> (8 * i))) = bytes w n := by
  refine List.ext_getElem (by simp) fun i h₁ h₂ => ?_
  rw [getElem_bytes, List.getElem_map, List.getElem_range, Nat.shiftRight_eq_div_pow, pow_mul]
  norm_num

/-- **The byte-wise writing loop**, 32-bit: shifting right by `i` bytes and truncating gives
byte `i`. -/
theorem map_shift_word (v : UInt32) {w : ℕ} (hw : w ≤ 4) :
    (List.range w).map (fun i => (v >>> UInt32.ofNat (8 * i)).toUInt8) = bytes w v.toNat := by
  refine List.ext_getElem (by simp) fun i h₁ h₂ => UInt8.toNat_inj.mp ?_
  have hi : i < w := by simpa using h₁
  rw [getElem_bytes]
  simp only [List.getElem_map, List.getElem_range, UInt32.toNat_toUInt8, UInt32.toNat_shiftRight,
    UInt32.toNat_ofNat', UInt8.toNat_ofNat']
  rw [Nat.mod_eq_of_lt (show 8 * i % 2 ^ 32 < 32 by omega),
    Nat.mod_eq_of_lt (show 8 * i < 2 ^ 32 by omega), Nat.shiftRight_eq_div_pow, pow_mul]
  norm_num

/-- The byte-wise writing loop, 64-bit. -/
theorem map_shift_dword (v : UInt64) {w : ℕ} (hw : w ≤ 8) :
    (List.range w).map (fun i => (v >>> UInt64.ofNat (8 * i)).toUInt8) = bytes w v.toNat := by
  refine List.ext_getElem (by simp) fun i h₁ h₂ => UInt8.toNat_inj.mp ?_
  have hi : i < w := by simpa using h₁
  rw [getElem_bytes]
  simp only [List.getElem_map, List.getElem_range, UInt64.toNat_toUInt8, UInt64.toNat_shiftRight,
    UInt64.toNat_ofNat', UInt8.toNat_ofNat']
  rw [Nat.mod_eq_of_lt (show 8 * i % 2 ^ 64 < 64 by omega),
    Nat.mod_eq_of_lt (show 8 * i < 2 ^ 64 by omega), Nat.shiftRight_eq_div_pow, pow_mul]
  norm_num

end LittleEndian
