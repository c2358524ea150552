import Zlvm.Lib.Signed
import Zlvm.Vm.Alu

/-!
# What the arithmetic unit computes

* `exactResult` — the mathematical result of an operation, unbounded.
* `aluResult_exact` — the unit computes it modulo `2 ^ 32`.
* `AluFlags.Describe` — what the flags say about the result.
* **`aluCompute_spec`** — result and flags of every operation, and the law of quotients and
  remainders.
-/

namespace Zlvm

open Signed

/-! ## The mathematical results -/

/-- The signed value of a word. -/
def Word.signed (w : Word) : ℤ := w.toInt32.toInt

/-- The result of an operation on integers: unsigned operands for `add` … `dec`, signed ones and a
division that truncates for `sadd` … `smod`.  The complement of `n` is `-n - 1`. -/
def exactResult (op : Operation) (left right : Word) : ℤ :=
  match op with
  | .noop => 0
  | .id => left.toNat
  | .add => left.toNat + right.toNat
  | .sub => left.toNat - right.toNat
  | .mul => left.toNat * right.toNat
  | .div => (left.toNat / right.toNat : ℕ)
  | .mod => (left.toNat % right.toNat : ℕ)
  | .not => -(left.toNat : ℤ) - 1
  | .and => (left.toNat &&& right.toNat : ℕ)
  | .or => (left.toNat ||| right.toNat : ℕ)
  | .xor => (left.toNat ^^^ right.toNat : ℕ)
  | .nand => -((left.toNat &&& right.toNat : ℕ) : ℤ) - 1
  | .nor => -((left.toNat ||| right.toNat : ℕ) : ℤ) - 1
  | .inc => left.toNat + 1
  | .dec => left.toNat - 1
  | .sadd => Word.signed left + Word.signed right
  | .ssub => Word.signed left - Word.signed right
  | .smul => Word.signed left * Word.signed right
  | .sdiv => (Word.signed left).tdiv (Word.signed right)
  | .smod => (Word.signed left).tmod (Word.signed right)

section Results

variable (left right : Word)

theorem toNat_truncate (v : Int64) : ((truncate v).toNat : ℤ) = v.toInt % 2 ^ 32 := toNat_low v

theorem toNat_complement : ((~~~left).toNat : ℤ) = (-(left.toNat : ℤ) - 1) % 2 ^ 32 := by
  have hlt := left.toNat_lt
  have hnot : (~~~left).toNat = 2 ^ 32 - 1 - left.toNat := UInt32.toNat_not _
  omega

/-- **The result of an operation** is the mathematical one modulo `2 ^ 32`. -/
theorem aluResult_exact {op : Operation} {result : Word} (h : aluResult op left right = some result) :
    (result.toNat : ℤ) = exactResult op left right % 2 ^ 32 := by
  have hl := left.toNat_lt
  have hr := right.toNat_lt
  cases op
  case noop => cases h
  all_goals
    obtain rfl := Option.some.inj h
  case id => exact (Int.emod_eq_of_lt (by omega) (by omega)).symm
  case add =>
    rw [exactResult, UInt32.toNat_add]
    omega
  case sub =>
    rw [exactResult, UInt32.toNat_sub]
    omega
  case mul =>
    rw [exactResult, UInt32.toNat_mul]
    norm_cast
  case div =>
    have hle := Nat.div_le_self left.toNat right.toNat
    rw [exactResult, UInt32.toNat_div]
    generalize left.toNat / right.toNat = quotient at hle ⊢
    omega
  case mod =>
    have hle := Nat.mod_le left.toNat right.toNat
    rw [exactResult, UInt32.toNat_mod]
    generalize left.toNat % right.toNat = remainder at hle ⊢
    omega
  case not => exact toNat_complement left
  case and =>
    have hlt := (left &&& right).toNat_lt
    rw [UInt32.toNat_and] at hlt
    rw [exactResult, UInt32.toNat_and]
    omega
  case or =>
    have hlt := (left ||| right).toNat_lt
    rw [UInt32.toNat_or] at hlt
    rw [exactResult, UInt32.toNat_or]
    omega
  case xor =>
    have hlt := (left ^^^ right).toNat_lt
    rw [UInt32.toNat_xor] at hlt
    rw [exactResult, UInt32.toNat_xor]
    omega
  case nand =>
    rw [exactResult, toNat_complement, UInt32.toNat_and]
  case nor =>
    rw [exactResult, toNat_complement, UInt32.toNat_or]
  case inc =>
    rw [exactResult, UInt32.toNat_add]
    show (((left.toNat + 1) % 2 ^ 32 : ℕ) : ℤ) = _
    omega
  case dec =>
    rw [exactResult, UInt32.toNat_sub]
    show (((2 ^ 32 - 1 + left.toNat) % 2 ^ 32 : ℕ) : ℤ) = _
    omega
  case sadd => rw [toNat_truncate, signExtend, signExtend, toInt_add_wide]; rfl
  case ssub => rw [toNat_truncate, signExtend, signExtend, toInt_sub_wide]; rfl
  case smul => rw [toNat_truncate, signExtend, signExtend, toInt_mul_wide]; rfl
  case sdiv => rw [toNat_truncate, signExtend, signExtend, toInt_div_wide]; rfl
  case smod => rw [toNat_truncate, signExtend, signExtend, toInt_mod_wide]; rfl

end Results

/-! ## The flags -/

/-- What the flags say about a result. -/
structure AluFlags.Describe (flags : AluFlags) (op : Operation) (left right result : Word) :
    Prop where
  negative : flags.N = true ↔ Word.signed result < 0
  zero : flags.Z = true ↔ result = 0
  signed : flags.S = true ↔ op.isSigned = true
  overflow : flags.V = true ↔ op.isSigned = true ∧
    ¬(-2 ^ 31 ≤ exactResult op left right ∧ exactResult op left right < 2 ^ 31)
  carry : flags.C = true ↔
    (op = .add ∨ op = .mul ∨ op = .inc) ∧ 2 ^ 32 - 1 < exactResult op left right ∨
      (op = .sub ∨ op = .dec) ∧ 0 ≤ exactResult op left right

section Overflow

variable {left right : Word}

theorem signed_bounds (w : Word) : -2 ^ 31 ≤ Word.signed w ∧ Word.signed w < 2 ^ 31 :=
  ⟨w.toInt32.le_toInt, w.toInt32.toInt_lt⟩

theorem outsideSword_iff (v : Int64) :
    outsideSword v = true ↔ ¬(-2 ^ 31 ≤ v.toInt ∧ v.toInt < 2 ^ 31) := by
  have hlow : (-0x80000000 : Int64).toInt = -2 ^ 31 := by decide
  have hhigh : (0x7FFFFFFF : Int64).toInt = 2 ^ 31 - 1 := by decide
  rw [outsideSword, Bool.or_eq_true, decide_eq_true_eq, decide_eq_true_eq, GT.gt,
    Int64.lt_iff_toInt_lt, Int64.lt_iff_toInt_lt, hlow, hhigh]
  omega

/-- The only quotient that is too large. -/
theorem tdiv_outside_iff (hzero : right ≠ 0) :
    ¬(-2 ^ 31 ≤ (Word.signed left).tdiv (Word.signed right) ∧
        (Word.signed left).tdiv (Word.signed right) < 2 ^ 31) ↔
      left = 0x80000000 ∧ right = 0xFFFFFFFF := by
  obtain ⟨hl, hl'⟩ := signed_bounds left
  have hleft : Word.signed left = -2 ^ 31 ↔ left = 0x80000000 :=
    toInt_word_inj (a := left) (b := 0x80000000)
  have hright : Word.signed right = -1 ↔ right = 0xFFFFFFFF :=
    toInt_word_inj (a := right) (b := 0xFFFFFFFF)
  have hnonzero : Word.signed right ≠ 0 := fun h =>
    hzero ((toInt_word_inj (a := right) (b := 0)).mp h)
  rw [← hleft, ← hright]
  generalize Word.signed left = a at hl hl' ⊢
  generalize Word.signed right = b at hnonzero ⊢
  constructor
  · intro hout
    have hnatAbs : (a.tdiv b).natAbs = a.natAbs / b.natAbs := Int.natAbs_tdiv a b
    have hle := Nat.div_le_self a.natAbs b.natAbs
    have habs : a.natAbs / b.natAbs = 2 ^ 31 ∧ a.natAbs = 2 ^ 31 := by omega
    have hone : b.natAbs = 1 := by
      have hpos := Int.natAbs_pos.mpr hnonzero
      by_contra hne
      have hlt := Nat.div_lt_self (n := a.natAbs) (k := b.natAbs) (by omega) (by omega)
      omega
    obtain rfl : a = -2 ^ 31 := by omega
    rcases Int.natAbs_eq_iff.mp hone with rfl | rfl
    · exact absurd hout (by decide)
    · exact ⟨rfl, rfl⟩
  · rintro ⟨rfl, rfl⟩
    decide

/-- No remainder is too large. -/
theorem tmod_inside (left right : Word) :
    -2 ^ 31 ≤ (Word.signed left).tmod (Word.signed right) ∧
      (Word.signed left).tmod (Word.signed right) < 2 ^ 31 := by
  obtain ⟨hl, hl'⟩ := signed_bounds left
  have hnatAbs : ((Word.signed left).tmod (Word.signed right)).natAbs
      = (Word.signed left).natAbs % (Word.signed right).natAbs := Int.natAbs_tmod _ _
  have hle := Nat.mod_le (Word.signed left).natAbs (Word.signed right).natAbs
  by_cases hsign : 0 ≤ Word.signed left
  · have hnonneg := Int.tmod_nonneg (Word.signed right) hsign
    omega
  · have hneg : 0 ≤ -(Word.signed left).tmod (Word.signed right) := by
      rw [← Int.neg_tmod]
      exact Int.tmod_nonneg _ (by omega)
    omega

end Overflow

/-- What an operation that is not refused computes. -/
theorem aluCompute_eq {alu : Alu} {result : Word}
    (hdivisor : alu.op.divides = true → alu.right ≠ 0)
    (h : aluResult alu.op alu.left alu.right = some result) :
    aluCompute alu = aluSetFlags { alu with flags := {}, result := result.toUInt64 } := by
  rw [aluCompute]
  dsimp only
  rw [if_neg fun hzero => hdivisor hzero.1 hzero.2, h]

theorem aluSetFlags_result (alu : Alu) : (aluSetFlags alu).result = alu.result := by
  unfold aluSetFlags
  dsimp only
  split <;> rfl

section Flags

variable {alu : Alu}

theorem aluSetFlags_N :
    (aluSetFlags alu).flags.N = decide (alu.result.toUInt32.toInt32 < 0) := by
  unfold aluSetFlags
  dsimp only
  split <;> rfl

theorem aluSetFlags_Z : (aluSetFlags alu).flags.Z = (alu.result.toUInt32 == 0) := by
  unfold aluSetFlags
  dsimp only
  split <;> rfl

theorem aluSetFlags_S : (aluSetFlags alu).flags.S = alu.op.isSigned := by
  unfold aluSetFlags
  dsimp only
  split
  · rename_i hsigned
    exact hsigned.symm
  · rename_i hsigned
    exact (eq_false_of_ne_true hsigned).symm

/-- An unsigned operation never sets `V`, a signed one never sets `C`. -/
theorem aluSetFlags_V (hdivisor : alu.op.divides = true → alu.right ≠ 0) :
    (aluSetFlags alu).flags.V = true ↔ alu.op.isSigned = true ∧
      ¬(-2 ^ 31 ≤ exactResult alu.op alu.left alu.right ∧
        exactResult alu.op alu.left alu.right < 2 ^ 31) := by
  obtain ⟨left, right, result, op, flags⟩ := alu
  cases op
  case sadd =>
    refine (outsideSword_iff _).trans ?_
    rw [signExtend, signExtend, toInt_add_wide]
    exact (and_iff_right rfl).symm
  case ssub =>
    refine (outsideSword_iff _).trans ?_
    rw [signExtend, signExtend, toInt_sub_wide]
    exact (and_iff_right rfl).symm
  case smul =>
    refine (outsideSword_iff _).trans ?_
    rw [signExtend, signExtend, toInt_mul_wide]
    exact (and_iff_right rfl).symm
  case sdiv =>
    have hquotient := @tdiv_outside_iff left right (hdivisor rfl)
    have hflag : (aluSetFlags ⟨left, right, result, .sdiv, flags⟩).flags.V
        = (left == 0x80000000 && right == 0xFFFFFFFF) := rfl
    rw [hflag, Bool.and_eq_true, beq_iff_eq, beq_iff_eq]
    exact hquotient.symm.trans (and_iff_right rfl).symm
  case smod =>
    have hflag : (aluSetFlags ⟨left, right, result, .smod, flags⟩).flags.V = false := rfl
    rw [hflag]
    exact iff_of_false Bool.false_ne_true fun hout => hout.2 (tmod_inside left right)
  all_goals exact iff_of_false Bool.false_ne_true fun hsigned => Bool.false_ne_true hsigned.1

theorem aluSetFlags_C : (aluSetFlags alu).flags.C = true ↔
    (alu.op = .add ∨ alu.op = .mul ∨ alu.op = .inc) ∧
        2 ^ 32 - 1 < exactResult alu.op alu.left alu.right ∨
      (alu.op = .sub ∨ alu.op = .dec) ∧ 0 ≤ exactResult alu.op alu.left alu.right := by
  obtain ⟨left, right, result, op, flags⟩ := alu
  have hl := left.toNat_lt
  have hr := right.toNat_lt
  cases op
  case add =>
    rw [or_iff_left (by rintro ⟨h | h, -⟩ <;> cases h), and_iff_right (.inl rfl)]
    refine decide_eq_true_iff.trans ?_
    rw [GT.gt, UInt64.lt_iff_toNat_lt, UInt64.toNat_add, UInt32.toNat_toUInt64,
      UInt32.toNat_toUInt64]
    simp only [exactResult, UInt64.reduceToNat]
    omega
  case mul =>
    have hlt : left.toNat * right.toNat < 2 ^ 64 :=
      Nat.lt_of_le_of_lt (Nat.mul_le_mul (Nat.le_pred_of_lt hl) (Nat.le_pred_of_lt hr)) (by decide)
    rw [or_iff_left (by rintro ⟨h | h, -⟩ <;> cases h), and_iff_right (.inr (.inl rfl))]
    refine decide_eq_true_iff.trans ?_
    rw [GT.gt, UInt64.lt_iff_toNat_lt, UInt64.toNat_mul, UInt32.toNat_toUInt64,
      UInt32.toNat_toUInt64, Nat.mod_eq_of_lt hlt]
    simp only [exactResult, UInt64.reduceToNat]
    rw [← Int.natCast_mul]
    generalize left.toNat * right.toNat = product
    omega
  case inc =>
    rw [or_iff_left (by rintro ⟨h | h, -⟩ <;> cases h), and_iff_right (.inr (.inr rfl))]
    refine beq_iff_eq.trans ?_
    rw [← UInt32.toNat_inj]
    simp only [exactResult, UInt32.reduceToNat]
    omega
  case sub =>
    rw [or_iff_right (by rintro ⟨h | h | h, -⟩ <;> cases h), and_iff_right (.inl rfl)]
    refine decide_eq_true_iff.trans ?_
    rw [GE.ge, UInt32.le_iff_toNat_le]
    simp only [exactResult]
    omega
  case dec =>
    rw [or_iff_right (by rintro ⟨h | h | h, -⟩ <;> cases h), and_iff_right (.inr rfl)]
    refine decide_eq_true_iff.trans ?_
    rw [GE.ge, UInt32.le_iff_toNat_le]
    simp only [exactResult, UInt32.reduceToNat]
    omega
  all_goals
    refine iff_of_false Bool.false_ne_true ?_
    rintro (⟨h | h | h, -⟩ | ⟨h | h, -⟩) <;> cases h

/-- **The flags** of an operation. -/
theorem aluSetFlags_describe (hdivisor : alu.op.divides = true → alu.right ≠ 0) :
    (aluSetFlags alu).flags.Describe alu.op alu.left alu.right alu.result.toUInt32 where
  negative := by
    rw [aluSetFlags_N, decide_eq_true_iff, Int32.lt_iff_toInt_lt]
    rfl
  zero := by rw [aluSetFlags_Z, beq_iff_eq]
  signed := by rw [aluSetFlags_S]
  overflow := aluSetFlags_V hdivisor
  carry := aluSetFlags_C

end Flags

/-! ## All operations -/

/-- The result and the flags of an operation, and quotients and remainders of its operands. -/
structure AluSpec (alu : Alu) : Prop where
  result : ((aluCompute alu).result.toNat : ℤ) = exactResult alu.op alu.left alu.right % 2 ^ 32
  flags : (aluCompute alu).flags.Describe alu.op alu.left alu.right
    (aluCompute alu).result.toUInt32
  unsignedQuotient : alu.right ≠ 0 →
    (aluCompute { alu with op := .div }).result.toUInt32 * alu.right
      + (aluCompute { alu with op := .mod }).result.toUInt32 = alu.left
  signedQuotient : alu.right ≠ 0 →
    (aluCompute { alu with op := .sdiv }).result.toUInt32 * alu.right
      + (aluCompute { alu with op := .smod }).result.toUInt32 = alu.left

theorem aluResult_isSome {op : Operation} (h : op ≠ .noop) (left right : Word) :
    ∃ result, aluResult op left right = some result := by
  cases op
  case noop => exact absurd rfl h
  all_goals exact ⟨_, rfl⟩

/-- What a word is modulo `2 ^ 32`. -/
theorem aluCompute_result {alu : Alu} (hop : alu.op ≠ .noop)
    (hdivisor : alu.op.divides = true → alu.right ≠ 0) :
    ((aluCompute alu).result.toUInt32.toNat : ℤ)
        = exactResult alu.op alu.left alu.right % 2 ^ 32 ∧
      (aluCompute alu).result.toNat = (aluCompute alu).result.toUInt32.toNat := by
  obtain ⟨result, hresult⟩ := aluResult_isSome hop alu.left alu.right
  have hlt := result.toNat_lt
  rw [aluCompute_eq hdivisor hresult, aluSetFlags_result, UInt64.toNat_toUInt32,
    UInt32.toNat_toUInt64, Nat.mod_eq_of_lt hlt]
  exact ⟨aluResult_exact _ _ hresult, rfl⟩

theorem aluCompute_describe {alu : Alu} (hop : alu.op ≠ .noop)
    (hdivisor : alu.op.divides = true → alu.right ≠ 0) :
    (aluCompute alu).flags.Describe alu.op alu.left alu.right
      (aluCompute alu).result.toUInt32 := by
  obtain ⟨result, hresult⟩ := aluResult_isSome hop alu.left alu.right
  rw [aluCompute_eq hdivisor hresult, aluSetFlags_result]
  exact @aluSetFlags_describe { alu with flags := {}, result := result.toUInt64 } hdivisor

/-- A quotient and a remainder modulo `2 ^ 32`. -/
theorem quotient_law {q right r left : Word} {a b x y : ℤ} (hq : (q.toNat : ℤ) = x % 2 ^ 32)
    (hr : (r.toNat : ℤ) = y % 2 ^ 32) (hright : (right.toNat : ℤ) = b % 2 ^ 32)
    (hleft : (left.toNat : ℤ) = a % 2 ^ 32) (h : b * x + y = a) : q * right + r = left := by
  have hmod : ((q * right + r).toNat : ℤ) = (x % 2 ^ 32 * (b % 2 ^ 32) + y % 2 ^ 32) % 2 ^ 32 := by
    rw [UInt32.toNat_add, UInt32.toNat_mul, ← hq, ← hr, ← hright, Nat.mod_add_mod]
    norm_cast
  rw [← UInt32.toNat_inj, ← Int.natCast_inj, hmod, hleft, ← h, Int.mul_comm b x,
    Int.add_emod (x * b), Int.mul_emod x b, Int.add_emod (x % 2 ^ 32 * (b % 2 ^ 32)), Int.emod_emod]

/-- A quotient and a remainder of the unit. -/
theorem aluCompute_quotient {alu : Alu} {quotient remainder : Operation} {a b : ℤ}
    (hright : alu.right ≠ 0) (hq : quotient ≠ .noop) (hr : remainder ≠ .noop)
    (hb : (alu.right.toNat : ℤ) = b % 2 ^ 32) (ha : (alu.left.toNat : ℤ) = a % 2 ^ 32)
    (h : b * exactResult quotient alu.left alu.right + exactResult remainder alu.left alu.right = a) :
    (aluCompute { alu with op := quotient }).result.toUInt32 * alu.right
      + (aluCompute { alu with op := remainder }).result.toUInt32 = alu.left :=
  quotient_law (@aluCompute_result { alu with op := quotient } hq fun _ => hright).1
    (@aluCompute_result { alu with op := remainder } hr fun _ => hright).1 hb ha h

/-- **What the arithmetic unit computes.** -/
theorem aluCompute_spec (alu : Alu) (hop : alu.op ≠ .noop)
    (hdivisor : alu.op.divides = true → alu.right ≠ 0) : AluSpec alu where
  result := by
    obtain ⟨hresult, hwide⟩ := aluCompute_result hop hdivisor
    rw [hwide, hresult]
  flags := aluCompute_describe hop hdivisor
  unsignedQuotient := fun hright => by
    have hl := alu.left.toNat_lt
    have hr := alu.right.toNat_lt
    refine aluCompute_quotient hright (by decide) (by decide) (a := alu.left.toNat)
      (b := alu.right.toNat) (by omega) (by omega) ?_
    simp only [exactResult]
    exact_mod_cast Nat.div_add_mod alu.left.toNat alu.right.toNat
  signedQuotient := fun hright =>
    aluCompute_quotient hright (by decide) (by decide) (toInt_word_emod _).symm
      (toInt_word_emod _).symm (Int.mul_tdiv_add_tmod _ _)

/-- The smallest number divided by `-1`. -/
theorem aluCompute_spec_minimum :
    AluSpec { left := 0x80000000, right := 0xFFFFFFFF, op := .sdiv } :=
  aluCompute_spec _ (by decide) fun _ => by decide

end Zlvm
