import Mathlib.Data.List.Forall2
import Zlvm.Asm.Concat
import Zlvm.Lib.Horner

/-!
# Numeric literals

What the lexer accepts as a number, and the value of what it accepts.

* `IsDigit`, `Digits`, `Numeral` — the grammar: a prefix, digits of its base and delimiters between
  digits.
* `validDigits_iff` — `validate_numeric_token` accepts exactly the `Digits`.
* `tokenGetIntValue_eq` — the value, if it fits into 64 bits.
* **`lexerReadToken_numeral`** — a run that begins with a decimal digit is accepted exactly if it is
  a `Numeral` whose value fits, and what is reported otherwise.
-/

namespace Zlvm

open Loop Horner

/-! ## The grammar -/

/-- A character that is a digit with the given value. -/
inductive IsDigit (character : Byte) : ℕ → Prop
  | decimal (digit : ℕ) (small : digit < 10) (written : character.toNat = 0x30 + digit) :
      IsDigit character digit
  | lower (letter : ℕ) (small : letter < 6) (written : character.toNat = 0x61 + letter) :
      IsDigit character (10 + letter)
  | upper (letter : ℕ) (small : letter < 6) (written : character.toNat = 0x41 + letter) :
      IsDigit character (10 + letter)

/-- A nonempty string of digits of a base in which every delimiter stands between two digits, and
the values of the digits. -/
inductive Digits (base : ℕ) : Bytes → List ℕ → Prop
  | single {character : Byte} {digit : ℕ} (isDigit : IsDigit character digit)
      (small : digit < base) : Digits base [character] [digit]
  | cons {character : Byte} {digit : ℕ} {rest : Bytes} {digits : List ℕ}
      (isDigit : IsDigit character digit) (small : digit < base) (tail : Digits base rest digits) :
      Digits base (character :: rest) (digit :: digits)
  | delimited {character : Byte} {digit : ℕ} {rest : Bytes} {digits : List ℕ}
      (isDigit : IsDigit character digit) (small : digit < base) (tail : Digits base rest digits) :
      Digits base (character :: digitDelimiter :: rest) (digit :: digits)

/-- The number that a list of digits denotes, the most significant one first. -/
def digitsNumber (base : ℕ) (digits : List ℕ) : ℕ := Nat.ofDigits base digits.reverse

/-- The letters of the prefixes, with their bases. -/
def prefixes : List (Byte × ℕ) :=
  [(0x78, 16), (0x58, 16), (0x6F, 8), (0x4F, 8), (0x62, 2), (0x42, 2)]

/-- A numeric literal and its value. -/
inductive Numeral : Bytes → ℕ → Prop
  | marked {mark : Byte} {base : ℕ} {text : Bytes} {digits : List ℕ}
      (letter : (mark, base) ∈ prefixes) (valid : Digits base text digits) :
      Numeral (0x30 :: mark :: text) (digitsNumber base digits)
  | decimal {text : Bytes} {digits : List ℕ} (valid : Digits 10 text digits) :
      Numeral text (digitsNumber 10 digits)

/-! ## Digits -/

section Digit

variable {character : Byte} {digit base : ℕ}

theorem isDigit_iff : IsDigit character digit ↔ digitValue character = some digit := by
  simp only [digitValue, UInt8.le_iff_toNat_le, UInt8.reduceToNat]
  constructor
  · intro h
    cases h with
    | decimal digit small written =>
        rw [if_pos (by omega)]
        exact congrArg some (by omega)
    | lower letter small written =>
        rw [if_neg (by omega), if_pos (by omega)]
        exact congrArg some (by omega)
    | upper letter small written =>
        rw [if_neg (by omega), if_neg (by omega), if_pos (by omega)]
        exact congrArg some (by omega)
  · intro h
    split at h
    · obtain rfl := Option.some.inj h
      exact .decimal _ (by omega) (by omega)
    split at h
    · obtain rfl := Option.some.inj h
      rw [Nat.add_comm]
      exact .lower _ (by omega) (by omega)
    split at h
    · obtain rfl := Option.some.inj h
      rw [Nat.add_comm]
      exact .upper _ (by omega) (by omega)
    · cases h

theorem IsDigit.lt (h : IsDigit character digit) : digit < 16 := by
  cases h <;> omega

theorem isDigit_unique : Relator.RightUnique IsDigit := fun _ _ _ hdigit hdigit' =>
  Option.some.inj ((isDigit_iff.mp hdigit).symm.trans (isDigit_iff.mp hdigit'))

theorem IsDigit.ne_digitDelimiter (h : IsDigit character digit) : character ≠ digitDelimiter := by
  rintro rfl
  rw [isDigit_iff] at h
  exact absurd h (by simp [digitValue, digitDelimiter])

/-- The bases of the four kinds of literals. -/
def IsBase (base : ℕ) : Prop := 0 < base ∧ base ≤ 10 ∨ base = 16

/-- **A digit of a base.** -/
theorem isDigitForBase_iff (hbase : IsBase base) :
    isDigitForBase character base = true ↔ ∃ digit, IsDigit character digit ∧ digit < base := by
  simp only [isDigit_iff, digitValue, isDigitForBase, Bool.and_eq_true, decide_eq_true_eq,
    UInt8.le_iff_toNat_le, UInt8.reduceToNat]
  by_cases hdecimal : 0x30 ≤ character.toNat ∧ character.toNat ≤ 0x39
  · simp only [if_pos hdecimal, decide_eq_true_eq, Option.some.injEq, exists_eq_left']
  · simp only [if_neg hdecimal, Bool.and_eq_true, Bool.or_eq_true, decide_eq_true_eq, beq_iff_eq]
    rw [IsBase] at hbase
    constructor
    · rintro ⟨rfl, hlower | hupper⟩
      · exact ⟨_, if_pos hlower, by omega⟩
      · exact ⟨_, by rw [if_neg (by omega), if_pos hupper], by omega⟩
    · rintro ⟨digit, hdigit, hsmall⟩
      split at hdigit
      · rename_i hlower
        obtain rfl := Option.some.inj hdigit
        exact ⟨by omega, .inl hlower⟩
      split at hdigit
      · rename_i hupper
        obtain rfl := Option.some.inj hdigit
        exact ⟨by omega, .inr hupper⟩
      · cases hdigit

end Digit

/-! ## Delimiters -/

section Delimiters

variable {base : ℕ} {previous character : Byte} {text rest : Bytes} {digits : List ℕ}

/-- Every character behind `previous` is valid. -/
def ValidBehind (base : ℕ) (previous : Byte) (rest : Bytes) : Prop :=
  ∀ index < rest.length, validDigit (previous :: rest) base (index + 1) = true

theorem not_isDigitForBase_digitDelimiter : isDigitForBase digitDelimiter base = false := by
  simp [isDigitForBase, digitDelimiter]

theorem ne_digitDelimiter_of_isDigitForBase (h : isDigitForBase character base = true) :
    ¬(character == digitDelimiter) = true := by
  intro hdelimiter
  rw [beq_iff_eq.mp hdelimiter, not_isDigitForBase_digitDelimiter] at h
  cases h

theorem validDigit_zero :
    validDigit (character :: rest) base 0 = isDigitForBase character base := by
  simp only [validDigit, List.getD_cons_zero]
  by_cases hdelimiter : (character == digitDelimiter) = true
  · rw [if_pos hdelimiter, beq_iff_eq.mp hdelimiter, not_isDigitForBase_digitDelimiter]
    rfl
  · rw [if_neg hdelimiter]

theorem validDigit_one : validDigit (previous :: character :: rest) base 1
    = if character == digitDelimiter then
        !rest.isEmpty && isDigitForBase previous base && isDigitForBase (rest.headD 0) base
      else isDigitForBase character base := by
  cases rest <;> simp [validDigit]

theorem validBehind_cons : ValidBehind base previous (character :: rest) ↔
    validDigit (previous :: character :: rest) base 1 = true ∧ ValidBehind base character rest := by
  have hshift : ∀ index, validDigit (previous :: character :: rest) base (index + 2)
      = validDigit (character :: rest) base (index + 1) := by
    intro index
    simp [validDigit]
  rw [ValidBehind, List.length_cons, Nat.forall_lt_succ_left]
  simp only [hshift]
  rfl

/-- **What is valid behind a digit.** -/
theorem digits_of_validBehind (hbase : IsBase base) : ∀ {rest : Bytes} {character : Byte},
    isDigitForBase character base = true → ValidBehind base character rest →
      ∃ digits, Digits base (character :: rest) digits
  | [], character, hfirst, _ => by
      obtain ⟨digit, hdigit, hsmall⟩ := (isDigitForBase_iff hbase).mp hfirst
      exact ⟨[digit], .single hdigit hsmall⟩
  | next :: rest, character, hfirst, hrest => by
      obtain ⟨digit, hdigit, hsmall⟩ := (isDigitForBase_iff hbase).mp hfirst
      obtain ⟨hnext, hrest⟩ := validBehind_cons.mp hrest
      rw [validDigit_one] at hnext
      split at hnext
      · rename_i hdelimiter
        rw [beq_iff_eq.mp hdelimiter] at hrest ⊢
        simp only [Bool.and_eq_true] at hnext
        cases rest with
        | nil => cases hnext.1.1
        | cons following rest =>
            obtain ⟨hvalid, hrest⟩ := validBehind_cons.mp hrest
            obtain ⟨digits, hdigits⟩ := digits_of_validBehind hbase hnext.2 hrest
            exact ⟨digit :: digits, .delimited hdigit hsmall hdigits⟩
      · obtain ⟨digits, hdigits⟩ := digits_of_validBehind hbase hnext hrest
        exact ⟨digit :: digits, .cons hdigit hsmall hdigits⟩

theorem validBehind_of_digits (hbase : IsBase base) (h : Digits base text digits) :
    ∃ character rest, text = character :: rest ∧ isDigitForBase character base = true ∧
      ValidBehind base character rest := by
  induction h with
  | single isDigit small =>
      exact ⟨_, _, rfl, (isDigitForBase_iff hbase).mpr ⟨_, isDigit, small⟩,
        fun index hlt => absurd hlt (Nat.not_lt_zero index)⟩
  | cons isDigit small tail ih =>
      obtain ⟨next, rest, rfl, hnext, hrest⟩ := ih
      refine ⟨_, _, rfl, (isDigitForBase_iff hbase).mpr ⟨_, isDigit, small⟩,
        validBehind_cons.mpr ⟨?_, hrest⟩⟩
      rw [validDigit_one, if_neg (ne_digitDelimiter_of_isDigitForBase hnext)]
      exact hnext
  | delimited isDigit small tail ih =>
      obtain ⟨next, rest, rfl, hnext, hrest⟩ := ih
      have hfirst := (isDigitForBase_iff hbase).mpr ⟨_, isDigit, small⟩
      refine ⟨_, _, rfl, hfirst, validBehind_cons.mpr ⟨?_, validBehind_cons.mpr ⟨?_, hrest⟩⟩⟩
      · simp [validDigit_one, hfirst, hnext]
      · rw [validDigit_one, if_neg (ne_digitDelimiter_of_isDigitForBase hnext)]
        exact hnext

/-- **`validate_numeric_token`** accepts exactly the strings of digits. -/
theorem validDigits_iff (hbase : IsBase base) :
    text ≠ [] ∧ (List.range text.length).all (validDigit text base) = true ↔
      ∃ digits, Digits base text digits := by
  simp only [List.all_eq_true, List.mem_range]
  constructor
  · rintro ⟨hne, hvalid⟩
    cases text with
    | nil => exact absurd rfl hne
    | cons character rest =>
        rw [List.length_cons, Nat.forall_lt_succ_left, validDigit_zero] at hvalid
        exact digits_of_validBehind hbase hvalid.1 hvalid.2
  · rintro ⟨digits, hdigits⟩
    obtain ⟨character, rest, rfl, hfirst, hrest⟩ := validBehind_of_digits hbase hdigits
    refine ⟨List.cons_ne_nil _ _, ?_⟩
    rw [List.length_cons, Nat.forall_lt_succ_left, validDigit_zero]
    exact ⟨hfirst, hrest⟩

/-- **Without its delimiters** a string of digits is the list of its digits. -/
theorem Digits.filter (h : Digits base text digits) :
    List.Forall₂ IsDigit (text.filter (· != digitDelimiter)) digits ∧
      ∀ digit ∈ digits, digit < base := by
  induction h with
  | single isDigit small =>
      rw [List.filter_cons_of_pos (by simpa using isDigit.ne_digitDelimiter)]
      exact ⟨.cons isDigit .nil, by simpa using small⟩
  | cons isDigit small tail ih =>
      rw [List.filter_cons_of_pos (by simpa using isDigit.ne_digitDelimiter)]
      exact ⟨.cons isDigit ih.1, List.forall_mem_cons.mpr ⟨small, ih.2⟩⟩
  | delimited isDigit small tail ih =>
      rw [List.filter_cons_of_pos (by simpa using isDigit.ne_digitDelimiter),
        List.filter_cons_of_neg (by simp)]
      exact ⟨.cons isDigit ih.1, List.forall_mem_cons.mpr ⟨small, ih.2⟩⟩

/-- A digit of a string of digits, or a delimiter. -/
theorem Digits.mem (h : Digits base text digits) (hmem : character ∈ text) :
    character = digitDelimiter ∨ ∃ digit, IsDigit character digit ∧ digit < base := by
  induction h with
  | single isDigit small =>
      obtain rfl := List.mem_singleton.mp hmem
      exact .inr ⟨_, isDigit, small⟩
  | cons isDigit small tail ih =>
      rcases List.mem_cons.mp hmem with rfl | hmem
      · exact .inr ⟨_, isDigit, small⟩
      · exact ih hmem
  | delimited isDigit small tail ih =>
      rcases List.mem_cons.mp hmem with rfl | hmem
      · exact .inr ⟨_, isDigit, small⟩
      rcases List.mem_cons.mp hmem with rfl | hmem
      · exact .inl rfl
      · exact ih hmem

/-- The digits are those of the text. -/
theorem Digits.unique {digits' : List ℕ} (h : Digits base text digits)
    (h' : Digits base text digits') : digits = digits' :=
  isDigit_unique.forall₂ h.filter.1 h'.filter.1

theorem Digits.ne_nil (h : Digits base text digits) : digits ≠ [] := by
  cases h <;> exact List.cons_ne_nil _ _

end Delimiters

/-! ## Values -/

/-- A token that has been read as a number of a base. -/
structure NumberToken (token : Token) (base : ℕ) (digits : List ℕ) : Prop where
  base_eq : token.type.base = some base
  isBase : IsBase base
  isDigit : List.Forall₂ IsDigit token.value.bytes digits
  small : ∀ digit ∈ digits, digit < base
  ne_nil : digits ≠ []

section Value

variable {token : Token} {base : ℕ} {digits : List ℕ}

theorem isBase_of_base (h : token.type.base = some base) : IsBase base := by
  rw [IsBase]
  cases htype : token.type <;> rw [htype] at h <;> simp [TokenType.base] at h <;> omega

/-- The loop over the digits is that over their values. -/
theorem foldlM_addDigit {text : Bytes} (h : List.Forall₂ IsDigit text digits)
    (hsmall : ∀ digit ∈ digits, digit < base) (value : ℕ) :
    text.foldlM (addDigit token base) value = digits.foldlM (boundedStep base dwordMax
      (asmTokenFail .numberOverflow "Numeric literal overflows 64 bits" token)) value := by
  induction h generalizing value with
  | nil => rfl
  | cons hdigit _ ih =>
      obtain ⟨hfirst, hsmall⟩ := List.forall_mem_cons.mp hsmall
      rw [List.foldlM_cons, List.foldlM_cons, addDigit, isDigit_iff.mp hdigit]
      dsimp only
      rw [require_of hfirst, ok_bind]
      exact bind_congr fun value => ih hsmall value

/-- **The value of a number**, if it fits into 64 bits. -/
theorem tokenGetIntValue_eq (h : NumberToken token base digits) : tokenGetIntValue token
    = if digitsNumber base digits ≤ dwordMax then .ok (digitsNumber base digits)
      else .error (asmTokenFail .numberOverflow "Numeric literal overflows 64 bits" token) := by
  have hpositive : 0 < base := by
    have := h.isBase
    rw [IsBase] at this
    omega
  have hne : token.value ≠ CString.empty := by
    intro hempty
    have hlength := h.isDigit.length_eq
    rw [hempty] at hlength
    exact h.ne_nil (List.length_eq_zero_iff.mp hlength.symm)
  have hbounded : ∀ digit ∈ digits, digit ≤ dwordMax := by
    intro digit hdigit
    have := h.small digit hdigit
    have := h.isBase
    rw [IsBase] at this
    rw [dwordMax]
    omega
  unfold tokenGetIntValue
  rw [h.base_eq]
  dsimp only
  rw [require_of hne, ok_bind, foldlM_addDigit h.isDigit h.small,
    foldlM_boundedStep hpositive _ hbounded (Nat.zero_le _), horner_eq_ofDigits]
  rfl

end Value

/-! ## Prefixes -/

section Prefix

variable {start : LexerState} {character mark : Byte} {text run tail : Bytes} {base value : ℕ}

/-- No letter of a prefix ends a token. -/
theorem not_isTokenEnd_of_mem_prefixes (h : (mark, base) ∈ prefixes) : isTokenEnd mark = false := by
  have hall : ∀ entry ∈ prefixes, isTokenEnd entry.1 = false := by
    simp only [prefixes]
    decide
  exact hall _ h

/-- No letter of a prefix is a decimal digit. -/
theorem not_digits_of_mem_prefixes (h : (mark, base) ∈ prefixes) (digits : List ℕ) :
    ¬Digits 10 (character :: mark :: text) digits := by
  have hall : ∀ entry ∈ prefixes, entry.1 ≠ digitDelimiter ∧
      ∀ digit ∈ digitValue entry.1, 10 ≤ digit := by
    simp only [prefixes]
    decide
  obtain ⟨hdelimiter, hletter⟩ := hall _ h
  intro hdigits
  rcases hdigits.mem (List.mem_cons_of_mem _ List.mem_cons_self) with rfl | ⟨digit, hdigit, hsmall⟩
  · exact hdelimiter rfl
  · exact absurd hsmall (Nat.not_lt.mpr (hletter digit (isDigit_iff.mp hdigit)))

/-- The base of a number with a prefix. -/
theorem numberType_marked (hrest : start.rest.bytes = 0x30 :: mark :: text)
    (h : (mark, base) ∈ prefixes) :
    ∃ type, numberType start = (type, base, true) ∧ type.base = some base := by
  simp only [prefixes, List.mem_cons, List.not_mem_nil, or_false, Prod.mk.injEq] at h
  rcases h with ⟨rfl, rfl⟩ | ⟨rfl, rfl⟩ | ⟨rfl, rfl⟩ | ⟨rfl, rfl⟩ | ⟨rfl, rfl⟩ | ⟨rfl, rfl⟩
  all_goals exact ⟨_, by rw [numberType, lexerPeekChar, hrest]; rfl, rfl⟩

/-- The base of a number without one. -/
theorem numberType_plain (h : start.rest.bytes.headD 0 = 0x30 →
    ∀ base, (start.rest.bytes.getD 1 0, base) ∉ prefixes) :
    numberType start = (.intDec, 10, false) := by
  have hmark : ∀ base,
      ((if lexerPeekChar start == 0x30 then start.rest.bytes.getD 1 0 else 0), base)
        ∉ prefixes := by
    split
    · rename_i hzero
      exact h (beq_iff_eq.mp hzero)
    · simp [prefixes]
  unfold numberType
  generalize (if lexerPeekChar start == 0x30 then start.rest.bytes.getD 1 0 else 0) = mark at hmark
  have hletters : ∀ entry ∈ prefixes, mark ≠ entry.1 := fun entry hentry heq =>
    hmark entry.2 (heq ▸ hentry)
  simp only [prefixes, List.forall_mem_cons] at hletters
  simp [hletters]

/-- **A number with a prefix.** -/
theorem numeral_marked (h : (mark, base) ∈ prefixes) : Numeral (0x30 :: mark :: text) value ↔
    ∃ digits, Digits base text digits ∧ value = digitsNumber base digits := by
  constructor
  · intro hnumeral
    cases hnumeral with
    | decimal valid => exact absurd valid (not_digits_of_mem_prefixes h _)
    | marked letter valid =>
        have hunique : ∀ entry ∈ prefixes, ∀ entry' ∈ prefixes, entry.1 = entry'.1 →
            entry.2 = entry'.2 := by decide
        obtain rfl := hunique _ h _ letter rfl
        exact ⟨_, valid, rfl⟩
  · rintro ⟨digits, valid, rfl⟩
    exact .marked h valid

/-- **A number without a prefix** is decimal. -/
theorem numeral_plain (h : run.headD 0 = 0x30 → ∀ base, (run.getD 1 0, base) ∉ prefixes) :
    Numeral run value ↔ ∃ digits, Digits 10 run digits ∧ value = digitsNumber 10 digits := by
  constructor
  · intro hnumeral
    cases hnumeral with
    | decimal valid => exact ⟨_, valid, rfl⟩
    | marked letter valid => exact absurd letter (h rfl _)
  · rintro ⟨digits, valid, rfl⟩
    exact .decimal valid

end Prefix

/-! ## The value of a token -/

/-- The token is an integer literal with the given value, of any size. -/
def Literal (token : Token) (value : ℕ) : Prop :=
  ∃ base digits, NumberToken token base digits ∧ value = digitsNumber base digits

section Literal

variable {token : Token} {base value : ℕ}

theorem Literal.tokenGetIntValue_eq (h : Literal token value) : tokenGetIntValue token
    = if value ≤ dwordMax then .ok value
      else .error (asmTokenFail .numberOverflow "Numeric literal overflows 64 bits" token) := by
  obtain ⟨base, digits, hnumber, rfl⟩ := h
  exact Zlvm.tokenGetIntValue_eq hnumber

theorem Literal.unique {value' : ℕ} (h : Literal token value) (h' : Literal token value') :
    value = value' := by
  obtain ⟨base, digits, hnumber, rfl⟩ := h
  obtain ⟨base', digits', hnumber', rfl⟩ := h'
  obtain rfl := Option.some.inj (hnumber.base_eq.symm.trans hnumber'.base_eq)
  rw [isDigit_unique.forall₂ hnumber.isDigit hnumber'.isDigit]

/-- The characters that the loop over the digits accepts. -/
theorem digits_of_foldlM_addDigit : ∀ {text : Bytes} {first : ℕ},
    text.foldlM (addDigit token base) first = .ok value →
      ∃ digits, List.Forall₂ IsDigit text digits ∧ ∀ digit ∈ digits, digit < base
  | [], _, _ => ⟨[], .nil, fun _ h => nomatch h⟩
  | character :: text, first, h => by
      rw [List.foldlM_cons, bind_eq_ok] at h
      obtain ⟨next, hstep, h⟩ := h
      obtain ⟨digits, hdigits, hsmall⟩ := digits_of_foldlM_addDigit h
      unfold addDigit at hstep
      split at hstep
      · cases hstep
      · rename_i digit hdigit
        simp only [bind_eq_ok, require_eq_ok] at hstep
        obtain ⟨-, hlt, -⟩ := hstep
        exact ⟨digit :: digits, .cons (isDigit_iff.mpr hdigit) hdigits,
          List.forall_mem_cons.mpr ⟨hlt, hsmall⟩⟩

/-- **A token with a value is a literal** with this value. -/
theorem literal_of_tokenGetIntValue (h : tokenGetIntValue token = .ok value) :
    Literal token value ∧ value ≤ dwordMax := by
  have hvalue := h
  unfold tokenGetIntValue at h
  split at h
  · cases h
  · rename_i base hbase
    simp only [bind_eq_ok, require_eq_ok] at h
    obtain ⟨-, hne, h⟩ := h
    obtain ⟨digits, hdigits, hsmall⟩ := digits_of_foldlM_addDigit h
    have hnumber : NumberToken token base digits := by
      refine ⟨hbase, isBase_of_base hbase, hdigits, hsmall, ?_⟩
      rintro rfl
      exact hne (CString.ext (List.length_eq_zero_iff.mp hdigits.length_eq))
    rw [Zlvm.tokenGetIntValue_eq hnumber] at hvalue
    split at hvalue
    · rename_i hle
      obtain rfl := Except.ok.inj hvalue
      exact ⟨⟨base, digits, hnumber, rfl⟩, hle⟩
    · cases hvalue

end Literal

/-! ## Reading a number -/

/-- What is left to read begins with a run that the lexer takes for a number: it begins with a
decimal digit and goes on to where a token ends. -/
structure NumberRun (state : LexerState) (run tail : Bytes) : Prop where
  rest : state.rest.bytes.dropWhile isIgnoredChar = run ++ tail
  head : 0x30 ≤ run.headD 0 ∧ run.headD 0 ≤ 0x39
  inside : ∀ character ∈ run, isTokenEnd character = false
  ends : ∀ character ∈ tail.head?, isTokenEnd character = true

/-- What the lexer makes of such a run: it accepts exactly the numerals below `2 ^ 64`, with their
value. -/
structure ReadsNumeral (run tail : Bytes)
    (result : Except AsmFailure (Option (Token × LexerState))) : Prop where
  accepted_iff : (∃ read, result = .ok read) ↔ ∃ value, Numeral run value ∧ value < 2 ^ 64
  value : ∀ read, result = .ok read → ∃ token last, read = some (token, last) ∧
    isIntegerToken token = true ∧ token.sourceSize = run.length ∧ last.rest.bytes = tail ∧
    ∀ value, Numeral run value → tokenGetIntValue token = .ok value
  overflow : ∀ value, Numeral run value → 2 ^ 64 ≤ value →
    ∃ failure, result = .error failure ∧ failure.code = .numberOverflow
  malformed : (∀ value, ¬Numeral run value) →
    ∃ failure, result = .error failure ∧ failure.code = .malformedNumber

section Reading

variable {start state : LexerState} {run tail : Bytes}

/-- **Scanning a run.** -/
theorem scan_run {text : Bytes} (hrest : start.rest.bytes = text ++ tail)
    (hinside : ∀ character ∈ text, isTokenEnd character = false)
    (hends : ∀ character ∈ tail.head?, isTokenEnd character = true) :
    ∃ last, scan (fun character => !isTokenEnd character) start = last ∧
      (between start last).bytes = text ∧ last.rest.bytes = tail ∧
      last.pos = start.pos + text.length := by
  obtain ⟨htake, hdrop⟩ := takeWhile_eq_nil_of_head (p := fun character => !isTokenEnd character)
    fun character hmem => by simp [hends character hmem]
  have htext : ∀ character ∈ text, (!isTokenEnd character) = true := fun character hmem => by
    simp [hinside character hmem]
  have hscanned : start.rest.bytes.takeWhile (fun character => !isTokenEnd character) = text := by
    rw [hrest, List.takeWhile_append_of_pos htext, htake, List.append_nil]
  refine ⟨_, rfl, ?_, ?_, ?_⟩
  · rw [between_scan, hscanned]
  · rw [scan_rest, hrest, List.dropWhile_append_of_pos htext, hdrop]
  · rw [scan, hscanned, lexerAdvance_pos]
    rw [hrest, List.length_append]
    exact Nat.le_add_right _ _

/-- Passing the prefix of a run. -/
theorem advance_prefix (hrest : start.rest.bytes = run ++ tail) {marked : Bool}
    (hmarked : marked = true → 2 ≤ run.length) :
    ∃ first text, (if marked then lexerAdvance 2 start else start) = first ∧
      (if marked then run.drop 2 else run) = text ∧ first.rest.bytes = text ++ tail ∧
      first.pos + text.length = start.pos + run.length ∧ text ⊆ run := by
  refine ⟨_, _, rfl, rfl, ?_⟩
  split
  · rename_i h
    have hlong := hmarked h
    rw [lexerAdvance_rest, hrest, List.drop_append_of_le_length hlong, lexerAdvance_pos,
      List.length_drop]
    · exact ⟨rfl, by omega, List.drop_subset 2 run⟩
    · rw [hrest, List.length_append]
      omega
  · exact ⟨hrest, rfl, List.Subset.refl run⟩

/-- The prefix of a run, and the numerals that begin with it. -/
theorem exists_numberType (hrest : start.rest.bytes = run ++ tail) (hne : run ≠ [])
    (hends : ∀ character ∈ tail.head?, isTokenEnd character = true) :
    ∃ type base marked, numberType start = (type, base, marked) ∧ type.base = some base ∧
      (marked = true → 2 ≤ run.length) ∧ ∀ value, Numeral run value ↔
        ∃ digits, Digits base (if marked then run.drop 2 else run) digits ∧
          value = digitsNumber base digits := by
  by_cases hmarked : ∃ mark base text, run = 0x30 :: mark :: text ∧ (mark, base) ∈ prefixes
  · obtain ⟨mark, base, text, rfl, hmark⟩ := hmarked
    obtain ⟨type, hnumber, hbase⟩ := numberType_marked hrest hmark
    refine ⟨type, base, true, hnumber, hbase, fun _ => ?_, fun value => numeral_marked hmark⟩
    rw [List.length_cons, List.length_cons]
    omega
  · have hplain : run.headD 0 = 0x30 → ∀ base, (run.getD 1 0, base) ∉ prefixes := by
      intro hzero base hmem
      cases run with
      | nil => exact hne rfl
      | cons character rest =>
          obtain rfl : character = 0x30 := hzero
          cases rest with
          | nil => simp [prefixes] at hmem
          | cons mark text => exact hmarked ⟨mark, base, text, rfl, hmem⟩
    refine ⟨.intDec, 10, false, numberType_plain ?_, rfl, fun h => (by cases h), fun value =>
      numeral_plain hplain⟩
    intro hzero base hmem
    rw [hrest] at hzero hmem
    cases run with
    | nil => exact hne rfl
    | cons character rest =>
        cases rest with
        | cons mark text => exact hplain hzero base hmem
        | nil =>
            -- the character behind a run ends a token, so it is no letter of a prefix
            cases tail with
            | nil => simp [prefixes] at hmem
            | cons last tail =>
                have hend : isTokenEnd last = true := hends last rfl
                exact Bool.false_ne_true ((not_isTokenEnd_of_mem_prefixes hmem).symm.trans hend)

/-- **`validate_numeric_token`** in terms of the grammar. -/
theorem validateNumericToken_eq {token : Token} {base : ℕ} (hbase : IsBase base) :
    ((∃ digits, Digits base token.value.bytes digits) → validateNumericToken token base = .ok ()) ∧
    ((¬∃ digits, Digits base token.value.bytes digits) → validateNumericToken token base
      = .error (asmTokenFail .malformedNumber "Malformed numeric literal" token)) := by
  rw [← validDigits_iff hbase, validateNumericToken]
  constructor
  · rintro ⟨hne, hvalid⟩
    rw [require_of hne, ok_bind, require_of hvalid]
  · intro hinvalid
    by_cases hne : token.value.bytes = []
    · rw [require, if_neg (by simpa using hne)]
      rfl
    · rw [require_of hne, ok_bind, require, if_neg fun hvalid => hinvalid ⟨hne, hvalid⟩]

/-- A token without its delimiters is a number. -/
theorem numberToken_of_digits {token : Token} {base : ℕ} {digits : List ℕ}
    (hbase : token.type.base = some base) (h : Digits base token.value.bytes digits) :
    NumberToken { token with value := removeDigitDelimiters token.value } base digits where
  base_eq := hbase
  isBase := isBase_of_base hbase
  isDigit := h.filter.1
  small := h.filter.2
  ne_nil := h.ne_nil

/-- **Reading a run**: the token that is validated, without its prefix. -/
theorem readNumber_run (hrest : start.rest.bytes = run ++ tail)
    (hinside : ∀ character ∈ run, isTokenEnd character = false)
    (hends : ∀ character ∈ tail.head?, isTokenEnd character = true)
    {type : TokenType} {base : ℕ} {marked : Bool}
    (hnumber : numberType start = (type, base, marked)) (hmarked : marked = true → 2 ≤ run.length) :
    ∃ token last, token.type = type ∧ token.sourceSize = run.length ∧ last.rest.bytes = tail ∧
      token.value.bytes = (if marked then run.drop 2 else run) ∧
      readNumber start = (validateNumericToken token base >>= fun _ =>
        (tokenGetIntValue { token with value := removeDigitDelimiters token.value }).map fun _ =>
          ({ token with value := removeDigitDelimiters token.value }, last)) := by
  obtain ⟨first, text, hfirst, htext, hrest', hpos, hsubset⟩ := advance_prefix hrest hmarked
  obtain ⟨last, hlast, hvalue, htail, hend⟩ :=
    scan_run hrest' (fun character hmem => hinside character (hsubset hmem)) hends
  rw [htext]
  refine ⟨tokenAt start last type (between first last), last, rfl, ?_, htail, hvalue, ?_⟩
  · show last.pos - start.pos = run.length
    omega
  · unfold readNumber
    rw [hnumber]
    dsimp only
    rw [hfirst, hlast]
    refine bind_congr fun _ => ?_
    generalize tokenGetIntValue _ = result
    cases result <;> rfl

/-- A token that begins with a decimal digit is a number. -/
theorem readFrom_digit (h : 0x30 ≤ lexerPeekChar start ∧ lexerPeekChar start ≤ 0x39) :
    readFrom start = readNumber start := by
  have hdec : isDecChar (lexerPeekChar start) = true := by simp [isDecChar, h]
  have hne : ∀ mark : Byte, ¬(0x30 ≤ mark ∧ mark ≤ 0x39) →
      (lexerPeekChar start == mark) = false := fun mark hmark =>
    beq_eq_false_iff_ne.mpr fun heq => hmark (heq ▸ h)
  unfold readFrom
  simp only [hne newline (by decide), hne comma (by decide), hne commentMark (by decide),
    hne labelUseMark (by decide), hne registerMark (by decide), hne directiveMark (by decide),
    hne stringQuote (by decide), hne charQuote (by decide), hdec]
  rfl

/-- A run is read as a number. -/
theorem lexerReadToken_run (h : NumberRun state run tail) :
    lexerReadToken state = (readNumber (scan isIgnoredChar state)).map some := by
  have hpeek : lexerPeekChar (scan isIgnoredChar state) = run.headD 0 := by
    rw [lexerPeekChar, scan_rest, h.rest]
    cases run with
    | nil => exact absurd h.head (by decide)
    | cons character run => rfl
  have heof : ¬isEof (lexerPeekChar (scan isIgnoredChar state)) = true := by
    rw [hpeek, isEof, beq_iff_eq]
    intro hzero
    exact absurd (hzero ▸ h.head) (by decide)
  rw [lexerReadToken_eq, if_neg heof, readFrom_digit (by rw [hpeek]; exact h.head)]

/-- A run that is the numeral of one number. -/
theorem readsNumeral_of_number {token : Token} {last : LexerState} {number : ℕ}
    (hnumber : ∀ value, Numeral run value ↔ value = number) (hinteger : isIntegerToken token = true)
    (hsize : token.sourceSize = run.length) (htail : last.rest.bytes = tail)
    (hvalue : tokenGetIntValue token = if number ≤ dwordMax then .ok number
      else .error (asmTokenFail .numberOverflow "Numeric literal overflows 64 bits" token)) :
    ReadsNumeral run tail (((tokenGetIntValue token).map fun _ => (token, last)).map some) := by
  have hbound : number < 2 ^ 64 ↔ number ≤ dwordMax := by
    rw [dwordMax]
    omega
  by_cases hle : number ≤ dwordMax
  · rw [if_pos hle] at hvalue
    refine ⟨?_, ?_, ?_, fun hnone => absurd ((hnumber number).mpr rfl) (hnone number)⟩
    · rw [hvalue]
      exact iff_of_true ⟨_, rfl⟩ ⟨number, (hnumber number).mpr rfl, hbound.mpr hle⟩
    · rintro read hread
      rw [hvalue] at hread
      obtain rfl := Except.ok.inj hread
      refine ⟨token, last, rfl, hinteger, hsize, htail, fun value hnumeral => ?_⟩
      rw [hvalue, (hnumber value).mp hnumeral]
    · intro value hnumeral hlarge
      rw [(hnumber value).mp hnumeral] at hlarge
      exact absurd (hbound.mpr hle) (Nat.not_lt.mpr hlarge)
  · rw [if_neg hle] at hvalue
    rw [hvalue]
    refine ⟨iff_of_false ?_ ?_, ?_, fun _ _ _ => ⟨_, rfl, rfl⟩,
      fun hnone => absurd ((hnumber number).mpr rfl) (hnone number)⟩
    · rintro ⟨read, hread⟩
      cases hread
    · rintro ⟨value, hnumeral, hsmall⟩
      rw [(hnumber value).mp hnumeral] at hsmall
      exact hle (hbound.mp hsmall)
    · intro read hread
      cases hread

/-- A run that is no numeral. -/
theorem readsNumeral_of_malformed (hnone : ∀ value, ¬Numeral run value) {failure : AsmFailure}
    (hcode : failure.code = .malformedNumber) : ReadsNumeral run tail (.error failure) where
  accepted_iff := by
    refine iff_of_false ?_ fun ⟨value, hnumeral, _⟩ => hnone value hnumeral
    rintro ⟨read, hread⟩
    cases hread
  value := by
    intro read hread
    cases hread
  overflow value hnumeral := absurd hnumeral (hnone value)
  malformed _ := ⟨failure, rfl, hcode⟩

/-- **Reading a run** at the beginning of a token. -/
theorem readsNumeral_of_run (h : NumberRun state run tail) :
    ReadsNumeral run tail (lexerReadToken state) := by
  have hne : run ≠ [] := by
    rintro rfl
    exact absurd h.head (by decide)
  have hrest : (scan isIgnoredChar state).rest.bytes = run ++ tail := by rw [scan_rest, h.rest]
  obtain ⟨type, base, marked, hnumber, hbase, hmarked, hnumeral⟩ :=
    exists_numberType hrest hne h.ends
  obtain ⟨token, last, rfl, hsize, htail, hvalue, hrun⟩ :=
    readNumber_run hrest h.inside h.ends hnumber hmarked
  obtain ⟨hvalid, hinvalid⟩ := @validateNumericToken_eq token base (isBase_of_base hbase)
  rw [← hvalue] at hnumeral
  rw [lexerReadToken_run h, hrun]
  by_cases hdigits : ∃ digits, Digits base token.value.bytes digits
  · rw [hvalid hdigits, ok_bind]
    obtain ⟨digits, hdigits⟩ := hdigits
    refine readsNumeral_of_number (fun value => ?_) (by rw [isIntegerToken, hbase]; rfl) hsize htail
      (tokenGetIntValue_eq (numberToken_of_digits hbase hdigits))
    rw [hnumeral]
    constructor
    · rintro ⟨digits', hdigits', rfl⟩
      rw [hdigits'.unique hdigits]
    · rintro rfl
      exact ⟨digits, hdigits, rfl⟩
  · rw [hinvalid hdigits, error_bind]
    exact readsNumeral_of_malformed
      (fun value hvalue => hdigits (((hnumeral value).mp hvalue).imp fun _ h => h.1)) rfl

end Reading

/-! ## A number of a source -/

/-- The lexer of a source comes to this state between two tokens. -/
inductive LexerReaches (source : CString) : LexerState → Prop
  | init : LexerReaches source (lexerInit source)
  | next {state next : LexerState} {token : Token} (before : LexerReaches source state)
      (read : lexerReadToken state = .ok (some (token, next))) : LexerReaches source next

/-- What is read from such a state on is the rest of what is read of the source. -/
theorem LexerReaches.lexSource_eq {source : CString} {state : LexerState}
    (h : LexerReaches source state) :
    ∃ f : List Token → List Token, lexSource source = (lexRest state).map f := by
  induction h with
  | init =>
      refine ⟨id, ?_⟩
      rw [Zlvm.lexSource_eq]
      cases lexRest (lexerInit source) <;> rfl
  | next before read ih =>
      rename_i state next token
      obtain ⟨f, hf⟩ := ih
      refine ⟨fun tokens => f (token :: tokens), ?_⟩
      rw [hf, lexRest_of_token read]
      cases lexRest next <;> rfl

/-- A token that is rejected rejects the source. -/
theorem LexerReaches.lexSource_error {source : CString} {state : LexerState}
    (h : LexerReaches source state) {failure : AsmFailure}
    (hfails : lexerReadToken state = .error failure) : lexSource source = .error failure := by
  obtain ⟨f, hf⟩ := h.lexSource_eq
  rw [hf, lexRest_eq, hfails]
  rfl

/-- **Numeric literals.**  A run that begins with a decimal digit, read at the beginning of a token,
is accepted exactly if it is a numeral whose value is below `2 ^ 64`; a source with any other run is
rejected for it. -/
theorem lexerReadToken_numeral {state : LexerState} {run tail : Bytes}
    (h : NumberRun state run tail) : ReadsNumeral run tail (lexerReadToken state) ∧
      ∀ source, LexerReaches source state → ∀ failure, lexerReadToken state = .error failure →
        lexSource source = .error failure :=
  ⟨readsNumeral_of_run h, fun _ hreaches _ => hreaches.lexSource_error⟩

/-- The largest literal in base 16, with delimiters, before a comment. -/
theorem lexerReadToken_numeral_largest :
    ReadsNumeral (CString.lit "0xFFFF_ffff_FFFF_ffff").bytes (CString.lit ";").bytes
      (lexerReadToken (lexerInit (CString.lit " 0xFFFF_ffff_FFFF_ffff;"))) ∧
    ∀ source, LexerReaches source (lexerInit (CString.lit " 0xFFFF_ffff_FFFF_ffff;")) →
      ∀ failure, lexerReadToken (lexerInit (CString.lit " 0xFFFF_ffff_FFFF_ffff;"))
        = .error failure → lexSource source = .error failure :=
  lexerReadToken_numeral ⟨by decide, by decide, by decide +kernel, by decide +kernel⟩

end Zlvm
