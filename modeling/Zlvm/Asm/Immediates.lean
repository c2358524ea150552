import Zlvm.Asm.Object
import Zlvm.Asm.Raw

/-!
# Literals in instructions and in data

`asm_translate` and `asm_translate_object` convert a literal to a `word` on their own, and
`encode_numeric_data` converts it to a `byte` first.

* `WordValue` — the value that `.word` emits for a literal.
* `literalImmediate_iff`, `numericElement_word_iff` — what both sides make of it; they accept the
  same literals.
* `toNat_charToWord` — a plain `char` is extended with its sign.
* `ImmediateAgrees` — an instruction and `.word` hold the same four bytes.
* **`immediateAgrees_iff`** — they do unless the literal is a character from `0x80` on.
-/

namespace Zlvm

open Loop Buffer

/-! ## The value of a literal -/

/-- The value that `.word` emits for a token. -/
inductive WordValue (token : Token) : ℕ → Prop
  | char {character : Byte} (type : token.type = .charLiteral)
      (literal : tokenGetCharValue token = .ok character) : WordValue token character.toNat
  | int {value : ℕ} (type : token.type ≠ .charLiteral)
      (literal : tokenGetIntValue token = .ok value) (fits : value ≤ wordMax) :
      WordValue token value

/-- The immediate that an instruction has for a token with the given value. -/
def immediateOf (token : Token) (value : ℕ) : Word :=
  if token.type = .charLiteral then charToWord (UInt8.ofNat value) else UInt32.ofNat value

section Token

variable {token : Token} {value : ℕ}

theorem WordValue.lt (h : WordValue token value) : value < 256 ^ 4 := by
  cases h with
  | char type literal =>
      rename_i character
      have := character.toNat_lt
      omega
  | int type literal fits =>
      rw [wordMax] at fits
      omega

theorem WordValue.unique {value' : ℕ} (h : WordValue token value) (h' : WordValue token value') :
    value = value' := by
  cases h with
  | char type literal =>
      cases h' with
      | char _ literal' => rw [Except.ok.inj (literal.symm.trans literal')]
      | int type' => exact absurd type type'
  | int type literal =>
      cases h' with
      | char type' => exact absurd type' type
      | int _ literal' => exact Except.ok.inj (literal.symm.trans literal')

/-- **What an instruction makes of a literal.** -/
theorem literalImmediate_iff {immediate : Word} : literalImmediate token = .ok immediate ↔
    ∃ value, WordValue token value ∧ immediate = immediateOf token value := by
  unfold literalImmediate
  by_cases htype : token.type = .charLiteral
  · simp only [if_pos htype, map_eq_ok, immediateOf]
    constructor
    · rintro ⟨character, hliteral, rfl⟩
      exact ⟨_, .char htype hliteral, by rw [UInt8.ofNat_toNat]⟩
    · rintro ⟨value, hvalue, rfl⟩
      cases hvalue with
      | char type literal => exact ⟨_, literal, by rw [UInt8.ofNat_toNat]⟩
      | int type _ _ => exact absurd htype type
  · simp only [if_neg htype, bind_eq_ok, require_eq_ok, immediateOf]
    constructor
    · rintro ⟨value, hliteral, -, hfits, himmediate⟩
      exact ⟨value, .int htype hliteral hfits, (Except.ok.inj himmediate).symm⟩
    · rintro ⟨value, hvalue, rfl⟩
      cases hvalue with
      | char type _ => exact absurd type htype
      | int type literal fits => exact ⟨value, literal, (), fits, rfl⟩

/-- **What `.word` makes of it.** -/
theorem numericElement_word_iff {bytes : Bytes} : numericElement 4 wordMax token = .ok bytes ↔
    ∃ value, WordValue token value ∧ bytes = LittleEndian.bytes 4 value := by
  unfold numericElement
  simp only [LittleEndian.map_shift]
  by_cases htype : token.type = .charLiteral
  · simp only [if_pos htype, bind_eq_ok, map_eq_ok, require_eq_ok]
    constructor
    · rintro ⟨value, ⟨character, hliteral, rfl⟩, -, -, hbytes⟩
      exact ⟨_, .char htype hliteral, (Except.ok.inj hbytes).symm⟩
    · rintro ⟨value, hvalue, rfl⟩
      cases hvalue with
      | char type literal =>
          rename_i character
          refine ⟨_, ⟨character, literal, rfl⟩, (), ?_, rfl⟩
          have := character.toNat_lt
          rw [wordMax]
          omega
      | int type _ _ => exact absurd htype type
  · simp only [if_neg htype, bind_eq_ok, require_eq_ok]
    constructor
    · rintro ⟨value, hliteral, -, hfits, hbytes⟩
      exact ⟨value, .int htype hliteral hfits, (Except.ok.inj hbytes).symm⟩
    · rintro ⟨value, hvalue, rfl⟩
      cases hvalue with
      | char type _ => exact absurd type htype
      | int type literal fits => exact ⟨value, literal, (), fits, rfl⟩

/-- **Both accept the same literals.** -/
theorem literalImmediate_error_iff (token : Token) :
    (∃ e, literalImmediate token = .error e) ↔ ∃ e, numericElement 4 wordMax token = .error e := by
  have haccepted : (∃ immediate, literalImmediate token = .ok immediate) ↔
      ∃ bytes, numericElement 4 wordMax token = .ok bytes := by
    simp only [literalImmediate_iff, numericElement_word_iff]
    constructor
    · rintro ⟨-, value, hvalue, -⟩
      exact ⟨_, value, hvalue, rfl⟩
    · rintro ⟨-, value, hvalue, -⟩
      exact ⟨_, value, hvalue, rfl⟩
  cases hx : literalImmediate token with
  | ok immediate =>
      obtain ⟨bytes, hy⟩ := haccepted.mp ⟨immediate, hx⟩
      rw [hy]
      exact iff_of_false (by rintro ⟨_, ⟨⟩⟩) (by rintro ⟨_, ⟨⟩⟩)
  | error e =>
      cases hy : numericElement 4 wordMax token with
      | ok bytes =>
          obtain ⟨immediate, hx'⟩ := haccepted.mpr ⟨bytes, hy⟩
          rw [hx'] at hx
          cases hx
      | error e' => exact iff_of_true ⟨e, rfl⟩ ⟨e', rfl⟩

end Token

/-! ## Signed characters -/

/-- **A plain `char` is extended with its sign.** -/
theorem toNat_charToWord (character : Byte) : (charToWord character).toNat
    = if character < 0x80 then character.toNat else 0xFFFFFF00 + character.toNat := by
  have hall : ∀ n < 256, (charToWord (UInt8.ofNat n)).toNat
      = if UInt8.ofNat n < 0x80 then (UInt8.ofNat n).toNat
        else 0xFFFFFF00 + (UInt8.ofNat n).toNat := by decide +kernel
  have hcharacter := hall character.toNat character.toNat_lt
  rwa [UInt8.ofNat_toNat] at hcharacter

/-- A character literal of one character from `0x80` on. -/
def NonAsciiChar (token : Token) : Prop :=
  token.type = .charLiteral ∧ ∃ character, 0x80 ≤ character ∧ token.value.bytes = [character]

/-- A character literal is its character, or an escape of an ASCII character. -/
theorem tokenGetCharValue_eq_ok {token : Token} {character : Byte}
    (h : tokenGetCharValue token = .ok character) :
    token.value.bytes = [character] ∨ token.value.bytes.length = 2 ∧ character < 0x80 := by
  have hescapes : ∀ letter, ∀ c ∈ charEscapes.lookup letter, c < 0x80 := by
    intro letter c hc
    have hall : ∀ escape ∈ charEscapes, escape.2 < 0x80 := by
      simp [charEscapes]
    obtain ⟨before, after, hsplit, -⟩ := List.lookup_eq_some_iff.mp hc
    exact hall (letter, c) (hsplit ▸ List.mem_append_right _ List.mem_cons_self)
  unfold tokenGetCharValue at h
  dsimp only at h
  split at h
  · simp only [bind_eq_ok, require_eq_ok] at h
    obtain ⟨-, hlength, h⟩ := h
    obtain rfl := Except.ok.inj h
    obtain ⟨c, hc⟩ := List.length_eq_one_iff.mp hlength
    rw [hc]
    exact .inl rfl
  · simp only [bind_eq_ok, require_eq_ok] at h
    obtain ⟨-, hlength, h⟩ := h
    refine .inr ⟨hlength, ?_⟩
    split at h
    · rename_i c hc
      obtain rfl := Except.ok.inj h
      exact hescapes _ _ hc
    · cases h

/-- **The immediate is the value** unless the character is no ASCII character. -/
theorem toNat_immediateOf_iff {token : Token} {value : ℕ} (h : WordValue token value) :
    (immediateOf token value).toNat = value ↔ ¬NonAsciiChar token := by
  have hlt := h.lt
  cases h with
  | int type literal fits =>
      rw [immediateOf, if_neg type, UInt32.toNat_ofNat', Nat.mod_eq_of_lt (by omega)]
      exact iff_of_true rfl fun hchar => type hchar.1
  | char type literal =>
      rename_i character
      rw [immediateOf, if_pos type, UInt8.ofNat_toNat, toNat_charToWord]
      by_cases hascii : character < 0x80
      · rw [if_pos hascii]
        refine iff_of_true rfl ?_
        rintro ⟨-, c, hc, hbytes⟩
        rcases tokenGetCharValue_eq_ok literal with hcharacter | ⟨hlength, -⟩
        · obtain rfl := List.singleton_inj.mp (hbytes.symm.trans hcharacter)
          exact absurd hascii (UInt8.not_lt.mpr hc)
        · rw [hbytes] at hlength
          cases hlength
      · rw [if_neg hascii]
        refine iff_of_false (by omega) (not_not_intro ?_)
        rcases tokenGetCharValue_eq_ok literal with hcharacter | ⟨-, hsmall⟩
        · exact ⟨type, character, UInt8.not_lt.mp hascii, hcharacter⟩
        · exact absurd hsmall hascii

/-! ## Elements of a directive -/

section Elements

variable {directive : Directive} {size maximum : ℕ} {data : Bytes} {token : Token}

theorem numericElement_length {bytes : Bytes} (h : numericElement size maximum token = .ok bytes) :
    bytes.length = size := by
  unfold numericElement at h
  simp only [LittleEndian.map_shift] at h
  split at h <;>
  · simp only [bind_eq_ok] at h
    obtain ⟨value, -, -, -, h⟩ := h
    obtain rfl := Except.ok.inj h
    exact LittleEndian.length_bytes size value

/-- **The elements of a directive** lie one behind the other. -/
theorem slice_encodeNumericData (h : encodeNumericData directive size maximum = .ok data) {i : ℕ}
    (htoken : directive.argv[i]? = some token) :
    numericElement size maximum token = .ok (slice data (i * size) size) := by
  simp only [encodeNumericData, bind_eq_ok] at h
  obtain ⟨-, -, elements, helements, h⟩ := h
  obtain rfl := Except.ok.inj h
  have hlength : ∀ element ∈ elements, element.length = size := by
    intro element helement
    obtain ⟨k, hk, rfl⟩ := List.getElem_of_mem helement
    have hall := mapM_eq_ok_iff.mp helements
    exact numericElement_length (hall.get (hall.length_eq ▸ hk) hk)
  obtain ⟨hi, rfl⟩ := List.getElem?_eq_some_iff.mp htoken
  have hall := mapM_eq_ok_iff.mp helements
  have hi' : i < elements.length := hall.length_eq ▸ hi
  rw [slice_flatten_of_length hlength (List.getElem?_eq_getElem hi')]
  exact hall.get hi hi'

end Elements

/-! ## When they agree -/

/-- An instruction with the literal as its immediate and `.word` agree: where both accept it, the
last four bytes of the instruction are those of the element, in both modes, and one rejects it
exactly if the other does. -/
structure ImmediateAgrees (token : Token) : Prop where
  raw : ∀ labels statement bytes, statement.imm = some token →
    encodeRawStatement labels statement = .ok bytes →
    ∀ directive data i, directive.type = .dirWord → directive.argv[i]? = some token →
      directiveGetRawData directive = .ok data → slice bytes 4 4 = slice data (i * 4) 4
  object : ∀ context symbols line statement bytes symbol, line.body = .stmt statement →
    statement.imm = some token → lineBytes context symbols line = .ok (bytes, symbol) →
    ∀ directive data i, directive.type = .dirWord → directive.argv[i]? = some token →
      directiveGetRawData directive = .ok data → slice bytes 4 4 = slice data (i * 4) 4
  rawRejected : ∀ labels name, (∃ e, rawImmediate labels token = .error e) ↔
    ∃ e, directiveGetRawData ⟨.dirWord, name, [token]⟩ = .error e
  objectRejected : ∀ context symbols index name,
    (∃ e, objectImmediate context symbols index token = .error e) ↔
      ∃ e, directiveGetRawData ⟨.dirWord, name, [token]⟩ = .error e

section Agreement

variable {token : Token}

/-- A literal is no reference to a label. -/
theorem type_ne_labelUse (h : isDataValueToken token false = true) : token.type ≠ .labelUse := by
  intro htype
  rw [isDataValueToken, isIntegerToken, htype] at h
  cases h

/-- The element of a directive has the value of the literal. -/
theorem exists_wordValue {directive : Directive} {data : Bytes} {i : ℕ}
    (htype : directive.type = .dirWord) (htoken : directive.argv[i]? = some token)
    (h : directiveGetRawData directive = .ok data) :
    ∃ value, WordValue token value ∧ slice data (i * 4) 4 = LittleEndian.bytes 4 value := by
  rw [directiveGetRawData, htype] at h
  exact numericElement_word_iff.mp (slice_encodeNumericData h htoken)

/-- The immediate and the element. -/
theorem bytes_immediateOf {value value' : ℕ} (h : WordValue token value)
    (h' : WordValue token value') (hascii : ¬NonAsciiChar token) :
    LittleEndian.bytes 4 (immediateOf token value').toNat = LittleEndian.bytes 4 value := by
  rw [(toNat_immediateOf_iff h').mpr hascii, h.unique h']

/-- One token in a directive. -/
theorem directiveGetRawData_word (name token : Token) :
    directiveGetRawData ⟨.dirWord, name, [token]⟩ = numericElement 4 wordMax token := by
  show encodeNumericData ⟨.dirWord, name, [token]⟩ 4 wordMax = _
  have hcount : [token].length ≤ sizeMax / 4 := (by decide : 1 ≤ sizeMax / 4)
  rw [encodeNumericData, require_of hcount, ok_bind, List.mapM_cons, List.mapM_nil]
  cases numericElement 4 wordMax token with
  | error e => rfl
  | ok bytes => exact congrArg Except.ok (List.append_nil bytes)

/-- The last four bytes of an instruction. -/
theorem slice_immediate {head : Bytes} (h : head.length = 4) (immediate : Word) :
    slice (head ++ LittleEndian.bytes 4 immediate.toNat) 4 4
      = LittleEndian.bytes 4 immediate.toNat := by
  have hslice := @slice_mid _ head (LittleEndian.bytes 4 immediate.toNat) [] 4 4 h.symm
    (LittleEndian.length_bytes 4 _).symm
  rwa [List.append_nil] at hslice

/-- `PUSHI` with an immediate. -/
def pushiStatement (token : Token) : Statement where
  opcode := ⟨.id, CString.lit "pushi", 0, 1, 1, 5⟩
  cond := none
  reg1 := none
  reg2 := none
  imm := some token

theorem encodeRawStatement_pushi {labels : List LabelInfo} {immediate : Word}
    (h : rawImmediate labels token = .ok immediate) :
    encodeRawStatement labels (pushiStatement token)
      = .ok ([4, 0, 0, 0] ++ LittleEndian.bytes 4 immediate.toNat) := by
  have hopcode : stringToOpcode (lineToUpper (CString.lit "pushi")) = some .pushi := by decide
  have hvalid : validateOperands (some .pushi) (pushiStatement token) = .ok .pushi := rfl
  rw [encodeRawStatement]
  show (validateOperands (stringToOpcode (lineToUpper (CString.lit "pushi"))) _ >>= _) = _
  rw [hopcode, hvalid, ok_bind]
  show ((rawImmediate labels token) >>= _) = _
  rw [h, ok_bind, instructionEncode, if_neg (by simp only; decide),
    LittleEndian.map_shift_word _ (by omega)]
  rfl

/-- **Immediates and `.word`.**  They agree on a literal exactly if it is no character from `0x80`
on. -/
theorem immediateAgrees_iff (h : isDataValueToken token false = true) :
    ImmediateAgrees token ↔ ¬NonAsciiChar token := by
  have hreference := type_ne_labelUse h
  constructor
  · intro hagrees hchar
    obtain ⟨htype, character, hlarge, hbytes⟩ := hchar
    have hvalue : tokenGetCharValue token = .ok character := by
      have hescape : character ≠ 0x5C := by
        rintro rfl
        exact absurd hlarge (by decide)
      simp [tokenGetCharValue, hbytes, hescape, require]
    have hword : WordValue token character.toNat := .char htype hvalue
    have hraw : rawImmediate [] token = .ok (immediateOf token character.toNat) := by
      rw [rawImmediate, if_neg hreference]
      exact literalImmediate_iff.mpr ⟨_, hword, rfl⟩
    have hencoded := encodeRawStatement_pushi hraw
    have hdata := (directiveGetRawData_word token token).trans
      (numericElement_word_iff.mpr ⟨_, hword, rfl⟩)
    have hequal := hagrees.raw [] (pushiStatement token) _ rfl hencoded _ _ 0 rfl rfl hdata
    have hall := slice_all (LittleEndian.bytes 4 character.toNat)
    rw [LittleEndian.length_bytes] at hall
    rw [slice_immediate (by rfl), Nat.zero_mul, hall] at hequal
    have hsame := congrArg LittleEndian.value hequal
    rw [LittleEndian.value_bytes_of_lt (immediateOf token _).toNat_lt,
      LittleEndian.value_bytes_of_lt hword.lt] at hsame
    exact (toNat_immediateOf_iff hword).mp hsame ⟨htype, character, hlarge, hbytes⟩
  · intro hascii
    refine ⟨?_, ?_, fun labels name => ?_, fun context symbols index name => ?_⟩
    · intro labels statement bytes himm hbytes directive data i htype htoken hdata
      obtain ⟨value, hvalue, hslice⟩ := exists_wordValue htype htoken hdata
      obtain ⟨_, _, _, _, immediate, -, -, -, -, himmediate, hencode⟩ :=
        encodeRawStatement_eq_ok hbytes
      rw [himm, parseOptional, rawImmediate, if_neg hreference] at himmediate
      obtain ⟨value', hvalue', rfl⟩ := literalImmediate_iff.mp himmediate
      obtain ⟨head, hlength, rfl⟩ := instructionEncode_eq_some hencode
      rw [hslice, slice_immediate hlength, bytes_immediateOf hvalue hvalue' hascii]
    · intro context symbols line statement bytes symbol hbody himm hbytes directive data i htype
        htoken hdata
      obtain ⟨value, hvalue, hslice⟩ := exists_wordValue htype htoken hdata
      rw [lineBytes, hbody] at hbytes
      simp only [bind_eq_ok] at hbytes
      obtain ⟨encoded, hencoded, answer, hanswer, hbytes⟩ := hbytes
      obtain ⟨rfl, -⟩ := Prod.mk.inj (Except.ok.inj hbytes)
      obtain ⟨w, head, hw, hlength, rfl⟩ := encodeStatement_eq_ok hencoded
      rw [hanswer] at hw
      obtain rfl := Except.ok.inj hw
      rw [himm, parseOptional, objectImmediate, if_neg hreference] at hanswer
      obtain ⟨immediate, himmediate, rfl⟩ := map_eq_ok.mp hanswer
      obtain ⟨value', hvalue', rfl⟩ := literalImmediate_iff.mp himmediate
      rw [hslice, slice_immediate hlength, bytes_immediateOf hvalue hvalue' hascii]
    · rw [directiveGetRawData_word, ← literalImmediate_error_iff, rawImmediate, if_neg hreference]
    · rw [directiveGetRawData_word, ← literalImmediate_error_iff, objectImmediate,
        if_neg hreference]
      cases literalImmediate token with
      | ok immediate => exact iff_of_false (by rintro ⟨_, ⟨⟩⟩) (by rintro ⟨_, ⟨⟩⟩)
      | error e => exact iff_of_true ⟨e, rfl⟩ ⟨e, rfl⟩

end Agreement

/-- A character literal of one letter. -/
def letterToken (letter : String) : Token where
  type := .charLiteral
  value := CString.lit letter
  pos := 6
  line := 1
  col := 7
  sourceSize := 3

theorem immediateAgrees_iff_letter :
    ImmediateAgrees (letterToken "z") ↔ ¬NonAsciiChar (letterToken "z") :=
  immediateAgrees_iff (by decide)

/-- **A character from `0x80` on**: the instruction has four bytes with the sign, `.word` three of
zero. -/
theorem letterToken_not_immediateAgrees :
    isDataValueToken (letterToken "é") false = true ∧
    zlasmAssemble (CString.lit "pushi 'é'\n.word 'é'\n") none
      = .ok [4, 0, 0, 0, 0xE9, 0xFF, 0xFF, 0xFF, 0xE9, 0, 0, 0] ∧
    ¬ImmediateAgrees (letterToken "é") := by
  refine ⟨by decide, by decide +kernel, fun hagrees => ?_⟩
  have hencoded : encodeRawStatement [] (pushiStatement (letterToken "é"))
      = .ok [4, 0, 0, 0, 0xE9, 0xFF, 0xFF, 0xFF] := by decide +kernel
  have hdata : directiveGetRawData ⟨.dirWord, letterToken "é", [letterToken "é"]⟩
      = .ok [0xE9, 0, 0, 0] := by decide +kernel
  have hequal :=
    hagrees.raw [] (pushiStatement (letterToken "é")) _ rfl hencoded _ _ 0 rfl rfl hdata
  exact absurd hequal (by decide)

end Zlvm
