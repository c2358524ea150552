import Zlvm.Asm.Token

/-!
# The lexer

`Lexer.c`.  The state keeps the text from the current position on, which is what the pointer
`source + pos` of the source denotes; `source_pos`, `source_line` and `source_col` are where the
text itself lies.

* `scan` — the loops that skip characters; each stops at the terminating NUL.
* `readQuoted`, `readWord`, `readNumber` — the three kinds of token with a loop of their own.
* `lexerReadToken` — one token; `lexerTokens` — all of them.
* `lexerReadToken_eq` — one token, behind what is skipped.
* `lexerTokens_eq` — the fuel of `lexerTokens` is enough.
-/

namespace Zlvm

open Loop

/-! ## Characters -/

def newline : Byte := 0x0A
def comma : Byte := 0x2C
def commentMark : Byte := 0x3B
def labelInitMark : Byte := 0x3A
def labelUseMark : Byte := 0x23
def registerMark : Byte := 0x24
def directiveMark : Byte := 0x2E
def stringQuote : Byte := 0x22
def charQuote : Byte := 0x27
def digitDelimiter : Byte := 0x5F

/-- `is_eof`. -/
def isEof (character : Byte) : Bool := character == 0

/-- `isspace` of the C locale. -/
def isSpace (character : Byte) : Bool :=
  character == 0x20 || (0x09 ≤ character && character ≤ 0x0D)

/-- `is_ignored_char`. -/
def isIgnoredChar (character : Byte) : Bool :=
  (isSpace character && character != newline) || isEof character

/-- `is_dec_char`. -/
def isDecChar (character : Byte) : Bool :=
  (0x30 ≤ character && character ≤ 0x39) || character == digitDelimiter

/-- `is_token_end`. -/
def isTokenEnd (character : Byte) : Bool :=
  isIgnoredChar character || character == newline || character == comma ||
    character == commentMark

/-- Where a name ends: a comment mark does not end it. -/
def isWordEnd (character : Byte) : Bool :=
  isIgnoredChar character || character == newline || character == comma

/-- `is_digit_for_base`. -/
def isDigitForBase (character : Byte) (base : ℕ) : Bool :=
  if 0x30 ≤ character && character ≤ 0x39 then character.toNat - 0x30 < base
  else base == 16 && ((0x61 ≤ character && character ≤ 0x66) ||
    (0x41 ≤ character && character ≤ 0x46))

/-! ## The state -/

structure LexerState where
  rest : CString
  pos : ℕ
  line : ℕ
  col : ℕ
  sourcePos : ℕ
  sourceLine : ℕ
  sourceCol : ℕ
deriving DecidableEq

/-- `lexer_init`. -/
def lexerInit (source : CString) : LexerState :=
  { rest := source, pos := 0, line := 1, col := 1, sourcePos := 0, sourceLine := 1,
    sourceCol := 1 }

/-- `lexer_peekChar`. -/
def lexerPeekChar (state : LexerState) : Byte := state.rest.bytes.headD 0

/-- `lexer_nextChar`. -/
def lexerNextChar (state : LexerState) : LexerState :=
  match state.rest.bytes with
  | [] => state
  | value :: _ =>
      { state with
        rest := state.rest.drop 1
        pos := state.pos + 1
        line := if value == newline then state.line + 1 else state.line
        col := if value == newline then 1 else state.col + 1 }

/-- `lexer_nextChar` several times. -/
def lexerAdvance : ℕ → LexerState → LexerState
  | 0, state => state
  | n + 1, state => lexerAdvance n (lexerNextChar state)

/-- Skip characters while they satisfy `p`, at most to the end. -/
def scan (p : Byte → Bool) (state : LexerState) : LexerState :=
  lexerAdvance (state.rest.bytes.takeWhile p).length state

/-- The text between two positions. -/
def between (first last : LexerState) : CString := first.rest.take (last.pos - first.pos)

/-- A token that begins at `start` and ends at the current position. -/
def tokenAt (start state : LexerState) (type : TokenType) (value : CString) : Token where
  type := type
  value := value
  pos := state.sourcePos + start.pos
  line := state.sourceLine + start.line - 1
  col := if start.line = 1 then state.sourceCol + start.col - 1 else start.col
  sourceSize := state.pos - start.pos

/-! ## Tokens with a loop of their own -/

/-- A token after a mark: everything up to the end `p`. -/
def readMarked (start : LexerState) (type : TokenType) (p : Byte → Bool) : Token × LexerState :=
  let first := lexerNextChar start
  let state := scan (fun character => !p character) first
  (tokenAt start state type (between first state), state)

/-- A literal between quotes. -/
def readQuoted (start : LexerState) (type : TokenType) (quote : Byte) (message : String) :
    Except AsmFailure (Token × LexerState) :=
  let first := lexerNextChar start
  let last := scan (· != quote) first
  if last.rest = CString.empty then
    .error (asmTokenFail .unterminatedLiteral message (tokenAt start last type CString.empty))
  else
    let state := lexerNextChar last
    .ok (tokenAt start state type (between first last), state)

/-- `validate_numeric_token` at one index. -/
def validDigit (digits : Bytes) (base index : ℕ) : Bool :=
  let digit (index : ℕ) := isDigitForBase (digits.getD index 0) base
  if digits.getD index 0 == digitDelimiter then
    index != 0 && index + 1 != digits.length && digit (index - 1) && digit (index + 1)
  else digit index

/-- `validate_numeric_token`. -/
def validateNumericToken (token : Token) (base : ℕ) : Except AsmFailure Unit := do
  let digits := token.value.bytes
  require (digits ≠ []) (asmTokenFail .malformedNumber "Malformed numeric literal" token)
  require ((List.range digits.length).all (validDigit digits base))
    (asmTokenFail .malformedNumber "Malformed numeric literal" token)

/-- `remove_digit_delimiters`. -/
def removeDigitDelimiters (value : CString) : CString :=
  ⟨value.bytes.filter (· != digitDelimiter), fun h => value.nulFree (List.mem_of_mem_filter h)⟩

/-- The type and the base of a number, and whether it begins with two characters that say so. -/
def numberType (start : LexerState) : TokenType × ℕ × Bool :=
  let mark := if lexerPeekChar start == 0x30 then start.rest.bytes.getD 1 0 else 0
  if mark == 0x78 || mark == 0x58 then (.intHex, 16, true)
  else if mark == 0x6F || mark == 0x4F then (.intOct, 8, true)
  else if mark == 0x62 || mark == 0x42 then (.intBin, 2, true)
  else (.intDec, 10, false)

/-- A number. -/
def readNumber (start : LexerState) : Except AsmFailure (Token × LexerState) := do
  let (type, base, marked) := numberType start
  let first := if marked then lexerAdvance 2 start else start
  let state := scan (fun character => !isTokenEnd character) first
  let token := tokenAt start state type (between first state)
  validateNumericToken token base
  let token := { token with value := removeDigitDelimiters token.value }
  let _ ← tokenGetIntValue token
  return (token, state)

/-- The length of a name, in which a quote takes everything up to the next same quote; there is
none if a quote is not closed.  The first argument is the quote that is open. -/
def wordLength : Option Byte → Bytes → Option ℕ
  | none, [] => some 0
  | some _, [] => none
  | none, character :: rest =>
      if isWordEnd character then some 0
      else
        let quote := if character == stringQuote || character == charQuote then some character
          else none
        (wordLength quote rest).map (· + 1)
  | some quote, character :: rest =>
      (wordLength (if character == quote then none else some quote) rest).map (· + 1)

/-- A name, or a label definition if it ends with a colon. -/
def readWord (start : LexerState) : Except AsmFailure (Token × LexerState) :=
  match wordLength none start.rest.bytes with
  | none =>
      let state := lexerAdvance start.rest.length start
      .error (asmTokenFail .unterminatedLiteral "Unterminated literal"
        (tokenAt start state .comment CString.empty))
  | some length =>
      let state := lexerAdvance length start
      if start.rest.bytes.getD (length - 1) 0 == labelInitMark then
        .ok (tokenAt start state .labelInit (start.rest.take (length - 1)), state)
      else .ok (tokenAt start state .id (start.rest.take length), state)

/-! ## All tokens -/

/-- `lexer_readToken`; no token is the end of the text. -/
def lexerReadToken (state : LexerState) : Except AsmFailure (Option (Token × LexerState)) :=
  let start := scan isIgnoredChar state
  let character := lexerPeekChar start
  if isEof character then .ok none
  else if character == newline then
    let state := lexerNextChar start
    .ok (some (tokenAt start state .newline (between start state), state))
  else if character == comma then
    let state := lexerNextChar start
    .ok (some (tokenAt start state .comma (between start state), state))
  else if character == commentMark then .ok (some (readMarked start .comment (· == newline)))
  else if character == labelUseMark then .ok (some (readMarked start .labelUse isWordEnd))
  else if character == registerMark then .ok (some (readMarked start .register isWordEnd))
  else if character == directiveMark then .ok (some (readMarked start .directive isWordEnd))
  else if character == stringQuote then
    (readQuoted start .stringLiteral stringQuote "Unterminated string literal").map some
  else if character == charQuote then
    (readQuoted start .charLiteral charQuote "Unterminated character literal").map some
  else if isDecChar character then (readNumber start).map some
  else (readWord start).map some

/-- All tokens of a text with fewer than `fuel` characters. -/
def lexerTokens : ℕ → LexerState → Except AsmFailure (List Token)
  | 0, _ => .ok []
  | fuel + 1, state => do
      match ← lexerReadToken state with
      | none => return []
      | some (token, state) => return token :: (← lexerTokens fuel state)

/-- The loop of `assemble_source` that reads every token. -/
def lexSource (source : CString) : Except AsmFailure (List Token) :=
  lexerTokens (source.length + 1) (lexerInit source)

/-! ## Progress

Every token takes at least one character, so the fuel of `lexSource` does not run out. -/

@[simp] theorem lexerNextChar_rest (state : LexerState) :
    (lexerNextChar state).rest.bytes = state.rest.bytes.drop 1 := by
  unfold lexerNextChar
  split
  · rename_i h
    simp [h]
  · rfl

@[simp] theorem lexerAdvance_rest : ∀ (n : ℕ) (state : LexerState),
    (lexerAdvance n state).rest.bytes = state.rest.bytes.drop n
  | 0, _ => rfl
  | n + 1, state => by
      rw [lexerAdvance, lexerAdvance_rest n, lexerNextChar_rest, List.drop_drop, Nat.add_comm]

@[simp] theorem scan_rest (p : Byte → Bool) (state : LexerState) :
    (scan p state).rest.bytes = state.rest.bytes.dropWhile p := by
  have hsplit := List.takeWhile_append_dropWhile (l := state.rest.bytes) (p := p)
  have hdrop := congrArg (List.drop (state.rest.bytes.takeWhile p).length) hsplit
  rw [List.drop_left] at hdrop
  rw [scan, lexerAdvance_rest, hdrop]

theorem isTokenEnd_of_isDecChar {character : Byte} (h : isDecChar character = true) :
    isTokenEnd character = false := by
  simp only [isDecChar, digitDelimiter, Bool.or_eq_true, Bool.and_eq_true, decide_eq_true_eq,
    beq_iff_eq, UInt8.le_iff_toNat_le, UInt8.reduceToNat] at h
  have hne : ∀ c : Byte, character.toNat ≠ c.toNat → (character == c) = false := fun c hc =>
    beq_eq_false_iff_ne.mpr fun heq => hc (congrArg UInt8.toNat heq)
  have hrange : 0x30 ≤ character.toNat ∧ character.toNat ≠ 0x3B := by
    rcases h with h | h
    · omega
    · rw [h]
      decide
  have hspace : ¬character ≤ 0x0D := fun hle => by
    have hle' : character.toNat ≤ 0x0D := UInt8.le_iff_toNat_le.mp hle
    omega
  simp only [isTokenEnd, isIgnoredChar, isSpace, isEof, hne 0x20 (by simp; omega),
    hne 0 (by simp; omega), hne newline (by simp [newline]; omega),
    hne comma (by simp [comma]; omega), hne commentMark (by simp [commentMark]; omega), hspace,
    decide_false, Bool.and_false, Bool.or_false, Bool.false_and]

theorem wordLength_pos {text : Bytes} {length : ℕ} (h : wordLength none text = some length)
    (hne : text ≠ []) (hhead : isWordEnd (text.headD 0) = false) : 1 ≤ length := by
  cases text with
  | nil => exact absurd rfl hne
  | cons character rest =>
      rw [wordLength, if_neg (by simpa using hhead)] at h
      obtain ⟨n, -, rfl⟩ := Option.map_eq_some_iff.mp h
      omega

/-- What a scan has passed satisfies the predicate; the next character does not. -/
theorem scan_head {p : Byte → Bool} {state : LexerState} (h : (scan p state).rest.bytes ≠ []) :
    p (lexerPeekChar (scan p state)) = false := by
  rw [lexerPeekChar, scan_rest] at *
  have hhead := List.head?_dropWhile_not p state.rest.bytes
  cases hrest : state.rest.bytes.dropWhile p with
  | nil => exact absurd hrest h
  | cons character rest =>
      rw [hrest] at hhead
      simpa using hhead

section Readers

variable {start state : LexerState} {token : Token}

theorem scan_length_le (p : Byte → Bool) (state : LexerState) :
    (scan p state).rest.bytes.length ≤ state.rest.bytes.length := by
  rw [scan_rest]
  exact (List.dropWhile_sublist p).length_le

theorem lexerAdvance_lt {n : ℕ} (hne : start.rest.bytes ≠ []) (hn : 1 ≤ n) :
    (lexerAdvance n start).rest.bytes.length < start.rest.bytes.length := by
  have hpos := List.length_pos_iff.mpr hne
  rw [lexerAdvance_rest, List.length_drop]
  omega

theorem readMarked_lt (hne : start.rest.bytes ≠ []) {type : TokenType} {p : Byte → Bool}
    (h : readMarked start type p = (token, state)) :
    state.rest.bytes.length < start.rest.bytes.length := by
  rw [← (Prod.mk.inj h).2]
  exact Nat.lt_of_le_of_lt (scan_length_le _ _) (lexerAdvance_lt hne (Nat.le_refl 1))

theorem readQuoted_lt (hne : start.rest.bytes ≠ []) {type : TokenType} {quote : Byte}
    {message : String} (h : readQuoted start type quote message = .ok (token, state)) :
    state.rest.bytes.length < start.rest.bytes.length := by
  simp only [readQuoted] at h
  split at h
  · cases h
  · cases h
    refine Nat.lt_of_le_of_lt ?_ (lexerAdvance_lt hne (Nat.le_refl 1))
    rw [lexerNextChar_rest, List.length_drop]
    exact Nat.le_trans (Nat.sub_le _ _) (scan_length_le _ _)

theorem readNumber_lt (hne : start.rest.bytes ≠ [])
    (hdec : isDecChar (lexerPeekChar start) = true)
    (h : readNumber start = .ok (token, state)) :
    state.rest.bytes.length < start.rest.bytes.length := by
  simp only [readNumber, bind_eq_ok] at h
  obtain ⟨-, -, -, -, h⟩ := h
  cases h
  split
  · exact Nat.lt_of_le_of_lt (scan_length_le _ _) (lexerAdvance_lt hne (by omega))
  · -- without a prefix the first character is part of the number
    rw [scan_rest]
    cases hrest : start.rest.bytes with
    | nil => exact absurd hrest hne
    | cons character rest =>
        have hend : isTokenEnd character = false := by
          rw [lexerPeekChar, hrest] at hdec
          exact isTokenEnd_of_isDecChar hdec
        rw [List.dropWhile_cons_of_pos (by simp [hend]), List.length_cons]
        exact Nat.lt_succ_of_le (List.dropWhile_sublist _).length_le

theorem readWord_lt (hne : start.rest.bytes ≠ [])
    (hhead : isWordEnd (lexerPeekChar start) = false)
    (h : readWord start = .ok (token, state)) :
    state.rest.bytes.length < start.rest.bytes.length := by
  simp only [readWord] at h
  split at h
  · cases h
  · rename_i length hlength
    have hstate : lexerAdvance length start = state := by
      split at h <;> cases h <;> rfl
    rw [← hstate]
    exact lexerAdvance_lt hne (wordLength_pos hlength hne hhead)

end Readers

/-! ## One token -/

/-- What the lexer reads at a character that is neither skipped nor the end of the text. -/
def readFrom (start : LexerState) : Except AsmFailure (Token × LexerState) :=
  let character := lexerPeekChar start
  let next := lexerNextChar start
  if character == newline then .ok (tokenAt start next .newline (between start next), next)
  else if character == comma then .ok (tokenAt start next .comma (between start next), next)
  else if character == commentMark then .ok (readMarked start .comment (· == newline))
  else if character == labelUseMark then .ok (readMarked start .labelUse isWordEnd)
  else if character == registerMark then .ok (readMarked start .register isWordEnd)
  else if character == directiveMark then .ok (readMarked start .directive isWordEnd)
  else if character == stringQuote then
    readQuoted start .stringLiteral stringQuote "Unterminated string literal"
  else if character == charQuote then
    readQuoted start .charLiteral charQuote "Unterminated character literal"
  else if isDecChar character then readNumber start
  else readWord start

theorem lexerReadToken_eq (state : LexerState) : lexerReadToken state
    = if isEof (lexerPeekChar (scan isIgnoredChar state)) then .ok none
      else (readFrom (scan isIgnoredChar state)).map some := by
  unfold lexerReadToken readFrom
  generalize scan isIgnoredChar state = start
  dsimp only
  simp only [apply_ite (Except.map some)]
  rfl

theorem isEof_peek_iff (state : LexerState) :
    isEof (lexerPeekChar (scan isIgnoredChar state)) = true ↔
      (scan isIgnoredChar state).rest.bytes = [] := by
  constructor
  · intro heof
    by_contra hne
    have hhead := scan_head hne
    rw [isIgnoredChar, heof, Bool.or_true] at hhead
    cases hhead
  · intro hnil
    rw [lexerPeekChar, hnil]
    rfl

theorem readFrom_lt {start : LexerState} (hne : start.rest.bytes ≠ [])
    (hskipped : isIgnoredChar (lexerPeekChar start) = false) {token : Token} {state : LexerState}
    (h : readFrom start = .ok (token, state)) :
    state.rest.bytes.length < start.rest.bytes.length := by
  unfold readFrom at h
  dsimp only at h
  split at h
  · cases h
    exact lexerAdvance_lt hne (Nat.le_refl 1)
  rename_i hnewline
  split at h
  · cases h
    exact lexerAdvance_lt hne (Nat.le_refl 1)
  rename_i hcomma
  split at h
  · exact readMarked_lt hne (Except.ok.inj h)
  split at h
  · exact readMarked_lt hne (Except.ok.inj h)
  split at h
  · exact readMarked_lt hne (Except.ok.inj h)
  split at h
  · exact readMarked_lt hne (Except.ok.inj h)
  split at h
  · exact readQuoted_lt hne h
  split at h
  · exact readQuoted_lt hne h
  split at h
  · rename_i hdec
    exact readNumber_lt hne hdec h
  · refine readWord_lt hne ?_ h
    simp only [isWordEnd, hskipped, Bool.false_or, Bool.or_eq_false_iff]
    exact ⟨by simpa using hnewline, by simpa using hcomma⟩

/-- **A token takes at least one character.** -/
theorem lexerReadToken_lt {state state' : LexerState} {token : Token}
    (h : lexerReadToken state = .ok (some (token, state'))) :
    state'.rest.bytes.length < state.rest.bytes.length := by
  refine Nat.lt_of_lt_of_le ?_ (scan_length_le isIgnoredChar state)
  rw [lexerReadToken_eq] at h
  split at h
  · cases h
  · rename_i heof
    obtain ⟨read, hread, hsome⟩ := map_eq_ok.mp h
    obtain rfl := Option.some.inj hsome
    have hne := fun hnil => heof ((isEof_peek_iff state).mpr hnil)
    exact readFrom_lt hne (scan_head hne) hread

/-- More fuel than there are characters changes nothing. -/
theorem lexerTokens_eq : ∀ (fuel fuel' : ℕ) (state : LexerState),
    state.rest.bytes.length < fuel → state.rest.bytes.length < fuel' →
      lexerTokens fuel state = lexerTokens fuel' state
  | 0, _, _, h, _ => absurd h (Nat.not_lt_zero _)
  | _ + 1, 0, _, _, h => absurd h (Nat.not_lt_zero _)
  | fuel + 1, fuel' + 1, state, h, h' => by
      rw [lexerTokens, lexerTokens]
      cases hread : lexerReadToken state with
      | error e => rfl
      | ok answer =>
          cases answer with
          | none => rfl
          | some next =>
              obtain ⟨token, state'⟩ := next
              have hlt := lexerReadToken_lt hread
              simp only [ok_bind, lexerTokens_eq fuel fuel' state' (by omega) (by omega)]

end Zlvm
