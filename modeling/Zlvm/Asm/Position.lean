import Zlvm.Asm.Lexer
import Zlvm.Lib.Failure

/-!
# Positions of tokens

Where the tokens of a text lie, and where a failure of the lexer points.

* `lineAt`, `columnAt`, `PointsInto` — the line and the column of an offset, and a location that is
  right about them.
* `LexerState.At` — a lexer that reads a text from its beginning.
* **`lexSource_pointsInto`** — every token of a source, and every failure of its lexer, is where it
  says.
-/

namespace Zlvm

open Loop

/-! ## Lines and columns -/

/-- The number of bytes behind the last line break of a text. -/
def lastLineLength (text : Bytes) : ℕ := (text.reverse.takeWhile (· != newline)).length

/-- The 1-based line of an offset. -/
def lineAt (text : Bytes) (offset : ℕ) : ℕ := (text.take offset).count newline + 1

/-- The 1-based column of an offset. -/
def columnAt (text : Bytes) (offset : ℕ) : ℕ := lastLineLength (text.take offset) + 1

/-- A range of a text, with the line and the column at which it begins. -/
structure PointsInto (text : Bytes) (place : SourceLocation) : Prop where
  bounded : place.byteOffset + place.byteLength ≤ text.length
  line : place.line = lineAt text place.byteOffset
  column : place.column = columnAt text place.byteOffset

/-- Where a token lies. -/
def Token.location (token : Token) : SourceLocation where
  line := token.line
  column := token.col
  byteOffset := token.pos
  byteLength := token.sourceSize

/-- A failure whose location, if it has one, satisfies `P`. -/
def AsmFailure.Within (P : SourceLocation → Prop) (failure : AsmFailure) : Prop :=
  ∀ place, failure.location = some place → P place

section Within

variable {P : SourceLocation → Prop} {code : ZlasmDiagnosticCode} {message : String}

@[simp] theorem within_asmFail : (asmFail code message).Within P := fun _ h => nomatch h

@[simp] theorem within_asmTokenFail {token : Token} :
    (asmTokenFail code message token).Within P ↔ P token.location :=
  ⟨fun h => h _ rfl, fun h _ hplace => Option.some.inj hplace ▸ h⟩

end Within

theorem lastLineLength_concat (text : Bytes) (character : Byte) :
    lastLineLength (text ++ [character])
      = if character = newline then 0 else lastLineLength text + 1 := by
  rw [lastLineLength, List.reverse_concat]
  split
  · rename_i h
    rw [List.takeWhile_cons_of_neg (by simp [h]), List.length_nil]
  · rename_i h
    rw [List.takeWhile_cons_of_pos (by simpa using h), List.length_cons, lastLineLength]

section Step

variable {text : Bytes} {offset : ℕ} (h : offset < text.length)
include h

theorem lineAt_succ :
    lineAt text (offset + 1) = lineAt text offset + if text[offset] = newline then 1 else 0 := by
  rw [lineAt, lineAt, List.take_succ_eq_append_getElem h, List.count_append, List.count_singleton]
  simp only [beq_iff_eq]
  omega

theorem columnAt_succ :
    columnAt text (offset + 1) = if text[offset] = newline then 1 else columnAt text offset + 1 := by
  rw [columnAt, columnAt, List.take_succ_eq_append_getElem h, lastLineLength_concat]
  split <;> rfl

end Step

/-! ## The lexer -/

/-- A lexer that reads the text from its beginning, without an offset of its own. -/
structure LexerState.At (text : Bytes) (state : LexerState) : Prop where
  rest : state.rest.bytes = text.drop state.pos
  bounded : state.pos ≤ text.length
  line : state.line = lineAt text state.pos
  col : state.col = columnAt text state.pos
  sourcePos : state.sourcePos = 0
  sourceLine : state.sourceLine = 1
  sourceCol : state.sourceCol = 1

theorem lexerInit_at (source : CString) : (lexerInit source).At source.bytes :=
  ⟨rfl, Nat.zero_le _, rfl, rfl, rfl, rfl, rfl⟩

section At

variable {text : Bytes} {start state : LexerState}

theorem LexerState.At.next (h : state.At text) : (lexerNextChar state).At text := by
  have hrest := h.rest
  unfold lexerNextChar
  split
  · exact h
  · rename_i value rest hbytes
    rw [hbytes] at hrest
    have hlt : state.pos < text.length := by
      refine Nat.lt_of_not_le fun hle => ?_
      rw [List.drop_eq_nil_of_le hle] at hrest
      cases hrest
    rw [List.drop_eq_getElem_cons hlt] at hrest
    obtain ⟨hvalue, hrest⟩ := List.cons.inj hrest
    refine ⟨?_, hlt, ?_, ?_, h.sourcePos, h.sourceLine, h.sourceCol⟩
    · rw [CString.bytes_drop, hbytes, List.drop_one, List.tail_cons]
      exact hrest
    · rw [lineAt_succ hlt, ← hvalue, ← h.line]
      simp only [beq_iff_eq]
      split <;> rfl
    · rw [columnAt_succ hlt, ← hvalue, ← h.col]
      simp only [beq_iff_eq]

theorem lexerNextChar_pos_le (state : LexerState) : state.pos ≤ (lexerNextChar state).pos := by
  unfold lexerNextChar
  split
  · exact Nat.le_refl _
  · exact Nat.le_succ _

theorem LexerState.At.advance {n : ℕ} (h : state.At text) : (lexerAdvance n state).At text := by
  induction n generalizing state with
  | zero => exact h
  | succ n ih => exact ih h.next

theorem lexerAdvance_pos_le (n : ℕ) (state : LexerState) :
    state.pos ≤ (lexerAdvance n state).pos := by
  induction n generalizing state with
  | zero => exact Nat.le_refl _
  | succ n ih => exact Nat.le_trans (lexerNextChar_pos_le state) (ih _)

theorem LexerState.At.scan {p : Byte → Bool} (h : state.At text) : (scan p state).At text :=
  h.advance

theorem scan_pos_le (p : Byte → Bool) (state : LexerState) : state.pos ≤ (scan p state).pos :=
  lexerAdvance_pos_le _ _

/-- **A token lies where the lexer has been.** -/
theorem tokenAt_pointsInto {type : TokenType} {value : CString} (hstart : start.At text)
    (hstate : state.At text) (hle : start.pos ≤ state.pos) :
    PointsInto text (tokenAt start state type value).location := by
  have hbounded := hstate.bounded
  refine ⟨?_, ?_, ?_⟩
  · dsimp only [Token.location, tokenAt]
    rw [hstate.sourcePos]
    omega
  · dsimp only [Token.location, tokenAt]
    rw [hstate.sourcePos, hstate.sourceLine, hstart.line, Nat.zero_add]
    omega
  · dsimp only [Token.location, tokenAt]
    rw [hstate.sourcePos, hstate.sourceCol, hstart.col, Nat.zero_add]
    split <;> omega

end At

/-! ## Reading a token -/

section Values

variable {P : SourceLocation → Prop} {token : Token} (h : P token.location)
include h

theorem tokenGetIntValue_failsWith :
    FailsWith (AsmFailure.Within P) (tokenGetIntValue token) := by
  unfold tokenGetIntValue
  split
  · simp [h]
  · simp only [failsWith_bind, failsWith_require, within_asmTokenFail]
    refine ⟨fun _ => h, fun _ _ => FailsWith.foldlM fun character _ value => ?_⟩
    unfold addDigit
    split <;> simp [h]

theorem validateNumericToken_failsWith (base : ℕ) :
    FailsWith (AsmFailure.Within P) (validateNumericToken token base) := by
  simp [validateNumericToken, h]

end Values

section Readers

variable {text : Bytes} {start state : LexerState} {type : TokenType}

/-- A token that lies where it says, and the lexer behind it. -/
def ReadAt (text : Bytes) (read : Token × LexerState) : Prop :=
  PointsInto text read.1.location ∧ read.2.At text

theorem readMarked_at {p : Byte → Bool} (h : start.At text) :
    ReadAt text (readMarked start type p) :=
  have hlast := h.next.scan
  ⟨tokenAt_pointsInto h hlast (Nat.le_trans (lexerNextChar_pos_le _) (scan_pos_le _ _)), hlast⟩

theorem readQuoted_at {quote : Byte} {message : String} (h : start.At text) :
    Ensures (readQuoted start type quote message) (ReadAt text)
      (AsmFailure.Within (PointsInto text)) := by
  have hlast : (scan (· != quote) (lexerNextChar start)).At text := h.next.scan
  have hle := Nat.le_trans (lexerNextChar_pos_le start) (scan_pos_le (· != quote) _)
  simp only [readQuoted]
  split
  · exact within_asmTokenFail.mpr (tokenAt_pointsInto h hlast hle)
  · exact ⟨tokenAt_pointsInto h hlast.next (Nat.le_trans hle (lexerNextChar_pos_le _)), hlast.next⟩

theorem readNumber_at (h : start.At text) :
    Ensures (readNumber start) (ReadAt text) (AsmFailure.Within (PointsInto text)) := by
  unfold readNumber
  generalize numberType start = number
  obtain ⟨type, base, marked⟩ := number
  dsimp only
  generalize hfirst : (if marked then lexerAdvance 2 start else start) = first
  have hat : first.At text ∧ start.pos ≤ first.pos := by
    rw [← hfirst]
    split
    · exact ⟨h.advance, lexerAdvance_pos_le _ _⟩
    · exact ⟨h, Nat.le_refl _⟩
  have hpoints : ∀ value, PointsInto text (tokenAt start
      (scan (fun character => !isTokenEnd character) first) type value).location := fun value =>
    tokenAt_pointsInto h hat.1.scan (Nat.le_trans hat.2 (scan_pos_le _ _))
  refine FailsWith.ensures ?_ fun read hread => ?_
  · simp only [failsWith_bind]
    exact ⟨validateNumericToken_failsWith (hpoints _) base,
      fun _ _ => ⟨tokenGetIntValue_failsWith (hpoints _), fun _ _ => failsWith_ok _⟩⟩
  · simp only [bind_eq_ok] at hread
    obtain ⟨-, -, -, -, hread⟩ := hread
    obtain rfl := Except.ok.inj hread
    exact ⟨hpoints _, hat.1.scan⟩

theorem readWord_at (h : start.At text) :
    Ensures (readWord start) (ReadAt text) (AsmFailure.Within (PointsInto text)) := by
  have hpoints : ∀ n type value,
      PointsInto text (tokenAt start (lexerAdvance n start) type value).location := fun n _ _ =>
    tokenAt_pointsInto h h.advance (lexerAdvance_pos_le n start)
  unfold readWord
  split
  · exact within_asmTokenFail.mpr (hpoints _ _ _)
  · dsimp only
    split
    · exact ⟨hpoints _ _ _, h.advance⟩
    · exact ⟨hpoints _ _ _, h.advance⟩

theorem readFrom_at (h : start.At text) :
    Ensures (readFrom start) (ReadAt text) (AsmFailure.Within (PointsInto text)) := by
  have hone : ∀ type value, ReadAt text
      (tokenAt start (lexerNextChar start) type value, lexerNextChar start) := fun _ _ =>
    ⟨tokenAt_pointsInto h h.next (lexerNextChar_pos_le _), h.next⟩
  unfold readFrom
  dsimp only
  split
  · exact hone _ _
  split
  · exact hone _ _
  iterate 4
    split
    · exact readMarked_at h
  split
  · exact readQuoted_at h
  split
  · exact readQuoted_at h
  split
  · exact readNumber_at h
  · exact readWord_at h

/-- **One token of a text.** -/
theorem lexerReadToken_at (h : state.At text) :
    Ensures (lexerReadToken state) (fun read => ∀ token ∈ read, ReadAt text token)
      (AsmFailure.Within (PointsInto text)) := by
  have hread := readFrom_at (h.scan (p := isIgnoredChar))
  rw [lexerReadToken_eq]
  split
  · intro token htoken
    cases htoken
  · cases hx : readFrom (scan isIgnoredChar state) with
    | error e =>
        rw [hx] at hread
        exact hread
    | ok read =>
        rw [hx] at hread
        exact fun token htoken => Option.some.inj htoken ▸ hread

/-- All tokens from a position on. -/
theorem lexerTokens_at : ∀ (fuel : ℕ) {state : LexerState}, state.At text →
    Ensures (lexerTokens fuel state) (fun tokens => ∀ token ∈ tokens, PointsInto text token.location)
      (AsmFailure.Within (PointsInto text))
  | 0, _, _ => fun _ htoken => nomatch htoken
  | fuel + 1, state, h => by
      rw [lexerTokens]
      refine (lexerReadToken_at h).bind fun read hread => ?_
      cases read with
      | none => exact fun _ htoken => nomatch htoken
      | some read =>
          obtain ⟨hpoints, hat⟩ := hread read rfl
          refine (lexerTokens_at fuel hat).bind fun tokens htokens => ?_
          exact List.forall_mem_cons.mpr ⟨hpoints, htokens⟩

end Readers

/-- **Every token of a source lies where it says**, and so does what its lexer rejects. -/
theorem lexSource_pointsInto (source : CString) :
    Ensures (lexSource source)
      (fun tokens => ∀ token ∈ tokens, PointsInto source.bytes token.location)
      (AsmFailure.Within (PointsInto source.bytes)) :=
  lexerTokens_at _ (lexerInit_at source)

end Zlvm
