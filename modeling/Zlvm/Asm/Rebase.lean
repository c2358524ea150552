import Mathlib.Data.List.Induction
import Mathlib.Data.List.TakeWhile
import Zlvm.Asm.Macros
import Zlvm.Asm.Position

/-!
# The second lexer

The text of a named macro argument is read by a lexer of its own, which counts its positions on
from the invocation of the macro.

* `rebase` — a place in a text, counted on from a token; `lexerReadToken_rebase` — that is what the
  second lexer does.
* `rejectedAt` — where the lexer rejects a text that is read by itself.
* `namedArgumentValue_ensures`, `namedArgumentValue_rejected` — what `named_argument_value` reports.
* `rebase_pointsInto_iff` — when a place that is counted on from a token lies where it says.
-/

namespace Zlvm

open Loop

/-! ## Counting on -/

/-- A place in a text, counted on from a token. -/
def SourceLocation.rebase (place : SourceLocation) (base : Token) : SourceLocation where
  line := base.line + place.line - 1
  column := if place.line = 1 then base.col + place.column - 1 else place.column
  byteOffset := base.pos + place.byteOffset
  byteLength := place.byteLength

def Token.rebase (token base : Token) : Token :=
  { token with
    pos := base.pos + token.pos
    line := base.line + token.line - 1
    col := if token.line = 1 then base.col + token.col - 1 else token.col }

def AsmFailure.rebase (failure : AsmFailure) (base : Token) : AsmFailure :=
  { failure with location := failure.location.map (·.rebase base) }

/-- The lexer of `named_argument_value`. -/
def LexerState.rebase (state : LexerState) (base : Token) : LexerState :=
  { state with sourcePos := base.pos, sourceLine := base.line, sourceCol := base.col }

/-- What a reader has read, counted on. -/
def rebaseRead (base : Token) (x : Except AsmFailure (Token × LexerState)) :
    Except AsmFailure (Token × LexerState) :=
  (x.mapError (·.rebase base)).map fun read => (read.1.rebase base, read.2.rebase base)

section Rebase

variable (base : Token) {token : Token}

theorem lexerAdvance_rebase (n : ℕ) (state : LexerState) :
    lexerAdvance n (state.rebase base) = (lexerAdvance n state).rebase base := by
  induction n generalizing state with
  | zero => rfl
  | succ n ih =>
      have hnext : lexerNextChar (state.rebase base) = (lexerNextChar state).rebase base := by
        unfold lexerNextChar
        dsimp only [LexerState.rebase]
        split <;> rfl
      rw [lexerAdvance, lexerAdvance, hnext, ih]

theorem scan_rebase (p : Byte → Bool) (state : LexerState) :
    scan p (state.rebase base) = (scan p state).rebase base :=
  lexerAdvance_rebase base _ state

variable {text : Bytes} {start state : LexerState} {type : TokenType}

theorem tokenAt_rebase {value : CString} (h : state.At text) :
    tokenAt (start.rebase base) (state.rebase base) type value
      = (tokenAt start state type value).rebase base := by
  have hown : tokenAt start state type value
      = ⟨type, value, start.pos, start.line, start.col, state.pos - start.pos⟩ := by
    rw [tokenAt, h.sourcePos, h.sourceLine, h.sourceCol, Nat.zero_add, Nat.add_sub_cancel_left,
      Nat.add_sub_cancel_left, ite_self]
  rw [hown]
  rfl

theorem tokenGetIntValue_rebase :
    tokenGetIntValue (token.rebase base)
      = (tokenGetIntValue token).mapError (·.rebase base) := by
  unfold tokenGetIntValue
  dsimp only [Token.rebase]
  cases token.type.base with
  | none => rfl
  | some b =>
      dsimp only
      rw [mapError_bind, mapError_require, mapError_foldlM]
      have hdigit : ∀ value character, addDigit (token.rebase base) b value character
          = (addDigit token b value character).mapError (·.rebase base) := by
        intro value character
        unfold addDigit
        cases digitValue character with
        | none => rfl
        | some digit =>
            simp only [mapError_bind, mapError_require]
            rfl
      simp only [← hdigit]
      rfl

theorem validateNumericToken_rebase (b : ℕ) :
    validateNumericToken (token.rebase base) b
      = (validateNumericToken token b).mapError (·.rebase base) := by
  simp only [validateNumericToken, mapError_bind, mapError_require]
  rfl

theorem readMarked_rebase {p : Byte → Bool} (h : start.At text) :
    readMarked (start.rebase base) type p
      = ((readMarked start type p).1.rebase base, (readMarked start type p).2.rebase base) := by
  have hnext : lexerNextChar (start.rebase base) = (lexerNextChar start).rebase base :=
    lexerAdvance_rebase base 1 start
  simp only [readMarked, hnext, scan_rebase, tokenAt_rebase base h.next.scan]
  rfl

theorem readQuoted_rebase {quote : Byte} {message : String} (h : start.At text) :
    readQuoted (start.rebase base) type quote message
      = rebaseRead base (readQuoted start type quote message) := by
  have hnext : ∀ s : LexerState, lexerNextChar (s.rebase base) = (lexerNextChar s).rebase base :=
    lexerAdvance_rebase base 1
  have hlast : (scan (· != quote) (lexerNextChar start)).At text := h.next.scan
  simp only [readQuoted, hnext, scan_rebase, tokenAt_rebase base hlast,
    tokenAt_rebase base hlast.next]
  generalize scan (· != quote) (lexerNextChar start) = last
  rw [show (last.rebase base).rest = last.rest from rfl]
  split <;> rfl

theorem rebaseRead_bind {α : Type} {x : Except AsmFailure α}
    {f : α → Except AsmFailure (Token × LexerState)} :
    rebaseRead base (x >>= f) = x.mapError (·.rebase base) >>= fun a => rebaseRead base (f a) := by
  cases x <;> rfl

theorem readNumber_rebase (h : start.At text) :
    readNumber (start.rebase base) = rebaseRead base (readNumber start) := by
  unfold readNumber
  rw [show numberType (start.rebase base) = numberType start from rfl]
  generalize numberType start = number
  obtain ⟨type, b, marked⟩ := number
  dsimp only
  have hfirst : (if marked = true then lexerAdvance 2 (start.rebase base) else start.rebase base)
      = (if marked = true then lexerAdvance 2 start else start).rebase base := by
    rw [lexerAdvance_rebase]
    split <;> rfl
  have hat : (if marked = true then lexerAdvance 2 start else start).At text := by
    split
    · exact h.advance
    · exact h
  rw [hfirst, scan_rebase, tokenAt_rebase base hat.scan]
  simp only [rebaseRead_bind, ← validateNumericToken_rebase, ← tokenGetIntValue_rebase]
  rfl

theorem readWord_rebase (h : start.At text) :
    readWord (start.rebase base) = rebaseRead base (readWord start) := by
  unfold readWord
  rw [show (start.rebase base).rest = start.rest from rfl]
  split
  · dsimp only
    rw [lexerAdvance_rebase, tokenAt_rebase base h.advance]
    rfl
  · dsimp only
    rw [lexerAdvance_rebase, tokenAt_rebase base h.advance, tokenAt_rebase base h.advance]
    split <;> rfl

/-- **The second lexer** reads what the lexer reads, and reports it counted on. -/
theorem lexerReadToken_rebase (h : state.At text) :
    lexerReadToken (state.rebase base)
      = ((lexerReadToken state).mapError (·.rebase base)).map
          (Option.map fun read => (read.1.rebase base, read.2.rebase base)) := by
  have hsome : ∀ x : Except AsmFailure (Token × LexerState),
      (rebaseRead base x).map some = ((x.map some).mapError (·.rebase base)).map
        (Option.map fun read => (read.1.rebase base, read.2.rebase base)) := by
    rintro (e | read) <;> rfl
  have hstart : (scan isIgnoredChar state).At text := h.scan
  unfold lexerReadToken
  rw [scan_rebase]
  generalize scan isIgnoredChar state = start at hstart ⊢
  have hnext : lexerNextChar (start.rebase base) = (lexerNextChar start).rebase base :=
    lexerAdvance_rebase base 1 start
  dsimp only
  rw [show lexerPeekChar (start.rebase base) = lexerPeekChar start from rfl, hnext]
  simp only [tokenAt_rebase base hstart.next, readMarked_rebase base hstart,
    readQuoted_rebase base hstart, readNumber_rebase base hstart, readWord_rebase base hstart, hsome,
    apply_ite (Except.mapError _), apply_ite (Except.map _)]
  rfl

end Rebase

/-! ## The text of a named argument -/

/-- Where the lexer rejects a text that it reads by itself; it is asked for two tokens. -/
def rejectedAt (value : CString) : Option SourceLocation :=
  match lexerReadToken (lexerInit value) with
  | .error failure => failure.location
  | .ok none => none
  | .ok (some (_, state)) =>
      match lexerReadToken state with
      | .error failure => failure.location
      | .ok _ => none

theorem rejectedAt_pointsInto {value : CString} {place : SourceLocation}
    (h : rejectedAt value = some place) : PointsInto value.bytes place := by
  have hfirst := lexerReadToken_at (lexerInit_at value)
  unfold rejectedAt at h
  split at h
  · rename_i failure hread
    exact hfirst.of_eq_error hread place h
  · cases h
  · rename_i token state hread
    have hsecond := lexerReadToken_at (hfirst.of_eq_ok hread _ rfl).2
    split at h
    · rename_i failure hread
      exact hsecond.of_eq_error hread place h
    · cases h

section NamedArgument

variable {P : SourceLocation → Prop} {value : CString} {invocation : Token}

theorem within_rebase {failure : AsmFailure} {base : Token}
    (h : ∀ place, failure.location = some place → P (place.rebase base)) :
    (failure.rebase base).Within P := by
  intro place hplace
  obtain ⟨own, hown, rfl⟩ := Option.map_eq_some_iff.mp hplace
  exact h own hown

/-- What `named_argument_value` reports is the invocation, or where the second lexer fails. -/
theorem namedArgumentValue_ensures (h : P invocation.location)
    (hrejected : ∀ place, rejectedAt value = some place → P (place.rebase invocation)) :
    Ensures (namedArgumentValue value invocation) (fun token => P token.location)
      (AsmFailure.Within P) := by
  have hlexer := lexerReadToken_rebase invocation (lexerInit_at value)
  have hfirst := lexerReadToken_at (lexerInit_at value)
  unfold rejectedAt at hrejected
  show Ensures (lexerReadToken ((lexerInit value).rebase invocation) >>= _) _ _
  rw [hlexer]
  cases hread : lexerReadToken (lexerInit value) with
  | error failure =>
      rw [hread] at hrejected
      exact within_rebase hrejected
  | ok read =>
      cases read with
      | none => exact within_asmTokenFail.mpr h
      | some read =>
          obtain ⟨token, state⟩ := read
          have hstate := (hfirst.of_eq_ok hread _ rfl).2
          rw [hread] at hrejected
          show Ensures (lexerReadToken (state.rebase invocation) >>= _) _ _
          rw [lexerReadToken_rebase invocation hstate]
          cases hread : lexerReadToken state with
          | error failure =>
              simp only [hread] at hrejected
              exact within_rebase hrejected
          | ok read =>
              cases read with
              | none => exact h
              | some read => exact within_asmTokenFail.mpr h

/-- **Where the second lexer fails** is counted on from the invocation. -/
theorem namedArgumentValue_rejected {place : SourceLocation} (h : rejectedAt value = some place) :
    ∃ failure, namedArgumentValue value invocation = .error failure ∧
      failure.location = some (place.rebase invocation) := by
  have hlexer := lexerReadToken_rebase invocation (lexerInit_at value)
  have hfirst := lexerReadToken_at (lexerInit_at value)
  have hlocation : ∀ failure : AsmFailure, failure.location = some place →
      (failure.rebase invocation).location = some (place.rebase invocation) := fun failure hplace =>
    congrArg (Option.map fun place : SourceLocation => place.rebase invocation) hplace
  unfold rejectedAt at h
  split at h
  · rename_i failure hread
    rw [hread] at hlexer
    refine ⟨failure.rebase invocation, ?_, hlocation failure h⟩
    show (lexerReadToken ((lexerInit value).rebase invocation) >>= _) = _
    rw [hlexer]
    rfl
  · cases h
  · rename_i token state hread
    rw [hread] at hlexer
    have hsecond := lexerReadToken_rebase invocation (hfirst.of_eq_ok hread _ rfl).2
    split at h
    · rename_i failure hread
      rw [hread] at hsecond
      refine ⟨failure.rebase invocation, ?_, hlocation failure h⟩
      show (lexerReadToken ((lexerInit value).rebase invocation) >>= _) = _
      rw [hlexer]
      show (lexerReadToken (state.rebase invocation) >>= _) = _
      rw [hsecond]
      rfl
    · cases h

end NamedArgument

/-! ## Places that are counted on -/

theorem lastLineLength_append (a b : Bytes) :
    lastLineLength (a ++ b) = (if newline ∈ b then 0 else lastLineLength a) + lastLineLength b := by
  induction b using List.reverseRecOn with
  | nil => simp [lastLineLength]
  | append_singleton b character ih =>
      rw [← List.append_assoc, lastLineLength_concat, lastLineLength_concat, ih]
      by_cases hcharacter : character = newline
      · simp [hcharacter]
      · rw [if_neg hcharacter, if_neg hcharacter, ← Nat.add_assoc]
        simp [List.mem_append, Ne.symm hcharacter]

/-- The text behind an offset has the line breaks of another text up to a place in that one, and is
long enough for it. -/
structure CountsOn (source value : Bytes) (base : ℕ) (place : SourceLocation) : Prop where
  bounded : base + place.byteOffset + place.byteLength ≤ source.length
  breaks : ((source.drop base).take place.byteOffset).count newline
    = (value.take place.byteOffset).count newline
  lastLine : lastLineLength ((source.drop base).take place.byteOffset)
    = lastLineLength (value.take place.byteOffset)

/-- **A place that is counted on** from a token lies where it says exactly if the source behind the
token has the same line breaks. -/
theorem rebase_pointsInto_iff {source value : Bytes} {base : Token} {place : SourceLocation}
    (hbase : PointsInto source base.location) (hplace : PointsInto value place) :
    PointsInto source (place.rebase base) ↔ CountsOn source value base.pos place := by
  have hline : base.line = lineAt source base.pos := hbase.line
  have hcol : base.col = columnAt source base.pos := hbase.column
  have hlines : lineAt source (base.pos + place.byteOffset)
      = lineAt source base.pos + ((source.drop base.pos).take place.byteOffset).count newline := by
    rw [lineAt, lineAt, List.take_add, List.count_append]
    omega
  have hcolumns : columnAt source (base.pos + place.byteOffset)
      = (if newline ∈ (source.drop base.pos).take place.byteOffset then 1
          else columnAt source base.pos)
        + lastLineLength ((source.drop base.pos).take place.byteOffset) := by
    rw [columnAt, columnAt, List.take_add, lastLineLength_append]
    split <;> omega
  have hbreaks : place.line = (value.take place.byteOffset).count newline + 1 := hplace.line
  have hlast : place.column = lastLineLength (value.take place.byteOffset) + 1 := hplace.column
  have hpositive : 1 ≤ columnAt source base.pos := Nat.le_add_left 1 _
  by_cases hmem : newline ∈ (source.drop base.pos).take place.byteOffset
  · have hsome := List.count_pos_iff.mpr hmem
    rw [if_pos hmem] at hcolumns
    constructor
    · rintro ⟨bounded, line, column⟩
      dsimp only [SourceLocation.rebase] at bounded line column
      refine ⟨bounded, by omega, ?_⟩
      rw [if_neg (by omega)] at column
      omega
    · rintro ⟨bounded, breaks, lastLine⟩
      refine ⟨bounded, ?_, ?_⟩
      · dsimp only [SourceLocation.rebase]
        omega
      · dsimp only [SourceLocation.rebase]
        rw [if_neg (by omega)]
        omega
  · have hnone := List.count_eq_zero.mpr hmem
    rw [if_neg hmem] at hcolumns
    constructor
    · rintro ⟨bounded, line, column⟩
      dsimp only [SourceLocation.rebase] at bounded line column
      refine ⟨bounded, by omega, ?_⟩
      rw [if_pos (by omega)] at column
      omega
    · rintro ⟨bounded, breaks, lastLine⟩
      refine ⟨bounded, ?_, ?_⟩
      · dsimp only [SourceLocation.rebase]
        omega
      · dsimp only [SourceLocation.rebase]
        rw [if_pos (by omega)]
        omega

end Zlvm
