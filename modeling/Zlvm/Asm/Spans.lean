import Zlvm.Asm.Concat
import Zlvm.Asm.Position

/-!
# The tokens of a text

Between the tokens of a text there is nothing but blanks.

* `ReadsAll` — reading tokens until there is none, or one is rejected; `readsAll_lexRest` — this
  ends.
* `readFrom_tokenAt` — a token is the text between two positions of the lexer.
* `Lossless` — the tokens cover the text, in order, and say where they are.
* **`lexer_lossless`** — the tokens of every text that the lexer accepts do.
-/

namespace Zlvm

open Loop

/-! ## Reading all tokens -/

/-- Calling `lexer_readToken` until it returns no token or fails. -/
inductive ReadsAll : LexerState → Except AsmFailure (List Token) → Prop
  | done {state : LexerState} (read : lexerReadToken state = .ok none) : ReadsAll state (.ok [])
  | fails {state : LexerState} {e : AsmFailure} (read : lexerReadToken state = .error e) :
      ReadsAll state (.error e)
  | token {state next : LexerState} {token : Token} {result : Except AsmFailure (List Token)}
      (read : lexerReadToken state = .ok (some (token, next))) (rest : ReadsAll next result) :
      ReadsAll state (result.map (token :: ·))

/-- **Reading ends**, as every token takes at least one character. -/
theorem readsAll_lexRest (state : LexerState) : ReadsAll state (lexRest state) := by
  cases hread : lexerReadToken state with
  | error e =>
      rw [lexRest_eq, hread]
      exact .fails hread
  | ok read =>
      cases read with
      | none =>
          rw [lexRest_eq, hread]
          exact .done hread
      | some read =>
          obtain ⟨token, next⟩ := read
          have hlt := lexerReadToken_lt hread
          rw [lexRest_of_token hread]
          exact .token hread (readsAll_lexRest next)
termination_by state.rest.bytes.length

/-- It ends in one way only. -/
theorem ReadsAll.eq {state : LexerState} {result : Except AsmFailure (List Token)}
    (h : ReadsAll state result) : result = lexRest state := by
  induction h with
  | done read =>
      rw [lexRest_eq, read]
      rfl
  | fails read =>
      rw [lexRest_eq, read]
      rfl
  | token read _ ih => rw [lexRest_of_token read, ih]

/-! ## The text of a token -/

section Token

variable {start : LexerState} {token : Token} {next : LexerState}

/-- The token is the text between two positions of the lexer. -/
def IsBetween (start : LexerState) (read : Token × LexerState) : Prop :=
  ∃ type value, read.1 = tokenAt start read.2 type value

theorem readQuoted_isBetween {type : TokenType} {quote : Byte} {message : String}
    {read : Token × LexerState} (h : readQuoted start type quote message = .ok read) :
    IsBetween start read := by
  simp only [readQuoted] at h
  split at h
  · cases h
  · obtain rfl := Except.ok.inj h
    exact ⟨_, _, rfl⟩

theorem readNumber_isBetween {read : Token × LexerState} (h : readNumber start = .ok read) :
    IsBetween start read := by
  simp only [readNumber, bind_eq_ok] at h
  obtain ⟨-, -, -, -, h⟩ := h
  obtain rfl := Except.ok.inj h
  exact ⟨_, _, rfl⟩

theorem readWord_isBetween {read : Token × LexerState} (h : readWord start = .ok read) :
    IsBetween start read := by
  simp only [readWord] at h
  split at h
  · cases h
  · split at h <;>
    · obtain rfl := Except.ok.inj h
      exact ⟨_, _, rfl⟩

theorem readFrom_isBetween {read : Token × LexerState} (h : readFrom start = .ok read) :
    IsBetween start read := by
  unfold readFrom at h
  dsimp only at h
  iterate 6
    split at h
    · obtain rfl := Except.ok.inj h
      exact ⟨_, _, rfl⟩
  split at h
  · exact readQuoted_isBetween h
  split at h
  · exact readQuoted_isBetween h
  split at h
  · exact readNumber_isBetween h
  · exact readWord_isBetween h

end Token

/-! ## One token of a text -/

/-- What the lexer skips is blank: it is no line break. -/
def IsBlank (character : Byte) : Prop := isSpace character = true ∧ character ≠ newline

section Step

variable {text : Bytes} {state next : LexerState} {token : Token}

theorem isBlank_of_isIgnoredChar {character : Byte} (h : isIgnoredChar character = true)
    (hne : character ≠ 0) : IsBlank character := by
  simpa [isIgnoredChar, isEof, IsBlank, hne] using h

/-- What a scan passes. -/
theorem scan_pos_eq (p : Byte → Bool) (state : LexerState) :
    (scan p state).pos = state.pos + (state.rest.bytes.takeWhile p).length :=
  lexerAdvance_pos (List.takeWhile_sublist p).length_le

/-- **What is skipped before a token** is blank. -/
theorem isBlank_skipped (h : state.At text) (hnul : 0 ∉ text) {offset : ℕ}
    (hoffset : offset < text.length) (hbegin : state.pos ≤ offset)
    (hend : offset < (scan isIgnoredChar state).pos) : IsBlank text[offset] := by
  rw [scan_pos_eq] at hend
  have hmem : text[offset] ∈ state.rest.bytes.takeWhile isIgnoredChar := by
    have hindex : offset - state.pos < (state.rest.bytes.takeWhile isIgnoredChar).length := by omega
    have hget : (state.rest.bytes.takeWhile isIgnoredChar)[offset - state.pos] = text[offset] := by
      rw [(List.takeWhile_prefix isIgnoredChar).getElem]
      simp only [h.rest, List.getElem_drop, Nat.add_sub_cancel' hbegin]
    exact hget ▸ List.getElem_mem _
  exact isBlank_of_isIgnoredChar (List.mem_takeWhile_imp hmem) fun hzero =>
    hnul (hzero ▸ List.getElem_mem hoffset)

/-- The span of a token, and what lies before it. -/
structure ReadSpan (text : Bytes) (state : LexerState) (token : Token) (next : LexerState) :
    Prop where
  points : PointsInto text token.location
  atNext : next.At text
  behind : state.pos ≤ token.pos
  span : token.pos + token.sourceSize = next.pos
  nonempty : 0 < token.sourceSize
  blank : ∀ offset, ∀ h : offset < text.length, state.pos ≤ offset → offset < token.pos →
    IsBlank text[offset]

/-- **One token of a text.** -/
theorem readSpan_of_lexerReadToken (hat : state.At text) (hnul : 0 ∉ text)
    (h : lexerReadToken state = .ok (some (token, next))) : ReadSpan text state token next := by
  obtain ⟨hpoints, hnext⟩ := (lexerReadToken_at hat).of_eq_ok h (token, next) rfl
  have hlt := lexerReadToken_lt h
  rw [lexerReadToken_eq] at h
  split at h
  · cases h
  · rename_i heof
    obtain ⟨read, hread, hsome⟩ := map_eq_ok.mp h
    obtain rfl := Option.some.inj hsome
    have hne := fun hnil => heof ((isEof_peek_iff state).mpr hnil)
    have hstart : (scan isIgnoredChar state).At text := hat.scan
    have hshorter := readFrom_lt hne (scan_head hne) hread
    obtain ⟨type, value, htoken⟩ := readFrom_isBetween hread
    dsimp only at hpoints hnext htoken
    have hpos : token.pos = (scan isIgnoredChar state).pos := by
      rw [htoken, tokenAt, hnext.sourcePos, Nat.zero_add]
    have hsize : token.sourceSize = next.pos - (scan isIgnoredChar state).pos := by
      rw [htoken, tokenAt]
    have hstartBound := hstart.bounded
    have hnextBound := hnext.bounded
    rw [hnext.rest, hstart.rest, List.length_drop, List.length_drop] at hshorter
    refine ⟨hpoints, hnext, ?_, by omega, by omega, fun offset hoffset hbegin hend => ?_⟩
    · rw [hpos]
      exact scan_pos_le _ _
    · rw [hpos] at hend
      exact isBlank_skipped hat hnul hoffset hbegin hend

end Step

/-! ## All tokens of a text -/

/-- The offset lies in the text of a token. -/
def Token.Covers (token : Token) (offset : ℕ) : Prop :=
  token.pos ≤ offset ∧ offset < token.pos + token.sourceSize

/-- The tokens cover the text from an offset on: they are not empty, they lie in the text one behind
the other, what lies outside them is blank, and their lines and columns are those of the places
where they begin. -/
structure LosslessFrom (text : Bytes) (begin : ℕ) (tokens : List Token) : Prop where
  nonempty : ∀ token ∈ tokens, 0 < token.sourceSize
  inside : ∀ token ∈ tokens, begin ≤ token.pos ∧ token.pos + token.sourceSize ≤ text.length
  ordered : tokens.Pairwise fun token other => token.pos + token.sourceSize ≤ other.pos
  outside : ∀ offset, ∀ h : offset < text.length, begin ≤ offset →
    (∀ token ∈ tokens, ¬token.Covers offset) → IsBlank text[offset]
  line : ∀ token ∈ tokens, token.line = 1 + (text.take token.pos).count newline
  column : ∀ token ∈ tokens, token.col = 1 + lastLineLength (text.take token.pos)

/-- The tokens cover the whole text. -/
def Lossless (text : Bytes) (tokens : List Token) : Prop := LosslessFrom text 0 tokens

section Run

variable {text : Bytes} {state next : LexerState} {token : Token} {tokens : List Token}

/-- At the end of the tokens everything that is left is blank. -/
theorem losslessFrom_nil (hat : state.At text) (hnul : 0 ∉ text)
    (h : lexerReadToken state = .ok none) : LosslessFrom text state.pos [] where
  nonempty _ hmem := nomatch hmem
  inside _ hmem := nomatch hmem
  ordered := .nil
  outside := by
    intro offset hoffset hbegin _
    refine isBlank_skipped hat hnul hoffset hbegin ?_
    have htake := List.takeWhile_append_dropWhile (l := state.rest.bytes) (p := isIgnoredChar)
    rw [lexerReadToken_none_iff.mp h, List.append_nil] at htake
    rw [scan_pos_eq, htake, hat.rest, List.length_drop]
    omega
  line _ hmem := nomatch hmem
  column _ hmem := nomatch hmem

/-- **One more token in front.** -/
theorem ReadSpan.losslessFrom (h : ReadSpan text state token next)
    (hrest : LosslessFrom text next.pos tokens) :
    LosslessFrom text state.pos (token :: tokens) where
  nonempty := List.forall_mem_cons.mpr ⟨h.nonempty, hrest.nonempty⟩
  inside := by
    refine List.forall_mem_cons.mpr ⟨⟨h.behind, h.points.bounded⟩, fun other hmem => ?_⟩
    obtain ⟨hbegin, hend⟩ := hrest.inside other hmem
    have := h.span
    have := h.behind
    exact ⟨by omega, hend⟩
  ordered := by
    refine List.pairwise_cons.mpr ⟨fun other hmem => ?_, hrest.ordered⟩
    rw [h.span]
    exact (hrest.inside other hmem).1
  outside := by
    intro offset hoffset hbegin huncovered
    obtain ⟨hfirst, huncovered⟩ := List.forall_mem_cons.mp huncovered
    by_cases hbefore : offset < token.pos
    · exact h.blank offset hoffset hbegin hbefore
    · refine hrest.outside offset hoffset ?_ huncovered
      rw [← h.span]
      exact Nat.le_of_not_lt fun hlt => hfirst ⟨Nat.le_of_not_lt hbefore, hlt⟩
  line := by
    refine List.forall_mem_cons.mpr ⟨?_, hrest.line⟩
    rw [Nat.add_comm]
    exact h.points.line
  column := by
    refine List.forall_mem_cons.mpr ⟨?_, hrest.column⟩
    rw [Nat.add_comm]
    exact h.points.column

/-- **The tokens of a text** cover it from where they are read. -/
theorem ReadsAll.losslessFrom (hnul : 0 ∉ text) {result : Except AsmFailure (List Token)}
    (h : ReadsAll state result) (hat : state.At text) (hresult : result = .ok tokens) :
    LosslessFrom text state.pos tokens := by
  induction h generalizing tokens with
  | done read =>
      obtain rfl := Except.ok.inj hresult
      exact losslessFrom_nil hat hnul read
  | fails read => cases hresult
  | token read _ ih =>
      obtain ⟨rest, hrest, rfl⟩ := map_eq_ok.mp hresult
      have hspan := readSpan_of_lexerReadToken hat hnul read
      exact hspan.losslessFrom (ih hspan.atNext hrest)

end Run

/-- **The lexer loses nothing.**  Reading the tokens of a source ends, in the one way that
`assemble_source` computes, and if no token is rejected then the tokens cover the source. -/
theorem lexer_lossless (source : CString) :
    (∀ result, ReadsAll (lexerInit source) result ↔ result = lexSource source) ∧
      ∀ tokens, ReadsAll (lexerInit source) (.ok tokens) → Lossless source.bytes tokens := by
  refine ⟨fun result => ⟨fun h => ?_, ?_⟩, fun tokens h => ?_⟩
  · rw [h.eq, lexSource_eq]
  · rintro rfl
    exact readsAll_lexRest _
  · exact h.losslessFrom source.nulFree (lexerInit_at source) rfl

end Zlvm
