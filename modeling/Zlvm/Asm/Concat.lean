import Zlvm.Asm.Splitter
import Mathlib.Data.List.TakeWhile

/-!
# Texts one after the other

The tokens of a text that is followed by another one.  Only the last token of the first text may
change, and only if it is a comment.

* `readMarked_extends`, `readQuoted_extends`, `readNumber_extends`, `readWord_extends` — one token.
* `lexRest` — all tokens from a state on.
* **`lexRest_append`** — the tokens of a text, then those of the one behind it.
* `OutsideLiteral` — a text that does not end within a literal; `OutsideLiteral.lexSource` — the
  beginning of a text that the lexer accepts is accepted if it is one.
-/

namespace Zlvm

open Loop

/-! ## Texts -/

/-- The text begins with a character that ends a name, or is empty. -/
def ClosesWord (text : Bytes) : Prop := ∀ character ∈ text.head?, isWordEnd character = true

/-- The text begins with a line break, or is empty. -/
def ClosesLine (text : Bytes) : Prop := ∀ character ∈ text.head?, character = newline

theorem ClosesLine.closesWord {text : Bytes} (h : ClosesLine text) : ClosesWord text := by
  intro character hmem
  rw [h character hmem]
  decide

theorem closesLine_nil : ClosesLine [] := fun _ h => nomatch h

theorem le_comma_of_isWordEnd {character : Byte} (h : isWordEnd character = true) :
    character ≤ comma := by
  simp only [isWordEnd, isIgnoredChar, isSpace, isEof, Bool.or_eq_true, Bool.and_eq_true, beq_iff_eq,
    decide_eq_true_eq] at h
  rcases h with ((⟨h | ⟨-, h⟩, -⟩ | h) | h) | h
  · rw [h]
    decide
  · exact UInt8.le_trans h (by decide)
  all_goals
    rw [h]
    decide

theorem closesLine_newline (rest : Bytes) : ClosesLine (newline :: rest) := fun _ hmem =>
  (Option.some.inj hmem).symm

theorem takeWhile_eq_nil_of_head {p : Byte → Bool} {text : Bytes}
    (h : ∀ character ∈ text.head?, p character = false) :
    text.takeWhile p = [] ∧ text.dropWhile p = text := by
  cases text with
  | nil => exact ⟨rfl, rfl⟩
  | cons character rest =>
      have hp : ¬p character = true := by simp [h character rfl]
      exact ⟨List.takeWhile_cons_of_neg hp, List.dropWhile_cons_of_neg hp⟩

/-- A scan that ends in the first text, or at its end. -/
theorem scan_append {p : Byte → Bool} {text more : Bytes}
    (h : text.dropWhile p ≠ [] ∨ ∀ character ∈ more.head?, p character = false) :
    (text ++ more).takeWhile p = text.takeWhile p ∧
      (text ++ more).dropWhile p = text.dropWhile p ++ more := by
  rw [List.takeWhile_append, List.dropWhile_append]
  by_cases hnil : text.dropWhile p = []
  · obtain ⟨htake, hdrop⟩ := takeWhile_eq_nil_of_head (h.resolve_left fun hne => hne hnil)
    have htext := List.takeWhile_append_dropWhile (l := text) (p := p)
    rw [hnil, List.append_nil] at htext
    rw [htake, hdrop, hnil, htext, if_pos rfl, List.append_nil]
    exact ⟨rfl, rfl⟩
  · have hlength : ¬(text.takeWhile p).length = text.length := fun hlength => by
      have htext := congrArg List.length (List.takeWhile_append_dropWhile (l := text) (p := p))
      rw [List.length_append, hlength] at htext
      exact hnil (List.length_eq_zero_iff.mp (by omega))
    rw [if_neg hlength, if_neg (by simpa using hnil)]
    exact ⟨rfl, rfl⟩

theorem wordLength_append {more : Bytes} (hmore : ClosesWord more) :
    ∀ {text : Bytes} {quote : Option Byte} {length : ℕ}, wordLength quote text = some length →
      wordLength quote (text ++ more) = some length
  | [], none, length, h => by
      cases more with
      | nil => exact h
      | cons character more =>
          rw [List.nil_append, wordLength, if_pos (hmore character rfl)]
          exact h
  | [], some _, _, h => by cases h
  | character :: text, none, length, h => by
      rw [wordLength] at h
      rw [List.cons_append, wordLength]
      split
      · rename_i hend
        rw [if_pos hend] at h
        exact h
      · rename_i hend
        rw [if_neg hend] at h
        obtain ⟨n, hn, rfl⟩ := Option.map_eq_some_iff.mp h
        dsimp only
        rw [wordLength_append hmore hn]
        rfl
  | character :: text, some quote, length, h => by
      rw [wordLength] at h
      rw [List.cons_append, wordLength]
      obtain ⟨n, hn, rfl⟩ := Option.map_eq_some_iff.mp h
      rw [wordLength_append hmore hn]
      rfl

theorem wordLength_le : ∀ {text : Bytes} {quote : Option Byte} {length : ℕ},
    wordLength quote text = some length → length ≤ text.length
  | [], none, _, h => by
      obtain rfl := Option.some.inj h
      exact Nat.le_refl _
  | [], some _, _, h => by cases h
  | character :: text, none, length, h => by
      rw [wordLength] at h
      split at h
      · obtain rfl := Option.some.inj h
        exact Nat.zero_le _
      · obtain ⟨n, hn, rfl⟩ := Option.map_eq_some_iff.mp h
        exact Nat.succ_le_succ (wordLength_le hn)
  | character :: text, some quote, length, h => by
      rw [wordLength] at h
      obtain ⟨n, hn, rfl⟩ := Option.map_eq_some_iff.mp h
      exact Nat.succ_le_succ (wordLength_le hn)

/-! ## The text of a token -/

theorem lexerAdvance_pos : ∀ {n : ℕ} {state : LexerState}, n ≤ state.rest.bytes.length →
    (lexerAdvance n state).pos = state.pos + n
  | 0, _, _ => rfl
  | n + 1, state, h => by
      have hpos : (lexerNextChar state).pos = state.pos + 1 := by
        unfold lexerNextChar
        split
        · rename_i hnil
          rw [hnil] at h
          exact absurd h (Nat.not_succ_le_zero n)
        · rfl
      rw [lexerAdvance, lexerAdvance_pos, hpos]
      · omega
      · rw [lexerNextChar_rest, List.length_drop]
        omega

theorem between_advance {n : ℕ} {state : LexerState} (h : n ≤ state.rest.bytes.length) :
    (between state (lexerAdvance n state)).bytes = state.rest.bytes.take n := by
  rw [between, lexerAdvance_pos h, Nat.add_sub_cancel_left]
  rfl

/-- The text that a scan has passed. -/
theorem between_scan (p : Byte → Bool) (state : LexerState) :
    (between state (scan p state)).bytes = state.rest.bytes.takeWhile p := by
  have hle := (List.takeWhile_sublist p (l := state.rest.bytes)).length_le
  rw [scan, between_advance hle]
  exact (List.prefix_iff_eq_take.mp (List.takeWhile_prefix p)).symm

theorem validateNumericToken_alike {t t' : Token} (h : t.Alike t') (base : ℕ) :
    (validateNumericToken t base).toOption = (validateNumericToken t' base).toOption := by
  simp [validateNumericToken, h.value]

/-- What is read of a text that is followed by another one. -/
structure Extends (more : Bytes) (read read' : Token × LexerState) : Prop where
  alike : read.1.Alike read'.1
  rest : read'.2.rest.bytes = read.2.rest.bytes ++ more

section Readers

variable {start start' : LexerState} {more : Bytes}
  (hrest : start'.rest.bytes = start.rest.bytes ++ more)
include hrest

theorem lexerAdvance_extends {n : ℕ} (hn : n ≤ start.rest.bytes.length) :
    (lexerAdvance n start').rest.bytes = (lexerAdvance n start).rest.bytes ++ more := by
  rw [lexerAdvance_rest, lexerAdvance_rest, hrest, List.drop_append_of_le_length hn]

/-- A scan of a text that ends in it, or at its end. -/
theorem scan_extends {p : Byte → Bool} (h : (scan p start).rest.bytes ≠ [] ∨
    ∀ character ∈ more.head?, p character = false) :
    (between start' (scan p start')).bytes = (between start (scan p start)).bytes ∧
      (scan p start').rest.bytes = (scan p start).rest.bytes ++ more := by
  rw [scan_rest] at h
  obtain ⟨htake, hdrop⟩ := scan_append h
  rw [between_scan, between_scan, scan_rest, scan_rest, hrest]
  exact ⟨htake, hdrop⟩

variable (hne : start.rest.bytes ≠ [])
include hne

theorem lexerNextChar_extends :
    (lexerNextChar start').rest.bytes = (lexerNextChar start).rest.bytes ++ more :=
  lexerAdvance_extends hrest (n := 1) (List.length_pos_iff.mpr hne)

theorem lexerPeekChar_extends : lexerPeekChar start' = lexerPeekChar start := by
  rw [lexerPeekChar, lexerPeekChar, hrest]
  cases hstart : start.rest.bytes with
  | nil => exact absurd hstart hne
  | cons character rest => rfl

/-- A token of one character. -/
theorem readOne_extends (type : TokenType) : Extends more
    (tokenAt start (lexerNextChar start) type (between start (lexerNextChar start)),
      lexerNextChar start)
    (tokenAt start' (lexerNextChar start') type (between start' (lexerNextChar start')),
      lexerNextChar start') := by
  have hpos := List.length_pos_iff.mpr hne
  have hpos' : 1 ≤ start'.rest.bytes.length := by
    rw [hrest, List.length_append]
    omega
  refine ⟨⟨rfl, CString.ext ?_⟩, lexerNextChar_extends hrest hne⟩
  show (between start (lexerAdvance 1 start)).bytes = (between start' (lexerAdvance 1 start')).bytes
  rw [between_advance hpos, between_advance hpos', hrest, List.take_append_of_le_length hpos]

theorem readMarked_extends {type : TokenType} {p : Byte → Bool}
    (h : (readMarked start type p).2.rest.bytes ≠ [] ∨
      ∀ character ∈ more.head?, p character = true) :
    Extends more (readMarked start type p) (readMarked start' type p) := by
  obtain ⟨hvalue, hlast⟩ := scan_extends (lexerNextChar_extends hrest hne)
    (p := fun character => !p character)
    (h.imp_right fun hmore character hmem => by simp [hmore character hmem])
  exact ⟨⟨rfl, CString.ext hvalue.symm⟩, hlast⟩

theorem readQuoted_extends {type : TokenType} {quote : Byte} {message : String}
    {read : Token × LexerState} (h : readQuoted start type quote message = .ok read) :
    ∃ read', readQuoted start' type quote message = .ok read' ∧ Extends more read read' := by
  simp only [readQuoted] at h ⊢
  split at h
  · cases h
  · rename_i hclosed
    obtain rfl := Except.ok.inj h
    have hquote : (scan (· != quote) (lexerNextChar start)).rest.bytes ≠ [] := fun hnil =>
      hclosed (CString.ext hnil)
    obtain ⟨hvalue, hlast⟩ := scan_extends (lexerNextChar_extends hrest hne) (.inl hquote)
    rw [if_neg fun heq => hquote (by
      rw [heq] at hlast
      exact (List.append_eq_nil_iff.mp hlast.symm).1)]
    exact ⟨_, rfl, ⟨rfl, CString.ext hvalue.symm⟩, lexerNextChar_extends hlast hquote⟩

theorem numberType_extends (hmore : ClosesWord more) : numberType start' = numberType start := by
  have hmark : start'.rest.bytes.getD 1 0 = start.rest.bytes.getD 1 0 ∨
      start.rest.bytes.getD 1 0 = 0 ∧ isWordEnd (start'.rest.bytes.getD 1 0) = true := by
    rw [hrest]
    cases hstart : start.rest.bytes with
    | nil => exact absurd hstart hne
    | cons character rest =>
        cases rest with
        | cons _ _ => exact .inl rfl
        | nil =>
            cases more with
            | nil => exact .inl rfl
            | cons character more => exact .inr ⟨rfl, hmore character rfl⟩
  have hplain : ∀ mark : Byte, isWordEnd mark = true → (mark == 0x78 || mark == 0x58) = false ∧
      (mark == 0x6F || mark == 0x4F) = false ∧ (mark == 0x62 || mark == 0x42) = false := by
    intro mark hend
    have hle := le_comma_of_isWordEnd hend
    have hne : ∀ letter : Byte, comma < letter → (mark == letter) = false := fun letter hlt =>
      beq_eq_false_iff_ne.mpr fun heq => absurd (heq ▸ hle) (UInt8.not_le.mpr hlt)
    simp only [hne 0x78 (by decide), hne 0x58 (by decide), hne 0x6F (by decide),
      hne 0x4F (by decide), hne 0x62 (by decide), hne 0x42 (by decide), Bool.or_self, and_self]
  unfold numberType
  rw [lexerPeekChar_extends hrest hne]
  rcases hmark with hmark | ⟨hzero, hend⟩
  · rw [hmark]
  · obtain ⟨hhex, hoct, hbin⟩ := hplain _ hend
    rw [hzero]
    by_cases hfirst : (lexerPeekChar start == 0x30) = true
    · simp only [if_pos hfirst, hhex, hoct, hbin]
      rfl
    · simp only [if_neg hfirst]

theorem readNumber_extends (hmore : ClosesWord more) :
    Lockstep (Extends more) (readNumber start) (readNumber start') := by
  unfold readNumber
  rw [numberType_extends hrest hne hmore]
  have hlong : (numberType start).2.2 = true → 2 ≤ start.rest.bytes.length := by
    intro hmarked
    by_contra hshort
    have hzero : start.rest.bytes.getD 1 0 = 0 := by
      rw [List.getD_eq_default _ _ (by omega)]
    rw [numberType, hzero, ite_self] at hmarked
    cases hmarked
  generalize numberType start = number at hlong ⊢
  obtain ⟨type, base, marked⟩ := number
  dsimp only at hlong ⊢
  have hfirst : (if marked = true then lexerAdvance 2 start' else start').rest.bytes
      = (if marked = true then lexerAdvance 2 start else start).rest.bytes ++ more := by
    split
    · exact lexerAdvance_extends hrest (hlong (by assumption))
    · exact hrest
  generalize (if marked = true then lexerAdvance 2 start' else start') = first' at hfirst ⊢
  generalize (if marked = true then lexerAdvance 2 start else start) = first at hfirst ⊢
  obtain ⟨hvalue, hlast⟩ := scan_extends hfirst (p := fun character => !isTokenEnd character)
    (.inr fun character hmem => by
      have hend := hmore character hmem
      rw [isWordEnd] at hend
      rw [isTokenEnd, hend]
      rfl)
  have hvalue := CString.ext hvalue
  generalize scan (fun character => !isTokenEnd character) first = last at hvalue hlast ⊢
  generalize scan (fun character => !isTokenEnd character) first' = last' at hvalue hlast ⊢
  have halike : ∀ value, Token.Alike { tokenAt start last type (between first last) with value }
      { tokenAt start' last' type (between first' last') with value } := fun _ => ⟨rfl, rfl⟩
  rw [hvalue] at halike ⊢
  exact (Lockstep.of_toOption_eq (validateNumericToken_alike (halike _) base)).bind fun _ _ _ =>
    (Lockstep.of_toOption_eq (tokenGetIntValue_alike (halike _))).bind fun _ _ _ =>
      .ok ⟨halike _, hlast⟩

theorem readWord_extends (hmore : ClosesWord more) {read : Token × LexerState}
    (h : readWord start = .ok read) :
    ∃ read', readWord start' = .ok read' ∧ Extends more read read' := by
  unfold readWord at h ⊢
  split at h
  · cases h
  · rename_i length hlength
    have hle := wordLength_le hlength
    have hpos := List.length_pos_iff.mpr hne
    have hadvance := lexerAdvance_extends hrest hle
    have hlast : start'.rest.bytes.getD (length - 1) 0 = start.rest.bytes.getD (length - 1) 0 := by
      rw [hrest, List.getD_append _ _ _ _ (by omega)]
    have htake : ∀ n ≤ length, start'.rest.take n = start.rest.take n := by
      intro n hn
      refine CString.ext ?_
      show start'.rest.bytes.take n = start.rest.bytes.take n
      rw [hrest, List.take_append_of_le_length (by omega)]
    rw [hrest, wordLength_append hmore hlength]
    dsimp only at h ⊢
    rw [← hrest, hlast, htake _ (Nat.sub_le _ _), htake _ (Nat.le_refl _)]
    split at h
    · rename_i hlabel
      obtain rfl := Except.ok.inj h
      rw [if_pos hlabel]
      exact ⟨_, rfl, ⟨rfl, rfl⟩, hadvance⟩
    · rename_i hlabel
      obtain rfl := Except.ok.inj h
      rw [if_neg hlabel]
      exact ⟨_, rfl, ⟨rfl, rfl⟩, hadvance⟩

end Readers

/-! ## One token -/

section Types

variable {start : LexerState} {read : Token × LexerState}

theorem readQuoted_type {type : TokenType} {quote : Byte} {message : String}
    (h : readQuoted start type quote message = .ok read) : read.1.type = type := by
  simp only [readQuoted] at h
  split at h
  · cases h
  · obtain rfl := Except.ok.inj h
    rfl

/-- A literal is rejected because it is not closed. -/
theorem readQuoted_code {type : TokenType} {quote : Byte} {message : String} {e : AsmFailure}
    (h : readQuoted start type quote message = .error e) : e.code = .unterminatedLiteral := by
  simp only [readQuoted] at h
  split at h
  · obtain rfl := Except.error.inj h
    rfl
  · cases h

theorem readWord_code {e : AsmFailure} (h : readWord start = .error e) :
    e.code = .unterminatedLiteral := by
  unfold readWord at h
  split at h
  · obtain rfl := Except.error.inj h
    rfl
  · dsimp only at h
    split at h <;> cases h

theorem endsLine_readNumber (h : readNumber start = .ok read) : endsLine read.1 = false := by
  have hnumber : ∀ type, type = (numberType start).1 →
      (type == .newline || type == .comment) = false := by
    rintro type rfl
    simp only [numberType]
    generalize (if lexerPeekChar start == 0x30 then start.rest.bytes.getD 1 0 else 0) = mark
    split
    · decide
    split
    · decide
    split <;> decide
  simp only [readNumber, bind_eq_ok] at h
  obtain ⟨-, -, -, -, h⟩ := h
  obtain rfl := Except.ok.inj h
  exact hnumber _ rfl

theorem endsLine_readWord (h : readWord start = .ok read) : endsLine read.1 = false := by
  unfold readWord at h
  split at h
  · cases h
  · dsimp only at h
    split at h
    · obtain rfl := Except.ok.inj h
      rfl
    · obtain rfl := Except.ok.inj h
      rfl

end Types

theorem type_ne_of_endsLine {token : Token} (h : endsLine token = false) :
    token.type ≠ .newline ∧ token.type ≠ .comment := by
  simpa [endsLine] using h

theorem dropWhile_append_dropWhile {p : Byte → Bool} (more : Bytes) : ∀ text : Bytes,
    (text.dropWhile p ++ more).dropWhile p = (text ++ more).dropWhile p
  | [] => rfl
  | character :: text => by
      cases hp : p character with
      | true =>
          rw [List.dropWhile_cons_of_pos hp, List.cons_append, List.dropWhile_cons_of_pos hp,
            dropWhile_append_dropWhile]
      | false => rw [List.dropWhile_cons_of_neg (by simp [hp])]

/-- The text behind a token when another text follows: a comment goes on. -/
def restAfter (token : Token) (rest more : Bytes) : Bytes :=
  if token.type = .comment then (rest ++ more).dropWhile (· != newline) else rest ++ more

/-- A token and the one read in its place when another text follows. -/
structure Follows (more : Bytes) (read read' : Token × LexerState) : Prop where
  same : read.1.Same read'.1
  rest : read'.2.rest.bytes = restAfter read.1 read.2.rest.bytes more
  closed : read.1.type = .comment →
    read.2.rest.bytes.dropWhile (· != newline) = read.2.rest.bytes

theorem Extends.follows {more : Bytes} {read read' : Token × LexerState}
    (h : Extends more read read') (htype : read.1.type ≠ .comment) : Follows more read read' :=
  ⟨⟨h.alike.type, fun _ => h.alike.value⟩, by rw [restAfter, if_neg htype, h.rest],
    fun hcomment => absurd hcomment htype⟩

/-- A comment goes on up to the next line break. -/
theorem readComment_follows {start start' : LexerState} {more : Bytes}
    (hrest : (lexerNextChar start').rest.bytes = (lexerNextChar start).rest.bytes ++ more) :
    Follows more (readMarked start .comment (· == newline))
      (readMarked start' .comment (· == newline)) := by
  have hlast : ∀ start : LexerState, (readMarked start .comment (· == newline)).2.rest.bytes
      = (lexerNextChar start).rest.bytes.dropWhile (· != newline) := fun _ => scan_rest _ _
  refine ⟨⟨rfl, fun hends => ?_⟩, ?_, fun _ => ?_⟩
  · cases hends
  · have htype : (readMarked start .comment (· == newline)).1.type = .comment := rfl
    rw [restAfter, if_pos htype, hlast, hlast, hrest, dropWhile_append_dropWhile]
  · rw [hlast]
    simpa using dropWhile_append_dropWhile (p := (· != newline)) [] (lexerNextChar start).rest.bytes

/-- Behind a token other than a last comment the text goes on. -/
theorem Follows.rest_eq {more : Bytes} {read read' : Token × LexerState}
    (h : Follows more read read') (hlast : ¬(read.1.type = .comment ∧ read.2.rest.bytes = [])) :
    read'.2.rest.bytes = read.2.rest.bytes ++ more := by
  rw [h.rest, restAfter]
  split
  · rename_i hcomment
    have hne : read.2.rest.bytes ≠ [] := fun hnil => hlast ⟨hcomment, hnil⟩
    rw [List.dropWhile_append, h.closed hcomment, if_neg (by simpa using hne)]
  · rfl

/-- What the lexer reads of a text and of it with another one behind it: of the first nothing, a
literal that is not closed, a number that is rejected in both, or a token. -/
inductive ReadFollowed (more : Bytes) : Except AsmFailure (Option (Token × LexerState)) →
    Except AsmFailure (Option (Token × LexerState)) → Prop
  | none (x' : Except AsmFailure (Option (Token × LexerState))) : ReadFollowed more (.ok none) x'
  | opened {e : AsmFailure} (code : e.code = .unterminatedLiteral)
      (x' : Except AsmFailure (Option (Token × LexerState))) : ReadFollowed more (.error e) x'
  | failed (e e' : AsmFailure) : ReadFollowed more (.error e) (.error e')
  | token {read read' : Token × LexerState} (follows : Follows more read read') :
      ReadFollowed more (.ok (some read)) (.ok (some read'))

theorem ReadFollowed.lift {more : Bytes} {x x' : Except AsmFailure (Token × LexerState)}
    (herror : ∀ {e}, x = .error e → e.code = .unterminatedLiteral)
    (hread : ∀ {read}, x = .ok read →
      read.1.type ≠ .comment ∧ ∃ read', x' = .ok read' ∧ Extends more read read') :
    ReadFollowed more (x.map some) (x'.map some) := by
  cases x with
  | error e => exact .opened (herror rfl) _
  | ok read =>
      obtain ⟨htype, read', rfl, hextends⟩ := hread rfl
      exact .token (hextends.follows htype)

theorem ReadFollowed.of_token {more : Bytes} {read : Token × LexerState}
    {x' : Except AsmFailure (Option (Token × LexerState))}
    (h : ReadFollowed more (.ok (some read)) x') :
    ∃ read', x' = .ok (some read') ∧ Follows more read read' := by
  cases h with
  | token follows => exact ⟨_, rfl, follows⟩

theorem ReadFollowed.of_error {more : Bytes} {e : AsmFailure}
    {x' : Except AsmFailure (Option (Token × LexerState))} (h : ReadFollowed more (.error e) x') :
    e.code = .unterminatedLiteral ∨ ∃ e', x' = .error e' := by
  cases h with
  | opened code => exact .inl code
  | failed _ e' => exact .inr ⟨e', rfl⟩

/-- **A token** of a text that is followed by another one. -/
theorem readFrom_followed {start start' : LexerState} {more : Bytes}
    (hstart : start'.rest.bytes = start.rest.bytes ++ more) (hne : start.rest.bytes ≠ [])
    (hmore : ClosesWord more) :
    ReadFollowed more ((readFrom start).map some) ((readFrom start').map some) := by
  have hmarked : ∀ {type : TokenType}, type ≠ .comment →
      ReadFollowed more (.ok (some (readMarked start type isWordEnd)))
        (.ok (some (readMarked start' type isWordEnd))) := fun htype =>
    .token ((readMarked_extends hstart hne (.inr hmore)).follows htype)
  unfold readFrom
  dsimp only
  rw [lexerPeekChar_extends hstart hne]
  generalize lexerPeekChar start = character
  by_cases hmark : (character == newline) = true
  · rw [if_pos hmark, if_pos hmark]
    exact .token ((readOne_extends hstart hne .newline).follows (by simp [tokenAt]))
  rw [if_neg hmark, if_neg hmark]
  by_cases hmark : (character == comma) = true
  · rw [if_pos hmark, if_pos hmark]
    exact .token ((readOne_extends hstart hne .comma).follows (by simp [tokenAt]))
  rw [if_neg hmark, if_neg hmark]
  by_cases hmark : (character == commentMark) = true
  · rw [if_pos hmark, if_pos hmark]
    exact .token (readComment_follows (lexerNextChar_extends hstart hne))
  rw [if_neg hmark, if_neg hmark]
  by_cases hmark : (character == labelUseMark) = true
  · rw [if_pos hmark, if_pos hmark]
    exact hmarked (by decide)
  rw [if_neg hmark, if_neg hmark]
  by_cases hmark : (character == registerMark) = true
  · rw [if_pos hmark, if_pos hmark]
    exact hmarked (by decide)
  rw [if_neg hmark, if_neg hmark]
  by_cases hmark : (character == directiveMark) = true
  · rw [if_pos hmark, if_pos hmark]
    exact hmarked (by decide)
  rw [if_neg hmark, if_neg hmark]
  by_cases hmark : (character == stringQuote) = true
  · rw [if_pos hmark, if_pos hmark]
    exact .lift readQuoted_code fun hread =>
      ⟨readQuoted_type hread ▸ by decide, readQuoted_extends hstart hne hread⟩
  rw [if_neg hmark, if_neg hmark]
  by_cases hmark : (character == charQuote) = true
  · rw [if_pos hmark, if_pos hmark]
    exact .lift readQuoted_code fun hread =>
      ⟨readQuoted_type hread ▸ by decide, readQuoted_extends hstart hne hread⟩
  rw [if_neg hmark, if_neg hmark]
  by_cases hmark : isDecChar character = true
  · rw [if_pos hmark, if_pos hmark]
    have hnumber := readNumber_extends hstart hne hmore
    cases hread : readNumber start with
    | error e =>
        rw [hread] at hnumber
        generalize readNumber start' = x' at hnumber ⊢
        cases hnumber with
        | error _ e' => exact .failed e e'
    | ok read =>
        obtain ⟨read', hread', hextends⟩ := hnumber.exists_of_ok hread
        rw [hread']
        exact .token (hextends.follows (type_ne_of_endsLine (endsLine_readNumber hread)).2)
  · rw [if_neg hmark, if_neg hmark]
    exact .lift readWord_code fun hread =>
      ⟨(type_ne_of_endsLine (endsLine_readWord hread)).2, readWord_extends hstart hne hmore hread⟩

theorem lexerReadToken_followed {state state' : LexerState} {more : Bytes}
    (hrest : state'.rest.bytes = state.rest.bytes ++ more) (hmore : ClosesWord more) :
    ReadFollowed more (lexerReadToken state) (lexerReadToken state') := by
  rw [lexerReadToken_eq, lexerReadToken_eq]
  by_cases heof : isEof (lexerPeekChar (scan isIgnoredChar state)) = true
  · rw [if_pos heof]
    exact .none _
  have hne := fun hnil => heof ((isEof_peek_iff state).mpr hnil)
  have hstart := (scan_extends hrest (.inl hne)).2
  rw [lexerPeekChar_extends hstart hne, if_neg heof, if_neg heof]
  exact readFrom_followed hstart hne hmore

/-! ## All tokens -/

/-- All tokens from a state on. -/
def lexRest (state : LexerState) : Except AsmFailure (List Token) :=
  lexerTokens (state.rest.bytes.length + 1) state

theorem lexSource_eq (source : CString) : lexSource source = lexRest (lexerInit source) := rfl

theorem lexRest_eq (state : LexerState) :
    lexRest state = lexerReadToken state >>= fun read => match read with
      | none => .ok []
      | some (token, last) => lexRest last >>= fun tokens => .ok (token :: tokens) := by
  rw [lexRest, lexerTokens]
  cases hread : lexerReadToken state with
  | error e => rfl
  | ok read =>
      cases read with
      | none => rfl
      | some read =>
          obtain ⟨token, last⟩ := read
          have hlt := lexerReadToken_lt hread
          simp only [ok_bind]
          rw [lexerTokens_eq _ (last.rest.bytes.length + 1) last (by omega) (by omega)]
          rfl

theorem lexRest_of_token {state next : LexerState} {token : Token}
    (h : lexerReadToken state = .ok (some (token, next))) :
    lexRest state = (lexRest next).map (token :: ·) := by
  rw [lexRest_eq, h, ok_bind]
  show lexRest next >>= _ = _
  cases lexRest next <;> rfl

/-- The last token is a comment. -/
def endsInComment (tokens : List Token) : Bool := tokens.getLast?.any (·.type == .comment)

/-- Where the text behind a list of tokens begins: at its first line break if they end in a
comment. -/
def restBehind (tokens : List Token) (more : Bytes) : Bytes :=
  if endsInComment tokens then more.dropWhile (· != newline) else more

/-- Where no token is left, the text is skipped. -/
theorem lexerReadToken_none_iff {state : LexerState} :
    lexerReadToken state = .ok none ↔ state.rest.bytes.dropWhile isIgnoredChar = [] := by
  rw [lexerReadToken_eq, ← scan_rest, ← isEof_peek_iff]
  split
  · rename_i heof
    exact iff_of_true rfl heof
  · rename_i heof
    refine iff_of_false (fun hread => ?_) heof
    obtain ⟨read, -, h⟩ := map_eq_ok.mp hread
    cases h

theorem lexRest_nil {state : LexerState} (h : lexRest state = .ok []) :
    state.rest.bytes.dropWhile isIgnoredChar = [] := by
  rw [lexRest_eq, bind_eq_ok] at h
  obtain ⟨read, hread, h⟩ := h
  cases read with
  | none => exact lexerReadToken_none_iff.mp hread
  | some read =>
      obtain ⟨token, last⟩ := read
      obtain ⟨tokens, -, h⟩ := bind_eq_ok.mp h
      cases h

theorem lexRest_of_nil {state : LexerState} (h : state.rest.bytes = []) : lexRest state = .ok [] := by
  have hread : lexerReadToken state = .ok none := lexerReadToken_none_iff.mpr (by rw [h]; rfl)
  rw [lexRest_eq, hread]
  rfl

/-- A text that begins with a line break is not skipped. -/
theorem eq_nil_of_closed {text : Bytes} (hclosed : text.dropWhile (· != newline) = text)
    (hskipped : text.dropWhile isIgnoredChar = []) : text = [] := by
  cases text with
  | nil => rfl
  | cons character rest =>
      have hhead := List.head?_dropWhile_not (· != newline) (character :: rest)
      rw [hclosed] at hhead
      have hnewline : character = newline := by simpa using hhead
      rw [List.dropWhile_cons_of_neg (by rw [hnewline]; decide)] at hskipped
      cases hskipped

theorem lexerAdvance_add (m n : ℕ) (state : LexerState) :
    lexerAdvance (m + n) state = lexerAdvance n (lexerAdvance m state) := by
  induction m generalizing state with
  | zero => rw [Nat.zero_add, lexerAdvance]
  | succ m ih => rw [Nat.succ_add, lexerAdvance, ih, lexerAdvance]

/-- Behind a text that is skipped the lexer reads on. -/
theorem lexRest_skip {state : LexerState} {text more : Bytes}
    (hrest : state.rest.bytes = text ++ more) (htext : text.dropWhile isIgnoredChar = []) :
    lexRest state = lexRest (lexerAdvance text.length state) := by
  have hall : text.takeWhile isIgnoredChar = text := by
    have hsplit := List.takeWhile_append_dropWhile (l := text) (p := isIgnoredChar)
    rw [htext, List.append_nil] at hsplit
    exact hsplit
  have hscan : scan isIgnoredChar state
      = scan isIgnoredChar (lexerAdvance text.length state) := by
    have hmore : (lexerAdvance text.length state).rest.bytes = more := by
      rw [lexerAdvance_rest, hrest, List.drop_left]
    rw [scan, scan, hmore, hrest, List.takeWhile_append, hall, if_pos rfl, List.length_append,
      lexerAdvance_add]
  have hread : lexerReadToken state = lexerReadToken (lexerAdvance text.length state) := by
    rw [lexerReadToken_eq, lexerReadToken_eq, hscan]
  rw [lexRest_eq, lexRest_eq, hread]

theorem endsInComment_cons {token : Token} {tokens : List Token} (h : tokens ≠ []) :
    endsInComment (token :: tokens) = endsInComment tokens := by
  rw [endsInComment, endsInComment, List.getLast?_cons_of_ne_nil h]

/-- **Two texts one after the other**, by the length of the first. -/
theorem lexRest_append {more : Bytes} (hmore : ClosesWord more) : ∀ (n : ℕ)
    (state state' : LexerState) {tokens : List Token}, state.rest.bytes.length < n →
      state'.rest.bytes = state.rest.bytes ++ more → lexRest state = .ok tokens →
        ∃ tokens' last, lexRest state' = (lexRest last).map (tokens' ++ ·) ∧
          TokensSame tokens tokens' ∧ last.rest.bytes = restBehind tokens more
  | 0, _, _, _, hlength, _, _ => absurd hlength (Nat.not_lt_zero _)
  | n + 1, state, state', tokens, hlength, hrest, h => by
      rw [lexRest_eq, bind_eq_ok] at h
      obtain ⟨read, hread, h⟩ := h
      cases read with
      | none =>
          obtain rfl := Except.ok.inj h
          refine ⟨[], lexerAdvance state.rest.bytes.length state', ?_, .nil, ?_⟩
          · rw [lexRest_skip hrest (lexerReadToken_none_iff.mp hread)]
            cases lexRest (lexerAdvance state.rest.bytes.length state') <;> rfl
          · rw [lexerAdvance_rest, hrest, List.drop_left]
            rfl
      | some read =>
          obtain ⟨token, next⟩ := read
          obtain ⟨rest, hnext, h⟩ := bind_eq_ok.mp h
          obtain rfl := Except.ok.inj h
          have hlt := lexerReadToken_lt hread
          have hfollowed := lexerReadToken_followed hrest hmore
          rw [hread] at hfollowed
          obtain ⟨⟨token', next'⟩, hread', hfollows⟩ := hfollowed.of_token
          have hcons := lexRest_of_token hread'
          by_cases hlast : token.type = .comment ∧ next.rest.bytes = []
          · -- the first text ends with a comment, which goes on in the second
            obtain ⟨hcomment, hnil⟩ := hlast
            obtain rfl := Except.ok.inj ((lexRest_of_nil hnil).symm.trans hnext)
            refine ⟨[token'], next', hcons, .cons hfollows.same .nil, ?_⟩
            rw [hfollows.rest, restAfter, if_pos hcomment, hnil, List.nil_append, restBehind,
              if_pos (by simp [endsInComment, hcomment])]
          · obtain ⟨tokens', last, htokens, hsame, hbehind⟩ := lexRest_append hmore n next next'
              (Nat.lt_of_lt_of_le hlt (Nat.le_of_lt_succ hlength)) (hfollows.rest_eq hlast) hnext
            refine ⟨token' :: tokens', last, ?_, .cons hfollows.same hsame, ?_⟩
            · rw [hcons, htokens]
              cases lexRest last <;> rfl
            · rw [hbehind, restBehind, restBehind]
              cases rest with
              | cons other rest => rw [endsInComment_cons (List.cons_ne_nil _ _)]
              | nil =>
                  have hplain : token.type ≠ .comment := fun hcomment => hlast
                    ⟨hcomment, eq_nil_of_closed (hfollows.closed hcomment) (lexRest_nil hnext)⟩
                  rw [if_neg (by simp [endsInComment]), if_neg (by simp [endsInComment, hplain])]

/-- What is rejected, but for a literal that is not closed, is rejected with a text behind it. -/
theorem lexRest_rejected {more : Bytes} (hmore : ClosesWord more) : ∀ (n : ℕ)
    (state state' : LexerState) {e : AsmFailure}, state.rest.bytes.length < n →
      state'.rest.bytes = state.rest.bytes ++ more → lexRest state = .error e →
        e.code ≠ .unterminatedLiteral → ∃ e', lexRest state' = .error e'
  | 0, _, _, _, hlength, _, _, _ => absurd hlength (Nat.not_lt_zero _)
  | n + 1, state, state', e, hlength, hrest, h, hcode => by
      have hfollowed := lexerReadToken_followed hrest hmore
      rw [lexRest_eq] at h ⊢
      cases hread : lexerReadToken state with
      | error failure =>
          rw [hread] at h hfollowed
          obtain rfl := Except.error.inj h
          obtain ⟨e', he'⟩ := hfollowed.of_error.resolve_left hcode
          exact ⟨e', by rw [he']; rfl⟩
      | ok read =>
          rw [hread, ok_bind] at h
          rw [hread] at hfollowed
          cases read with
          | none => cases h
          | some read =>
              obtain ⟨token, next⟩ := read
              have hlt := lexerReadToken_lt hread
              obtain ⟨⟨token', next'⟩, hread', hfollows⟩ := hfollowed.of_token
              have hnext : lexRest next = .error e := by
                change lexRest next >>= _ = _ at h
                cases hnext : lexRest next with
                | error failure =>
                    rw [hnext] at h
                    exact h
                | ok tokens =>
                    rw [hnext] at h
                    cases h
              have hlast : ¬(token.type = .comment ∧ next.rest.bytes = []) := fun hlast => by
                rw [lexRest_of_nil hlast.2] at hnext
                cases hnext
              obtain ⟨e', he'⟩ := lexRest_rejected hmore n next next'
                (Nat.lt_of_lt_of_le hlt (Nat.le_of_lt_succ hlength)) (hfollows.rest_eq hlast) hnext
                hcode
              refine ⟨e', ?_⟩
              rw [← lexRest_eq, lexRest_of_token hread', he']
              rfl

/-- Behind a comment the text goes on with its first line break. -/
theorem restBehind_of_closesLine {tokens : List Token} {more : Bytes} (h : ClosesLine more) :
    restBehind tokens more = more := by
  rw [restBehind]
  split
  · exact (takeWhile_eq_nil_of_head fun character hmem => by simp [h character hmem]).2
  · rfl

/-! ## Sources -/

section Sources

variable {source before : CString} {more : Bytes} {tokens : List Token}

/-- **A source that begins with another text.** -/
theorem lexSource_append (hsource : source.bytes = before.bytes ++ more) (hmore : ClosesWord more)
    (h : lexSource before = .ok tokens) :
    ∃ tokens' last, lexSource source = (lexRest last).map (tokens' ++ ·) ∧
      TokensSame tokens tokens' ∧ last.rest.bytes = restBehind tokens more :=
  lexRest_append hmore (before.bytes.length + 1) (lexerInit before) (lexerInit source)
    (Nat.lt_succ_self _) hsource h

/-- The tokens of one text at two places. -/
theorem lexRest_same {state : LexerState} (state' : LexerState)
    (hrest : state'.rest.bytes = state.rest.bytes) (h : lexRest state = .ok tokens) :
    ∃ tokens', lexRest state' = .ok tokens' ∧ TokensSame tokens tokens' := by
  obtain ⟨tokens', last, htokens, hsame, hlast⟩ := lexRest_append closesLine_nil.closesWord
    (state.rest.bytes.length + 1) state state' (Nat.lt_succ_self _)
    (by rw [hrest, List.append_nil]) h
  have hnil : last.rest.bytes = [] := by
    rw [hlast, restBehind]
    split <;> rfl
  rw [lexRest_of_nil hnil] at htokens
  exact ⟨tokens', by simpa [Except.map] using htokens, hsame⟩

/-- The text does not end within a literal. -/
def OutsideLiteral (text : CString) : Prop :=
  ∀ failure, lexSource text = .error failure → failure.code ≠ .unterminatedLiteral

theorem OutsideLiteral.lexSource (h : OutsideLiteral before)
    (hsource : source.bytes = before.bytes ++ more) (hmore : ClosesWord more)
    (hall : lexSource source = .ok tokens) : ∃ first, lexSource before = .ok first := by
  cases hbefore : Zlvm.lexSource before with
  | ok first => exact ⟨first, rfl⟩
  | error failure =>
      obtain ⟨failure', hfailure⟩ := lexRest_rejected hmore (before.bytes.length + 1)
        (lexerInit before) (lexerInit source) (Nat.lt_succ_self _) hsource hbefore
        (h failure hbefore)
      rw [lexSource_eq, hfailure] at hall
      cases hall

end Sources

/-! ## Comments and line breaks -/

section Blanks

variable {state : LexerState} {rest : Bytes}

theorem scan_none {p : Byte → Bool} (h : ∀ character ∈ state.rest.bytes.head?, p character = false) :
    scan p state = state := by
  rw [scan, (takeWhile_eq_nil_of_head h).1]
  rfl

/-- A line break is a token. -/
theorem lexRest_newline (hrest : state.rest.bytes = newline :: rest) :
    ∃ token next, lexRest state = (lexRest next).map (token :: ·) ∧ token.type = .newline ∧
      next.rest.bytes = rest := by
  have hscan : scan isIgnoredChar state = state := scan_none fun character hmem => by
    rw [hrest] at hmem
    obtain rfl := Option.some.inj hmem
    decide
  have hpeek : lexerPeekChar state = newline := by rw [lexerPeekChar, hrest]; rfl
  have hread : lexerReadToken state = .ok (some (tokenAt state (lexerNextChar state) .newline
      (between state (lexerNextChar state)), lexerNextChar state)) := by
    rw [lexerReadToken_eq, hscan, readFrom, hpeek]
    rfl
  refine ⟨_, _, lexRest_of_token hread, rfl, ?_⟩
  rw [lexerNextChar_rest, hrest]
  rfl

/-- The first token of a text that begins with a line break. -/
theorem type_of_closesLine (state : LexerState) (hclosed : ClosesLine state.rest.bytes)
    {tokens : List Token} (h : lexRest state = .ok tokens) : ∀ token ∈ tokens.head?, token.type = .newline := by
  cases hrest : state.rest.bytes with
  | nil =>
      obtain rfl := Except.ok.inj ((lexRest_of_nil hrest).symm.trans h)
      intro token hmem
      cases hmem
  | cons character rest =>
      obtain rfl := hclosed character (by rw [hrest]; rfl)
      obtain ⟨first, next, hread, htype, -⟩ := lexRest_newline hrest
      rw [h] at hread
      obtain ⟨tail, -, rfl⟩ := map_eq_ok.mp hread.symm
      intro token hmem
      obtain rfl := Option.some.inj hmem
      exact htype

/-- A comment up to a line break is a token. -/
theorem lexRest_comment {text : Bytes} (hrest : state.rest.bytes = commentMark :: (text ++ rest))
    (htext : newline ∉ text) (hclosed : ClosesLine rest) :
    ∃ token next, lexRest state = (lexRest next).map (token :: ·) ∧ token.type = .comment ∧
      next.rest.bytes = rest := by
  have hscan : scan isIgnoredChar state = state := scan_none fun character hmem => by
    rw [hrest] at hmem
    obtain rfl := Option.some.inj hmem
    decide
  have hpeek : lexerPeekChar state = commentMark := by rw [lexerPeekChar, hrest]; rfl
  have hread : lexerReadToken state = .ok (some (readMarked state .comment (· == newline))) := by
    rw [lexerReadToken_eq, hscan, readFrom, hpeek]
    rfl
  refine ⟨_, _, lexRest_of_token hread, rfl, ?_⟩
  have htext : text.dropWhile (· != newline) = [] := List.dropWhile_eq_nil_iff.mpr
    fun character hmem => bne_iff_ne.mpr fun heq => htext (heq ▸ hmem)
  show (scan (· != newline) (lexerNextChar state)).rest.bytes = rest
  rw [scan_rest, lexerNextChar_rest, hrest, List.drop_one, List.tail_cons, List.dropWhile_append,
    htext, List.isEmpty_nil, if_pos rfl]
  exact (takeWhile_eq_nil_of_head fun character hmem => by simp [hclosed character hmem]).2

/-- A comment has no line break in it, and a line break is not empty. -/
theorem readFrom_blank (hne : state.rest.bytes ≠ []) {read : Token × LexerState}
    (h : readFrom state = .ok read) : (read.1.type = .comment → newline ∉ read.1.value.bytes) ∧
      (read.1.type = .newline → read.1.value.bytes ≠ []) := by
  have hplain : endsLine read.1 = false → (read.1.type = .comment → newline ∉ read.1.value.bytes) ∧
      (read.1.type = .newline → read.1.value.bytes ≠ []) := fun hends =>
    ⟨fun hcomment => absurd hcomment (type_ne_of_endsLine hends).2,
      fun hnewline => absurd hnewline (type_ne_of_endsLine hends).1⟩
  unfold readFrom at h
  dsimp only at h
  generalize lexerPeekChar state = character at h
  split at h
  · cases h
    refine ⟨fun hcomment => absurd hcomment (by simp [tokenAt]), fun _ => ?_⟩
    show (between state (lexerAdvance 1 state)).bytes ≠ []
    rw [between_advance (List.length_pos_iff.mpr hne)]
    simpa using hne
  split at h
  · cases h
    exact hplain rfl
  split at h
  · cases h
    refine ⟨fun _ => ?_, fun hnewline => absurd hnewline (by simp [readMarked, tokenAt])⟩
    show newline ∉ (between (lexerNextChar state) (scan (· != newline) (lexerNextChar state))).bytes
    rw [between_scan]
    exact fun hmem => absurd (List.mem_takeWhile_imp hmem) (by decide)
  split at h
  · cases h
    exact hplain rfl
  split at h
  · cases h
    exact hplain rfl
  split at h
  · cases h
    exact hplain rfl
  split at h
  · exact hplain (by rw [endsLine, readQuoted_type h]; rfl)
  split at h
  · exact hplain (by rw [endsLine, readQuoted_type h]; rfl)
  split at h
  · exact hplain (endsLine_readNumber h)
  · exact hplain (endsLine_readWord h)

theorem lexerReadToken_blank {token : Token} {next : LexerState}
    (h : lexerReadToken state = .ok (some (token, next))) :
    (token.type = .comment → newline ∉ token.value.bytes) ∧
      (token.type = .newline → token.value.bytes ≠ []) := by
  rw [lexerReadToken_eq] at h
  split at h
  · cases h
  · rename_i heof
    obtain ⟨read, hread, hsome⟩ := map_eq_ok.mp h
    obtain rfl := Option.some.inj hsome
    exact readFrom_blank (fun hnil => heof ((isEof_peek_iff state).mpr hnil)) hread

end Blanks

end Zlvm
