import Zlvm.Asm.Memory
import Zlvm.Asm.NamedArguments
import Zlvm.Asm.Numbers
import Zlvm.Core.Codec

/-!
# Which phase reports which code

The assembler has 23 diagnostic codes.  The lexer reads every number that it makes a token of, so a
number that cannot be read never reaches the phases behind it; the parser and
`validate_directive` see to it that these phases look at no other token for a number.

* `Token.Readable` — a token that, if it is an integer, has a value; `macrosExpand_codes` — an
  expansion puts out no other.
* `lexerCodes`, …, `translationCodes` — the codes of each phase.
* `AsmPhase`, `StopsAt` — the phases of `assemble_source`, and the one at which it stops.
* **`assembly_diagnosed`** — a failure has a code of the phase that reports it.
-/

namespace Zlvm

open Loop

/-! ## Codes -/

/-- A failure with one of the codes. -/
def AsmFailure.Coded (codes : List ZlasmDiagnosticCode) (failure : AsmFailure) : Prop :=
  failure.code ∈ codes

section Coded

variable {codes : List ZlasmDiagnosticCode} {code : ZlasmDiagnosticCode} {message : String}

@[simp] theorem coded_asmFail : (asmFail code message).Coded codes ↔ code ∈ codes := Iff.rfl

@[simp] theorem coded_asmTokenFail {token : Token} :
    (asmTokenFail code message token).Coded codes ↔ code ∈ codes := Iff.rfl

@[simp] theorem coded_asmOptionalTokenFail {token : Option Token} :
    (asmOptionalTokenFail code message token).Coded codes ↔ code ∈ codes := by
  cases token with
  | none => exact Iff.rfl
  | some token => exact Iff.rfl

/-- A computation with fewer codes. -/
theorem failsWith_coded_mono {β : Type} {x : Except AsmFailure β}
    {codes' : List ZlasmDiagnosticCode} (h : FailsWith (AsmFailure.Coded codes) x)
    (hsub : codes ⊆ codes') : FailsWith (AsmFailure.Coded codes') x :=
  fun failure hfailure => hsub (h failure hfailure)

theorem ensures_coded_mono {β : Type} {Q : β → Prop} {x : Except AsmFailure β}
    {codes' : List ZlasmDiagnosticCode} (h : Ensures x Q (AsmFailure.Coded codes))
    (hsub : codes ⊆ codes') : Ensures x Q (AsmFailure.Coded codes') :=
  h.mono (fun _ ha => ha) fun _ hfailure => hsub hfailure

end Coded

/-- What the lexer reports. -/
def lexerCodes : List ZlasmDiagnosticCode :=
  [.unterminatedLiteral, .malformedNumber, .numberOverflow]

/-- What `macros_expand` reports; a named argument goes through the lexer again. -/
def macroCodes : List ZlasmDiagnosticCode :=
  [.macroInvalidArgument, .macroDuplicateDefinition, .macroUndefined, .macroRecursion] ++ lexerCodes

/-- What the parser reports. -/
def parserCodes : List ZlasmDiagnosticCode := [.unexpectedToken, .unknownDirective]

/-- What `asm_processDirectives` reports. -/
def directiveCodes : List ZlasmDiagnosticCode :=
  [.invalidDirective, .malformedLiteral, .valueOutOfRange, .outputTooLarge, .sectionError]

@[simp] theorem mem_directiveCodes {code : ZlasmDiagnosticCode} : code ∈ directiveCodes ↔
    code = .invalidDirective ∨ code = .malformedLiteral ∨ code = .valueOutOfRange ∨
      code = .outputTooLarge ∨ code = .sectionError := by
  simp [directiveCodes]

/-- What `asm_processLabels` reports. -/
def labelCodes : List ZlasmDiagnosticCode := [.sectionError]

/-- What the translation of one statement reports. -/
def statementCodes : List ZlasmDiagnosticCode :=
  [.unknownOpcode, .invalidOperands, .unknownCondition, .unknownRegister, .unknownLabel,
   .malformedLiteral, .valueOutOfRange]

@[simp] theorem mem_statementCodes {code : ZlasmDiagnosticCode} : code ∈ statementCodes ↔
    code = .unknownOpcode ∨ code = .invalidOperands ∨ code = .unknownCondition ∨
      code = .unknownRegister ∨ code = .unknownLabel ∨ code = .malformedLiteral ∨
        code = .valueOutOfRange := by
  simp [statementCodes]

/-- What `asm_translate` and `asm_translate_object` report. -/
def translationCodes (object : Bool) : List ZlasmDiagnosticCode :=
  statementCodes ++ if object then [.sectionError] else [.outputTooLarge]

/-! ## Numbers -/

/-- A token that, if it is an integer, has a value. -/
def Token.Readable (token : Token) : Prop :=
  token.type.base.isSome → ∃ value, tokenGetIntValue token = .ok value

/-- Every token is readable. -/
def TokensReadable (tokens : List Token) : Prop := ∀ token ∈ tokens, token.Readable

@[simp] theorem tokensReadable_nil : TokensReadable [] := fun _ h => absurd h List.not_mem_nil

@[simp] theorem tokensReadable_cons {token : Token} {tokens : List Token} :
    TokensReadable (token :: tokens) ↔ token.Readable ∧ TokensReadable tokens :=
  List.forall_mem_cons

theorem TokensReadable.subset {a b : List Token} (h : TokensReadable b) (hsub : a ⊆ b) :
    TokensReadable a :=
  fun token htoken => h token (hsub htoken)

section Readable

variable {token : Token}

theorem readable_of_base (h : token.type.base = none) : token.Readable := by
  intro hbase
  rw [h] at hbase
  cases hbase

/-- The value of a token does not depend on where it lies. -/
theorem Token.Readable.moved {token' : Token} (h : token.Readable) (htype : token'.type = token.type)
    (hvalue : token'.value = token.value) : token'.Readable := by
  intro hbase
  rw [htype] at hbase
  obtain ⟨value, hget⟩ := h hbase
  obtain ⟨⟨base, digits, hnumber, hdigits⟩, hle⟩ := literal_of_tokenGetIntValue hget
  have hliteral : Literal token' value := by
    refine ⟨base, digits, ⟨?_, hnumber.isBase, ?_, hnumber.small, hnumber.ne_nil⟩, hdigits⟩
    · rw [htype, hnumber.base_eq]
    · rw [hvalue]
      exact hnumber.isDigit
  exact ⟨value, by rw [hliteral.tokenGetIntValue_eq, if_pos hle]⟩

theorem tokenGetIntValue_codes (token : Token) :
    FailsWith (AsmFailure.Coded lexerCodes) (tokenGetIntValue token) := by
  unfold tokenGetIntValue
  split
  · simp [lexerCodes]
  · simp only [failsWith_bind, failsWith_require, coded_asmTokenFail]
    refine ⟨fun _ => by decide, fun _ _ => FailsWith.foldlM fun character _ value => ?_⟩
    unfold addDigit
    split <;> simp [lexerCodes]

/-- **The value of a readable integer** is not missing. -/
theorem Token.Readable.failsWith {E : AsmFailure → Prop} (h : token.Readable)
    (hbase : token.type.base.isSome) : FailsWith E (tokenGetIntValue token) := by
  obtain ⟨value, hvalue⟩ := h hbase
  rw [hvalue]
  exact failsWith_ok _

end Readable

/-! ## The lexer -/

section Lexer

variable {start state : LexerState} {type : TokenType}

/-- What the lexer ensures of one token. -/
def ReadsReadable (x : Except AsmFailure (Token × LexerState)) : Prop :=
  Ensures x (fun read => read.1.Readable) (AsmFailure.Coded lexerCodes)

theorem readNumber_codes (start : LexerState) : ReadsReadable (readNumber start) := by
  unfold readNumber
  dsimp only
  generalize tokenAt start _ _ _ = token
  refine FailsWith.ensures ?_ fun read hread => ?_
  · simp only [failsWith_bind, validateNumericToken, failsWith_require, coded_asmTokenFail]
    refine ⟨⟨fun _ => by decide, fun _ _ _ => by decide⟩, fun _ _ => ?_⟩
    exact ⟨tokenGetIntValue_codes _, fun _ _ => failsWith_ok _⟩
  · simp only [bind_eq_ok] at hread
    obtain ⟨-, -, value, hvalue, hread⟩ := hread
    obtain rfl := Except.ok.inj hread
    exact fun _ => ⟨value, hvalue⟩

theorem readFrom_codes (start : LexerState) : ReadsReadable (readFrom start) := by
  have hplain : ∀ {type} (value : CString) (last : LexerState), type.base = none →
      (tokenAt start last type value).Readable := fun _ _ h => readable_of_base h
  have hquoted : ∀ {type} (quote : Byte) (message : String), type.base = none →
      ReadsReadable (readQuoted start type quote message) := by
    intro type quote message h
    simp only [readQuoted, ReadsReadable]
    split
    · exact coded_asmTokenFail.mpr (by decide)
    · exact hplain _ _ h
  unfold readFrom
  dsimp only
  split
  · exact hplain _ _ rfl
  split
  · exact hplain _ _ rfl
  iterate 4
    split
    · exact hplain _ _ rfl
  split
  · exact hquoted _ _ rfl
  split
  · exact hquoted _ _ rfl
  split
  · exact readNumber_codes start
  · unfold readWord
    split
    · exact coded_asmTokenFail.mpr (by decide)
    · dsimp only
      split
      · exact hplain _ _ rfl
      · exact hplain _ _ rfl

/-- **One token of a text.** -/
theorem lexerReadToken_codes (state : LexerState) :
    Ensures (lexerReadToken state) (fun read => ∀ token ∈ read, token.1.Readable)
      (AsmFailure.Coded lexerCodes) := by
  rw [lexerReadToken_eq]
  split
  · intro token htoken
    cases htoken
  · refine Ensures.map (readFrom_codes _) fun read hread token htoken => ?_
    obtain rfl := Option.some.inj htoken
    exact hread

theorem lexerTokens_codes : ∀ (fuel : ℕ) (state : LexerState),
    Ensures (lexerTokens fuel state) TokensReadable (AsmFailure.Coded lexerCodes)
  | 0, _ => tokensReadable_nil
  | fuel + 1, state => by
      rw [lexerTokens]
      refine (lexerReadToken_codes state).bind fun read hread => ?_
      cases read with
      | none => exact tokensReadable_nil
      | some read =>
          refine (lexerTokens_codes fuel read.2).bind fun tokens htokens => ?_
          exact tokensReadable_cons.mpr ⟨hread read rfl, htokens⟩

/-- **The tokens of a source** have values where they are integers. -/
theorem lexSource_codes (source : CString) :
    Ensures (lexSource source) TokensReadable (AsmFailure.Coded lexerCodes) :=
  lexerTokens_codes _ _

end Lexer

/-! ## Macros -/

section Macros

variable {macros : List Macro}

theorem cloneToken_readable {token : Token} (h : token.Readable) (location : Option Token) :
    (cloneToken token location).Readable := by
  cases location with
  | none => exact h
  | some t => exact h.moved rfl rfl

theorem substitute_readable (m : Macro) {values : List Token} {token : Token}
    (hvalues : TokensReadable values) (htoken : token.Readable) (invocation : Token) :
    (substitute m values invocation token).Readable := by
  unfold substitute
  dsimp only
  split
  · exact cloneToken_readable htoken _
  · rename_i value hvalue
    split
    · exact readable_of_base rfl
    · exact cloneToken_readable (hvalues value (List.mem_of_getElem? hvalue)) _

theorem namedArgumentValue_codes (value : CString) (invocation : Token) :
    Ensures (namedArgumentValue value invocation) Token.Readable
      (AsmFailure.Coded macroCodes) := by
  have hread : ∀ state, Ensures (lexerReadToken state) (fun read => ∀ token ∈ read, token.1.Readable)
      (AsmFailure.Coded macroCodes) := fun state =>
    ensures_coded_mono (lexerReadToken_codes state) (List.subset_append_right _ _)
  unfold namedArgumentValue
  refine (hread _).bind fun read htoken => ?_
  cases read with
  | none => exact coded_asmTokenFail.mpr (by decide)
  | some read =>
      refine (hread read.2).bind fun behind _ => ?_
      cases behind with
      | none => exact cloneToken_readable (htoken read rfl) _
      | some _ => exact coded_asmTokenFail.mpr (by decide)

/-- One argument. -/
theorem readArgument_codes (m : Macro) (invocation : Token) {state : ArgumentState}
    {argument : Token} (hargument : argument.Readable)
    (hstate : ∀ token, some token ∈ state.arguments → token.Readable) :
    Ensures (readArgument m invocation state argument)
      (fun state => ∀ token, some token ∈ state.arguments → token.Readable)
      (AsmFailure.Coded macroCodes) := by
  have hset : ∀ {i value}, Token.Readable value →
      ∀ token, some token ∈ state.arguments.set i (some value) → token.Readable := by
    intro i value hvalue token htoken
    rcases List.mem_or_eq_of_mem_set htoken with htoken | htoken
    · exact hstate token htoken
    · exact Option.some.inj htoken ▸ hvalue
  rw [readArgument]
  split
  · refine Ensures.require_bind (fun _ => coded_asmTokenFail.mpr (by decide)) fun _ => ?_
    refine Ensures.require_bind (fun _ => coded_asmTokenFail.mpr (by decide)) fun _ => ?_
    exact (namedArgumentValue_codes _ _).bind fun token htoken => hset htoken
  · exact Ensures.require_bind (fun _ => coded_asmTokenFail.mpr (by decide))
      fun _ => hset hargument

/-- **The values of the parameters** of an invocation. -/
theorem readArguments_codes (m : Macro) {tokens : List Token} (htokens : TokensReadable tokens)
    (invocation : Token) :
    Ensures (readArguments m tokens invocation) TokensReadable (AsmFailure.Coded macroCodes) := by
  have hsub : argumentTokens tokens ⊆ tokens := fun token htoken =>
    (List.takeWhile_sublist _).subset (List.mem_of_mem_filter htoken)
  have hfold := Ensures.foldlM (l := argumentTokens tokens) (b := argumentInit m)
    (f := readArgument m invocation) (E := AsmFailure.Coded macroCodes)
    (fun _ state => ∀ token, some token ∈ state.arguments → token.Readable)
    (fun token htoken => absurd (List.eq_of_mem_replicate htoken) (Option.some_ne_none token))
    fun done argument rest state hsplit hstate =>
      readArgument_codes m invocation (htokens _ (hsub (hsplit ▸ by simp))) hstate
  refine FailsWith.ensures ?_ fun values hvalues => ?_
  · rw [readArguments, failsWith_bind]
    refine ⟨hfold.failsWith, fun state _ => FailsWith.mapM fun argument _ => ?_⟩
    split
    · exact failsWith_ok _
    · exact failsWith_error.mpr (coded_asmTokenFail.mpr (by decide))
  · obtain ⟨state, hstate, harguments⟩ := readArguments_eq_ok.mp hvalues
    intro token htoken
    exact hfold.of_eq_ok hstate token (harguments ▸ List.mem_map_of_mem htoken)

/-- The bodies of the macros are readable. -/
def BodiesReadable (macros : List Macro) : Prop := ∀ m ∈ macros, TokensReadable m.body

/-- What `expand_macro` ensures of every macro. -/
def ExpandsReadable (macros : List Macro) (room : ℕ) (stack : List Macro) : Prop :=
  ∀ m ∈ macros, ∀ arguments invocation, TokensReadable arguments →
    Ensures (expandMacro macros room stack m arguments invocation) TokensReadable
      (AsmFailure.Coded macroCodes)

/-- The loop of `expand_range`, by induction on the number of tokens. -/
theorem ExpandsReadable.expandAll {room : ℕ} {stack : List Macro}
    (hexpand : ExpandsReadable macros room stack) (location : Option Token) :
    ∀ (n : ℕ) {isLineStart : Bool} {tokens : List Token}, tokens.length ≤ n →
      TokensReadable tokens →
        Ensures (expandAll (expandMacro macros room stack) macros location isLineStart tokens)
          TokensReadable (AsmFailure.Coded macroCodes)
  | _, _, [], _, _ => tokensReadable_nil
  | n + 1, isLineStart, token :: rest, hlen, htokens => by
      rw [List.length_cons, Nat.add_le_add_iff_right] at hlen
      obtain ⟨htoken, hrest⟩ := tokensReadable_cons.mp htokens
      cases atToken macros isLineStart token with
      | definition hdefinition =>
          rw [expandAll_definition hdefinition]
          exact hexpand.expandAll location n
            (Nat.le_trans (skipMacroDefinition_length_lt hdefinition) hlen)
            (htokens.subset (skipMacroDefinition_subset _))
      | undefined ordinary start id missing explicit =>
          subst start
          rw [expandAll_undefined ordinary id missing explicit]
          exact coded_asmTokenFail.mpr (by decide)
      | copied ordinary plain =>
          rw [expandAll_copied ordinary plain]
          refine (hexpand.expandAll location n hlen hrest).bind fun expanded hexpanded => ?_
          exact tokensReadable_cons.mpr ⟨cloneToken_readable htoken _, hexpanded⟩
      | invocation ordinary start id found =>
          subst start
          rw [expandAll_invocation ordinary id found]
          refine (hexpand _ (List.mem_of_find?_eq_some found) _ token
            (hrest.subset (lineTokens_subset rest))).bind fun expansion hexpansion => ?_
          refine (hexpand.expandAll location n (Nat.le_trans (nextLine_length_le rest) hlen)
            (hrest.subset (nextLine_subset rest))).bind fun later hlater => ?_
          exact List.forall_mem_append.mpr ⟨hexpansion, hlater⟩

/-- **An expansion**, by induction on the room for nested macros. -/
theorem expandsReadable (hbodies : BodiesReadable macros) : ∀ (room : ℕ) (stack : List Macro),
    ExpandsReadable macros room stack
  | 0, stack => by
      intro m _ arguments invocation _
      rw [expandMacro_zero]
      exact Ensures.require_bind (fun _ => coded_asmTokenFail.mpr (by decide))
        fun _ => coded_asmTokenFail.mpr (by decide)
  | room + 1, stack => by
      intro m hm arguments invocation harguments
      rw [expandMacro_succ]
      refine Ensures.require_bind (fun _ => coded_asmTokenFail.mpr (by decide)) fun _ => ?_
      refine (readArguments_codes m harguments invocation).bind fun values hvalues => ?_
      refine (expandsReadable hbodies room (m :: stack)).expandAll _ _ (Nat.le_refl _) ?_
      exact List.forall_mem_map.mpr fun token htoken =>
        substitute_readable m hvalues (hbodies m hm token htoken) invocation

theorem captureMacro_codes {definition : Token} {rest : List Token} (h : TokensReadable rest) :
    Ensures (captureMacro macros definition rest)
      (fun captured => TokensReadable captured.1.body ∧ TokensReadable captured.2)
      (AsmFailure.Coded macroCodes) := by
  have hparameters : ∀ arguments,
      FailsWith (AsmFailure.Coded macroCodes) (readParameters arguments) := fun arguments =>
    FailsWith.foldlM fun parameter _ parameters => by simp [addParameter, macroCodes]
  refine FailsWith.ensures ?_ fun captured hcaptured => ⟨?_, h.subset (captureMacro_subset hcaptured)⟩
  · unfold captureMacro
    split
    · exact failsWith_error.mpr (coded_asmTokenFail.mpr (by decide))
    · simp only [failsWith_bind, failsWith_require, coded_asmTokenFail]
      refine ⟨fun _ => by decide, fun _ _ => ⟨fun _ => by decide, fun _ _ =>
        ⟨hparameters _, fun parameters _ => ?_⟩⟩⟩
      split
      · exact failsWith_error.mpr (coded_asmTokenFail.mpr (by decide))
      · simp only [failsWith_bind, failsWith_require, coded_asmTokenFail]
        refine ⟨fun _ => by decide, fun _ _ => ?_⟩
        split
        · exact failsWith_error.mpr (coded_asmTokenFail.mpr (by decide))
        · exact failsWith_ok _
  · unfold captureMacro at hcaptured
    split at hcaptured
    · cases hcaptured
    · simp only [bind_eq_ok] at hcaptured
      obtain ⟨-, -, -, -, parameters, -, hcaptured⟩ := hcaptured
      split at hcaptured
      · cases hcaptured
      · simp only [bind_eq_ok] at hcaptured
        obtain ⟨-, -, hcaptured⟩ := hcaptured
        split at hcaptured
        · cases hcaptured
        · obtain rfl := Except.ok.inj hcaptured
          exact h.subset fun token htoken =>
            nextLine_subset rest ((List.takeWhile_sublist _).subset htoken)

theorem captureMacros_codes : ∀ (fuel : ℕ) {macros : List Macro} {tokens : List Token},
    BodiesReadable macros → TokensReadable tokens →
      Ensures (captureMacros fuel macros tokens) BodiesReadable (AsmFailure.Coded macroCodes)
  | 0, _, _, hmacros, _ => hmacros
  | _ + 1, _, [], hmacros, _ => hmacros
  | fuel + 1, macros, token :: rest, hmacros, h => by
      obtain ⟨-, hrest⟩ := tokensReadable_cons.mp h
      rw [captureMacros]
      split
      · refine (captureMacro_codes hrest).bind fun captured hcaptured => ?_
        exact captureMacros_codes fuel (List.forall_mem_cons.mpr ⟨hcaptured.1, hmacros⟩) hcaptured.2
      · split
        · exact coded_asmTokenFail.mpr (by decide)
        · exact captureMacros_codes fuel hmacros hrest

/-- **An expansion of readable tokens** is made of readable tokens. -/
theorem macrosExpand_codes {tokens : List Token} (h : TokensReadable tokens) :
    Ensures (macrosExpand tokens) TokensReadable (AsmFailure.Coded macroCodes) := by
  rw [macrosExpand_eq]
  refine (captureMacros_codes _ (fun m hm => absurd hm List.not_mem_nil) h).bind
    fun macros hmacros => ?_
  exact (expandsReadable hmacros 64 []).expandAll none _ (Nat.le_refl _) h

end Macros

/-! ## The parser -/

/-- The immediate of the statement is a label or a literal, and has a value. -/
def Statement.Readable (statement : Statement) : Prop :=
  ∀ token, statement.imm = some token → isImmediate token = true ∧ token.Readable

/-- What the parser sees to in a line. -/
def LineBody.Readable : LineBody → Prop
  | .stmt statement => statement.Readable
  | .dir directive => TokensReadable directive.argv

theorem readIf_some {p : Token → Bool} {tokens : List Token} {token : Token}
    (h : (readIf p tokens).1 = some token) : p token = true ∧ token ∈ tokens := by
  cases tokens with
  | nil => cases h
  | cons first rest =>
      rw [readIf] at h
      split at h
      · rename_i hp
        obtain rfl := Option.some.inj h
        exact ⟨hp, List.mem_cons_self⟩
      · cases h

theorem readIf_subset (p : Token → Bool) (tokens : List Token) : (readIf p tokens).2 ⊆ tokens :=
  fun _ h => readIf_append p tokens ▸ List.mem_append_right _ h

theorem parserReadStatement_codes (opcode : Token) {tokens : List Token} (h : TokensReadable tokens) :
    Ensures (parserReadStatement opcode tokens) Statement.Readable
      (AsmFailure.Coded parserCodes) := by
  have hregister : ∀ (c : Bool) (tokens : List Token), (if c then readIf (·.type == .register) tokens
      else (none, tokens)).2 ⊆ tokens := by
    intro c tokens
    cases c with
    | true => exact readIf_subset _ _
    | false => exact fun _ h => h
  unfold parserReadStatement
  dsimp only
  split
  · intro token himm
    obtain ⟨himmediate, hmem⟩ := readIf_some himm
    exact ⟨himmediate, h token (readIf_subset _ _ (readIf_subset _ _ (hregister _ _ hmem)))⟩
  · exact coded_asmTokenFail.mpr (by decide)

theorem parserReadBody_codes {tokens : List Token} (h : TokensReadable tokens) :
    Ensures (parserReadBody tokens) LineBody.Readable (AsmFailure.Coded parserCodes) := by
  unfold parserReadBody
  split
  · exact coded_asmFail.mpr (by decide)
  · rename_i current tokens
    obtain ⟨-, htokens⟩ := tokensReadable_cons.mp h
    split
    · exact (parserReadStatement_codes current htokens).map fun statement => id
    · refine Ensures.map (Q := fun directive => directive.argv = tokens) ?_ ?_
      · unfold parserReadDirective
        split
        · rfl
        · exact coded_asmTokenFail.mpr (by decide)
      · rintro directive rfl
        exact htokens
    · exact coded_asmTokenFail.mpr (by decide)

theorem parserReadLine_codes {tokens : List Token} (h : TokensReadable tokens) :
    Ensures (parserReadLine tokens) (fun line => line.body.Readable)
      (AsmFailure.Coded parserCodes) := by
  have hrest := h.subset (readIf_subset (·.type == .labelInit) tokens)
  unfold parserReadLine
  generalize readIf (·.type == .labelInit) tokens = read at hrest ⊢
  obtain ⟨label, rest⟩ := read
  cases label with
  | none => exact (parserReadBody_codes hrest).map fun body => id
  | some label =>
      refine Ensures.require_bind (fun _ => coded_asmTokenFail.mpr (by decide)) fun _ => ?_
      exact (parserReadBody_codes hrest).bind fun body hbody => hbody

theorem parserLines_codes : ∀ (fuel : ℕ) {tokens : List Token}, TokensReadable tokens →
    Ensures (parserLines fuel tokens) (fun lines => ∀ line ∈ lines, line.body.Readable)
      (AsmFailure.Coded parserCodes)
  | 0, _, _ => fun _ h => absurd h List.not_mem_nil
  | fuel + 1, tokens, h => by
      rw [parserLines]
      split
      · exact fun _ h => absurd h List.not_mem_nil
      · rename_i line rest hline
        obtain ⟨hsub, hrest⟩ := parserGetLine_subset hline
        refine (parserReadLine_codes (h.subset hsub)).bind fun line hline => ?_
        refine (parserLines_codes fuel (h.subset hrest)).bind fun lines hlines => ?_
        exact List.forall_mem_cons.mpr ⟨hline, hlines⟩

/-! ## Directives -/

section Values

variable {codes : List ZlasmDiagnosticCode} {token : Token}

theorem tokenGetCharValue_codes (hmalformed : .malformedLiteral ∈ codes) :
    FailsWith (AsmFailure.Coded codes) (tokenGetCharValue token) := by
  unfold tokenGetCharValue
  dsimp only
  split
  · simp [hmalformed]
  · simp only [failsWith_bind, failsWith_require, coded_asmTokenFail]
    refine ⟨fun _ => hmalformed, fun _ _ => ?_⟩
    split <;> simp [hmalformed]

theorem asciiValue_codes (h : token.Readable) (hdata : isDataValueToken token true = true) :
    FailsWith (AsmFailure.Coded directiveCodes) (asciiValue token) := by
  have hchar := @tokenGetCharValue_codes directiveCodes token (by decide)
  unfold asciiValue
  split
  · exact failsWith_ok _
  · simp [hchar]
  · rename_i hstring hcharLiteral
    have hinteger : token.type.base.isSome := by
      simp only [isDataValueToken, isIntegerToken, Bool.or_eq_true, Bool.true_and,
        beq_iff_eq] at hdata
      rcases hdata with (hdata | hdata) | hdata
      · exact hdata
      · exact absurd hdata hcharLiteral
      · exact absurd hdata hstring
    simp [h.failsWith hinteger]

theorem numericElement_codes (h : token.Readable) (hdata : isDataValueToken token false = true)
    (elementSize maximumValue : ℕ) : FailsWith (AsmFailure.Coded directiveCodes)
      (numericElement elementSize maximumValue token) := by
  unfold numericElement
  split
  · have hmalformed : ZlasmDiagnosticCode.malformedLiteral ∈ directiveCodes := by decide
    simp [tokenGetCharValue_codes hmalformed]
  · rename_i hchar
    have hinteger : token.type.base.isSome := by
      simpa [isDataValueToken, isIntegerToken, hchar] using hdata
    simp [h.failsWith hinteger]

end Values

section Directives

variable {directive : Directive}

/-- What `require_values` has seen to. -/
theorem requireValues_eq_ok {allowString : Bool} {message : String}
    (h : requireValues directive allowString message = .ok ()) :
    ∀ token ∈ directive.argv, isDataValueToken token allowString = true := by
  unfold requireValues at h
  split at h
  · rename_i hfind
    intro token htoken
    simpa using List.find?_eq_none.mp hfind token htoken
  · cases h

theorem requireFirst_eq_ok {p : Token → Bool} {message : String} {token : Token}
    {rest : List Token} (h : requireFirst directive p message = .ok ())
    (hargv : directive.argv = token :: rest) : p token = true := by
  rw [requireFirst, hargv] at h
  exact require_eq_ok.mp h

section Validated

variable (h : TokensReadable directive.argv) (hvalid : validateDirective directive = .ok ())
include h hvalid

/-- The directives with one number. -/
theorem integer_of_validated (htype : directive.type = .dirAlign ∨ directive.type = .dirLocate ∨
    directive.type = .dirSpace) :
    ∃ token, directive.argv = [token] ∧ token.Readable ∧ token.type.base.isSome := by
  have hchecked : requireArity directive 1 = .ok () ∧
      requireFirst directive isIntegerToken "Directive expects an integer" = .ok () := by
    unfold validateDirective at hvalid
    rcases htype with htype | htype | htype <;>
      · rw [htype] at hvalid
        obtain ⟨_, harity, hfirst⟩ := bind_eq_ok.mp hvalid
        exact ⟨harity, hfirst⟩
  obtain ⟨harity, hfirst⟩ := hchecked
  obtain ⟨token, hargv⟩ := List.length_eq_one_iff.mp (require_eq_ok.mp harity)
  exact ⟨token, hargv, h token (hargv ▸ List.mem_singleton_self token),
    requireFirst_eq_ok hfirst hargv⟩

/-- **The data of a directive** that has been validated. -/
theorem directiveGetRawData_codes (hdata : directive.type.isData = true) :
    FailsWith (AsmFailure.Coded directiveCodes) (directiveGetRawData directive) := by
  have hascii : (∀ token ∈ directive.argv, isDataValueToken token true = true) →
      FailsWith (AsmFailure.Coded directiveCodes)
        (directive.argv.foldlM (appendAscii directive.name) []) := by
    refine fun hvalues => FailsWith.foldlM fun token htoken result => ?_
    simp [appendAscii, asciiValue_codes (h token htoken) (hvalues token htoken)]
  have hnumeric : (∀ token ∈ directive.argv, isDataValueToken token false = true) →
      ∀ elementSize maximumValue, FailsWith (AsmFailure.Coded directiveCodes)
        (encodeNumericData directive elementSize maximumValue) := by
    intro hvalues elementSize maximumValue
    have helements := FailsWith.mapM fun token htoken =>
      numericElement_codes (h token htoken) (hvalues token htoken) elementSize maximumValue
    simp only [encodeNumericData, failsWith_bind, failsWith_require, coded_asmTokenFail]
    exact ⟨fun _ => by decide, fun _ _ => ⟨helements, fun _ _ => failsWith_ok _⟩⟩
  have hspace := integer_of_validated h hvalid
  unfold validateDirective at hvalid
  unfold directiveGetRawData
  cases htype : directive.type <;> rw [htype] at hvalid hdata
  case dirSpace =>
    obtain ⟨size, hargv, hsize, hinteger⟩ := hspace (.inr (.inr htype))
    rw [hargv]
    simp [hsize.failsWith hinteger]
  case dirAscii =>
    obtain ⟨-, -, hvalues⟩ := bind_eq_ok.mp hvalid
    exact hascii (requireValues_eq_ok hvalues)
  case dirAsciiz =>
    obtain ⟨-, -, hvalues⟩ := bind_eq_ok.mp hvalid
    simp [hascii (requireValues_eq_ok hvalues)]
  case dirByte | dirHword | dirWord | dirDword =>
    obtain ⟨-, -, hvalues⟩ := bind_eq_ok.mp hvalid
    exact hnumeric (requireValues_eq_ok hvalues) _ _
  all_goals cases hdata

theorem applyDirective_codes (state : DirectiveState) (last : Bool) :
    FailsWith (AsmFailure.Coded directiveCodes)
      (applyDirective state directive (directive.argv.headD directive.name) last) := by
  have hinteger := integer_of_validated h hvalid
  have hsection : ∀ s token, FailsWith (AsmFailure.Coded directiveCodes)
      (validateSectionRange s token) := by
    simp [validateSectionRange]
  unfold applyDirective
  cases htype : directive.type
  case dirAlign =>
    obtain ⟨token, hargv, htoken, hbase⟩ := hinteger (.inl htype)
    simp [hargv, alignSection, htoken.failsWith hbase, hsection]
  case dirLocate =>
    obtain ⟨token, hargv, htoken, hbase⟩ := hinteger (.inr (.inl htype))
    have hmove : ∀ s address, FailsWith (AsmFailure.Coded directiveCodes)
        (moveSection s address token) := by
      intro s address
      unfold moveSection
      split <;> simp [locateFailure]
    simp [hargv, locateSection, htoken.failsWith hbase, hsection, hmove, locateFailure]
  all_goals simp

end Validated

end Directives

theorem recordLine_codes (context : AssemblerContext) (label : Option CString) (body : PlacedBody) :
    FailsWith (AsmFailure.Coded directiveCodes) (recordLine context label body) := by
  simp [recordLine, validateSectionRange]

theorem processLine_codes {line : Line} (h : line.body.Readable) (state : DirectiveState)
    (last : Bool) : FailsWith (AsmFailure.Coded directiveCodes) (processLine state line last) := by
  have hrequired : ∀ directive, FailsWith (AsmFailure.Coded directiveCodes)
      (validateDirective directive) := by
    intro directive
    have hfirst : ∀ p message, FailsWith (AsmFailure.Coded directiveCodes)
        (requireFirst directive p message) := by
      intro p message
      unfold requireFirst
      split <;> simp
    have hvalues : ∀ allowString message, FailsWith (AsmFailure.Coded directiveCodes)
        (requireValues directive allowString message) := by
      intro allowString message
      unfold requireValues
      split <;> simp
    unfold validateDirective
    split <;> simp [requireArity, requireSome, hfirst, hvalues]
  unfold processLine
  dsimp only
  split
  · simp [recordLine_codes]
  · rename_i directive hbody
    rw [hbody] at h
    rw [failsWith_bind]
    refine ⟨hrequired directive, fun _ hvalid => ?_⟩
    split
    · rename_i hdata
      simp [directiveGetRawData_codes h hvalid hdata, recordLine_codes]
    · exact applyDirective_codes h hvalid _ last

theorem processLines_codes : ∀ {lines : List Line} (state : DirectiveState),
    (∀ line ∈ lines, line.body.Readable) →
      FailsWith (AsmFailure.Coded directiveCodes) (processLines state lines)
  | [], _, _ => failsWith_ok _
  | line :: rest, state, h => by
      obtain ⟨hline, hrest⟩ := List.forall_mem_cons.mp h
      rw [processLines, failsWith_bind]
      exact ⟨processLine_codes hline _ _, fun state _ => processLines_codes state hrest⟩

/-- What the lines hold for the translations. -/
def PlacedBody.Readable : PlacedBody → Prop
  | .stmt statement => statement.Readable
  | .raw _ => True

/-- **The loop of `asm_processDirectives`** keeps the statements. -/
theorem asmProcessDirectives_codes {lines : List Line} (h : ∀ line ∈ lines, line.body.Readable) :
    Ensures (asmProcessDirectives lines) (fun context => ∀ r ∈ context.lines, r.body.Readable)
      (AsmFailure.Coded directiveCodes) := by
  refine FailsWith.ensures ?_ fun context hcontext => ?_
  · rw [asmProcessDirectives, failsWith_bind]
    exact ⟨processLines_codes _ h, fun _ _ => failsWith_ok _⟩
  · rw [asmProcessDirectives, bind_eq_ok] at hcontext
    obtain ⟨state, hstate, hcontext⟩ := hcontext
    obtain rfl := Except.ok.inj hcontext
    intro r hr
    obtain ⟨line, hline, hemits⟩ := (Reached.init.processLines hstate).recorded r hr
    have hreadable := h line hline
    generalize line.body = body at hemits hreadable
    generalize r.body = placed at hemits ⊢
    cases hemits with
    | stmt statement => exact hreadable
    | raw _ _ => exact trivial

theorem asmProcessLabels_codes (context : AssemblerContext) :
    FailsWith (AsmFailure.Coded labelCodes) (asmProcessLabels context) := by
  rw [asmProcessLabels, failsWith_bind]
  refine ⟨FailsWith.foldlM fun line _ state => ?_, fun _ _ => failsWith_ok _⟩
  unfold processLabel
  split <;> simp [labelCodes]

/-! ## The translations -/

section Translations

variable {E : AsmFailure → Prop} {token : Token} {statement : Statement}

theorem failsWith_parseOptional {α : Type} {parse : Token → Except AsmFailure α} (default : α)
    {token : Option Token} (h : ∀ t, token = some t → FailsWith E (parse t)) :
    FailsWith E (parseOptional parse default token) := by
  cases token with
  | none => exact failsWith_ok _
  | some t => exact h t rfl

/-- **What the parser and the tables of names yield can be encoded.** -/
theorem failsWith_encode (opcode : Opcode) (condition : Condition) (register1 register2 : Byte)
    (immediate : Word) :
    FailsWith E (orInternalError (instructionEncode
      { opcode := opcode.toWord, condition := condition.toWord, register1, register2,
        immediate })) := by
  have hopcode : opcode.toWord < opcodeTotal := by cases opcode <;> decide
  have hcondition : condition.toWord < conditionTotal := by cases condition <;> decide
  have hencodes : (instructionEncode
      { opcode := opcode.toWord, condition := condition.toWord, register1, register2,
        immediate }).isSome :=
    instructionEncode_isSome.mpr ⟨hopcode, hcondition⟩
  obtain ⟨encoded, hencoded⟩ := Option.isSome_iff_exists.mp hencodes
  rw [hencoded]
  exact failsWith_ok _

/-- The parts of a statement that both modes parse alike. -/
theorem parseStatement_codes (statement : Statement) :
    FailsWith (AsmFailure.Coded statementCodes)
        (parseOptional parseCondition .unconditional statement.cond) ∧
      (∀ token, FailsWith (AsmFailure.Coded statementCodes) (parseOptional parseRegister 0 token)) ∧
      ∀ opcode, FailsWith (AsmFailure.Coded statementCodes) (validateOperands opcode statement) := by
  refine ⟨failsWith_parseOptional _ fun token _ => ?_,
    fun token => failsWith_parseOptional _ fun token _ => ?_, fun opcode => ?_⟩
  · unfold parseCondition
    split <;> simp
  · unfold parseRegister
    split
    · simp only [failsWith_bind, failsWith_require, coded_asmTokenFail]
      refine ⟨fun _ => by decide, fun _ _ => FailsWith.foldlM fun character _ index => ?_⟩
      simp [registerDigit]
    · simp
  · cases opcode <;> simp [validateOperands]

theorem literalImmediate_codes (himmediate : isImmediate token = true) (h : token.Readable)
    (hlabel : token.type ≠ .labelUse) :
    FailsWith (AsmFailure.Coded statementCodes) (literalImmediate token) := by
  have hchar := @tokenGetCharValue_codes statementCodes token (by decide)
  unfold literalImmediate
  split
  · simp [hchar]
  · rename_i hcharLiteral
    have hinteger : token.type.base.isSome := by
      simpa [isImmediate, hlabel, hcharLiteral] using himmediate
    simp [h.failsWith hinteger]

theorem rawImmediate_codes (himmediate : isImmediate token = true) (h : token.Readable)
    (labels : List LabelInfo) :
    FailsWith (AsmFailure.Coded statementCodes) (rawImmediate labels token) := by
  unfold rawImmediate
  split
  · split <;> simp
  · rename_i hlabel
    exact literalImmediate_codes himmediate h hlabel

theorem objectImmediate_codes (himmediate : isImmediate token = true) (h : token.Readable)
    (context : AssemblerContext) (symbols : List ZlImageSymbol) (sectionIndex : ℕ) :
    FailsWith (AsmFailure.Coded statementCodes)
      (objectImmediate context symbols sectionIndex token) := by
  unfold objectImmediate
  split
  · split
    · exact failsWith_ok _
    · split <;> simp
  · rename_i hlabel
    exact failsWith_map.mpr (literalImmediate_codes himmediate h hlabel)

theorem encodeStatement_codes {immediate : Except AsmFailure Word}
    (himmediate : FailsWith (AsmFailure.Coded statementCodes) immediate) :
    FailsWith (AsmFailure.Coded statementCodes) (encodeStatement statement immediate) := by
  obtain ⟨hcondition, hregister, hoperands⟩ := parseStatement_codes statement
  simp [encodeStatement, hcondition, hregister, hoperands, himmediate, failsWith_encode]

theorem encodeRawStatement_codes (h : statement.Readable) (labels : List LabelInfo) :
    FailsWith (AsmFailure.Coded statementCodes) (encodeRawStatement labels statement) := by
  obtain ⟨hcondition, hregister, hoperands⟩ := parseStatement_codes statement
  have himmediate := failsWith_parseOptional (0 : Word) fun token htoken =>
    rawImmediate_codes (h token htoken).1 (h token htoken).2 labels
  simp [encodeRawStatement, hcondition, hregister, hoperands, himmediate, failsWith_encode]

theorem statementCodes_subset (object : Bool) : statementCodes ⊆ translationCodes object :=
  List.subset_append_left _ _

/-- **The raw mode.** -/
theorem asmTranslate_codes {lines : List PlacedLine} (h : ∀ line ∈ lines, line.body.Readable)
    (labels : List LabelInfo) :
    FailsWith (AsmFailure.Coded (translationCodes false)) (asmTranslate labels lines) := by
  have hgrow : ∀ capacity requiredSize, FailsWith (AsmFailure.Coded (translationCodes false))
      (growCapacity capacity requiredSize) := by
    intro capacity requiredSize
    fun_induction growCapacity capacity requiredSize with
    | case1 => exact failsWith_error.mpr (coded_asmFail.mpr (by decide))
    | case2 _ _ _ ih => exact ih
    | case3 => exact failsWith_ok _
  have hcapacity : ∀ capacity requiredSize, FailsWith (AsmFailure.Coded (translationCodes false))
      (ensureCapacity capacity requiredSize) := by
    intro capacity requiredSize
    unfold ensureCapacity
    split
    · exact hgrow _ _
    · exact failsWith_ok _
  have hbytes : ∀ line ∈ lines, FailsWith (AsmFailure.Coded (translationCodes false))
      (rawLineBytes labels line) := by
    intro line hline
    have hreadable := h line hline
    unfold rawLineBytes
    split
    · rename_i statement hbody
      rw [hbody] at hreadable
      exact failsWith_coded_mono (encodeRawStatement_codes hreadable labels)
        (statementCodes_subset false)
    · exact failsWith_ok _
  rw [asmTranslate, failsWith_bind]
  refine ⟨FailsWith.foldlM fun line hline state => ?_, fun _ _ => failsWith_ok _⟩
  simp only [translateRawLine, failsWith_bind, failsWith_require, coded_asmFail]
  exact ⟨hbytes line hline, fun _ _ => ⟨fun _ => by decide, fun _ _ =>
    ⟨hcapacity _ _, fun _ _ => failsWith_ok _⟩⟩⟩

/-- **The object mode.** -/
theorem asmTranslateObject_codes {context : AssemblerContext}
    (h : ∀ line ∈ context.lines, line.body.Readable) (alloc : Bool) :
    FailsWith (AsmFailure.Coded (translationCodes true)) (asmTranslateObject alloc context) := by
  have hsection : ∀ message, (asmFail .sectionError message).Coded (translationCodes true) :=
    fun _ => coded_asmFail.mpr (by decide)
  have hsymbols : FailsWith (AsmFailure.Coded (translationCodes true)) (objectSymbols context) := by
    rw [objectSymbols, failsWith_bind]
    refine ⟨FailsWith.foldlM fun name _ symbols => ?_, fun _ _ => failsWith_ok _⟩
    unfold addGlobal
    split
    · exact failsWith_error.mpr (hsection _)
    · exact failsWith_ok _
  have hbytes : ∀ symbols, ∀ line ∈ context.lines,
      FailsWith (AsmFailure.Coded (translationCodes true)) (lineBytes context symbols line) := by
    intro symbols line hline
    have hreadable := h line hline
    unfold lineBytes
    split
    · exact failsWith_ok _
    · rename_i statement hbody
      rw [hbody] at hreadable
      have himmediate := failsWith_parseOptional ((0 : Word), (none : Option ℕ))
        fun token htoken => objectImmediate_codes (hreadable token htoken).1
          (hreadable token htoken).2 context symbols line.sectionIndex
      refine failsWith_coded_mono ?_ (statementCodes_subset true)
      simp [encodeStatement_codes, himmediate]
  rw [asmTranslateObject, failsWith_bind]
  refine ⟨?_, fun image _ => ?_⟩
  · rw [objectImage, failsWith_bind]
    refine ⟨hsymbols, fun symbols _ => ?_⟩
    rw [failsWith_bind]
    refine ⟨FailsWith.foldlM fun line hline state => ?_, fun _ _ => failsWith_ok _⟩
    simp only [translateLine, failsWith_bind, failsWith_require]
    exact ⟨fun _ => hsection _, fun _ _ => ⟨hbytes symbols line hline, fun _ _ => failsWith_ok _⟩⟩
  · split
    · exact failsWith_ok _
    · exact failsWith_error.mpr (hsection _)

end Translations

/-! ## The phases -/

/-- The phases of `assemble_source`. -/
inductive AsmPhase
  | lexer
  | macros
  | parser
  | directives
  | labels
  | translation
deriving DecidableEq

/-- The codes of a phase. -/
def AsmPhase.codes (object : Bool) : AsmPhase → List ZlasmDiagnosticCode
  | .lexer => lexerCodes
  | .macros => macroCodes
  | .parser => parserCodes
  | .directives => directiveCodes
  | .labels => labelCodes
  | .translation => translationCodes object

/-- The translation of a context in one of the two modes. -/
def translation (object : Bool) (context : AssemblerContext) (labels : List LabelInfo) :
    Except AsmFailure Bytes :=
  if object then asmTranslateObject true context else asmTranslate labels context.lines

/-- The phase that reports the failure; the ones before it succeed. -/
inductive StopsAt (object : Bool) (source : CString) (failure : AsmFailure) : AsmPhase → Prop
  | lexer (stops : lexSource source = .error failure) : StopsAt object source failure .lexer
  | macros {tokens : List Token} (lexed : lexSource source = .ok tokens)
      (stops : macrosExpand tokens = .error failure) : StopsAt object source failure .macros
  | parser {tokens expanded : List Token} (lexed : lexSource source = .ok tokens)
      (expands : macrosExpand tokens = .ok expanded)
      (stops : parserParse expanded = .error failure) : StopsAt object source failure .parser
  | directives {tokens expanded : List Token} {lines : List Line}
      (lexed : lexSource source = .ok tokens) (expands : macrosExpand tokens = .ok expanded)
      (parsed : parserParse expanded = .ok lines)
      (stops : asmProcessDirectives lines = .error failure) :
      StopsAt object source failure .directives
  | labels {tokens expanded : List Token} {lines : List Line} {context : AssemblerContext}
      (lexed : lexSource source = .ok tokens) (expands : macrosExpand tokens = .ok expanded)
      (parsed : parserParse expanded = .ok lines)
      (processed : asmProcessDirectives lines = .ok context)
      (stops : asmProcessLabels context = .error failure) : StopsAt object source failure .labels
  | translation {context : AssemblerContext} {labels : List LabelInfo}
      (assembled : assembleContext source = .ok context)
      (labelled : asmProcessLabels context = .ok labels)
      (stops : Zlvm.translation object context labels = .error failure) :
      StopsAt object source failure .translation

section Phases

variable {object : Bool} {source : CString} {failure : AsmFailure}

/-- **The code of a failure is one of its phase.** -/
theorem StopsAt.code_mem {phase : AsmPhase} (h : StopsAt object source failure phase) :
    failure.code ∈ phase.codes object := by
  have hexpanded : ∀ {tokens expanded}, lexSource source = .ok tokens →
      macrosExpand tokens = .ok expanded → TokensReadable expanded := fun lexed expands =>
    (macrosExpand_codes ((lexSource_codes source).of_eq_ok lexed)).of_eq_ok expands
  have hlines : ∀ {tokens expanded lines}, lexSource source = .ok tokens →
      macrosExpand tokens = .ok expanded → parserParse expanded = .ok lines →
        ∀ line ∈ lines, line.body.Readable := fun lexed expands parsed =>
    (parserLines_codes _ (hexpanded lexed expands)).of_eq_ok parsed
  cases h with
  | lexer stops => exact (lexSource_codes source).of_eq_error stops
  | macros lexed stops =>
      exact (macrosExpand_codes ((lexSource_codes source).of_eq_ok lexed)).of_eq_error stops
  | parser lexed expands stops =>
      exact (parserLines_codes _ (hexpanded lexed expands)).of_eq_error stops
  | directives lexed expands parsed stops =>
      exact (asmProcessDirectives_codes (hlines lexed expands parsed)).of_eq_error stops
  | labels lexed expands parsed processed stops => exact asmProcessLabels_codes _ _ stops
  | @translation context labels assembled labelled stops =>
      have hreadable : ∀ r ∈ context.lines, r.body.Readable := by
        rw [assembleContext] at assembled
        simp only [bind_eq_ok] at assembled
        obtain ⟨tokens, lexed, expanded, expands, lines, parsed, _, processed, _, _, heq⟩ :=
          assembled
        obtain rfl := Except.ok.inj heq
        exact (asmProcessDirectives_codes (hlines lexed expands parsed)).of_eq_ok processed
      cases object with
      | true => exact asmTranslateObject_codes hreadable true _ stops
      | false => exact asmTranslate_codes hreadable labels _ stops

/-- A context that is not made stops one of the phases before the translation. -/
theorem stopsAt_of_assembleContext (h : assembleContext source = .error failure) :
    ∃ phase, StopsAt object source failure phase := by
  simp only [assembleContext, bind_eq_error] at h
  rcases h with stops | ⟨tokens, lexed, h⟩
  · exact ⟨.lexer, .lexer stops⟩
  rcases h with stops | ⟨expanded, expands, h⟩
  · exact ⟨.macros, .macros lexed stops⟩
  rcases h with stops | ⟨lines, parsed, h⟩
  · exact ⟨.parser, .parser lexed expands stops⟩
  rcases h with stops | ⟨context, processed, h⟩
  · exact ⟨.directives, .directives lexed expands parsed stops⟩
  rcases h with stops | ⟨labels, _, h⟩
  · exact ⟨.labels, .labels lexed expands parsed processed stops⟩
  · cases h

/-- The label table of a context that is made. -/
theorem exists_labels {context : AssemblerContext} (h : assembleContext source = .ok context) :
    ∃ labels, asmProcessLabels context = .ok labels := by
  simp only [assembleContext, bind_eq_ok] at h
  obtain ⟨tokens, _, expanded, _, lines, _, context', _, labels, hlabels, heq⟩ := h
  obtain rfl := Except.ok.inj heq
  exact ⟨labels, hlabels⟩

/-- **The assembly is its phases**: it fails if one of them stops. -/
theorem assembly_eq_error_iff :
    assembly object source = .error failure ↔ ∃ phase, StopsAt object source failure phase := by
  have hmode : ∀ {context labels}, assembleContext source = .ok context →
      asmProcessLabels context = .ok labels →
        assembly object source = translation object context labels := by
    intro context labels hcontext hlabels
    cases object with
    | true => simp [assembly, translation, hcontext]
    | false => simp [assembly, translation, hcontext, hlabels]
  constructor
  · intro h
    cases hcontext : assembleContext source with
    | error failure' =>
        have heq : failure' = failure := by
          cases object <;> simpa [assembly, hcontext] using h
        exact stopsAt_of_assembleContext (heq ▸ hcontext)
    | ok context =>
        obtain ⟨labels, hlabels⟩ := exists_labels hcontext
        exact ⟨.translation, .translation hcontext hlabels (hmode hcontext hlabels ▸ h)⟩
  · rintro ⟨phase, h⟩
    have hearly : assembleContext source = .error failure →
        assembly object source = .error failure := by
      intro hcontext
      cases object <;> simp [assembly, hcontext]
    cases h with
    | lexer stops => exact hearly (by simp [assembleContext, stops])
    | macros lexed stops => exact hearly (by simp [assembleContext, lexed, stops])
    | parser lexed expands stops => exact hearly (by simp [assembleContext, lexed, expands, stops])
    | directives lexed expands parsed stops =>
        exact hearly (by simp [assembleContext, lexed, expands, parsed, stops])
    | labels lexed expands parsed processed stops =>
        exact hearly (by simp [assembleContext, lexed, expands, parsed, processed, stops])
    | translation assembled labelled stops => rw [hmode assembled labelled, stops]

end Phases

/-- The codes that no source makes the assembler report.  `zlasm_assemble` reports
`INVALID_ARGUMENT` and `OUT_OF_MEMORY` for other reasons, and the others never. -/
def unreportedCodes : List ZlasmDiagnosticCode :=
  [.none, .invalidArgument, .outOfMemory, .internalError, .linkError]

/-- **Every failure has a code of the phase that reports it**; internal errors are never
reported. -/
theorem assembly_diagnosed (object : Bool) (source : CString) (failure : AsmFailure) :
    (assembly object source = .error failure ↔ ∃ phase, StopsAt object source failure phase) ∧
      ∀ phase, StopsAt object source failure phase →
        failure.code ∈ phase.codes object ∧ failure.code ∉ unreportedCodes := by
  have hunreported : ∀ (object : Bool) (phase : AsmPhase), ∀ code ∈ phase.codes object,
      code ∉ unreportedCodes := by
    intro object phase
    cases object <;> cases phase <;> decide
  refine ⟨assembly_eq_error_iff, fun phase hphase => ?_⟩
  exact ⟨hphase.code_mem, hunreported _ _ _ hphase.code_mem⟩

/-- What both modes report of a statement without a known opcode. -/
def halFailure : AsmFailure where
  code := .unknownOpcode
  message := "Unknown opcode"
  location := some { line := 1, column := 1, byteOffset := 0, byteLength := 3 }

theorem assembly_diagnosed_hal : ∃ phase, StopsAt true (CString.lit "HAL") halFailure phase ∧
    halFailure.code ∈ phase.codes true ∧ halFailure.code ∉ unreportedCodes := by
  have hrun : assembly true (CString.lit "HAL") = .error halFailure := by decide +kernel
  obtain ⟨phase, hphase⟩ := (assembly_diagnosed true (CString.lit "HAL") halFailure).1.mp hrun
  exact ⟨phase, hphase, (assembly_diagnosed true _ _).2 phase hphase⟩

end Zlvm
