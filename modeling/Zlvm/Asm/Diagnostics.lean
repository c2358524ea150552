import Zlvm.Asm.Agreement
import Zlvm.Asm.Position

/-!
# Where a failure points

Every failure of the parser, of the directives and of the two translations is one of a token that
the function was given, or has no location.

* `TokensIn` — tokens whose locations satisfy a property.
* `parserParse_ensures`, `asmProcessDirectives_failsWith` — from the tokens to the recorded lines.
* `asmTranslate_failsWith`, `asmTranslateObject_failsWith` — the two modes.
-/

namespace Zlvm

open Loop

variable {P : SourceLocation → Prop}

/-- The location of every token satisfies `P`. -/
def TokensIn (P : SourceLocation → Prop) (tokens : List Token) : Prop :=
  ∀ token ∈ tokens, P token.location

@[simp] theorem tokensIn_nil : TokensIn P [] := fun _ h => nomatch h

@[simp] theorem tokensIn_cons {token : Token} {tokens : List Token} :
    TokensIn P (token :: tokens) ↔ P token.location ∧ TokensIn P tokens :=
  List.forall_mem_cons

@[simp] theorem tokensIn_append {a b : List Token} :
    TokensIn P (a ++ b) ↔ TokensIn P a ∧ TokensIn P b :=
  List.forall_mem_append

@[simp] theorem tokensIn_toList {token : Option Token} :
    TokensIn P token.toList ↔ ∀ t, token = some t → P t.location := by
  cases token <;> simp

theorem TokensIn.subset {a b : List Token} (h : TokensIn P b) (hsub : a ⊆ b) : TokensIn P a :=
  fun token htoken => h token (hsub htoken)

/-! ## The parser -/

/-- The tokens of a statement. -/
def Statement.tokens (statement : Statement) : List Token :=
  statement.opcode :: (statement.cond.toList ++ (statement.reg1.toList ++
    (statement.reg2.toList ++ statement.imm.toList)))

/-- The tokens of a line behind its label. -/
def LineBody.tokens : LineBody → List Token
  | .stmt statement => statement.tokens
  | .dir directive => directive.name :: directive.argv

theorem readIf_append (p : Token → Bool) (tokens : List Token) :
    (readIf p tokens).1.toList ++ (readIf p tokens).2 = tokens := by
  cases tokens with
  | nil => rfl
  | cons token rest =>
      rw [readIf]
      split <;> rfl

theorem parserReadStatement_ensures {opcode : Token} {tokens : List Token}
    (hopcode : P opcode.location) (h : TokensIn P tokens) :
    Ensures (parserReadStatement opcode tokens) (fun statement => TokensIn P statement.tokens)
      (AsmFailure.Within P) := by
  unfold parserReadStatement
  have hcond := readIf_append (·.type == .id) tokens
  generalize readIf (·.type == .id) tokens = read at hcond ⊢
  obtain ⟨cond, tokens⟩ := read
  have hreg1 := readIf_append (·.type == .register) tokens
  dsimp only at hcond ⊢
  generalize readIf (·.type == .register) tokens = read at hreg1 ⊢
  obtain ⟨reg1, tokens'⟩ := read
  dsimp only at hreg1 ⊢
  have hreg2 : ∃ reg2 rest, (if reg1.isSome then readIf (·.type == .register) tokens'
      else (none, tokens')) = (reg2, rest) ∧ reg2.toList ++ rest = tokens' := by
    split
    · exact ⟨_, _, rfl, readIf_append _ _⟩
    · exact ⟨_, _, rfl, rfl⟩
  obtain ⟨reg2, rest, hread, hreg2⟩ := hreg2
  have himm := readIf_append isImmediate rest
  rw [hread]
  dsimp only
  generalize readIf isImmediate rest = read at himm ⊢
  obtain ⟨imm, trailing⟩ := read
  rw [← hcond, ← hreg1, ← hreg2, ← himm] at h
  simp only [tokensIn_append] at h
  obtain ⟨h₁, h₂, h₃, h₄, h₅⟩ := h
  cases trailing with
  | cons token _ => exact within_asmTokenFail.mpr (h₅ token List.mem_cons_self)
  | nil =>
      simp only [ensures_ok, Statement.tokens, tokensIn_cons, tokensIn_append]
      exact ⟨hopcode, h₁, h₂, h₃, h₄⟩

theorem parserReadBody_ensures {tokens : List Token} (h : TokensIn P tokens) :
    Ensures (parserReadBody tokens) (fun body => TokensIn P body.tokens)
      (AsmFailure.Within P) := by
  unfold parserReadBody
  split
  · exact within_asmFail
  · rename_i current tokens
    obtain ⟨hcurrent, htokens⟩ := tokensIn_cons.mp h
    split
    · exact (parserReadStatement_ensures hcurrent htokens).map fun statement => id
    · refine Ensures.map (Q := fun directive => directive.name = current ∧ directive.argv = tokens)
        ?_ ?_
      · unfold parserReadDirective
        split
        · exact ⟨rfl, rfl⟩
        · exact within_asmTokenFail.mpr hcurrent
      · rintro directive ⟨hname, hargv⟩
        rw [LineBody.tokens, hname, hargv]
        exact h
    · exact within_asmTokenFail.mpr hcurrent

theorem parserReadLine_ensures {tokens : List Token} (h : TokensIn P tokens) :
    Ensures (parserReadLine tokens) (fun line => TokensIn P line.body.tokens)
      (AsmFailure.Within P) := by
  unfold parserReadLine
  have hlabel := readIf_append (·.type == .labelInit) tokens
  generalize readIf (·.type == .labelInit) tokens = read at hlabel ⊢
  obtain ⟨label, rest⟩ := read
  rw [← hlabel] at h
  obtain ⟨hlabel, hrest⟩ := tokensIn_append.mp h
  cases label with
  | none => exact (parserReadBody_ensures hrest).map fun body => id
  | some label =>
      refine Ensures.require_bind (fun _ => within_asmTokenFail.mpr (hlabel label ?_)) fun _ => ?_
      · exact List.mem_singleton_self label
      · exact (parserReadBody_ensures hrest).bind fun body hbody => hbody

/-- The tokens of a line, and those after it. -/
theorem parserGetLine_subset {tokens line rest : List Token}
    (h : parserGetLine tokens = some (line, rest)) : line ⊆ tokens ∧ rest ⊆ tokens := by
  unfold parserGetLine at h
  split at h
  · cases h
  · rename_i first following hfirst
    cases h
    have hsub : first :: following ⊆ tokens := hfirst ▸ (List.dropWhile_sublist _).subset
    have hskip : skipLabelNewline first following ⊆ following := by
      unfold skipLabelNewline
      split
      · exact fun _ h => h
      · split
        · exact List.subset_cons_self _ _
        · exact fun _ h => h
    have htake := (List.takeWhile_sublist (!endsLine ·)
      (l := skipLabelNewline first following)).subset
    have hdrop := (List.dropWhile_sublist (!endsLine ·)
      (l := skipLabelNewline first following)).subset
    constructor
    · intro token htoken
      rcases List.mem_cons.mp htoken with rfl | htoken
      · exact hsub List.mem_cons_self
      · exact hsub (List.mem_cons_of_mem _ (hskip (htake (List.mem_of_mem_filter htoken))))
    · intro token htoken
      exact hsub (List.mem_cons_of_mem _ (hskip (hdrop (List.mem_of_mem_drop htoken))))

theorem parserLines_ensures : ∀ (fuel : ℕ) {tokens : List Token}, TokensIn P tokens →
    Ensures (parserLines fuel tokens) (fun lines => ∀ line ∈ lines, TokensIn P line.body.tokens)
      (AsmFailure.Within P)
  | 0, _, _ => fun _ h => nomatch h
  | fuel + 1, tokens, h => by
      rw [parserLines]
      split
      · exact fun _ h => nomatch h
      · rename_i line rest hline
        obtain ⟨hsub, hrest⟩ := parserGetLine_subset hline
        refine (parserReadLine_ensures (h.subset hsub)).bind fun line hline => ?_
        refine (parserLines_ensures fuel (h.subset hrest)).bind fun lines hlines => ?_
        exact List.forall_mem_cons.mpr ⟨hline, hlines⟩

/-- **The lines of the parser** hold tokens that it was given. -/
theorem parserParse_ensures {tokens : List Token} (h : TokensIn P tokens) :
    Ensures (parserParse tokens) (fun lines => ∀ line ∈ lines, TokensIn P line.body.tokens)
      (AsmFailure.Within P) :=
  parserLines_ensures _ h

/-! ## Directives -/

section Tokens

variable {token : Token} (h : P token.location)
include h

theorem tokenGetCharValue_failsWith :
    FailsWith (AsmFailure.Within P) (tokenGetCharValue token) := by
  unfold tokenGetCharValue
  dsimp only
  split
  · simp [h]
  · simp only [failsWith_bind, failsWith_require, within_asmTokenFail]
    refine ⟨fun _ => h, fun _ _ => ?_⟩
    split <;> simp [h]

theorem asciiValue_failsWith : FailsWith (AsmFailure.Within P) (asciiValue token) := by
  unfold asciiValue
  split
  · exact failsWith_ok _
  · simp [tokenGetCharValue_failsWith h]
  · simp [tokenGetIntValue_failsWith h, h]

theorem numericElement_failsWith (elementSize maximumValue : ℕ) :
    FailsWith (AsmFailure.Within P) (numericElement elementSize maximumValue token) := by
  unfold numericElement
  split <;> simp [tokenGetCharValue_failsWith h, tokenGetIntValue_failsWith h, h]

theorem validateSectionRange_failsWith (s : AsmSection) :
    FailsWith (AsmFailure.Within P) (validateSectionRange s (some token)) := by
  simp [validateSectionRange, asmOptionalTokenFail, h]

theorem alignSection_failsWith (s : AsmSection) :
    FailsWith (AsmFailure.Within P) (alignSection s token) := by
  simp [alignSection, tokenGetIntValue_failsWith h, validateSectionRange_failsWith h, h]

theorem locateSection_failsWith (s : AsmSection) :
    FailsWith (AsmFailure.Within P) (locateSection s token) := by
  have hfail : (locateFailure token).Within P := within_asmTokenFail.mpr h
  have hmove : ∀ address, FailsWith (AsmFailure.Within P) (moveSection s address token) := by
    intro address
    unfold moveSection
    split <;> simp [hfail]
  simp [locateSection, tokenGetIntValue_failsWith h, validateSectionRange_failsWith h, hfail, hmove]

end Tokens

section Directives

variable {directive : Directive} (h : TokensIn P (directive.name :: directive.argv))
include h

theorem encodeNumericData_failsWith (elementSize maximumValue : ℕ) :
    FailsWith (AsmFailure.Within P) (encodeNumericData directive elementSize maximumValue) := by
  obtain ⟨hname, hargv⟩ := tokensIn_cons.mp h
  have helements := FailsWith.mapM fun token htoken =>
    numericElement_failsWith (hargv token htoken) elementSize maximumValue
  simp [encodeNumericData, hname, helements]

theorem directiveGetRawData_failsWith :
    FailsWith (AsmFailure.Within P) (directiveGetRawData directive) := by
  obtain ⟨hname, hargv⟩ := tokensIn_cons.mp h
  have hascii : FailsWith (AsmFailure.Within P)
      (directive.argv.foldlM (appendAscii directive.name) []) :=
    FailsWith.foldlM fun token htoken result => by
      simp [appendAscii, asciiValue_failsWith (hargv token htoken), hname]
  have hnumeric := encodeNumericData_failsWith h
  unfold directiveGetRawData
  cases directive.type
  case dirAscii => exact hascii
  case dirAsciiz => simp [hascii, hname]
  case dirByte => exact hnumeric _ _
  case dirHword => exact hnumeric _ _
  case dirWord => exact hnumeric _ _
  case dirDword => exact hnumeric _ _
  case dirSpace =>
    dsimp only
    split
    · rename_i size hsize
      have hlocation : P size.location := hargv size (hsize ▸ List.mem_singleton_self size)
      simp [tokenGetIntValue_failsWith hlocation, hlocation]
    · simp [hname]
  all_goals simp [hname]

theorem validateDirective_failsWith :
    FailsWith (AsmFailure.Within P) (validateDirective directive) := by
  obtain ⟨hname, hargv⟩ := tokensIn_cons.mp h
  have harity : ∀ n, FailsWith (AsmFailure.Within P) (requireArity directive n) := by
    intro n
    have hreported : P (directive.argv.getD n directive.name).location := by
      rw [List.getD_eq_getElem?_getD]
      cases hget : directive.argv[n]? with
      | none => exact hname
      | some token => exact hargv token (List.mem_of_getElem? hget)
    simp only [requireArity, failsWith_require, within_asmTokenFail]
    exact fun _ => hreported
  have hfirst : ∀ p message,
      FailsWith (AsmFailure.Within P) (requireFirst directive p message) := by
    intro p message
    unfold requireFirst
    split
    · exact failsWith_ok _
    · rename_i token rest hargv'
      simp [hargv token (hargv' ▸ List.mem_cons_self)]
  have hvalues : ∀ allowString message,
      FailsWith (AsmFailure.Within P) (requireValues directive allowString message) := by
    intro allowString message
    unfold requireValues
    split
    · exact failsWith_ok _
    · rename_i token hfind
      simp [hargv token (List.mem_of_find?_eq_some hfind)]
  unfold validateDirective
  split <;> simp [harity, hfirst, hvalues, requireSome, hname]

/-- The argument of a directive, which is its name if it has none. -/
theorem argument_in : P (directive.argv.headD directive.name).location := by
  obtain ⟨hname, hargv⟩ := tokensIn_cons.mp h
  cases hcases : directive.argv with
  | nil => exact hname
  | cons token rest => exact hargv token (hcases ▸ List.mem_cons_self)

theorem applyDirective_failsWith {argument : Token} (hargument : P argument.location)
    (state : DirectiveState) (last : Bool) :
    FailsWith (AsmFailure.Within P) (applyDirective state directive argument last) := by
  obtain ⟨hname, -⟩ := tokensIn_cons.mp h
  unfold applyDirective
  cases directive.type <;>
    simp [hname, hargument, alignSection_failsWith hargument, locateSection_failsWith hargument]

end Directives

theorem recordLine_failsWith (context : AssemblerContext) (label : Option CString)
    (body : PlacedBody) : FailsWith (AsmFailure.Within P) (recordLine context label body) := by
  simp [recordLine, validateSectionRange, asmOptionalTokenFail]

theorem processLine_failsWith {line : Line} (h : TokensIn P line.body.tokens)
    (state : DirectiveState) (last : Bool) :
    FailsWith (AsmFailure.Within P) (processLine state line last) := by
  unfold processLine
  dsimp only
  split
  · simp [recordLine_failsWith]
  · rename_i directive hbody
    rw [hbody] at h
    rw [failsWith_bind]
    refine ⟨validateDirective_failsWith h, fun _ _ => ?_⟩
    split
    · simp [directiveGetRawData_failsWith h, recordLine_failsWith]
    · exact applyDirective_failsWith h (argument_in h) _ last

theorem processLines_failsWith : ∀ {lines : List Line} {state : DirectiveState},
    (∀ line ∈ lines, TokensIn P line.body.tokens) →
      FailsWith (AsmFailure.Within P) (processLines state lines)
  | [], _, _ => failsWith_ok _
  | line :: rest, state, h => by
      obtain ⟨hline, hrest⟩ := List.forall_mem_cons.mp h
      rw [processLines, failsWith_bind]
      exact ⟨processLine_failsWith hline _ _, fun _ _ => processLines_failsWith hrest⟩

/-! ## Recorded lines -/

/-- The tokens of a recorded line. -/
def PlacedBody.tokens : PlacedBody → List Token
  | .stmt statement => statement.tokens
  | .raw _ => []

/-- **A recorded line** is one that emits. -/
theorem Reached.recorded {done : List Line} {state : DirectiveState} (h : Reached done state) :
    ∀ r ∈ state.context.lines, ∃ line ∈ done, Emits line.body r.body := by
  induction h with
  | init => exact fun r hr => nomatch hr
  | step before processed ih =>
      rename_i done line last state state'
      have hearlier : ∀ r ∈ state.context.lines, ∃ l ∈ done ++ [line], Emits l.body r.body :=
        fun r hr => by
          obtain ⟨l, hl, hemits⟩ := ih r hr
          exact ⟨l, List.mem_append_left _ hl, hemits⟩
      rcases processed.lines_eq with ⟨-, body, hbody, hlines⟩ | ⟨-, hlines⟩
      · rw [hlines]
        intro r hr
        rcases List.mem_append.mp hr with hr | hr
        · exact hearlier r hr
        · obtain rfl := List.mem_singleton.mp hr
          exact ⟨line, by simp, hbody⟩
      · rw [hlines]
        exact hearlier

theorem Emits.tokensIn {body : LineBody} {placed : PlacedBody} (h : Emits body placed)
    (htokens : TokensIn P body.tokens) : TokensIn P placed.tokens := by
  cases h with
  | stmt statement => exact htokens
  | raw _ _ => exact tokensIn_nil

/-- **The loop of `asm_processDirectives`** keeps the tokens of the statements. -/
theorem asmProcessDirectives_ensures {lines : List Line}
    (h : ∀ line ∈ lines, TokensIn P line.body.tokens) :
    Ensures (asmProcessDirectives lines)
      (fun context => ∀ r ∈ context.lines, TokensIn P r.body.tokens) (AsmFailure.Within P) := by
  refine FailsWith.ensures ?_ fun context hcontext => ?_
  · rw [asmProcessDirectives, failsWith_bind]
    exact ⟨processLines_failsWith h, fun _ _ => failsWith_ok _⟩
  · rw [asmProcessDirectives, bind_eq_ok] at hcontext
    obtain ⟨state, hstate, hcontext⟩ := hcontext
    obtain rfl := Except.ok.inj hcontext
    intro r hr
    obtain ⟨line, hline, hemits⟩ := (Reached.init.processLines hstate).recorded r hr
    exact hemits.tokensIn (h line hline)

/-! ## The translations -/

theorem tokensIn_of_statement {statement : Statement} (h : TokensIn P statement.tokens) :
    P statement.opcode.location ∧ (∀ t, statement.cond = some t → P t.location) ∧
      (∀ t, statement.reg1 = some t → P t.location) ∧
      (∀ t, statement.reg2 = some t → P t.location) ∧
      ∀ t, statement.imm = some t → P t.location := by
  simpa only [Statement.tokens, tokensIn_cons, tokensIn_append, tokensIn_toList] using h

theorem parseOptional_failsWith {α : Type} {parse : Token → Except AsmFailure α} (default : α)
    {token : Option Token} (h : ∀ t, token = some t → FailsWith (AsmFailure.Within P) (parse t)) :
    FailsWith (AsmFailure.Within P) (parseOptional parse default token) := by
  cases token with
  | none => exact failsWith_ok _
  | some t => exact h t rfl

section Operands

variable {token : Token} (h : P token.location)
include h

theorem parseCondition_failsWith : FailsWith (AsmFailure.Within P) (parseCondition token) := by
  unfold parseCondition
  split <;> simp [h]

theorem parseRegister_failsWith : FailsWith (AsmFailure.Within P) (parseRegister token) := by
  unfold parseRegister
  split
  · simp only [failsWith_bind, failsWith_require, within_asmTokenFail]
    refine ⟨fun _ => h, fun _ _ => FailsWith.foldlM fun character _ index => ?_⟩
    simp [registerDigit, h]
  · simp [h]

theorem literalImmediate_failsWith : FailsWith (AsmFailure.Within P) (literalImmediate token) := by
  unfold literalImmediate
  split <;> simp [tokenGetCharValue_failsWith h, tokenGetIntValue_failsWith h, h]

theorem rawImmediate_failsWith (labels : List LabelInfo) :
    FailsWith (AsmFailure.Within P) (rawImmediate labels token) := by
  unfold rawImmediate
  split
  · split <;> simp [h]
  · exact literalImmediate_failsWith h

theorem objectImmediate_failsWith (context : AssemblerContext) (symbols : List ZlImageSymbol)
    (sectionIndex : ℕ) :
    FailsWith (AsmFailure.Within P) (objectImmediate context symbols sectionIndex token) := by
  unfold objectImmediate
  split
  · split
    · exact failsWith_ok _
    · split <;> simp [h]
  · simp [literalImmediate_failsWith h]

end Operands

theorem orInternalError_failsWith (encoded : Option Bytes) :
    FailsWith (AsmFailure.Within P) (orInternalError encoded) := by
  cases encoded <;> simp [orInternalError]

theorem validateOperands_failsWith {statement : Statement} (h : P statement.opcode.location)
    (opcode : Option Opcode) :
    FailsWith (AsmFailure.Within P) (validateOperands opcode statement) := by
  cases opcode <;> simp [validateOperands, h]

/-- The parts of a statement that both modes parse alike. -/
theorem parseStatement_failsWith {statement : Statement} (h : TokensIn P statement.tokens) :
    FailsWith (AsmFailure.Within P)
        (parseOptional parseCondition .unconditional statement.cond) ∧
      FailsWith (AsmFailure.Within P) (parseOptional parseRegister 0 statement.reg1) ∧
      FailsWith (AsmFailure.Within P) (parseOptional parseRegister 0 statement.reg2) ∧
      ∀ opcode, FailsWith (AsmFailure.Within P) (validateOperands opcode statement) := by
  obtain ⟨hopcode, hcond, hreg1, hreg2, -⟩ := tokensIn_of_statement h
  exact ⟨parseOptional_failsWith _ fun t ht => parseCondition_failsWith (hcond t ht),
    parseOptional_failsWith _ fun t ht => parseRegister_failsWith (hreg1 t ht),
    parseOptional_failsWith _ fun t ht => parseRegister_failsWith (hreg2 t ht),
    validateOperands_failsWith hopcode⟩

theorem encodeStatement_failsWith {statement : Statement} (h : TokensIn P statement.tokens)
    {immediate : Except AsmFailure Word} (himmediate : FailsWith (AsmFailure.Within P) immediate) :
    FailsWith (AsmFailure.Within P) (encodeStatement statement immediate) := by
  obtain ⟨hcondition, hregister1, hregister2, hoperands⟩ := parseStatement_failsWith h
  simp [encodeStatement, hcondition, hregister1, hregister2, hoperands, himmediate,
    orInternalError_failsWith]

theorem encodeRawStatement_failsWith {statement : Statement} (h : TokensIn P statement.tokens)
    (labels : List LabelInfo) :
    FailsWith (AsmFailure.Within P) (encodeRawStatement labels statement) := by
  obtain ⟨hcondition, hregister1, hregister2, hoperands⟩ := parseStatement_failsWith h
  obtain ⟨-, -, -, -, himm⟩ := tokensIn_of_statement h
  have himmediate := parseOptional_failsWith 0 fun t ht => rawImmediate_failsWith (himm t ht) labels
  simp [encodeRawStatement, hcondition, hregister1, hregister2, hoperands, himmediate,
    orInternalError_failsWith]

theorem ensureCapacity_failsWith (capacity requiredSize : ℕ) :
    FailsWith (AsmFailure.Within P) (ensureCapacity capacity requiredSize) := by
  have hgrow : FailsWith (AsmFailure.Within P) (growCapacity capacity requiredSize) := by
    fun_induction growCapacity capacity requiredSize with
    | case1 => simp
    | case2 _ _ _ ih => exact ih
    | case3 => exact failsWith_ok _
  unfold ensureCapacity
  split
  · exact hgrow
  · exact failsWith_ok _

/-- **The raw mode** reports tokens of the recorded statements. -/
theorem asmTranslate_failsWith {lines : List PlacedLine}
    (h : ∀ line ∈ lines, TokensIn P line.body.tokens) (labels : List LabelInfo) :
    FailsWith (AsmFailure.Within P) (asmTranslate labels lines) := by
  rw [asmTranslate, failsWith_bind]
  refine ⟨FailsWith.foldlM fun line hline state => ?_, fun _ _ => failsWith_ok _⟩
  have hbytes : FailsWith (AsmFailure.Within P) (rawLineBytes labels line) := by
    have hline := h line hline
    unfold rawLineBytes
    split
    · rename_i statement hbody
      rw [hbody] at hline
      exact encodeRawStatement_failsWith hline labels
    · exact failsWith_ok _
  simp [translateRawLine, hbytes, ensureCapacity_failsWith]

theorem lineBytes_failsWith {line : PlacedLine} (h : TokensIn P line.body.tokens)
    (context : AssemblerContext) (symbols : List ZlImageSymbol) :
    FailsWith (AsmFailure.Within P) (lineBytes context symbols line) := by
  unfold lineBytes
  split
  · exact failsWith_ok _
  · rename_i statement hbody
    rw [hbody] at h
    obtain ⟨-, -, -, -, himm⟩ := tokensIn_of_statement h
    have himmediate := parseOptional_failsWith ((0 : Word), (none : Option ℕ)) fun t ht =>
      objectImmediate_failsWith (himm t ht) context symbols line.sectionIndex
    simp [encodeStatement_failsWith h, himmediate]

/-- **The object mode** reports tokens of the recorded statements. -/
theorem asmTranslateObject_failsWith {context : AssemblerContext}
    (h : ∀ line ∈ context.lines, TokensIn P line.body.tokens) (alloc : Bool) :
    FailsWith (AsmFailure.Within P) (asmTranslateObject alloc context) := by
  have hsymbols : FailsWith (AsmFailure.Within P) (objectSymbols context) := by
    rw [objectSymbols, failsWith_bind]
    refine ⟨FailsWith.foldlM fun name _ symbols => ?_, fun _ _ => failsWith_ok _⟩
    unfold addGlobal
    split <;> simp
  rw [asmTranslateObject, failsWith_bind]
  refine ⟨?_, fun image _ => ?_⟩
  · rw [objectImage, failsWith_bind]
    refine ⟨hsymbols, fun symbols _ => ?_⟩
    rw [failsWith_bind]
    refine ⟨FailsWith.foldlM fun line hline state => ?_, fun _ _ => failsWith_ok _⟩
    simp [translateLine, lineBytes_failsWith (h line hline)]
  · split <;> simp

/-- The label table reports no location. -/
theorem asmProcessLabels_failsWith (context : AssemblerContext) :
    FailsWith (AsmFailure.Within P) (asmProcessLabels context) := by
  rw [asmProcessLabels, failsWith_bind]
  refine ⟨FailsWith.foldlM fun line _ state => ?_, fun _ _ => failsWith_ok _⟩
  unfold processLabel
  split <;> simp

end Zlvm
