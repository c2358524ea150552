import Zlvm.Asm.Raw
import Zlvm.Lib.Lockstep

/-!
# Locations do not matter

The raw mode reads of a token only its type and its value; its location is for diagnostics.

* `Token.Alike` — two tokens that differ in their locations only.
* `Line.Alike`, `DirectiveState.Alike` — the same for what is made of tokens.
* `parserReadLine_alike`, `asmProcessDirectives_alike`, `asmTranslate_alike` — the stages.
* **`rawBytes_alike`** — like lines give the same image.
-/

namespace Zlvm

open Loop

/-- Two tokens that differ in their locations only. -/
structure Token.Alike (t t' : Token) : Prop where
  type : t.type = t'.type
  value : t.value = t'.value

/-- Two token lists that differ in the locations only. -/
abbrev TokensAlike (tokens tokens' : List Token) : Prop := List.Forall₂ Token.Alike tokens tokens'

/-! ## Values -/

section Values

variable {t t' : Token}

theorem addDigit_alike (base value : ℕ) (character : Byte) :
    (addDigit t base value character).toOption = (addDigit t' base value character).toOption := by
  unfold addDigit
  cases digitValue character with
  | none => rfl
  | some digit => simp

variable (h : t.Alike t')
include h

theorem tokenGetIntValue_alike : (tokenGetIntValue t).toOption = (tokenGetIntValue t').toOption := by
  unfold tokenGetIntValue
  rw [h.type, h.value]
  cases t'.type.base with
  | none => rfl
  | some base =>
      simp only [toOption_bind, toOption_require]
      refine congrArg _ (funext fun _ => ?_)
      refine (Lockstep.foldlM (fun _ => Eq) rfl fun done x rest b c _ hbc => ?_).toOption_eq
      subst hbc
      exact .of_toOption_eq (addDigit_alike base b x)

theorem tokenGetCharValue_alike :
    (tokenGetCharValue t).toOption = (tokenGetCharValue t').toOption := by
  unfold tokenGetCharValue
  rw [h.value]
  dsimp only
  split
  · simp
  · simp only [toOption_bind, toOption_require]
    refine congrArg _ (funext fun _ => ?_)
    split <;> rfl

theorem asciiValue_alike : (asciiValue t).toOption = (asciiValue t').toOption := by
  unfold asciiValue
  rw [h.type, h.value]
  split
  · rfl
  · simp [tokenGetCharValue_alike h]
  · simp [tokenGetIntValue_alike h]

theorem numericElement_alike (elementSize maximumValue : ℕ) :
    (numericElement elementSize maximumValue t).toOption
      = (numericElement elementSize maximumValue t').toOption := by
  unfold numericElement
  rw [h.type]
  split <;> simp [tokenGetCharValue_alike h, tokenGetIntValue_alike h]

theorem alignSection_alike (s : AsmSection) :
    (alignSection s t).toOption = (alignSection s t').toOption := by
  simp [alignSection, validateSectionRange, tokenGetIntValue_alike h]

theorem locateSection_alike (s : AsmSection) :
    (locateSection s t).toOption = (locateSection s t').toOption := by
  have hmove : ∀ address, (moveSection s address t).toOption
      = (moveSection s address t').toOption := by
    intro address
    unfold moveSection
    split <;> simp
  simp [locateSection, validateSectionRange, tokenGetIntValue_alike h, hmove]

theorem parseCondition_alike : (parseCondition t).toOption = (parseCondition t').toOption := by
  unfold parseCondition
  rw [h.value]
  split <;> rfl

theorem parseRegister_alike : (parseRegister t).toOption = (parseRegister t').toOption := by
  unfold parseRegister
  rw [h.value]
  split
  · simp only [toOption_bind, toOption_require]
    refine congrArg _ (funext fun _ => ?_)
    refine (Lockstep.foldlM (fun _ => Eq) rfl fun done x rest b c _ hbc => ?_).toOption_eq
    subst hbc
    exact .of_toOption_eq (by simp [registerDigit])
  · simp

theorem rawImmediate_alike (labels : List LabelInfo) :
    (rawImmediate labels t).toOption = (rawImmediate labels t').toOption := by
  have hliteral : (literalImmediate t).toOption = (literalImmediate t').toOption := by
    unfold literalImmediate
    rw [h.type]
    split <;> simp [tokenGetCharValue_alike h, tokenGetIntValue_alike h]
  unfold rawImmediate
  rw [h.type, h.value]
  split
  · split <;> simp
  · exact hliteral

end Values

/-! ## The parser -/

/-- Two statements that differ in locations only. -/
structure Statement.Alike (s s' : Statement) : Prop where
  opcode : s.opcode.Alike s'.opcode
  cond : Option.Rel Token.Alike s.cond s'.cond
  reg1 : Option.Rel Token.Alike s.reg1 s'.reg1
  reg2 : Option.Rel Token.Alike s.reg2 s'.reg2
  imm : Option.Rel Token.Alike s.imm s'.imm

/-- Two directives that differ in locations only. -/
structure Directive.Alike (d d' : Directive) : Prop where
  type : d.type = d'.type
  name : d.name.Alike d'.name
  argv : TokensAlike d.argv d'.argv

inductive LineBody.Alike : LineBody → LineBody → Prop
  | stmt {s s' : Statement} (h : s.Alike s') : LineBody.Alike (.stmt s) (.stmt s')
  | dir {d d' : Directive} (h : d.Alike d') : LineBody.Alike (.dir d) (.dir d')

/-- Two lines that differ in locations only. -/
structure Line.Alike (line line' : Line) : Prop where
  label : line.label = line'.label
  body : line.body.Alike line'.body

section Parser

variable {tokens tokens' : List Token}

theorem find?_alike (h : TokensAlike tokens tokens') {p : Token → Bool}
    (hp : ∀ t t' : Token, t.Alike t' → p t = p t') :
    Option.Rel Token.Alike (tokens.find? p) (tokens'.find? p) := by
  induction h with
  | nil => exact .none
  | cons head _ ih =>
      rw [List.find?_cons, List.find?_cons, hp _ _ head]
      split
      · exact .some head
      · exact ih

theorem readIf_alike (h : TokensAlike tokens tokens') {p : Token → Bool}
    (hp : ∀ t t' : Token, t.Alike t' → p t = p t') :
    Option.Rel Token.Alike (readIf p tokens).1 (readIf p tokens').1 ∧
      TokensAlike (readIf p tokens).2 (readIf p tokens').2 := by
  cases h with
  | nil => exact ⟨.none, .nil⟩
  | cons head tail =>
      rename_i t t' rest rest'
      rw [readIf, readIf, hp t t' head]
      split
      · exact ⟨.some head, tail⟩
      · exact ⟨.none, .cons head tail⟩

theorem readIf_type_alike (h : TokensAlike tokens tokens') (type : TokenType) :
    Option.Rel Token.Alike (readIf (·.type == type) tokens).1 (readIf (·.type == type) tokens').1 ∧
      TokensAlike (readIf (·.type == type) tokens).2 (readIf (·.type == type) tokens').2 :=
  readIf_alike h fun t t' ht => by rw [ht.type]

theorem parserReadStatement_alike {opcode opcode' : Token} (hopcode : opcode.Alike opcode')
    (h : TokensAlike tokens tokens') :
    Lockstep Statement.Alike (parserReadStatement opcode tokens)
      (parserReadStatement opcode' tokens') := by
  unfold parserReadStatement
  obtain ⟨hcond, h⟩ := readIf_type_alike h .id
  generalize readIf (·.type == .id) tokens = read at hcond h ⊢
  generalize readIf (·.type == .id) tokens' = read' at hcond h ⊢
  obtain ⟨cond, tokens⟩ := read
  obtain ⟨cond', tokens'⟩ := read'
  dsimp only at hcond h ⊢
  obtain ⟨hreg1, h⟩ := readIf_type_alike h .register
  generalize readIf (·.type == .register) tokens = read at hreg1 h ⊢
  generalize readIf (·.type == .register) tokens' = read' at hreg1 h ⊢
  obtain ⟨reg1, tokens⟩ := read
  obtain ⟨reg1', tokens'⟩ := read'
  dsimp only at hreg1 h ⊢
  have hread : ∃ read read' : Option Token × List Token,
      (if reg1.isSome then readIf (·.type == .register) tokens else (none, tokens)) = read ∧
      (if reg1'.isSome then readIf (·.type == .register) tokens' else (none, tokens')) = read' ∧
      Option.Rel Token.Alike read.1 read'.1 ∧ TokensAlike read.2 read'.2 := by
    cases hreg1 with
    | none => exact ⟨_, _, rfl, rfl, .none, h⟩
    | some _ => exact ⟨_, _, rfl, rfl, readIf_type_alike h .register⟩
  obtain ⟨⟨reg2, tokens⟩, ⟨reg2', tokens'⟩, hread, hread', hreg2, h⟩ := hread
  rw [hread, hread']
  dsimp only at hreg2 h ⊢
  obtain ⟨himm, h⟩ := readIf_alike h (p := isImmediate)
    fun t t' ht => by rw [isImmediate, isImmediate, ht.type]
  generalize readIf isImmediate tokens = read at himm h ⊢
  generalize readIf isImmediate tokens' = read' at himm h ⊢
  obtain ⟨imm, tokens⟩ := read
  obtain ⟨imm', tokens'⟩ := read'
  cases h with
  | nil => exact .ok ⟨hopcode, hcond, hreg1, hreg2, himm⟩
  | cons _ _ => exact .error _ _

theorem parserReadBody_alike (h : TokensAlike tokens tokens') :
    Lockstep LineBody.Alike (parserReadBody tokens) (parserReadBody tokens') := by
  cases h with
  | nil => exact .error _ _
  | cons head tail =>
      rename_i current current' rest rest'
      unfold parserReadBody
      dsimp only
      rw [head.type]
      split
      · exact (parserReadStatement_alike head tail).map fun _ _ => .stmt
      · refine Lockstep.map (R := Directive.Alike) ?_ fun _ _ => .dir
        unfold parserReadDirective getDirectiveType
        rw [head.value]
        split
        · exact .ok ⟨rfl, head, tail⟩
        · exact .error _ _
      · exact .error _ _

theorem parserReadLine_alike (h : TokensAlike tokens tokens') :
    Lockstep Line.Alike (parserReadLine tokens) (parserReadLine tokens') := by
  unfold parserReadLine
  obtain ⟨hlabel, h⟩ := readIf_type_alike h .labelInit
  generalize readIf (·.type == .labelInit) tokens = read at hlabel h ⊢
  generalize readIf (·.type == .labelInit) tokens' = read' at hlabel h ⊢
  obtain ⟨label, tokens⟩ := read
  obtain ⟨label', tokens'⟩ := read'
  dsimp only at hlabel h ⊢
  cases hlabel with
  | none => exact (parserReadBody_alike h).map fun _ _ hbody => ⟨rfl, hbody⟩
  | some hlabel =>
      have hempty : tokens ≠ [] ↔ tokens' ≠ [] := by
        cases h with
        | nil => exact Iff.rfl
        | cons _ _ => simp
      refine (Lockstep.require hempty).bind fun _ _ _ => ?_
      refine (parserReadBody_alike h).bind fun body body' hbody => ?_
      exact .ok ⟨congrArg some hlabel.value, hbody⟩

end Parser

/-! ## Directives -/

section Directives

variable {d d' : Directive} (h : d.Alike d')
include h

theorem encodeNumericData_alike (elementSize maximumValue : ℕ) :
    (encodeNumericData d elementSize maximumValue).toOption
      = (encodeNumericData d' elementSize maximumValue).toOption := by
  have helements := Lockstep.mapM h.argv fun t t' ht =>
    Lockstep.of_toOption_eq (numericElement_alike ht elementSize maximumValue)
  have hmapM : (d.argv.mapM (numericElement elementSize maximumValue)).toOption
      = (d'.argv.mapM (numericElement elementSize maximumValue)).toOption := by
    refine (helements.mono fun b c hbc => ?_).toOption_eq
    exact List.forall₂_eq_eq_eq ▸ hbc
  simp [encodeNumericData, h.argv.length_eq, hmapM]

theorem directiveGetRawData_alike :
    (directiveGetRawData d).toOption = (directiveGetRawData d').toOption := by
  have hascii : (d.argv.foldlM (appendAscii d.name) []).toOption
      = (d'.argv.foldlM (appendAscii d'.name) []).toOption := by
    refine (Lockstep.foldlM_related h.argv (R := Eq) (fun t t' b c ht hbc => ?_) rfl).toOption_eq
    subst hbc
    exact .of_toOption_eq (by simp [appendAscii, asciiValue_alike ht])
  have hnumeric := encodeNumericData_alike h
  unfold directiveGetRawData
  rw [h.type]
  cases d'.type
  case dirAscii => exact hascii
  case dirAsciiz => simp [hascii]
  case dirByte => exact hnumeric _ _
  case dirHword => exact hnumeric _ _
  case dirWord => exact hnumeric _ _
  case dirDword => exact hnumeric _ _
  case dirSpace =>
    have hargv := h.argv
    dsimp only
    generalize d.argv = argv at hargv ⊢
    generalize d'.argv = argv' at hargv ⊢
    cases hargv with
    | nil => rfl
    | cons head tail =>
        cases tail with
        | nil => simp [tokenGetIntValue_alike head]
        | cons _ _ => rfl
  all_goals rfl

theorem validateDirective_alike :
    (validateDirective d).toOption = (validateDirective d').toOption := by
  have harity : ∀ n, (requireArity d n).toOption = (requireArity d' n).toOption := by
    intro n
    simp [requireArity, h.argv.length_eq]
  have hsome : ∀ message, (requireSome d message).toOption = (requireSome d' message).toOption := by
    intro message
    have hlength := h.argv.length_eq
    simp only [requireSome, toOption_require, ne_eq, ← List.length_eq_zero_iff, hlength]
  have hfirst : ∀ (p : Token → Bool) message, (∀ t t' : Token, t.Alike t' → p t = p t') →
      (requireFirst d p message).toOption = (requireFirst d' p message).toOption := by
    intro p message hp
    unfold requireFirst
    have hargv := h.argv
    generalize d.argv = argv at hargv ⊢
    generalize d'.argv = argv' at hargv ⊢
    cases hargv with
    | nil => rfl
    | cons head tail => simp [hp _ _ head]
  have hvalues : ∀ allowString message, (requireValues d allowString message).toOption
      = (requireValues d' allowString message).toOption := by
    intro allowString message
    have hfind := find?_alike h.argv (p := (!isDataValueToken · allowString)) fun t t' ht => by
      rw [isDataValueToken, isDataValueToken, isIntegerToken, isIntegerToken, ht.type]
    unfold requireValues
    generalize d.argv.find? _ = found at hfind ⊢
    generalize d'.argv.find? _ = found' at hfind ⊢
    cases hfind <;> rfl
  have hid : ∀ t t' : Token, t.Alike t' → (t.type == .id) = (t'.type == .id) :=
    fun t t' ht => by rw [ht.type]
  have hinteger : ∀ t t' : Token, t.Alike t' → isIntegerToken t = isIntegerToken t' :=
    fun t t' ht => by rw [isIntegerToken, isIntegerToken, ht.type]
  unfold validateDirective
  rw [h.type]
  split <;> simp [harity, hsome, hvalues, hfirst _ _ hid, hfirst _ _ hinteger]

end Directives

/-! ## Recorded lines -/

inductive PlacedBody.Alike : PlacedBody → PlacedBody → Prop
  | stmt {s s' : Statement} (h : s.Alike s') : PlacedBody.Alike (.stmt s) (.stmt s')
  | raw (data : Bytes) : PlacedBody.Alike (.raw data) (.raw data)

/-- Two recorded lines that differ in locations only; the raw mode does not read their sections. -/
structure PlacedLine.Alike (r r' : PlacedLine) : Prop where
  label : r.label = r'.label
  body : r.body.Alike r'.body

theorem PlacedBody.Alike.size_eq {body body' : PlacedBody} (h : body.Alike body') :
    body.size = body'.size := by
  cases h <;> rfl

/-- Two contexts that differ in the locations of their recorded lines only. -/
inductive AssemblerContext.Alike (context : AssemblerContext) : AssemblerContext → Prop
  | mk {lines : List PlacedLine} (h : List.Forall₂ PlacedLine.Alike context.lines lines) :
      AssemblerContext.Alike context { context with lines }

/-- Two states that differ in the locations of their recorded lines only. -/
structure DirectiveState.Alike (state state' : DirectiveState) : Prop where
  context : state.context.Alike state'.context
  procedure : state'.procedure = state.procedure
  opens : state'.opens = state.opens

section States

variable {state state' : DirectiveState}

theorem selectSection_lines (context : AssemblerContext) (lines : List PlacedLine)
    (name : CString) :
    selectSection { context with lines } name = { selectSection context name with lines } := by
  unfold selectSection
  dsimp only
  split <;> rfl

theorem selectSection_alike {context context' : AssemblerContext} (h : context.Alike context')
    (name : CString) : (selectSection context name).Alike (selectSection context' name) := by
  cases h with
  | mk hlines =>
      rename_i lines
      rw [selectSection_lines context lines]
      refine ⟨?_⟩
      unfold selectSection
      split <;> exact hlines

theorem recordLine_alike {context context' : AssemblerContext} (h : context.Alike context')
    {body body' : PlacedBody} (hbody : body.Alike body') (label : Option CString) :
    Lockstep AssemblerContext.Alike (recordLine context label body)
      (recordLine context' label body') := by
  obtain ⟨hlines⟩ := h
  unfold recordLine
  dsimp only
  rw [← hbody.size_eq]
  refine (Lockstep.require Iff.rfl).bind fun _ _ _ => ?_
  refine (Lockstep.require Iff.rfl).bind fun _ _ _ => ?_
  exact .ok ⟨List.rel_append hlines (.cons ⟨rfl, hbody⟩ .nil)⟩

theorem setCurrent_alike {context context' : AssemblerContext} (h : context.Alike context')
    (s : AsmSection) : (context.setCurrent s).Alike (context'.setCurrent s) := by
  obtain ⟨hlines⟩ := h
  exact ⟨hlines⟩

theorem current_alike {context context' : AssemblerContext} (h : context.Alike context') :
    context'.current = context.current := by
  cases h
  rfl

theorem applyDirective_alike (h : state.Alike state') {d d' : Directive} (hd : d.Alike d')
    {argument argument' : Token} (hargument : argument.Alike argument') (last : Bool) :
    Lockstep DirectiveState.Alike (applyDirective state d argument last)
      (applyDirective state' d' argument' last) := by
  obtain ⟨context, procedure, opens⟩ := state
  obtain ⟨context', procedure', opens'⟩ := state'
  obtain ⟨hcontext, rfl, rfl⟩ := h
  dsimp only at hcontext
  unfold applyDirective
  rw [hd.type, hargument.value]
  cases d'.type
  case dirSection =>
    refine (Lockstep.require Iff.rfl).bind fun _ _ _ => ?_
    exact .ok ⟨selectSection_alike hcontext _, rfl, rfl⟩
  case dirGlobal =>
    obtain ⟨hlines⟩ := hcontext
    exact .ok ⟨⟨hlines⟩, rfl, rfl⟩
  case dirExtern =>
    obtain ⟨hlines⟩ := hcontext
    exact .ok ⟨⟨hlines⟩, rfl, rfl⟩
  case dirAlign =>
    dsimp only
    rw [current_alike hcontext]
    refine (Lockstep.of_toOption_eq (alignSection_alike hargument _)).bind fun s s' hs => ?_
    subst hs
    exact .ok ⟨setCurrent_alike hcontext s, rfl, rfl⟩
  case dirEntry =>
    obtain ⟨hlines⟩ := hcontext
    exact .ok ⟨⟨hlines⟩, rfl, rfl⟩
  case dirLocate =>
    dsimp only
    rw [current_alike hcontext]
    refine (Lockstep.of_toOption_eq (locateSection_alike hargument _)).bind fun s s' hs => ?_
    subst hs
    exact .ok ⟨setCurrent_alike hcontext s, rfl, rfl⟩
  case dirProc =>
    refine (Lockstep.require Iff.rfl).bind fun _ _ _ => ?_
    exact .ok ⟨hcontext, rfl, rfl⟩
  case dirEndProc => exact .ok ⟨hcontext, rfl, rfl⟩
  case dirMacro => exact .ok ⟨hcontext, rfl, rfl⟩
  case dirEndMacro => exact .ok ⟨hcontext, rfl, rfl⟩
  all_goals exact .error _ _

theorem processLine_alike (h : state.Alike state') {line line' : Line} (hline : line.Alike line')
    (last : Bool) :
    Lockstep DirectiveState.Alike (processLine state line last) (processLine state' line' last) := by
  have hlabel : lineLabel state' line' = lineLabel state line := by
    rw [lineLabel, lineLabel, h.procedure, h.opens, hline.label]
  have hclosed : DirectiveState.Alike { state with opens := false } { state' with opens := false } :=
    ⟨h.context, h.procedure, rfl⟩
  have hrecord : ∀ {body body' : PlacedBody}, body.Alike body' →
      Lockstep DirectiveState.Alike
        (do return { state with
          context := ← recordLine state.context (lineLabel state line) body, opens := false })
        (do return { state' with
          context := ← recordLine state'.context (lineLabel state line) body', opens := false }) :=
    fun hbody => (recordLine_alike h.context hbody _).bind fun _ _ hcontext =>
      .ok ⟨hcontext, h.procedure, rfl⟩
  obtain ⟨label, body⟩ := line
  obtain ⟨label', body'⟩ := line'
  obtain ⟨-, hbody⟩ := hline
  unfold processLine
  rw [hlabel]
  cases hbody with
  | stmt hs => exact hrecord (.stmt hs)
  | dir hd =>
      rename_i d d'
      dsimp only
      refine (Lockstep.of_toOption_eq (validateDirective_alike hd)).bind fun _ _ _ => ?_
      rw [hd.type]
      split
      · refine (Lockstep.of_toOption_eq (directiveGetRawData_alike hd)).bind fun data data' hdata => ?_
        subst hdata
        exact hrecord (.raw data)
      · have hargument : (d.argv.headD d.name).Alike (d'.argv.headD d'.name) := by
          have hargv := hd.argv
          generalize d.argv = argv at hargv ⊢
          generalize d'.argv = argv' at hargv ⊢
          cases hargv with
          | nil => exact hd.name
          | cons head _ => exact head
        exact applyDirective_alike hclosed hd hargument last

theorem processLines_alike {lines lines' : List Line} (hlines : List.Forall₂ Line.Alike lines lines') :
    ∀ {state state' : DirectiveState}, state.Alike state' →
      Lockstep DirectiveState.Alike (processLines state lines) (processLines state' lines') := by
  induction hlines with
  | nil => exact fun h => .ok h
  | cons head tail ih =>
      intro state state' h
      rename_i line line' rest rest'
      have hempty : rest.isEmpty = rest'.isEmpty := by cases tail <;> rfl
      rw [processLines, processLines, hempty]
      exact (processLine_alike h head _).bind fun _ _ hnext => ih hnext

end States

/-! ## The raw image -/

theorem asmProcessDirectives_alike {lines lines' : List Line}
    (h : List.Forall₂ Line.Alike lines lines') :
    Lockstep AssemblerContext.Alike (asmProcessDirectives lines) (asmProcessDirectives lines') := by
  have hinit : DirectiveState.Alike { context := asmInit, procedure := none, opens := false }
      { context := asmInit, procedure := none, opens := false } := ⟨⟨.nil⟩, rfl, rfl⟩
  exact (processLines_alike h hinit).bind fun _ _ hstate => .ok hstate.context

theorem asmProcessLabels_alike {context context' : AssemblerContext} (h : context.Alike context') :
    (asmProcessLabels context).toOption = (asmProcessLabels context').toOption := by
  cases h with
  | mk hlines =>
      rename_i lines
      have hfold : (context.lines.foldlM processLabel ([], 0)).toOption
          = (lines.foldlM processLabel ([], 0)).toOption := by
        refine (Lockstep.foldlM_related hlines (R := Eq) (fun r r' b c hr hbc => ?_) rfl).toOption_eq
        subst hbc
        refine .of_toOption_eq ?_
        unfold processLabel
        rw [hr.label, PlacedLine.size, PlacedLine.size, hr.body.size_eq]
      simp only [asmProcessLabels, toOption_bind, hfold]

theorem parseOptional_alike {α : Type} {parse : Token → Except AsmFailure α} (default : α)
    {token token' : Option Token} (h : Option.Rel Token.Alike token token')
    (hparse : ∀ t t' : Token, t.Alike t' → (parse t).toOption = (parse t').toOption) :
    (parseOptional parse default token).toOption = (parseOptional parse default token').toOption := by
  cases h with
  | none => rfl
  | some h => exact hparse _ _ h

theorem validateOperands_alike {s s' : Statement} (h : s.Alike s') (opcode : Option Opcode) :
    (validateOperands opcode s).toOption = (validateOperands opcode s').toOption := by
  have hsome : ∀ {token token' : Option Token}, Option.Rel Token.Alike token token' →
      token.isSome = token'.isSome := by
    rintro _ _ (_ | _) <;> rfl
  unfold validateOperands
  rw [hsome h.reg1, hsome h.reg2, hsome h.imm]
  cases opcode with
  | none => rfl
  | some opcode => simp

theorem encodeRawStatement_alike (labels : List LabelInfo) {s s' : Statement} (h : s.Alike s') :
    (encodeRawStatement labels s).toOption = (encodeRawStatement labels s').toOption := by
  simp [encodeRawStatement, h.opcode.value, validateOperands_alike h,
    parseOptional_alike _ h.cond fun _ _ => parseCondition_alike,
    parseOptional_alike _ h.reg1 fun _ _ => parseRegister_alike,
    parseOptional_alike _ h.reg2 fun _ _ => parseRegister_alike,
    parseOptional_alike _ h.imm fun _ _ ht => rawImmediate_alike ht labels]

theorem asmTranslate_alike (labels : List LabelInfo) {lines lines' : List PlacedLine}
    (h : List.Forall₂ PlacedLine.Alike lines lines') :
    (asmTranslate labels lines).toOption = (asmTranslate labels lines').toOption := by
  have hfold : ∀ state : RawState, (lines.foldlM (translateRawLine labels) state).toOption
      = (lines'.foldlM (translateRawLine labels) state).toOption := by
    intro state
    refine (Lockstep.foldlM_related h (R := Eq) (fun r r' b c hr hbc => ?_) rfl).toOption_eq
    subst hbc
    refine .of_toOption_eq ?_
    have hbytes : (rawLineBytes labels r).toOption = (rawLineBytes labels r').toOption := by
      have hbody := hr.body
      unfold rawLineBytes
      generalize r.body = body at hbody ⊢
      generalize r'.body = body' at hbody ⊢
      cases hbody with
      | stmt hs => exact encodeRawStatement_alike labels hs
      | raw data => rfl
    simp [translateRawLine, hbytes]
  simp [asmTranslate, hfold]

/-- The raw image of some lines. -/
def rawBytes (lines : List Line) : Except AsmFailure Bytes := do
  let context ← asmProcessDirectives lines
  let labels ← asmProcessLabels context
  asmTranslate labels context.lines

/-- **Like lines give the same image**, or none. -/
theorem rawBytes_alike {lines lines' : List Line} (h : List.Forall₂ Line.Alike lines lines') :
    (rawBytes lines).toOption = (rawBytes lines').toOption := by
  refine ((asmProcessDirectives_alike h).bind fun context context' hcontext => ?_).toOption_eq
  refine (Lockstep.of_toOption_eq (asmProcessLabels_alike hcontext)).bind fun labels labels' hl => ?_
  subst hl
  obtain ⟨hlines⟩ := hcontext
  exact .of_toOption_eq (asmTranslate_alike labels hlines)

end Zlvm
