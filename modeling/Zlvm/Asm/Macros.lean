import Zlvm.Asm.Lexer

/-!
# Macros

`Macros.c`.  A position in a token list is the list from there on, and the pair of pointers around a
macro's body is the list between them.  No two macros of a table have the same name, so a macro is
told from another by its name where the source compares pointers.

* `captureMacros` — the definitions of a token list.
* `readArguments` — the arguments of an invocation, in the order of the parameters.
* `substitute_parameter`, `substitute_other`, `substitute_type_labelInit` — what takes the place of a
  token of a body.
* `expandTokens`, `expandMacro` — `expand_range` and `expand_macro`.  The recursion between them is
  on the room left on the stack of 64 macros.
* `captureMacros_eq`, `expandTokens_eq` — the fuel of the two loops is enough.
-/

namespace Zlvm

open Loop

structure Macro where
  name : Token
  parameters : List Token
  body : List Token
deriving DecidableEq

/-! ## Token lists -/

/-- `is_directive`. -/
def isDirective (token : Token) (name : String) : Bool :=
  token.type == .directive && token.value == CString.lit name

/-- `clone_token`. -/
def cloneToken (source : Token) : Option Token → Token
  | none => source
  | some location =>
      { source with
        pos := location.pos
        line := location.line
        col := location.col
        sourceSize := location.sourceSize }

/-- The tokens before the end of the line. -/
def lineTokens (tokens : List Token) : List Token := tokens.takeWhile (·.type != .newline)

/-- The tokens of the following lines: those after `line_end`. -/
def nextLine (tokens : List Token) : List Token := (tokens.dropWhile (·.type != .newline)).drop 1

/-- `find_macro`. -/
def findMacro (macros : List Macro) (name : CString) : Option Macro :=
  macros.find? (·.name.value == name)

/-! ## Definitions -/

/-- `add_parameter`. -/
def addParameter (parameters : List Token) (parameter : Token) :
    Except AsmFailure (List Token) := do
  require (parameter.type = .id) (asmTokenFail .macroInvalidArgument
    "Macro parameter must be an identifier" parameter)
  require (¬parameters.any (·.value == parameter.value))
    (asmTokenFail .macroInvalidArgument "Duplicate macro parameter" parameter)
  return parameters ++ [parameter]

/-- The parameters on the header line of a definition, after its name. -/
def readParameters (arguments : List Token) : Except AsmFailure (List Token) :=
  ((arguments.takeWhile (·.type != .comment)).filter (·.type != .comma)).foldlM addParameter []

/-- `capture_macro`; `rest` follows the directive `definition`.  The result is the macro and the
tokens after its definition. -/
def captureMacro (macros : List Macro) (definition : Token) (rest : List Token) :
    Except AsmFailure (Macro × List Token) :=
  match lineTokens rest with
  | [] => .error (asmTokenFail .macroInvalidArgument ".macro expects a name" definition)
  | name :: arguments => do
      require (name.type = .id)
        (asmTokenFail .macroInvalidArgument ".macro expects a name" definition)
      require (findMacro macros name.value = none)
        (asmTokenFail .macroDuplicateDefinition "Duplicate macro definition" name)
      let parameters ← readParameters arguments
      let body := (nextLine rest).takeWhile (!isDirective · "endmacro")
      let ending := (nextLine rest).dropWhile (!isDirective · "endmacro")
      match body.find? (isDirective · "macro") with
      | some nested => throw (asmTokenFail .macroInvalidArgument
          "Nested macro definitions are not supported" nested)
      | none =>
          require (ending ≠ [])
            (asmTokenFail .macroInvalidArgument "Unterminated macro definition" name)
          match (lineTokens (ending.drop 1)).find? (·.type != .comment) with
          | some argument => throw (asmTokenFail .macroInvalidArgument
              ".endmacro does not accept arguments" argument)
          | none => return ({ name, parameters, body }, nextLine ending)

/-- `capture_macros`, from a table of macros already captured, in a list of at most `fuel`
tokens. -/
def captureMacros : ℕ → List Macro → List Token → Except AsmFailure (List Macro)
  | 0, macros, _ => .ok macros
  | _ + 1, macros, [] => .ok macros
  | fuel + 1, macros, token :: rest =>
      if isDirective token "macro" then do
        let (captured, rest) ← captureMacro macros token rest
        captureMacros fuel (captured :: macros) rest
      else if isDirective token "endmacro" then
        .error (asmTokenFail .macroInvalidArgument ".endmacro without a matching .macro" token)
      else captureMacros fuel macros rest

/-- `skip_macro_definition`. -/
def skipMacroDefinition (tokens : List Token) : List Token :=
  nextLine (tokens.dropWhile (!isDirective · "endmacro"))

/-! ## Arguments -/

/-- `parameter_index`; the number of parameters if there is none of the name. -/
def parameterIndex (m : Macro) (name : CString) : ℕ :=
  m.parameters.findIdx (·.value == name)

/-- `named_argument_value`: the only token of the text after the equals sign. -/
def namedArgumentValue (value : CString) (invocation : Token) : Except AsmFailure Token := do
  let lexer := { lexerInit value with
    sourcePos := invocation.pos
    sourceLine := invocation.line
    sourceCol := invocation.col }
  let failure := asmTokenFail .macroInvalidArgument
    "Macro named argument must contain one value" invocation
  match ← lexerReadToken lexer with
  | none => throw failure
  | some (token, lexer) =>
      match ← lexerReadToken lexer with
      | some _ => throw failure
      | none => return cloneToken token (some invocation)

/-- What the loop over the arguments carries. -/
structure ArgumentState where
  arguments : List (Option Token)
  positionalIndex : ℕ
  hasNamedArgument : Bool

/-- The equals sign of a named argument. -/
def equalsSign : Byte := 0x3D

/-- One pass of the loop over the arguments. -/
def readArgument (m : Macro) (invocation : Token) (state : ArgumentState) (argument : Token) :
    Except AsmFailure ArgumentState :=
  if argument.type = .id ∧ equalsSign ∈ argument.value.bytes then do
    let nameSize := argument.value.bytes.idxOf equalsSign
    let value := argument.value.drop (nameSize + 1)
    require (nameSize ≠ 0 ∧ value ≠ CString.empty)
      (asmTokenFail .macroInvalidArgument "Malformed macro named argument" invocation)
    let index := parameterIndex m (argument.value.take nameSize)
    require (index < m.parameters.length ∧ (state.arguments.getD index none).isNone)
      (asmTokenFail .macroInvalidArgument "Unknown or duplicate macro named argument" invocation)
    let token ← namedArgumentValue value invocation
    return { state with
      arguments := state.arguments.set index (some token)
      hasNamedArgument := true }
  else do
    require (state.hasNamedArgument = false ∧ state.positionalIndex < m.parameters.length)
      (asmTokenFail .macroInvalidArgument "Invalid macro argument" invocation)
    return { state with
      arguments := state.arguments.set state.positionalIndex (some argument)
      positionalIndex := state.positionalIndex + 1 }

/-- `read_arguments`: the value of every parameter. -/
def readArguments (m : Macro) (tokens : List Token) (invocation : Token) :
    Except AsmFailure (List Token) := do
  let arguments := (tokens.takeWhile (·.type != .comment)).filter (·.type != .comma)
  let state ← arguments.foldlM (readArgument m invocation)
    { arguments := List.replicate m.parameters.length none
      positionalIndex := 0
      hasNamedArgument := false }
  state.arguments.mapM fun argument =>
    match argument with
    | some token => Except.ok token
    | none => .error (asmTokenFail .macroInvalidArgument "Missing macro argument" invocation)

/-! ## Expansion -/

/-- The token of a body after its parameters have been replaced. -/
def substitute (m : Macro) (values : List Token) (invocation token : Token) : Token :=
  let index :=
    if token.type = .id ∨ token.type = .labelUse ∨ token.type = .labelInit then
      parameterIndex m token.value
    else m.parameters.length
  match values[index]? with
  | none => cloneToken token (some invocation)
  | some value =>
      let expanded := cloneToken value (some invocation)
      if token.type = .labelInit then { expanded with type := .labelInit } else expanded

section Substitute

variable {m : Macro} {values : List Token} {invocation token value : Token}

/-- A parameter is replaced by its value, which defines a label where the parameter does. -/
theorem substitute_parameter
    (hkind : token.type = .id ∨ token.type = .labelUse ∨ token.type = .labelInit)
    (hvalue : values[parameterIndex m token.value]? = some value) :
    substitute m values invocation token
      = { cloneToken value (some invocation) with
          type := if token.type = .labelInit then .labelInit else value.type } := by
  rw [substitute, if_pos hkind, hvalue]
  dsimp only
  split <;> rfl

/-- Any other token is copied. -/
theorem substitute_other (hlength : values.length = m.parameters.length)
    (hother : ¬(token.type = .id ∨ token.type = .labelUse ∨ token.type = .labelInit) ∨
      ∀ parameter ∈ m.parameters, parameter.value ≠ token.value) :
    substitute m values invocation token = cloneToken token (some invocation) := by
  have hindex : (if token.type = .id ∨ token.type = .labelUse ∨ token.type = .labelInit then
      parameterIndex m token.value else m.parameters.length) = m.parameters.length := by
    rcases hother with hkind | hname
    · rw [if_neg hkind]
    · rw [parameterIndex, List.findIdx_eq_length.mpr fun p hp => beq_eq_false_iff_ne.mpr (hname p hp),
        ite_self]
  rw [substitute, hindex]
  dsimp only
  rw [List.getElem?_eq_none (Nat.le_of_eq hlength)]

/-- A label definition stays one. -/
theorem substitute_type_labelInit (h : token.type = .labelInit) :
    (substitute m values invocation token).type = .labelInit := by
  unfold substitute
  dsimp only
  split
  · exact h
  · rw [if_pos h]

end Substitute

/-- The mark of an explicit invocation. -/
def invocationMark : Byte := 0x40

/-- The name under which a token at the start of a line invokes a macro. -/
def invocationName (token : Token) : CString :=
  if token.value.bytes.headD 0 = invocationMark then token.value.drop 1 else token.value

/-- `expand_range`, with `expand` for `expand_macro`, in a list of at most `fuel` tokens. -/
def expandTokens (expand : Macro → List Token → Token → Except AsmFailure (List Token))
    (macros : List Macro) (location : Option Token) :
    ℕ → Bool → List Token → Except AsmFailure (List Token)
  | 0, _, _ => .ok []
  | _ + 1, _, [] => .ok []
  | fuel + 1, isLineStart, token :: rest =>
      let copied := do
        let isLineStart := token.type == .newline || (isLineStart && token.type == .labelInit)
        return cloneToken token location ::
          (← expandTokens expand macros location fuel isLineStart rest)
      if isDirective token "macro" then
        expandTokens expand macros location fuel true (skipMacroDefinition (token :: rest))
      else if isLineStart ∧ token.type = .id then
        match findMacro macros (invocationName token) with
        | some m => do
            let expansion ← expand m (lineTokens rest) token
            return expansion ++ (← expandTokens expand macros location fuel true (nextLine rest))
        | none =>
            if token.value.bytes.headD 0 = invocationMark then
              .error (asmTokenFail .macroUndefined "Undefined macro" token)
            else copied
      else copied

/-- `expand_macro`; `room` is what `stack`, which holds the macros being expanded, has left of its
64 places. -/
def expandMacro (macros : List Macro) : ℕ → List Macro → Macro → List Token → Token →
    Except AsmFailure (List Token)
  | room, stack, m, arguments, invocation => do
      require (¬stack.any (·.name.value == m.name.value))
        (asmTokenFail .macroRecursion "Recursive macro expansion" invocation)
      match room with
      | 0 => throw (asmTokenFail .macroRecursion "Macro expansion depth exceeds 64" invocation)
      | room + 1 =>
          let values ← readArguments m arguments invocation
          let body := m.body.map (substitute m values invocation)
          expandTokens (expandMacro macros room (m :: stack)) macros (some invocation)
            body.length true body

/-- `macros_expand`. -/
def macrosExpand (tokens : List Token) : Except AsmFailure (List Token) := do
  let macros ← captureMacros tokens.length [] tokens
  expandTokens (expandMacro macros 64 []) macros none tokens.length true tokens

/-! ## Progress -/

theorem nextLine_length_le (tokens : List Token) :
    (nextLine tokens).length ≤ tokens.length := by
  have hdrop := (List.dropWhile_sublist (·.type != .newline) (l := tokens)).length_le
  rw [nextLine, List.length_drop]
  omega

/-- `.macro` and `.endmacro` are different directives. -/
theorem not_ending_of_definition {token : Token} (h : isDirective token "macro" = true) :
    isDirective token "endmacro" = false := by
  have hname : (CString.lit "macro" == CString.lit "endmacro") = false := by decide
  simp only [isDirective, Bool.and_eq_true, beq_iff_eq] at h
  rw [isDirective, h.2, hname, Bool.and_false]

theorem skipMacroDefinition_length_lt {token : Token} {rest : List Token}
    (h : isDirective token "macro" = true) :
    (skipMacroDefinition (token :: rest)).length ≤ rest.length := by
  rw [skipMacroDefinition, List.dropWhile_cons_of_pos (by simp [not_ending_of_definition h])]
  exact Nat.le_trans (nextLine_length_le _) (List.dropWhile_sublist _).length_le

theorem captureMacro_length_le {macros : List Macro} {definition : Token} {rest after : List Token}
    {m : Macro} (h : captureMacro macros definition rest = .ok (m, after)) :
    after.length ≤ rest.length := by
  unfold captureMacro at h
  split at h
  · cases h
  · simp only [bind_eq_ok] at h
    obtain ⟨-, -, -, -, parameters, -, h⟩ := h
    split at h
    · cases h
    · simp only [bind_eq_ok] at h
      obtain ⟨-, -, h⟩ := h
      split at h
      · cases h
      · cases h
        exact Nat.le_trans (nextLine_length_le _) (Nat.le_trans
          (List.dropWhile_sublist _).length_le (nextLine_length_le _))

/-- More fuel than there are tokens captures the same macros. -/
theorem captureMacros_eq : ∀ (fuel fuel' : ℕ) (macros : List Macro) (tokens : List Token),
    tokens.length ≤ fuel → tokens.length ≤ fuel' →
      captureMacros fuel macros tokens = captureMacros fuel' macros tokens
  | 0, 0, _, _, _, _ => rfl
  | 0, _ + 1, _, tokens, h, _ => by
      obtain rfl := List.length_eq_zero_iff.mp (Nat.le_zero.mp h)
      rfl
  | _ + 1, 0, _, tokens, _, h => by
      obtain rfl := List.length_eq_zero_iff.mp (Nat.le_zero.mp h)
      rfl
  | _ + 1, _ + 1, _, [], _, _ => rfl
  | fuel + 1, fuel' + 1, macros, token :: rest, h, h' => by
      rw [List.length_cons] at h h'
      rw [captureMacros, captureMacros]
      split
      · cases hcapture : captureMacro macros token rest with
        | error e => rfl
        | ok next =>
            obtain ⟨m, after⟩ := next
            have hle := captureMacro_length_le hcapture
            exact captureMacros_eq fuel fuel' (m :: macros) after (by omega) (by omega)
      · split
        · rfl
        · exact captureMacros_eq fuel fuel' macros rest (by omega) (by omega)

/-- More fuel than there are tokens expands to the same. -/
theorem expandTokens_eq (expand : Macro → List Token → Token → Except AsmFailure (List Token))
    (macros : List Macro) (location : Option Token) :
    ∀ (fuel fuel' : ℕ) (isLineStart : Bool) (tokens : List Token),
      tokens.length ≤ fuel → tokens.length ≤ fuel' →
        expandTokens expand macros location fuel isLineStart tokens
          = expandTokens expand macros location fuel' isLineStart tokens
  | 0, 0, _, _, _, _ => rfl
  | 0, _ + 1, _, tokens, h, _ => by
      obtain rfl := List.length_eq_zero_iff.mp (Nat.le_zero.mp h)
      rfl
  | _ + 1, 0, _, tokens, _, h => by
      obtain rfl := List.length_eq_zero_iff.mp (Nat.le_zero.mp h)
      rfl
  | _ + 1, _ + 1, _, [], _, _ => rfl
  | fuel + 1, fuel' + 1, isLineStart, token :: rest, h, h' => by
      rw [List.length_cons] at h h'
      have ih : ∀ (start : Bool) (tokens : List Token), tokens.length ≤ rest.length →
          expandTokens expand macros location fuel start tokens
            = expandTokens expand macros location fuel' start tokens := fun start tokens hle =>
        expandTokens_eq expand macros location fuel fuel' start tokens (by omega) (by omega)
      rw [expandTokens, expandTokens]
      simp only [ih _ rest (Nat.le_refl _), ih _ _ (nextLine_length_le rest)]
      split
      · rename_i hdefinition
        exact ih _ _ (skipMacroDefinition_length_lt hdefinition)
      · rfl

end Zlvm
