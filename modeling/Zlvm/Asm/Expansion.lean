import Zlvm.Asm.Macros

/-!
# The expansion, one token at a time

What `expand_range` does at a token, without the fuel of its loop.

* `expandAll` — the loop with enough fuel.
* `AtToken` — the four cases at a token; `atToken` — there is no other.
* `expandAll_definition`, `expandAll_invocation`, `expandAll_undefined`, `expandAll_copied` — what
  happens in each.
* `captureAll` — `capture_macros` in the same way.
-/

namespace Zlvm

open Loop

variable {expand : Macro → List Token → Token → Except AsmFailure (List Token)}
  {macros : List Macro} {location : Option Token} {isLineStart : Bool} {token : Token}
  {rest : List Token}

/-- `expand_range`. -/
def expandAll (expand : Macro → List Token → Token → Except AsmFailure (List Token))
    (macros : List Macro) (location : Option Token) (isLineStart : Bool) (tokens : List Token) :
    Except AsmFailure (List Token) :=
  expandTokens expand macros location tokens.length isLineStart tokens

/-- Whether the token behind a copied one is at the start of a line. -/
def nextLineStart (isLineStart : Bool) (token : Token) : Bool :=
  token.type == .newline || (isLineStart && token.type == .labelInit)

/-- What `expand_range` finds at a token. -/
inductive AtToken (macros : List Macro) (isLineStart : Bool) (token : Token) : Prop
  | definition (definition : isDirective token "macro" = true)
  | invocation {m : Macro} (ordinary : isDirective token "macro" = false)
      (start : isLineStart = true) (id : token.type = .id)
      (found : findMacro macros (invocationName token) = some m)
  | undefined (ordinary : isDirective token "macro" = false) (start : isLineStart = true)
      (id : token.type = .id) (missing : findMacro macros (invocationName token) = none)
      (explicit : token.value.bytes.headD 0 = invocationMark)
  | copied (ordinary : isDirective token "macro" = false)
      (plain : isLineStart = true → token.type = .id →
        findMacro macros (invocationName token) = none ∧
          token.value.bytes.headD 0 ≠ invocationMark)

theorem atToken (macros : List Macro) (isLineStart : Bool) (token : Token) :
    AtToken macros isLineStart token := by
  cases hdefinition : isDirective token "macro" with
  | true => exact .definition hdefinition
  | false =>
      by_cases hstart : isLineStart = true ∧ token.type = .id
      · cases hfound : findMacro macros (invocationName token) with
        | some m => exact .invocation hdefinition hstart.1 hstart.2 hfound
        | none =>
            by_cases hexplicit : token.value.bytes.headD 0 = invocationMark
            · exact .undefined hdefinition hstart.1 hstart.2 hfound hexplicit
            · exact .copied hdefinition fun _ _ => ⟨hfound, hexplicit⟩
      · exact .copied hdefinition fun h hid => absurd ⟨h, hid⟩ hstart

@[simp] theorem expandAll_nil : expandAll expand macros location isLineStart [] = .ok [] := rfl

theorem expandAll_definition (h : isDirective token "macro" = true) :
    expandAll expand macros location isLineStart (token :: rest)
      = expandAll expand macros location true (skipMacroDefinition (token :: rest)) := by
  rw [expandAll, List.length_cons, expandTokens, if_pos h]
  exact expandTokens_eq _ _ _ _ _ _ _ (skipMacroDefinition_length_lt h) (Nat.le_refl _)

theorem expandAll_invocation {m : Macro} (ordinary : isDirective token "macro" = false)
    (id : token.type = .id) (found : findMacro macros (invocationName token) = some m) :
    expandAll expand macros location true (token :: rest) = do
      let expansion ← expand m (lineTokens rest) token
      return expansion ++ (← expandAll expand macros location true (nextLine rest)) := by
  rw [expandAll, List.length_cons, expandTokens, if_neg (by simp [ordinary]), if_pos ⟨rfl, id⟩,
    found]
  dsimp only
  rw [expandTokens_eq _ _ _ rest.length (nextLine rest).length true _ (nextLine_length_le _)
    (Nat.le_refl _)]
  rfl

theorem expandAll_undefined (ordinary : isDirective token "macro" = false)
    (id : token.type = .id) (missing : findMacro macros (invocationName token) = none)
    (explicit : token.value.bytes.headD 0 = invocationMark) :
    expandAll expand macros location true (token :: rest)
      = .error (asmTokenFail .macroUndefined "Undefined macro" token) := by
  rw [expandAll, List.length_cons, expandTokens, if_neg (by simp [ordinary]), if_pos ⟨rfl, id⟩,
    missing]
  exact if_pos explicit

theorem expandAll_copied (ordinary : isDirective token "macro" = false)
    (plain : isLineStart = true → token.type = .id →
      findMacro macros (invocationName token) = none ∧
        token.value.bytes.headD 0 ≠ invocationMark) :
    expandAll expand macros location isLineStart (token :: rest) = do
      return cloneToken token location ::
        (← expandAll expand macros location (nextLineStart isLineStart token) rest) := by
  rw [expandAll, List.length_cons, expandTokens, if_neg (by simp [ordinary])]
  split
  · rename_i hstart
    obtain ⟨hmissing, hexplicit⟩ := plain hstart.1 hstart.2
    rw [hmissing]
    exact if_neg hexplicit
  · rfl

/-! ## Definitions -/

/-- `capture_macros`. -/
def captureAll (macros : List Macro) (tokens : List Token) : Except AsmFailure (List Macro) :=
  captureMacros tokens.length macros tokens

@[simp] theorem captureAll_nil : captureAll macros [] = .ok macros := rfl

theorem captureAll_definition (h : isDirective token "macro" = true) :
    captureAll macros (token :: rest) = (do
      let captured ← captureMacro macros token rest
      captureAll (captured.1 :: macros) captured.2) := by
  rw [captureAll, List.length_cons, captureMacros, if_pos h]
  cases hcapture : captureMacro macros token rest with
  | error e => rfl
  | ok captured =>
      exact captureMacros_eq _ _ _ _ (captureMacro_length_le hcapture) (Nat.le_refl _)

theorem captureAll_ending (h : isDirective token "macro" = false)
    (hending : isDirective token "endmacro" = true) :
    captureAll macros (token :: rest) = .error (asmTokenFail .macroInvalidArgument
      ".endmacro without a matching .macro" token) := by
  rw [captureAll, List.length_cons, captureMacros, if_neg (by simp [h]), if_pos hending]

theorem captureAll_other (h : isDirective token "macro" = false)
    (hending : isDirective token "endmacro" = false) :
    captureAll macros (token :: rest) = captureAll macros rest := by
  rw [captureAll, List.length_cons, captureMacros, if_neg (by simp [h]), if_neg (by simp [hending])]
  rfl

/-! ## Invocations -/

/-- `expand_macro` when it is not refused. -/
theorem expandMacro_succ {room : ℕ} {stack : List Macro} {m : Macro} {arguments : List Token}
    {invocation : Token} :
    expandMacro macros (room + 1) stack m arguments invocation = (do
      require (¬stack.any (·.name.value == m.name.value))
        (asmTokenFail .macroRecursion "Recursive macro expansion" invocation)
      let values ← readArguments m arguments invocation
      expandAll (expandMacro macros room (m :: stack)) macros (some invocation) true
        (m.body.map (substitute m values invocation))) := by
  rw [expandMacro]
  simp only [expandAll, List.length_map]

theorem expandMacro_zero {stack : List Macro} {m : Macro} {arguments : List Token}
    {invocation : Token} :
    expandMacro macros 0 stack m arguments invocation = (do
      require (¬stack.any (·.name.value == m.name.value))
        (asmTokenFail .macroRecursion "Recursive macro expansion" invocation)
      throw (asmTokenFail .macroRecursion "Macro expansion depth exceeds 64" invocation)) := by
  rw [expandMacro]

/-- `macros_expand`. -/
theorem macrosExpand_eq (tokens : List Token) :
    macrosExpand tokens = (do
      let macros ← captureMacros tokens.length [] tokens
      expandAll (expandMacro macros 64 []) macros none true tokens) := rfl

end Zlvm
