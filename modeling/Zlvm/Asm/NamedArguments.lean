import Zlvm.Asm.Diagnostics
import Zlvm.Asm.Expansion
import Zlvm.Asm.Rebase

/-!
# The named arguments that an expansion reads

The second lexer is the only part of the assembler whose failures may point elsewhere.  An expansion
stops at the first failure, so what matters is which named arguments it comes to.

* `ReadsArgument` — the arguments of one invocation are read up to a named one.
* `Reads` — an expansion comes to the named argument of some invocation.
* `expandAll_ensures` — every failure of an expansion is one of a token, or of the second lexer on a
  named argument that it comes to.
* `expandAll_reads` — on such an argument, the expansion fails as `named_argument_value` does.
-/

namespace Zlvm

open Loop

variable {P : SourceLocation → Prop}

/-! ## The arguments of an invocation -/

/-- What the loop over the arguments starts with. -/
def argumentInit (m : Macro) : ArgumentState where
  arguments := List.replicate m.parameters.length none
  positionalIndex := 0
  hasNamedArgument := false

/-- The arguments on the line of an invocation. -/
def argumentTokens (tokens : List Token) : List Token :=
  (tokens.takeWhile (·.type != .comment)).filter (·.type != .comma)

/-- The arguments are accepted if the loop leaves no parameter without a value. -/
theorem readArguments_eq_ok {m : Macro} {tokens values : List Token} {invocation : Token} :
    readArguments m tokens invocation = .ok values ↔
      ∃ state, (argumentTokens tokens).foldlM (readArgument m invocation) (argumentInit m)
          = .ok state ∧ state.arguments = values.map some := by
  change ((argumentTokens tokens).foldlM (readArgument m invocation) (argumentInit m) >>=
    fun state => state.arguments.mapM _) = _ ↔ _
  rw [bind_eq_ok]
  refine exists_congr fun state => and_congr_right fun _ => ?_
  rw [mapM_eq_ok_iff, ← List.forall₂_eq_eq_eq, List.forall₂_map_right_iff]
  constructor
  · refine List.Forall₂.imp fun argument value hargument => ?_
    cases argument with
    | some token => exact congrArg some (Except.ok.inj hargument)
    | none => cases hargument
  · refine List.Forall₂.imp fun argument value hargument => ?_
    rw [hargument]

/-- The parameter that a named argument names. -/
def namedIndex (m : Macro) (argument : Token) : ℕ :=
  parameterIndex m (argument.value.take (argument.value.bytes.idxOf equalsSign))

/-- The argument is a named one with the text `value`, for a parameter without a value. -/
structure AsksFor (m : Macro) (state : ArgumentState) (argument : Token) (value : CString) :
    Prop where
  named : argument.type = .id ∧ equalsSign ∈ argument.value.bytes
  value_eq : argument.value.drop (argument.value.bytes.idxOf equalsSign + 1) = value
  nonempty : argument.value.bytes.idxOf equalsSign ≠ 0 ∧ value ≠ CString.empty
  free : namedIndex m argument < m.parameters.length ∧
    (state.arguments.getD (namedIndex m argument) none).isNone

/-- The arguments of an invocation are read up to the named one with the text `value`. -/
def ReadsArgument (m : Macro) (tokens : List Token) (invocation : Token) (value : CString) : Prop :=
  ∃ before argument after state, argumentTokens tokens = before ++ argument :: after ∧
    before.foldlM (readArgument m invocation) (argumentInit m) = .ok state ∧
    AsksFor m state argument value

theorem readArgument_asksFor {m : Macro} {state : ArgumentState} {argument : Token}
    {value : CString} (h : AsksFor m state argument value) (invocation : Token) :
    readArgument m invocation state argument = (do
      let token ← namedArgumentValue value invocation
      return { state with
        arguments := state.arguments.set (namedIndex m argument) (some token)
        hasNamedArgument := true }) := by
  obtain ⟨hnamed, rfl, hnonempty, hfree⟩ := h
  rw [readArgument, if_pos hnamed]
  dsimp only
  rw [require_of hnonempty, ok_bind, ← namedIndex, require_of hfree, ok_bind]

/-- One argument. -/
theorem readArgument_ensures {m : Macro} {state : ArgumentState} {argument invocation : Token}
    (hinvocation : P invocation.location) (hargument : P argument.location)
    (hstate : ∀ token, some token ∈ state.arguments → P token.location)
    (hrejected : ∀ value place, AsksFor m state argument value → rejectedAt value = some place →
      P (place.rebase invocation)) :
    Ensures (readArgument m invocation state argument)
      (fun state => ∀ token, some token ∈ state.arguments → P token.location)
      (AsmFailure.Within P) := by
  have hset : ∀ {i value}, P value.location →
      ∀ token, some token ∈ state.arguments.set i (some value) → P token.location := by
    intro i value hvalue token htoken
    rcases List.mem_or_eq_of_mem_set htoken with htoken | htoken
    · exact hstate token htoken
    · exact Option.some.inj htoken ▸ hvalue
  have hfail : ∀ {code message}, (asmTokenFail code message invocation).Within P :=
    within_asmTokenFail.mpr hinvocation
  rw [readArgument]
  split
  · rename_i hnamed
    refine Ensures.require_bind (fun _ => hfail) fun hnonempty => ?_
    refine Ensures.require_bind (fun _ => hfail) fun hfree => ?_
    refine (namedArgumentValue_ensures hinvocation fun place hplace => ?_).bind fun token htoken => ?_
    · exact hrejected _ place ⟨hnamed, rfl, hnonempty, hfree⟩ hplace
    · exact hset htoken
  · exact Ensures.require_bind (fun _ => hfail) fun _ => hset hargument

section Arguments

variable {m : Macro} {tokens : List Token} {invocation : Token}

/-- **The arguments of an invocation** report the invocation, or what the second lexer rejects. -/
theorem readArguments_ensures (hinvocation : P invocation.location) (htokens : TokensIn P tokens)
    (hrejected : ∀ value place, ReadsArgument m tokens invocation value →
      rejectedAt value = some place → P (place.rebase invocation)) :
    FailsWith (AsmFailure.Within P) (readArguments m tokens invocation) := by
  have hsub : argumentTokens tokens ⊆ tokens := fun token htoken =>
    (List.takeWhile_sublist _).subset (List.mem_of_mem_filter htoken)
  have hfold := Ensures.foldlM (l := argumentTokens tokens) (b := argumentInit m)
    (f := readArgument m invocation) (E := AsmFailure.Within P)
    (fun done state => done.foldlM (readArgument m invocation) (argumentInit m) = .ok state ∧
      ∀ token, some token ∈ state.arguments → P token.location)
    ⟨rfl, fun token htoken => nomatch List.eq_of_mem_replicate htoken⟩ ?_
  · rw [readArguments, failsWith_bind]
    refine ⟨hfold.failsWith, fun state _ => FailsWith.mapM fun argument _ => ?_⟩
    split
    · exact failsWith_ok _
    · exact failsWith_error.mpr (within_asmTokenFail.mpr hinvocation)
  · rintro done argument rest state hsplit ⟨hdone, hstate⟩
    have hargument : P argument.location :=
      htokens argument (hsub (hsplit ▸ List.mem_append_right _ List.mem_cons_self))
    refine (readArgument_ensures hinvocation hargument hstate ?_).and_eq.mono ?_ fun _ h => h
    · exact fun value place hasks hplace =>
        hrejected value place ⟨done, argument, rest, state, hsplit, hdone, hasks⟩ hplace
    · rintro state' ⟨hstate', heq⟩
      refine ⟨?_, hstate'⟩
      rw [List.foldlM_append, hdone, ok_bind, List.foldlM_cons, heq]
      rfl

/-- **A named argument that is rejected** ends the invocation. -/
theorem readArguments_reads {value : CString} {failure : AsmFailure}
    (h : ReadsArgument m tokens invocation value)
    (hfailure : namedArgumentValue value invocation = .error failure) :
    readArguments m tokens invocation = .error failure := by
  obtain ⟨before, argument, after, state, hsplit, hbefore, hasks⟩ := h
  have hfold : (argumentTokens tokens).foldlM (readArgument m invocation) (argumentInit m)
      = .error failure := by
    rw [hsplit, List.foldlM_append, hbefore, ok_bind, List.foldlM_cons,
      readArgument_asksFor hasks, hfailure]
    rfl
  show ((argumentTokens tokens).foldlM (readArgument m invocation) (argumentInit m) >>= _) = _
  rw [hfold]
  rfl

end Arguments

/-! ## Expansions -/

/-- The expansion of some tokens comes to the named argument of `invocation` with the text
`value`.  `room` and `stack` are those of `expand_macro`. -/
inductive Reads (macros : List Macro) :
    ℕ → List Macro → Bool → List Token → Token → CString → Prop
  | definition {room : ℕ} {stack : List Macro} {isLineStart : Bool} {token : Token}
      {rest : List Token} {invocation : Token} {value : CString}
      (definition : isDirective token "macro" = true)
      (later : Reads macros room stack true (skipMacroDefinition (token :: rest)) invocation value) :
      Reads macros room stack isLineStart (token :: rest) invocation value
  | copied {room : ℕ} {stack : List Macro} {isLineStart : Bool} {token : Token}
      {rest : List Token} {invocation : Token} {value : CString}
      (ordinary : isDirective token "macro" = false)
      (plain : isLineStart = true → token.type = .id →
        findMacro macros (invocationName token) = none ∧
          token.value.bytes.headD 0 ≠ invocationMark)
      (later : Reads macros room stack (nextLineStart isLineStart token) rest invocation value) :
      Reads macros room stack isLineStart (token :: rest) invocation value
  | arguments {room : ℕ} {stack : List Macro} {token : Token} {rest : List Token}
      {value : CString} {m : Macro} (ordinary : isDirective token "macro" = false)
      (id : token.type = .id) (found : findMacro macros (invocationName token) = some m)
      (fresh : ¬stack.any (·.name.value == m.name.value))
      (reads : ReadsArgument m (lineTokens rest) token value) :
      Reads macros (room + 1) stack true (token :: rest) token value
  | body {room : ℕ} {stack : List Macro} {token : Token} {rest values : List Token}
      {invocation : Token} {value : CString} {m : Macro}
      (ordinary : isDirective token "macro" = false)
      (id : token.type = .id) (found : findMacro macros (invocationName token) = some m)
      (fresh : ¬stack.any (·.name.value == m.name.value))
      (arguments : readArguments m (lineTokens rest) token = .ok values)
      (inner : Reads macros room (m :: stack) true (m.body.map (substitute m values token))
        invocation value) :
      Reads macros (room + 1) stack true (token :: rest) invocation value
  | after {room : ℕ} {stack : List Macro} {token : Token} {rest expansion : List Token}
      {invocation : Token} {value : CString} {m : Macro}
      (ordinary : isDirective token "macro" = false)
      (id : token.type = .id) (found : findMacro macros (invocationName token) = some m)
      (expanded : expandMacro macros room stack m (lineTokens rest) token = .ok expansion)
      (later : Reads macros room stack true (nextLine rest) invocation value) :
      Reads macros room stack true (token :: rest) invocation value

/-- Whatever the second lexer rejects in such an expansion, it reports in `P`. -/
def RejectsIn (P : SourceLocation → Prop) (macros : List Macro) (room : ℕ) (stack : List Macro)
    (isLineStart : Bool) (tokens : List Token) : Prop :=
  ∀ invocation value place, Reads macros room stack isLineStart tokens invocation value →
    rejectedAt value = some place → P (place.rebase invocation)

theorem nextLine_subset (tokens : List Token) : nextLine tokens ⊆ tokens := fun _ h =>
  (List.dropWhile_sublist _).subset (List.mem_of_mem_drop h)

theorem lineTokens_subset (tokens : List Token) : lineTokens tokens ⊆ tokens :=
  (List.takeWhile_sublist _).subset

theorem skipMacroDefinition_subset (tokens : List Token) : skipMacroDefinition tokens ⊆ tokens :=
  fun _ h => (List.dropWhile_sublist _).subset (nextLine_subset _ h)

theorem cloneToken_in {token : Token} {location : Option Token} (htoken : P token.location)
    (hlocation : ∀ t, location = some t → P t.location) : P (cloneToken token location).location := by
  cases location with
  | none => exact htoken
  | some t => exact hlocation t rfl

/-- A token of a body is reported at the invocation. -/
theorem substitute_in {m : Macro} {values : List Token} {invocation : Token}
    (h : P invocation.location) (token : Token) :
    P (substitute m values invocation token).location := by
  unfold substitute
  dsimp only
  split
  · exact h
  · split <;> exact h

/-- What `expand_macro` ensures when the invocation is reached. -/
def ExpandsIn (P : SourceLocation → Prop) (macros : List Macro) (room : ℕ) (stack : List Macro) :
    Prop :=
  ∀ (m : Macro) (token : Token) (rest : List Token), isDirective token "macro" = false →
    token.type = .id → findMacro macros (invocationName token) = some m →
      TokensIn P (token :: rest) → RejectsIn P macros room stack true (token :: rest) →
        Ensures (expandMacro macros room stack m (lineTokens rest) token) (TokensIn P)
          (AsmFailure.Within P)

/-- The loop of `expand_range`, by induction on the number of tokens. -/
theorem ExpandsIn.expandAll {macros : List Macro} {room : ℕ} {stack : List Macro}
    (hexpand : ExpandsIn P macros room stack) {location : Option Token}
    (hlocation : ∀ t, location = some t → P t.location) :
    ∀ (n : ℕ) {isLineStart : Bool} {tokens : List Token}, tokens.length ≤ n →
      TokensIn P tokens → RejectsIn P macros room stack isLineStart tokens →
        Ensures (expandAll (expandMacro macros room stack) macros location isLineStart tokens)
          (TokensIn P) (AsmFailure.Within P)
  | _, _, [], _, _, _ => tokensIn_nil
  | n + 1, isLineStart, token :: rest, hlen, htokens, hrejects => by
      rw [List.length_cons, Nat.add_le_add_iff_right] at hlen
      obtain ⟨htoken, hrest⟩ := tokensIn_cons.mp htokens
      cases atToken macros isLineStart token with
      | definition hdefinition =>
          have hskip : (skipMacroDefinition (token :: rest)).length ≤ rest.length :=
            skipMacroDefinition_length_lt hdefinition
          rw [expandAll_definition hdefinition]
          exact hexpand.expandAll hlocation n (Nat.le_trans hskip hlen)
            (htokens.subset (skipMacroDefinition_subset _))
            fun invocation value place hreads => hrejects _ _ _ (.definition hdefinition hreads)
      | undefined ordinary start id missing explicit =>
          subst start
          rw [expandAll_undefined ordinary id missing explicit]
          exact within_asmTokenFail.mpr htoken
      | copied ordinary plain =>
          rw [expandAll_copied ordinary plain]
          refine (hexpand.expandAll hlocation n hlen hrest
            fun invocation value place hreads => hrejects _ _ _ (.copied ordinary plain hreads)).bind
              fun expanded hexpanded => ?_
          exact tokensIn_cons.mpr ⟨cloneToken_in htoken hlocation, hexpanded⟩
      | invocation ordinary start id found =>
          subst start
          rw [expandAll_invocation ordinary id found]
          refine (hexpand _ _ _ ordinary id found htokens hrejects).and_eq.bind fun expansion h => ?_
          obtain ⟨hexpansion, hexpanded⟩ := h
          refine (hexpand.expandAll hlocation n (Nat.le_trans (nextLine_length_le rest) hlen)
            (hrest.subset (nextLine_subset rest)) fun invocation value place hreads =>
              hrejects _ _ _ (.after ordinary id found hexpanded hreads)).bind fun later hlater => ?_
          exact tokensIn_append.mpr ⟨hexpansion, hlater⟩

/-- **Every failure of an expansion** points to one of its tokens, or is one of the second lexer on
a named argument that the expansion comes to.  The induction is on the room for nested macros. -/
theorem expandsIn {macros : List Macro} : ∀ (room : ℕ) (stack : List Macro),
    ExpandsIn P macros room stack
  | 0, stack => by
      intro m token rest _ _ _ htokens _
      obtain ⟨htoken, -⟩ := tokensIn_cons.mp htokens
      rw [expandMacro_zero]
      exact Ensures.require_bind (fun _ => within_asmTokenFail.mpr htoken)
        fun _ => within_asmTokenFail.mpr htoken
  | room + 1, stack => by
      intro m token rest ordinary id found htokens hrejects
      obtain ⟨htoken, hrest⟩ := tokensIn_cons.mp htokens
      rw [expandMacro_succ]
      refine Ensures.require_bind (fun _ => within_asmTokenFail.mpr htoken) fun fresh => ?_
      have harguments := readArguments_ensures htoken (hrest.subset (lineTokens_subset rest))
        fun value place hreads => hrejects _ _ place (.arguments ordinary id found fresh hreads)
      refine (harguments.ensures (Q := fun _ => True) fun _ _ => trivial).and_eq.bind
        fun values hvalues => ?_
      refine (expandsIn room (m :: stack)).expandAll (fun t ht => Option.some.inj ht ▸ htoken) _
        (Nat.le_refl _) (List.forall_mem_map.mpr fun t _ => substitute_in htoken t) ?_
      exact fun invocation value place hreads =>
        hrejects _ _ _ (.body ordinary id found fresh hvalues.2 hreads)

/-- **A named argument that is rejected** ends the expansion that comes to it. -/
theorem expandAll_reads {macros : List Macro} {room : ℕ} {stack : List Macro} {isLineStart : Bool}
    {tokens : List Token} {invocation : Token} {value : CString} {failure : AsmFailure}
    (h : Reads macros room stack isLineStart tokens invocation value)
    (hfailure : namedArgumentValue value invocation = .error failure) (location : Option Token) :
    expandAll (expandMacro macros room stack) macros location isLineStart tokens
      = .error failure := by
  induction h generalizing location with
  | definition definition _ ih => rw [expandAll_definition definition, ih hfailure]
  | copied ordinary plain _ ih =>
      rw [expandAll_copied ordinary plain, ih hfailure]
      rfl
  | arguments ordinary id found fresh reads =>
      rw [expandAll_invocation ordinary id found, expandMacro_succ, require_of fresh,
        readArguments_reads reads hfailure]
      rfl
  | body ordinary id found fresh arguments _ ih =>
      rw [expandAll_invocation ordinary id found, expandMacro_succ, require_of fresh, ok_bind,
        arguments, ok_bind, ih hfailure]
      rfl
  | after ordinary id found expanded _ ih =>
      rw [expandAll_invocation ordinary id found, expanded, ok_bind, ih hfailure]
      rfl

/-! ## Definitions -/

theorem captureMacro_subset {macros : List Macro} {definition : Token} {rest after : List Token}
    {m : Macro} (h : captureMacro macros definition rest = .ok (m, after)) : after ⊆ rest := by
  unfold captureMacro at h
  split at h
  · cases h
  · simp only [bind_eq_ok] at h
    obtain ⟨-, -, -, -, parameters, -, h⟩ := h
    split at h
    · cases h
    · simp only [bind_eq_ok] at h
      obtain ⟨-, -, h⟩ := h
      split at h
      · cases h
      · cases h
        exact fun token htoken => nextLine_subset rest
          ((List.dropWhile_sublist _).subset (nextLine_subset _ htoken))

theorem readParameters_failsWith {arguments : List Token} (h : TokensIn P arguments) :
    FailsWith (AsmFailure.Within P) (readParameters arguments) :=
  FailsWith.foldlM fun parameter hparameter parameters => by
    have hlocation : P parameter.location :=
      h parameter ((List.takeWhile_sublist _).subset (List.mem_of_mem_filter hparameter))
    simp [addParameter, hlocation]

theorem captureMacro_failsWith {macros : List Macro} {definition : Token} {rest : List Token}
    (hdefinition : P definition.location) (h : TokensIn P rest) :
    FailsWith (AsmFailure.Within P) (captureMacro macros definition rest) := by
  have hline := h.subset (lineTokens_subset rest)
  have hbelow := h.subset (nextLine_subset rest)
  unfold captureMacro
  split
  · simp [hdefinition]
  · rename_i name arguments hname
    rw [hname, tokensIn_cons] at hline
    obtain ⟨hname, harguments⟩ := hline
    simp only [failsWith_bind, failsWith_require, within_asmTokenFail]
    refine ⟨fun _ => hdefinition, fun _ _ => ⟨fun _ => hname, fun _ _ =>
      ⟨readParameters_failsWith harguments, fun parameters _ => ?_⟩⟩⟩
    split
    · rename_i nested hnested
      have hlocation : P nested.location :=
        hbelow nested ((List.takeWhile_sublist _).subset (List.mem_of_find?_eq_some hnested))
      simp [hlocation]
    · simp only [failsWith_bind, failsWith_require, within_asmTokenFail]
      refine ⟨fun _ => hname, fun _ _ => ?_⟩
      split
      · rename_i argument hargument
        have hmem := lineTokens_subset _ (List.mem_of_find?_eq_some hargument)
        have hlocation : P argument.location :=
          hbelow argument ((List.dropWhile_sublist _).subset (List.mem_of_mem_drop hmem))
        simp [hlocation]
      · exact failsWith_ok _

theorem captureMacros_failsWith : ∀ (fuel : ℕ) (macros : List Macro) {tokens : List Token},
    TokensIn P tokens → FailsWith (AsmFailure.Within P) (captureMacros fuel macros tokens)
  | 0, _, _, _ => failsWith_ok _
  | _ + 1, _, [], _ => failsWith_ok _
  | fuel + 1, macros, token :: rest, h => by
      obtain ⟨htoken, hrest⟩ := tokensIn_cons.mp h
      rw [captureMacros]
      split
      · rw [failsWith_bind]
        refine ⟨captureMacro_failsWith htoken hrest, fun captured hcaptured => ?_⟩
        exact captureMacros_failsWith fuel _ (hrest.subset (captureMacro_subset hcaptured))
      · split
        · simp [htoken]
        · exact captureMacros_failsWith fuel _ hrest

/-! ## A whole source -/

/-- The expansion of a source comes to the named argument of `invocation` with the text `value`. -/
def ReadsNamedArgument (source : CString) (invocation : Token) (value : CString) : Prop :=
  ∃ tokens macros, lexSource source = .ok tokens ∧
    captureMacros tokens.length [] tokens = .ok macros ∧
      Reads macros 64 [] true tokens invocation value

/-- **The expansion of a source.** -/
theorem macrosExpand_ensures {source : CString} {tokens : List Token}
    (hlex : lexSource source = .ok tokens) (htokens : TokensIn P tokens)
    (hrejects : ∀ invocation value place, ReadsNamedArgument source invocation value →
      rejectedAt value = some place → P (place.rebase invocation)) :
    Ensures (macrosExpand tokens) (TokensIn P) (AsmFailure.Within P) := by
  have hcapture := captureMacros_failsWith tokens.length [] htokens
  rw [macrosExpand_eq]
  refine (hcapture.ensures (Q := fun _ => True) fun _ _ => trivial).and_eq.bind fun macros h => ?_
  exact (expandsIn 64 []).expandAll (fun t ht => nomatch ht) _ (Nat.le_refl _) htokens
    fun invocation value place hreads =>
      hrejects invocation value place ⟨tokens, macros, hlex, h.2, hreads⟩

end Zlvm
