import Zlvm.Asm.Marks

/-!
# Comments and line breaks in an expansion

What a macro expansion makes of comments and line breaks that are added to its tokens.

* `readArguments_plain`, `substitute_marked` — arguments and bodies.
* `expandAll_marked`, `expandMacro_marked` — a range, by its length, and an invocation, by the room
  on the stack.
* **`macrosExpand_marked`** — the expansion with the marked tokens is the one without them, but for
  marked tokens.
-/

namespace Zlvm

open Loop

/-! ## Arguments -/

section Arguments

variable {mark : Token → Bool} {m m' : Macro}

theorem parameterIndex_marked (h : m.Marked mark m') (name : CString) :
    parameterIndex m name = parameterIndex m' name := by
  unfold parameterIndex
  have hparameters := h.parameters
  generalize m.parameters = parameters at hparameters ⊢
  generalize m'.parameters = parameters' at hparameters ⊢
  induction hparameters with
  | nil => rfl
  | cons head _ ih => rw [List.findIdx_cons, List.findIdx_cons, head.value, ih]

/-- What the loop over the arguments has read of like arguments. -/
structure ArgumentState.Plain (mark : Token → Bool) (state state' : ArgumentState) : Prop where
  arguments : List.Forall₂ (Option.Rel (Token.Plain mark)) state.arguments state'.arguments
  positionalIndex : state.positionalIndex = state'.positionalIndex
  hasNamedArgument : state.hasNamedArgument = state'.hasNamedArgument

theorem isNone_getD_plain {values values' : List (Option Token)}
    (h : List.Forall₂ (Option.Rel (Token.Plain mark)) values values') (i : ℕ) :
    (values.getD i none).isNone = (values'.getD i none).isNone := by
  induction h generalizing i with
  | nil => rfl
  | cons head _ ih =>
      cases i with
      | zero => cases head <;> rfl
      | succ i => exact ih i

theorem set_plain {values values' : List (Option Token)} {value value' : Token}
    (h : List.Forall₂ (Option.Rel (Token.Plain mark)) values values')
    (hvalue : value.Plain mark value') (i : ℕ) :
    List.Forall₂ (Option.Rel (Token.Plain mark)) (values.set i (some value))
      (values'.set i (some value')) := by
  induction h generalizing i with
  | nil => exact .nil
  | cons head tail ih =>
      cases i with
      | zero => exact .cons (.some hvalue) tail
      | succ i => exact .cons head (ih i)

theorem argumentInit_plain (h : m.Marked mark m') : (argumentInit m).Plain mark (argumentInit m') := by
  refine ⟨?_, rfl, rfl⟩
  rw [argumentInit, argumentInit, h.parameters.length_eq]
  generalize m'.parameters.length = n
  induction n with
  | zero => exact .nil
  | succ n ih => exact .cons .none ih

variable (hmark : Marking mark)
include hmark

/-- The second lexer reads the same, wherever it counts on. -/
theorem namedArgumentValue_plain (value : CString) (invocation invocation' : Token) :
    Lockstep (Token.Plain mark) (namedArgumentValue value invocation)
      (namedArgumentValue value invocation') := by
  have hfirst := lexerReadToken_at (lexerInit_at value)
  have hlexer := fun base => lexerReadToken_rebase base (lexerInit_at value)
  show Lockstep _ (lexerReadToken ((lexerInit value).rebase invocation) >>= _)
    (lexerReadToken ((lexerInit value).rebase invocation') >>= _)
  cases hread : lexerReadToken (lexerInit value) with
  | error failure =>
      rw [hlexer, hlexer, hread]
      exact .error _ _
  | ok read =>
      cases read with
      | none =>
          rw [hlexer, hlexer, hread]
          exact .error _ _
      | some read =>
          obtain ⟨token, state⟩ := read
          have hsecond := fun base =>
            lexerReadToken_rebase base (hfirst.of_eq_ok hread _ rfl).2
          have hreads := hlexer invocation'
          rw [hread] at hreads
          have hplain := hmark.read hreads
          rw [hlexer, hlexer, hread]
          show Lockstep _ (lexerReadToken (state.rebase invocation) >>= _)
            (lexerReadToken (state.rebase invocation') >>= _)
          rw [hsecond, hsecond]
          cases lexerReadToken state with
          | error failure => exact .error _ _
          | ok read =>
              cases read with
              | some read => exact .error _ _
              | none => exact .ok ⟨⟨rfl, rfl⟩, (hmark.clone _ _).trans hplain⟩

theorem readArgument_plain (h : m.Marked mark m') {state state' : ArgumentState}
    {argument argument' : Token} (invocation invocation' : Token)
    (hargument : argument.Plain mark argument') (hstate : state.Plain mark state') :
    Lockstep (ArgumentState.Plain mark) (readArgument m invocation state argument)
      (readArgument m' invocation' state' argument') := by
  obtain ⟨⟨htype, hvalue⟩, hplain⟩ := hargument
  unfold readArgument
  rw [htype, hvalue]
  split
  · dsimp only
    rw [parameterIndex_marked h, h.parameters.length_eq, isNone_getD_plain hstate.arguments]
    refine (Lockstep.require Iff.rfl).bind fun _ _ _ => ?_
    refine (Lockstep.require Iff.rfl).bind fun _ _ _ => ?_
    refine (namedArgumentValue_plain hmark _ invocation invocation').bind fun token token' ht => ?_
    exact .ok ⟨set_plain hstate.arguments ht _, hstate.positionalIndex, rfl⟩
  · rw [hstate.hasNamedArgument, hstate.positionalIndex, h.parameters.length_eq]
    refine (Lockstep.require Iff.rfl).bind fun _ _ _ => ?_
    exact .ok ⟨set_plain hstate.arguments ⟨⟨htype, hvalue⟩, hplain⟩ _, rfl, rfl⟩

/-- **The arguments of an invocation.** -/
theorem readArguments_plain (h : m.Marked mark m') {tokens tokens' : List Token}
    (invocation invocation' : Token)
    (htokens : TokensPlain mark (argumentTokens tokens) (argumentTokens tokens')) :
    Lockstep (TokensPlain mark) (readArguments m tokens invocation)
      (readArguments m' tokens' invocation') := by
  refine (Lockstep.foldlM_related htokens (R := ArgumentState.Plain mark)
    (fun _ _ _ _ hargument hstate => readArgument_plain hmark h _ _ hargument hstate)
    (argumentInit_plain h)).bind fun state state' hstate => ?_
  refine Lockstep.mapM hstate.arguments fun argument argument' hargument => ?_
  cases hargument with
  | some hvalue => exact .ok hvalue
  | none => exact .error _ _

omit hmark

/-- Every parameter gets a value. -/
theorem readArguments_length {tokens values : List Token} {invocation : Token}
    (h : readArguments m tokens invocation = .ok values) :
    values.length = m.parameters.length := by
  change ((argumentTokens tokens).foldlM (readArgument m invocation) (argumentInit m) >>=
    fun state => state.arguments.mapM _) = _ at h
  rw [bind_eq_ok] at h
  obtain ⟨state, hfold, hvalues⟩ := h
  have hlength := foldlM_induction (fun _ (state : ArgumentState) =>
    state.arguments.length = m.parameters.length) hfold (List.length_replicate) ?_
  · rw [← hlength]
    exact (mapM_length hvalues).symm
  · intro done argument rest state state' hsplit hstate hstep
    unfold readArgument at hstep
    split at hstep
    · simp only [bind_eq_ok] at hstep
      obtain ⟨-, -, -, -, token, -, hstep⟩ := hstep
      obtain rfl := Except.ok.inj hstep
      rw [List.length_set, hstate]
    · simp only [bind_eq_ok] at hstep
      obtain ⟨-, -, hstep⟩ := hstep
      obtain rfl := Except.ok.inj hstep
      rw [List.length_set, hstate]

end Arguments

/-! ## Expansions -/

section Substitution

variable {mark : Token → Bool} {final : Prop} {m m' : Macro} {values values' : List Token}

theorem getElem?_plain (h : TokensPlain mark values values') (i : ℕ) :
    Option.Rel (Token.Plain mark) values[i]? values'[i]? := by
  induction h generalizing i with
  | nil => exact .none
  | cons head _ ih =>
      cases i with
      | zero => exact .some head
      | succ i => exact ih i

/-- A token that ends a line is no parameter. -/
theorem substitute_of_endsLine (hlength : values.length = m.parameters.length) {t : Token}
    (h : endsLine t = true) (invocation : Token) :
    substitute m values invocation t = cloneToken t (some invocation) := by
  refine substitute_other hlength (.inl ?_)
  rintro (htype | htype | htype) <;> simp [endsLine, htype] at h

theorem substitute_plain (hmark : Marking mark) (h : m.Marked mark m')
    (hvalues : TokensPlain mark values values') (invocation invocation' : Token) {t t' : Token}
    (same : t.Same t') (plain : mark t' = false) :
    (substitute m values invocation t).Same (substitute m' values' invocation' t') ∧
      mark (substitute m' values' invocation' t') = false := by
  have hindex : (if t.type = .id ∨ t.type = .labelUse ∨ t.type = .labelInit then
        parameterIndex m t.value else m.parameters.length)
      = if t'.type = .id ∨ t'.type = .labelUse ∨ t'.type = .labelInit then
        parameterIndex m' t'.value else m'.parameters.length := by
    rw [← same.type]
    split
    · rename_i hkind
      have hends : endsLine t = false := by
        rcases hkind with htype | htype | htype <;> simp [endsLine, htype]
      rw [parameterIndex_marked h, same.value hends]
    · exact h.parameters.length_eq
  unfold substitute
  dsimp only
  rw [hindex]
  generalize (if t'.type = .id ∨ t'.type = .labelUse ∨ t'.type = .labelInit then
    parameterIndex m' t'.value else m'.parameters.length) = index
  have hvalue := getElem?_plain hvalues index
  generalize values[index]? = value at hvalue ⊢
  generalize values'[index]? = value' at hvalue ⊢
  cases hvalue with
  | none => exact ⟨same.clone _ _, (hmark.clone _ _).trans plain⟩
  | some hvalue =>
      dsimp only
      rw [same.type]
      split
      · refine ⟨⟨rfl, fun _ => hvalue.alike.value⟩, eq_false_of_ne_true fun hmarked => ?_⟩
        cases hmark.blank _ hmarked
      · exact ⟨⟨hvalue.alike.type, fun _ => hvalue.alike.value⟩,
          (hmark.clone _ _).trans hvalue.plain⟩

/-- **The body of a macro**, with the values of its parameters. -/
theorem substitute_marked (hmark : Marking mark) (h : m.Marked mark m')
    (hvalues : TokensPlain mark values values') (hlength : values.length = m.parameters.length)
    (invocation invocation' : Token) {start : Bool} {l l' : List Token}
    (hl : MarkedLines mark final start l l') :
    MarkedLines mark final start (l.map (substitute m values invocation))
      (l'.map (substitute m' values' invocation')) := by
  have hlength' : values'.length = m'.parameters.length := by
    rw [← hvalues.length_eq, hlength, h.parameters.length_eq]
  have hclone : ∀ {t : Token}, endsLine t = true →
      substitute m' values' invocation' t = cloneToken t (some invocation') := fun hends =>
    substitute_of_endsLine hlength' hends invocation'
  induction hl with
  | nil => exact .nil
  | cons plain same _ ih =>
      obtain ⟨same', plain'⟩ := substitute_plain hmark h hvalues invocation invocation' same plain
      refine .cons plain' same' (ih.weaken fun hnewline => ?_)
      rw [beq_iff_eq] at hnewline ⊢
      rw [hclone (by simp [endsLine, hnewline])]
      exact hnewline
  | lineBreak marked type _ ih =>
      have hc := hclone (hmark.blank _ marked)
      refine .lineBreak ?_ ?_ ih
      · rw [hc, hmark.clone]
        exact marked
      · rw [hc]
        exact type
  | comment marked type plain newline same _ ih =>
      obtain ⟨same', plain'⟩ := substitute_plain hmark h hvalues invocation invocation' same plain
      have hc := hclone (hmark.blank _ marked)
      refine .comment ?_ ?_ plain' ?_ same' ih
      · rw [hc, hmark.clone]
        exact marked
      · rw [hc]
        exact type
      · rw [hclone (by simp [endsLine, newline])]
        exact newline
  | last marked type ending =>
      have hc := hclone (hmark.blank _ marked)
      refine .last ?_ ?_ ending
      · rw [hc, hmark.clone]
        exact marked
      · rw [hc]
        exact type

end Substitution

section Expansion

variable {mark : Token → Bool} {final : Prop} {macros macros' : List Macro}
  {expand expand' : Macro → List Token → Token → Except AsmFailure (List Token)}

theorem nextLineStart_of_newline {isLineStart : Bool} {t : Token} (h : t.type = .newline) :
    nextLineStart isLineStart t = true := by
  simp [nextLineStart, h]

/-- A token that ends a line is copied. -/
theorem expandAll_endsLine {location : Option Token} {isLineStart : Bool} {t : Token}
    {rest : List Token} (h : endsLine t = true) :
    expandAll expand macros location isLineStart (t :: rest) = do
      return cloneToken t location ::
        (← expandAll expand macros location (nextLineStart isLineStart t) rest) :=
  expandAll_copied (isDirective_of_endsLine h _) fun _ hid => by simp [endsLine, hid] at h

theorem skipMacroDefinition_marked (hmark : Marking mark) {start : Bool} {l l' : List Token}
    (h : MarkedLines mark final start l l') :
    MarkedLines mark final true (skipMacroDefinition l) (skipMacroDefinition l') := by
  unfold skipMacroDefinition
  rcases dropWhile_marked (fun _ _ => Token.Same.ordinary_eq) (fun _ => ordinary_of_endsLine)
    hmark.blank h with ⟨hnil, hnil'⟩ | ⟨t, t', r, r', hdrop, hdrop', same, hending, hrest⟩
  · rw [hnil, hnil']
    exact .nil
  · have htype : t'.type = .directive := type_of_isDirective (by simpa using hending)
    rw [htype] at hrest
    rw [hdrop, hdrop', nextLine_cons_of_ne (by simp [same.type, htype]),
      nextLine_cons_of_ne (by simp [htype])]
    exact nextLine_marked hrest

/-- What is known of two ways to expand a macro. -/
def ExpandMarked (mark : Token → Bool)
    (expand expand' : Macro → List Token → Token → Except AsmFailure (List Token)) : Prop :=
  ∀ m m' arguments arguments' invocation invocation' expansion, Macro.Marked mark m m' →
    TokensPlain mark (argumentTokens arguments) (argumentTokens arguments') →
    expand m arguments invocation = .ok expansion →
    ∃ expansion', expand' m' arguments' invocation' = .ok expansion' ∧
      Spread mark False expansion expansion'

section Range

variable (hmark : Marking mark) (hmacros : MacrosMarked mark macros macros')
  (hexpand : ExpandMarked mark expand expand') (location location' : Option Token)
include hmark hmacros hexpand

/-- **A range of tokens**, by the number of the tokens. -/
theorem expandAll_marked : ∀ (n : ℕ) {start isLineStart : Bool} {l l' e : List Token},
    l'.length ≤ n → MarkedLines mark final start l l' → (start = true → isLineStart = true) →
      expandAll expand macros location isLineStart l = .ok e →
        ∃ e', expandAll expand' macros' location' isLineStart l' = .ok e' ∧ Spread mark final e e'
  | 0, _, isLineStart, l, l', e, hlength, h, _, hrun => by
      obtain rfl := List.length_eq_zero_iff.mp (Nat.le_zero.mp hlength)
      cases h with
      | nil =>
          obtain rfl := Except.ok.inj hrun
          exact ⟨[], rfl, .nil⟩
  | n + 1, start, isLineStart, l, l', e, hlength, h, hstart, hrun => by
      cases h with
      | nil =>
          obtain rfl := Except.ok.inj hrun
          exact ⟨[], rfl, .nil⟩
      | cons plain same rest =>
          rename_i t t' l l'
          rw [List.length_cons] at hlength
          have hends : t.type = .id → endsLine t = false := fun hid => by simp [endsLine, hid]
          have hordinary := same.isDirective_eq "macro"
          cases atToken macros isLineStart t with
          | definition hdefinition =>
              have hdefinition' := hordinary.symm.trans hdefinition
              have hle := @skipMacroDefinition_length_lt _ l' hdefinition'
              rw [expandAll_definition hdefinition] at hrun
              rw [expandAll_definition hdefinition']
              have hmarked : MarkedLines mark final true (t :: l) (t' :: l') :=
                .cons plain same rest
              exact expandAll_marked n (by omega) (skipMacroDefinition_marked hmark hmarked)
                (fun _ => rfl) hrun
          | invocation ordinary hline hid hfound =>
              rename_i m
              subst hline
              have hid' := same.type.symm.trans hid
              rw [hid'] at rest
              have hname : invocationName t = invocationName t' := by
                rw [invocationName, invocationName, same.value (hends hid)]
              have hfound' := findMacro_marked hmacros (invocationName t)
              rw [hfound] at hfound'
              cases hfind : findMacro macros' (invocationName t) with
              | none =>
                  rw [hfind] at hfound'
                  cases hfound'
              | some m' =>
                  rw [hfind, Option.rel_some_some] at hfound'
                  rw [expandAll_invocation ordinary hid hfound] at hrun
                  simp only [bind_eq_ok] at hrun
                  obtain ⟨expansion, hexpansion, after, hafter, hrun⟩ := hrun
                  obtain rfl := Except.ok.inj hrun
                  obtain ⟨expansion', hexpansion', hspread⟩ :=
                    hexpand m m' _ (lineTokens l') t t' expansion hfound'
                      (argumentTokens_marked rest) hexpansion
                  have hle := nextLine_length_le l'
                  obtain ⟨after', hafter', hspread'⟩ := expandAll_marked n (by omega)
                    (nextLine_marked rest) (fun _ => rfl) hafter
                  refine ⟨expansion' ++ after', ?_, Spread.append hspread hspread'⟩
                  rw [expandAll_invocation (hordinary.symm.trans ordinary) hid'
                    (hname ▸ hfind), hexpansion', ok_bind, hafter']
                  rfl
          | undefined ordinary hline hid hmissing hexplicit =>
              subst hline
              rw [expandAll_undefined ordinary hid hmissing hexplicit] at hrun
              cases hrun
          | copied ordinary hcopied =>
              rw [expandAll_copied ordinary hcopied] at hrun
              simp only [bind_eq_ok] at hrun
              obtain ⟨after, hafter, hrun⟩ := hrun
              obtain rfl := Except.ok.inj hrun
              have hnext : nextLineStart isLineStart t = nextLineStart isLineStart t' := by
                rw [nextLineStart, nextLineStart, same.type]
              rw [hnext] at hafter
              obtain ⟨after', hafter', hspread⟩ := expandAll_marked n (by omega) rest
                (fun hnewline => nextLineStart_of_newline (beq_iff_eq.mp hnewline)) hafter
              refine ⟨cloneToken t' location' :: after', ?_,
                .cons ((hmark.clone _ _).trans plain) (same.clone _ _) hspread⟩
              rw [expandAll_copied (hordinary.symm.trans ordinary) fun hline hid' => ?_, hafter']
              · rfl
              · have hid := same.type.trans hid'
                obtain ⟨hmissing, hexplicit⟩ := hcopied hline hid
                have hvalue := same.value (hends hid)
                have hfound := findMacro_marked hmacros (invocationName t)
                rw [hmissing] at hfound
                rw [invocationName, ← hvalue, ← invocationName]
                refine ⟨?_, hexplicit⟩
                generalize findMacro macros' (invocationName t) = found at hfound
                cases hfound
                rfl
      | lineBreak marked type rest =>
          rename_i t' l'
          rw [List.length_cons] at hlength
          obtain rfl := hstart rfl
          obtain ⟨after', hafter', hspread⟩ := expandAll_marked n (by omega) rest (fun _ => rfl) hrun
          refine ⟨cloneToken t' location' :: after', ?_,
            .lineBreak ((hmark.clone _ _).trans marked) ?_ hspread⟩
          · rw [expandAll_endsLine (hmark.blank _ marked), nextLineStart_of_newline type, hafter']
            rfl
          · cases location' <;> exact type
      | comment marked type plain newline same rest =>
          rename_i c t t' l l'
          have hends : ∀ {t : Token}, t.type = .newline → endsLine t = true := fun htype => by
            simp [endsLine, htype]
          have hnewline := same.type.trans newline
          simp only [List.length_cons] at hlength
          rw [expandAll_endsLine (hends hnewline), nextLineStart_of_newline hnewline] at hrun
          simp only [bind_eq_ok] at hrun
          obtain ⟨after, hafter, hrun⟩ := hrun
          obtain rfl := Except.ok.inj hrun
          obtain ⟨after', hafter', hspread⟩ :=
            expandAll_marked n (by omega) rest (fun _ => rfl) hafter
          refine ⟨cloneToken c location' :: cloneToken t' location' :: after', ?_,
            .comment ((hmark.clone _ _).trans marked) ?_ ((hmark.clone _ _).trans plain) ?_
              (same.clone _ _) hspread⟩
          · rw [expandAll_endsLine (hmark.blank _ marked), expandAll_endsLine (hends newline),
              nextLineStart_of_newline newline, hafter']
            rfl
          · cases location' <;> exact type
          · cases location' <;> exact newline
      | last marked type ending =>
          rename_i c
          obtain rfl := Except.ok.inj hrun
          refine ⟨[cloneToken c location'], ?_, .last ((hmark.clone _ _).trans marked) ?_ ending⟩
          · rw [expandAll_endsLine (hmark.blank _ marked)]
            rfl
          · cases location' <;> exact type

end Range

/-- **An invocation**, by the room on the stack. -/
theorem expandMacro_marked (hmark : Marking mark) (hmacros : MacrosMarked mark macros macros') :
    ∀ (room : ℕ) {stack stack' : List Macro}, MacrosMarked mark stack stack' →
      ExpandMarked mark (expandMacro macros room stack) (expandMacro macros' room stack')
  | 0, stack, stack', hstack => by
      intro m m' arguments arguments' invocation invocation' expansion hm harguments hrun
      rw [expandMacro_zero] at hrun
      simp only [bind_eq_ok] at hrun
      obtain ⟨-, -, hrun⟩ := hrun
      cases hrun
  | room + 1, stack, stack', hstack => by
      intro m m' arguments arguments' invocation invocation' expansion hm harguments hrun
      rw [expandMacro_succ] at hrun
      simp only [bind_eq_ok, require_eq_ok] at hrun
      obtain ⟨-, hfresh, values, hvalues, hrun⟩ := hrun
      obtain ⟨values', hvalues', hrelated⟩ :=
        (readArguments_plain hmark hm invocation invocation' harguments).exists_of_ok hvalues
      have hbody := substitute_marked hmark hm hrelated (readArguments_length hvalues) invocation
        invocation' hm.body
      obtain ⟨expansion', hexpansion', hspread⟩ := expandAll_marked hmark hmacros
        (expandMacro_marked hmark hmacros room (.cons hm hstack)) (some invocation)
        (some invocation') _ (Nat.le_refl _) hbody (fun _ => rfl) hrun
      refine ⟨expansion', ?_, hspread⟩
      rw [any_name_marked hstack, hm.name] at hfresh
      rw [expandMacro_succ, require_of hfresh, ok_bind, hvalues', ok_bind]
      exact hexpansion'

/-- **The expansion of a token list** with marked tokens. -/
theorem macrosExpand_marked (hmark : Marking mark) {l l' e : List Token}
    (h : MarkedLines mark final true l l') (hrun : macrosExpand l = .ok e) :
    ∃ e', macrosExpand l' = .ok e' ∧ Spread mark final e e' := by
  rw [macrosExpand_eq, bind_eq_ok] at hrun
  obtain ⟨macros, hcapture, hrun⟩ := hrun
  obtain ⟨macros', hcapture', hmacros⟩ := captureAll_marked hmark _ (Nat.le_refl _) .nil h hcapture
  obtain ⟨e', he', hspread⟩ := expandAll_marked hmark hmacros
    (expandMacro_marked hmark hmacros 64 .nil) none none _ (Nat.le_refl _) h (fun _ => rfl) hrun
  refine ⟨e', ?_, hspread⟩
  rw [captureAll] at hcapture'
  rw [macrosExpand_eq, hcapture', ok_bind]
  exact he'

end Expansion

end Zlvm
