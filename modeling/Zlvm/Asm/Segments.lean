import Zlvm.Asm.Definitions

/-!
# The expansion of whole lines

Lines that hold every definition that they begin are expanded on their own, whatever comes behind
them.

* `Ended` — every definition that begins in a list ends in it.
* `Scans.ended` — so it is with what the scan of `capture_macros` has passed.
* `skipMacroDefinition_of_capture` — the two scans delimit a definition in the same way.
* **`expandAll_append`** — the expansion of lines and what comes behind.
* `macrosExpand_eq_ok` — both scans of a token list.
-/

namespace Zlvm

open Loop

variable {token ending definition : Token} {l l' rest after : List Token}

/-- Behind every `.macro` of the list there is an `.endmacro`. -/
def Ended : List Token → Prop
  | [] => True
  | token :: rest =>
      (isDirective token "macro" = true → ∃ t ∈ rest, isDirective t "endmacro" = true) ∧
        Ended rest

theorem Ended.suffix (h : Ended l) (hl : l' <:+ l) : Ended l' := by
  obtain ⟨before, rfl⟩ := hl
  induction before with
  | nil => exact h
  | cons _ _ ih => exact ih h.2

theorem ended_of_ordinary (h : ∀ t ∈ l, isDirective t "macro" = false) : Ended l := by
  induction l with
  | nil => trivial
  | cons token rest ih =>
      refine ⟨fun hmacro => ?_, ih fun t ht => h t (List.mem_cons_of_mem _ ht)⟩
      rw [h token List.mem_cons_self] at hmacro
      cases hmacro

/-- One `.endmacro` ends everything before it. -/
theorem Ended.of_suffix (h : Ended (ending :: rest))
    (hending : isDirective ending "endmacro" = true) (hl : ending :: rest <:+ l) : Ended l := by
  obtain ⟨before, rfl⟩ := hl
  induction before with
  | nil => exact h
  | cons token before ih => exact ⟨fun _ => ⟨ending, by simp, hending⟩, ih⟩

theorem Ended.of_line : ∀ {l : List Token}, (∀ t ∈ lineTokens l, isDirective t "macro" = false) →
    Ended (nextLine l) → Ended l
  | [], _, _ => trivial
  | token :: rest, hline, h => by
      by_cases hnewline : token.type = .newline
      · rw [nextLine_cons_of_newline hnewline] at h
        exact ⟨fun hmacro => absurd hnewline (newline_ne_of_isDirective hmacro), h⟩
      · rw [nextLine_cons_of_ne hnewline] at h
        rw [lineTokens_cons_of_ne hnewline] at hline
        refine ⟨fun hmacro => ?_, Ended.of_line (fun t ht => hline t (List.mem_cons_of_mem _ ht)) h⟩
        rw [hline token List.mem_cons_self] at hmacro
        cases hmacro

/-- **What the scan has passed** holds the definitions that begin in it. -/
theorem Scans.ended {found : List Macro} (h : Scans l found l') (hend : Ended l') : Ended l := by
  induction h with
  | refl _ => exact hend
  | definition _ captured _ ih =>
      obtain ⟨-, -, -, -, -, -, -, ending, r, hdrop, hcomments, rfl⟩ :=
        captureMacro_eq_ok.mp captured
      have hending := isDirective_of_dropWhile hdrop
      have hafter := ih hend
      rw [nextLine_cons_of_ne (newline_ne_of_isDirective hending)] at hafter
      have hr : Ended r := by
        refine .of_line (fun t ht => ?_) hafter
        have hcomment : t.type = .comment := by simpa using List.find?_eq_none.mp hcomments t ht
        rw [isDirective, hcomment]
        rfl
      have hsuffix : ending :: r <:+ _ :=
        hdrop ▸ (List.dropWhile_suffix _).trans (nextLine_suffix _)
      refine Ended.of_suffix ⟨fun hmacro => ?_, hr⟩ hending (hsuffix.trans (List.suffix_cons _ _))
      rw [not_ending_of_definition hmacro] at hending
      cases hending
  | other ordinary _ _ ih =>
      refine ⟨fun hmacro => ?_, ih hend⟩
      rw [ordinary] at hmacro
      cases hmacro

/-! ## Skipping definitions -/

theorem skipMacroDefinition_suffix (h : isDirective token "macro" = true) :
    skipMacroDefinition (token :: l) <:+ l := by
  rw [skipMacroDefinition, List.dropWhile_cons_of_pos (by simp [not_ending_of_definition h])]
  exact (nextLine_suffix _).trans (List.dropWhile_suffix _)

theorem skipMacroDefinition_append (h : isDirective token "macro" = true)
    (hended : Ended (token :: l)) (hline : EndsLine (token :: l)) (l' : List Token) :
    skipMacroDefinition (token :: l ++ l') = skipMacroDefinition (token :: l) ++ l' := by
  have hinside : ∃ t ∈ token :: l, (!isDirective t "endmacro") = false := by
    obtain ⟨t, ht, hending⟩ := hended.1 h
    exact ⟨t, List.mem_cons_of_mem _ ht, by simp [hending]⟩
  rw [skipMacroDefinition, skipMacroDefinition, dropWhile_append_of_exists hinside]
  have hsuffix := List.dropWhile_suffix (!isDirective · "endmacro") (l := token :: l)
  exact nextLine_append ((hline.suffix hsuffix).hasNewline (dropWhile_ne_nil_of_exists hinside)) l'

/-- A line without an `.endmacro` does not matter to the search for one. -/
theorem dropWhile_nextLine : ∀ {l : List Token},
    (∀ t ∈ lineTokens l, isDirective t "endmacro" = false) →
      l.dropWhile (!isDirective · "endmacro") = (nextLine l).dropWhile (!isDirective · "endmacro")
  | [], _ => rfl
  | token :: rest, hline => by
      by_cases hnewline : token.type = .newline
      · have hordinary : isDirective token "endmacro" = false := by
          rw [isDirective, hnewline]
          rfl
        rw [nextLine_cons_of_newline hnewline, List.dropWhile_cons_of_pos (by simp [hordinary])]
      · rw [lineTokens_cons_of_ne hnewline] at hline
        have htoken := hline token List.mem_cons_self
        rw [nextLine_cons_of_ne hnewline, List.dropWhile_cons_of_pos (by simp [htoken])]
        exact dropWhile_nextLine fun t ht => hline t (List.mem_cons_of_mem _ ht)

/-- **The two scans delimit a definition in the same way**, unless an `.endmacro` stands on the line
of its `.macro`. -/
theorem skipMacroDefinition_of_capture {macros : List Macro} {m : Macro}
    (h : captureMacro macros definition l = .ok (m, after))
    (hdefinition : isDirective definition "macro" = true)
    (hheader : ∀ t ∈ lineTokens l, isDirective t "endmacro" = false) :
    skipMacroDefinition (definition :: l) = after := by
  obtain ⟨-, -, -, -, -, -, -, ending, r, hdrop, -, rfl⟩ := captureMacro_eq_ok.mp h
  rw [skipMacroDefinition,
    List.dropWhile_cons_of_pos (by simp [not_ending_of_definition hdefinition]),
    dropWhile_nextLine hheader, hdrop]

/-! ## Expansions -/

section Expansions

variable {expand : Macro → List Token → Token → Except AsmFailure (List Token)}
  {macros : List Macro} {location : Option Token}

/-- **The expansion of lines** and of what comes behind them. -/
theorem expandAll_append : ∀ (n : ℕ) {isLineStart : Bool} {l : List Token}, l.length ≤ n →
    Ended l → EndsLine l → (l = [] → isLineStart = true) → ∀ l',
      expandAll expand macros location isLineStart (l ++ l') = (do
        let expansion ← expandAll expand macros location isLineStart l
        return expansion ++ (← expandAll expand macros location true l'))
  | _, isLineStart, [], _, _, _, hstart, l' => by
      obtain rfl := hstart rfl
      rw [List.nil_append, expandAll_nil, ok_bind]
      cases expandAll expand macros location true l' <;> rfl
  | n + 1, isLineStart, token :: rest, hlength, hended, hline, _, l' => by
      rw [List.length_cons, Nat.add_le_add_iff_right] at hlength
      have hrest : EndsLine rest := hline.suffix (List.suffix_cons _ _)
      rw [List.cons_append]
      cases atToken macros isLineStart token with
      | definition hdefinition =>
          have hsuffix := @skipMacroDefinition_suffix token rest hdefinition
          rw [expandAll_definition hdefinition, expandAll_definition hdefinition,
            ← List.cons_append, skipMacroDefinition_append hdefinition hended hline]
          exact expandAll_append n (Nat.le_trans hsuffix.length_le hlength)
            (hended.2.suffix hsuffix) (hrest.suffix hsuffix) (fun _ => rfl) l'
      | undefined ordinary start id missing explicit =>
          subst start
          rw [expandAll_undefined ordinary id missing explicit,
            expandAll_undefined ordinary id missing explicit]
          rfl
      | copied ordinary plain =>
          have hnext : rest = [] → nextLineStart isLineStart token = true := fun hnil => by
            subst hnil
            rw [nextLineStart, hline token rfl]
            rfl
          rw [expandAll_copied ordinary plain, expandAll_copied ordinary plain,
            expandAll_append n hlength hended.2 hrest hnext l']
          cases expandAll expand macros location (nextLineStart isLineStart token) rest with
          | error failure => rfl
          | ok expansion => cases expandAll expand macros location true l' <;> rfl
      | invocation ordinary start id found =>
          subst start
          have hnewline := hline.tail_hasNewline (by simp [id])
          have hsuffix := nextLine_suffix rest
          rw [expandAll_invocation ordinary id found, expandAll_invocation ordinary id found,
            lineTokens_append hnewline, nextLine_append hnewline,
            expandAll_append n (Nat.le_trans hsuffix.length_le hlength) (hended.2.suffix hsuffix)
              (hrest.suffix hsuffix) (fun _ => rfl) l']
          cases expand _ (lineTokens rest) token with
          | error failure => rfl
          | ok invoked =>
              cases expandAll expand macros location true (nextLine rest) with
              | error failure => rfl
              | ok expansion =>
                  cases expandAll expand macros location true l' with
                  | error failure => rfl
                  | ok later =>
                      show Except.ok _ = Except.ok _
                      rw [List.append_assoc]

end Expansions

/-! ## The top level -/

/-- The expansion of a list at the top level. -/
def expandTop (macros : List Macro) (isLineStart : Bool) (l : List Token) :
    Except AsmFailure (List Token) :=
  expandAll (expandMacro macros 64 []) macros none isLineStart l

theorem macrosExpand_eq_ok {expansion : List Token} : macrosExpand l = .ok expansion ↔
    ∃ found, Scans l found [] ∧ DistinctNames found.reverse ∧
      expandTop found.reverse true l = .ok expansion := by
  rw [macrosExpand_eq, bind_eq_ok]
  constructor
  · rintro ⟨captured, hcapture, hrun⟩
    obtain ⟨found, hscan, rfl, hnames⟩ := captureAll_eq_ok.mp hcapture
    exact ⟨found, hscan, hnames, hrun⟩
  · rintro ⟨found, hscan, hnames, hrun⟩
    exact ⟨found.reverse, captureAll_eq_ok.mpr ⟨found, hscan, rfl, hnames⟩, hrun⟩

end Zlvm
