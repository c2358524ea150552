import Zlvm.Asm.Alike

/-!
# Where the lines are split

`parser_get_line` as a scan over the tokens, and what comments and line breaks may be added without
a change of the lines.

* `SplitState`, `splitLines` — the scan; `parserParse_eq` — it finds the lines of the parser.
* `Token.Same` — tokens that the scan does not tell apart.
* `harmless` — whether every marked token stands where it does not change a line.
* **`splitLines_unmark`** — then the lines are those without the marked tokens.
* **`harmless_of_lines`** — a marked token that is not harmless cuts a line in two or leaves a label
  definition alone.
-/

namespace Zlvm

open Loop

/-! ## The scan -/

/-- What has been read of a line: nothing, a label definition, that and the line break behind it, or
more. -/
inductive SplitState
  | between
  | label
  | labelled
  | inside
deriving DecidableEq

def SplitState.next (state : SplitState) (token : Token) : SplitState :=
  if state = .label ∧ token.type = .newline then .labelled
  else if endsLine token then .between
  else if state = .between ∧ token.type = .labelInit then .label
  else .inside

/-- The tokens of a line after one more token, which does not end it. -/
def extendLine (state : SplitState) (line : List Token) (token : Token) : List Token :=
  if state = .between then [token]
  else if token.type = .newline ∨ token.type = .comma then line
  else line ++ [token]

/-- The lines of a token list, after `line` has been read of the first. -/
def splitLines : SplitState → List Token → List Token → List (List Token)
  | state, line, [] => if state = .between then [] else [line]
  | state, line, token :: rest =>
      if state.next token = .between then
        if state = .between then splitLines .between [] rest
        else line :: splitLines .between [] rest
      else splitLines (state.next token) (extendLine state line token) rest

section Scan

variable {line rest : List Token} {token : Token}

theorem splitLines_between (line tokens : List Token) :
    splitLines .between line tokens = splitLines .between [] tokens := by
  cases tokens with
  | nil => rfl
  | cons token rest => rfl

/-- One token: a line that it ends, and the lines from there on. -/
theorem splitLines_step (state : SplitState) (line : List Token) (token : Token)
    (rest : List Token) : splitLines state line (token :: rest)
      = (if state.next token = .between ∧ state ≠ .between then [line] else [])
        ++ splitLines (state.next token) (extendLine state line token) rest := by
  rw [splitLines]
  by_cases hnext : state.next token = .between
  · rw [hnext, if_pos rfl, splitLines_between (extendLine state line token)]
    by_cases hstate : state = .between <;> simp [hstate]
  · rw [if_neg hnext, if_neg fun h => hnext h.1, List.nil_append]

theorem splitLines_between_cons (h : endsLine token = true) :
    splitLines .between line (token :: rest) = splitLines .between [] rest := by
  have hnext : SplitState.next .between token = .between := by simp [SplitState.next, h]
  rw [splitLines, if_pos hnext, if_pos rfl]

theorem splitLines_inside_cons (h : endsLine token = true) :
    splitLines .inside line (token :: rest) = line :: splitLines .between [] rest := by
  have hnext : SplitState.next .inside token = .between := by simp [SplitState.next, h]
  rw [splitLines, if_pos hnext, if_neg (by decide)]

/-- The rest of a line. -/
theorem splitLines_inside : ∀ (line tokens : List Token), splitLines .inside line tokens
    = (line ++ (tokens.takeWhile (!endsLine ·)).filter (·.type != .comma))
      :: splitLines .between [] ((tokens.dropWhile (!endsLine ·)).drop 1)
  | line, [] => by simp [splitLines]
  | line, token :: rest => by
      cases hends : endsLine token with
      | true =>
          rw [splitLines_inside_cons hends, List.takeWhile_cons_of_neg (by simp [hends]),
            List.dropWhile_cons_of_neg (by simp [hends])]
          simp
      | false =>
          have hnewline : token.type ≠ .newline := fun h => by
            rw [endsLine, h] at hends
            cases hends
          have hnext : SplitState.next .inside token = .inside := by simp [SplitState.next, hends]
          rw [splitLines, hnext, if_neg (by decide), splitLines_inside,
            List.takeWhile_cons_of_pos (by simp [hends]),
            List.dropWhile_cons_of_pos (by simp [hends]), extendLine, if_neg (by decide)]
          by_cases hcomma : token.type = .comma
          · simp [hcomma]
          · simp [hcomma, hnewline]

/-- Behind a label and its line break the line goes on. -/
theorem splitLines_labelled (line tokens : List Token) :
    splitLines .labelled line tokens = splitLines .inside line tokens := by
  cases tokens with
  | nil => rfl
  | cons token rest =>
      simp only [splitLines, SplitState.next, extendLine, reduceCtorEq, false_and, if_false]

theorem splitLines_label (line tokens : List Token) (first : Token) (h : first.type = .labelInit) :
    splitLines .label line tokens = splitLines .inside line (skipLabelNewline first tokens) := by
  cases tokens with
  | nil => rfl
  | cons token rest =>
      by_cases hnewline : token.type = .newline
      · rw [skipLabelNewline, if_pos ⟨h, hnewline⟩, ← splitLines_labelled, splitLines]
        simp [SplitState.next, extendLine, hnewline]
      · rw [skipLabelNewline, if_neg fun hand => hnewline hand.2, splitLines, splitLines]
        simp [SplitState.next, extendLine, hnewline]

/-- A label definition and a line break, or the label definition alone. -/
theorem splitLines_label_cons (h : endsLine token = false) :
    splitLines .label line (token :: rest) = splitLines .labelled line (token :: rest) := by
  have hbreak : token.type ≠ .newline := fun heq => by
    rw [endsLine, heq] at h
    cases h
  rw [splitLines, splitLines]
  simp [SplitState.next, extendLine, h, hbreak]

theorem splitLines_label_newline (h : token.type = .newline) :
    splitLines .label line (token :: rest) = splitLines .labelled line rest := by
  simp [splitLines, SplitState.next, extendLine, h]

theorem splitLines_eq (tokens : List Token) :
    splitLines .between [] tokens = match parserGetLine tokens with
      | none => []
      | some (line, rest) => line :: splitLines .between [] rest := by
  induction tokens with
  | nil => rfl
  | cons first rest ih =>
      cases hends : endsLine first with
      | true =>
          rw [splitLines_between_cons hends, ih, parserGetLine, parserGetLine,
            List.dropWhile_cons_of_pos hends]
      | false =>
          rw [parserGetLine, List.dropWhile_cons_of_neg (by simp [hends])]
          dsimp only
          by_cases hlabel : first.type = .labelInit
          · have hnext : SplitState.next .between first = .label := by
              simp [SplitState.next, hends, hlabel]
            rw [splitLines, hnext, if_neg (by decide), extendLine, if_pos rfl,
              splitLines_label _ _ first hlabel, splitLines_inside]
            rfl
          · have hnext : SplitState.next .between first = .inside := by
              simp [SplitState.next, hends, hlabel]
            have hskip : skipLabelNewline first rest = rest := by
              cases rest with
              | nil => rfl
              | cons token rest => exact if_neg fun h => hlabel h.1
            rw [splitLines, hnext, if_neg (by decide), extendLine, if_pos rfl, splitLines_inside,
              hskip]
            rfl

theorem parserLines_eq_mapM : ∀ (fuel : ℕ) (tokens : List Token), tokens.length ≤ fuel →
    parserLines fuel tokens = (splitLines .between [] tokens).mapM parserReadLine
  | 0, tokens, h => by
      obtain rfl := List.length_eq_zero_iff.mp (Nat.le_zero.mp h)
      rfl
  | fuel + 1, tokens, h => by
      rw [parserLines, splitLines_eq]
      cases hline : parserGetLine tokens with
      | none => rfl
      | some next =>
          obtain ⟨line, rest⟩ := next
          have hlt := parserGetLine_lt hline
          dsimp only
          rw [List.mapM_cons, parserLines_eq_mapM fuel rest (by omega)]

/-- **The lines of the parser.** -/
theorem parserParse_eq (tokens : List Token) :
    parserParse tokens = (splitLines .between [] tokens).mapM parserReadLine :=
  parserLines_eq_mapM _ _ (Nat.le_refl _)

end Scan

/-! ## Tokens that the scan does not tell apart -/

/-- Two tokens of one type and, unless they end a line, of one value. -/
structure Token.Same (t t' : Token) : Prop where
  type : t.type = t'.type
  value : endsLine t = false → t.value = t'.value

/-- Lists of such tokens. -/
abbrev TokensSame (tokens tokens' : List Token) : Prop := List.Forall₂ Token.Same tokens tokens'

section Same

variable {t t' : Token} (h : t.Same t')
include h

theorem Token.Same.endsLine_eq : endsLine t = endsLine t' := by
  rw [endsLine, endsLine, h.type]

theorem Token.Same.next_eq (state : SplitState) : state.next t = state.next t' := by
  rw [SplitState.next, SplitState.next, h.type, h.endsLine_eq]

end Same

/-- A token that does not end a line. -/
theorem SplitState.endsLine_eq_false {state : SplitState} {token : Token}
    (h : state.next token ≠ .between) (hlabel : ¬(state = .label ∧ token.type = .newline)) :
    endsLine token = false := by
  rw [SplitState.next, if_neg hlabel] at h
  exact eq_false_of_ne_true fun hends => h (if_pos hends)

theorem splitLines_same {tokens tokens' : List Token} (h : TokensSame tokens tokens') :
    ∀ {state : SplitState} {line line' : List Token}, TokensAlike line line' →
      List.Forall₂ TokensAlike (splitLines state line tokens) (splitLines state line' tokens') := by
  induction h with
  | nil =>
      intro state line line' hline
      rw [splitLines, splitLines]
      split
      · exact .nil
      · exact .cons hline .nil
  | cons head tail ih =>
      intro state line line' hline
      rename_i token token' rest rest'
      rw [splitLines, splitLines, ← head.next_eq]
      split
      · split
        · exact ih .nil
        · exact .cons hline (ih .nil)
      · rename_i hnext
        refine ih ?_
        rw [extendLine, extendLine, ← head.type]
        by_cases hbetween : state = .between
        · rw [if_pos hbetween, if_pos hbetween]
          have hends := SplitState.endsLine_eq_false hnext fun hlabel => by
            rw [hbetween] at hlabel
            cases hlabel.1
          exact .cons ⟨head.type, head.value hends⟩ .nil
        · rw [if_neg hbetween, if_neg hbetween]
          split
          · exact hline
          · rename_i hkept
            have hends := SplitState.endsLine_eq_false hnext fun hlabel => hkept (.inl hlabel.2)
            exact List.rel_append hline (.cons ⟨head.type, head.value hends⟩ .nil)

/-- **The lines of the parser** depend on neither the locations nor the text of comments. -/
theorem parserParse_same {tokens tokens' : List Token}
    (h : List.Forall₂ TokensAlike (splitLines .between [] tokens) (splitLines .between [] tokens')) :
    Lockstep (List.Forall₂ Line.Alike) (parserParse tokens) (parserParse tokens') := by
  rw [parserParse_eq, parserParse_eq]
  exact Lockstep.mapM h fun _ _ => parserReadLine_alike

/-! ## Marked tokens -/

/-- The next token that is not marked ends a line, or there is none. -/
def endsNext (mark : Token → Bool) (tokens : List Token) : Bool :=
  (tokens.find? (!mark ·)).all endsLine

/-- Every marked token stands where it does not change a line: between two lines, at the end of a
line, or as the only line break behind a label definition whose line goes on. -/
def harmless (mark : Token → Bool) : SplitState → List Token → Bool
  | _, [] => true
  | state, token :: rest =>
      if mark token then
        match state with
        | .between => harmless mark .between rest
        | .label => token.type == .newline && rest.head?.any (!endsLine ·) &&
            harmless mark .labelled rest
        | .labelled => false
        | .inside => endsNext mark rest && harmless mark .between rest
      else harmless mark (state.next token) rest

/-- The tokens that are not marked. -/
def unmark (mark : Token → Bool) (tokens : List Token) : List Token := tokens.filter (!mark ·)

section Marks

variable {mark : Token → Bool} (hmark : ∀ t, mark t = true → endsLine t = true)

theorem unmark_cons_of_mark {token : Token} {rest : List Token} (h : mark token = true) :
    unmark mark (token :: rest) = unmark mark rest :=
  List.filter_cons_of_neg (by simp [h])

theorem unmark_cons_of_plain {token : Token} {rest : List Token} (h : mark token = false) :
    unmark mark (token :: rest) = token :: unmark mark rest :=
  List.filter_cons_of_pos (by simp [h])

include hmark

/-- A token that does not end a line is not marked. -/
theorem plain_of_endsLine {token : Token} (h : endsLine token = false) : mark token = false :=
  eq_false_of_ne_true fun hmarked => by simp [hmark token hmarked] at h

omit hmark in
/-- The next token that is not marked ends the line. -/
theorem splitLines_endsNext {rest line : List Token} (h : endsNext mark rest = true) :
    splitLines .inside line (unmark mark rest) = line :: splitLines .between [] (unmark mark rest) := by
  have hhead : (unmark mark rest).head?.all endsLine = true := by
    rw [unmark, List.head?_filter]
    exact h
  cases hrest : unmark mark rest with
  | nil => rfl
  | cons next rest =>
      rw [hrest] at hhead
      have hlast : endsLine next = true := by simpa using hhead
      rw [splitLines_inside_cons hlast, splitLines_between_cons hlast]

/-- **Harmless marks do not change a line.** -/
theorem splitLines_unmark : ∀ {tokens : List Token} {state : SplitState} {line : List Token},
    harmless mark state tokens = true →
      splitLines state line tokens = splitLines state line (unmark mark tokens)
  | [], _, _, _ => rfl
  | token :: rest, state, line, h => by
      unfold harmless at h
      cases hmarked : mark token with
      | false =>
          rw [hmarked, if_neg (by decide)] at h
          rw [unmark_cons_of_plain hmarked, splitLines, splitLines]
          split
          · rename_i hnext
            rw [hnext] at h
            rw [splitLines_unmark h]
          · exact splitLines_unmark h
      | true =>
          have hends := hmark token hmarked
          rw [hmarked, if_pos rfl] at h
          rw [unmark_cons_of_mark hmarked]
          cases state with
          | between =>
              rw [splitLines_between_cons hends, splitLines_unmark h,
                ← splitLines_between line]
          | label =>
              simp only [Bool.and_eq_true, beq_iff_eq] at h
              obtain ⟨⟨hnewline, hnext⟩, h⟩ := h
              rw [splitLines_label_newline hnewline, splitLines_unmark h]
              cases rest with
              | nil => cases hnext
              | cons next rest =>
                  have hplain : endsLine next = false := by simpa using hnext
                  rw [unmark_cons_of_plain (plain_of_endsLine hmark hplain),
                    splitLines_label_cons hplain]
          | labelled => cases h
          | inside =>
              simp only [Bool.and_eq_true] at h
              obtain ⟨hnext, h⟩ := h
              rw [splitLines_inside_cons hends, splitLines_unmark h, splitLines_endsNext hnext]

end Marks

/-! ## Marked tokens that are not harmless -/

/-- A marked token cuts a line in two. -/
def cutsHere (mark : Token → Bool) (state : SplitState) (token : Token) (rest : List Token) : Bool :=
  mark token && state == .inside && !endsNext mark rest

/-- How many of the marked tokens do. -/
def cutCount (mark : Token → Bool) : SplitState → List Token → ℕ
  | _, [] => 0
  | state, token :: rest =>
      (if cutsHere mark state token rest then 1 else 0) + cutCount mark (state.next token) rest

/-- What has been read of a line that begins with a label definition. -/
def SplitState.Stands (state : SplitState) (line : List Token) : Prop :=
  state = .label ∨ state = .labelled → ∃ label, label.type = .labelInit ∧ line = [label]

theorem SplitState.Stands.next {state : SplitState} {line : List Token} (h : state.Stands line)
    (token : Token) : (state.next token).Stands (extendLine state line token) := by
  intro hnext
  by_cases hbreak : state = .label ∧ token.type = .newline
  · obtain ⟨label, hlabel, rfl⟩ := h (.inl hbreak.1)
    refine ⟨label, hlabel, ?_⟩
    rw [extendLine, if_neg (by simp [hbreak.1]), if_pos (.inl hbreak.2)]
  · rw [SplitState.next, if_neg hbreak] at hnext
    split at hnext
    · simp at hnext
    · split at hnext
      · rename_i hfirst
        refine ⟨token, hfirst.2, ?_⟩
        rw [extendLine, if_pos hfirst.1]
      · simp at hnext

/-- A line that is only a label definition is rejected. -/
theorem parserReadLine_label {label : Token} (h : label.type = .labelInit) :
    ∃ failure, parserReadLine [label] = .error failure := by
  rw [parserReadLine, readIf, if_pos (by simpa using h)]
  exact ⟨_, rfl⟩

/-- **Marked tokens that neither cut a line nor leave a label definition alone** are harmless. -/
theorem harmless_of_lines {mark : Token → Bool} (hmark : ∀ t, mark t = true → endsLine t = true) :
    ∀ {tokens : List Token} {state : SplitState} {line : List Token},
      state.Stands line → cutCount mark state tokens = 0 →
        (∀ label : Token, label.type = .labelInit → [label] ∉ splitLines state line tokens) →
          harmless mark state tokens = true
  | [], _, _, _, _, _ => rfl
  | token :: rest, state, line, hline, hcut, hlines => by
      obtain ⟨hhere, hcut⟩ := Nat.add_eq_zero_iff.mp hcut
      rw [splitLines_step] at hlines
      have hrest : harmless mark (state.next token) rest = true :=
        harmless_of_lines hmark (hline.next token) hcut fun label hlabel hmem =>
          hlines label hlabel (List.mem_append_right _ hmem)
      unfold harmless
      cases hmarked : mark token with
      | false => exact hrest
      | true =>
          have hends := hmark token hmarked
          rw [if_pos rfl]
          cases state with
          | between =>
              rw [SplitState.next, if_neg (by simp), if_pos hends] at hrest
              exact hrest
          | inside =>
              rw [SplitState.next, if_neg (by simp), if_pos hends] at hrest
              simpa [cutsHere, hmarked, hrest] using hhere
          | labelled =>
              -- the line ends although only a label definition has been read
              obtain ⟨label, hlabel, rfl⟩ := hline (.inr rfl)
              refine absurd ?_ (hlines label hlabel)
              simp [SplitState.next, hends]
          | label =>
              obtain ⟨label, hlabel, rfl⟩ := hline (.inl rfl)
              by_cases hnewline : token.type = .newline
              · have hnext : SplitState.next .label token = .labelled := by
                  simp [SplitState.next, hnewline]
                have hline : extendLine .label [label] token = [label] := by
                  simp [extendLine, hnewline]
                rw [hnext, if_neg (by simp), hline] at hlines
                rw [hnext] at hrest
                cases rest with
                | nil => exact absurd (by simp [splitLines]) (hlines label hlabel)
                | cons following rest =>
                    by_cases hlast : endsLine following = true
                    · refine absurd ?_ (hlines label hlabel)
                      simp [splitLines, SplitState.next, hlast]
                    · simp [hnewline, hlast, hrest]
              · refine absurd ?_ (hlines label hlabel)
                simp [SplitState.next, hends, hnewline]

end Zlvm
