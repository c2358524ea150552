import Zlvm.Asm.NamedArguments
import Zlvm.Asm.Splitter

/-!
# Comments and line breaks in macros

Comments at the end of lines and line breaks at their beginning that are added to the tokens of a
source, and what the definitions make of them.  The added ones are told from the others by a mark.

* `Marking` — a way to mark comments and line breaks that the expansion does not destroy.
* `MarkedLines` — the same tokens with marked ones added; `Spread` — what the expansion makes of it.
* `nextLine_marked`, `argumentTokens_marked`, `takeWhile_marked` — the lists that the macros are made
  of.
* **`captureAll_marked`** — the definitions with the marked tokens are those without them, but for
  marked tokens in the bodies.
-/

namespace Zlvm

open Loop

/-- A way to mark comments and line breaks: a copy of a token is marked like it, and no token that
the lexer reads is marked. -/
structure Marking (mark : Token → Bool) : Prop where
  blank : ∀ t, mark t = true → endsLine t = true
  clone : ∀ t location, mark (cloneToken t location) = mark t
  read : ∀ {state token state'}, lexerReadToken state = .ok (some (token, state')) →
    mark token = false

/-- Nothing is marked. -/
theorem marking_none : Marking fun _ => false where
  blank := fun _ h => nomatch h
  clone := fun _ _ => rfl
  read := fun _ => rfl

/-- A token and one that is not marked and differs in its location only. -/
structure Token.Plain (mark : Token → Bool) (t t' : Token) : Prop where
  alike : t.Alike t'
  plain : mark t' = false

/-- Lists of such tokens. -/
abbrev TokensPlain (mark : Token → Bool) (tokens tokens' : List Token) : Prop :=
  List.Forall₂ (Token.Plain mark) tokens tokens'

/-- The tokens on the right are those on the left with marked ones added: comments before a line
break, or at the end if `final`, and line breaks wherever the flag is set.  `allows` says whether
one may be added behind a token. -/
inductive Marked (mark allows : Token → Bool) (final : Prop) :
    Bool → List Token → List Token → Prop
  | nil {start : Bool} : Marked mark allows final start [] []
  | cons {start : Bool} {t t' : Token} {l l' : List Token} (plain : mark t' = false)
      (same : t.Same t') (rest : Marked mark allows final (allows t') l l') :
      Marked mark allows final start (t :: l) (t' :: l')
  | lineBreak {t' : Token} {l l' : List Token} (marked : mark t' = true)
      (type : t'.type = .newline) (rest : Marked mark allows final true l l') :
      Marked mark allows final true l (t' :: l')
  | comment {start : Bool} {c n n' : Token} {l l' : List Token} (marked : mark c = true)
      (type : c.type = .comment) (plain : mark n' = false) (newline : n'.type = .newline)
      (same : n.Same n') (rest : Marked mark allows final true l l') :
      Marked mark allows final start (n :: l) (c :: n' :: l')
  | last {start : Bool} {c : Token} (marked : mark c = true) (type : c.type = .comment)
      (ending : final) : Marked mark allows final start [] [c]

/-- The marked line breaks are at the start of a line. -/
abbrev MarkedLines (mark : Token → Bool) (final : Prop) : Bool → List Token → List Token → Prop :=
  Marked mark (·.type == .newline) final

/-- The marked line breaks are anywhere. -/
abbrev Spread (mark : Token → Bool) (final : Prop) : List Token → List Token → Prop :=
  Marked mark (fun _ => true) final true

section Same

variable {t t' : Token} (h : t.Same t')
include h

theorem Token.Same.alike (hends : endsLine t = false) : t.Alike t' := ⟨h.type, h.value hends⟩

theorem Token.Same.isDirective_eq (name : String) : isDirective t name = isDirective t' name := by
  by_cases htype : t.type = .directive
  · have hends : endsLine t = false := by simp [endsLine, htype]
    rw [isDirective, isDirective, ← h.type, h.value hends]
  · have htype' : t'.type ≠ .directive := fun heq => htype (h.type.trans heq)
    rw [isDirective, isDirective, beq_false_of_ne htype, beq_false_of_ne htype']
    rfl

theorem Token.Same.clone (location location' : Option Token) :
    (cloneToken t location).Same (cloneToken t' location') := by
  cases location <;> cases location' <;> exact ⟨h.type, h.value⟩

end Same

/-- A token that ends a line is no directive. -/
theorem isDirective_of_endsLine {t : Token} (h : endsLine t = true) (name : String) :
    isDirective t name = false := by
  rw [isDirective, beq_false_of_ne fun htype => by simp [endsLine, htype] at h, Bool.false_and]

/-! ## Lists -/

section Lists

variable {mark allows : Token → Bool} {final : Prop} {start : Bool} {l l' : List Token}

/-- More may be added where the flag is set. -/
theorem Marked.weaken {start' : Bool} (h : Marked mark allows final start l l')
    (himp : start = true → start' = true) : Marked mark allows final start' l l' := by
  cases h with
  | nil => exact .nil
  | cons plain same rest => exact .cons plain same rest
  | lineBreak marked type rest =>
      obtain rfl := himp rfl
      exact .lineBreak marked type rest
  | comment marked type plain newline same rest =>
      exact .comment marked type plain newline same rest
  | last marked type ending => exact .last marked type ending

theorem Spread.append {b b' : List Token} (h : Marked mark (fun _ => true) False start l l')
    (hb : Spread mark final b b') : Spread mark final (l ++ b) (l' ++ b') := by
  induction h with
  | nil => exact hb
  | cons plain same _ ih => exact .cons plain same ih
  | lineBreak marked type _ ih => exact .lineBreak marked type ih
  | comment marked type plain newline same _ ih =>
      exact .comment marked type plain newline same ih
  | last _ _ ending => exact ending.elim

/-- **Without the marked tokens.** -/
theorem Marked.same (h : Marked mark allows final start l l') :
    TokensSame l (unmark mark l') := by
  induction h with
  | nil => exact .nil
  | cons plain same _ ih =>
      rw [unmark_cons_of_plain plain]
      exact .cons same ih
  | lineBreak marked _ _ ih =>
      rw [unmark_cons_of_mark marked]
      exact ih
  | comment marked _ plain _ same _ ih =>
      rw [unmark_cons_of_mark marked, unmark_cons_of_plain plain]
      exact .cons same ih
  | last marked _ _ =>
      rw [unmark_cons_of_mark marked]
      exact .nil

/-- The tokens after the line, once its first token has been read. -/
theorem nextLine_marked (h : MarkedLines mark final false l l') :
    MarkedLines mark final true (nextLine l) (nextLine l') := by
  generalize hstart : false = start at h
  induction h with
  | nil => exact .nil
  | cons plain same rest ih =>
      rename_i t t' l l'
      by_cases hnewline : t'.type = .newline
      · rw [nextLine, nextLine, List.dropWhile_cons_of_neg (by simp [same.type, hnewline]),
          List.dropWhile_cons_of_neg (by simp [hnewline])]
        exact rest.weaken fun _ => rfl
      · rw [nextLine, nextLine, List.dropWhile_cons_of_pos (by simp [same.type, hnewline]),
          List.dropWhile_cons_of_pos (by simp [hnewline])]
        exact ih (by simp [hnewline])
  | lineBreak => cases hstart
  | comment _ type _ newline same rest _ =>
      rw [nextLine, nextLine, List.dropWhile_cons_of_neg (by simp [same.type, newline]),
        List.dropWhile_cons_of_pos (by simp [type]),
        List.dropWhile_cons_of_neg (by simp [newline])]
      exact rest
  | last _ type _ =>
      rw [nextLine, nextLine, List.dropWhile_cons_of_pos (by simp [type])]
      exact .nil

/-- The tokens of the line up to its comment. -/
theorem lineArguments_marked (h : MarkedLines mark final false l l') :
    TokensPlain mark ((lineTokens l).takeWhile (·.type != .comment))
      ((lineTokens l').takeWhile (·.type != .comment)) := by
  generalize hstart : false = start at h
  induction h with
  | nil => exact .nil
  | cons plain same rest ih =>
      rename_i t t' l l'
      have htype := same.type
      by_cases hnewline : t'.type = .newline
      · simp only [lineTokens, List.takeWhile_cons, htype, hnewline, bne_self_eq_false,
          Bool.false_eq_true, if_false, List.takeWhile_nil]
        exact .nil
      · have hkept : (t'.type != .newline) = true := by simpa using hnewline
        simp only [lineTokens, List.takeWhile_cons, htype, hkept, if_true]
        by_cases hcomment : t'.type = .comment
        · simp only [hcomment, bne_self_eq_false, Bool.false_eq_true, if_false]
          exact .nil
        · have hkept : (t'.type != .comment) = true := by simpa using hcomment
          have hends : endsLine t = false := by simp [endsLine, htype, hnewline, hcomment]
          simp only [hkept, if_true]
          exact .cons ⟨same.alike hends, plain⟩ (ih (by simp [hnewline]))
  | lineBreak => cases hstart
  | comment _ type _ newline same _ _ =>
      rw [lineTokens, lineTokens, List.takeWhile_cons_of_neg (by simp [same.type, newline]),
        List.takeWhile_cons_of_pos (by simp [type]), List.takeWhile_cons_of_neg (by simp [type])]
      exact .nil
  | last _ type _ =>
      rw [lineTokens, lineTokens, List.takeWhile_cons_of_pos (by simp [type]),
        List.takeWhile_cons_of_neg (by simp [type])]
      exact .nil

theorem argumentTokens_marked (h : MarkedLines mark final false l l') :
    TokensPlain mark (argumentTokens (lineTokens l)) (argumentTokens (lineTokens l')) :=
  List.rel_filter (fun t t' ht => by simp [ht.alike.type]) (lineArguments_marked h)

/-- A line of comments. -/
theorem find?_lineTokens_marked (h : MarkedLines mark final false l l')
    (hnone : (lineTokens l).find? (·.type != .comment) = none) :
    (lineTokens l').find? (·.type != .comment) = none := by
  generalize hstart : false = start at h
  induction h with
  | nil => exact hnone
  | cons plain same rest ih =>
      rename_i t t' l l'
      have htype := same.type
      by_cases hnewline : t'.type = .newline
      · simp [lineTokens, hnewline]
      · have hkept : (t'.type != .newline) = true := by simpa using hnewline
        simp only [lineTokens, List.takeWhile_cons, htype, hkept, if_true, List.find?_cons]
          at hnone ⊢
        by_cases hcomment : t'.type = .comment
        · simp only [hcomment, bne_self_eq_false] at hnone ⊢
          exact ih hnone (by simp [hnewline])
        · have hfound : (t'.type != .comment) = true := by simpa using hcomment
          rw [hfound] at hnone
          cases hnone
  | lineBreak => cases hstart
  | comment _ type _ newline _ _ _ =>
      simp [lineTokens, type, newline]
  | last _ type _ => simp [lineTokens, type]

theorem find?_isDirective_marked (hmark : ∀ t, mark t = true → endsLine t = true)
    (h : Marked mark allows final start l l') {name : String}
    (hnone : l.find? (isDirective · name) = none) : l'.find? (isDirective · name) = none := by
  have hfalse : ∀ {t : Token}, mark t = true → isDirective t name = false := fun hmarked =>
    isDirective_of_endsLine (hmark _ hmarked) name
  induction h with
  | nil => rfl
  | cons _ same _ ih =>
      rw [List.find?_cons, same.isDirective_eq] at hnone
      rw [List.find?_cons]
      split at hnone
      · cases hnone
      · exact ih hnone
  | lineBreak marked _ _ ih =>
      rw [List.find?_cons, hfalse marked]
      exact ih hnone
  | comment marked _ _ _ same _ ih =>
      rw [List.find?_cons, same.isDirective_eq] at hnone
      rw [List.find?_cons, hfalse marked, List.find?_cons]
      split at hnone
      · cases hnone
      · exact ih hnone
  | last marked _ _ =>
      rw [List.find?_cons, hfalse marked]
      rfl

section Split

variable {p : Token → Bool} (hsame : ∀ t t' : Token, t.Same t' → p t = p t')
  (hends : ∀ t, endsLine t = true → p t = true)
include hsame hends

/-- The tokens from some token on that does not end a line. -/
theorem dropWhile_marked (hmark : ∀ t, mark t = true → endsLine t = true)
    (h : Marked mark allows final start l l') :
    l.dropWhile p = [] ∧ l'.dropWhile p = [] ∨
      ∃ t t' r r', l.dropWhile p = t :: r ∧ l'.dropWhile p = t' :: r' ∧ t.Same t' ∧ p t' = false ∧
        Marked mark allows final (allows t') r r' := by
  induction h with
  | nil => exact .inl ⟨rfl, rfl⟩
  | cons _ same rest ih =>
      rename_i t t' l l' _
      rw [List.dropWhile_cons, List.dropWhile_cons, hsame _ _ same]
      cases hp : p t' with
      | true => exact ih
      | false => exact .inr ⟨t, t', l, l', rfl, rfl, same, hp, rest⟩
  | lineBreak marked _ _ ih =>
      rw [List.dropWhile_cons_of_pos (hends _ (hmark _ marked))]
      exact ih
  | comment marked _ _ newline same _ ih =>
      have hn := hends _ (show endsLine _ = true by rw [endsLine, newline]; rfl)
      rw [List.dropWhile_cons_of_pos ((hsame _ _ same).trans hn),
        List.dropWhile_cons_of_pos (hends _ (hmark _ marked)), List.dropWhile_cons_of_pos hn]
      exact ih
  | last marked _ _ =>
      rw [List.dropWhile_cons_of_pos (hends _ (hmark _ marked))]
      exact .inl ⟨rfl, rfl⟩

/-- The tokens before it. -/
theorem takeWhile_marked (hmark : ∀ t, mark t = true → endsLine t = true)
    (h : Marked mark allows final start l l') (hne : l.dropWhile p ≠ []) :
    Marked mark allows False start (l.takeWhile p) (l'.takeWhile p) := by
  induction h with
  | nil => exact .nil
  | cons plain same _ ih =>
      rename_i t t' l l' _
      rw [List.dropWhile_cons, hsame _ _ same] at hne
      rw [List.takeWhile_cons, List.takeWhile_cons, hsame _ _ same]
      cases hp : p t' with
      | true => exact .cons plain same (ih (by simpa [hp] using hne))
      | false => exact .nil
  | lineBreak marked type _ ih =>
      rw [List.takeWhile_cons_of_pos (hends _ (hmark _ marked))]
      exact .lineBreak marked type (ih hne)
  | comment marked type plain newline same _ ih =>
      have hn := hends _ (show endsLine _ = true by rw [endsLine, newline]; rfl)
      rw [List.dropWhile_cons_of_pos ((hsame _ _ same).trans hn)] at hne
      rw [List.takeWhile_cons_of_pos ((hsame _ _ same).trans hn),
        List.takeWhile_cons_of_pos (hends _ (hmark _ marked)), List.takeWhile_cons_of_pos hn]
      exact .comment marked type plain newline same (ih hne)
  | last _ _ _ => exact absurd rfl hne

end Split

end Lists

/-! ## Definitions -/

/-- The same macro, with marked tokens in its body. -/
structure Macro.Marked (mark : Token → Bool) (m m' : Macro) : Prop where
  name : m.name.value = m'.name.value
  parameters : TokensAlike m.parameters m'.parameters
  body : MarkedLines mark False true m.body m'.body

abbrev MacrosMarked (mark : Token → Bool) (macros macros' : List Macro) : Prop :=
  List.Forall₂ (Macro.Marked mark) macros macros'

section Definitions

variable {mark : Token → Bool} {final : Prop} {start : Bool} {l l' : List Token}
  {macros macros' : List Macro}

theorem findMacro_marked (h : MacrosMarked mark macros macros') (name : CString) :
    Option.Rel (Macro.Marked mark) (findMacro macros name) (findMacro macros' name) := by
  unfold findMacro
  induction h with
  | nil => exact .none
  | cons head _ ih =>
      rw [List.find?_cons, List.find?_cons, head.name]
      split
      · exact .some head
      · exact ih

theorem any_name_marked (h : MacrosMarked mark macros macros') (name : CString) :
    macros.any (·.name.value == name) = macros'.any (·.name.value == name) := by
  induction h with
  | nil => rfl
  | cons head _ ih => rw [List.any_cons, List.any_cons, head.name, ih]

theorem any_value_alike {tokens tokens' : List Token} (h : TokensAlike tokens tokens')
    (value : CString) : tokens.any (·.value == value) = tokens'.any (·.value == value) := by
  induction h with
  | nil => rfl
  | cons head _ ih => rw [List.any_cons, List.any_cons, head.value, ih]

theorem readParameters_plain
    (h : TokensPlain mark (l.takeWhile (·.type != .comment)) (l'.takeWhile (·.type != .comment))) :
    Lockstep TokensAlike (readParameters l) (readParameters l') := by
  have hparameters : TokensPlain mark ((l.takeWhile (·.type != .comment)).filter (·.type != .comma))
      ((l'.takeWhile (·.type != .comment)).filter (·.type != .comma)) :=
    List.rel_filter (fun t t' ht => by simp [ht.alike.type]) h
  refine Lockstep.foldlM_related hparameters (fun t t' done done' ht hdone => ?_) .nil
  unfold addParameter
  rw [ht.alike.type, any_value_alike hdone, ht.alike.value]
  refine (Lockstep.require Iff.rfl).bind fun _ _ _ => ?_
  refine (Lockstep.require Iff.rfl).bind fun _ _ _ => ?_
  exact .ok (List.rel_append hdone (.cons ht.alike .nil))

/-- What a definition is captured from. -/
theorem captureMacro_eq_ok {definition : Token} {m : Macro} {after : List Token} :
    captureMacro macros definition l = .ok (m, after) ↔
      ∃ arguments, lineTokens l = m.name :: arguments ∧ m.name.type = .id ∧
        findMacro macros m.name.value = none ∧ readParameters arguments = .ok m.parameters ∧
        m.body = (nextLine l).takeWhile (!isDirective · "endmacro") ∧
        m.body.find? (isDirective · "macro") = none ∧
        ∃ ending rest, (nextLine l).dropWhile (!isDirective · "endmacro") = ending :: rest ∧
          (lineTokens rest).find? (·.type != .comment) = none ∧ after = nextLine (ending :: rest) := by
  unfold captureMacro
  constructor
  · intro h
    split at h
    · cases h
    · rename_i name arguments hline
      simp only [bind_eq_ok, require_eq_ok] at h
      obtain ⟨-, hid, -, hfresh, parameters, hparameters, h⟩ := h
      split at h
      · cases h
      · rename_i hnested
        simp only [bind_eq_ok, require_eq_ok] at h
        obtain ⟨-, hending, h⟩ := h
        split at h
        · cases h
        · rename_i hcomments
          cases h
          cases hdrop : (nextLine l).dropWhile (!isDirective · "endmacro") with
          | nil => exact absurd hdrop hending
          | cons ending rest =>
              rw [hdrop] at hcomments
              exact ⟨arguments, hline, hid, hfresh, hparameters, rfl, hnested, ending, rest, rfl,
                hcomments, rfl⟩
  · rintro ⟨arguments, hline, hid, hfresh, hparameters, hbody, hnested, ending, rest, hdrop,
      hcomments, rfl⟩
    rw [hline]
    dsimp only
    rw [require_of hid, ok_bind, require_of hfresh, ok_bind, hparameters, ok_bind, ← hbody, hnested,
      hdrop]
    dsimp only
    rw [require_of (by simp), ok_bind, List.drop_one, List.tail_cons, hcomments]
    rfl

theorem nextLine_cons_of_ne {t : Token} (h : t.type ≠ .newline) : nextLine (t :: l) = nextLine l := by
  rw [nextLine, nextLine, List.dropWhile_cons_of_pos (by simpa using h)]

/-- Where a definition ends. -/
theorem ordinary_of_endsLine {t : Token} (h : endsLine t = true) :
    (!isDirective t "endmacro") = true := by
  rw [isDirective_of_endsLine h]
  rfl

theorem Token.Same.ordinary_eq {t t' : Token} (h : t.Same t') :
    (!isDirective t "endmacro") = !isDirective t' "endmacro" := by
  rw [h.isDirective_eq]

theorem type_of_isDirective {t : Token} {name : String} (h : isDirective t name = true) :
    t.type = .directive := by
  rw [isDirective, Bool.and_eq_true, beq_iff_eq] at h
  exact h.1

variable (hmark : Marking mark)
include hmark

/-- **A definition** with marked tokens. -/
theorem captureMacro_marked (hmacros : MacrosMarked mark macros macros')
    (h : MarkedLines mark final false l l') {definition : Token} (definition' : Token) {m : Macro}
    {after : List Token} (hcapture : captureMacro macros definition l = .ok (m, after)) :
    ∃ m' after', captureMacro macros' definition' l' = .ok (m', after') ∧ m.Marked mark m' ∧
      MarkedLines mark final true after after' := by
  obtain ⟨arguments, hline, hid, hfresh, hparameters, hbody, hnested, ending, rest, hdrop,
    hcomments, rfl⟩ := captureMacro_eq_ok.mp hcapture
  have hnext := nextLine_marked h
  have hbodies := takeWhile_marked (fun _ _ => Token.Same.ordinary_eq)
    (fun _ => ordinary_of_endsLine) hmark.blank hnext (by simp [hdrop])
  have hdrops := dropWhile_marked (fun _ _ => Token.Same.ordinary_eq)
    (fun _ => ordinary_of_endsLine) hmark.blank hnext
  rcases hdrops with ⟨hnil, -⟩ | ⟨t, ending', r, rest', ht, hdrop', hsame, hending', hrest⟩
  · rw [hdrop] at hnil
    cases hnil
  obtain ⟨rfl, rfl⟩ := List.cons.inj (hdrop.symm.trans ht)
  have hdirective : ending'.type = .directive := type_of_isDirective (by simpa using hending')
  rw [hdirective] at hrest
  cases h with
  | nil => cases hline
  | cons plain same tail =>
      rename_i name name' l l'
      by_cases hnewline : name.type = .newline
      · rw [lineTokens, List.takeWhile_cons_of_neg (by simp [hnewline])] at hline
        cases hline
      rw [lineTokens, List.takeWhile_cons_of_pos (by simp [hnewline])] at hline
      obtain ⟨rfl, rfl⟩ := List.cons.inj hline
      have hid' : name'.type = .id := same.type.symm.trans hid
      have hvalue := same.value (by simp [endsLine, hid])
      rw [hid'] at tail
      obtain ⟨parameters', hparameters', hrelated⟩ :=
        (readParameters_plain (lineArguments_marked tail)).exists_of_ok hparameters
      have hmissing := findMacro_marked hmacros m.name.value
      rw [hfresh] at hmissing
      refine ⟨⟨name', parameters', (nextLine (name' :: l')).takeWhile (!isDirective · "endmacro")⟩,
        nextLine (ending' :: rest'), captureMacro_eq_ok.mpr ⟨lineTokens l', ?_, hid', ?_, hparameters',
          rfl, ?_, ending', rest', hdrop', find?_lineTokens_marked hrest hcomments, rfl⟩,
        ⟨hvalue, hrelated, ?_⟩, ?_⟩
      · exact List.takeWhile_cons_of_pos (by simp [hid'])
      · rw [← hvalue]
        generalize findMacro macros' m.name.value = found at hmissing
        cases hmissing
        rfl
      · refine find?_isDirective_marked hmark.blank hbodies ?_
        rw [← hbody]
        exact hnested
      · rw [hbody]
        exact hbodies
      · rw [nextLine_cons_of_ne (by simp [hsame.type, hdirective]),
          nextLine_cons_of_ne (by simp [hdirective])]
        exact nextLine_marked hrest
  | comment _ _ _ newline same _ =>
      rw [lineTokens, List.takeWhile_cons_of_neg (by simp [same.type, newline])] at hline
      cases hline
  | last _ _ _ => cases hline

/-- **All definitions.** -/
theorem captureAll_marked : ∀ (n : ℕ) {start : Bool} {l l' : List Token}
    {macros macros' captured : List Macro}, l'.length ≤ n → MacrosMarked mark macros macros' →
      MarkedLines mark final start l l' → captureAll macros l = .ok captured →
        ∃ captured', captureAll macros' l' = .ok captured' ∧ MacrosMarked mark captured captured'
  | 0, _, l, l', _, macros', _, hlength, hmacros, h, hcapture => by
      obtain rfl := List.length_eq_zero_iff.mp (Nat.le_zero.mp hlength)
      cases h with
      | nil => exact ⟨macros', rfl, Except.ok.inj hcapture ▸ hmacros⟩
  | n + 1, start, l, l', macros, macros', captured, hlength, hmacros, h, hcapture => by
      have hskip : ∀ {t : Token} {l : List Token}, endsLine t = true →
          captureAll macros' (t :: l) = captureAll macros' l := fun hends =>
        captureAll_other (isDirective_of_endsLine hends _) (isDirective_of_endsLine hends _)
      cases h with
      | nil => exact ⟨macros', rfl, Except.ok.inj hcapture ▸ hmacros⟩
      | cons plain same rest =>
          rename_i t t' l l'
          rw [List.length_cons] at hlength
          cases hdefinition : isDirective t "macro" with
          | true =>
              have hdefinition' := (same.isDirective_eq "macro").symm.trans hdefinition
              have htype := type_of_isDirective hdefinition'
              rw [htype] at rest
              rw [captureAll_definition hdefinition, bind_eq_ok] at hcapture
              obtain ⟨⟨m, after⟩, hm, hcapture⟩ := hcapture
              obtain ⟨m', after', hm', hmarked, hafter⟩ :=
                captureMacro_marked hmark hmacros rest t' hm
              have hle := captureMacro_length_le hm'
              rw [captureAll_definition hdefinition', hm', ok_bind]
              exact captureAll_marked n (by dsimp only; omega) (.cons hmarked hmacros) hafter hcapture
          | false =>
              have hdefinition' := (same.isDirective_eq "macro").symm.trans hdefinition
              cases hending : isDirective t "endmacro" with
              | true =>
                  rw [captureAll_ending hdefinition hending] at hcapture
                  cases hcapture
              | false =>
                  have hending' := (same.isDirective_eq "endmacro").symm.trans hending
                  rw [captureAll_other hdefinition hending] at hcapture
                  rw [captureAll_other hdefinition' hending']
                  exact captureAll_marked n (by omega) hmacros rest hcapture
      | lineBreak marked _ rest =>
          rw [List.length_cons] at hlength
          rw [hskip (hmark.blank _ marked)]
          exact captureAll_marked n (by omega) hmacros rest hcapture
      | comment marked _ _ newline same rest =>
          have hends : ∀ {t : Token}, t.type = .newline → endsLine t = true := fun htype => by
            rw [endsLine, htype]
            rfl
          have hn := hends (same.type.trans newline)
          simp only [List.length_cons] at hlength
          rw [captureAll_other (isDirective_of_endsLine hn _) (isDirective_of_endsLine hn _)]
            at hcapture
          rw [hskip (hmark.blank _ marked), hskip (hends newline)]
          exact captureAll_marked n (by omega) hmacros rest hcapture
      | last marked _ _ =>
          rw [hskip (hmark.blank _ marked)]
          exact ⟨macros', rfl, Except.ok.inj hcapture ▸ hmacros⟩

end Definitions

end Zlvm
