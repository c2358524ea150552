import Mathlib.Data.List.TakeWhile
import Zlvm.Asm.Diagnostics

/-!
# The lines of the parser

The parser keeps every token but commas, line breaks and comments, in the order in which they stand.

* `SourceLines` — the lines of a token list, without their commas.
* `Line.items`, `Item.Of` — what a line of the parser holds, in order, and the tokens that it holds.
* `LineBody.WellShaped` — the shape of statements and directives.
* `Conserves` — the lines of the parser are those of the token list, and are well shaped.
* **`parserParse_conserves`** — this holds of every token list that the parser accepts.
-/

namespace Zlvm

open Loop

/-! ## Lines -/

/-- The tokens of which a line holds something. -/
def isSignificant (token : Token) : Bool := !endsLine token && token.type != .comma

/-- What may stand between the first token of a line and the others: the line break behind a label
definition. -/
inductive Gap (first : Token) : List Token → Prop
  | none : Gap first []
  | newline {token : Token} (label : first.type = .labelInit) (type : token.type = .newline) :
      Gap first [token]

/-- The lines of a token list, each without its commas.  A line goes on to the next line break or
comment, but for the one behind a label definition. -/
inductive SourceLines : List Token → List (List Token) → Prop
  | done : SourceLines [] []
  | blank {token : Token} {rest : List Token} {lines : List (List Token)}
      (ends : endsLine token = true) (tail : SourceLines rest lines) :
      SourceLines (token :: rest) lines
  | line {first : Token} {gap body rest : List Token} {lines : List (List Token)}
      (begins : endsLine first = false) (between : Gap first gap)
      (inside : ∀ token ∈ body, endsLine token = false)
      (ends : ∀ token ∈ rest.head?, endsLine token = true) (tail : SourceLines rest lines) :
      SourceLines (first :: (gap ++ (body ++ rest)))
        ((first :: body).filter (·.type != .comma) :: lines)

/-- What a line of the parser holds of a token: the name of a label, or the token itself. -/
inductive Item
  | label (name : CString)
  | token (token : Token)

/-- The token that an item comes from. -/
inductive Item.Of : Item → Token → Prop
  | label {token : Token} (type : token.type = .labelInit) : Of (.label token.value) token
  | token (token : Token) : Of (.token token) token

/-- A line of the parser, flattened: its label, then the opcode, the condition, the registers and
the immediate, or the name of the directive and its arguments. -/
def Line.items (line : Line) : List Item :=
  line.label.toList.map .label ++ line.body.tokens.map .token

/-- The shape of a statement. -/
structure Statement.WellShaped (statement : Statement) : Prop where
  opcode : statement.opcode.type = .id
  cond : ∀ token ∈ statement.cond, token.type = .id
  reg1 : ∀ token ∈ statement.reg1, token.type = .register
  reg2 : ∀ token ∈ statement.reg2, token.type = .register ∧ statement.reg1.isSome = true
  imm : ∀ token ∈ statement.imm,
    token.type = .labelUse ∨ token.type = .charLiteral ∨ isIntegerToken token = true

/-- The shape of what a line holds: a directive has a known name. -/
def LineBody.WellShaped : LineBody → Prop
  | .stmt statement => statement.WellShaped
  | .dir directive =>
      directive.name.type = .directive ∧ getDirectiveType directive.name = some directive.type

/-- The lines of the parser hold the tokens of the list that are neither commas nor line breaks nor
comments, in their order, line by line, and have the shapes of the grammar. -/
structure Conserves (tokens : List Token) (lines : List Line) : Prop where
  flat : List.Forall₂ Item.Of (lines.flatMap Line.items) (tokens.filter isSignificant)
  shapes : ∀ line ∈ lines, line.body.WellShaped
  byLine : ∃ sourceLines, SourceLines tokens sourceLines ∧
    List.Forall₂ (fun line sourceLine => List.Forall₂ Item.Of line.items sourceLine)
      lines sourceLines

/-! ## The lines of a token list -/

section Lines

variable {tokens : List Token}

theorem isSignificant_of_not_endsLine {token : Token} (h : endsLine token = false) :
    isSignificant token = (token.type != .comma) := by
  rw [isSignificant, h]
  rfl

theorem isSignificant_of_endsLine {token : Token} (h : endsLine token = true) :
    isSignificant token = false := by
  rw [isSignificant, h]
  rfl

/-- **The lines together** are the tokens that are kept. -/
theorem SourceLines.flatten {sourceLines : List (List Token)} (h : SourceLines tokens sourceLines) :
    tokens.filter isSignificant = sourceLines.flatten := by
  induction h with
  | done => rfl
  | blank ends _ ih =>
      rw [List.filter_cons_of_neg (by simp [isSignificant_of_endsLine ends]), ih]
  | line begins between inside ends tail ih =>
      rename_i first gap body rest lines
      have hgap : gap.filter isSignificant = [] := by
        cases between with
        | none => rfl
        | newline _ type =>
            rw [List.filter_cons_of_neg (by simp [isSignificant, endsLine, type]), List.filter_nil]
      have hbody : (first :: body).filter isSignificant
          = (first :: body).filter (·.type != .comma) := by
        have hnone : ∀ token ∈ first :: body, endsLine token = false :=
          List.forall_mem_cons.mpr ⟨begins, inside⟩
        exact List.filter_congr fun token hmem => isSignificant_of_not_endsLine (hnone token hmem)
      rw [List.flatten_cons, ← ih, ← hbody, List.filter_cons, List.filter_cons, List.filter_append,
        List.filter_append, hgap, List.nil_append]
      split <;> rfl

/-- Where no line is left there is nothing but line breaks and comments. -/
theorem sourceLines_of_all (h : ∀ token ∈ tokens, endsLine token = true) :
    SourceLines tokens [] := by
  induction tokens with
  | nil => exact .done
  | cons token rest ih =>
      obtain ⟨hends, hrest⟩ := List.forall_mem_cons.mp h
      exact .blank hends (ih hrest)

theorem SourceLines.blanks {blanks : List Token} {sourceLines : List (List Token)}
    (hblanks : ∀ token ∈ blanks, endsLine token = true) (h : SourceLines tokens sourceLines) :
    SourceLines (blanks ++ tokens) sourceLines := by
  induction blanks with
  | nil => exact h
  | cons token blanks ih =>
      obtain ⟨hends, hblanks⟩ := List.forall_mem_cons.mp hblanks
      exact .blank hends (ih hblanks)

theorem sourceLines_of_parserGetLine_none (h : parserGetLine tokens = none) :
    SourceLines tokens [] := by
  unfold parserGetLine at h
  split at h
  · rename_i hnil
    exact sourceLines_of_all fun token hmem => List.dropWhile_eq_nil_iff.mp hnil token hmem
  · cases h

/-- The line break behind a label definition. -/
theorem skipLabelNewline_gap (first : Token) (rest : List Token) :
    ∃ gap, Gap first gap ∧ rest = gap ++ skipLabelNewline first rest := by
  cases rest with
  | nil => exact ⟨[], .none, rfl⟩
  | cons token rest =>
      rw [skipLabelNewline]
      split
      · rename_i h
        exact ⟨[token], .newline h.1 h.2, rfl⟩
      · exact ⟨[], .none, rfl⟩

/-- **One line.** -/
theorem sourceLines_of_parserGetLine {line rest : List Token} {sourceLines : List (List Token)}
    (h : parserGetLine tokens = some (line, rest))
    (hfirst : ∀ token ∈ line.head?, token.type ≠ .comma)
    (hrest : SourceLines rest sourceLines) : SourceLines tokens (line :: sourceLines) := by
  unfold parserGetLine at h
  split at h
  · cases h
  · rename_i first following hdrop
    obtain ⟨hline, hlast⟩ := Prod.mk.inj (Option.some.inj h)
    have hsplit := List.takeWhile_append_dropWhile (l := tokens) (p := endsLine)
    rw [hdrop] at hsplit
    have hbegins : endsLine first = false := by
      have hhead := List.head?_dropWhile_not endsLine tokens
      rw [hdrop] at hhead
      simpa using hhead
    obtain ⟨gap, hgap, hfollowing⟩ := skipLabelNewline_gap first following
    generalize skipLabelNewline first following = body at hline hlast hfollowing
    have hbody := List.takeWhile_append_dropWhile (l := body) (p := (!endsLine ·))
    have htail : SourceLines (body.dropWhile (!endsLine ·)) sourceLines := by
      have hhead := List.head?_dropWhile_not (!endsLine ·) body
      cases hends : body.dropWhile (!endsLine ·) with
      | nil =>
          rw [hends] at hlast
          rwa [← hlast] at hrest
      | cons token more =>
          rw [hends] at hlast hhead
          rw [← hlast] at hrest
          exact .blank (by simpa using hhead) hrest
    have hends : ∀ token ∈ (body.dropWhile (!endsLine ·)).head?, endsLine token = true := by
      intro token hmem
      have hhead := List.head?_dropWhile_not (!endsLine ·) body
      rw [Option.mem_def.mp hmem] at hhead
      simpa using hhead
    have hcomma : first.type ≠ .comma := hfirst first (by rw [← hline]; rfl)
    rw [← hsplit, hfollowing, ← hbody, ← hline]
    refine SourceLines.blanks (fun token hmem => List.mem_takeWhile_imp hmem) ?_
    have hinside : ∀ token ∈ body.takeWhile (!endsLine ·), endsLine token = false :=
      fun token hmem => by simpa using List.mem_takeWhile_imp hmem
    have hlines := SourceLines.line hbegins hgap hinside hends htail
    rwa [List.filter_cons_of_pos (by simpa using hcomma)] at hlines

end Lines

/-! ## What a line means -/

section Reading

variable {tokens : List Token}

theorem readIf_type (p : Token → Bool) (tokens : List Token) :
    ∀ token ∈ (readIf p tokens).1, p token = true := by
  intro token htoken
  cases tokens with
  | nil => cases htoken
  | cons first rest =>
      rw [readIf] at htoken
      split at htoken
      · rename_i hp
        exact Option.some.inj htoken ▸ hp
      · cases htoken

theorem isImmediate_iff {token : Token} : isImmediate token = true ↔
    token.type = .labelUse ∨ token.type = .charLiteral ∨ isIntegerToken token = true := by
  simp [isImmediate, isIntegerToken, or_assoc]

/-- **A statement** holds its tokens in order. -/
theorem parserReadStatement_shape {opcode : Token} (hopcode : opcode.type = .id)
    {statement : Statement} (h : parserReadStatement opcode tokens = .ok statement) :
    statement.tokens = opcode :: tokens ∧ statement.WellShaped := by
  unfold parserReadStatement at h
  have hcond := readIf_append (·.type == .id) tokens
  have hcondType := readIf_type (·.type == .id) tokens
  generalize readIf (·.type == .id) tokens = read at hcond hcondType h
  obtain ⟨cond, rest⟩ := read
  dsimp only at hcond hcondType h
  have hreg1 := readIf_append (·.type == .register) rest
  have hreg1Type := readIf_type (·.type == .register) rest
  generalize readIf (·.type == .register) rest = read at hreg1 hreg1Type h
  obtain ⟨reg1, rest'⟩ := read
  dsimp only at hreg1 hreg1Type h
  have hreg2 : ∃ reg2 rest'', (if reg1.isSome then readIf (·.type == .register) rest'
      else (none, rest')) = (reg2, rest'') ∧ reg2.toList ++ rest'' = rest' ∧
      ∀ token ∈ reg2, token.type = .register ∧ reg1.isSome = true := by
    split
    · rename_i hsome
      exact ⟨_, _, rfl, readIf_append _ _, fun token hmem =>
        ⟨by simpa using readIf_type _ _ token hmem, hsome⟩⟩
    · exact ⟨_, _, rfl, rfl, fun _ h => nomatch h⟩
  obtain ⟨reg2, rest'', hread, hreg2, hreg2Type⟩ := hreg2
  rw [hread] at h
  dsimp only at h
  have himm := readIf_append isImmediate rest''
  have himmType := readIf_type isImmediate rest''
  generalize readIf isImmediate rest'' = read at himm himmType h
  obtain ⟨imm, trailing⟩ := read
  dsimp only at himm himmType h
  cases trailing with
  | cons token _ => cases h
  | nil =>
      obtain rfl := Except.ok.inj h
      rw [List.append_nil] at himm
      refine ⟨?_, hopcode, ?_, ?_, hreg2Type, ?_⟩
      · rw [Statement.tokens, himm, hreg2, hreg1, hcond]
      · exact fun token hmem => by simpa using hcondType token hmem
      · exact fun token hmem => by simpa using hreg1Type token hmem
      · exact fun token hmem => isImmediate_iff.mp (himmType token hmem)

/-- **What follows the label** of a line. -/
theorem parserReadBody_shape {body : LineBody} (h : parserReadBody tokens = .ok body) :
    body.tokens = tokens ∧ body.WellShaped ∧
      ∀ token ∈ tokens.head?, token.type = .id ∨ token.type = .directive := by
  unfold parserReadBody at h
  split at h
  · cases h
  · rename_i current rest
    split at h
    · rename_i htype
      obtain ⟨statement, hread, rfl⟩ := map_eq_ok.mp h
      obtain ⟨htokens, hshape⟩ := parserReadStatement_shape htype hread
      exact ⟨htokens, hshape, fun token hmem => .inl (Option.some.inj hmem ▸ htype)⟩
    · rename_i htype
      obtain ⟨directive, hread, rfl⟩ := map_eq_ok.mp h
      unfold parserReadDirective at hread
      split at hread
      · rename_i type hname
        obtain rfl := Except.ok.inj hread
        exact ⟨rfl, ⟨htype, hname⟩, fun token hmem => .inr (Option.some.inj hmem ▸ htype)⟩
      · cases hread
    · cases h

theorem forall₂_tokens (tokens : List Token) :
    List.Forall₂ Item.Of (tokens.map .token) tokens := by
  induction tokens with
  | nil => exact .nil
  | cons token rest ih => exact .cons (.token token) ih

/-- **A line** holds its tokens in order. -/
theorem parserReadLine_shape {line : Line} (h : parserReadLine tokens = .ok line) :
    List.Forall₂ Item.Of line.items tokens ∧ line.body.WellShaped ∧
      ∀ token ∈ tokens.head?, token.type ≠ .comma := by
  unfold parserReadLine at h
  have hlabel := readIf_append (·.type == .labelInit) tokens
  have htype := readIf_type (·.type == .labelInit) tokens
  generalize readIf (·.type == .labelInit) tokens = read at hlabel htype h
  obtain ⟨label, rest⟩ := read
  dsimp only at hlabel htype
  cases label with
  | none =>
      obtain ⟨body, hbody, rfl⟩ := map_eq_ok.mp h
      obtain ⟨htokens, hshape, hhead⟩ := parserReadBody_shape hbody
      obtain rfl : rest = tokens := hlabel
      refine ⟨?_, hshape, fun token hmem => ?_⟩
      · rw [Line.items, htokens]
        exact forall₂_tokens rest
      · rcases hhead token hmem with hid | hdirective
        · rw [hid]
          decide
        · rw [hdirective]
          decide
  | some label =>
      simp only [bind_eq_ok] at h
      obtain ⟨-, -, body, hbody, h⟩ := h
      obtain rfl := Except.ok.inj h
      obtain ⟨htokens, hshape, -⟩ := parserReadBody_shape hbody
      have hinit : label.type = .labelInit := by simpa using htype label rfl
      rw [← hlabel]
      refine ⟨?_, hshape, fun token hmem => ?_⟩
      · rw [Line.items, htokens]
        exact .cons (.label hinit) (forall₂_tokens rest)
      · rw [← Option.some.inj hmem, hinit]
        decide

end Reading

/-! ## All lines -/

/-- **The lines of a token list**, read one after the other. -/
theorem exists_sourceLines : ∀ (fuel : ℕ) {tokens : List Token} {lines : List Line},
    tokens.length ≤ fuel → parserLines fuel tokens = .ok lines →
    (∀ line ∈ lines, line.body.WellShaped) ∧ ∃ sourceLines, SourceLines tokens sourceLines ∧
      List.Forall₂ (fun line sourceLine => List.Forall₂ Item.Of line.items sourceLine)
        lines sourceLines
  | 0, tokens, lines, hfuel, h => by
      obtain rfl := Except.ok.inj h
      obtain rfl := List.length_eq_zero_iff.mp (Nat.le_zero.mp hfuel)
      exact ⟨(fun _ hmem => nomatch hmem), [], .done, .nil⟩
  | fuel + 1, tokens, lines, hfuel, h => by
      rw [parserLines] at h
      cases hget : parserGetLine tokens with
      | none =>
          rw [hget] at h
          obtain rfl := Except.ok.inj h
          exact ⟨(fun _ hmem => nomatch hmem), [], sourceLines_of_parserGetLine_none hget, .nil⟩
      | some next =>
          obtain ⟨sourceLine, rest⟩ := next
          have hlt := parserGetLine_lt hget
          rw [hget] at h
          simp only [bind_eq_ok] at h
          obtain ⟨line, hline, more, hmore, h⟩ := h
          obtain rfl := Except.ok.inj h
          obtain ⟨hitems, hshape, hhead⟩ := parserReadLine_shape hline
          obtain ⟨hshapes, sourceLines, hsource, hall⟩ := exists_sourceLines fuel (by omega) hmore
          exact ⟨List.forall_mem_cons.mpr ⟨hshape, hshapes⟩, sourceLine :: sourceLines,
            sourceLines_of_parserGetLine hget hhead hsource, .cons hitems hall⟩

theorem forall₂_flatMap_items {lines : List Line} {sourceLines : List (List Token)}
    (h : List.Forall₂ (fun line sourceLine => List.Forall₂ Item.Of line.items sourceLine)
      lines sourceLines) : List.Forall₂ Item.Of (lines.flatMap Line.items) sourceLines.flatten := by
  induction h with
  | nil => exact .nil
  | cons hline _ ih => exact List.rel_append hline ih

/-- **The parser conserves its tokens.** -/
theorem parserParse_conserves {tokens : List Token} {lines : List Line}
    (h : parserParse tokens = .ok lines) : Conserves tokens lines := by
  obtain ⟨hshapes, sourceLines, hsource, hall⟩ := exists_sourceLines _ (Nat.le_refl _) h
  refine ⟨?_, hshapes, sourceLines, hsource, hall⟩
  rw [hsource.flatten]
  exact forall₂_flatMap_items hall

/-- A label on a line of its own, a comment behind a statement and a directive with commas. -/
def conservedSource : CString :=
  CString.lit "loop:\nmovi zs $t0, 'a' ; letter\n\n.word 1, 2\n"

theorem parserParse_conserves_conservedSource : ∃ tokens lines,
    lexSource conservedSource = .ok tokens ∧ parserParse tokens = .ok lines ∧ lines.length = 2 ∧
      (tokens.filter isSignificant).length = 8 ∧ Conserves tokens lines := by
  have hrun : (do
      let tokens ← lexSource conservedSource
      let lines ← parserParse tokens
      return (lines.length, (tokens.filter isSignificant).length)) = .ok (2, 8) := by
    decide +kernel
  simp only [bind_eq_ok] at hrun
  obtain ⟨tokens, htokens, lines, hlines, hrun⟩ := hrun
  obtain ⟨hlength, hcount⟩ := Prod.mk.inj (Except.ok.inj hrun)
  exact ⟨tokens, lines, htokens, hlines, hlength, hcount, parserParse_conserves hlines⟩

end Zlvm
