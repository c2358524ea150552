import Zlvm.Asm.Segments
import Zlvm.Asm.Spans

/-!
# Comments end their lines

The lexer puts no token behind a comment on the same line.  So a `.macro` or an `.endmacro` on the
line of a definition or of an invocation is one of its arguments.

* `isDefinitionDirective`, `CommentsLast` — no such directive stands behind a comment.
* `scans_plain`, `scans_line` — the scan of `capture_macros` where there is none.
* `captureMacro_header` — there is none on the line of a `.macro`.
* **`lexSource_commentsLast`** — every token list that the lexer makes is like that.
-/

namespace Zlvm

open Loop

/-! ## Lines without definitions -/

/-- `.macro` or `.endmacro`. -/
def isDefinitionDirective (token : Token) : Bool :=
  isDirective token "macro" || isDirective token "endmacro"

/-- No `.macro` or `.endmacro` stands behind a comment on the same line. -/
def CommentsLast (l : List Token) : Prop :=
  ∀ comment rest, comment :: rest <:+ l → comment.type = .comment →
    ∀ t ∈ lineTokens rest, isDefinitionDirective t = false

section Plain

variable {token : Token} {l l' : List Token}

theorem isDefinitionDirective_eq_false : isDefinitionDirective token = false ↔
    isDirective token "macro" = false ∧ isDirective token "endmacro" = false := by
  rw [isDefinitionDirective, Bool.or_eq_false_iff]

theorem isDefinitionDirective_of_type (h : token.type ≠ .directive) :
    isDefinitionDirective token = false := by
  rw [isDefinitionDirective, isDirective, isDirective, beq_false_of_ne h]
  rfl

theorem CommentsLast.suffix (h : CommentsLast l) (hl : l' <:+ l) : CommentsLast l' :=
  fun comment rest hcomment => h comment rest (hcomment.trans hl)

/-- What stands before the comment of a line decides. -/
theorem CommentsLast.line : ∀ {l : List Token}, CommentsLast l →
    (∀ t ∈ (lineTokens l).takeWhile (·.type != .comment), isDefinitionDirective t = false) →
      ∀ t ∈ lineTokens l, isDefinitionDirective t = false
  | [], _, _ => nofun
  | token :: rest, h, hbefore => by
      by_cases hnewline : token.type = .newline
      · rw [lineTokens, List.takeWhile_cons_of_neg (by simp [hnewline])]
        exact List.forall_mem_nil _
      rw [lineTokens_cons_of_ne hnewline] at hbefore ⊢
      by_cases hcomment : token.type = .comment
      · rw [List.forall_mem_cons]
        exact ⟨isDefinitionDirective_of_type (by simp [hcomment]),
          h token rest List.suffix_rfl hcomment⟩
      · rw [List.takeWhile_cons_of_pos (by simpa using hcomment), List.forall_mem_cons] at hbefore
        rw [List.forall_mem_cons]
        exact ⟨hbefore.1, (h.suffix (List.suffix_cons _ _)).line hbefore.2⟩

/-- The scan of `capture_macros` passes tokens that are no definition directives. -/
theorem scans_plain (h : ∀ t ∈ l, isDefinitionDirective t = false) (l' : List Token) :
    Scans (l ++ l') [] l' := by
  induction l with
  | nil => exact .refl _
  | cons token rest ih =>
      obtain ⟨htoken, hrest⟩ := List.forall_mem_cons.mp h
      obtain ⟨hdefinition, hending⟩ := isDefinitionDirective_eq_false.mp htoken
      exact .other hdefinition hending (ih hrest)

/-- A line without definition directives. -/
theorem scans_line : ∀ {l : List Token}, (∀ t ∈ lineTokens l, isDefinitionDirective t = false) →
    Scans l [] (nextLine l)
  | [], _ => .refl _
  | token :: rest, h => by
      by_cases hnewline : token.type = .newline
      · obtain ⟨hdefinition, hending⟩ := isDefinitionDirective_eq_false.mp
          (@isDefinitionDirective_of_type token (by simp [hnewline]))
        rw [nextLine_cons_of_newline hnewline]
        exact .other hdefinition hending (.refl _)
      · rw [lineTokens_cons_of_ne hnewline, List.forall_mem_cons] at h
        obtain ⟨hdefinition, hending⟩ := isDefinitionDirective_eq_false.mp h.1
        rw [nextLine_cons_of_ne hnewline]
        exact .other hdefinition hending (scans_line h.2)

/-- A definition has identifiers for parameters. -/
theorem readParameters_id {arguments parameters : List Token}
    (h : readParameters arguments = .ok parameters) :
    ∀ t ∈ arguments.takeWhile (·.type != .comment), t.type = .id ∨ t.type = .comma := by
  have hids := foldlM_induction (fun done _ => ∀ t ∈ done, t.type = .id) h (by simp) ?_
  · intro t ht
    by_cases hcomma : t.type = .comma
    · exact .inr hcomma
    · exact .inl (hids t (List.mem_filter.mpr ⟨ht, by simpa using hcomma⟩))
  · intro done parameter rest b b' _ hdone hadd t ht
    simp only [addParameter, bind_eq_ok, require_eq_ok] at hadd
    rcases List.mem_append.mp ht with ht | ht
    · exact hdone t ht
    · obtain rfl := List.mem_singleton.mp ht
      exact hadd.choose_spec.1

/-- The line of a `.macro`. -/
theorem captureMacro_header {macros : List Macro} {definition : Token} {m : Macro}
    {after : List Token} (hcomments : CommentsLast l)
    (h : captureMacro macros definition l = .ok (m, after)) :
    ∀ t ∈ lineTokens l, isDefinitionDirective t = false := by
  obtain ⟨arguments, hline, hid, -, hparameters, -⟩ := captureMacro_eq_ok.mp h
  refine hcomments.line fun t ht => isDefinitionDirective_of_type ?_
  rw [hline, List.takeWhile_cons_of_pos (by simp [hid]), List.mem_cons] at ht
  rcases ht with rfl | ht
  · simp [hid]
  · rcases readParameters_id hparameters t ht with htype | htype <;> simp [htype]

end Plain

/-! ## The tokens of a source -/

section Sources

variable {state next : LexerState} {token : Token} {tokens : List Token}

/-- Behind a comment the text goes on with a line break. -/
theorem closesLine_of_comment (h : lexerReadToken state = .ok (some (token, next)))
    (hcomment : token.type = .comment) : ClosesLine next.rest.bytes := by
  have hfollowed := @lexerReadToken_followed state state []
    (List.append_nil _).symm closesLine_nil.closesWord
  rw [h] at hfollowed
  obtain ⟨_, -, hfollows⟩ := hfollowed.of_token
  have hclosed : next.rest.bytes.dropWhile (· != newline) = next.rest.bytes :=
    hfollows.closed hcomment
  have hhead := List.head?_dropWhile_not (· != newline) next.rest.bytes
  rw [hclosed] at hhead
  intro character hcharacter
  rw [Option.mem_def.mp hcharacter] at hhead
  simpa using hhead

/-- **The lexer puts no token behind a comment** on its line. -/
theorem ReadsAll.commentsLast {result : Except AsmFailure (List Token)} (h : ReadsAll state result)
    (hresult : result = .ok tokens) : CommentsLast tokens := by
  induction h generalizing tokens with
  | done _ =>
      obtain rfl := Except.ok.inj hresult
      intro comment rest hsuffix
      exact absurd (List.suffix_nil.mp hsuffix) (List.cons_ne_nil _ _)
  | fails _ => cases hresult
  | token read hrest ih =>
      obtain ⟨tail, htail, rfl⟩ := map_eq_ok.mp hresult
      intro comment rest hsuffix hcomment
      rcases List.suffix_cons_iff.mp hsuffix with heq | hsuffix
      · obtain ⟨rfl, rfl⟩ := List.cons.inj heq
        have hlex := hrest.eq.symm.trans htail
        have hnewline := type_of_closesLine _ (closesLine_of_comment read hcomment) hlex
        cases rest with
        | nil => exact List.forall_mem_nil _
        | cons first rest =>
            rw [lineTokens, List.takeWhile_cons_of_neg (by simp [hnewline first rfl])]
            exact List.forall_mem_nil _
      · exact ih htail comment rest hsuffix hcomment

/-- **The tokens of a source.** -/
theorem lexSource_commentsLast {source : CString} (h : lexSource source = .ok tokens) :
    CommentsLast tokens := by
  rw [lexSource_eq] at h
  exact (readsAll_lexRest _).commentsLast h

end Sources

end Zlvm
