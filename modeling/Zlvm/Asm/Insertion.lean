import Zlvm.Asm.Concat
import Zlvm.Asm.Spread

/-!
# Inserted comments and line breaks

What the lexer makes of a source into which a comment at the end of a line or an empty line has been
inserted: the tokens of the source with one token more, which a mark tells from the others.

* `isInserted`, `marking_isInserted` — the mark: a comment or a line break that the lexer never reads.
* `CommentInsertion`, `LineInsertion` — the two insertions, with the marked tokens of each.
* `Inserts` — the marked tokens against those of the two sources.
* **`CommentInsertion.inserts`**, **`LineInsertion.inserts`** — what the lexer reads.
-/

namespace Zlvm

open Loop

/-! ## The mark -/

/-- A comment whose text is a line break. -/
def insertedComment : Token where
  type := .comment
  value := CString.lit "\n"
  pos := 0
  line := 0
  col := 0
  sourceSize := 0

/-- A line break without a text. -/
def insertedBreak : Token where
  type := .newline
  value := CString.empty
  pos := 0
  line := 0
  col := 0
  sourceSize := 0

/-- A copy of the inserted token. -/
def isInserted (inserted token : Token) : Bool :=
  token.type == inserted.type && token.value == inserted.value

/-- The inserted token is one that the lexer never reads. -/
structure Unread (inserted : Token) : Prop where
  blank : endsLine inserted = true
  comment : inserted.type = .comment → newline ∈ inserted.value.bytes
  newline : inserted.type = .newline → inserted.value.bytes = []

theorem unread_insertedComment : Unread insertedComment where
  blank := rfl
  comment _ := by decide
  newline h := by cases h

theorem unread_insertedBreak : Unread insertedBreak where
  blank := rfl
  comment h := by cases h
  newline _ := rfl

theorem isInserted_iff {inserted token : Token} : isInserted inserted token = true ↔
    token.type = inserted.type ∧ token.value = inserted.value := by
  simp [isInserted]

theorem marking_isInserted {inserted : Token} (h : Unread inserted) :
    Marking (isInserted inserted) where
  blank t ht := by
    rw [endsLine, (isInserted_iff.mp ht).1]
    exact h.blank
  clone t location := by cases location <;> rfl
  read {state token state'} hread := by
    refine eq_false_of_ne_true fun hmarked => ?_
    obtain ⟨htype, hvalue⟩ := isInserted_iff.mp hmarked
    obtain ⟨hcomment, hnewline⟩ := lexerReadToken_blank hread
    have hblank := h.blank
    simp only [endsLine, Bool.or_eq_true, beq_iff_eq] at hblank
    rcases hblank with hblank | hblank
    · exact hnewline (htype.trans hblank) (hvalue ▸ h.newline hblank)
    · exact hcomment (htype.trans hblank) (hvalue ▸ h.comment hblank)

/-- The lexer reads no marked token. -/
theorem plain_of_lexRest {mark : Token → Bool} (hmark : Marking mark) : ∀ (n : ℕ)
    {state : LexerState} {tokens : List Token}, state.rest.bytes.length < n →
      lexRest state = .ok tokens → ∀ token ∈ tokens, mark token = false
  | 0, _, _, hlength, _ => absurd hlength (Nat.not_lt_zero _)
  | n + 1, state, tokens, hlength, h => by
      rw [lexRest_eq, bind_eq_ok] at h
      obtain ⟨read, hread, h⟩ := h
      cases read with
      | none =>
          obtain rfl := Except.ok.inj h
          intro token hmem
          cases hmem
      | some read =>
          obtain ⟨token, next⟩ := read
          obtain ⟨rest, hnext, h⟩ := bind_eq_ok.mp h
          obtain rfl := Except.ok.inj h
          have hlt := lexerReadToken_lt hread
          refine List.forall_mem_cons.mpr ⟨hmark.read hread, ?_⟩
          exact plain_of_lexRest hmark n (Nat.lt_of_lt_of_le hlt (Nat.le_of_lt_succ hlength)) hnext

theorem plain_of_lexSource {mark : Token → Bool} (hmark : Marking mark) {source : CString}
    {tokens : List Token} (h : lexSource source = .ok tokens) : ∀ token ∈ tokens, mark token = false :=
  plain_of_lexRest hmark _ (Nat.lt_succ_self _) h

/-! ## Marked tokens -/

theorem Token.Same.of_endsLine {t t' : Token} (htype : t.type = t'.type) (h : endsLine t = true) :
    t.Same t' :=
  ⟨htype, fun hends => by rw [h] at hends; cases hends⟩

theorem TokensSame.symm {tokens tokens' : List Token} (h : TokensSame tokens tokens') :
    TokensSame tokens' tokens :=
  h.flip.imp fun _ _ hsame => ⟨hsame.type.symm, fun hends =>
    (hsame.value (hsame.endsLine_eq.trans hends)).symm⟩

section Marked

variable {mark allows : Token → Bool} {final : Prop}

/-- The marked tokens behind tokens that are not marked. -/
theorem Marked.prepend {p p' l l' : List Token} (hp : TokensSame p p')
    (hplain : ∀ token ∈ p', mark token = false) (h : ∀ start, Marked mark allows final start l l') :
    ∀ start, Marked mark allows final start (p ++ l) (p' ++ l') := by
  induction hp with
  | nil => exact h
  | cons head _ ih =>
      obtain ⟨hhead, htail⟩ := List.forall_mem_cons.mp hplain
      exact fun start => .cons hhead head (ih htail _)

/-- No token is marked. -/
theorem Marked.of_same {l l' : List Token} (h : TokensSame l l')
    (hplain : ∀ token ∈ l', mark token = false) (start : Bool) :
    Marked mark allows final start l l' := by
  have hnil : Marked mark allows final start (l ++ []) (l' ++ []) :=
    .prepend h hplain (fun _ => .nil) start
  rwa [List.append_nil, List.append_nil] at hnil

end Marked

/-- A comment ends a line that has ended anyway. -/
theorem Marked.cutCount {mark allows : Token → Bool} {final : Prop} {start : Bool}
    {l l' : List Token} (h : Marked mark allows final start l l')
    (hcomment : ∀ t, mark t = true → t.type = .comment) :
    ∀ state, Zlvm.cutCount mark state l' = 0 := by
  have hplain : ∀ {t : Token} {rest : List Token} (state : SplitState), mark t = false →
      Zlvm.cutCount mark (state.next t) rest = 0 → Zlvm.cutCount mark state (t :: rest) = 0 := by
    intro t rest state hmark hrest
    rw [Zlvm.cutCount, cutsHere, hmark, hrest]
    rfl
  induction h with
  | nil => exact fun _ => rfl
  | cons plain _ _ ih => exact fun state => hplain state plain (ih _)
  | lineBreak marked type _ _ =>
      rw [hcomment _ marked] at type
      cases type
  | comment marked type plain newline same rest ih =>
      rename_i c n n' l l'
      intro state
      have hnext : endsNext mark (n' :: l') = true := by
        rw [endsNext, List.find?_cons_of_pos (by simp [plain])]
        simp [endsLine, newline]
      rw [Zlvm.cutCount, cutsHere, hnext, hplain _ plain (ih _)]
      simp
  | last _ _ _ =>
      intro state
      rw [Zlvm.cutCount, cutsHere]
      simp [endsNext, Zlvm.cutCount]

/-- Some marked tokens against the tokens of a source and those of the source after an insertion. -/
structure Inserts (mark : Token → Bool) (source source' : CString) (marked : List Token) : Prop where
  lines : ∃ tokens, lexSource source = .ok tokens ∧ MarkedLines mark True true tokens marked
  same : ∃ tokens', lexSource source' = .ok tokens' ∧ TokensSame marked tokens'

/-! ## A comment -/

/-- At the end of a line, but not within a literal, some blanks, a comment mark and a text have been
inserted. -/
structure CommentInsertion (source source' : CString) where
  before : CString
  after : CString
  blank : Bytes
  text : Bytes
  source_eq : source.bytes = before.bytes ++ after.bytes
  inserted_eq : source'.bytes = before.bytes ++ (blank ++ commentMark :: (text ++ after.bytes))
  outside : OutsideLiteral before
  lineEnd : ClosesLine after.bytes
  blank_ne_nil : blank ≠ []
  isSpace_of_mem : ∀ character ∈ blank, isSpace character = true ∧ character ≠ newline
  newline_notMem : newline ∉ text

/-- A comment that is inserted into one becomes part of it. -/
def markComment (tokens rest : List Token) : List Token :=
  if endsInComment tokens then tokens ++ rest else tokens ++ insertedComment :: rest

section Comment

variable {source source' : CString} (i : CommentInsertion source source')

/-- The tokens of the source with the inserted comment marked. -/
def CommentInsertion.marked : Except AsmFailure (List Token) := do
  let tokens ← lexSource i.before
  let rest ← lexSource i.after
  return markComment tokens rest

theorem CommentInsertion.closesWord_inserted :
    ClosesWord (i.blank ++ commentMark :: (i.text ++ i.after.bytes)) := by
  intro character hmem
  have hmem : character ∈ i.blank.head? := by
    rwa [List.head?_append_of_ne_nil _ i.blank_ne_nil] at hmem
  obtain ⟨hspace, hnewline⟩ := i.isSpace_of_mem character (List.mem_of_mem_head? hmem)
  simp [isWordEnd, isIgnoredChar, hspace, hnewline]

/-- What is inserted goes up to the end of the line. -/
theorem CommentInsertion.dropWhile_inserted :
    (i.blank ++ commentMark :: (i.text ++ i.after.bytes)).dropWhile (· != newline)
      = i.after.bytes := by
  have hline : ∀ character ∈ i.blank ++ commentMark :: i.text, (character != newline) = true := by
    intro character hmem
    rw [bne_iff_ne]
    rcases List.mem_append.mp hmem with hmem | hmem
    · exact (i.isSpace_of_mem character hmem).2
    · rcases List.mem_cons.mp hmem with rfl | hmem
      · decide
      · exact fun heq => i.newline_notMem (heq ▸ hmem)
  rw [← List.cons_append, ← List.append_assoc, List.dropWhile_append_of_pos hline]
  exact (takeWhile_eq_nil_of_head fun character hmem => by simp [i.lineEnd character hmem]).2

theorem CommentInsertion.lexRest_inserted {state : LexerState}
    (h : state.rest.bytes = i.blank ++ commentMark :: (i.text ++ i.after.bytes)) :
    ∃ token next, lexRest state = (lexRest next).map (token :: ·) ∧ token.type = .comment ∧
      next.rest.bytes = i.after.bytes := by
  have hblank : i.blank.dropWhile isIgnoredChar = [] := List.dropWhile_eq_nil_iff.mpr
    fun character hmem => by
      obtain ⟨hspace, hnewline⟩ := i.isSpace_of_mem character hmem
      simp [isIgnoredChar, hspace, hnewline]
  rw [lexRest_skip h hblank]
  refine lexRest_comment ?_ i.newline_notMem i.lineEnd
  rw [lexerAdvance_rest, h, List.drop_left]

/-- **What the lexer reads** after the insertion of a comment. -/
theorem CommentInsertion.inserts {tokens : List Token} (h : lexSource source = .ok tokens) :
    ∃ marked, i.marked = .ok marked ∧ Inserts (isInserted insertedComment) source source' marked := by
  obtain ⟨first, hfirst⟩ := i.outside.lexSource i.source_eq i.lineEnd.closesWord h
  obtain ⟨first', last, htokens, hsame, hlast⟩ :=
    lexSource_append i.source_eq i.lineEnd.closesWord hfirst
  obtain ⟨first'', last', htokens', hsame', hlast'⟩ :=
    lexSource_append i.inserted_eq i.closesWord_inserted hfirst
  rw [restBehind_of_closesLine i.lineEnd] at hlast
  rw [h] at htokens
  obtain ⟨rest, hrest, rfl⟩ := map_eq_ok.mp htokens.symm
  obtain ⟨after, hafter, hsameAfter⟩ := lexRest_same (lexerInit i.after) hlast.symm hrest
  have hmark := marking_isInserted unread_insertedComment
  have hplain := plain_of_lexSource hmark hfirst
  have hplainAfter := plain_of_lexSource hmark hafter
  have hmarked : i.marked = .ok (markComment first after) := by
    rw [CommentInsertion.marked, hfirst, ok_bind]
    show lexRest (lexerInit i.after) >>= _ = _
    rw [hafter]
    rfl
  refine ⟨_, hmarked, ?_⟩
  rw [markComment]
  cases hcomment : endsInComment first with
  | true =>
      -- what is inserted becomes part of the last comment
      rw [restBehind, if_pos hcomment, i.dropWhile_inserted] at hlast'
      obtain ⟨rest', hrest', hsameRest⟩ := lexRest_same last' hlast' hafter
      rw [hrest'] at htokens'
      refine ⟨⟨_, h, ?_⟩, _, htokens', List.rel_append hsame' hsameRest⟩
      exact .prepend hsame.symm hplain (.of_same hsameAfter hplainAfter) true
  | false =>
      rw [restBehind, if_neg (by simp [hcomment])] at hlast'
      obtain ⟨c, next, hc, htype, hnext⟩ := i.lexRest_inserted hlast'
      obtain ⟨rest', hrest', hsameRest⟩ := lexRest_same next hnext hafter
      rw [hc, hrest'] at htokens'
      refine ⟨⟨_, h, ?_⟩, _, htokens', List.rel_append hsame'
        (.cons (.of_endsLine htype.symm rfl) hsameRest)⟩
      have hnewline := type_of_closesLine (lexerInit i.after) i.lineEnd hafter
      refine .prepend hsame.symm hplain (fun start => ?_) true
      cases hsameAfter with
      | nil => exact .last (by decide) rfl trivial
      | cons head tail =>
          obtain ⟨hhead, htail⟩ := List.forall_mem_cons.mp hplainAfter
          exact .comment (by decide) rfl hhead (hnewline _ rfl) head (.of_same tail htail true)

end Comment

/-! ## An empty line -/

/-- Between two lines, but not within a literal, an empty line has been inserted. -/
structure LineInsertion (source source' : CString) where
  before : CString
  after : CString
  source_eq : source.bytes = before.bytes ++ newline :: after.bytes
  inserted_eq : source'.bytes = before.bytes ++ newline :: newline :: after.bytes
  outside : OutsideLiteral before

/-- A line break as the lexer reads it. -/
def lineBreak : Token := { insertedBreak with value := CString.lit "\n" }

section LineBreak

variable {source source' : CString} (i : LineInsertion source source')

/-- The tokens of the source with the inserted line break marked. -/
def LineInsertion.marked : Except AsmFailure (List Token) := do
  let tokens ← lexSource i.before
  let rest ← lexSource i.after
  return tokens ++ lineBreak :: insertedBreak :: rest

/-- **What the lexer reads** after the insertion of an empty line. -/
theorem LineInsertion.inserts {tokens : List Token} (h : lexSource source = .ok tokens) :
    ∃ marked, i.marked = .ok marked ∧ Inserts (isInserted insertedBreak) source source' marked := by
  have hclosed : ∀ rest, ClosesLine (newline :: rest) := closesLine_newline
  obtain ⟨first, hfirst⟩ := i.outside.lexSource i.source_eq (hclosed _).closesWord h
  obtain ⟨first', last, htokens, hsame, hlast⟩ :=
    lexSource_append i.source_eq (hclosed _).closesWord hfirst
  obtain ⟨first'', last', htokens', hsame', hlast'⟩ :=
    lexSource_append i.inserted_eq (hclosed _).closesWord hfirst
  rw [restBehind_of_closesLine (hclosed _)] at hlast hlast'
  -- the source goes on with a line break, and the other one with two
  obtain ⟨b, next, hbreak, htype, hnext⟩ := lexRest_newline hlast
  obtain ⟨b', next', hbreak', htype', hnext'⟩ := lexRest_newline hlast'
  obtain ⟨b'', next'', hbreak'', htype'', hnext''⟩ := lexRest_newline hnext'
  rw [h, hbreak] at htokens
  obtain ⟨tail, htail, rfl⟩ := map_eq_ok.mp htokens.symm
  obtain ⟨rest, hrest, rfl⟩ := map_eq_ok.mp htail
  obtain ⟨after, hafter, hsameAfter⟩ := lexRest_same (lexerInit i.after) hnext.symm hrest
  obtain ⟨rest', hrest', hsameRest⟩ := lexRest_same _ hnext'' hafter
  rw [hbreak', hbreak'', hrest'] at htokens'
  have hmark := marking_isInserted unread_insertedBreak
  have hmarked : MarkedLines (isInserted insertedBreak) True true (first' ++ b :: rest)
      (first ++ lineBreak :: insertedBreak :: after) :=
    .prepend hsame.symm (plain_of_lexSource hmark hfirst) (fun _ => .cons (by decide)
      (.of_endsLine htype (by simp [endsLine, htype])) (.lineBreak (by decide) rfl
        (.of_same hsameAfter (plain_of_lexSource hmark hafter) true))) true
  refine ⟨first ++ lineBreak :: insertedBreak :: after, ?_, ⟨_, h, hmarked⟩, _, htokens', ?_⟩
  · rw [LineInsertion.marked, hfirst, ok_bind]
    show lexRest (lexerInit i.after) >>= _ = _
    rw [hafter]
    rfl
  · exact List.rel_append hsame' (.cons (.of_endsLine htype'.symm rfl)
      (.cons (.of_endsLine htype''.symm rfl) hsameRest))

end LineBreak

end Zlvm
