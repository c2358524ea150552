import Zlvm.Asm.Cut
import Zlvm.Asm.Insertion
import Zlvm.Program.Modes

/-!
# Inserted comments and empty lines

What becomes of the image when a comment or an empty line is inserted into an accepted source.

* `assembled` — the image of some expanded tokens; `zlasmAssemble_eq_ok` — that of a source.
* `CommentInsertion.isHarmless`, `LineInsertion.isHarmless` — what is inserted changes no line,
  wherever the macros put it.
* `Inserts.assembled_iff` — the expanded tokens of the source after the insertion.
* **`zlasmAssemble_insertion`** — when the image stays the same.
-/

namespace Zlvm

open Loop

/-! ## The image of some tokens -/

/-- The stages behind the expansion. -/
def assembled (tokens : List Token) : Except AsmFailure Bytes := parserParse tokens >>= rawBytes

theorem zlasmAssemble_eq_ok {source : CString} {filename : Option CString} {image : Bytes} :
    zlasmAssemble source filename = .ok image ↔ ∃ tokens expanded, lexSource source = .ok tokens ∧
      macrosExpand tokens = .ok expanded ∧ assembled expanded = .ok image := by
  rw [zlasmAssemble_iff]
  simp only [assembled, rawBytes, assembleContext, bind_eq_ok]
  constructor
  · rintro ⟨context, labels, ⟨tokens, htokens, expanded, hexpanded, lines, hlines, context', hcontext,
      labels', hlabels', h⟩, hlabels, himage⟩
    obtain rfl := Except.ok.inj h
    exact ⟨tokens, expanded, htokens, hexpanded, lines, hlines, context', hcontext, labels, hlabels,
      himage⟩
  · rintro ⟨tokens, expanded, htokens, hexpanded, lines, hlines, context, hcontext, labels, hlabels,
      himage⟩
    exact ⟨context, labels, ⟨tokens, htokens, expanded, hexpanded, lines, hlines, context, hcontext,
      labels, hlabels, rfl⟩, hlabels, himage⟩

/-- Neither the locations nor the text of a comment matter. -/
theorem assembled_same {tokens tokens' : List Token} (h : TokensSame tokens tokens') :
    (assembled tokens).toOption = (assembled tokens').toOption :=
  ((parserParse_same (splitLines_same h .nil)).bind fun _ _ hlines =>
    .of_toOption_eq (rawBytes_alike hlines)).toOption_eq

theorem assembled_eq_ok_of_same {tokens tokens' : List Token} (h : TokensSame tokens tokens')
    {image : Bytes} : assembled tokens = .ok image ↔ assembled tokens' = .ok image := by
  have heq := assembled_same h
  cases htokens : assembled tokens <;> cases htokens' : assembled tokens' <;>
    simp_all [Except.toOption]

/-- Every directive has been checked. -/
theorem valid_of_processLines : ∀ {lines : List Line} {state final : DirectiveState},
    processLines state lines = .ok final →
      ∀ line ∈ lines, ∀ d, line.body = .dir d → validateDirective d = .ok ()
  | [], _, _, _, _, hmem, _, _ => by cases hmem
  | first :: lines, state, final, h, line, hmem, d, hbody => by
      rw [processLines, bind_eq_ok] at h
      obtain ⟨next, hnext, h⟩ := h
      rcases List.mem_cons.mp hmem with rfl | hmem
      · simp only [processLine, hbody, bind_eq_ok] at hnext
        exact hnext.choose_spec.1
      · exact valid_of_processLines h line hmem d hbody

/-- **The lines of an image** are accepted, and its size is that of all lines. -/
theorem accepted_of_assembled {tokens : List Token} {image : Bytes}
    (h : assembled tokens = .ok image) : (∀ line ∈ splitLines .between [] tokens, Accepted line) ∧
      image.length = lineSizes (splitLines .between [] tokens) := by
  obtain ⟨lines, hparse, himage⟩ := bind_eq_ok.mp h
  rw [parserParse_eq] at hparse
  have hlines := mapM_eq_ok_iff.mp hparse
  simp only [rawBytes, asmProcessDirectives, bind_eq_ok] at himage
  obtain ⟨context, ⟨state, hstate, hcontext⟩, labels, -, htranslate⟩ := himage
  obtain rfl := Except.ok.inj hcontext
  have hreached := Reached.init.processLines hstate
  rw [List.nil_append] at hreached
  refine ⟨accepted_of_parsed hlines (valid_of_processLines hstate), ?_⟩
  rw [asmTranslate_length htranslate, lineSizes_eq hlines, ← hreached.emitted.2, rawOffset,
    List.take_length]

/-! ## After the insertion -/

section Insertion

variable {mark : Token → Bool} {source source' : CString} {marked : List Token}
  {filename : Option CString} {image : Bytes}

/-- The expanded tokens of both sources. -/
theorem Inserts.assembled_iff (hmark : Marking mark) (h : Inserts mark source source' marked)
    (haccepted : zlasmAssemble source filename = .ok image) :
    ∃ expanded, macrosExpand marked = .ok expanded ∧ (∃ tokens, Spread mark True tokens expanded) ∧
      assembled (unmark mark expanded) = .ok image ∧
      ∀ image', zlasmAssemble source' filename = .ok image' ↔ assembled expanded = .ok image' := by
  obtain ⟨tokens, expanded, htokens, hexpanded, himage⟩ := zlasmAssemble_eq_ok.mp haccepted
  obtain ⟨⟨tokens', htokens', hlines⟩, tokens'', htokens'', hsame⟩ := h
  obtain rfl := Except.ok.inj (htokens.symm.trans htokens')
  obtain ⟨expanded', hexpanded', hspread⟩ := macrosExpand_marked hmark hlines hexpanded
  refine ⟨expanded', hexpanded', ⟨_, hspread⟩, (assembled_eq_ok_of_same hspread.same).mp himage,
    fun image' => ?_⟩
  have hlines' : MarkedLines (fun _ => false) True true marked tokens'' :=
    .of_same hsame (fun _ _ => rfl) true
  obtain ⟨expanded'', hexpanded'', hspread'⟩ := macrosExpand_marked marking_none hlines' hexpanded'
  have hsame' : TokensSame expanded' expanded'' := by simpa [unmark] using hspread'.same
  rw [assembled_eq_ok_of_same hsame', zlasmAssemble_eq_ok]
  constructor
  · rintro ⟨tokens', expanded', htokens', hexpanded', himage'⟩
    obtain rfl := Except.ok.inj (htokens''.symm.trans htokens')
    obtain rfl := Except.ok.inj (hexpanded''.symm.trans hexpanded')
    exact himage'
  · exact fun himage' => ⟨_, _, htokens'', hexpanded'', himage'⟩

/-- **Harmless tokens** leave the image as it is. -/
theorem assembled_of_harmless (hmark : Marking mark) {tokens : List Token}
    (h : assembled (unmark mark tokens) = .ok image)
    (hharmless : harmless mark .between tokens = true) : assembled tokens = .ok image := by
  rw [assembled, parserParse_eq, splitLines_unmark hmark.blank hharmless, ← parserParse_eq]
  exact h

theorem stands_between : SplitState.Stands .between [] := fun h => by simp at h

/-- Tokens that leave the size of the image as it is cut no line, but for an `.extern`. -/
theorem cutCount_eq_zero (hmark : Marking mark) {tokens : List Token}
    (h : assembled (unmark mark tokens) = .ok image) (hsame : assembled tokens = .ok image)
    (huncut : cutsExtern mark .between [] tokens = false) : cutCount mark .between tokens = 0 := by
  obtain ⟨hwhole, hlength⟩ := accepted_of_assembled h
  obtain ⟨hcut, hlength'⟩ := accepted_of_assembled hsame
  have hsizes := lineSizes_unmark hmark.blank stands_between hcut hwhole huncut
  rw [← hlength, ← hlength', instructionSize] at hsizes
  omega

/-- **Tokens that cut no line** are harmless if the image exists. -/
theorem harmless_of_assembled (hmark : Marking mark) {tokens : List Token}
    (h : assembled tokens = .ok image) (hcuts : cutCount mark .between tokens = 0) :
    harmless mark .between tokens = true :=
  harmless_of_lines hmark.blank stands_between hcuts fun _ hlabel hmem =>
    not_accepted_label hlabel ((accepted_of_assembled h).1 _ hmem)

end Insertion

/-! ## The condition -/

/-- What a check says of the expanded tokens of a source with a marked one. -/
def expansionSatisfies (check : List Token → Bool) (marked : Except AsmFailure (List Token)) : Bool :=
  match marked >>= macrosExpand with
  | .ok expanded => check expanded
  | .error _ => false

theorem expansionSatisfies_ok {check : List Token → Bool} {marked expanded : List Token}
    (h : macrosExpand marked = .ok expanded) :
    expansionSatisfies check (.ok marked) = check expanded := by
  rw [expansionSatisfies, ok_bind, h]

section Condition

variable {source source' : CString}

/-- The comment changes no line: wherever the macros put it, it does not stand behind a label
definition that begins a line, or between that and the rest of the line. -/
def CommentInsertion.isHarmless (i : CommentInsertion source source') : Bool :=
  expansionSatisfies (harmless (isInserted insertedComment) .between) i.marked

/-- The line break changes no line: wherever the macros put it, it stands between two lines, at the
end of one, or as the only one behind a label definition that begins a line. -/
def LineInsertion.isHarmless (i : LineInsertion source source') : Bool :=
  expansionSatisfies (harmless (isInserted insertedBreak) .between) i.marked

/-- The macros put the line break between the arguments of an `.extern`. -/
def LineInsertion.cutsExtern (i : LineInsertion source source') : Bool :=
  expansionSatisfies (Zlvm.cutsExtern (isInserted insertedBreak) .between []) i.marked

end Condition

/-- **When comments and empty lines are inert.**  The source after the insertion is accepted with the
same image exactly if what has been inserted changes no line; of an `.extern` that is cut in two
this is not claimed. -/
theorem zlasmAssemble_insertion {source source' : CString} {filename : Option CString}
    {image : Bytes} (h : zlasmAssemble source filename = .ok image) :
    (∀ i : CommentInsertion source source',
      zlasmAssemble source' filename = .ok image ↔ i.isHarmless = true) ∧
    ∀ i : LineInsertion source source',
      (i.isHarmless = true → zlasmAssemble source' filename = .ok image) ∧
      (i.cutsExtern = false → zlasmAssemble source' filename = .ok image → i.isHarmless = true) := by
  obtain ⟨tokens, -, htokens, -⟩ := zlasmAssemble_eq_ok.mp h
  constructor
  · intro i
    have hmark := marking_isInserted unread_insertedComment
    obtain ⟨marked, hmarked, hinserts⟩ := i.inserts htokens
    obtain ⟨expanded, hexpanded, ⟨_, hspread⟩, hwhole, hiff⟩ := hinserts.assembled_iff hmark h
    rw [hiff, CommentInsertion.isHarmless, hmarked, expansionSatisfies_ok hexpanded]
    have hcuts := hspread.cutCount (fun t ht => (isInserted_iff.mp ht).1) .between
    exact ⟨fun hsame => harmless_of_assembled hmark hsame hcuts, assembled_of_harmless hmark hwhole⟩
  · intro i
    have hmark := marking_isInserted unread_insertedBreak
    obtain ⟨marked, hmarked, hinserts⟩ := i.inserts htokens
    obtain ⟨expanded, hexpanded, -, hwhole, hiff⟩ := hinserts.assembled_iff hmark h
    rw [hiff, LineInsertion.isHarmless, LineInsertion.cutsExtern, hmarked,
      expansionSatisfies_ok hexpanded, expansionSatisfies_ok hexpanded]
    exact ⟨assembled_of_harmless hmark hwhole, fun huncut hsame =>
      harmless_of_assembled hmark hsame (cutCount_eq_zero hmark hwhole hsame huncut)⟩

/-- A label definition on a line of its own. -/
def loneLabel : CString := CString.lit "l:\n nop\n"

theorem outsideLiteral_of_isOk {text : CString} (h : (lexSource text).isOk = true) :
    OutsideLiteral text := by
  intro failure hfailure
  rw [hfailure] at h
  cases h

/-- A comment behind the instruction. -/
def commentBehindInstruction : CommentInsertion loneLabel (CString.lit "l:\n nop ;c\n") where
  before := CString.lit "l:\n nop"
  after := CString.lit "\n"
  blank := [0x20]
  text := [0x63]
  source_eq := by decide
  inserted_eq := by decide
  outside := outsideLiteral_of_isOk (by decide +kernel)
  lineEnd := closesLine_newline []
  blank_ne_nil := by decide
  isSpace_of_mem := by simp [isSpace, newline]
  newline_notMem := by simp [newline]

/-- An empty line behind the instruction. -/
def lineBehindInstruction : LineInsertion loneLabel (CString.lit "l:\n nop\n\n") where
  before := CString.lit "l:\n nop"
  after := CString.empty
  source_eq := by decide
  inserted_eq := by decide
  outside := outsideLiteral_of_isOk (by decide +kernel)

theorem zlasmAssemble_insertion_loneLabel :
    zlasmAssemble (CString.lit "l:\n nop ;c\n") none = .ok (List.replicate 8 0) ∧
      zlasmAssemble (CString.lit "l:\n nop\n\n") none = .ok (List.replicate 8 0) := by
  have hinsertion := @zlasmAssemble_insertion loneLabel
  exact ⟨((hinsertion (by decide +kernel)).1 commentBehindInstruction).mpr (by decide +kernel),
    ((hinsertion (by decide +kernel)).2 lineBehindInstruction).1 (by decide +kernel)⟩

/-- A comment behind the label definition. -/
def commentBehindLabel : CommentInsertion loneLabel (CString.lit "l: ;c\n nop\n") where
  before := CString.lit "l:"
  after := CString.lit "\n nop\n"
  blank := [0x20]
  text := [0x63]
  source_eq := by decide
  inserted_eq := by decide
  outside := outsideLiteral_of_isOk (by decide +kernel)
  lineEnd := closesLine_newline _
  blank_ne_nil := by decide
  isSpace_of_mem := by simp [isSpace, newline]
  newline_notMem := by simp [newline]

/-- An empty line behind the label definition. -/
def lineBehindLabel : LineInsertion loneLabel (CString.lit "l:\n\n nop\n") where
  before := CString.lit "l:"
  after := CString.lit " nop\n"
  source_eq := by decide
  inserted_eq := by decide
  outside := outsideLiteral_of_isOk (by decide +kernel)

/-- **Behind a label definition** on a line of its own neither a comment nor an empty line is
accepted. -/
theorem loneLabel_not_inert :
    zlasmAssemble loneLabel none = .ok (List.replicate 8 0) ∧
      (Nonempty (CommentInsertion loneLabel (CString.lit "l: ;c\n nop\n")) ∧
        ∀ image, zlasmAssemble (CString.lit "l: ;c\n nop\n") none ≠ .ok image) ∧
      Nonempty (LineInsertion loneLabel (CString.lit "l:\n\n nop\n")) ∧
        ∀ image, zlasmAssemble (CString.lit "l:\n\n nop\n") none ≠ .ok image := by
  have hrejected : ∀ source : CString, (zlasmAssemble source none).isOk = false →
      ∀ image, zlasmAssemble source none ≠ .ok image := by
    intro source hfalse image h
    rw [h] at hfalse
    cases hfalse
  exact ⟨by decide +kernel, ⟨⟨commentBehindLabel⟩, hrejected _ (by decide +kernel)⟩,
    ⟨lineBehindLabel⟩, hrejected _ (by decide +kernel)⟩

end Zlvm
