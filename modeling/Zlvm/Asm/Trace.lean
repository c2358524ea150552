import Zlvm.Asm.Raw

/-!
# From the lines of the source to the recorded lines

The loop of `asm_processDirectives` seen from one line of the source: the state that the lines
before it have left, what it does to that state, and what becomes of it.

* `Applied`, `applyDirective_eq_ok` — what a directive that emits nothing does.
* `Reached` — the state after the first lines of a source; `processLines_split` — a run passes
  through such a state before every line.
* `emittedBytes`, `emittedCount` — what some lines emit, in terms of the source; **`Reached.emitted`**
  — the recorded lines are those that emit, with their bytes.
* `parseSource`, `assembleContext_eq_ok` — a whole source.
-/

namespace Zlvm

open Loop

/-! ## Lines that emit nothing -/

/-- The directives that change neither a section nor the procedure. -/
def DirectiveType.declares : DirectiveType → Bool
  | .dirGlobal | .dirExtern | .dirEntry | .dirMacro | .dirEndMacro => true
  | _ => false

/-- What a directive that emits nothing does; `last` says that no line follows. -/
inductive Applied (state : DirectiveState) (argument : Token) (last : Bool) :
    DirectiveType → DirectiveState → Prop
  | select (supported : isSupportedSection argument.value = true) :
      Applied state argument last .dirSection
        { state with context := selectSection state.context argument.value }
  | align {s : AsmSection} (aligned : alignSection state.context.current argument = .ok s) :
      Applied state argument last .dirAlign
        { state with context := state.context.setCurrent s }
  | locate {s : AsmSection} (located : locateSection state.context.current argument = .ok s) :
      Applied state argument last .dirLocate
        { state with context := state.context.setCurrent s }
  | proc (more : last = false) :
      Applied state argument last .dirProc
        { state with procedure := some argument.value, opens := true }
  | endProc : Applied state argument last .dirEndProc { state with procedure := none }
  | declare {type : DirectiveType} {context : AssemblerContext} (declares : type.declares = true)
      (sections : context.sections = state.context.sections)
      (current : context.currentSection = state.context.currentSection)
      (lines : context.lines = state.context.lines)
      (globals : type ≠ .dirGlobal → context.globals = state.context.globals)
      (externals : type ≠ .dirExtern → context.externals = state.context.externals)
      (entry : type ≠ .dirEntry → context.entry = state.context.entry) :
      Applied state argument last type { state with context }

theorem applyDirective_eq_ok {state state' : DirectiveState} {directive : Directive}
    {argument : Token} {last : Bool} (h : applyDirective state directive argument last = .ok state') :
    Applied state argument last directive.type state' := by
  unfold applyDirective at h
  cases htype : directive.type <;> rw [htype] at h <;> simp only at h
  case dirSection =>
    simp only [bind_eq_ok, require_eq_ok] at h
    obtain ⟨-, hsupported, h⟩ := h
    obtain rfl := Except.ok.inj h
    exact .select hsupported
  case dirAlign =>
    rw [bind_eq_ok] at h
    obtain ⟨s, hs, h⟩ := h
    obtain rfl := Except.ok.inj h
    exact .align hs
  case dirLocate =>
    rw [bind_eq_ok] at h
    obtain ⟨s, hs, h⟩ := h
    obtain rfl := Except.ok.inj h
    exact .locate hs
  case dirProc =>
    simp only [bind_eq_ok, require_eq_ok] at h
    obtain ⟨-, hlast, h⟩ := h
    obtain rfl := Except.ok.inj h
    exact .proc hlast
  case dirEndProc =>
    obtain rfl := Except.ok.inj h
    exact .endProc
  case dirGlobal =>
    obtain rfl := Except.ok.inj h
    exact .declare rfl rfl rfl rfl (absurd rfl) (fun _ => rfl) (fun _ => rfl)
  case dirExtern =>
    obtain rfl := Except.ok.inj h
    exact .declare rfl rfl rfl rfl (fun _ => rfl) (absurd rfl) (fun _ => rfl)
  case dirEntry =>
    obtain rfl := Except.ok.inj h
    exact .declare rfl rfl rfl rfl (fun _ => rfl) (fun _ => rfl) (absurd rfl)
  case dirMacro =>
    obtain rfl := Except.ok.inj h
    exact .declare rfl rfl rfl rfl (fun _ => rfl) (fun _ => rfl) (fun _ => rfl)
  case dirEndMacro =>
    obtain rfl := Except.ok.inj h
    exact .declare rfl rfl rfl rfl (fun _ => rfl) (fun _ => rfl) (fun _ => rfl)
  all_goals cases h

/-! ## Lines that emit -/

/-- A statement or a data directive. -/
def Line.emits (line : Line) : Bool :=
  match line.body with
  | .stmt _ => true
  | .dir directive => directive.type.isData

/-- What one line does. -/
inductive Processed (state : DirectiveState) (line : Line) (last : Bool) :
    DirectiveState → Prop
  | emits {body : PlacedBody} {context : AssemblerContext} (emits : line.emits = true)
      (body_eq : Emits line.body body)
      (recorded : recordLine state.context (lineLabel state line) body = .ok context) :
      Processed state line last { state with context, opens := false }
  | applies {directive : Directive} {state' : DirectiveState} (silent : line.emits = false)
      (body_eq : line.body = .dir directive)
      (valid : validateDirective directive = .ok ())
      (applied : Applied { state with opens := false } (directive.argv.headD directive.name) last
        directive.type state') :
      Processed state line last state'

theorem processLine_eq_ok {state state' : DirectiveState} {line : Line} {last : Bool}
    (h : processLine state line last = .ok state') : Processed state line last state' := by
  unfold processLine at h
  split at h
  · rename_i statement hbody
    rw [bind_eq_ok] at h
    obtain ⟨context, hcontext, h⟩ := h
    obtain rfl := Except.ok.inj h
    exact .emits (by rw [Line.emits, hbody]) (hbody ▸ .stmt statement) hcontext
  · rename_i directive hbody
    rw [bind_eq_ok] at h
    obtain ⟨_, hvalid, h⟩ := h
    split at h
    · rename_i hdata
      simp only [bind_eq_ok] at h
      obtain ⟨data, hraw, context, hcontext, h⟩ := h
      obtain rfl := Except.ok.inj h
      exact .emits (by rw [Line.emits, hbody]; exact hdata) (hbody ▸ .raw hdata hraw) hcontext
    · rename_i hdata
      exact .applies (by rw [Line.emits, hbody]; exact eq_false_of_ne_true hdata) hbody hvalid
        (applyDirective_eq_ok h)

/-! ## The run -/

/-- Where the loop of `asm_processDirectives` starts. -/
def directiveInit : DirectiveState := { context := asmInit, procedure := none, opens := false }

/-- The state after some lines of a source. -/
inductive Reached : List Line → DirectiveState → Prop
  | init : Reached [] directiveInit
  | step {done : List Line} {line : Line} {last : Bool} {state state' : DirectiveState}
      (before : Reached done state) (processed : Processed state line last state') :
      Reached (done ++ [line]) state'

/-- **A run passes through every line.** -/
theorem processLines_append : ∀ {before after : List Line} {state final : DirectiveState}
    {done : List Line} {line : Line}, Reached done state →
      processLines state (before ++ line :: after) = .ok final →
        ∃ mid next, Reached (done ++ before) mid ∧ Processed mid line after.isEmpty next ∧
          Reached (done ++ before ++ [line]) next ∧ processLines next after = .ok final
  | [], after, state, final, done, line, hdone, h => by
      rw [List.nil_append, processLines, bind_eq_ok] at h
      obtain ⟨next, hnext, h⟩ := h
      have hprocessed := processLine_eq_ok hnext
      rw [List.append_nil]
      exact ⟨state, next, hdone, hprocessed, .step hdone hprocessed, h⟩
  | line' :: before, after, state, final, done, line, hdone, h => by
      rw [List.cons_append, processLines, bind_eq_ok] at h
      obtain ⟨next, hnext, h⟩ := h
      obtain ⟨mid, after', hmid, hrest⟩ :=
        processLines_append (Reached.step hdone (processLine_eq_ok hnext)) h
      rw [← List.append_cons] at hmid hrest
      exact ⟨mid, after', hmid, hrest⟩

/-- The state before a line and the state after it. -/
theorem processLines_split {before after : List Line} {line : Line} {final : DirectiveState}
    (h : processLines directiveInit (before ++ line :: after) = .ok final) :
    ∃ mid next, Reached before mid ∧ Processed mid line after.isEmpty next ∧
      Reached (before ++ [line]) next ∧ processLines next after = .ok final := by
  obtain ⟨mid, next, hmid, hprocessed, hnext, hafter⟩ := processLines_append .init h
  exact ⟨mid, next, hmid, hprocessed, hnext, hafter⟩

/-- The state after more lines. -/
theorem Reached.processLines : ∀ {lines done : List Line} {state final : DirectiveState},
    Reached done state → processLines state lines = .ok final → Reached (done ++ lines) final
  | [], done, state, final, hdone, h => by
      obtain rfl := Except.ok.inj h
      rw [List.append_nil]
      exact hdone
  | line :: lines, done, state, final, hdone, h => by
      rw [Zlvm.processLines, bind_eq_ok] at h
      obtain ⟨next, hnext, h⟩ := h
      rw [List.append_cons]
      exact (Reached.step hdone (processLine_eq_ok hnext)).processLines h

/-! ## Recorded lines -/

/-- The number of bytes that a line emits. -/
def Line.emittedBytes (line : Line) : ℕ :=
  match line.body with
  | .stmt _ => instructionSize
  | .dir directive =>
      if directive.type.isData then
        match directiveGetRawData directive with
        | .ok data => data.length
        | .error _ => 0
      else 0

/-- The number of bytes that some lines emit. -/
def emittedBytes (lines : List Line) : ℕ := (lines.map Line.emittedBytes).sum

/-- The number of lines that emit. -/
def emittedCount (lines : List Line) : ℕ := lines.countP Line.emits

@[simp] theorem emittedBytes_append (a b : List Line) :
    emittedBytes (a ++ b) = emittedBytes a + emittedBytes b := by
  rw [emittedBytes, List.map_append, List.sum_append]
  rfl

@[simp] theorem emittedBytes_singleton (line : Line) :
    emittedBytes [line] = line.emittedBytes := Nat.add_zero _

theorem emittedCount_concat (lines : List Line) (line : Line) :
    emittedCount (lines ++ [line]) = emittedCount lines + if line.emits then 1 else 0 := by
  rw [emittedCount, List.countP_append, List.countP_singleton]
  rfl

theorem Emits.size_eq {line : Line} {body : PlacedBody} (h : Emits line.body body) :
    body.size = line.emittedBytes := by
  rw [Line.emittedBytes]
  generalize line.body = lineBody at h
  cases h with
  | stmt statement => rfl
  | raw type data_eq =>
      simp only [type, if_true, data_eq]
      rfl

theorem emittedBytes_of_silent {line : Line} (h : line.emits = false) : line.emittedBytes = 0 := by
  rw [Line.emittedBytes]
  rw [Line.emits] at h
  cases hbody : line.body with
  | stmt statement =>
      rw [hbody] at h
      cases h
  | dir directive =>
      rw [hbody] at h
      simp only at h
      simp only [h, Bool.false_eq_true, if_false]

/-- A line that emits nothing is not recorded. -/
theorem Applied.lines_eq {state state' : DirectiveState} {argument : Token} {last : Bool}
    {type : DirectiveType} (h : Applied state argument last type state') :
    state'.context.lines = state.context.lines := by
  cases h with
  | select =>
      show (selectSection _ _).lines = _
      unfold selectSection
      split <;> rfl
  | declare _ _ _ lines _ _ _ => exact lines
  | _ => rfl

/-- What a line that emits adds. -/
theorem Processed.lines_eq {state state' : DirectiveState} {line : Line} {last : Bool}
    (h : Processed state line last state') :
    (line.emits = true ∧ ∃ body, Emits line.body body ∧
      state'.context.lines = state.context.lines ++ [⟨lineLabel state line, body,
        state.context.currentSection, state.context.current.size⟩]) ∨
    (line.emits = false ∧ state'.context.lines = state.context.lines) := by
  cases h with
  | emits emits body_eq recorded =>
      obtain ⟨-, hcontext⟩ := recordLine_eq_ok recorded
      exact .inl ⟨emits, _, body_eq, by rw [hcontext]⟩
  | applies silent _ _ applied => exact .inr ⟨silent, applied.lines_eq⟩

/-- **The recorded lines** are those that emit, with their bytes. -/
theorem Reached.emitted {done : List Line} {state : DirectiveState} (h : Reached done state) :
    state.context.lines.length = emittedCount done ∧
      rawOffset state.context.lines state.context.lines.length = emittedBytes done := by
  induction h with
  | init => exact ⟨rfl, rfl⟩
  | step before processed ih =>
      rename_i done line last state state'
      rcases processed.lines_eq with ⟨hemits, body, hbody, hlines⟩ | ⟨hsilent, hlines⟩
      · rw [hlines, List.length_append, List.length_singleton, emittedCount_concat, if_pos hemits,
          rawOffset_succ List.getElem?_concat_length, rawOffset_append (Nat.le_refl _),
          emittedBytes_append, emittedBytes_singleton, ih.1, ← ih.2, ih.1, ← hbody.size_eq]
        exact ⟨rfl, rfl⟩
      · rw [hlines, emittedCount_concat, if_neg (ne_true_of_eq_false hsilent), emittedBytes_append,
          emittedBytes_singleton, emittedBytes_of_silent hsilent]
        exact ih

/-- Recorded lines stay. -/
theorem lines_of_processLines {lines : List Line} {state final : DirectiveState}
    (h : processLines state lines = .ok final) :
    ∃ more, final.context.lines = state.context.lines ++ more := by
  refine processLines_induction (fun current => ∃ more,
    current.context.lines = state.context.lines ++ more) ?_ lines state final
    ⟨[], (List.append_nil _).symm⟩ h
  rintro current line last next ⟨more, hmore⟩ hnext
  rcases (processLine_eq_ok hnext).lines_eq with ⟨-, body, -, hlines⟩ | ⟨-, hlines⟩
  · exact ⟨more ++ [_], by rw [hlines, hmore, List.append_assoc]⟩
  · exact ⟨more, hlines.trans hmore⟩

/-- The line of the source behind a recorded one. -/
theorem exists_split_of_lt : ∀ {lines : List Line} {k : ℕ}, k < emittedCount lines →
    ∃ before line after, lines = before ++ line :: after ∧ line.emits = true ∧
      emittedCount before = k
  | [], k, h => absurd h (Nat.not_lt_zero k)
  | line :: lines, k, h => by
      cases hemits : line.emits with
      | false =>
          rw [emittedCount, List.countP_cons_of_neg (ne_true_of_eq_false hemits)] at h
          obtain ⟨before, line', after, rfl, hline', hcount⟩ := exists_split_of_lt h
          refine ⟨line :: before, line', after, rfl, hline', ?_⟩
          rw [emittedCount, List.countP_cons_of_neg (ne_true_of_eq_false hemits)]
          exact hcount
      | true =>
          cases k with
          | zero => exact ⟨[], line, lines, rfl, hemits, rfl⟩
          | succ k =>
              rw [emittedCount, List.countP_cons_of_pos hemits, Nat.succ_lt_succ_iff] at h
              obtain ⟨before, line', after, rfl, hline', hcount⟩ := exists_split_of_lt h
              refine ⟨line :: before, line', after, rfl, hline', ?_⟩
              rw [emittedCount, List.countP_cons_of_pos hemits]
              exact congrArg (· + 1) hcount

/-! ## A whole source -/

/-- `assemble_source` up to the parser. -/
def parseSource (source : CString) : Except AsmFailure (List Line) := do
  let tokens ← lexSource source
  let expanded ← macrosExpand tokens
  parserParse expanded

/-- The line of a directive with one integer, at the given place of the source. -/
def directiveLine (type : DirectiveType) (name value : String) (row position column : ℕ)
    (label : Option CString) : Line where
  label := label
  body := .dir {
    type := type
    name := ⟨.directive, CString.lit name, position, row, column, name.length + 1⟩
    argv := [⟨.intDec, CString.lit value, position + name.length + 2, row,
      column + name.length + 2, value.length⟩] }

/-- The context of a source that is not rejected before the translation. -/
theorem assembleContext_eq_ok {source : CString} {context : AssemblerContext} :
    assembleContext source = .ok context ↔ ∃ lines state labels, parseSource source = .ok lines ∧
      processLines directiveInit lines = .ok state ∧ state.context = context ∧
      asmProcessLabels context = .ok labels := by
  simp only [assembleContext, parseSource, asmProcessDirectives, bind_eq_ok]
  constructor
  · rintro ⟨tokens, htokens, expanded, hexpanded, lines, hlines, _, ⟨state, hstate, hcontext⟩,
      labels, hlabels, h⟩
    obtain rfl := Except.ok.inj hcontext
    obtain rfl := Except.ok.inj h
    exact ⟨lines, state, labels, ⟨tokens, htokens, expanded, hexpanded, hlines⟩, hstate, rfl,
      hlabels⟩
  · rintro ⟨lines, state, labels, ⟨tokens, htokens, expanded, hexpanded, hlines⟩, hstate, rfl,
      hlabels⟩
    exact ⟨tokens, htokens, expanded, hexpanded, lines, hlines, _, ⟨state, hstate, rfl⟩, labels,
      hlabels, rfl⟩

end Zlvm
