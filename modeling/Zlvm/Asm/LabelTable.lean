import Zlvm.Asm.Sections

/-!
# Which labels reach the label table

The label table of a sequence of lines, in terms of the lines.

* `procedureOf`, `opensProcedure` — the procedure that some lines leave open, and whether the last
  of them has just opened it; `Reached.procedure` — the state holds the same.
* `DefinesAt` — the labels and procedures that the lines define; `KeptAt` — those that become entries.
* **`mem_labels_iff_kept`** — the entries are exactly the labels that are kept.
* **`noLabelLost_iff`** — no label is lost exactly if every definition is kept.
-/

namespace Zlvm

open Loop

/-! ## Procedures -/

/-- The procedure that a line leaves open. -/
def Line.opens (line : Line) (procedure : Option CString) : Option CString :=
  match line.argument .dirProc with
  | some argument => some argument.value
  | none => if (line.argument .dirEndProc).isSome then none else procedure

/-- The procedure that some lines leave open. -/
def procedureOf (lines : List Line) : Option CString :=
  lines.foldl (fun procedure line => line.opens procedure) none

/-- The last of some lines is a `.proc`. -/
def opensProcedure (lines : List Line) : Bool :=
  lines.getLast?.any fun line => (line.argument .dirProc).isSome

theorem procedureOf_concat (lines : List Line) (line : Line) :
    procedureOf (lines ++ [line]) = line.opens (procedureOf lines) := by
  rw [procedureOf, List.foldl_append]
  rfl

theorem opensProcedure_concat (lines : List Line) (line : Line) :
    opensProcedure (lines ++ [line]) = (line.argument .dirProc).isSome := by
  rw [opensProcedure, List.getLast?_concat, Option.any_some]

/-- **The procedure of a run** is the one that the lines say. -/
theorem Reached.procedure {done : List Line} {state : DirectiveState} (h : Reached done state) :
    state.procedure = procedureOf done ∧ state.opens = opensProcedure done := by
  induction h with
  | init => exact ⟨rfl, rfl⟩
  | step before processed ih =>
      rename_i done line last state state'
      obtain ⟨hprocedure, -⟩ := ih
      rw [procedureOf_concat, opensProcedure_concat, Line.opens, ← hprocedure]
      cases processed with
      | emits emits =>
          rw [argument_of_emits emits rfl, argument_of_emits emits rfl]
          exact ⟨rfl, rfl⟩
      | applies silent body_eq valid applied =>
          rename_i directive
          have hargument := argument_of_dir body_eq
          generalize directive.type = type at hargument applied
          simp only [hargument]
          cases applied with
          | proc more => exact ⟨rfl, rfl⟩
          | declare declares =>
              have hproc : type ≠ .dirProc := by
                rintro rfl
                cases declares
              have hendProc : type ≠ .dirEndProc := by
                rintro rfl
                cases declares
              rw [if_neg hproc, if_neg hendProc]
              exact ⟨rfl, rfl⟩
          | _ => exact ⟨rfl, rfl⟩

/-! ## Definitions -/

/-- The name of a label: its own outside a procedure, and `p.l` in the procedure `p`. -/
def definedName (procedure : Option CString) (label : CString) : CString :=
  match procedure with
  | none => label
  | some procedure => (procedure.append asmContextDelimiter).append label

/-- Where the next line begins that emits something, after the lines `before`. -/
def nextOffset (before rest : List Line) : ℕ :=
  emittedBytes (before ++ rest.takeWhile fun line => !line.emits)

/-- The labels that are written on a line, and the procedures, with the offset at which the next
line begins that emits something. -/
inductive DefinesAt (lines : List Line) : CString → ℕ → Prop
  | label {before after : List Line} {line : Line} {label : CString}
      (lines_eq : lines = before ++ line :: after) (written : line.label = some label) :
      DefinesAt lines (definedName (procedureOf before) label) (nextOffset before (line :: after))
  | proc {before after : List Line} {line : Line} {argument : Token}
      (lines_eq : lines = before ++ line :: after)
      (directive : line.argument .dirProc = some argument) :
      DefinesAt lines argument.value (nextOffset before (line :: after))

/-- The name that is recorded for a label. -/
def recordedName (procedure : Option CString) (label : CString) : CString :=
  match procedure with
  | none => label
  | some procedure => setLabelContext procedure label

/-- The labels that are kept: those of lines that emit something and do not follow a `.proc`, and
the procedures whose next line emits something. -/
inductive KeptAt (lines : List Line) : CString → ℕ → Prop
  | label {before after : List Line} {line : Line} {label : CString}
      (lines_eq : lines = before ++ line :: after) (written : line.label = some label)
      (emits : line.emits = true) (closed : opensProcedure before = false) :
      KeptAt lines (recordedName (procedureOf before) label) (emittedBytes before)
  | proc {before after : List Line} {line next : Line} {argument : Token}
      (lines_eq : lines = before ++ line :: next :: after)
      (directive : line.argument .dirProc = some argument) (emits : next.emits = true) :
      KeptAt lines argument.value (emittedBytes before)

/-- Every label and every procedure has an entry of its name, at the offset of the next line that
emits something. -/
def NoLabelLost (lines : List Line) (labels : List LabelInfo) : Prop :=
  ∀ name offset, DefinesAt lines name offset → ⟨name, offset⟩ ∈ labels

/-- Every label and every procedure is kept, or one of its name at the same offset. -/
structure AllKept (lines : List Line) : Prop where
  labels : ∀ before line after label, lines = before ++ line :: after → line.label = some label →
    KeptAt lines (definedName (procedureOf before) label) (emittedBytes before)
  procs : ∀ before line after argument, lines = before ++ line :: after →
    line.argument .dirProc = some argument → KeptAt lines argument.value (emittedBytes before)

/-- Lines that emit nothing do not move the offset. -/
theorem nextOffset_eq (before : List Line) : ∀ rest : List Line,
    nextOffset before rest = emittedBytes before
  | [] => by rw [nextOffset, List.takeWhile_nil, List.append_nil]
  | line :: rest => by
      have ih := nextOffset_eq before rest
      rw [nextOffset, emittedBytes_append] at ih ⊢
      cases hemits : line.emits with
      | true => rw [List.takeWhile_cons_of_neg (by simp [hemits])]; rfl
      | false =>
          rw [List.takeWhile_cons_of_pos (by simp [hemits]), ← List.singleton_append,
            emittedBytes_append, emittedBytes_singleton, emittedBytes_of_silent hemits, Nat.zero_add]
          exact ih

/-! ## Entries -/

section Table

variable {lines before after : List Line} {line : Line} {final mid : DirectiveState}
  {r : PlacedLine} {name : CString}

/-- The last of some lines, if it is a `.proc`. -/
theorem exists_proc_of_opensProcedure (h : opensProcedure before = true) :
    ∃ earlier proc argument, before = earlier ++ [proc] ∧
      proc.argument .dirProc = some argument := by
  rw [opensProcedure, Option.any_eq_true] at h
  obtain ⟨proc, hlast, hproc⟩ := h
  obtain ⟨argument, hargument⟩ := Option.isSome_iff_exists.mp hproc
  obtain ⟨earlier, rfl⟩ := List.getLast?_eq_some_iff.mp hlast
  exact ⟨earlier, proc, argument, rfl, hargument⟩

/-- The label of a recorded line. -/
theorem RecordedAt.label_eq (h : RecordedAt before line final mid r) :
    r.label = if opensProcedure before then procedureOf before
      else line.label.map (recordedName (procedureOf before)) := by
  obtain ⟨hprocedure, hopens⟩ := h.reached.procedure
  rw [h.label, lineLabel, hprocedure, hopens]
  cases hopen : opensProcedure before with
  | true =>
      obtain ⟨earlier, proc, argument, rfl, hargument⟩ := exists_proc_of_opensProcedure hopen
      rw [procedureOf_concat, Line.opens, hargument]
      rfl
  | false =>
      cases procedureOf before with
      | none => exact (Option.map_id' (x := line.label)).symm
      | some procedure => rfl

/-- **The entries of the label table** are the labels that are kept. -/
theorem mem_labels_iff_kept {context : AssemblerContext} {labels : List LabelInfo}
    (hdirectives : asmProcessDirectives lines = .ok context)
    (hlabels : asmProcessLabels context = .ok labels) (name : CString) (offset : ℕ) :
    ⟨name, offset⟩ ∈ labels ↔ KeptAt lines name offset := by
  rw [asmProcessDirectives, bind_eq_ok] at hdirectives
  obtain ⟨final, hfinal, hcontext⟩ := hdirectives
  obtain rfl := Except.ok.inj hcontext
  rw [mem_labels hlabels]
  constructor
  · rintro ⟨k, ⟨r, hr, hname⟩, haddress⟩
    obtain ⟨before, line, after, mid, rfl, hemits, rfl, hrecorded⟩ := exists_recordedAt hfinal hr
    dsimp only at hname haddress
    rw [hrecorded.rawPosition] at haddress
    rw [hrecorded.label_eq] at hname
    rw [haddress]
    split at hname
    · -- the line after a `.proc`
      rename_i hopen
      obtain ⟨earlier, proc, argument, rfl, hargument⟩ := exists_proc_of_opensProcedure hopen
      rw [procedureOf_concat, Line.opens, hargument] at hname
      obtain rfl := Option.some.inj hname
      have hsilent : proc.emits = false := by
        refine eq_false_of_ne_true fun hemits => ?_
        rw [argument_of_emits hemits rfl] at hargument
        cases hargument
      rw [emittedBytes_append, emittedBytes_singleton, emittedBytes_of_silent hsilent]
      exact .proc (List.append_assoc _ _ _) hargument hemits
    · rename_i hopen
      obtain ⟨label, hlabel, rfl⟩ := Option.map_eq_some_iff.mp hname
      exact .label rfl hlabel hemits (eq_false_of_ne_true hopen)
  · rintro (⟨lines_eq, written, emits, closed⟩ | ⟨lines_eq, directive, emits⟩)
    · rename_i before after line label
      subst lines_eq
      obtain ⟨mid, r, hrecorded⟩ := recordedAt_of_split hfinal emits
      refine ⟨emittedCount before, ⟨r, hrecorded.listed, ?_⟩, hrecorded.rawPosition.symm⟩
      rw [hrecorded.label_eq, closed, written]
      rfl
    · rename_i before after line next argument
      subst lines_eq
      rw [List.append_cons] at hfinal
      obtain ⟨mid, r, hrecorded⟩ := recordedAt_of_split hfinal emits
      have hsilent : line.emits = false := by
        refine eq_false_of_ne_true fun hemits => ?_
        rw [argument_of_emits hemits rfl] at directive
        cases directive
      refine ⟨_, ⟨r, hrecorded.listed, ?_⟩, ?_⟩
      · rw [hrecorded.label_eq, opensProcedure_concat, directive, procedureOf_concat, Line.opens,
          directive]
        rfl
      · rw [hrecorded.rawPosition, emittedBytes_append, emittedBytes_singleton,
          emittedBytes_of_silent hsilent]
        rfl

end Table

/-- **No label is lost** exactly if every definition is kept: it stands on a line that emits
something and does not follow a `.proc`, or it is a `.proc` whose next line emits something, or such
a definition of the same name stands at the same offset. -/
theorem noLabelLost_iff {lines : List Line} {context : AssemblerContext} {labels : List LabelInfo}
    (hdirectives : asmProcessDirectives lines = .ok context)
    (hlabels : asmProcessLabels context = .ok labels) :
    NoLabelLost lines labels ↔ AllKept lines := by
  have hentries := mem_labels_iff_kept hdirectives hlabels
  constructor
  · intro hlost
    refine ⟨fun before line after label hlines hwritten => ?_,
      fun before line after argument hlines hdirective => ?_⟩
    · rw [← nextOffset_eq before (line :: after)]
      exact (hentries _ _).mp (hlost _ _ (.label hlines hwritten))
    · rw [← nextOffset_eq before (line :: after)]
      exact (hentries _ _).mp (hlost _ _ (.proc hlines hdirective))
  · rintro hkept name offset (⟨hlines, hwritten⟩ | ⟨hlines, hdirective⟩)
    · rw [nextOffset_eq, hentries]
      exact hkept.labels _ _ _ _ hlines hwritten
    · rw [nextOffset_eq, hentries]
      exact hkept.procs _ _ _ _ hlines hdirective

/-- Two labels on lines that emit, with an `.align` between them. -/
def labelledLines : List Line :=
  [directiveLine .dirByte "byte" "1" 1 3 4 (some (CString.lit "l")),
   directiveLine .dirAlign "align" "4" 2 11 1 none,
   directiveLine .dirByte "byte" "2" 3 23 4 (some (CString.lit "m"))]

theorem noLabelLost_iff_labelledLines :
    ∃ context labels, asmProcessDirectives labelledLines = .ok context ∧
      asmProcessLabels context = .ok labels ∧
      (NoLabelLost labelledLines labels ↔ AllKept labelledLines) := by
  have hrun : (asmProcessDirectives labelledLines >>= asmProcessLabels)
      = .ok [⟨CString.lit "l", 0⟩, ⟨CString.lit "m", 1⟩] := by decide +kernel
  obtain ⟨context, hdirectives, hlabels⟩ := bind_eq_ok.mp hrun
  exact ⟨context, _, hdirectives, hlabels, noLabelLost_iff hdirectives hlabels⟩

/-- A label on a line that emits nothing. -/
def lostSource : CString := CString.lit "l: .align 4\n.byte 1\n"

def lostLines : List Line :=
  [directiveLine .dirAlign "align" "4" 1 3 4 (some (CString.lit "l")),
   directiveLine .dirByte "byte" "1" 2 12 1 none]

/-- **A label that is lost**: the table is empty. -/
theorem lostLines_not_noLabelLost :
    parseSource lostSource = .ok lostLines ∧
      (∃ context, asmProcessDirectives lostLines = .ok context ∧
        asmProcessLabels context = .ok []) ∧
      (lostLines.getLast?).any Line.emits = true ∧
      DefinesAt lostLines (CString.lit "l") 0 ∧ ¬NoLabelLost lostLines [] := by
  have hlabel : DefinesAt lostLines (CString.lit "l") 0 := @DefinesAt.label lostLines [] _ _ _ rfl rfl
  have hrun : (asmProcessDirectives lostLines >>= asmProcessLabels) = .ok [] := by decide +kernel
  obtain ⟨context, hdirectives, hlabels⟩ := bind_eq_ok.mp hrun
  exact ⟨by decide +kernel, ⟨context, hdirectives, hlabels⟩, by decide +kernel, hlabel,
    fun hlost => absurd (hlost _ _ hlabel) List.not_mem_nil⟩

end Zlvm
