import Zlvm.Asm.Sections

/-!
# Padding in the text section

Sources that put everything into one text section, and when that section holds nothing but what the
lines emit.

* `TextProgram` — the sources; `Unpadded` — no `.align` of the section inserts padding.
* **`Reached.size`** — the size of the section is what the lines emit exactly if nothing is padded.
* `TextProgram.recorded` — then every line lies at its offset in the raw image.
-/

namespace Zlvm

open Loop Alignment

/-- A source that places everything in a text section and neither moves a section nor declares a
symbol. -/
structure TextProgram (lines : List Line) (name : CString) : Prop where
  text : name = CString.lit "text" ∨ name = CString.lit ".text"
  emitted : ∀ before line after, lines = before ++ line :: after → line.emits = true →
    selectedSection before = name
  plain : ∀ line ∈ lines, ∀ type ∈ [DirectiveType.dirLocate, .dirGlobal, .dirExtern, .dirEntry],
    line.argument type = none

/-- A line that neither selects or moves a section nor declares a symbol. -/
def Line.isPlain (line : Line) : Bool :=
  [DirectiveType.dirSection, .dirLocate, .dirGlobal, .dirExtern, .dirEntry].all fun type =>
    (line.argument type).isNone

theorem selectedSection_of_isPlain : ∀ {lines : List Line}, lines.all Line.isPlain = true →
    selectedSection lines = CString.lit "text" := by
  intro lines hplain
  refine foldl_induction (fun _ name => name = CString.lit "text") rfl ?_
  rintro done line rest name rfl rfl
  rw [List.all_eq_true] at hplain
  have hline := hplain line (List.mem_append_right _ List.mem_cons_self)
  rw [Line.isPlain, List.all_eq_true] at hline
  have hsection := hline .dirSection (by simp)
  rw [Line.selects, Option.isNone_iff_eq_none.mp hsection]
  rfl

/-- Without `.section`, everything goes to the section that is there from the start. -/
theorem textProgram_of_isPlain {lines : List Line} (hplain : lines.all Line.isPlain = true) :
    TextProgram lines (CString.lit "text") where
  text := .inl rfl
  emitted before line after hlines _ := by
    rw [hlines, List.all_append, Bool.and_eq_true] at hplain
    exact selectedSection_of_isPlain hplain.1
  plain line hline type htype := by
    rw [List.all_eq_true] at hplain
    have hnone := hplain line hline
    rw [Line.isPlain, List.all_eq_true] at hnone
    exact Option.isNone_iff_eq_none.mp (hnone type (List.mem_cons_of_mem _ htype))

/-- Every `.align` of the section finds what was emitted before it aligned already. -/
def Unpadded (lines : List Line) (name : CString) : Prop :=
  ∀ before line after argument alignment, lines = before ++ line :: after →
    line.argument .dirAlign = some argument → tokenGetIntValue argument = .ok alignment →
    selectedSection before = name → alignment ∣ emittedBytes before

section Text

variable {done lines : List Line} {line : Line} {name : CString}

theorem TextProgram.of_append {rest : List Line} (h : TextProgram (done ++ rest) name) :
    TextProgram done name where
  text := h.text
  emitted before line' after hsplit :=
    h.emitted before line' (after ++ rest) (by rw [hsplit, List.append_assoc]; rfl)
  plain line' hline := h.plain line' (List.mem_append_left _ hline)

theorem Unpadded.of_append {rest : List Line} (h : Unpadded (done ++ rest) name) :
    Unpadded done name := fun before line' after argument alignment hsplit =>
  h before line' (after ++ rest) argument alignment (by rw [hsplit, List.append_assoc]; rfl)

theorem unpadded_concat : Unpadded (done ++ [line]) name ↔ Unpadded done name ∧
    ∀ argument alignment, line.argument .dirAlign = some argument →
      tokenGetIntValue argument = .ok alignment → selectedSection done = name →
      alignment ∣ emittedBytes done := by
  constructor
  · intro h
    exact ⟨h.of_append, fun argument alignment => h done line [] argument alignment rfl⟩
  · rintro ⟨hdone, hline⟩ before line' after argument alignment hsplit
    rcases concat_eq_append_cons hsplit with ⟨-, rfl, rfl⟩ | ⟨after', -, hdone'⟩
    · exact hline argument alignment
    · exact hdone before line' after' argument alignment hdone'

/-- An `.align` of the section: it pads unless the size is what was emitted, and aligned. -/
theorem unpadded_align {size k : ℕ} {argument : Token} (hle : emittedBytes done ≤ size)
    (hiff : Unpadded done name ↔ size = emittedBytes done)
    (hargument : line.argument .dirAlign = some argument)
    (hvalue : tokenGetIntValue argument = .ok (2 ^ k)) (hselected : selectedSection done = name) :
    (Unpadded done name ∧ ∀ argument alignment, line.argument .dirAlign = some argument →
      tokenGetIntValue argument = .ok alignment → selectedSection done = name →
      alignment ∣ emittedBytes done) ↔ roundUp (2 ^ k) size = emittedBytes done := by
  have hpos : 0 < 2 ^ k := Nat.two_pow_pos k
  constructor
  · rintro ⟨hdone, hline⟩
    rw [hiff.mp hdone]
    exact (roundUp_eq_self hpos).mpr (hline argument _ hargument hvalue hselected)
  · intro hround
    have hsize : size = emittedBytes done :=
      Nat.le_antisymm (hround ▸ le_roundUp hpos size) hle
    refine ⟨hiff.mpr hsize, fun argument' alignment hargument' hvalue' _ => ?_⟩
    obtain rfl := Option.some.inj (hargument.symm.trans hargument')
    obtain rfl := Except.ok.inj (hvalue.symm.trans hvalue')
    rw [← hsize] at hround ⊢
    exact (roundUp_eq_self hpos).mp hround

/-- **The size of the text section**: at least what the lines emit, and no more exactly if nothing
is padded. -/
theorem Reached.size {state : DirectiveState} (h : Reached done state)
    (hprogram : TextProgram done name) :
    emittedBytes done ≤ (sectionOf state.context name).size ∧
      (Unpadded done name ↔ (sectionOf state.context name).size = emittedBytes done) := by
  induction h with
  | init =>
      have hsize : (sectionOf directiveInit.context name).size = 0 := by
        rw [sectionOf, directiveInit, asmInit, List.find?_singleton]
        split <;> rfl
      refine ⟨Nat.zero_le _, iff_of_true ?_ hsize⟩
      intro before line after argument alignment hsplit
      exact absurd hsplit.symm (List.append_ne_nil_of_right_ne_nil _ (List.cons_ne_nil _ _))
  | step before processed ih =>
      rename_i done line last state state'
      obtain ⟨hle, hiff⟩ := ih hprogram.of_append
      obtain ⟨hnames, hcurrent⟩ := before.sections
      have hsteps := processed.steps hnames
      rw [unpadded_concat, emittedBytes_append, emittedBytes_singleton]
      by_cases hselected : selectedSection done = name
      · have hname : name = state.context.current.name := hselected.symm.trans hcurrent.symm
        have hstep := hsteps.step
        rw [hname, hnames.sectionOf_current] at hle hiff
        rw [hname]
        generalize sectionOf state'.context state.context.current.name = s' at hstep
        rw [← hname] at hiff ⊢
        cases hstep with
        | emit emits =>
            have hnone : line.argument .dirAlign = none := argument_of_emits emits rfl
            refine ⟨Nat.add_le_add_right hle _, ?_⟩
            rw [Nat.add_right_cancel_iff, ← hiff]
            refine and_iff_left fun argument alignment hargument => ?_
            rw [hnone] at hargument
            cases hargument
        | align directive aligned =>
            have hsilent : line.emits = false := by
              refine eq_false_of_ne_true fun hemits => ?_
              rw [argument_of_emits hemits rfl] at directive
              cases directive
            obtain ⟨k, -, hvalue, hsize, -⟩ := alignSection_roundUp aligned
            rw [emittedBytes_of_silent hsilent, Nat.add_zero, hsize]
            exact ⟨hle.trans (le_roundUp (Nat.two_pow_pos k) _),
              unpadded_align hle hiff directive hvalue hselected⟩
        | locate directive =>
            rw [hprogram.plain line (by simp) _ (by simp)] at directive
            cases directive
        | keep silent noAlign noLocate =>
            rw [emittedBytes_of_silent silent, Nat.add_zero, ← hiff]
            refine ⟨hle, and_iff_left fun argument alignment hargument => ?_⟩
            rw [noAlign] at hargument
            cases hargument
      · -- nothing is emitted here, and the section stays as it is
        have hsilent : line.emits = false := by
          refine eq_false_of_ne_true fun hemits => hselected ?_
          exact hprogram.emitted done line [] rfl hemits
        have hother : name ≠ state.context.current.name := fun heq =>
          hselected (hcurrent.symm.trans heq.symm)
        rw [hsteps.other name hother, emittedBytes_of_silent hsilent, Nat.add_zero, ← hiff]
        exact ⟨hle, and_iff_left fun _ _ _ _ h => absurd h hselected⟩

/-! ## The recorded lines -/

/-- A line that declares no symbol. -/
theorem Processed.declarations {state state' : DirectiveState} {last : Bool}
    (h : Processed state line last state')
    (hplain : ∀ type ∈ [DirectiveType.dirLocate, .dirGlobal, .dirExtern, .dirEntry],
      line.argument type = none) :
    state'.context.globals = state.context.globals ∧
      state'.context.externals = state.context.externals ∧
      state'.context.entry = state.context.entry := by
  cases h with
  | emits emits body_eq recorded =>
      obtain ⟨-, hcontext⟩ := recordLine_eq_ok recorded
      rw [hcontext]
      exact ⟨rfl, rfl, rfl⟩
  | applies silent body_eq valid applied =>
      rename_i directive
      have hne : ∀ type ∈ [DirectiveType.dirLocate, .dirGlobal, .dirExtern, .dirEntry],
          directive.type ≠ type := by
        rintro type htype rfl
        have hargument := hplain _ htype
        rw [argument_of_dir body_eq, if_pos rfl] at hargument
        cases hargument
      generalize directive.type = type at applied hne
      cases applied with
      | select =>
          refine ⟨?_, ?_, ?_⟩ <;>
          · dsimp only
            unfold selectSection
            split <;> rfl
      | declare _ _ _ _ globals externals entry =>
          exact ⟨globals (hne _ (by simp)), externals (hne _ (by simp)), entry (hne _ (by simp))⟩
      | _ => exact ⟨rfl, rfl, rfl⟩

/-- A text program declares no symbol. -/
theorem Reached.declarations {state : DirectiveState} (h : Reached done state)
    (hprogram : TextProgram done name) :
    state.context.globals = [] ∧ state.context.externals = [] ∧ state.context.entry = none := by
  induction h with
  | init => exact ⟨rfl, rfl, rfl⟩
  | step before processed ih =>
      obtain ⟨hglobals, hexternals, hentry⟩ := processed.declarations
        (hprogram.plain _ (List.mem_append_right _ List.mem_cons_self))
      rw [hglobals, hexternals, hentry]
      exact ih hprogram.of_append

/-- **The lines of a text program** lie in the text section, and at their offsets in the raw image
if nothing is padded. -/
theorem TextProgram.recorded {final : DirectiveState} (hprogram : TextProgram lines name)
    (h : processLines directiveInit lines = .ok final) {k : ℕ} {r : PlacedLine}
    (hr : final.context.lines[k]? = some r) :
    (∃ s, final.context.sections[r.sectionIndex]? = some s ∧ s.name = name) ∧
      (Unpadded lines name → r.sectionOffset = rawOffset final.context.lines k) := by
  obtain ⟨before, line, after, mid, rfl, hemits, rfl, hrecorded⟩ := exists_recordedAt h hr
  have hselected := hprogram.emitted before line after rfl hemits
  refine ⟨hselected ▸ hrecorded.named, fun hunpadded => ?_⟩
  rw [hrecorded.offset, hrecorded.rawPosition, hselected]
  exact (hrecorded.reached.size hprogram.of_append).2.mp hunpadded.of_append

end Text

end Zlvm
