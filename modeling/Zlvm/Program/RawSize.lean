import Zlvm.Program.Modes
import Zlvm.Program.RawImage
import Mathlib.Algebra.BigOperators.Group.Finset.Piecewise

/-!
# Whether a raw image fits into the machine

The assembler limits every section to the size of the ROM, but a raw image holds the lines of all
sections.

* `sectionBytes` — what the lines of a source emit into one section;
  **`sectionBytes_le_romSize`** — that alone fits, whatever `.align` and `.locate` add to it.
* `sum_sectionBytes` — the sections together hold what all lines emit.
* `FitsMachine` — `vm_loadDump` accepts the image, and no label lies behind the ROM.
* **`fitsMachine_iff`** — an image fits exactly if its sections fit together.
-/

namespace Zlvm

open Buffer

/-! ## The bytes of a section -/

/-- The names of the sections that the assembler supports. -/
def sectionNames : Finset CString :=
  ([".text", "text", ".data", "data", ".bss", "bss"].map CString.lit).toFinset

/-- What some lines emit into the section `name`, if `selected` is the section before them. -/
def bytesInto (name : CString) : CString → List Line → ℕ
  | _, [] => 0
  | selected, line :: rest =>
      (if selected = name then line.emittedBytes else 0)
        + bytesInto name (line.selects selected) rest

/-- What the lines of a source emit into the section `name`. -/
def sectionBytes (lines : List Line) (name : CString) : ℕ :=
  bytesInto name (CString.lit "text") lines

theorem bytesInto_concat (name : CString) (line : Line) : ∀ (selected : CString) (lines : List Line),
    bytesInto name selected (lines ++ [line]) = bytesInto name selected lines
      + if lines.foldl (fun name line => line.selects name) selected = name
        then line.emittedBytes else 0
  | selected, [] => by rw [List.nil_append, bytesInto, bytesInto, Nat.zero_add, List.foldl_nil]; rfl
  | selected, first :: rest => by
      rw [List.cons_append, bytesInto, bytesInto_concat name line (first.selects selected) rest,
        bytesInto, List.foldl_cons, Nat.add_assoc]

theorem sectionBytes_concat (lines : List Line) (line : Line) (name : CString) :
    sectionBytes (lines ++ [line]) name
      = sectionBytes lines name + if selectedSection lines = name then line.emittedBytes else 0 :=
  bytesInto_concat name line _ lines

/-- A directive that is no data emits nothing. -/
theorem emittedBytes_of_argument {line : Line} {argument : Token} {type : DirectiveType}
    (h : line.argument type = some argument) (htype : type.isData = false) :
    line.emittedBytes = 0 := by
  refine emittedBytes_of_silent (eq_false_of_ne_true fun hemits => ?_)
  rw [argument_of_emits hemits htype] at h
  cases h

section Bytes

variable {done : List Line} {state : DirectiveState}

/-- The selected section is a supported one. -/
theorem Reached.selected_mem (h : Reached done state) : selectedSection done ∈ sectionNames := by
  induction h with
  | init => decide
  | step before processed ih =>
      rename_i done line last state state'
      rw [selectedSection_concat, Line.selects]
      cases processed with
      | emits emits =>
          rw [argument_of_emits emits rfl]
          exact ih
      | applies silent body_eq valid applied =>
          rename_i directive
          rw [argument_of_dir body_eq]
          split
          · rename_i htype
            rw [htype] at applied
            cases applied with
            | select supported => exact List.mem_toFinset.mpr (of_decide_eq_true supported)
            | declare declares => cases declares
          · exact ih

/-- **A section is at least as large as what is emitted into it.** -/
theorem Reached.sectionBytes_le (h : Reached done state) (name : CString) :
    sectionBytes done name ≤ (sectionOf state.context name).size := by
  induction h with
  | init => exact Nat.zero_le _
  | step before processed ih =>
      rename_i done line last state state'
      obtain ⟨hnames, hcurrent⟩ := before.sections
      have hsteps := processed.steps hnames
      rw [sectionBytes_concat, ← hcurrent]
      by_cases hname : name = state.context.current.name
      · subst hname
        rw [if_pos rfl]
        rw [hnames.sectionOf_current] at ih
        have hstep := hsteps.step
        generalize sectionOf state'.context state.context.current.name = s' at hstep
        cases hstep with
        | emit => exact Nat.add_le_add_right ih _
        | align directive aligned =>
            rw [emittedBytes_of_argument directive rfl]
            exact ih.trans (alignSection_eq_ok aligned).1
        | locate directive located =>
            rw [emittedBytes_of_argument directive rfl]
            exact ih.trans (locateSection_eq_ok located).1
        | keep silent =>
            rw [emittedBytes_of_silent silent]
            exact ih
      · rw [if_neg fun heq => hname heq.symm, hsteps.other name hname]
        exact ih

/-- **The sections together** hold what all lines emit. -/
theorem Reached.sum_sectionBytes (h : Reached done state) :
    ∑ name ∈ sectionNames, sectionBytes done name = emittedBytes done := by
  induction h with
  | init => exact Finset.sum_eq_zero fun _ _ => rfl
  | step before processed ih =>
      rename_i done line last state state'
      simp only [sectionBytes_concat]
      rw [Finset.sum_add_distrib, ih, Finset.sum_ite_eq, if_pos before.selected_mem,
        emittedBytes_append, emittedBytes_singleton]

end Bytes

/-! ## A whole source -/

section Source

variable {source : CString} {filename : Option CString} {lines : List Line} {image : Bytes}

/-- What is known of the lines of an accepted source. -/
theorem reached_of_zlasmAssemble (h : zlasmAssemble source filename = .ok image)
    (hlines : parseSource source = .ok lines) : ∃ state labels, Reached lines state ∧
      assembleContext source = .ok state.context ∧ asmProcessLabels state.context = .ok labels ∧
      asmTranslate labels state.context.lines = .ok image := by
  obtain ⟨context, labels, hcontext, hlabels, himage⟩ := zlasmAssemble_iff.mp h
  obtain ⟨lines', state, -, hlines', hstate, rfl, -⟩ := assembleContext_eq_ok.mp hcontext
  obtain rfl := Except.ok.inj (hlines.symm.trans hlines')
  have hreached := Reached.init.processLines hstate
  rw [List.nil_append] at hreached
  exact ⟨state, labels, hreached, hcontext, hlabels, himage⟩

/-- **Every section alone fits into the ROM.** -/
theorem sectionBytes_le_romSize (h : zlasmAssemble source filename = .ok image)
    (hlines : parseSource source = .ok lines) (name : CString) :
    sectionBytes lines name ≤ romSize := by
  obtain ⟨state, -, hreached, hcontext, -⟩ := reached_of_zlasmAssemble h hlines
  refine (hreached.sectionBytes_le name).trans ?_
  rw [sectionOf]
  cases hfind : state.context.sections.find? (·.name == name) with
  | none => exact Nat.zero_le _
  | some s =>
      have hinRom := (assembleContext_placed hcontext).1.placement.inRom s
        (List.mem_of_find?_eq_some hfind)
      exact (Nat.le_add_left _ _).trans hinRom

/-- **The size of a raw image** is that of the sections together. -/
theorem length_eq_sum_sectionBytes (h : zlasmAssemble source filename = .ok image)
    (hlines : parseSource source = .ok lines) :
    image.length = ∑ name ∈ sectionNames, sectionBytes lines name := by
  obtain ⟨state, labels, hreached, -, -, himage⟩ := reached_of_zlasmAssemble h hlines
  rw [hreached.sum_sectionBytes, ← hreached.emitted.2, rawOffset, List.take_length]
  exact asmTranslate_length himage

/-- The image has at most the size of the ROM, every address in its label table is at most that, and
`vm_loadDump` copies it into the ROM of every machine. -/
structure FitsMachine (source : CString) (image : Bytes) : Prop where
  size : image.length ≤ romSize
  labels : ∀ context labels, assembleContext source = .ok context →
    asmProcessLabels context = .ok labels → ∀ label ∈ labels, label.address ≤ romSize
  loaded : ∀ vm : VirtualMachine, (vmLoadDump vm image).cpsr = vm.cpsr ∧
    slice (vmLoadDump vm image).rom.bytes 0 image.length = image

/-- The sections of the source fit into one ROM. -/
def SectionsFit (source : CString) : Prop :=
  ∀ lines, parseSource source = .ok lines →
    ∑ name ∈ sectionNames, sectionBytes lines name ≤ romSize

/-- **When a raw image fits.**  It does exactly if its sections fit together. -/
theorem fitsMachine_iff (h : zlasmAssemble source filename = .ok image) :
    FitsMachine source image ↔ SectionsFit source := by
  constructor
  · intro hfits lines hlines
    rw [← length_eq_sum_sectionBytes h hlines]
    exact hfits.size
  · intro hfit
    obtain ⟨context, labels, hcontext, hlabels, himage⟩ := zlasmAssemble_iff.mp h
    obtain ⟨lines, -, -, hlines, -⟩ := assembleContext_eq_ok.mp hcontext
    have hsize := hfit lines hlines
    rw [← length_eq_sum_sectionBytes h hlines] at hsize
    refine ⟨hsize, fun context' labels' hcontext' hlabels' label hmem => ?_, fun vm => ?_⟩
    · obtain rfl := Except.ok.inj (hcontext.symm.trans hcontext')
      obtain ⟨k, hk, haddress⟩ := (mem_labels hlabels' label).mp hmem
      rw [asmTranslate_length himage] at hsize
      rw [haddress]
      refine (rawOffset_mono _ hk.lt.le).trans ?_
      rw [rawOffset, List.take_length]
      exact hsize
    · rw [vmLoadDump, if_neg (Nat.not_lt.mpr hsize)]
      refine ⟨rfl, slice_overlay_self ?_⟩
      rw [Nat.zero_add, vm.rom.size]
      exact hsize

/-- A source that emits into one section only. -/
theorem sectionsFit_of_single (h : zlasmAssemble source filename = .ok image) {name : CString}
    (hsingle : ∀ lines, parseSource source = .ok lines → ∀ other, other ≠ name →
      sectionBytes lines other = 0) : SectionsFit source := by
  intro lines hlines
  refine le_trans ?_ (sectionBytes_le_romSize h hlines name)
  calc ∑ other ∈ sectionNames, sectionBytes lines other
      = ∑ other ∈ sectionNames, if other = name then sectionBytes lines name else 0 := by
        refine Finset.sum_congr rfl fun other _ => ?_
        split
        · rename_i heq
          rw [heq]
        · rename_i hne
          exact hsingle lines hlines other hne
    _ ≤ sectionBytes lines name := by
        rw [Finset.sum_ite_eq']
        split
        · exact Nat.le_refl _
        · exact Nat.zero_le _

end Source

/-- A byte in each of two sections. -/
def twoBytes : CString := CString.lit ".byte 1\n.section data\n.byte 2\n"

theorem fitsMachine_twoBytes : FitsMachine twoBytes [1, 2] := by
  have himage : zlasmAssemble twoBytes none = .ok [1, 2] := by decide +kernel
  refine (fitsMachine_iff himage).mpr fun lines hlines => ?_
  rw [← length_eq_sum_sectionBytes himage hlines]
  decide

/-- Two sections of which each fills the ROM. -/
def twoSections : CString := CString.lit ".space 4096\n.section data\n.space 4096\n"

/-- **Two full sections are accepted**, and the machine rejects their image. -/
theorem twoSections_not_fitsMachine : ∃ image, zlasmAssemble twoSections none = .ok image ∧
    image.length = 2 * romSize ∧
    (vmLoadDump (vmInitialize 0) image).cpsr.ST = .errOutOfMemory ∧
    ¬FitsMachine twoSections image := by
  have hlength : (zlasmAssemble twoSections none).map List.length = .ok (2 * romSize) := by
    decide +kernel
  cases himage : zlasmAssemble twoSections none with
  | error e =>
      rw [himage] at hlength
      cases hlength
  | ok image =>
      rw [himage] at hlength
      have hsize : image.length = 2 * romSize := Except.ok.inj hlength
      have hlarger : image.length > romSize := by
        rw [hsize, romSize]
        decide
      refine ⟨image, rfl, hsize, ?_, fun hfits => absurd hfits.size (Nat.not_le.mpr hlarger)⟩
      rw [vmLoadDump, if_pos hlarger]
      rfl

end Zlvm
