import Zlvm.Asm.Located
import Zlvm.Link.SectionTable
import Zlvm.Program.Objects

/-!
# `.align` in an executable

What becomes of an alignment when the object that has it is linked.

* `AlignedLine` — the first line that is emitted behind an `.align`, in the same section.
* `emittedAddress` — the address of a line in the executable.
* `AlignedLine.offset` — the offset of the line, and the alignment of its section.
* **`emittedAddress_aligned_iff`** — when the address is a multiple of the alignment.
-/

namespace Zlvm

open Loop Nested

/-! ## What is claimed to be aligned -/

/-- The `index`-th line that emits is the first one behind an `.align n` in the section of that name,
with no `.locate` of the section between them. -/
inductive AlignedLine (lines : List Line) : ℕ → CString → ℕ → Prop
  | intro {before between after : List Line} {align emit : Line} {argument : Token} {n : ℕ}
      (lines_eq : lines = (before ++ align :: between) ++ emit :: after)
      (directive : align.argument .dirAlign = some argument)
      (value : tokenGetIntValue argument = .ok n)
      (emits : emit.emits = true)
      (selected : selectedSection (before ++ align :: between) = selectedSection before)
      (quiet : Quiet (before ++ [align]) between (selectedSection before)) :
      AlignedLine lines n (selectedSection before) (emittedCount (before ++ align :: between))

/-- The absolute address of a line that an object has recorded: the address of its section plus its
offset. -/
def emittedAddress (images : List ZlImage) (executable : ZlImage) (object : ℕ)
    (context : AssemblerContext) (index : ℕ) : Option ℕ :=
  (context.lines[index]?).bind fun line =>
    (linkedSection images executable.sections object line.sectionIndex).map fun s =>
      s.address.toNat + line.sectionOffset

/-! ## In the object -/

/-- **The offset of the line** is a multiple of the alignment, and its section has at least that
alignment and the address that the source says. -/
theorem AlignedLine.offset {lines : List Line} {n index : ℕ} {name : CString}
    (h : AlignedLine lines n name index) {final : DirectiveState}
    (hfinal : processLines directiveInit lines = .ok final) :
    ∃ line s, final.context.lines[index]? = some line ∧
      final.context.sections[line.sectionIndex]? = some s ∧ n ∣ line.sectionOffset ∧
      n ∣ s.alignment.toNat ∧ s.address.toNat = locatedAddress lines name := by
  obtain ⟨lines_eq, directive, value, emits, selected, quiet⟩ := h
  rename_i before between after align emit argument
  subst lines_eq
  obtain ⟨mid, line, hrecorded⟩ := recordedAt_of_split hfinal emits
  obtain ⟨s, hs, hname⟩ := hrecorded.named
  obtain ⟨j, hj, haligned⟩ := hrecorded.reached.aligned rfl directive value quiet
  have hreached := Reached.init.processLines hfinal
  rw [List.nil_append] at hreached
  have hsection : sectionOf final.context (selectedSection before) = s := by
    rw [← selected, ← hname]
    exact hreached.sections.1.sectionOf_name (List.mem_of_getElem? hs)
  refine ⟨line, s, hrecorded.listed, hs, ?_, ?_, ?_⟩
  · rw [hrecorded.offset, selected, hj]
    exact haligned.size
  · -- the alignment behind the `.align` stays until the end
    obtain ⟨mid', next, hmid', hprocessed, -, hafter⟩ := processLines_split hfinal
    obtain ⟨i, rfl, haligned'⟩ := hmid'.aligned rfl directive value quiet
    obtain ⟨k, hk, hvalue⟩ := haligned'.alignment
    obtain ⟨hnames, -⟩ := hmid'.sections
    obtain ⟨k', hk', hvalue'⟩ := hprocessed.alignment hnames hvalue
    obtain ⟨k'', hk'', hvalue''⟩ :=
      alignment_of_processLines (hprocessed.steps hnames).names hafter hvalue'
    rw [← hsection, hvalue'']
    exact Nat.pow_dvd_pow 2 (hk.trans (hk'.trans hk''))
  · rw [← hsection]
    exact (hreached.located _).2

/-! ## In the executable -/

/-- **Where an aligned line lies**: its address is a multiple of the alignment exactly if `.locate`
has not put the section at an address that is none. -/
theorem emittedAddress_aligned_iff {alloc : LinkAllocator} {objects : List Bytes}
    {entrySymbol : Option CString} {output : Bytes}
    (hlink : zlLinkObjects alloc objects entrySymbol = .ok output) :
    ∃ images executable, DecodeTo objects images ∧ zlImageDecode allocAll output = .ok executable ∧
      ∀ object file source lines context n name index, objects[object]? = some file →
        AssemblesTo source file → parseSource source = .ok lines →
        assembleContext source = .ok context → AlignedLine lines n name index →
        ∃ address, emittedAddress images executable object context index = some address ∧
          (n ∣ address ↔ n ∣ locatedAddress lines name) := by
  obtain ⟨images, sections, symbols, final, executable, -, hrun⟩ := zlLinkObjects_linkRun hlink
  refine ⟨images, executable, hrun.decoded, hrun.output_eq, ?_⟩
  intro object file source lines context n name index hfile hassembles hlines hcontext haligned
  obtain ⟨image, himage, hdecode⟩ := hrun.decoded.getElem? hfile
  obtain ⟨context', hcontext', hof⟩ := hassembles.objectOf hdecode
  obtain rfl := Except.ok.inj (hcontext.symm.trans hcontext')
  obtain ⟨lines', final', labels, hlines', hfinal, rfl, -⟩ := assembleContext_eq_ok.mp hcontext
  obtain rfl := Except.ok.inj (hlines.symm.trans hlines')
  obtain ⟨line, s, hline, hs, hoffset, halignment, haddress⟩ := haligned.offset hfinal
  obtain ⟨data, hinput, -⟩ := hof.getElem?_sections hs
  have hlaidOut := hrun.linked.laidOut hrun.wellFormed
  obtain ⟨placed, hplaced, hposition⟩ := hlaidOut.linkedSection himage hinput
  refine ⟨placed.address.toNat + line.sectionOffset, ?_, ?_⟩
  · rw [emittedAddress, hline, Option.bind_some, hplaced]
    rfl
  · rw [Nat.dvd_add_left hoffset, ← haddress]
    by_cases hauto : s.address = 0 ∧ s.flags &&& 1 = 0
    · -- the linker chooses an aligned address
      have hleast := hlaidOut.automatic _ _ placed hposition hplaced hauto.1 hauto.2
      rw [hauto.1]
      exact iff_of_true (halignment.trans hleast.1.1) (Nat.dvd_zero n)
    · have hlocated : s.address ≠ 0 ∨ s.flags &&& 1 ≠ 0 := by
        by_cases hzero : s.address = 0
        · exact .inr fun hflag => hauto ⟨hzero, hflag⟩
        · exact .inl hzero
      rw [hlaidOut.located _ _ placed hposition hplaced hlocated]
      rfl

/-! ## Two examples -/

/-- Two bytes with an `.align` between them. -/
def alignedBytes : CString := CString.lit "start: .byte 1\n.align 16\n.byte 2\n"

def alignedLines : List Line :=
  [directiveLine .dirByte "byte" "1" 1 7 8 (some (CString.lit "start")),
   directiveLine .dirAlign "align" "16" 2 15 1 none,
   directiveLine .dirByte "byte" "2" 3 25 1 none]

def alignedObject : ZlImage where
  kind := imageObject
  sections := [{ name := some (CString.lit "text"), type := sectionText, flags := 0,
                 alignment := 16, address := 0,
                 data := .bytes (1 :: (List.replicate 15 0 ++ [2])) }]
  symbols := [{ name := some (CString.lit "start"), sectionIndex := 0, value := 0, size := 0,
                binding := symbolLocal, type := symbolFunction }]

/-- The linker puts the section at 16. -/
def alignedExecutable : ZlImage where
  kind := imageExecutable
  entryPoint := 16
  sections := [{ name := some (CString.lit "text"), type := sectionText, flags := 0,
                 alignment := 16, address := 16,
                 data := .bytes (1 :: (List.replicate 15 0 ++ [2])) }]

theorem quiet_nil (before : List Line) (name : CString) : Quiet before [] name :=
  fun _ _ _ h => absurd h.symm (List.append_ne_nil_of_right_ne_nil _ (List.cons_ne_nil _ _))

theorem alignedLine_alignedLines : AlignedLine alignedLines 16 (CString.lit "text") 1 :=
  @AlignedLine.intro alignedLines [directiveLine .dirByte "byte" "1" 1 7 8 _] [] [] _ _ _ 16 rfl rfl
    (by decide +kernel) rfl rfl (quiet_nil _ _)

theorem emittedAddress_aligned_iff_alignedBytes :
    ∃ images executable context address, DecodeTo [serialize alignedObject] images ∧
      zlImageDecode allocAll (serialize alignedExecutable) = .ok executable ∧
      assembleContext alignedBytes = .ok context ∧
      emittedAddress images executable 0 context 1 = some address ∧
      (16 ∣ address ↔ 16 ∣ locatedAddress alignedLines (CString.lit "text")) := by
  have hassembles : AssemblesTo alignedBytes (serialize alignedObject) :=
    ⟨true, none, by decide +kernel⟩
  have hdecode : zlImageDecode allocAll (serialize alignedObject) = .ok alignedObject := by
    decide +kernel
  obtain ⟨images, executable, himages, hexecutable, haligned⟩ :=
    @emittedAddress_aligned_iff (fun _ => true) [serialize alignedObject] none
      (serialize alignedExecutable) (by decide +kernel)
  obtain ⟨context, hcontext, -⟩ := hassembles.objectOf hdecode
  obtain ⟨address, haddress, hiff⟩ := haligned 0 _ alignedBytes alignedLines context 16 _ 1 rfl
    hassembles (by decide +kernel) hcontext alignedLine_alignedLines
  exact ⟨images, executable, context, address, himages, hexecutable, hcontext, haddress, hiff⟩

/-- A byte behind an `.align`, in a section that `.locate` has put at 12. -/
def locatedBytes : CString := CString.lit ".locate 12\n.align 8\nstart: .byte 1\n"

def locatedLines : List Line :=
  [directiveLine .dirLocate "locate" "12" 1 0 1 none,
   directiveLine .dirAlign "align" "8" 2 11 1 none,
   directiveLine .dirByte "byte" "1" 3 27 8 (some (CString.lit "start"))]

def locatedObject : ZlImage where
  kind := imageObject
  sections := [{ name := some (CString.lit "text"), type := sectionText, flags := 1,
                 alignment := 8, address := 12, data := .bytes [1] }]
  symbols := [{ name := some (CString.lit "start"), sectionIndex := 0, value := 0, size := 0,
                binding := symbolLocal, type := symbolFunction }]

def locatedExecutable : ZlImage where
  kind := imageExecutable
  entryPoint := 12
  sections := [{ name := some (CString.lit "text"), type := sectionText, flags := 1,
                 alignment := 8, address := 12, data := .bytes [1] }]

def locatedContext : AssemblerContext where
  entry := none
  globals := []
  externals := []
  lines := [{ label := some (CString.lit "start"), body := .raw [1], sectionIndex := 0,
              sectionOffset := 0 }]
  sections := [{ newSection (CString.lit "text") with
                 flags := 1, address := 12, alignment := 8, size := 1 }]
  currentSection := 0
  selected := by simp

/-- **A line that is not aligned**: the byte behind `.align 8` lies at address 12. -/
theorem locatedBytes_not_aligned :
    zlasmAssembleObject true locatedBytes none = .ok (serialize locatedObject) ∧
      parseSource locatedBytes = .ok locatedLines ∧
      assembleContext locatedBytes = .ok locatedContext ∧
      AlignedLine locatedLines 8 (CString.lit "text") 0 ∧
      zlLinkObjects (fun _ => true) [serialize locatedObject] none
        = .ok (serialize locatedExecutable) ∧
      zlImageDecode allocAll (serialize locatedObject) = .ok locatedObject ∧
      zlImageDecode allocAll (serialize locatedExecutable) = .ok locatedExecutable ∧
      emittedAddress [locatedObject] locatedExecutable 0 locatedContext 0 = some 12 ∧
      ¬8 ∣ 12 := by
  refine ⟨by decide +kernel, by decide +kernel, by decide +kernel, ?_, by decide +kernel,
    by decide +kernel, by decide +kernel, rfl, by decide⟩
  exact @AlignedLine.intro locatedLines [directiveLine .dirLocate "locate" "12" 1 0 1 none] [] [] _ _
    _ 8 rfl rfl (by decide +kernel) rfl rfl (quiet_nil _ _)

end Zlvm
