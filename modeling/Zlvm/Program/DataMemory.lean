import Zlvm.Asm.Immediates
import Zlvm.Asm.Numbers
import Zlvm.Program.Modes
import Zlvm.Vm.FlatMemory
import Zlvm.Vm.Run

/-!
# Data directives in the memory

What the machine reads where a raw image holds the elements of a data directive.

* `elementWidth`, `HoldsData` — a line with a directive of integers of one width.
* `HoldsData.slice_data` — the bytes of the elements of a line.
* `vmRead_vmLoadDump` — reading from a dump.
* `DataAgrees` — the elements are read back, and an element that is too large is rejected.
* **`dataAgrees`** — this holds of every source.
-/

namespace Zlvm

open Loop Buffer VirtualMachine

/-! ## Data directives -/

/-- The width of the elements of a directive. -/
def elementWidth : DirectiveType → Option Width
  | .dirHword => some .hword
  | .dirWord => some .word
  | .dirDword => some .dword
  | _ => none

theorem Width.size_pos (width : Width) : 0 < width.size := by
  cases width <;> decide

/-- A line with a directive of integers of the given width. -/
structure HoldsData (line : Line) (width : Width) (directive : Directive) : Prop where
  body : line.body = .dir directive
  width : elementWidth directive.type = some width
  integers : ∀ token ∈ directive.argv, isIntegerToken token = true

section Directive

variable {directive : Directive} {width : Width} {data : Bytes}

/-- **The bytes of a directive** that is no `.ascii` and no `.space`. -/
theorem directiveGetRawData_numeric (h : elementWidth directive.type = some width) :
    directive.type.isData = true ∧
      directiveGetRawData directive
        = encodeNumericData directive width.size (256 ^ width.size - 1) := by
  unfold directiveGetRawData
  cases htype : directive.type <;> rw [htype] at h <;> cases h <;> exact ⟨rfl, rfl⟩

/-- The bytes of an integer. -/
theorem numericElement_integer {token : Token} (hinteger : isIntegerToken token = true)
    (size maximum : ℕ) : numericElement size maximum token = tokenGetIntValue token >>= fun value =>
      require (value ≤ maximum)
        (asmTokenFail .valueOutOfRange "Value does not fit the directive width" token) >>= fun _ =>
      .ok (LittleEndian.bytes size value) := by
  have hchar : ¬token.type = .charLiteral := by
    intro hchar
    rw [isIntegerToken, hchar] at hinteger
    cases hinteger
  unfold numericElement
  simp only [if_neg hchar, LittleEndian.map_shift]
  rfl

/-- The bytes of an integer that fits. -/
theorem numericElement_eq_ok {token : Token} (hinteger : isIntegerToken token = true)
    {bytes : Bytes} (h : numericElement width.size (256 ^ width.size - 1) token = .ok bytes) :
    ∃ value, Literal token value ∧ value < 256 ^ width.size ∧
      bytes = LittleEndian.bytes width.size value := by
  rw [numericElement_integer hinteger] at h
  simp only [bind_eq_ok, require_eq_ok] at h
  obtain ⟨value, hvalue, -, hle, h⟩ := h
  obtain rfl := Except.ok.inj h
  have hpositive : 0 < 256 ^ width.size := Nat.pow_pos (by omega)
  exact ⟨value, (literal_of_tokenGetIntValue hvalue).1, by omega, rfl⟩

/-- The bytes of the elements of a line. -/
theorem HoldsData.slice_data {line : Line} (h : HoldsData line width directive)
    (hdata : directiveGetRawData directive = .ok data) {i : ℕ} {token : Token}
    (htoken : directive.argv[i]? = some token) : ∃ value, Literal token value ∧
      value < 256 ^ width.size ∧ i * width.size + width.size ≤ data.length ∧
      slice data (i * width.size) width.size = LittleEndian.bytes width.size value := by
  rw [(directiveGetRawData_numeric h.width).2] at hdata
  obtain ⟨value, hliteral, hlt, hbytes⟩ := numericElement_eq_ok
    (h.integers token (List.mem_of_getElem? htoken)) (slice_encodeNumericData hdata htoken)
  refine ⟨value, hliteral, hlt, ?_, hbytes⟩
  have hsize := congrArg List.length hbytes
  rw [length_slice, LittleEndian.length_bytes] at hsize
  have hpositive := width.size_pos
  omega

end Directive

/-! ## Reading from a dump -/

section Dump

variable {vm : VirtualMachine} {program : Bytes} {address : ℕ} {width : Width}

/-- The memory of a machine with a dump begins with the dump. -/
theorem slice_flat_vmLoadDump (hsize : program.length ≤ romSize) {size : ℕ}
    (hin : address + size ≤ program.length) :
    slice (vmLoadDump vm program).flat address size = slice program address size := by
  rw [vmLoadDump, if_neg (Nat.not_lt.mpr hsize)]
  have hfront : (vm.rom.write 0 program).bytes
      = program ++ vm.rom.bytes.drop program.length :=
    overlay_front _ _ (by rw [vm.rom.size]; exact hsize)
  show slice ((vm.rom.write 0 program).bytes ++ vm.memory) address size = _
  rw [hfront, List.append_assoc, slice, slice, List.drop_append_of_le_length (by omega),
    List.take_append_of_le_length (by rw [List.length_drop]; omega)]

/-- **Reading from a dump.** -/
theorem vmRead_vmLoadDump (hram : romSize + vm.memorySize ≤ sizeMax)
    (hsize : program.length ≤ romSize) (hin : address + width.size ≤ program.length) :
    vmRead (vmLoadDump vm program) address width
      = (vmLoadDump vm program, LittleEndian.value (slice program address width.size)) := by
  have hend : (vmLoadDump vm program).memoryEnd = romSize + vm.memorySize := by
    rw [vmLoadDump, if_neg (Nat.not_lt.mpr hsize)]
    rfl
  rw [vmRead_eq width ⟨hend.trans_le hram, by omega⟩, slice_flat_vmLoadDump hsize hin]

end Dump

/-! ## A whole source -/

/-- Data directives agree with the memory: in every machine that has loaded the image of the source,
the elements of a directive are read from where its line begins on, and no source with an element
that is too large is assembled. -/
structure DataAgrees (source : CString) : Prop where
  read : ∀ filename image, zlasmAssemble source filename = .ok image → image.length ≤ romSize →
    ∀ before line after, parseSource source = .ok (before ++ line :: after) →
    ∀ width directive, HoldsData line width directive →
    ∀ vm : VirtualMachine, romSize + vm.memorySize ≤ sizeMax →
    ∀ (i : ℕ) (token : Token), directive.argv[i]? = some token →
      ∃ value, Literal token value ∧ value < 256 ^ width.size ∧
        vmRead (vmLoadDump vm image) (emittedBytes before + i * width.size) width
          = (vmLoadDump vm image, value)
  rejected : ∀ lines, parseSource source = .ok lines → ∀ line ∈ lines,
    ∀ width directive, HoldsData line width directive → ∀ token ∈ directive.argv,
    ∀ value, Literal token value → 256 ^ width.size ≤ value → ∀ filename,
      (∃ diagnostic, zlasmAssemble source filename = .error diagnostic) ∧
      ∃ diagnostic, zlasmAssembleObject true source filename = .error diagnostic
  overflow : ∀ state run tail value, LexerReaches source state → NumberRun state run tail →
    Numeral run value → 2 ^ 64 ≤ value → ∀ filename,
      (∃ diagnostic, zlasmAssemble source filename = .error diagnostic) ∧
      ∃ diagnostic, zlasmAssembleObject true source filename = .error diagnostic

section Source

variable {source : CString}

/-- What `assemble_source` rejects is rejected in both modes. -/
theorem rejected_of_assembleContext (h : ∀ context, assembleContext source ≠ .ok context)
    (filename : Option CString) :
    (∃ diagnostic, zlasmAssemble source filename = .error diagnostic) ∧
      ∃ diagnostic, zlasmAssembleObject true source filename = .error diagnostic := by
  constructor
  · cases himage : zlasmAssemble source filename with
    | error diagnostic => exact ⟨diagnostic, rfl⟩
    | ok image =>
        obtain ⟨context, -, hcontext, -⟩ := zlasmAssemble_iff.mp himage
        exact absurd hcontext (h context)
  · cases hobject : zlasmAssembleObject true source filename with
    | error diagnostic => exact ⟨diagnostic, rfl⟩
    | ok object =>
        obtain ⟨context, -, hcontext, -⟩ := zlasmAssembleObject_iff.mp hobject
        exact absurd hcontext (h context)

/-- A line with data emits. -/
theorem HoldsData.emits {line : Line} {width : Width} {directive : Directive}
    (h : HoldsData line width directive) : line.emits = true := by
  rw [Line.emits, h.body]
  exact (directiveGetRawData_numeric h.width).1

/-- The bytes that are recorded of a line with data. -/
theorem HoldsData.recorded {line : Line} {width : Width} {directive : Directive}
    (h : HoldsData line width directive) {body : PlacedBody} (hbody : Emits line.body body) :
    ∃ data, body = .raw data ∧ directiveGetRawData directive = .ok data := by
  rw [h.body] at hbody
  cases hbody with
  | raw type data_eq => exact ⟨_, rfl, data_eq⟩

/-- **Data directives agree with the memory.** -/
theorem dataAgrees (source : CString) : DataAgrees source where
  read := by
    intro filename image himage hsize before line after hlines width directive hholds vm hram i
      token htoken
    obtain ⟨context, labels, hcontext, -, htranslate⟩ := zlasmAssemble_iff.mp himage
    obtain ⟨lines', final, -, hlines', hfinal, rfl, -⟩ := assembleContext_eq_ok.mp hcontext
    obtain rfl := Except.ok.inj (hlines.symm.trans hlines')
    obtain ⟨mid, r, hrecorded⟩ := recordedAt_of_split hfinal hholds.emits
    obtain ⟨data, hbody, hdata⟩ := hholds.recorded hrecorded.body
    obtain ⟨value, hliteral, hlt, hin, hslice⟩ := hholds.slice_data hdata htoken
    obtain ⟨hbytes, hinside⟩ := asmTranslate_slice htranslate hrecorded.listed
    have hr : r.size = data.length := by rw [PlacedLine.size, hbody, PlacedBody.size]
    rw [rawLineBytes, hbody, hrecorded.rawPosition, hr] at hbytes
    rw [hrecorded.rawPosition, hr] at hinside
    obtain hbytes := Except.ok.inj hbytes
    refine ⟨value, hliteral, hlt, ?_⟩
    rw [vmRead_vmLoadDump hram hsize (by omega)]
    rw [hbytes, slice_slice _ hin] at hslice
    rw [hslice, LittleEndian.value_bytes_of_lt hlt]
  rejected := by
    intro lines hlines line hline width directive hholds token htoken value hliteral hlarge
    refine rejected_of_assembleContext fun context hcontext => ?_
    obtain ⟨lines', final, -, hlines', hfinal, rfl, -⟩ := assembleContext_eq_ok.mp hcontext
    obtain rfl := Except.ok.inj (hlines.symm.trans hlines')
    obtain ⟨before, after, rfl⟩ := List.append_of_mem hline
    obtain ⟨mid, r, hrecorded⟩ := recordedAt_of_split hfinal hholds.emits
    obtain ⟨data, -, hdata⟩ := hholds.recorded hrecorded.body
    obtain ⟨i, hi⟩ := List.mem_iff_getElem?.mp htoken
    obtain ⟨value', hliteral', hlt, -⟩ := hholds.slice_data hdata hi
    rw [hliteral.unique hliteral'] at hlarge
    exact absurd hlt (Nat.not_lt.mpr hlarge)
  overflow := by
    intro state run tail value hreaches hrun hnumeral hlarge
    refine rejected_of_assembleContext fun context hcontext => ?_
    obtain ⟨failure, hfails, -⟩ := (readsNumeral_of_run hrun).overflow value hnumeral hlarge
    rw [assembleContext, hreaches.lexSource_error hfails] at hcontext
    cases hcontext

end Source

/-! ## An example -/

/-- A directive behind an instruction. -/
def wordSource : CString := CString.lit "nop\n.word 1, 0x12345678\n"

/-- The statement of the first line. -/
def wordStatement : Statement where
  opcode := ⟨.id, CString.lit "nop", 0, 1, 1, 3⟩
  cond := none
  reg1 := none
  reg2 := none
  imm := none

/-- The second element. -/
def wordToken : Token := ⟨.intHex, CString.lit "12345678", 13, 2, 10, 10⟩

/-- The directive of the second line. -/
def wordDirective : Directive where
  type := .dirWord
  name := ⟨.directive, CString.lit "word", 4, 2, 1, 5⟩
  argv := [⟨.intDec, CString.lit "1", 10, 2, 7, 1⟩, wordToken]

theorem dataAgrees_wordSource :
    vmRead (vmLoadDump (vmInitialize 16) [0, 0, 0, 0, 0, 0, 0, 0, 1, 0, 0, 0, 0x78, 0x56, 0x34, 0x12])
        12 .word
      = (vmLoadDump (vmInitialize 16) [0, 0, 0, 0, 0, 0, 0, 0, 1, 0, 0, 0, 0x78, 0x56, 0x34, 0x12],
        0x12345678) := by
  have hlines : parseSource wordSource
      = .ok ([{ label := none, body := .stmt wordStatement }]
        ++ { label := none, body := .dir wordDirective } :: []) := by
    decide +kernel
  have hliteral : Literal wordToken 0x12345678 :=
    (literal_of_tokenGetIntValue (by decide +kernel)).1
  obtain ⟨value, hvalue, -, hread⟩ := (dataAgrees wordSource).read none
    [0, 0, 0, 0, 0, 0, 0, 0, 1, 0, 0, 0, 0x78, 0x56, 0x34, 0x12] (by decide +kernel) (by decide)
    _ _ _ hlines .word wordDirective ⟨rfl, rfl, by decide⟩ (vmInitialize 16) (by decide) 1 wordToken
    rfl
  obtain rfl := hvalue.unique hliteral
  exact hread

end Zlvm
