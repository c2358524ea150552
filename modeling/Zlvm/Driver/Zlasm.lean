import Mathlib.Data.List.TakeWhile
import Zlvm.Asm.Memory
import Zlvm.Lib.Stdio

/-!
# The assembler as a program

`asm/main.c`: the arguments, the loop that reads the source, and the file that is written.  Paths
are the strings that name files, so two paths are two files.

* `readLoop` — the loop with the growing buffer; `readLoop_eq` — it reads everything.
* `deriveOutputPath`, `deriveOutputPath_eq_self_iff` — the output path without `-o`, and when it is
  the path of the source.
* `zlasmMain` — the program.
* `Wrote` — what a program does that makes one file; **`zlasmMain_wrote`** — the assembler is one.
-/

namespace Zlvm

open CStdio

/-! ## Texts -/

/-- A text that a program prints. -/
def text (s : String) : Bytes := (CString.lit s).bytes

/-- A message with a path behind it. -/
def complaint (message : String) (path : CString) : Bytes := text message ++ path.bytes ++ text "\n"

/-- `%zu` -/
def decimal (n : ℕ) : Bytes := (Nat.toDigits 10 n).map fun digit => UInt8.ofNat digit.toNat

/-- `%04d` -/
def decimal4 (n : ℕ) : Bytes := List.replicate (4 - (decimal n).length) 0x30 ++ decimal n

/-- The number of a diagnostic code. -/
def ZlasmDiagnosticCode.toNat : ZlasmDiagnosticCode → ℕ
  | .none => 0
  | .invalidArgument => 1
  | .outOfMemory => 2
  | .unterminatedLiteral => 3
  | .unexpectedToken => 4
  | .unknownDirective => 5
  | .invalidDirective => 6
  | .malformedNumber => 7
  | .numberOverflow => 8
  | .unknownOpcode => 9
  | .invalidOperands => 10
  | .unknownCondition => 11
  | .unknownRegister => 12
  | .unknownLabel => 13
  | .valueOutOfRange => 14
  | .outputTooLarge => 15
  | .internalError => 16
  | .malformedLiteral => 17
  | .macroDuplicateDefinition => 18
  | .macroUndefined => 19
  | .macroInvalidArgument => 20
  | .macroRecursion => 21
  | .sectionError => 22
  | .linkError => 23

/-- `print_diagnostic`. -/
def printDiagnostic (diagnostic : ZlasmDiagnostic) : Bytes :=
  let failure := diagnostic.failure
  let error := text ": error ZLASM" ++ decimal4 failure.code.toNat ++ text ": "
    ++ text failure.message
  match failure.location with
  | some place =>
      diagnostic.sourceFilename.bytes ++ text ":" ++ decimal place.line ++ text ":"
        ++ decimal place.column ++ error ++ text " [bytes " ++ decimal place.byteOffset
        ++ text ".." ++ decimal (place.byteOffset + place.byteLength) ++ text ")\n"
  | none => diagnostic.sourceFilename.bytes ++ error ++ text "\n"

/-! ## Reading a source -/

/-- The buffer of a file that is being read; there is always room in it. -/
structure ReadBuffer where
  source : Bytes
  capacity : ℕ
  room : source.length < capacity

/-- The empty buffer of `growth_size` bytes. -/
def ReadBuffer.init : ReadBuffer where
  source := []
  capacity := 1024
  room := by decide

/-- A full buffer, enlarged by `growth_size`. -/
def ReadBuffer.grow (buffer : ReadBuffer) (bytes : Bytes)
    (h : bytes.length = buffer.capacity - buffer.source.length) : ReadBuffer where
  source := buffer.source ++ bytes
  capacity := buffer.capacity + 1024
  room := by
    have hroom := buffer.room
    rw [List.length_append]
    omega

/-- The loop of `read_source`: read as much as there is room for, until a read gets less. -/
def readLoop (buffer : ReadBuffer) (stream : Stream) : Bytes × Stream :=
  let available := buffer.capacity - buffer.source.length
  let read := fread stream available
  if h : read.1.length < available then (buffer.source ++ read.1, read.2)
  else readLoop (buffer.grow read.1 (by
    have hle : read.1.length ≤ available := List.length_take_le _ _
    omega)) read.2
termination_by stream.rest.length
decreasing_by
  have hroom := buffer.room
  simp only [read, available, fread, List.length_take, List.length_drop, not_lt] at h ⊢
  omega

/-- **The loop reads everything**, and `ferror` then tells an error from the end. -/
theorem readLoop_eq (buffer : ReadBuffer) (stream : Stream) :
    readLoop buffer stream
      = (buffer.source ++ stream.rest,
        { stream with rest := [], error := stream.error || stream.broken }) := by
  induction hn : stream.rest.length using Nat.strong_induction_on generalizing buffer stream with
  | _ n ih =>
      have hroom := buffer.room
      rw [readLoop]
      by_cases hlt : stream.rest.length < buffer.capacity - buffer.source.length
      · rw [dif_pos (by rw [fread_of_lt hlt]; exact hlt), fread_of_lt hlt]
      · have hle := Nat.not_lt.mp hlt
        rw [dif_neg (by rw [fread_of_le hle, List.length_take]; omega),
          ih (stream.rest.length - (buffer.capacity - buffer.source.length)) (by omega) _ _
            (by rw [fread_of_le hle, List.length_drop])]
        simp only [ReadBuffer.grow, fread_of_le hle, List.append_assoc, List.take_append_drop]

/-- What the C functions see of a buffer: the bytes before the first NUL. -/
def textOf (bytes : Bytes) : CString :=
  ⟨bytes.takeWhile (· != 0), fun h => by simpa using List.mem_takeWhile_imp h⟩

/-- A file without a NUL is seen whole. -/
theorem textOf_bytes (source : CString) : textOf source.bytes = source := by
  refine CString.ext (List.takeWhile_eq_self_iff.mpr fun character hmem => ?_)
  rw [bne_iff_ne]
  rintro rfl
  exact source.nulFree hmem

/-- `read_source` up to the assembly: the source, or what is said when it cannot be read. -/
def readSource (faults : Faults CString) (files : Files CString) (path : CString) :
    Except Bytes CString :=
  match fopen faults files path with
  | none => .error (complaint "Unable to open assembly source: " path)
  | some stream =>
      let (source, stream) := readLoop ReadBuffer.init stream
      if stream.error then .error (complaint "Unable to read assembly source: " path)
      else if !faults.closes path then
        .error (complaint "Unable to close assembly source: " path)
      else .ok (textOf source)

/-- **A source is read** if its file can be read, and then whole up to its first NUL. -/
theorem readSource_eq_ok {faults : Faults CString} {files : Files CString} {path source : CString} :
    readSource faults files path = .ok source ↔
      ∃ bytes, contents faults files path = some bytes ∧ source = textOf bytes := by
  unfold readSource
  rcases @fopen_cases _ faults files path with ⟨hopen, hcontents⟩ | ⟨bytes, hopen, hcontents⟩ |
    ⟨rest, hopen, hcontents⟩
  · simp [hopen, hcontents]
  · cases hcloses : faults.closes path <;>
      simp [hopen, hcontents, readLoop_eq, ReadBuffer.init, hcloses, eq_comm]
  · simp [hopen, hcontents, readLoop_eq]

/-! ## The output path -/

/-- `strrchr`: where a character occurs last. -/
def strrchr (character : Byte) : Bytes → Option ℕ
  | [] => none
  | first :: rest =>
      match strrchr character rest with
      | some index => some (index + 1)
      | none => if first = character then some 0 else none

/-- The extension of an output. -/
def outputExtension (object : Bool) : CString := CString.lit (if object then ".zlo" else ".bin")

/-- `stem_length`: up to the last dot, if no separator follows it. -/
def stemLength (path : CString) : ℕ :=
  match strrchr 0x2E path.bytes, strrchr 0x2F path.bytes with
  | some dot, none => dot
  | some dot, some separator => if separator < dot then dot else path.length
  | none, _ => path.length

/-- `derive_output_path`. -/
def deriveOutputPath (path : CString) (object : Bool) : CString :=
  (path.take (stemLength path)).append (outputExtension object)

section Path

variable {character : Byte}

theorem strrchr_of_not_mem {text : Bytes} (h : character ∉ text) :
    strrchr character text = none := by
  induction text with
  | nil => rfl
  | cons first rest ih =>
      rw [List.mem_cons, not_or] at h
      rw [strrchr, ih h.2]
      exact if_neg (Ne.symm h.1)

theorem strrchr_append (before : Bytes) {after : Bytes} (h : character ∉ after) :
    strrchr character (before ++ after) = strrchr character before := by
  induction before with
  | nil => exact strrchr_of_not_mem h
  | cons first rest ih => rw [List.cons_append, strrchr, strrchr, ih]

theorem strrchr_concat (before : Bytes) :
    strrchr character (before ++ [character]) = some before.length := by
  induction before with
  | nil => simp [strrchr]
  | cons first rest ih => simp [strrchr, ih]

theorem strrchr_lt {text : Bytes} {index : ℕ} (h : strrchr character text = some index) :
    index < text.length := by
  induction text generalizing index with
  | nil => cases h
  | cons first rest ih =>
      rw [strrchr] at h
      split at h
      · rename_i index' hindex
        obtain rfl := Option.some.inj h
        exact Nat.succ_lt_succ (ih hindex)
      · split at h
        · obtain rfl := Option.some.inj h
          exact Nat.succ_pos _
        · cases h

/-- **When the derived path is the path of the source**: if it has the extension of the output. -/
theorem deriveOutputPath_eq_self_iff (path : CString) (object : Bool) :
    deriveOutputPath path object = path ↔ (outputExtension object).bytes <:+ path.bytes := by
  obtain ⟨rest, hextension, hdot, hseparator⟩ : ∃ rest,
      (outputExtension object).bytes = 0x2E :: rest ∧ (0x2E : Byte) ∉ rest ∧
        (0x2F : Byte) ∉ (0x2E : Byte) :: rest := by
    cases object with
    | false => exact ⟨[0x62, 0x69, 0x6E], by decide, by decide, by decide⟩
    | true => exact ⟨[0x7A, 0x6C, 0x6F], by decide, by decide, by decide⟩
  constructor
  · intro h
    exact ⟨_, congrArg CString.bytes h⟩
  · rintro ⟨stem, hstem⟩
    have hlast : strrchr 0x2E path.bytes = some stem.length := by
      rw [← hstem, hextension, List.append_cons, strrchr_append _ hdot, strrchr_concat]
    have hlength : stemLength path = stem.length := by
      rw [stemLength, hlast]
      cases hslash : strrchr 0x2F path.bytes with
      | none => rfl
      | some separator =>
          rw [← hstem, hextension, strrchr_append _ hseparator] at hslash
          exact if_pos (strrchr_lt hslash)
    refine CString.ext ?_
    show path.bytes.take (stemLength path) ++ (outputExtension object).bytes = path.bytes
    rw [hlength, ← hstem, List.take_left]

end Path

/-! ## The program -/

/-- What a program leaves behind. -/
structure Ran where
  status : ℕ
  stderr : Bytes
  files : Files CString

/-- `EXIT_SUCCESS` -/
def exitSuccess : ℕ := 0
/-- `EXIT_FAILURE` -/
def exitFailure : ℕ := 1

/-- The arguments: the mode, the source and the output, or what is said about them. -/
def zlasmArguments (argv : List CString) : Except Bytes (Bool × CString × CString) :=
  let argument (index : ℕ) : CString := argv.getD index CString.empty
  let object := decide (argv.length > 1 ∧ argument 1 = CString.lit "-c")
  let inputIndex := if object then 2 else 1
  if argv.length ≠ inputIndex + 1 ∧ argv.length ≠ inputIndex + 3 then
    .error (text "Usage: " ++ (argument 0).bytes
      ++ text " [-c] <assembly-file> [-o <output-file>]\n")
  else if argv.length = inputIndex + 3 ∧ argument (inputIndex + 1) ≠ CString.lit "-o" then
    .error (text "Expected -o before the output path\n")
  else
    let input := argument inputIndex
    .ok (object, input, if argv.length = inputIndex + 3 then argument (inputIndex + 2)
      else deriveOutputPath input object)

/-- `write_binary`. -/
def writeBinary (faults : Faults CString) (files : Files CString) (path : CString) (data : Bytes) :
    Ran :=
  match store faults files path data with
  | (files, .stored) => ⟨exitSuccess, [], files⟩
  | (files, .notOpened) => ⟨exitFailure, complaint "Unable to open output file: " path, files⟩
  | (files, .notWritten) => ⟨exitFailure, complaint "Unable to write output file: " path, files⟩
  | (files, .notClosed) => ⟨exitFailure, complaint "Unable to close output file: " path, files⟩

/-- `main`. -/
def zlasmMain (faults : Faults CString) (argv : List CString) (files : Files CString) : Ran :=
  match zlasmArguments argv with
  | .error stderr => ⟨exitFailure, stderr, files⟩
  | .ok (object, input, output) =>
      match readSource faults files input with
      | .error stderr => ⟨exitFailure, stderr, files⟩
      | .ok source =>
          match zlasmAssembleMode object (some source) (some input) with
          | .error diagnostic => ⟨exitFailure, printDiagnostic diagnostic, files⟩
          | .ok binary => writeBinary faults files output binary

/-! ## What the program does -/

/-- What a program does that makes the file `output`, if it comes to contents for it at all. -/
inductive Wrote (files : Files CString) (output : CString) (made : Option Bytes) : Ran → Prop
  | refused {stderr : Bytes} (made_eq : made = none) :
      Wrote files output made ⟨exitFailure, stderr, files⟩
  | spoiled {stderr bytes : Bytes} {files' : Files CString} (made_eq : made = some bytes)
      (files_eq : files' = files ∨
        ∃ limit, files' = Function.update files output (some (bytes.take limit))) :
      Wrote files output made ⟨exitFailure, stderr, files'⟩
  | stored {bytes : Bytes} (made_eq : made = some bytes) :
      Wrote files output made
        ⟨exitSuccess, [], Function.update files output (some bytes)⟩

/-- The binary of a source file, if it can be read and is accepted. -/
def assembledFile (faults : Faults CString) (files : Files CString) (object : Bool)
    (input : CString) : Option Bytes :=
  (contents faults files input).bind fun bytes =>
    (zlasmAssembleMode object (some (textOf bytes)) (some input)).toOption

section Main

variable {faults : Faults CString} {files : Files CString} {output : CString}

theorem wrote_writeBinary (data : Bytes) :
    Wrote files output (some data) (writeBinary faults files output data) := by
  obtain ⟨files', result, hstore, h⟩ := @store_cases _ _ faults files output data
  rw [writeBinary, hstore]
  rcases h with ⟨rfl, rfl⟩ | ⟨rfl, rfl⟩ | ⟨rfl | rfl, hlimit⟩
  · exact .stored rfl
  · exact .spoiled rfl (.inl rfl)
  · exact .spoiled rfl (.inr hlimit)
  · exact .spoiled rfl (.inr hlimit)

/-- Nothing but the output changes. -/
theorem Wrote.files_eq {made : Option Bytes} {ran : Ran} (h : Wrote files output made ran)
    {path : CString} (hne : path ≠ output) : ran.files path = files path := by
  cases h with
  | refused => rfl
  | stored => exact Function.update_of_ne hne _ _
  | spoiled _ hfiles =>
      rcases hfiles with rfl | ⟨limit, rfl⟩
      · rfl
      · exact Function.update_of_ne hne _ _

/-- A success has written what was made. -/
theorem Wrote.of_success {made : Option Bytes} {ran : Ran} (h : Wrote files output made ran)
    (hstatus : ran.status = exitSuccess) :
    ∃ bytes, made = some bytes ∧ ran.files = Function.update files output (some bytes) := by
  cases h with
  | refused => cases hstatus
  | spoiled => cases hstatus
  | stored made_eq => exact ⟨_, made_eq, rfl⟩

/-- **The assembler makes one file** or refuses to. -/
theorem zlasmMain_wrote {argv : List CString} {object : Bool} {input : CString}
    (h : zlasmArguments argv = .ok (object, input, output)) :
    Wrote files output (assembledFile faults files object input) (zlasmMain faults argv files) := by
  rw [zlasmMain, h]
  dsimp only
  cases hread : readSource faults files input with
  | error stderr =>
      refine .refused ?_
      rw [assembledFile]
      cases hcontents : contents faults files input with
      | none => rfl
      | some bytes =>
          rw [readSource_eq_ok.mpr ⟨bytes, hcontents, rfl⟩] at hread
          cases hread
  | ok source =>
      obtain ⟨bytes, hcontents, rfl⟩ := readSource_eq_ok.mp hread
      dsimp only
      have hmade : assembledFile faults files object input
          = (zlasmAssembleMode object (some (textOf bytes)) (some input)).toOption := by
        rw [assembledFile, hcontents]
        rfl
      rw [hmade]
      cases zlasmAssembleMode object (some (textOf bytes)) (some input) with
      | error diagnostic => exact .refused rfl
      | ok binary => exact wrote_writeBinary binary

/-- A host on which nothing fails. -/
def noFaults : Faults CString where
  opens _ := true
  readLimit _ := none
  seeks _ := true
  closes _ := true
  creates _ := true
  writeLimit _ := none
  closeLimit _ := none

/-- On such a host a source that is accepted is stored. -/
theorem zlasmMain_noFaults {argv : List CString} {object : Bool} {input source : CString}
    {binary : Bytes} (hargs : zlasmArguments argv = .ok (object, input, output))
    (hsource : files input = some source.bytes) (hbinary : assembly object source = .ok binary) :
    zlasmMain noFaults argv files
      = ⟨exitSuccess, [], Function.update files output (some binary)⟩ := by
  have hread : readSource noFaults files input = .ok source :=
    readSource_eq_ok.mpr ⟨_, by simp [contents, noFaults, hsource], (textOf_bytes _).symm⟩
  rw [zlasmMain, hargs]
  dsimp only
  rw [hread]
  dsimp only
  rw [zlasmAssembleMode_some, hbinary]
  rfl

/-- The arguments without `-o`, and the mode and the paths that they come to. -/
theorem zlasmArguments_derived (program input : CString) (object : Bool) :
    zlasmArguments (program :: if object then [CString.lit "-c", input] else [input])
        = .ok (object, input, deriveOutputPath input object) ∨
      (∃ stderr, zlasmArguments (program :: if object then [CString.lit "-c", input] else [input])
        = .error stderr) ∧ object = false ∧ input = CString.lit "-c" := by
  cases object with
  | true => exact .inl rfl
  | false =>
      by_cases hinput : input = CString.lit "-c"
      · subst hinput
        exact .inr ⟨⟨_, rfl⟩, rfl, rfl⟩
      · refine .inl ?_
        simp [zlasmArguments, hinput]

/-- **The source survives**: without `-o` the assembler never writes to its source, whatever the
files hold and whatever fails, exactly if the name of the source does not end like an output. -/
theorem zlasmMain_keeps_source_iff (program input : CString) (object : Bool) :
    (∀ faults files, (zlasmMain faults
        (program :: if object then [CString.lit "-c", input] else [input]) files).files input
          = files input) ↔ ¬(outputExtension object).bytes <:+ input.bytes := by
  constructor
  · intro hkeeps hextension
    have hderived := (deriveOutputPath_eq_self_iff input object).mpr hextension
    have hassembled : (assembly object (CString.lit "NOP")).toOption.any
        (· ≠ (CString.lit "NOP").bytes) = true := by
      cases object <;> decide +kernel
    cases hbinary : assembly object (CString.lit "NOP") with
    | error failure =>
        rw [hbinary] at hassembled
        cases hassembled
    | ok binary =>
        rw [hbinary] at hassembled
        have hne : binary ≠ (CString.lit "NOP").bytes := by
          simpa [Except.toOption] using hassembled
        have hkept := hkeeps noFaults fun _ => some (CString.lit "NOP").bytes
        rcases zlasmArguments_derived program input object with hargs | ⟨-, rfl, rfl⟩
        · rw [zlasmMain_noFaults hargs rfl hbinary, hderived] at hkept
          exact hne (by simpa using hkept)
        · exact absurd hextension (by decide)
  · intro hextension faults files
    rcases zlasmArguments_derived program input object with hargs | ⟨⟨stderr, hargs⟩, -, -⟩
    · refine (zlasmMain_wrote hargs).files_eq fun hinput => hextension ?_
      exact (deriveOutputPath_eq_self_iff input object).mp hinput.symm
    · rw [zlasmMain, hargs]

end Main

end Zlvm
