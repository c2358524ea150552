import Zlvm.Driver.Zlasm
import Zlvm.Lib.Lockstep
import Zlvm.Vm.Run

/-!
# The emulator as a program

`emulator/main.c` assembles a source and runs the image at once, or runs an image that the assembler
has stored in a file.

* `zlvmMain` — the program; no answer if it runs longer than the given number of passes.
* **`zlvmMain_status`** — when there is a status, and what it says.
* **`zlvmMain_modes`** — when it makes no difference whether a source is run or the file that the
  assembler makes of it.
-/

namespace Zlvm

open CStdio Loop

/-! ## Texts -/

/-- The number of a state. -/
def State.toNat : State → ℕ
  | .halted => 0
  | .normal => 1
  | .errBegin => 2
  | .errOutOfMemory => 3
  | .errStackOverflow => 4
  | .errStackUnderflow => 5
  | .errDivisionByZero => 6
  | .errInvalidCondition => 7
  | .errInvalidOpcode => 8
  | .errEnd => 9
  | .total => 10

/-- An error has a number of its own. -/
theorem State.toNat_of_isError {state : State} (h : state.isError = true) :
    state.toNat ≠ 0 ∧ state.toNat ≠ 1 := by
  cases state <;> simp_all [State.toNat, State.isError]

/-- `print_state`. -/
def printState : State → Bytes
  | .normal => text "Normal\n"
  | .errOutOfMemory => text "Error: Out of memory\n"
  | .errStackOverflow => text "Error: Stack overflow\n"
  | .errStackUnderflow => text "Error: Stack underflow\n"
  | .errDivisionByZero => text "Error: Division by zero\n"
  | .errInvalidCondition => text "Error: Invalid condition\n"
  | .errInvalidOpcode => text "Error: Invalid opcode\n"
  | .halted => text "Halted\n"
  | _ => text "Unknown error\n"

/-- `memory_size` -/
def emulatorRamSize : ℕ := 4096

/-- The line between what the emulator prints and what its program prints. -/
def separator : Bytes := text "==========================================\n"

/-- What the emulator prints before anything else. -/
def banner : Bytes :=
  text "Encoded instruction size: " ++ decimal instructionSize ++ text " bytes\n"
    ++ text "Operations count: " ++ decimal opcodeTotal.toNat ++ text "\n"
    ++ text "Size of machine word: " ++ decimal wordSize.toNat ++ text " bytes\n"
    ++ text "ROM size: " ++ decimal romSize ++ text " bytes\n"
    ++ text "RAM size: " ++ decimal emulatorRamSize ++ text " bytes\n"
    ++ text "Stack size: " ++ decimal stackSize.toNat ++ text " bytes\n" ++ separator

/-- What the emulator prints about a state in which a run has ended. -/
def trailer (state : State) : Bytes :=
  separator ++ text "Result code: " ++ decimal state.toNat ++ text "\n" ++ printState state

/-! ## The images -/

/-- What is said about a file that cannot be read to its end or closed. -/
def readMessages (failed closed : Bool) (noun : String) (path : CString) : Bytes :=
  (if failed then complaint ("Unable to read " ++ noun ++ ": ") path else [])
    ++ if closed then [] else complaint ("Unable to close " ++ noun ++ ": ") path

/-- `read_source`: the image of a source. -/
def emulatorReadSource (faults : Faults CString) (files : Files CString) (path : CString) :
    Except Bytes Bytes :=
  match fopen faults files path with
  | none => .error (complaint "Unable to open assembly source: " path)
  | some stream =>
      let (source, stream) := readLoop ReadBuffer.init stream
      if stream.error || !faults.closes path then
        .error (readMessages stream.error (faults.closes path) "assembly source" path)
      else (zlasmAssemble (textOf source) (some path)).mapError printDiagnostic

/-- `read_binary`: an image from a file.  One byte more than fits is asked for. -/
def readBinary (faults : Faults CString) (files : Files CString) (path : CString) :
    Except Bytes Bytes :=
  match fopen faults files path with
  | none => .error (complaint "Unable to open binary image: " path)
  | some stream =>
      let (binary, stream) := fread stream (romSize + 1)
      if stream.error || !faults.closes path then
        .error (readMessages stream.error (faults.closes path) "binary image" path)
      else if binary = [] then .error (complaint "Binary image is empty: " path)
      else if binary.length > romSize then
        .error (complaint "Binary image exceeds ROM size: " path)
      else .ok binary

/-- The image that the arguments ask for. -/
def zlvmLoad (faults : Faults CString) (argv : List CString) (files : Files CString) :
    Except Bytes Bytes :=
  let argument (index : ℕ) : CString := argv.getD index CString.empty
  if argv.length = 3 ∧ argument 1 = CString.lit "--binary" then
    readBinary faults files (argument 2)
  else if argv.length = 2 ∧ argument 1 ≠ CString.lit "--binary" then
    emulatorReadSource faults files (argument 1)
  else
    .error (text "Usage: " ++ (argument 0).bytes ++ text " <assembly-file>\n       "
      ++ (argument 0).bytes ++ text " --binary <binary-file>\n")

/-! ## The program -/

/-- What is left when the emulator has ended. -/
structure Outcome where
  status : ℕ
  stdout : Bytes
  stderr : Bytes
deriving DecidableEq

/-- The machine that runs an image. -/
def emulatorMachine (input image : Bytes) : VirtualMachine :=
  vmLoadDump { vmInitialize emulatorRamSize with host := ⟨input, []⟩ } image

/-- `main`, with standard input `input`. -/
def zlvmMain (fuel : ℕ) (faults : Faults CString) (argv : List CString) (files : Files CString)
    (input : Bytes) : Option Outcome :=
  match zlvmLoad faults argv files with
  | .error stderr => some { status := exitFailure, stdout := banner, stderr }
  | .ok image =>
      (vmRun fuel (emulatorMachine input image)).map fun (vm, state) =>
        { status := state.toNat
          stdout := banner ++ vm.host.output ++ trailer state
          stderr := [] }

section Status

variable {fuel : ℕ} {faults : Faults CString} {argv : List CString} {files : Files CString}
  {input : Bytes}

/-- What is not loaded is not run. -/
theorem zlvmMain_of_error {stderr : Bytes} (h : zlvmLoad faults argv files = .error stderr) :
    zlvmMain fuel faults argv files input
      = some { status := exitFailure, stdout := banner, stderr } := by
  rw [zlvmMain, h]

theorem zlvmMain_of_ok {image : Bytes} (h : zlvmLoad faults argv files = .ok image) :
    zlvmMain fuel faults argv files input
      = (vmRun fuel (emulatorMachine input image)).map fun ended =>
          { status := ended.2.toNat
            stdout := banner ++ ended.1.host.output ++ trailer ended.2
            stderr := [] } := by
  rw [zlvmMain, h]

/-- The loop of `vm_run` ends in an error or when the program halts. -/
theorem vmRun_state {vm final : VirtualMachine} {state : State}
    (h : vmRun fuel vm = some (final, state)) : state = .halted ∨ state.isError = true := by
  unfold vmRun at h
  dsimp only at h
  split at h
  · cases h
  · rename_i hstopped
    obtain ⟨rfl, rfl⟩ := Prod.mk.inj (Option.some.inj h)
    generalize vmSteps fuel (vmStart vm) = final at hstopped ⊢
    simp only [vmLive, vmHasNoError, vmHasState] at hstopped
    cases hstate : final.cpsr.ST <;> simp_all [State.isError]

/-- `main` returns if there is nothing to run, or if the run ends. -/
theorem exists_zlvmMain_iff : (∃ outcome, zlvmMain fuel faults argv files input = some outcome) ↔
    ∀ image, zlvmLoad faults argv files = .ok image →
      ∃ ended, vmRun fuel (emulatorMachine input image) = some ended := by
  cases hload : zlvmLoad faults argv files with
  | error stderr =>
      refine ⟨fun _ image himage => ?_, fun _ => ⟨_, zlvmMain_of_error hload⟩⟩
      cases himage
  | ok image =>
      rw [zlvmMain_of_ok hload]
      constructor
      · rintro ⟨outcome, h⟩ image' himage
        obtain rfl := Except.ok.inj himage
        obtain ⟨ended, hrun, -⟩ := Option.map_eq_some_iff.mp h
        exact ⟨ended, hrun⟩
      · intro h
        obtain ⟨ended, hrun⟩ := h image rfl
        rw [hrun]
        exact ⟨_, rfl⟩

/-- **What the status says**: the program has halted, or it was not run at all and the reason is on
standard error, or it was run and has ended in an error.  There is a status unless the program that
is run goes on. -/
theorem zlvmMain_status (fuel : ℕ) (faults : Faults CString) (argv : List CString)
    (files : Files CString) (input : Bytes) :
    ((∃ outcome, zlvmMain fuel faults argv files input = some outcome) ↔
      ∀ image, zlvmLoad faults argv files = .ok image →
        ∃ ended, vmRun fuel (emulatorMachine input image) = some ended) ∧
    ∀ outcome, zlvmMain fuel faults argv files input = some outcome →
      (outcome.status = exitSuccess ↔ ∃ image final, zlvmLoad faults argv files = .ok image ∧
        vmRun fuel (emulatorMachine input image) = some (final, .halted)) ∧
      (outcome.status = exitFailure ↔ ∃ stderr, zlvmLoad faults argv files = .error stderr ∧
        outcome = { status := exitFailure, stdout := banner, stderr }) := by
  refine ⟨exists_zlvmMain_iff, fun outcome h => ?_⟩
  cases hload : zlvmLoad faults argv files with
  | error stderr =>
      rw [zlvmMain_of_error hload] at h
      obtain rfl := Option.some.inj h
      simp [exitSuccess, exitFailure]
  | ok image =>
      rw [zlvmMain_of_ok hload] at h
      obtain ⟨⟨final, state⟩, hrun, rfl⟩ := Option.map_eq_some_iff.mp h
      rcases vmRun_state hrun with rfl | herror
      · simp [hrun, State.toNat, exitSuccess, exitFailure]
      · have hne : state ≠ .halted := by
          rintro rfl
          cases herror
        obtain ⟨hzero, hone⟩ := State.toNat_of_isError herror
        simp [hrun, hne, hzero, hone, exitSuccess, exitFailure]

end Status

/-- A file that holds nothing but a halt. -/
def haltFiles : Files CString :=
  fun path => if path = CString.lit "a.bin" then some [18, 0, 0, 0, 0xFF, 0, 0, 0] else none

theorem zlvmMain_status_halt :
    (∃ outcome, zlvmMain 1 noFaults (["zlvm", "--binary", "a.bin"].map CString.lit) haltFiles []
      = some outcome) ∧
    ((0 : ℕ) = exitSuccess ↔ ∃ image final,
      zlvmLoad noFaults (["zlvm", "--binary", "a.bin"].map CString.lit) haltFiles = .ok image ∧
        vmRun 1 (emulatorMachine [] image) = some (final, .halted)) ∧
    ((0 : ℕ) = exitFailure ↔ ∃ stderr,
      zlvmLoad noFaults (["zlvm", "--binary", "a.bin"].map CString.lit) haltFiles = .error stderr ∧
        (⟨0, banner ++ trailer .halted, []⟩ : Outcome) = ⟨exitFailure, banner, stderr⟩) := by
  have hload : zlvmLoad noFaults (["zlvm", "--binary", "a.bin"].map CString.lit) haltFiles
      = .ok [18, 0, 0, 0, 0xFF, 0, 0, 0] := by decide +kernel
  have hrun : (vmRun 1 (emulatorMachine [] [18, 0, 0, 0, 0xFF, 0, 0, 0])).isSome = true := by
    decide +kernel
  have hstatus := zlvmMain_status 1 noFaults (["zlvm", "--binary", "a.bin"].map CString.lit)
    haltFiles []
  refine ⟨hstatus.1.mpr fun image himage => ?_,
    hstatus.2 ⟨0, banner ++ trailer .halted, []⟩ (by decide +kernel)⟩
  obtain rfl := Except.ok.inj (hload.symm.trans himage)
  exact Option.isSome_iff_exists.mp hrun

/-! ## The two ways to run a source -/

section Modes

variable {faults : Faults CString} {files : Files CString} {path : CString}

/-- The image of a source is what the assembler would store. -/
theorem toOption_emulatorReadSource :
    (emulatorReadSource faults files path).toOption = assembledFile faults files false path := by
  have hmode : ∀ source, ((zlasmAssemble source (some path)).mapError printDiagnostic).toOption
      = (zlasmAssembleMode false (some source) (some path)).toOption := by
    intro source
    show _ = (zlasmAssemble source (some path)).toOption
    cases zlasmAssemble source (some path) <;> rfl
  unfold emulatorReadSource assembledFile
  rcases @fopen_cases _ faults files path with ⟨hopen, hcontents⟩ | ⟨bytes, hopen, hcontents⟩ |
    ⟨rest, hopen, hcontents⟩
  · rw [hopen, hcontents]
    rfl
  · rw [hopen, hcontents]
    cases hcloses : faults.closes path with
    | false => simp [readLoop_eq, Except.toOption]
    | true => simpa [readLoop_eq, ReadBuffer.init] using hmode (textOf bytes)
  · rw [hopen, hcontents]
    simp [readLoop_eq, Except.toOption]

/-- **An image from a file** that can be read. -/
theorem readBinary_eq {image : Bytes} (h : contents faults files path = some image) :
    readBinary faults files path
      = if image = [] then .error (complaint "Binary image is empty: " path)
        else if image.length > romSize then
          .error (complaint "Binary image exceeds ROM size: " path)
        else .ok image := by
  unfold readBinary
  rcases @fopen_cases _ faults files path with ⟨hopen, hcontents⟩ | ⟨bytes, hopen, hcontents⟩ |
    ⟨rest, hopen, hcontents⟩
  · rw [hcontents] at h
    cases h
  · rw [hcontents] at h
    split at h
    · rename_i hcloses
      obtain rfl := Option.some.inj h
      rw [hopen]
      dsimp only
      by_cases hlt : bytes.length < romSize + 1
      · rw [fread_of_lt hlt]
        simp [hcloses]
      · have hle := Nat.not_lt.mp hlt
        have hne : bytes ≠ [] := by
          rintro rfl
          exact absurd hle (by decide)
        rw [fread_of_le hle]
        simp [hcloses, hne, Nat.lt_of_succ_le hle]
    · cases h
  · rw [hcontents] at h
    cases h

/-- A run of a machine that has loaded an image does not end at once if the image fits. -/
theorem vmRun_zero_emulatorMachine {image : Bytes} (h : image.length ≤ romSize) (input : Bytes) :
    vmRun 0 (emulatorMachine input image) = none := by
  have hlive : vmLive (vmStart (emulatorMachine input image)) = true := by
    rw [emulatorMachine, vmLoadDump, if_neg (Nat.not_lt.mpr h)]
    rfl
  simp [vmRun, vmSteps, hlive]

theorem vmRun_zero_oversized {image : Bytes} (h : romSize < image.length) (input : Bytes) :
    ∃ vm, vmRun 0 (emulatorMachine input image) = some (vm, .errOutOfMemory) := by
  refine ⟨vmStart (emulatorMachine input image), ?_⟩
  rw [emulatorMachine, vmLoadDump, if_pos h]
  rfl

/-- **Running a source and running what the assembler makes of it**: the status and everything that
is printed are the same for every program, input and number of passes, exactly if the image is
neither empty nor larger than the ROM. -/
theorem zlvmMain_modes {argv : List CString} {source output : CString} (program : CString)
    (hargs : zlasmArguments argv = .ok (false, source, output))
    (hran : (zlasmMain faults argv files).status = exitSuccess)
    (hback : contents faults (zlasmMain faults argv files).files output ≠ none)
    (hname : source ≠ CString.lit "--binary") :
    ∃ image, (zlasmMain faults argv files).files output = some image ∧
      ((∀ fuel input, zlvmMain fuel faults [program, CString.lit "--binary", output]
          (zlasmMain faults argv files).files input
            = zlvmMain fuel faults [program, source] files input) ↔
        image ≠ [] ∧ image.length ≤ romSize) := by
  obtain ⟨image, himage⟩ := Option.ne_none_iff_exists'.mp hback
  refine ⟨image, eq_some_of_contents himage, ?_⟩
  have hmade : assembledFile faults files false source = some image := by
    obtain ⟨bytes, hmade, hfiles⟩ :=
      (@zlasmMain_wrote faults files output argv false source hargs).of_success hran
    have hstored := eq_some_of_contents himage
    rw [hfiles, Function.update_self] at hstored
    rw [hmade, hstored]
  generalize (zlasmMain faults argv files).files = files' at himage
  have hsource : zlvmLoad faults [program, source] files = .ok image := by
    rw [zlvmLoad, if_neg (by simp), if_pos ⟨rfl, hname⟩]
    exact toOption_eq_some.mp (toOption_emulatorReadSource.trans hmade)
  have hbinary : zlvmLoad faults [program, CString.lit "--binary", output] files'
      = readBinary faults files' output := by
    rw [zlvmLoad, if_pos ⟨rfl, rfl⟩]
    rfl
  rw [readBinary_eq himage] at hbinary
  constructor
  · intro hsame
    have hzero := hsame 0 []
    rw [zlvmMain_of_ok hsource] at hzero
    by_cases hempty : image = []
    · rw [if_pos hempty] at hbinary
      rw [zlvmMain_of_error hbinary, vmRun_zero_emulatorMachine (by simp [hempty])] at hzero
      cases hzero
    · by_cases hlarge : image.length > romSize
      · obtain ⟨vm, hrun⟩ := vmRun_zero_oversized hlarge []
        rw [if_neg hempty, if_pos hlarge] at hbinary
        rw [zlvmMain_of_error hbinary, hrun] at hzero
        cases hzero
      · exact ⟨hempty, Nat.not_lt.mp hlarge⟩
  · rintro ⟨hempty, hfits⟩ fuel input
    rw [if_neg hempty, if_neg (Nat.not_lt.mpr hfits)] at hbinary
    rw [zlvmMain_of_ok hsource, zlvmMain_of_ok hbinary]

/-- A file with a source of one instruction. -/
def haltSources : Files CString :=
  fun path => if path = CString.lit "a.asm" then some (CString.lit "INT 255").bytes else none

theorem zlvmMain_modes_halt : ∃ image,
    (zlasmMain noFaults (["zlasm", "a.asm"].map CString.lit) haltSources).files
        (CString.lit "a.bin") = some image ∧
      ((∀ fuel input, zlvmMain fuel noFaults
            [CString.lit "zlvm", CString.lit "--binary", CString.lit "a.bin"]
          (zlasmMain noFaults (["zlasm", "a.asm"].map CString.lit) haltSources).files input
            = zlvmMain fuel noFaults [CString.lit "zlvm", CString.lit "a.asm"] haltSources input) ↔
        image ≠ [] ∧ image.length ≤ romSize) := by
  have hargs : zlasmArguments (["zlasm", "a.asm"].map CString.lit)
      = .ok (false, CString.lit "a.asm", CString.lit "a.bin") := by decide +kernel
  have hbinary : assembly false (CString.lit "INT 255") = .ok [18, 0, 0, 0, 0xFF, 0, 0, 0] := by
    decide +kernel
  have hran := @zlasmMain_noFaults haltSources _ _ _ _ _ _ hargs rfl hbinary
  refine zlvmMain_modes (CString.lit "zlvm") hargs ?_ ?_ (by decide)
  · rw [hran]
  · rw [hran]
    simp [contents, noFaults]

end Modes

end Zlvm
