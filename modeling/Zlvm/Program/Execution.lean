import Zlvm.Isa.Flow
import Zlvm.Isa.Refinement
import Zlvm.Program.Modes
import Zlvm.Program.RawImage

/-!
# Executing a raw program

What the emulator does with the image of a source, in the terms of the source.

* `sourceText` — the statements of a source as a text: each at the offset of its line.
* `StatementOf.unique` — a statement means one instruction.
* `holdsText_rawMachine` — the loaded image holds the text.
* **`zlasmAssemble_executes`** — the machine executes the statements of the source, step by step, as
  long as it stands at statements and does not write over them.
* `Statement.structured`, `AtLines` — statements that jump to labels and leave `$pc` and `$lp`
  alone, and a machine that stands at the beginning of a line or at the end of the source.
* **`zlasmAssemble_controlled`** — a program of such statements is always at one of these, and never
  executes an invalid instruction.
-/

namespace Zlvm

open Buffer VirtualMachine

/-! ## The text of a source -/

/-- The statements, each at the offset of its line. -/
def sourceText (lines : List PlacedLine) : Text := fun offset instruction =>
  ∃ k line statement, lines[k]? = some line ∧ line.body = .stmt statement ∧
    rawOffset lines k = offset ∧ StatementOf lines statement instruction

/-- A freshly initialised machine that has loaded an image and is about to run. -/
def rawMachine (ramSize : ℕ) (input image : Bytes) : VirtualMachine :=
  vmStart (vmLoadDump { vmInitialize ramSize with host := ⟨input, []⟩ } image)

section Meaning

variable {lines : List PlacedLine} {token : Token} {statement : Statement}

theorem ImmediateOf.unique {immediate immediate' : Word} (h : ImmediateOf lines token immediate)
    (h' : ImmediateOf lines token immediate') : immediate = immediate' := by
  rcases h with ⟨htype, k, hlabel, hunique, hvalue⟩ | ⟨htype, c, hliteral, hvalue⟩ |
    ⟨hlabel, hchar, n, hliteral, hvalue⟩
  · rcases h' with ⟨-, k', hlabel', -, hvalue'⟩ | ⟨htype', -⟩ | ⟨hlabel', -⟩
    · rw [hunique k' hlabel'] at hvalue'
      exact UInt32.toNat_inj.mp (hvalue.trans hvalue'.symm)
    · rw [htype] at htype'
      cases htype'
    · exact absurd htype hlabel'
  · rcases h' with ⟨htype', -⟩ | ⟨-, c', hliteral', hvalue'⟩ | ⟨-, hchar', -⟩
    · rw [htype] at htype'
      cases htype'
    · obtain rfl := Except.ok.inj (hliteral.symm.trans hliteral')
      exact hvalue.trans hvalue'.symm
    · exact absurd htype hchar'
  · rcases h' with ⟨htype', -⟩ | ⟨htype', -⟩ | ⟨-, -, n', hliteral', hvalue'⟩
    · exact absurd htype' hlabel
    · exact absurd htype' hchar
    · obtain rfl := Except.ok.inj (hliteral.symm.trans hliteral')
      exact UInt32.toNat_inj.mp (hvalue.trans hvalue'.symm)

/-- **A statement means one instruction.** -/
theorem StatementOf.unique {instruction instruction' : Instruction}
    (h : StatementOf lines statement instruction)
    (h' : StatementOf lines statement instruction') : instruction = instruction' := by
  obtain ⟨⟨op, hop, hopcode⟩, ⟨c, hc, hcondition⟩, hreg1, hreg2, habsent, himm⟩ := h
  obtain ⟨⟨op', hop', hopcode'⟩, ⟨c', hc', hcondition'⟩, hreg1', hreg2', habsent', himm'⟩ := h'
  obtain rfl := Option.some.inj (hop.symm.trans hop')
  obtain rfl := Except.ok.inj (hc.symm.trans hc')
  have h1 := UInt8.toNat_inj.mp (Except.ok.inj (hreg1.symm.trans hreg1'))
  have h2 := UInt8.toNat_inj.mp (Except.ok.inj (hreg2.symm.trans hreg2'))
  have h3 : instruction.immediate = instruction'.immediate := by
    cases hstatement : statement.imm with
    | none => rw [habsent hstatement, habsent' hstatement]
    | some token => exact (himm token hstatement).unique (himm' token hstatement)
  obtain ⟨_, _, _, _, _⟩ := instruction
  obtain ⟨_, _, _, _, _⟩ := instruction'
  simp only at hopcode hopcode' hcondition hcondition' h1 h2 h3
  rw [hopcode, hopcode', hcondition, hcondition', h1, h2, h3]

theorem parseOptional_register_lt {token : Option Token} {register : ℕ}
    (h : parseOptional parseRegister 0 token = .ok register) : register < 32 := by
  have hregister := toNat_parseRegister h
  cases token with
  | none =>
      obtain rfl := Except.ok.inj h
      decide
  | some token => exact parseRegister_lt h

/-- The fields of a statement's instruction are valid. -/
theorem StatementOf.valid {instruction : Instruction} (h : StatementOf lines statement instruction) :
    ∃ op c, stringToOpcode (lineToUpper statement.opcode.value) = some op ∧
      Opcode.ofWord instruction.opcode = some op ∧
      Condition.ofWord instruction.condition = some c ∧
      instruction.register1.toNat < 32 ∧ instruction.register2.toNat < 32 := by
  obtain ⟨op, hop, hopcode⟩ := h.opcode
  obtain ⟨c, -, hcondition⟩ := h.condition
  exact ⟨op, c, hop, by rw [hopcode, Opcode.ofWord_toWord],
    by rw [hcondition, Condition.ofWord_toWord], parseOptional_register_lt h.register1,
    parseOptional_register_lt h.register2⟩

end Meaning

/-! ## The loaded image -/

section Loaded

variable {ramSize : ℕ} {input image : Bytes}

theorem rawMachine_eq (hsize : image.length ≤ romSize) : rawMachine ramSize input image
    = vmStart { vmInitialize ramSize with
        rom := (vmInitialize ramSize).rom.write 0 image, host := ⟨input, []⟩ } := by
  rw [rawMachine, vmLoadDump, if_neg (Nat.not_lt.mpr hsize)]
  rfl

theorem flat_rawMachine (hsize : image.length ≤ romSize) :
    ∃ rest, (rawMachine ramSize input image).flat = image ++ rest := by
  obtain ⟨rest, hrest⟩ := @flat_vmLoadDump ramSize image hsize
  refine ⟨rest, ?_⟩
  rw [rawMachine_eq hsize, ← hrest, vmLoadDump, if_neg (Nat.not_lt.mpr hsize)]
  rfl

theorem memoryEnd_rawMachine (hsize : image.length ≤ romSize) :
    (rawMachine ramSize input image).memoryEnd = romSize + ramSize := by
  rw [rawMachine_eq hsize]
  exact congrArg (romSize + ·) List.length_replicate

theorem normal_rawMachine (hsize : image.length ≤ romSize) :
    (rawMachine ramSize input image).cpsr.ST = .normal := by
  rw [rawMachine_eq hsize]
  rfl

/-- A machine that has loaded an image begins at its first line. -/
theorem pc_rawMachine (hsize : image.length ≤ romSize) :
    (rawMachine ramSize input image).registers Register.pc = 0 := by
  rw [rawMachine_eq hsize]
  rfl

theorem lp_rawMachine (hsize : image.length ≤ romSize) :
    (rawMachine ramSize input image).registers Register.lp = 0 := by
  rw [rawMachine_eq hsize]
  rfl

/-- **The loaded image holds the text of its source.** -/
theorem carries_rawMachine {context : AssemblerContext} {labels : List LabelInfo}
    (hdistinct : DistinctLabels context.lines) (hlabels : asmProcessLabels context = .ok labels)
    (himage : asmTranslate labels context.lines = .ok image) (hsize : image.length ≤ romSize)
    (hram : romSize + ramSize ≤ sizeMax) :
    Carries (rawMachine ramSize input image) (sourceText context.lines) := by
  obtain ⟨rest, hflat⟩ := @flat_rawMachine ramSize input image hsize
  have hinside : ∀ {offset instruction}, sourceText context.lines offset instruction →
      offset + instructionSize ≤ image.length ∧
        instructionDecode (slice image offset instructionSize) = some instruction := by
    rintro offset instruction ⟨k, line, statement, hline, hbody, rfl, hmeaning⟩
    obtain ⟨hbytes, hinside⟩ := asmTranslate_slice himage hline
    have hline_size : line.size = instructionSize := by rw [PlacedLine.size, hbody, PlacedBody.size]
    rw [rawLineBytes, hbody, hline_size] at hbytes
    rw [hline_size] at hinside
    obtain ⟨decoded, hdecode, hmeaning'⟩ := statementOf_decode hlabels hdistinct hbytes
    rw [hmeaning.unique hmeaning']
    exact ⟨hinside, hdecode⟩
  refine ⟨by rw [normal_rawMachine hsize]; rfl, fun here => ?_, fun here => ?_, fun here => ?_⟩
  · obtain ⟨hle, -⟩ := hinside here
    refine ⟨(memoryEnd_rawMachine hsize).trans_le hram, ?_⟩
    rw [memoryEnd_rawMachine hsize]
    omega
  · obtain ⟨hle, -⟩ := hinside here
    rw [romSize] at hsize
    omega
  · obtain ⟨hle, hdecode⟩ := hinside here
    have hslice : ∀ offset size, offset + size ≤ image.length →
        slice (image ++ rest) offset size = slice image offset size := by
      intro offset size hle
      refine List.ext_getElem? fun i => ?_
      rw [getElem?_slice, getElem?_slice]
      split
      · exact List.getElem?_append_left (by omega)
      · rfl
    rw [hflat, hslice _ _ hle, hdecode]

end Loaded

/-! ## Execution -/

/-- A run of a program: its steps are the passes of the machine, and all of them as long as it does
not leave its text. -/
structure Executed (text : Text) (start : VirtualMachine) (n : ℕ) : Prop where
  sound : ∀ vm, TextSteps text n start vm → vmSteps n start = vm
  complete : TextSteps text n start (vmSteps n start) ∨
    ∃ m < n, TextSteps text m start (vmSteps m start) ∧ LeavesText text (vmSteps m start)

theorem Carries.executed {text : Text} {vm : VirtualMachine} (h : Carries vm text) (n : ℕ) :
    Executed text vm n where
  sound _ hsteps := (vmSteps_of_textSteps hsteps h).1
  complete := textSteps_or_leaves h n

/-- **Assembled programs execute their source.**  A freshly initialised machine that has loaded the
image of a source executes, pass by pass, the statement of the line that it stands at, and has
stopped, stands outside the statements or is about to write over one where it does not. -/
theorem zlasmAssemble_executes {source : CString} {filename : Option CString} {image : Bytes}
    (h : zlasmAssemble source filename = .ok image) (hsize : image.length ≤ romSize)
    {ramSize : ℕ} (hram : romSize + ramSize ≤ sizeMax) (input : Bytes) :
    ∃ context, assembleContext source = .ok context ∧
      ∀ n, Executed (sourceText context.lines) (rawMachine ramSize input image) n := by
  obtain ⟨context, labels, hcontext, hlabels, himage⟩ := zlasmAssemble_iff.mp h
  have hdistinct := (assembleContext_placed hcontext).1.labels
  exact ⟨context, hcontext, (carries_rawMachine hdistinct hlabels himage hsize hram).executed⟩

theorem zlasmAssemble_executes_jump : ∃ context, assembleContext jumpSource = .ok context ∧
    ∀ n, Executed (sourceText context.lines) (rawMachine 16 [65] jumpImage) n :=
  @zlasmAssemble_executes jumpSource none jumpImage (by decide +kernel) (by decide) 16 (by decide)
    [65]

/-! ## Control flow -/

/-- The statement assigns neither to `$pc` nor to `$lp` by a register operand, and if it is a jump
or a call it goes to a label. -/
def Statement.structured (statement : Statement) : Bool :=
  match stringToOpcode (lineToUpper statement.opcode.value) with
  | none => true
  | some op =>
      (!op.effect.writes || match parseOptional parseRegister 0 statement.reg1 with
        | .ok r => r != Register.pc && r != Register.lp
        | .error _ => true) &&
      (!(op.effect == .jump || op.effect == .call) ||
        statement.imm.any fun token => token.type == .labelUse)

/-- The line holds no other statement. -/
def PlacedLine.structured (line : PlacedLine) : Bool :=
  match line.body with
  | .stmt statement => statement.structured
  | .raw _ => true

section Statements

variable {statement : Statement} {op : Opcode}

theorem Statement.structured_iff
    (hop : stringToOpcode (lineToUpper statement.opcode.value) = some op) :
    statement.structured = true ↔
      (op.effect.writes = true → ∀ r, parseOptional parseRegister 0 statement.reg1 = .ok r →
        r ≠ Register.pc ∧ r ≠ Register.lp) ∧
      (op.effect = .jump ∨ op.effect = .call →
        ∃ token, statement.imm = some token ∧ token.type = .labelUse) := by
  rw [structured, hop]
  simp only [Bool.and_eq_true, Bool.or_eq_true, Bool.not_eq_true', ← imp_iff_not_or,
    ← Bool.not_eq_true, beq_iff_eq, Option.any_eq_true]
  refine and_congr (imp_congr_right fun _ => ?_) Iff.rfl
  cases parseOptional parseRegister 0 statement.reg1 with
  | error e => simp
  | ok r => simp

end Statements

/-- A machine at the beginning of a line or the end of the source, which returns to one of these. -/
structure AtLines (lines : List PlacedLine) (vm : VirtualMachine) : Prop where
  pc : ∃ k ≤ lines.length, (vm.registers Register.pc).toNat = rawOffset lines k
  lp : ∃ k ≤ lines.length, (vm.registers Register.lp).toNat = rawOffset lines k

section Structured

variable {lines : List PlacedLine} {vm vm' : VirtualMachine}

/-- **A step of a structured program** goes to the beginning of a line or the end of the source. -/
theorem TextStep.atLines (hstructured : lines.all PlacedLine.structured = true)
    (hfits : rawOffset lines lines.length ≤ romSize) (hend : vm.memoryEnd ≤ sizeMax)
    (hnormal : vm.cpsr.ST = .normal) (h : AtLines lines vm)
    (hstep : TextStep (sourceText lines) vm vm') :
    AtLines lines vm' ∧ vm'.cpsr.ST ≠ .errInvalidOpcode ∧ vm'.cpsr.ST ≠ .errInvalidCondition := by
  rcases hstep with ⟨-, instruction, ⟨k, line, statement, hline, hbody, hoffset, hmeaning⟩, -⟩
  obtain ⟨op, c, hop, hopcode, hcondition, h1, h2⟩ := hmeaning.valid
  have hlt : k < lines.length := (List.getElem?_eq_some_iff.mp hline).1
  have hs : statement.structured = true := by
    have hline_structured := List.all_eq_true.mp hstructured line (List.mem_of_getElem? hline)
    rwa [PlacedLine.structured, hbody] at hline_structured
  obtain ⟨hassigns, htarget⟩ := (Statement.structured_iff hop).mp hs
  have hnext : rawOffset lines (k + 1) = (vm.registers Register.pc).toNat + 8 := by
    rw [rawOffset_succ hline, PlacedLine.size, hbody, hoffset]
    rfl
  have hbound := (rawOffset_mono lines (Nat.succ_le_of_lt hlt)).trans hfits
  rw [hnext, romSize] at hbound
  have hpc : (vm.registers Register.pc + 8).toNat = rawOffset lines (k + 1) := by
    rw [hnext, UInt32.toNat_add]
    simp only [UInt32.reduceToNat]
    omega
  generalize hmoved : vm.setRegister Register.pc (vm.registers Register.pc + 8) = moved
  have hmovedPc : (isa moved).registers Register.pc = vm.registers Register.pc + 8 := by
    rw [isa_registers_of_ne (by decide), ← hmoved, setRegister_self]
  have hmovedLp : (isa moved).registers Register.lp = vm.registers Register.lp := by
    rw [isa_registers_of_ne (by decide), ← hmoved, setRegister_of_ne _ _ _ (by decide)]
  have hstate : (isa moved).cpsr.ST = .normal := by
    rw [← hmoved]
    exact hnormal
  have hrun : isa (vmRunInstruction moved instruction) = (isa moved).execute instruction := by
    refine isa_vmRunInstruction (vmHasNoError_of_normal hstate) ?_ instruction
    rw [← hmoved]
    exact hend
  have hregister : ∀ r, r ≠ Register.zero → (vmRunInstruction moved instruction).registers r
      = ((isa moved).execute instruction).registers r := by
    intro r hr
    rw [← hrun, isa_registers_of_ne hr]
  have hcpsr : (vmRunInstruction moved instruction).cpsr
      = ((isa moved).execute instruction).cpsr := by
    rw [← hrun]
    rfl
  rw [hcpsr]
  unfold IsaMachine.execute at hregister ⊢
  simp only [hcondition, hopcode, dif_pos (Nat.max_lt.mpr ⟨h1, h2⟩)] at hregister ⊢
  by_cases hholds : c.holds (isa moved).cpsr = true
  · simp only [if_pos hholds] at hregister ⊢
    have hoperand : op.effect.writes = true →
        (⟨_, h1⟩ : Register) ≠ Register.pc ∧ (⟨_, h1⟩ : Register) ≠ Register.lp := by
      intro hwrites
      obtain ⟨hpc, hlp⟩ := hassigns hwrites _ hmeaning.register1
      exact ⟨fun h => hpc (congrArg Fin.val h), fun h => hlp (congrArg Fin.val h)⟩
    refine ⟨⟨?_, ?_⟩, ?_, ?_⟩
    · rw [hregister _ (by decide), IsaMachine.perform_pc fun hwrites => (hoperand hwrites).1]
      split
      · -- a jump or a call goes to the line of its label
        rename_i hjump
        obtain ⟨token, htoken, htype⟩ := htarget hjump
        rcases hmeaning.immediate token htoken with ⟨-, k', hlabel, -, hvalue⟩ | ⟨htype', -⟩ |
          ⟨htype', -⟩
        · exact ⟨k', hlabel.lt.le, hvalue⟩
        · rw [htype] at htype'
          cases htype'
        · exact absurd htype htype'
      · split
        · rw [hmovedLp]
          exact h.lp
        · rw [hmovedPc]
          exact ⟨k + 1, hlt, hpc⟩
    · rw [hregister _ (by decide), IsaMachine.perform_lp fun hwrites => (hoperand hwrites).2]
      split
      · rw [hmovedPc]
        exact ⟨k + 1, hlt, hpc⟩
      · rw [hmovedLp]
        exact h.lp
    all_goals
      intro hinvalid
      rcases @IsaMachine.perform_state (isa moved) ⟨_, h1⟩ ⟨_, h2⟩ instruction.immediate op.effect
        with hsame | hfault
    · rw [hinvalid, hstate] at hsame
      cases hsame
    · exact IsaMachine.not_mem_faults (.inl hinvalid) hfault
    · rw [hinvalid, hstate] at hsame
      cases hsame
    · exact IsaMachine.not_mem_faults (.inr hinvalid) hfault
  · simp only [if_neg hholds] at hregister ⊢
    refine ⟨⟨?_, ?_⟩, ?_, ?_⟩
    · rw [hregister _ (by decide), hmovedPc]
      exact ⟨k + 1, hlt, hpc⟩
    · rw [hregister _ (by decide), hmovedLp]
      exact h.lp
    · rw [hstate]
      decide
    · rw [hstate]
      decide

/-- Any number of steps. -/
theorem TextSteps.atLines (hstructured : lines.all PlacedLine.structured = true)
    (hfits : rawOffset lines lines.length ≤ romSize) {n : ℕ}
    (hsteps : TextSteps (sourceText lines) n vm vm') (hend : vm.memoryEnd ≤ sizeMax)
    (hcarries : Carries vm (sourceText lines)) (h : AtLines lines vm)
    (hop : vm.cpsr.ST ≠ .errInvalidOpcode) (hcond : vm.cpsr.ST ≠ .errInvalidCondition) :
    AtLines lines vm' ∧ vm'.cpsr.ST ≠ .errInvalidOpcode ∧ vm'.cpsr.ST ≠ .errInvalidCondition := by
  induction hsteps with
  | done vm => exact ⟨h, hop, hcond⟩
  | step first rest ih =>
      obtain ⟨hlive, hpass, hcarries'⟩ := first.vmStep hcarries
      obtain ⟨hlines, hop', hcond'⟩ :=
        first.atLines hstructured hfits hend (hcarries.normal hlive) h
      refine ih ?_ hcarries' hlines hop' hcond'
      rw [← hpass, (machineClosed_memoryEnd _).step (Bool.and_eq_true_iff.mp hlive).1 rfl]
      exact hend

end Structured

/-- As long as a program executes its statements, it stands at the beginning of a line or the end of
the source, returns to one of these and has met no invalid instruction. -/
structure Controlled (lines : List PlacedLine) (start : VirtualMachine) : Prop where
  atLines : ∀ n vm, TextSteps (sourceText lines) n start vm → AtLines lines vm
  valid : ∀ n vm, TextSteps (sourceText lines) n start vm →
    vm.cpsr.ST ≠ .errInvalidOpcode ∧ vm.cpsr.ST ≠ .errInvalidCondition

/-- **The control flow of structured programs.**  If the statements of a source jump to labels and
leave `$pc` and `$lp` alone, and its image fits the ROM, then its program stays at the beginnings of
its lines and the end of the source. -/
theorem zlasmAssemble_controlled {source : CString} {filename : Option CString} {image : Bytes}
    (h : zlasmAssemble source filename = .ok image) (hsize : image.length ≤ romSize)
    {ramSize : ℕ} (hram : romSize + ramSize ≤ sizeMax) (input : Bytes)
    (hstructured : ∀ context, assembleContext source = .ok context →
      context.lines.all PlacedLine.structured = true) :
    ∃ context, assembleContext source = .ok context ∧
      Controlled context.lines (rawMachine ramSize input image) := by
  obtain ⟨context, labels, hcontext, hlabels, himage⟩ := zlasmAssemble_iff.mp h
  have hdistinct := (assembleContext_placed hcontext).1.labels
  have hnormal := @normal_rawMachine ramSize input image hsize
  have hreached : ∀ n vm, TextSteps (sourceText context.lines) n (rawMachine ramSize input image) vm →
      AtLines context.lines vm ∧ vm.cpsr.ST ≠ .errInvalidOpcode ∧
        vm.cpsr.ST ≠ .errInvalidCondition := by
    intro n vm hsteps
    refine hsteps.atLines (hstructured context hcontext) ?_
      ((memoryEnd_rawMachine hsize).trans_le hram)
      (carries_rawMachine hdistinct hlabels himage hsize hram) ⟨?_, ?_⟩ ?_ ?_
    · rw [rawOffset, List.take_length, ← asmTranslate_length himage]
      exact hsize
    · exact ⟨0, Nat.zero_le _, by rw [pc_rawMachine hsize]; rfl⟩
    · exact ⟨0, Nat.zero_le _, by rw [lp_rawMachine hsize]; rfl⟩
    · rw [hnormal]
      decide
    · rw [hnormal]
      decide
  exact ⟨context, hcontext, fun n vm hsteps => (hreached n vm hsteps).1,
    fun n vm hsteps => (hreached n vm hsteps).2⟩

theorem zlasmAssemble_controlled_jump : ∃ context, assembleContext jumpSource = .ok context ∧
    Controlled context.lines (rawMachine 16 [65] jumpImage) :=
  @zlasmAssemble_controlled jumpSource none jumpImage (by decide +kernel) (by decide) 16 (by decide)
    [65] fun context hcontext => by
      have hall : ((assembleContext jumpSource).map fun context =>
          context.lines.all PlacedLine.structured) = .ok true := by decide +kernel
      rw [hcontext] at hall
      exact Except.ok.inj hall

end Zlvm
