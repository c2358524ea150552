import Zlvm.Core.Instruction
import Zlvm.Vm.Memory

/-!
# Executing one instruction

`vm_pop_word`, `vm_push_word`, `vm_do_operation`, the interrupts and `vm_run_instruction`.

The switch of `vm_run_instruction` is `vmDispatch`; next to the machine it returns
`write_alu_result`.  What precedes and follows the switch is in `vmRunInstruction`.
-/

namespace Zlvm

/-! ## Stack -/

/-- `vm_pop_word`. -/
def vmPopWord (vm : VirtualMachine) : VirtualMachine × Option Word :=
  let stackPointer := vm.registers Register.sp
  let basePointer := vm.registers Register.bp
  let usedStack := stackPointer - basePointer
  if stackPointer < basePointer ∨ usedStack < wordSize ∨ usedStack > stackSize ∨
      usedStack % wordSize ≠ 0 then
    (vmSetState vm .errStackUnderflow, none)
  else
    let address := stackPointer - wordSize
    let (vm, result) := vmReadWord vm address.toNat
    if !vmHasNoError vm then (vm, none)
    else (vm.setRegister Register.sp address, some result)

/-- `vm_push_word`. -/
def vmPushWord (vm : VirtualMachine) (value : Word) : VirtualMachine × Bool :=
  let stackPointer := vm.registers Register.sp
  let basePointer := vm.registers Register.bp
  let usedStack := stackPointer - basePointer
  if stackPointer < basePointer ∨ usedStack > stackSize - wordSize ∨
      usedStack % wordSize ≠ 0 then
    (vmSetState vm .errStackOverflow, false)
  else
    let address := stackPointer
    let (vm, valid) := vmValidateRange vm address.toNat 4
    if !valid then (vm, false)
    else
      let vm := vmWriteWord vm address.toNat value
      if !vmHasNoError vm then (vm, false)
      else (vm.setRegister Register.sp (address + wordSize), true)

/-! ## Operations -/

/-- `vm_do_operation`. -/
def vmDoOperation (vm : VirtualMachine) (op : Operation) (left right : Word) : VirtualMachine :=
  if op.divides ∧ right = 0 then vmSetState vm .errDivisionByZero
  else
    let alu := aluCompute { vm.alu with op, left, right }
    { vm with
      alu
      cpsr := { vm.cpsr with
        N := alu.flags.N, Z := alu.flags.Z, V := alu.flags.V, C := alu.flags.C, S := alu.flags.S } }

/-! ## Interrupts -/

/-- `fputc(value, stdout)`. -/
def VirtualMachine.putByte (vm : VirtualMachine) (value : Byte) : VirtualMachine :=
  { vm with host := { vm.host with output := vm.host.output ++ [value] } }

/-- `(word)fgetc(stdin)`, which is `(word)EOF` at the end of the input. -/
def VirtualMachine.getByte (vm : VirtualMachine) : VirtualMachine × Word :=
  match vm.host.input with
  | [] => (vm, 0xFFFFFFFF)
  | b :: input => ({ vm with host := { vm.host with input } }, b.toUInt32)

/-- `vm_interrupt`. -/
def vmInterrupt (vm : VirtualMachine) (code : Word) : VirtualMachine :=
  if code = 0x01 then vm.putByte ((vm.registers Register.a0).toUInt8 + 0x60)
  else if code = 0x02 then vm.putByte (vm.registers Register.a0).toUInt8
  else if code = 0x10 then
    let (vm, value) := vm.getByte
    vm.setRegister Register.v0 value
  else if code = 0xFF then vmSetState vm .halted
  else vm

/-- `vm_syscall`: no service is implemented. -/
def vmSyscall (vm : VirtualMachine) : VirtualMachine := vm

/-! ## Conditions -/

/-- What a condition says about the flags. -/
def Condition.holds (flags : Cpsr) : Condition → Bool
  | unconditional => true
  | zeroSet => flags.Z
  | zeroClear => !flags.Z
  | negativeSet => flags.N
  | negativeClear => !flags.N
  | overflowSet => flags.V
  | overflowClear => !flags.V
  | carrySet => flags.C
  | carryClear => !flags.C
  | signedSet => flags.S
  | signedClear => !flags.S
  | unsignedHigher => flags.C && !flags.Z
  | unsignedLowerOrSame => !flags.C || flags.Z
  | less => flags.N ^^ flags.V
  | lessOrEquals => flags.Z || (flags.N ^^ flags.V)
  | greater => !(flags.Z || (flags.N ^^ flags.V))
  | greaterOrEquals => !(flags.N ^^ flags.V)

/-- `vm_check_condition`. -/
def vmCheckCondition (vm : VirtualMachine) (condition : Word) : VirtualMachine × Bool :=
  match Condition.ofWord condition with
  | some c => (vm, c.holds vm.cpsr)
  | none => (vmSetState vm .errInvalidCondition, false)

/-! ## The switch -/

section Dispatch

variable (vm : VirtualMachine) (reg1 reg2 : Register) (imm : Word)

/-- `LOADB`, `LOADH` and `LOADW`: `merge` combines the register's old value with the value read. -/
def vmLoad {α : Type} (size : ℕ) (read : VirtualMachine → ℕ → VirtualMachine × α)
    (merge : Word → α → Word) : VirtualMachine :=
  match vmEffectiveAddress vm (vm.registers reg2) imm size with
  | (vm, none) => vm
  | (vm, some address) =>
      let (vm, value) := read vm address
      vm.setRegister reg1 (merge (vm.registers reg1) value)

/-- `STOREB`, `STOREH` and `STOREW`. -/
def vmStore (size : ℕ) (write : VirtualMachine → ℕ → Word → VirtualMachine) : VirtualMachine :=
  match vmEffectiveAddress vm (vm.registers reg2) imm size with
  | (vm, none) => vm
  | (vm, some address) => write vm address (vm.registers reg1)

/-- The new value of a register into which `LOADB` puts a byte. -/
def mergeByte (old : Word) (value : Byte) : Word := (old &&& ~~~0xFF) ||| value.toUInt32

/-- The new value of a register into which `LOADH` puts a half word. -/
def mergeHword (old : Word) (value : HWord) : Word := (old &&& ~~~0xFFFF) ||| value.toUInt32

/-- The switch of `vm_run_instruction`, with `write_alu_result`. -/
def vmDispatch : Opcode → VirtualMachine × Bool
  | .nop => (vm, false)
  | .popr =>
      match vmPopWord vm with
      | (vm, none) => (vm, false)
      | (vm, some value) => (vm.setRegister reg1 value, false)
  | .pop => ((vmPopWord vm).1, false)
  | .pushr => ((vmPushWord vm (vm.registers reg1)).1, false)
  | .pushi => ((vmPushWord vm imm).1, false)
  | .dup =>
      match vmPopWord vm with
      | (vm, none) => (vm, false)
      | (vm, some value) => ((vmPushWord (vmPushWord vm value).1 value).1, false)
  | .movr => (vm.setRegister reg1 (vm.registers reg2), false)
  | .movi => (vm.setRegister reg1 imm, false)
  | .addr => (vmDoOperation vm .add (vm.registers reg1) (vm.registers reg2), true)
  | .subr => (vmDoOperation vm .sub (vm.registers reg1) (vm.registers reg2), true)
  | .mulr => (vmDoOperation vm .mul (vm.registers reg1) (vm.registers reg2), true)
  | .divr => (vmDoOperation vm .div (vm.registers reg1) (vm.registers reg2), true)
  | .modr => (vmDoOperation vm .mod (vm.registers reg1) (vm.registers reg2), true)
  | .addi => (vmDoOperation vm .add (vm.registers reg1) imm, true)
  | .subi => (vmDoOperation vm .sub (vm.registers reg1) imm, true)
  | .muli => (vmDoOperation vm .mul (vm.registers reg1) imm, true)
  | .divi => (vmDoOperation vm .div (vm.registers reg1) imm, true)
  | .modi => (vmDoOperation vm .mod (vm.registers reg1) imm, true)
  | .addsr => (vmDoOperation vm .sadd (vm.registers reg1) (vm.registers reg2), true)
  | .subsr => (vmDoOperation vm .ssub (vm.registers reg1) (vm.registers reg2), true)
  | .mulsr => (vmDoOperation vm .smul (vm.registers reg1) (vm.registers reg2), true)
  | .divsr => (vmDoOperation vm .sdiv (vm.registers reg1) (vm.registers reg2), true)
  | .modsr => (vmDoOperation vm .smod (vm.registers reg1) (vm.registers reg2), true)
  | .addsi => (vmDoOperation vm .sadd (vm.registers reg1) imm, true)
  | .subsi => (vmDoOperation vm .ssub (vm.registers reg1) imm, true)
  | .mulsi => (vmDoOperation vm .smul (vm.registers reg1) imm, true)
  | .divsi => (vmDoOperation vm .sdiv (vm.registers reg1) imm, true)
  | .modsi => (vmDoOperation vm .smod (vm.registers reg1) imm, true)
  | .not => (vmDoOperation vm .not (vm.registers reg1) 0, true)
  | .andr => (vmDoOperation vm .and (vm.registers reg1) (vm.registers reg2), true)
  | .orr => (vmDoOperation vm .or (vm.registers reg1) (vm.registers reg2), true)
  | .xorr => (vmDoOperation vm .xor (vm.registers reg1) (vm.registers reg2), true)
  | .nandr => (vmDoOperation vm .nand (vm.registers reg1) (vm.registers reg2), true)
  | .norr => (vmDoOperation vm .nor (vm.registers reg1) (vm.registers reg2), true)
  | .andi => (vmDoOperation vm .and (vm.registers reg1) imm, true)
  | .ori => (vmDoOperation vm .or (vm.registers reg1) imm, true)
  | .xori => (vmDoOperation vm .xor (vm.registers reg1) imm, true)
  | .nandi => (vmDoOperation vm .nand (vm.registers reg1) imm, true)
  | .nori => (vmDoOperation vm .nor (vm.registers reg1) imm, true)
  | .inc => (vmDoOperation vm .inc (vm.registers reg1) 0, true)
  | .dec => (vmDoOperation vm .dec (vm.registers reg1) 0, true)
  | .loadb => (vmLoad vm reg1 reg2 imm 1 vmReadByte mergeByte, false)
  | .loadh => (vmLoad vm reg1 reg2 imm 2 vmReadHword mergeHword, false)
  | .loadw => (vmLoad vm reg1 reg2 imm 4 vmReadWord fun _ value => value, false)
  | .storeb => (vmStore vm reg1 reg2 imm 1 fun vm address value =>
      vmWriteByte vm address value.toUInt8, false)
  | .storeh => (vmStore vm reg1 reg2 imm 2 fun vm address value =>
      vmWriteHword vm address value.toUInt16, false)
  | .storew => (vmStore vm reg1 reg2 imm 4 vmWriteWord, false)
  | .int => (vmInterrupt vm imm, false)
  | .syscall => (vmSyscall vm, false)
  | .jmpal =>
      ((vm.setRegister Register.lp (vm.registers Register.pc)).setRegister Register.pc imm, false)
  | .jmp => (vm.setRegister Register.pc imm, false)
  | .ret => (vm.setRegister Register.pc (vm.registers Register.lp), false)
  | .cmpi => (vmDoOperation vm .sub (vm.registers reg1) imm, false)
  | .cmpr => (vmDoOperation vm .sub (vm.registers reg1) (vm.registers reg2), false)
  | .cmpsi => (vmDoOperation vm .ssub (vm.registers reg1) imm, false)
  | .cmpsr => (vmDoOperation vm .ssub (vm.registers reg1) (vm.registers reg2), false)

end Dispatch

/-- The switch on any number; the default case is an invalid opcode. -/
def vmSwitch (vm : VirtualMachine) (reg1 reg2 : Register) (imm opcode : Word) :
    VirtualMachine × Bool :=
  match Opcode.ofWord opcode with
  | some op => vmDispatch vm reg1 reg2 imm op
  | none => (vmSetState vm .errInvalidOpcode, false)

/-- What follows the switch. -/
def vmAfterSwitch (vm : VirtualMachine) (reg1 : Register) (writeAluResult : Bool) :
    VirtualMachine :=
  let vm := if writeAluResult && vmHasNoError vm
    then vm.setRegister reg1 vm.alu.result.toUInt32 else vm
  let vm := vm.setRegister Register.zero 0
  if vm.alu.op ≠ .noop then { vm with alu := aluReset } else vm

/-- `vm_run_instruction`. -/
def vmRunInstruction (vm : VirtualMachine) (instruction : Instruction) : VirtualMachine :=
  let vm := vm.setRegister Register.zero 0
  let (vm, holds) := vmCheckCondition vm instruction.condition
  if !holds then vm
  else if h : instruction.register1.toNat < 32 ∧ instruction.register2.toNat < 32 then
    let reg1 : Register := ⟨instruction.register1.toNat, h.1⟩
    let reg2 : Register := ⟨instruction.register2.toNat, h.2⟩
    let (vm, writeAluResult) := vmSwitch vm reg1 reg2 instruction.immediate instruction.opcode
    vmAfterSwitch vm reg1 writeAluResult
  else vmSetState vm .errInvalidOpcode

/-! ## Small facts -/

/-- What follows the switch, without its jumps. -/
theorem vmAfterSwitch_eq (vm : VirtualMachine) (reg1 : Register) (writeAluResult : Bool) :
    vmAfterSwitch vm reg1 writeAluResult
      = { (if writeAluResult && vmHasNoError vm then vm.setRegister reg1 vm.alu.result.toUInt32
            else vm).setRegister Register.zero 0 with
          alu := if vm.alu.op ≠ .noop then aluReset else vm.alu } := by
  have halu : ((if writeAluResult && vmHasNoError vm
      then vm.setRegister reg1 vm.alu.result.toUInt32 else vm).setRegister Register.zero 0).alu
      = vm.alu := by
    split <;> rfl
  unfold vmAfterSwitch
  dsimp only
  rw [halu]
  by_cases hop : vm.alu.op ≠ .noop
  · rw [if_pos hop, if_pos hop]
  · rw [if_neg hop, if_neg hop]
    exact VirtualMachine.ext rfl halu rfl rfl rfl rfl rfl

theorem vmAfterSwitch_cpsr (vm : VirtualMachine) (reg1 : Register) (writeAluResult : Bool) :
    (vmAfterSwitch vm reg1 writeAluResult).cpsr = vm.cpsr := by
  unfold vmAfterSwitch
  dsimp only
  split <;> split <;> rfl

theorem vmAfterSwitch_rom (vm : VirtualMachine) (reg1 : Register) (writeAluResult : Bool) :
    (vmAfterSwitch vm reg1 writeAluResult).rom = vm.rom := by
  unfold vmAfterSwitch
  dsimp only
  split <;> split <;> rfl

theorem vmAfterSwitch_memory (vm : VirtualMachine) (reg1 : Register) (writeAluResult : Bool) :
    (vmAfterSwitch vm reg1 writeAluResult).memory = vm.memory := by
  unfold vmAfterSwitch
  dsimp only
  split <;> split <;> rfl

/-- Unless the result of the arithmetic unit is written back, only `$zero` is cleared. -/
theorem vmAfterSwitch_registers {vm : VirtualMachine} {reg1 : Register} {writeAluResult : Bool}
    (h : (writeAluResult && vmHasNoError vm) = false) :
    (vmAfterSwitch vm reg1 writeAluResult).registers
      = Function.update vm.registers Register.zero 0 := by
  unfold vmAfterSwitch
  dsimp only
  rw [h, if_neg Bool.false_ne_true]
  split <;> rfl

theorem vmAfterSwitch_zero (vm : VirtualMachine) (reg1 : Register) (writeAluResult : Bool) :
    (vmAfterSwitch vm reg1 writeAluResult).registers Register.zero = 0 := by
  rw [vmAfterSwitch_eq]
  show ((if writeAluResult && vmHasNoError vm then vm.setRegister reg1 vm.alu.result.toUInt32
    else vm).setRegister Register.zero 0).registers Register.zero = 0
  exact setRegister_self ..

section LoadStore

variable {vm : VirtualMachine} {reg1 reg2 : Register} {imm : Word} {size : ℕ}

/-- A load inside the memory reads and assigns. -/
theorem vmLoad_eq {α : Type} {read : VirtualMachine → ℕ → VirtualMachine × α}
    {merge : Word → α → Word} {value : α}
    (hacc : vm.Accessible ((vm.registers reg2).toNat + imm.toNat) size)
    (hread : read vm ((vm.registers reg2).toNat + imm.toNat) = (vm, value)) :
    vmLoad vm reg1 reg2 imm size read merge
      = vm.setRegister reg1 (merge (vm.registers reg1) value) := by
  rw [vmLoad, vmEffectiveAddress_eq, if_pos hacc]
  simp only [hread]

/-- A load outside the memory. -/
theorem vmLoad_eq_fail {α : Type} {read : VirtualMachine → ℕ → VirtualMachine × α}
    {merge : Word → α → Word}
    (hacc : ¬vm.Accessible ((vm.registers reg2).toNat + imm.toNat) size) :
    vmLoad vm reg1 reg2 imm size read merge = vmSetState vm .errOutOfMemory := by
  rw [vmLoad, vmEffectiveAddress_eq, if_neg hacc]

/-- A store inside the memory writes. -/
theorem vmStore_eq {write : VirtualMachine → ℕ → Word → VirtualMachine}
    (hacc : vm.Accessible ((vm.registers reg2).toNat + imm.toNat) size) :
    vmStore vm reg1 reg2 imm size write
      = write vm ((vm.registers reg2).toNat + imm.toNat) (vm.registers reg1) := by
  rw [vmStore, vmEffectiveAddress_eq, if_pos hacc]

/-- A store outside the memory. -/
theorem vmStore_eq_fail {write : VirtualMachine → ℕ → Word → VirtualMachine}
    (hacc : ¬vm.Accessible ((vm.registers reg2).toNat + imm.toNat) size) :
    vmStore vm reg1 reg2 imm size write = vmSetState vm .errOutOfMemory := by
  rw [vmStore, vmEffectiveAddress_eq, if_neg hacc]

end LoadStore

section Run

variable {vm : VirtualMachine} {instruction : Instruction}

/-- An invalid condition. -/
theorem vmRunInstruction_invalidCondition
    (h : Condition.ofWord instruction.condition = none) :
    vmRunInstruction vm instruction
      = vmSetState (vm.setRegister Register.zero 0) .errInvalidCondition := by
  simp [vmRunInstruction, vmCheckCondition, h]

/-- A condition that does not hold skips the instruction. -/
theorem vmRunInstruction_skip {c : Condition}
    (h : Condition.ofWord instruction.condition = some c) (hskip : c.holds vm.cpsr = false) :
    vmRunInstruction vm instruction = vm.setRegister Register.zero 0 := by
  simp [vmRunInstruction, vmCheckCondition, h, hskip]

/-- A register number out of range. -/
theorem vmRunInstruction_invalidRegister {c : Condition}
    (h : Condition.ofWord instruction.condition = some c) (hrun : c.holds vm.cpsr = true)
    (hregs : ¬(instruction.register1.toNat < 32 ∧ instruction.register2.toNat < 32)) :
    vmRunInstruction vm instruction
      = vmSetState (vm.setRegister Register.zero 0) .errInvalidOpcode := by
  simp only [vmRunInstruction, vmCheckCondition, h, setRegister_cpsr, hrun, Bool.not_true,
    Bool.false_eq_true, if_false, dif_neg hregs]

/-- An instruction that reaches the switch. -/
theorem vmRunInstruction_eq {c : Condition}
    (h : Condition.ofWord instruction.condition = some c) (hrun : c.holds vm.cpsr = true)
    (h1 : instruction.register1.toNat < 32) (h2 : instruction.register2.toNat < 32) :
    vmRunInstruction vm instruction
      = vmAfterSwitch
          (vmSwitch (vm.setRegister Register.zero 0) ⟨_, h1⟩ ⟨_, h2⟩ instruction.immediate
            instruction.opcode).1 ⟨_, h1⟩
          (vmSwitch (vm.setRegister Register.zero 0) ⟨_, h1⟩ ⟨_, h2⟩ instruction.immediate
            instruction.opcode).2 := by
  simp only [vmRunInstruction, vmCheckCondition, h, setRegister_cpsr, hrun, Bool.not_true,
    Bool.false_eq_true, if_false, dif_pos (And.intro h1 h2)]

/-- Every instruction clears `$zero`. -/
theorem vmRunInstruction_zero (vm : VirtualMachine) (instruction : Instruction) :
    (vmRunInstruction vm instruction).registers Register.zero = 0 := by
  cases hcond : Condition.ofWord instruction.condition with
  | none =>
      rw [vmRunInstruction_invalidCondition hcond, vmSetState_registers]
      exact setRegister_self ..
  | some c =>
      cases hrun : c.holds vm.cpsr with
      | false =>
          rw [vmRunInstruction_skip hcond hrun]
          exact setRegister_self ..
      | true =>
          by_cases hregs : instruction.register1.toNat < 32 ∧ instruction.register2.toNat < 32
          · rw [vmRunInstruction_eq hcond hrun hregs.1 hregs.2]
            exact vmAfterSwitch_zero ..
          · rw [vmRunInstruction_invalidRegister hcond hrun hregs, vmSetState_registers]
            exact setRegister_self ..

end Run

/-! ## Unconditional instructions -/

/-- An unconditional instruction with valid register fields. -/
def Instruction.unconditional (op : Opcode) (reg1 reg2 : Register) (imm : Word) : Instruction where
  opcode := op.toWord
  condition := Condition.unconditional.toWord
  register1 := UInt8.ofNat reg1
  register2 := UInt8.ofNat reg2
  immediate := imm

/-- An unconditional instruction always reaches its case of the switch. -/
theorem vmRunInstruction_unconditional (vm : VirtualMachine) (op : Opcode)
    (reg1 reg2 : Register) (imm : Word) :
    vmRunInstruction vm (.unconditional op reg1 reg2 imm)
      = vmAfterSwitch (vmDispatch (vm.setRegister Register.zero 0) reg1 reg2 imm op).1 reg1
          (vmDispatch (vm.setRegister Register.zero 0) reg1 reg2 imm op).2 := by
  have htoNat : ∀ r : Register, (UInt8.ofNat r).toNat = r := by
    intro r
    have := r.isLt
    rw [UInt8.toNat_ofNat', Nat.mod_eq_of_lt (by omega)]
  have h1 : (UInt8.ofNat reg1).toNat < 32 := by rw [htoNat]; exact reg1.isLt
  have h2 : (UInt8.ofNat reg2).toNat < 32 := by rw [htoNat]; exact reg2.isLt
  have hreg1 : (⟨_, h1⟩ : Register) = reg1 := Fin.ext (htoNat reg1)
  have hreg2 : (⟨_, h2⟩ : Register) = reg2 := Fin.ext (htoNat reg2)
  rw [vmRunInstruction_eq (c := .unconditional) (Condition.ofWord_toWord _) rfl h1 h2]
  simp only [Instruction.unconditional, vmSwitch, Opcode.ofWord_toWord, hreg1, hreg2]

end Zlvm
