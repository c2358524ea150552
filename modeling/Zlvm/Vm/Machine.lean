import Mathlib.Logic.Function.Basic
import Zlvm.Lib.Buffer
import Zlvm.Vm.Alu

/-!
# The machine

The types of `VirtualMachine.h` and the helpers around the execution state.  A machine is passed
explicitly: a function that changes it returns it, next to its result if it has one.

The RAM is the list `memory`, whose length is `_memorySize`.  Standard input and output, which the
interrupts use, are the field `host`.
-/

namespace Zlvm

/-! ## Registers -/

/-- `R_TOTAL` registers. -/
abbrev Register := Fin 32

namespace Register

/-- The read-only zero register. -/
def zero : Register := 0
/-- First procedure result. -/
def v0 : Register := 2
/-- First procedure argument. -/
def a0 : Register := 6
/-- The system call number. -/
def sc : Register := 27
/-- The link pointer. -/
def lp : Register := 28
/-- The stack pointer. -/
def sp : Register := 29
/-- The base stack pointer. -/
def bp : Register := 30
/-- The program counter. -/
def pc : Register := 31

end Register

/-! ## Execution state -/

inductive State
  | halted
  | normal
  | errBegin
  | errOutOfMemory
  | errStackOverflow
  | errStackUnderflow
  | errDivisionByZero
  | errInvalidCondition
  | errInvalidOpcode
  | errEnd
  | total
deriving DecidableEq

/-- `is_error`: from `S_ERR_BEGIN` to `S_ERR_END`. -/
def State.isError : State → Bool
  | halted | normal | total => false
  | _ => true

structure Cpsr where
  N : Bool
  Z : Bool
  C : Bool
  V : Bool
  S : Bool
  ST : State
deriving DecidableEq

/-! ## The machine -/

/-- `ZLVM_ROM_SIZE`. -/
def romSize : ℕ := 4096

/-- `ZLVM_STACK_SIZE`. -/
def stackSize : Word := 256

/-- `ZLVM_WORD_SIZE`. -/
def wordSize : Word := 4

/-- The ROM, with its fixed size. -/
@[ext] structure Rom where
  bytes : Bytes
  size : bytes.length = romSize
deriving DecidableEq

/-- Copy bytes into the ROM. -/
def Rom.write (rom : Rom) (offset : ℕ) (data : Bytes) : Rom :=
  ⟨Buffer.overlay rom.bytes offset data, by rw [Buffer.length_overlay, rom.size]⟩

/-- Standard input still to be read, and standard output written so far. -/
structure Host where
  input : Bytes
  output : Bytes
deriving DecidableEq

@[ext] structure VirtualMachine where
  cpsr : Cpsr
  alu : Alu
  registers : Register → Word
  rom : Rom
  memory : Bytes
  entryPoint : Word
  host : Host

namespace VirtualMachine

/-- `_memorySize`. -/
def memorySize (vm : VirtualMachine) : ℕ := vm.memory.length

/-- Assign a register. -/
def setRegister (vm : VirtualMachine) (r : Register) (value : Word) : VirtualMachine :=
  { vm with registers := Function.update vm.registers r value }

end VirtualMachine

/-- `vm_has_no_error`. -/
def vmHasNoError (vm : VirtualMachine) : Bool := !vm.cpsr.ST.isError

/-- `vm_has_state`. -/
def vmHasState (vm : VirtualMachine) (state : State) : Bool := vm.cpsr.ST == state

/-- `vm_set_state`: the first error stays. -/
def vmSetState (vm : VirtualMachine) (state : State) : VirtualMachine :=
  if vmHasNoError vm then { vm with cpsr := { vm.cpsr with ST := state } } else vm

/-- `vm_initialize`. -/
def vmInitialize (ramSize : ℕ) : VirtualMachine where
  cpsr := { N := false, Z := false, C := false, V := false, S := false, ST := .normal }
  alu := aluReset
  registers := fun _ => 0
  rom := ⟨List.replicate romSize 0, by simp⟩
  memory := List.replicate ramSize 0
  entryPoint := 0
  host := { input := [], output := [] }

/-! ## Small facts -/

section Fields

variable (vm : VirtualMachine) (state : State) (r : Register) (value : Word)

@[simp] theorem vmSetState_registers : (vmSetState vm state).registers = vm.registers := by
  unfold vmSetState
  split <;> rfl

@[simp] theorem vmSetState_rom : (vmSetState vm state).rom = vm.rom := by
  unfold vmSetState
  split <;> rfl

@[simp] theorem vmSetState_memory : (vmSetState vm state).memory = vm.memory := by
  unfold vmSetState
  split <;> rfl

@[simp] theorem vmSetState_alu : (vmSetState vm state).alu = vm.alu := by
  unfold vmSetState
  split <;> rfl

theorem vmSetState_cpsr :
    (vmSetState vm state).cpsr
      = if vmHasNoError vm then { vm.cpsr with ST := state } else vm.cpsr := by
  unfold vmSetState
  split <;> rfl

@[simp] theorem setRegister_registers :
    (vm.setRegister r value).registers = Function.update vm.registers r value := rfl

@[simp] theorem setRegister_self : (vm.setRegister r value).registers r = value :=
  Function.update_self ..

theorem setRegister_of_ne {r' : Register} (h : r' ≠ r) :
    (vm.setRegister r value).registers r' = vm.registers r' := Function.update_of_ne h ..

@[simp] theorem setRegister_rom : (vm.setRegister r value).rom = vm.rom := rfl

@[simp] theorem setRegister_memory : (vm.setRegister r value).memory = vm.memory := rfl

@[simp] theorem setRegister_cpsr : (vm.setRegister r value).cpsr = vm.cpsr := rfl

@[simp] theorem vmHasNoError_setRegister :
    vmHasNoError (vm.setRegister r value) = vmHasNoError vm := rfl

end Fields

/-- After an error has been set there is one. -/
theorem vmHasNoError_vmSetState {vm : VirtualMachine} {state : State}
    (h : state.isError = true) : vmHasNoError (vmSetState vm state) = false := by
  unfold vmSetState
  split
  · simp [vmHasNoError, h]
  · rename_i herr
    simpa using herr

theorem vmHasNoError_of_normal {vm : VirtualMachine} (h : vm.cpsr.ST = .normal) :
    vmHasNoError vm = true := by
  rw [vmHasNoError, h]
  rfl

end Zlvm
