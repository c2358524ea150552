import Zlvm.Image.Robust
import Zlvm.Vm.Atomic
import Zlvm.Vm.Load
import Zlvm.Vm.Run

/-!
# The states a run can reach

A run starts from a machine that was just initialised and loaded, and this file states what holds of
the processor at every instruction boundary.

* `CpuClosed` — a property of the state word and the arithmetic unit that setting a state and
  carrying out an operation keep; every helper of the switch keeps it, and so does
  `vmRunInstruction`.
* `aluCompute_sound` — which flags an operation can leave.
* **`vmSteps_cpuInvariant`** — the invariant of every reachable state.
-/

namespace Zlvm

open Buffer VirtualMachine

/-! ## Properties of the processor -/

/-- `S_HALTED`, `S_NORMAL` or an error, but no bound of the error range. -/
def State.isConcrete : State → Bool
  | errBegin | errEnd | total => false
  | _ => true

/-- The state word after an operation. -/
def Cpsr.withFlags (cpsr : Cpsr) (flags : AluFlags) : Cpsr :=
  { cpsr with N := flags.N, Z := flags.Z, V := flags.V, C := flags.C, S := flags.S }

/-- A property of the state word and the arithmetic unit that the helpers of the switch keep. -/
structure CpuClosed (P : Cpsr → Alu → Prop) : Prop where
  state : ∀ {cpsr alu st}, st.isConcrete = true → P cpsr alu → P { cpsr with ST := st } alu
  operation : ∀ {cpsr alu op left right}, op ≠ .noop → ¬(op.divides = true ∧ right = 0) →
    P cpsr alu → P (cpsr.withFlags (aluCompute { alu with op, left, right }).flags)
      (aluCompute { alu with op, left, right })

namespace CpuClosed

variable {P : Cpsr → Alu → Prop} (hP : CpuClosed P) {vm : VirtualMachine}
  {reg1 reg2 : Register} {imm : Word}
include hP

theorem setState {st : State} (hst : st.isConcrete = true) (h : P vm.cpsr vm.alu) :
    P (vmSetState vm st).cpsr (vmSetState vm st).alu := by
  unfold vmSetState
  split
  · exact hP.state hst h
  · exact h

theorem doOperation {op : Operation} (hop : op ≠ .noop) (left right : Word)
    (h : P vm.cpsr vm.alu) :
    P (vmDoOperation vm op left right).cpsr (vmDoOperation vm op left right).alu := by
  unfold vmDoOperation
  split
  · exact hP.setState rfl h
  · rename_i hdivides
    exact hP.operation hop hdivides h

theorem popWord (hok : vmHasNoError vm = true) (h : P vm.cpsr vm.alu) :
    P (vmPopWord vm).1.cpsr (vmPopWord vm).1.alu := by
  by_cases hpop : Poppable vm
  · by_cases hacc : vm.Accessible (vm.registers Register.sp - 4).toNat 4
    · rw [vmPopWord_eq hok hpop hacc]
      exact h
    · rw [vmPopWord_outside hpop hacc]
      exact hP.setState rfl h
  · rw [vmPopWord_underflow hpop]
    exact hP.setState rfl h

theorem pushWord (hok : vmHasNoError vm = true) (value : Word) (h : P vm.cpsr vm.alu) :
    P (vmPushWord vm value).1.cpsr (vmPushWord vm value).1.alu := by
  by_cases hpush : Pushable vm
  · by_cases hacc : vm.Accessible (vm.registers Register.sp).toNat 4
    · rw [vmPushWord_eq hok hpush hacc]
      exact h
    · rw [vmPushWord_outside hpush hacc]
      exact hP.setState rfl h
  · rw [vmPushWord_overflow hpush]
    exact hP.setState rfl h

theorem load {α : Type} {size : ℕ} {read : VirtualMachine → ℕ → VirtualMachine × α}
    {merge : Word → α → Word}
    (hread : ∀ address, vm.Accessible address size → (read vm address).1 = vm)
    (h : P vm.cpsr vm.alu) :
    P (vmLoad vm reg1 reg2 imm size read merge).cpsr
      (vmLoad vm reg1 reg2 imm size read merge).alu := by
  by_cases hacc : vm.Accessible ((vm.registers reg2).toNat + imm.toNat) size
  · rw [vmLoad_eq hacc (Prod.ext (hread _ hacc) rfl)]
    exact h
  · rw [vmLoad_eq_fail hacc]
    exact hP.setState rfl h

theorem store {size : ℕ} {write : VirtualMachine → ℕ → Word → VirtualMachine}
    (hwrite : ∀ address value, vm.Accessible address size →
      ∃ data : Bytes, write vm address value = vm.poke address data)
    (h : P vm.cpsr vm.alu) :
    P (vmStore vm reg1 reg2 imm size write).cpsr
      (vmStore vm reg1 reg2 imm size write).alu := by
  by_cases hacc : vm.Accessible ((vm.registers reg2).toNat + imm.toNat) size
  · obtain ⟨data, hdata⟩ :=
      hwrite ((vm.registers reg2).toNat + imm.toNat) (vm.registers reg1) hacc
    rw [vmStore_eq hacc, hdata]
    exact h
  · rw [vmStore_eq_fail hacc]
    exact hP.setState rfl h

theorem interrupt (code : Word) (h : P vm.cpsr vm.alu) :
    P (vmInterrupt vm code).cpsr (vmInterrupt vm code).alu := by
  unfold vmInterrupt
  split
  · exact h
  · split
    · exact h
    · split
      · have hget : P vm.getByte.1.cpsr vm.getByte.1.alu := by
          unfold VirtualMachine.getByte
          split <;> exact h
        exact hget
      · split
        · exact hP.setState rfl h
        · exact h

/-- **Every case of the switch.** -/
theorem dispatch (hok : vmHasNoError vm = true) (h : P vm.cpsr vm.alu) (op : Opcode) :
    P (vmDispatch vm reg1 reg2 imm op).1.cpsr
      (vmDispatch vm reg1 reg2 imm op).1.alu := by
  cases op
  case nop => exact h
  case syscall => exact h
  case movr => exact h
  case movi => exact h
  case jmpal => exact h
  case jmp => exact h
  case ret => exact h
  case int => exact hP.interrupt imm h
  case pop => exact hP.popWord hok h
  case pushr => exact hP.pushWord hok _ h
  case pushi => exact hP.pushWord hok _ h
  case popr =>
    simp only [vmDispatch]
    by_cases hpop : Poppable vm
    · by_cases hacc : vm.Accessible (vm.registers Register.sp - 4).toNat 4
      · rw [vmPopWord_eq hok hpop hacc]
        exact h
      · rw [vmPopWord_outside hpop hacc]
        exact hP.setState rfl h
    · rw [vmPopWord_underflow hpop]
      exact hP.setState rfl h
  case dup =>
    simp only [vmDispatch]
    by_cases hpop : Poppable vm
    · by_cases hacc : vm.Accessible (vm.registers Register.sp - 4).toNat 4
      · -- the first push puts the popped word back
        rw [vmPopWord_eq hok hpop hacc]
        simp only [vmPushWord_vmPopWord hok hpop hacc]
        exact hP.pushWord hok _ h
      · rw [vmPopWord_outside hpop hacc]
        exact hP.setState rfl h
    · rw [vmPopWord_underflow hpop]
      exact hP.setState rfl h
  case loadb =>
    simp only [vmDispatch]
    exact hP.load (fun _ hacc => by rw [vmReadByte_eq hacc]) h
  case loadh =>
    simp only [vmDispatch]
    exact hP.load (fun _ hacc => by rw [vmReadHword, vmReadScalar_eq hacc (by omega)]) h
  case loadw =>
    simp only [vmDispatch]
    exact hP.load (fun _ hacc => by rw [vmReadWord_eq hacc]) h
  case storeb =>
    simp only [vmDispatch]
    exact hP.store (fun _ _ hacc => ⟨_, vmWriteByte_eq hacc _⟩) h
  case storeh =>
    simp only [vmDispatch]
    exact hP.store (fun _ _ hacc => ⟨_, vmWriteScalar_eq hacc (by omega) _⟩) h
  case storew =>
    simp only [vmDispatch]
    exact hP.store (fun _ _ hacc => ⟨_, vmWriteWord_eq hacc _⟩) h
  -- the arithmetic and logical opcodes and the comparisons
  all_goals exact hP.doOperation (by decide) _ _ h

/-- **One instruction** does not reach the switch and leaves the arithmetic unit alone, or what
follows the switch resets the unit. -/
theorem runInstruction (hok : vmHasNoError vm = true) (h : P vm.cpsr vm.alu)
    (instruction : Instruction) :
    ∃ alu, P (vmRunInstruction vm instruction).cpsr alu ∧
      (alu = vm.alu ∧ (vmRunInstruction vm instruction).alu = vm.alu ∨
        (vmRunInstruction vm instruction).alu = if alu.op ≠ .noop then aluReset else alu) := by
  have hzero : P (vm.setRegister Register.zero 0).cpsr (vm.setRegister Register.zero 0).alu := h
  have hok : vmHasNoError (vm.setRegister Register.zero 0) = true := hok
  cases hcond : Condition.ofWord instruction.condition with
  | none =>
      rw [vmRunInstruction_invalidCondition hcond]
      exact ⟨_, hP.setState rfl hzero, .inl ⟨vmSetState_alu .., vmSetState_alu ..⟩⟩
  | some c =>
      cases hrun : c.holds vm.cpsr with
      | false =>
          rw [vmRunInstruction_skip hcond hrun]
          exact ⟨_, h, .inl ⟨rfl, rfl⟩⟩
      | true =>
          by_cases hregs : instruction.register1.toNat < 32 ∧ instruction.register2.toNat < 32
          · rw [vmRunInstruction_eq hcond hrun hregs.1 hregs.2]
            refine ⟨_, ?_, .inr (congrArg VirtualMachine.alu (vmAfterSwitch_eq _ _ _))⟩
            rw [vmAfterSwitch_cpsr, vmSwitch]
            split
            · exact hP.dispatch hok hzero _
            · exact hP.setState rfl hzero
          · rw [vmRunInstruction_invalidRegister hcond hrun hregs]
            exact ⟨_, hP.setState rfl hzero, .inl ⟨vmSetState_alu .., vmSetState_alu ..⟩⟩

end CpuClosed

/-! ## The flags -/

/-- What holds of the state word of every reachable machine. -/
structure Cpsr.Sound (cpsr : Cpsr) : Prop where
  state : cpsr.ST.isConcrete = true
  sign : ¬(cpsr.N = true ∧ cpsr.Z = true)
  carry : cpsr.C = true → cpsr.S = false
  overflow : cpsr.V = true → cpsr.S = true

theorem aluCompute_op (alu : Alu) : (aluCompute alu).op = alu.op := by
  unfold aluCompute
  dsimp only
  split
  · rfl
  · split
    · rfl
    · unfold aluSetFlags aluSetSignedFlags aluSetUnsignedFlags
      dsimp only
      split <;> rfl

/-- **The flags that an operation leaves.** -/
theorem aluCompute_sound {cpsr : Cpsr} (hst : cpsr.ST.isConcrete = true) (alu : Alu) :
    (cpsr.withFlags (aluCompute alu).flags).Sound := by
  have hsign : ∀ value : Word, ¬(decide (value.toInt32 < 0) = true ∧ (value == 0) = true) := by
    rintro value ⟨hneg, hzero⟩
    rw [beq_iff_eq] at hzero
    subst hzero
    exact absurd hneg (by decide)
  unfold aluCompute
  dsimp only
  split
  · exact ⟨hst, fun h => Bool.false_ne_true h.1, fun _ => rfl, fun h => absurd h Bool.false_ne_true⟩
  · split
    · exact ⟨hst, fun h => Bool.false_ne_true h.1, fun _ => rfl,
        fun h => absurd h Bool.false_ne_true⟩
    · rename_i result _
      cases hsigned : alu.op.isSigned with
      | true =>
          simp only [aluSetFlags, hsigned, if_true]
          exact ⟨hst, hsign _, fun h => absurd h Bool.false_ne_true, fun _ => rfl⟩
      | false =>
          simp only [aluSetFlags, hsigned, Bool.false_eq_true, if_false]
          exact ⟨hst, hsign _, fun _ => rfl, fun h => absurd h Bool.false_ne_true⟩

/-- Within an instruction the unit is idle or holds an operation, which is then reset. -/
theorem cpuClosed_sound :
    CpuClosed fun cpsr alu => cpsr.Sound ∧ (alu = aluReset ∨ alu.op ≠ .noop) where
  state hst h := ⟨⟨hst, h.1.sign, h.1.carry, h.1.overflow⟩, h.2⟩
  operation hop _ h := ⟨aluCompute_sound h.1.state _, .inr (by rw [aluCompute_op]; exact hop)⟩

/-! ## Every reachable state -/

/-- The invariant of the processor at an instruction boundary. -/
structure CpuInvariant (vm : VirtualMachine) : Prop where
  zero : vm.registers Register.zero = 0
  idle : vm.alu = { left := 0, right := 0, result := 0, op := .noop, flags := {} }
  sound : vm.cpsr.Sound

/-- An error keeps the invariant. -/
theorem CpuInvariant.setState {vm : VirtualMachine} (h : CpuInvariant vm) {state : State}
    (hstate : state.isConcrete = true) : CpuInvariant (vmSetState vm state) := by
  have hcpu := cpuClosed_sound.setState hstate ⟨h.sound, .inl h.idle⟩
  refine ⟨?_, ?_, hcpu.1⟩
  · rw [vmSetState_registers, h.zero]
  · rw [vmSetState_alu, h.idle]

/-- A machine that was initialised, given its input, and loaded with a program or an image. -/
inductive FreshlyLoaded : VirtualMachine → Prop
  | dump (ramSize : ℕ) (host : Host) (program : Bytes) :
      FreshlyLoaded (vmLoadDump { vmInitialize ramSize with host } program)
  | image (ramSize : ℕ) (host : Host) (alloc : Allocator) (bytes : Bytes) :
      FreshlyLoaded (vmLoadImage alloc { vmInitialize ramSize with host } bytes).1

/-- **One instruction keeps the invariant.** -/
theorem vmRunInstruction_cpuInvariant {vm : VirtualMachine} (hok : vmHasNoError vm = true)
    (h : CpuInvariant vm) (instruction : Instruction) :
    CpuInvariant (vmRunInstruction vm instruction) := by
  obtain ⟨alu, ⟨hsound, halu⟩, hend⟩ :=
    cpuClosed_sound.runInstruction hok ⟨h.sound, .inl h.idle⟩ instruction
  refine ⟨vmRunInstruction_zero vm instruction, ?_, hsound⟩
  rcases hend with ⟨-, hsame⟩ | hreset
  · exact hsame.trans h.idle
  · rw [hreset]
    split
    · rfl
    · rename_i hop
      exact halu.resolve_right hop

/-- **One pass keeps the invariant**, whether its fetch succeeds or not. -/
theorem vmStep_cpuInvariant {vm : VirtualMachine} (hok : vmHasNoError vm = true)
    (h : CpuInvariant vm) : CpuInvariant (vmStep vm) := by
  obtain ⟨instruction, -, hfetch⟩ := @vmFetchInstruction_eq vm
  rw [vmStep, hfetch]
  by_cases hacc : vm.Accessible (vm.registers Register.pc).toNat instructionSize
  · rw [if_pos hacc]
    have hmoved : CpuInvariant (vm.setRegister Register.pc (vm.registers Register.pc + 8)) :=
      ⟨(setRegister_of_ne _ _ _ (by decide)).trans h.zero, h.idle, h.sound⟩
    have hok' : vmHasNoError (vm.setRegister Register.pc (vm.registers Register.pc + 8)) = true :=
      hok
    simp only [hok', if_true]
    exact vmRunInstruction_cpuInvariant hok' hmoved instruction
  · rw [if_neg hacc]
    have hno : vmHasNoError (vmSetState vm .errOutOfMemory) = false := vmHasNoError_vmSetState rfl
    simp only [hno, Bool.false_eq_true, if_false]
    exact h.setState rfl

theorem FreshlyLoaded.cpuInvariant {vm : VirtualMachine} (h : FreshlyLoaded vm) :
    CpuInvariant (vmStart vm) := by
  have hinit : ∀ ramSize host, CpuInvariant { vmInitialize ramSize with host } := fun _ _ =>
    ⟨rfl, rfl, rfl, fun h => Bool.false_ne_true h.1, fun _ => rfl,
      fun h => absurd h Bool.false_ne_true⟩
  have hstart : ∀ {vm}, CpuInvariant vm → CpuInvariant (vmStart vm) := fun h =>
    ⟨h.zero, h.idle, h.sound⟩
  refine hstart ?_
  cases h with
  | dump ramSize host program =>
      unfold vmLoadDump
      split
      · exact (hinit ramSize host).setState rfl
      · exact ⟨rfl, rfl, (hinit ramSize host).sound⟩
  | image ramSize host alloc bytes =>
      obtain ⟨_, _, hload⟩ | ⟨_, _, _, hload, -⟩ :=
        vmLoadImage_atomic alloc { vmInitialize ramSize with host } bytes
      · rw [hload]
        exact hinit ramSize host
      · rw [hload]
        exact ⟨rfl, rfl, (hinit ramSize host).sound⟩

/-- **The reachable states of the processor.** -/
theorem vmSteps_cpuInvariant {vm : VirtualMachine} (h : FreshlyLoaded vm) (n : ℕ) :
    CpuInvariant (vmSteps n (vmStart vm)) :=
  vmSteps_induction CpuInvariant
    (fun _ h hlive => vmStep_cpuInvariant (Bool.and_eq_true_iff.mp hlive).1 h) h.cpuInvariant n

/-- A machine whose first instruction is `ADDI $v0 1` and whose second divides by zero. -/
theorem vmSteps_cpuInvariant_division :
    CpuInvariant (vmSteps 3 (vmStart (vmLoadDump { vmInitialize 16 with host := ⟨[65], []⟩ }
      [13, 0, 2, 0, 1, 0, 0, 0, 11, 0, 2, 0, 0, 0, 0, 0]))) :=
  vmSteps_cpuInvariant (.dump 16 ⟨[65], []⟩ _) 3

end Zlvm
