import Zlvm.Isa.Semantics
import Zlvm.Vm.Text

/-!
# The emulator implements the instruction set

* `isa` — what the instruction set shows of a machine of the emulator.
* `isa_setRegister`, `isa_poke`, `isa_vmSetState`, … — how the changes that the emulator makes look
  there.
* `isa_load`, `isa_store`, `isa_push`, `isa_compute`, … — the effects, one by one.
* `isa_vmRunInstruction`, `isa_vmStep` — an instruction and a pass.
* **`vmSteps_refines_isa`** — any number of passes.
-/

namespace Zlvm

open Buffer VirtualMachine

/-- What the instruction set shows of a machine. -/
def isa (vm : VirtualMachine) : IsaMachine where
  registers := clearZero vm.registers
  memory := vm.flat
  cpsr := vm.cpsr
  host := vm.host

/-! ## Changes -/

section Changes

variable {vm : VirtualMachine}

theorem clearZero_update_clearZero (registers : Register → Word) (r : Register) (value : Word) :
    clearZero (Function.update (clearZero registers) r value)
      = clearZero (Function.update registers r value) := by
  funext r'
  simp only [clearZero, Function.update_apply]
  split
  · rfl
  · split <;> rfl

@[simp] theorem isa_setRegister (vm : VirtualMachine) (r : Register) (value : Word) :
    isa (vm.setRegister r value) = (isa vm).write r value :=
  IsaMachine.ext (clearZero_update_clearZero _ _ _).symm rfl rfl rfl

theorem isa_poke (vm : VirtualMachine) (address : ℕ) (data : Bytes) :
    isa (vm.poke address data) = { isa vm with memory := overlay vm.flat address data } :=
  IsaMachine.ext rfl (flat_poke _ _ _) rfl rfl

/-- Clearing `$zero` does not show. -/
theorem isa_clear (vm : VirtualMachine) : isa (vm.setRegister Register.zero 0) = isa vm := by
  refine IsaMachine.ext ?_ rfl rfl rfl
  exact Function.update_idem _ _ _

theorem isa_vmSetState (hok : vmHasNoError vm = true) (state : State) :
    isa (vmSetState vm state) = (isa vm).enter state := by
  unfold vmSetState
  rw [if_pos hok]
  rfl

/-- What follows the switch does not show, unless the result is written back. -/
theorem isa_vmAfterSwitch {reg1 : Register} {writeAluResult : Bool}
    (h : (writeAluResult && vmHasNoError vm) = false) :
    isa (vmAfterSwitch vm reg1 writeAluResult) = isa vm := by
  refine IsaMachine.ext ?_ ?_ (vmAfterSwitch_cpsr _ _ _) ?_
  · show clearZero _ = clearZero _
    rw [vmAfterSwitch_registers h]
    exact Function.update_idem _ _ _
  · show flat _ = flat _
    rw [flat, vmAfterSwitch_rom, vmAfterSwitch_memory, flat]
  · rw [vmAfterSwitch_eq, h]
    rfl

theorem isa_vmAfterSwitch_write (hok : vmHasNoError vm = true) (reg1 : Register) :
    isa (vmAfterSwitch vm reg1 true) = (isa vm).write reg1 vm.alu.result.toUInt32 := by
  rw [vmAfterSwitch_eq, hok, ← isa_setRegister, ← isa_clear (vm.setRegister reg1 _)]
  rfl

/-- The registers show unless `$zero` is not clear. -/
theorem isa_registers (hzero : vm.registers Register.zero = 0) (r : Register) :
    (isa vm).registers r = vm.registers r := by
  show Function.update vm.registers Register.zero 0 r = vm.registers r
  by_cases hr : r = Register.zero
  · rw [hr, Function.update_self, hzero]
  · rw [Function.update_of_ne hr]

/-- The stack pointers are not `$zero`. -/
theorem isa_registers_of_ne {r : Register} (hr : r ≠ Register.zero) :
    (isa vm).registers r = vm.registers r := Function.update_of_ne hr _ _

theorem within_isa {address size : ℕ} {next : IsaMachine} (hsize : vm.memoryEnd ≤ sizeMax) :
    (isa vm).within address size next
      = if vm.Accessible address size then next else (isa vm).enter .errOutOfMemory := by
  have hiff : vm.Accessible address size ↔ address + size ≤ (isa vm).memory.length := by
    show _ ↔ address + size ≤ vm.flat.length
    rw [length_flat, Accessible, and_iff_right hsize]
  by_cases h : vm.Accessible address size
  · rw [if_pos h, IsaMachine.within, if_pos (hiff.mp h)]
  · rw [if_neg h, IsaMachine.within, if_neg fun hle => h (hiff.mpr hle)]

end Changes

/-! ## Arithmetic -/

section Arithmetic

variable {alu : Alu}

theorem wrap_eq {word : Word} {value : ℤ} (h : (word.toNat : ℤ) = value % 2 ^ 32) :
    wrap value = word := by
  rw [wrap, ← h, Int.toNat_natCast, UInt32.ofNat_toNat]

/-- The flags of the arithmetic unit are those of the exact result. -/
theorem aluCompute_exactFlags (hop : alu.op ≠ .noop)
    (hdivisor : alu.op.divides = true → alu.right ≠ 0) :
    (aluCompute alu).flags = exactFlags alu.op alu.left alu.right := by
  have hdescribe := aluCompute_describe hop hdivisor
  rw [← wrap_eq (aluCompute_result hop hdivisor).1] at hdescribe
  obtain ⟨hN, hZ, hS, hV, hC⟩ := hdescribe
  generalize (aluCompute alu).flags = flags at hN hZ hS hV hC ⊢
  obtain ⟨N, Z, V, C, S⟩ := flags
  simp only at hN hZ hS hV hC
  rw [exactFlags, AluFlags.mk.injEq]
  refine ⟨?_, ?_, ?_, ?_, ?_⟩ <;> rw [Bool.eq_iff_iff]
  · rw [hN, decide_eq_true_iff]
  · rw [hZ, beq_iff_eq]
  · rw [hV, Bool.and_eq_true, Bool.not_eq_true', decide_eq_false_iff_not]
  · rw [hC]
    simp only [Bool.or_eq_true, Bool.and_eq_true, beq_iff_eq, decide_eq_true_iff, or_assoc]
  · rw [hS]

end Arithmetic

/-! ## Effects -/

section Effects

variable {vm : VirtualMachine} {rd rs : Register} {imm : Word}

/-- **Arithmetic**, with its result written back or not. -/
theorem isa_compute (hok : vmHasNoError vm = true) (hzero : vm.registers Register.zero = 0)
    {op : Operation} (hop : op ≠ .noop) (source : Operand) (keeps : Bool) :
    isa (vmAfterSwitch (vmDoOperation vm op (vm.registers rd)
        ((isa vm).operand rs imm source)) rd keeps)
      = (isa vm).perform rd rs imm (.compute op source keeps) := by
  generalize hright : (isa vm).operand rs imm source = right
  simp only [IsaMachine.perform, hright, isa_registers hzero]
  unfold vmDoOperation
  by_cases hdivides : op.divides = true ∧ right = 0
  · have hno : vmHasNoError (vmSetState vm .errDivisionByZero) = false :=
      vmHasNoError_vmSetState rfl
    rw [if_pos hdivides, if_pos hdivides, isa_vmAfterSwitch (by rw [hno, Bool.and_false]),
      isa_vmSetState hok]
  · rw [if_neg hdivides, if_neg hdivides]
    have hdivisor : op.divides = true → right ≠ 0 := fun h h' => hdivides ⟨h, h'⟩
    have hflags := @aluCompute_exactFlags { vm.alu with op, left := vm.registers rd, right } hop
      hdivisor
    have hresult := wrap_eq (@aluCompute_result
      { vm.alu with op, left := vm.registers rd, right } hop hdivisor).1
    dsimp only at hflags hresult ⊢
    rw [hresult, ← hflags]
    cases keeps with
    | true => exact (isa_vmAfterSwitch_write (by exact hok) rd).trans rfl
    | false => exact (isa_vmAfterSwitch rfl).trans rfl

/-- **A load.** -/
theorem isa_load (hok : vmHasNoError vm = true) (hzero : vm.registers Register.zero = 0)
    (hsize : vm.memoryEnd ≤ sizeMax) (width : Width) (narrow : width ≠ .dword) :
    isa (vmDispatch vm rd rs imm (width.loadOpcode narrow)).1
      = (isa vm).perform rd rs imm (.load width) := by
  simp only [IsaMachine.perform, isa_registers hzero, within_isa hsize]
  by_cases hacc : vm.Accessible ((vm.registers rs).toNat + imm.toNat) width.size
  · rw [if_pos hacc, vmDispatch_load hacc, isa_setRegister]
    rfl
  · rw [if_neg hacc, vmDispatch_load_fail hacc, isa_vmSetState hok]

/-- **A store.** -/
theorem isa_store (hok : vmHasNoError vm = true) (hzero : vm.registers Register.zero = 0)
    (hsize : vm.memoryEnd ≤ sizeMax) (width : Width) (narrow : width ≠ .dword) :
    isa (vmDispatch vm rd rs imm (width.storeOpcode narrow)).1
      = (isa vm).perform rd rs imm (.store width) := by
  simp only [IsaMachine.perform, isa_registers hzero, within_isa hsize]
  by_cases hacc : vm.Accessible ((vm.registers rs).toNat + imm.toNat) width.size
  · rw [if_pos hacc, vmDispatch_store hacc, isa_poke]
    rfl
  · rw [if_neg hacc, vmDispatch_store_fail hacc, isa_vmSetState hok]

/-- What the checks of a stack operation say about its depth. -/
theorem any_stackDepth (vm : VirtualMachine) (p : ℕ → Bool) :
    (isa vm).stackDepth.any p = true ↔
      (vm.registers Register.bp).toNat ≤ (vm.registers Register.sp).toNat ∧
      ((vm.registers Register.sp).toNat - (vm.registers Register.bp).toNat) % 4 = 0 ∧
      ((vm.registers Register.sp).toNat - (vm.registers Register.bp).toNat) / 4
          ≤ IsaMachine.stackCapacity ∧
      p (((vm.registers Register.sp).toNat - (vm.registers Register.bp).toNat) / 4) = true := by
  rw [IsaMachine.stackDepth, isa_registers_of_ne (by decide), isa_registers_of_ne (by decide)]
  by_cases h : (vm.registers Register.bp).toNat ≤ (vm.registers Register.sp).toNat ∧
      ((vm.registers Register.sp).toNat - (vm.registers Register.bp).toNat) % 4 = 0 ∧
      ((vm.registers Register.sp).toNat - (vm.registers Register.bp).toNat) / 4
          ≤ IsaMachine.stackCapacity
  · rw [if_pos h, Option.any_some, and_iff_right h.1, and_iff_right h.2.1, and_iff_right h.2.2]
  · rw [if_neg h]
    refine iff_of_false Bool.false_ne_true ?_
    rintro ⟨hle, hmod, hdepth, -⟩
    exact h ⟨hle, hmod, hdepth⟩

theorem pushable_iff_stackDepth (vm : VirtualMachine) :
    Pushable vm ↔ (isa vm).stackDepth.any (· < IsaMachine.stackCapacity) = true := by
  have hcapacity : IsaMachine.stackCapacity = 64 := rfl
  rw [any_stackDepth, pushable_iff, decide_eq_true_iff]
  omega

theorem poppable_iff_stackDepth (vm : VirtualMachine) :
    Poppable vm ↔ (isa vm).stackDepth.any (0 < ·) = true := by
  have hcapacity : IsaMachine.stackCapacity = 64 := rfl
  rw [any_stackDepth, poppable_iff, decide_eq_true_iff]
  omega

/-- **A push.** -/
theorem isa_push (hok : vmHasNoError vm = true) (hsize : vm.memoryEnd ≤ sizeMax) (value : Word) :
    isa (vmPushWord vm value).1 = (isa vm).push value := by
  have hsp : (isa vm).registers Register.sp = vm.registers Register.sp :=
    isa_registers_of_ne (by decide)
  simp only [IsaMachine.push, within_isa hsize, hsp]
  by_cases hpush : Pushable vm
  · rw [if_pos ((pushable_iff_stackDepth vm).mp hpush)]
    by_cases hacc : vm.Accessible (vm.registers Register.sp).toNat 4
    · rw [if_pos hacc, vmPushWord_eq hok hpush hacc, isa_setRegister, isa_poke]
      rfl
    · rw [if_neg hacc, vmPushWord_outside hpush hacc, isa_vmSetState hok]
  · rw [if_neg fun h => hpush ((pushable_iff_stackDepth vm).mpr h), vmPushWord_overflow hpush,
      isa_vmSetState hok]

/-- **The word on top**: a continuation of `vmPopWord`, next to one of the specification. -/
theorem isa_top (hok : vmHasNoError vm = true) (hsize : vm.memoryEnd ≤ sizeMax)
    {f : VirtualMachine × Option Word → VirtualMachine} {next : Word → IsaMachine}
    (hnone : ∀ vm', f (vm', none) = vm')
    (hsome : ∀ value, Poppable vm → vm.Accessible (vm.registers Register.sp - 4).toNat 4 →
      value = UInt32.ofNat (LittleEndian.value
        (slice vm.flat (vm.registers Register.sp - 4).toNat 4)) →
      isa (f (vm.setRegister Register.sp (vm.registers Register.sp - 4), some value))
        = next value) : isa (f (vmPopWord vm)) = (isa vm).top next := by
  have hsp : (isa vm).registers Register.sp = vm.registers Register.sp :=
    isa_registers_of_ne (by decide)
  simp only [IsaMachine.top, within_isa hsize, hsp]
  by_cases hpop : Poppable vm
  · rw [if_pos ((poppable_iff_stackDepth vm).mp hpop)]
    by_cases hacc : vm.Accessible (vm.registers Register.sp - 4).toNat 4
    · rw [if_pos hacc, vmPopWord_eq hok hpop hacc, hsome _ hpop hacc rfl]
      rfl
    · rw [if_neg hacc, vmPopWord_outside hpop hacc, hnone, isa_vmSetState hok]
  · rw [if_neg fun h => hpop ((poppable_iff_stackDepth vm).mpr h), vmPopWord_underflow hpop,
      hnone, isa_vmSetState hok]

/-- **An interrupt.** -/
theorem isa_interrupt (hok : vmHasNoError vm = true) (code : Word) :
    isa (vmInterrupt vm code) = (isa vm).interrupt code := by
  have ha0 : (isa vm).registers Register.a0 = vm.registers Register.a0 :=
    isa_registers_of_ne (by decide)
  unfold vmInterrupt IsaMachine.interrupt
  dsimp only
  rw [ha0]
  split
  · rfl
  · split
    · rfl
    · split
      · rw [isa_setRegister]
        obtain ⟨cpsr, alu, registers, rom, memory, entryPoint, ⟨_ | ⟨b, input⟩, output⟩⟩ := vm
        · rfl
        · rfl
      · split
        · exact isa_vmSetState hok _
        · rfl

end Effects

/-! ## The switch -/

section Switch

variable {vm : VirtualMachine} {rd rs : Register} {imm : Word}

/-- An opcode that computes hands its operation and its operands to the arithmetic unit. -/
theorem vmDispatch_compute {op : Opcode} {operation : Operation} {source : Operand} {keeps : Bool}
    (hzero : vm.registers Register.zero = 0) (h : op.effect = .compute operation source keeps) :
    operation ≠ .noop ∧ vmDispatch vm rd rs imm op
      = (vmDoOperation vm operation (vm.registers rd) ((isa vm).operand rs imm source), keeps) := by
  have hrs : (isa vm).operand rs imm .rs = vm.registers rs := isa_registers hzero rs
  cases op
  all_goals
    simp only [Opcode.effect, Effect.compute.injEq, reduceCtorEq] at h
  all_goals
    obtain ⟨rfl, rfl, rfl⟩ := h
    refine ⟨by decide, ?_⟩
    first
      | rfl
      | rw [hrs]; rfl

/-- **The arithmetic and logical opcodes and the comparisons.** -/
theorem isa_vmDispatch_compute (hok : vmHasNoError vm = true)
    (hzero : vm.registers Register.zero = 0) {op : Opcode} {operation : Operation}
    {source : Operand} {keeps : Bool} (h : op.effect = .compute operation source keeps) :
    isa (vmAfterSwitch (vmDispatch vm rd rs imm op).1 rd (vmDispatch vm rd rs imm op).2)
      = (isa vm).perform rd rs imm op.effect := by
  obtain ⟨hop, hdispatch⟩ := @vmDispatch_compute vm rd rs imm op _ _ _ hzero h
  rw [h, hdispatch]
  exact isa_compute hok hzero hop source keeps

/-- **Every case of the switch** does what the table says. -/
theorem isa_vmDispatch (hok : vmHasNoError vm = true) (hzero : vm.registers Register.zero = 0)
    (hsize : vm.memoryEnd ≤ sizeMax) (op : Opcode) :
    isa (vmAfterSwitch (vmDispatch vm rd rs imm op).1 rd (vmDispatch vm rd rs imm op).2)
      = (isa vm).perform rd rs imm op.effect := by
  have hreg := isa_registers hzero
  have hrs : vm.registers rs = (isa vm).operand rs imm .rs := (hreg rs).symm
  cases op
  case nop => exact isa_vmAfterSwitch rfl
  case syscall => exact isa_vmAfterSwitch rfl
  case int => exact (isa_vmAfterSwitch rfl).trans (isa_interrupt hok imm)
  case movr =>
    refine (isa_vmAfterSwitch rfl).trans ((isa_setRegister _ _ _).trans ?_)
    rw [hrs]
    rfl
  case movi => exact (isa_vmAfterSwitch rfl).trans (isa_setRegister _ _ _)
  case jmp => exact (isa_vmAfterSwitch rfl).trans (isa_setRegister _ _ _)
  case ret =>
    refine (isa_vmAfterSwitch rfl).trans ((isa_setRegister _ _ _).trans ?_)
    rw [← hreg Register.lp]
    rfl
  case jmpal =>
    refine (isa_vmAfterSwitch rfl).trans ((isa_setRegister _ _ _).trans ?_)
    rw [isa_setRegister, ← hreg Register.pc]
    rfl
  case pushi => exact (isa_vmAfterSwitch rfl).trans (isa_push hok hsize imm)
  case pushr =>
    refine (isa_vmAfterSwitch rfl).trans ((isa_push hok hsize _).trans ?_)
    rw [← hreg rd]
    rfl
  case pop =>
    simp only [Opcode.effect, IsaMachine.perform, Bool.false_eq_true, if_false, hreg]
    refine (isa_vmAfterSwitch rfl).trans ?_
    exact isa_top (f := Prod.fst) hok hsize (fun _ => rfl) fun value _ _ _ => isa_setRegister _ _ _
  case popr =>
    have hpop : (vmDispatch vm rd rs imm .popr).1 = (vmPopWord vm).2.elim (vmPopWord vm).1
        fun value => (vmPopWord vm).1.setRegister rd value := by
      simp only [vmDispatch]
      rcases vmPopWord vm with ⟨vm', _ | value⟩ <;> rfl
    simp only [Opcode.effect, IsaMachine.perform, if_true, hreg]
    have hwrite : (vmDispatch vm rd rs imm .popr).2 = false := by
      simp only [vmDispatch]
      rcases vmPopWord vm with ⟨vm', _ | value⟩ <;> rfl
    rw [hwrite, isa_vmAfterSwitch rfl, hpop]
    refine isa_top (f := fun popped => popped.2.elim popped.1 fun value =>
      popped.1.setRegister rd value) hok hsize (fun _ => rfl) fun value _ _ _ => ?_
    exact (isa_setRegister _ _ _).trans (congrArg (IsaMachine.write · rd value)
      (isa_setRegister _ _ _))
  case dup =>
    have hdup : (vmDispatch vm rd rs imm .dup).1 = (vmPopWord vm).2.elim (vmPopWord vm).1
        fun value => (vmPushWord (vmPushWord (vmPopWord vm).1 value).1 value).1 := by
      simp only [vmDispatch]
      rcases vmPopWord vm with ⟨vm', _ | value⟩ <;> rfl
    have hwrite : (vmDispatch vm rd rs imm .dup).2 = false := by
      simp only [vmDispatch]
      rcases vmPopWord vm with ⟨vm', _ | value⟩ <;> rfl
    simp only [Opcode.effect, IsaMachine.perform]
    rw [hwrite, isa_vmAfterSwitch rfl, hdup]
    refine isa_top (f := fun popped => popped.2.elim popped.1 fun value =>
      (vmPushWord (vmPushWord popped.1 value).1 value).1) hok hsize (fun _ => rfl)
        fun value hpop hacc hvalue => ?_
    -- the first push puts the popped word back
    show isa (vmPushWord (vmPushWord (vm.setRegister _ _) value).1 value).1 = _
    rw [hvalue, vmPushWord_vmPopWord hok hpop hacc, isa_push hok hsize]
  case loadb => exact (isa_vmAfterSwitch rfl).trans (isa_load hok hzero hsize .byte (by decide))
  case loadh => exact (isa_vmAfterSwitch rfl).trans (isa_load hok hzero hsize .hword (by decide))
  case loadw => exact (isa_vmAfterSwitch rfl).trans (isa_load hok hzero hsize .word (by decide))
  case storeb => exact (isa_vmAfterSwitch rfl).trans (isa_store hok hzero hsize .byte (by decide))
  case storeh => exact (isa_vmAfterSwitch rfl).trans (isa_store hok hzero hsize .hword (by decide))
  case storew => exact (isa_vmAfterSwitch rfl).trans (isa_store hok hzero hsize .word (by decide))
  -- the arithmetic and logical opcodes and the comparisons
  all_goals exact isa_vmDispatch_compute hok hzero rfl

end Switch

/-! ## The instruction -/

/-- **An instruction** does what the instruction set says. -/
theorem isa_vmRunInstruction {vm : VirtualMachine} (hok : vmHasNoError vm = true)
    (hsize : vm.memoryEnd ≤ sizeMax) (instruction : Instruction) :
    isa (vmRunInstruction vm instruction) = (isa vm).execute instruction := by
  have hok' : vmHasNoError (vm.setRegister Register.zero 0) = true := hok
  have hcpsr : (isa vm).cpsr = vm.cpsr := rfl
  unfold IsaMachine.execute
  cases hcond : Condition.ofWord instruction.condition with
  | none => rw [vmRunInstruction_invalidCondition hcond, isa_vmSetState hok', isa_clear]
  | some c =>
      dsimp only
      cases hrun : c.holds vm.cpsr with
      | false =>
          rw [vmRunInstruction_skip hcond hrun, isa_clear, hcpsr, hrun, if_neg Bool.false_ne_true]
      | true =>
          rw [hcpsr, hrun, if_pos rfl]
          by_cases hregs : instruction.register1.toNat < 32 ∧ instruction.register2.toNat < 32
          · rw [vmRunInstruction_eq hcond hrun hregs.1 hregs.2, dif_pos (Nat.max_lt.mpr hregs)]
            cases hop : Opcode.ofWord instruction.opcode with
            | none =>
                simp only [vmSwitch, hop]
                rw [isa_vmAfterSwitch rfl, isa_vmSetState hok', isa_clear]
            | some op =>
                simp only [vmSwitch, hop]
                rw [isa_vmDispatch hok' (setRegister_self _ _ _) hsize, isa_clear]
          · rw [vmRunInstruction_invalidRegister hcond hrun hregs,
              dif_neg fun h => hregs (Nat.max_lt.mp h), isa_vmSetState hok', isa_clear]

/-- **A pass.** -/
theorem isa_vmStep {vm : VirtualMachine} (hok : vmHasNoError vm = true)
    (hsize : vm.memoryEnd ≤ sizeMax) : isa (vmStep vm) = (isa vm).step := by
  have hpc : (isa vm).registers Register.pc = vm.registers Register.pc :=
    isa_registers_of_ne (by decide)
  have hbytes : (isa vm).instructionBytes = instructionBytes vm := by
    rw [IsaMachine.instructionBytes, hpc]
    rfl
  obtain ⟨instruction, hdecode, hfetch⟩ := @vmFetchInstruction_eq vm
  simp only [IsaMachine.step, within_isa hsize, hpc, hbytes, hdecode]
  rw [vmStep, hfetch]
  by_cases hacc : vm.Accessible (vm.registers Register.pc).toNat instructionSize
  · have hok' : vmHasNoError (vm.setRegister Register.pc (vm.registers Register.pc + 8)) = true :=
      hok
    simp only [if_pos hacc, hok', if_true]
    rw [isa_vmRunInstruction hok' hsize, isa_setRegister]
    rfl
  · have hno : vmHasNoError (vmSetState vm .errOutOfMemory) = false := vmHasNoError_vmSetState rfl
    simp only [if_neg hacc, hno, Bool.false_eq_true, if_false]
    exact isa_vmSetState hok _

/-! ## Runs -/

/-- The loop goes on in the normal state only. -/
theorem vmLive_iff_normal {vm : VirtualMachine} (h : vm.cpsr.ST.isConcrete = true) :
    vmLive vm = true ↔ vm.cpsr.ST = .normal := by
  refine ⟨fun hlive => ?_, vmLive_of_normal⟩
  rcases State.isConcrete_cases h with hst | hst | ⟨hst, -⟩
  · exact hst
  · rw [vmLive_of_halted hst] at hlive
    cases hlive
  · rw [vmLive_of_isError hst] at hlive
    cases hlive

/-- A pass ends in a real state. -/
theorem isConcrete_vmStep {vm : VirtualMachine} (hok : vmHasNoError vm = true)
    (h : vm.cpsr.ST.isConcrete = true) : (vmStep vm).cpsr.ST.isConcrete = true := by
  obtain ⟨instruction, -, hfetch⟩ := @vmFetchInstruction_eq vm
  rw [vmStep, hfetch]
  by_cases hacc : vm.Accessible (vm.registers Register.pc).toNat instructionSize
  · have hok' : vmHasNoError (vm.setRegister Register.pc (vm.registers Register.pc + 8)) = true :=
      hok
    simp only [if_pos hacc, hok', if_true]
    obtain ⟨-, hconcrete, -⟩ := cpuClosed_state.runInstruction hok' h instruction
    exact hconcrete
  · have hno : vmHasNoError (vmSetState vm .errOutOfMemory) = false := vmHasNoError_vmSetState rfl
    simp only [if_neg hacc, hno, Bool.false_eq_true, if_false, vmSetState_cpsr, hok, if_true]
    rfl

/-- **A run**, by induction on the number of passes. -/
theorem isa_vmSteps {vm : VirtualMachine} (hconcrete : vm.cpsr.ST.isConcrete = true)
    (hsize : vm.memoryEnd ≤ sizeMax) (n : ℕ) : isa (vmSteps n vm) = (isa vm).run n := by
  induction n generalizing vm with
  | zero => rfl
  | succ n ih =>
      rw [vmSteps, IsaMachine.run]
      by_cases hlive : vmLive vm = true
      · have hok := (Bool.and_eq_true_iff.mp hlive).1
        have hnormal : (isa vm).cpsr.ST = .normal := (vmLive_iff_normal hconcrete).mp hlive
        have hend : (vmStep vm).memoryEnd ≤ sizeMax :=
          ((machineClosed_memoryEnd _).step hok rfl).trans_le hsize
        rw [if_pos hlive, if_pos hnormal, ih (isConcrete_vmStep hok hconcrete) hend,
          isa_vmStep hok hsize]
      · have hstopped : ¬(isa vm).cpsr.ST = .normal := fun h => hlive (vmLive_of_normal h)
        rw [if_neg hlive, if_neg hstopped]

/-- **The emulator implements the instruction set.**  Any number of passes of the loop of `vm_run`
are as many steps of the specification, whatever the program, its memory and its input, and the loop
ends when the specification leaves the normal state. -/
theorem vmSteps_refines_isa {vm : VirtualMachine} (hconcrete : vm.cpsr.ST.isConcrete = true)
    (hsize : vm.memoryEnd ≤ sizeMax) (n : ℕ) :
    isa (vmSteps n vm) = (isa vm).run n ∧
      (vmLive (vmSteps n vm) = true ↔ ((isa vm).run n).cpsr.ST = .normal) := by
  have hruns := isa_vmSteps hconcrete hsize n
  refine ⟨hruns, ?_⟩
  have hreached : (vmSteps n vm).cpsr.ST.isConcrete = true :=
    vmSteps_induction (fun vm => vm.cpsr.ST.isConcrete = true)
      (fun vm h hlive => isConcrete_vmStep (Bool.and_eq_true_iff.mp hlive).1 h) hconcrete n
  rw [← hruns]
  exact vmLive_iff_normal hreached

/-- A machine whose first instruction is `ADDI $v0 1` and whose second divides by zero. -/
def divisionMachine : VirtualMachine :=
  vmStart (vmLoadDump (vmInitialize 16) [13, 0, 2, 0, 1, 0, 0, 0, 11, 0, 2, 0, 0, 0, 0, 0])

theorem vmSteps_refines_isa_division :
    isa (vmSteps 3 divisionMachine) = (isa divisionMachine).run 3 ∧
      (vmLive (vmSteps 3 divisionMachine) = true ↔
        ((isa divisionMachine).run 3).cpsr.ST = .normal) :=
  vmSteps_refines_isa (by decide +kernel) (by decide +kernel) 3

end Zlvm
