import Zlvm.Vm.Execute

/-!
# Errors change nothing

An instruction that ends in an error leaves registers, memory and flags as they were.

* `SameMachine` — equal up to the execution state, the arithmetic unit and the host.
* `vmPopWord_eq`, `vmPushWord_eq` and their failing counterparts — what the two stack operations
  can do.
* `vmDispatch_atomic` — every case of the switch ends without an error or in the same machine.
* **`vmRunInstruction_atomic`** — the whole instruction.
-/

namespace Zlvm

open Buffer VirtualMachine

/-- The two machines agree on registers, memory and flags. -/
structure SameMachine (vm vm' : VirtualMachine) : Prop where
  registers : vm'.registers = vm.registers
  rom : vm'.rom = vm.rom
  memory : vm'.memory = vm.memory
  flags : vm'.cpsr.N = vm.cpsr.N ∧ vm'.cpsr.Z = vm.cpsr.Z ∧ vm'.cpsr.C = vm.cpsr.C ∧
    vm'.cpsr.V = vm.cpsr.V ∧ vm'.cpsr.S = vm.cpsr.S

theorem SameMachine.refl (vm : VirtualMachine) : SameMachine vm vm :=
  ⟨rfl, rfl, rfl, rfl, rfl, rfl, rfl, rfl⟩

theorem sameMachine_vmSetState (vm : VirtualMachine) (state : State) :
    SameMachine vm (vmSetState vm state) := by
  unfold vmSetState
  split <;> exact ⟨rfl, rfl, rfl, rfl, rfl, rfl, rfl, rfl⟩

/-- Without an error, or as before. -/
def Atomic (vm vm' : VirtualMachine) : Prop := vmHasNoError vm' = true ∨ SameMachine vm vm'

/-! ## Stack operations -/

section Stack

variable {vm : VirtualMachine}

/-- The operand of a pop, as a number: how much stack is in use. -/
abbrev usedStack (vm : VirtualMachine) : Word := vm.registers Register.sp - vm.registers Register.bp

/-- The stack pointer is at a word boundary of a nonempty stack. -/
def Poppable (vm : VirtualMachine) : Prop :=
  vm.registers Register.bp ≤ vm.registers Register.sp ∧ 4 ≤ usedStack vm ∧ usedStack vm ≤ 256 ∧
    usedStack vm % 4 = 0

/-- The stack pointer is at a word boundary of a stack that is not full. -/
def Pushable (vm : VirtualMachine) : Prop :=
  vm.registers Register.bp ≤ vm.registers Register.sp ∧ usedStack vm ≤ 252 ∧
    usedStack vm % 4 = 0

theorem toNat_usedStack (hle : vm.registers Register.bp ≤ vm.registers Register.sp) :
    (usedStack vm).toNat
      = (vm.registers Register.sp).toNat - (vm.registers Register.bp).toNat :=
  UInt32.toNat_sub_of_le _ _ hle

/-- `Poppable` in natural numbers. -/
theorem poppable_iff : Poppable vm ↔
    (vm.registers Register.bp).toNat ≤ (vm.registers Register.sp).toNat ∧
    4 ≤ (vm.registers Register.sp).toNat - (vm.registers Register.bp).toNat ∧
    (vm.registers Register.sp).toNat - (vm.registers Register.bp).toNat ≤ 256 ∧
    ((vm.registers Register.sp).toNat - (vm.registers Register.bp).toNat) % 4 = 0 := by
  rw [Poppable, ← UInt32.le_iff_toNat_le]
  refine and_congr_right fun hle => ?_
  rw [← toNat_usedStack hle, UInt32.le_iff_toNat_le, UInt32.le_iff_toNat_le, ← UInt32.toNat_inj,
    UInt32.toNat_mod]
  rfl

/-- `Pushable` in natural numbers. -/
theorem pushable_iff : Pushable vm ↔
    (vm.registers Register.bp).toNat ≤ (vm.registers Register.sp).toNat ∧
    (vm.registers Register.sp).toNat - (vm.registers Register.bp).toNat ≤ 252 ∧
    ((vm.registers Register.sp).toNat - (vm.registers Register.bp).toNat) % 4 = 0 := by
  rw [Pushable, ← UInt32.le_iff_toNat_le]
  refine and_congr_right fun hle => ?_
  rw [← toNat_usedStack hle, UInt32.le_iff_toNat_le, ← UInt32.toNat_inj, UInt32.toNat_mod]
  rfl

theorem not_poppable_iff : ¬Poppable vm ↔
    vm.registers Register.sp < vm.registers Register.bp ∨ usedStack vm < wordSize ∨
      usedStack vm > stackSize ∨ usedStack vm % wordSize ≠ 0 := by
  simp only [Poppable, not_and_or, UInt32.not_le]
  rfl

theorem not_pushable_iff : ¬Pushable vm ↔
    vm.registers Register.sp < vm.registers Register.bp ∨ usedStack vm > stackSize - wordSize ∨
      usedStack vm % wordSize ≠ 0 := by
  simp only [Pushable, not_and_or, UInt32.not_le]
  rfl

/-- A pop from an empty or a misplaced stack. -/
theorem vmPopWord_underflow (h : ¬Poppable vm) :
    vmPopWord vm = (vmSetState vm .errStackUnderflow, none) :=
  if_pos (not_poppable_iff.mp h)

/-- A pop of a word outside the memory. -/
theorem vmPopWord_outside (h : Poppable vm)
    (hacc : ¬vm.Accessible (vm.registers Register.sp - 4).toNat 4) :
    vmPopWord vm = (vmSetState vm .errOutOfMemory, none) := by
  have hcond := fun hc => not_poppable_iff.mpr hc h
  unfold vmPopWord
  dsimp only
  rw [if_neg hcond]
  simp only [show wordSize = 4 from rfl, vmReadWord, vmReadScalar_eq_fail hacc]
  rw [vmHasNoError_vmSetState rfl]
  rfl

/-- **A pop** takes the word below the stack pointer. -/
theorem vmPopWord_eq (hok : vmHasNoError vm = true) (h : Poppable vm)
    (hacc : vm.Accessible (vm.registers Register.sp - 4).toNat 4) :
    vmPopWord vm = (vm.setRegister Register.sp (vm.registers Register.sp - 4),
      some (UInt32.ofNat (LittleEndian.value
        (slice vm.flat (vm.registers Register.sp - 4).toNat 4)))) := by
  have hcond := fun hc => not_poppable_iff.mpr hc h
  unfold vmPopWord
  dsimp only
  rw [if_neg hcond]
  simp only [show wordSize = 4 from rfl, vmReadWord_eq hacc]
  rw [if_neg]
  simp [hok]

/-- A push onto a full or a misplaced stack. -/
theorem vmPushWord_overflow (h : ¬Pushable vm) (value : Word) :
    vmPushWord vm value = (vmSetState vm .errStackOverflow, false) :=
  if_pos (not_pushable_iff.mp h)

/-- A push to an address outside the memory. -/
theorem vmPushWord_outside (h : Pushable vm)
    (hacc : ¬vm.Accessible (vm.registers Register.sp).toNat 4) (value : Word) :
    vmPushWord vm value = (vmSetState vm .errOutOfMemory, false) := by
  have hcond := fun hc => not_pushable_iff.mpr hc h
  unfold vmPushWord
  dsimp only
  rw [if_neg hcond]
  simp only [vmValidateRange_eq, if_neg hacc]
  rfl

/-- **A push** stores the word at the stack pointer. -/
theorem vmPushWord_eq (hok : vmHasNoError vm = true) (h : Pushable vm)
    (hacc : vm.Accessible (vm.registers Register.sp).toNat 4) (value : Word) :
    vmPushWord vm value
      = ((vm.poke (vm.registers Register.sp).toNat
          (LittleEndian.bytes 4 value.toNat)).setRegister Register.sp
            (vm.registers Register.sp + 4), true) := by
  have hcond := fun hc => not_pushable_iff.mpr hc h
  have hpoke : ∀ data, vmHasNoError (vm.poke (vm.registers Register.sp).toNat data) = true :=
    fun _ => hok
  unfold vmPushWord
  dsimp only
  rw [if_neg hcond]
  simp only [vmValidateRange_eq, if_pos hacc, vmWriteWord_eq hacc, hpoke]
  rfl

end Stack

/-! ## The switch -/

section Dispatch

variable {vm : VirtualMachine}

theorem Atomic.of_cpsr {vm' : VirtualMachine} (hok : vmHasNoError vm = true)
    (h : vm'.cpsr = vm.cpsr) : Atomic vm vm' :=
  .inl (by rw [vmHasNoError, h]; exact hok)

theorem Atomic.set (state : State) : Atomic vm (vmSetState vm state) :=
  .inr (sameMachine_vmSetState vm state)

theorem vmDoOperation_atomic (hok : vmHasNoError vm = true) (op : Operation) (left right : Word) :
    Atomic vm (vmDoOperation vm op left right) := by
  unfold vmDoOperation
  split
  · exact .set _
  · exact .inl hok

theorem vmPushWord_atomic (hok : vmHasNoError vm = true) (value : Word) :
    Atomic vm (vmPushWord vm value).1 := by
  by_cases hpush : Pushable vm
  · by_cases hacc : vm.Accessible (vm.registers Register.sp).toNat 4
    · rw [vmPushWord_eq hok hpush hacc]
      exact .inl hok
    · rw [vmPushWord_outside hpush hacc]
      exact .set _
  · rw [vmPushWord_overflow hpush]
    exact .set _

/-- A word that has just been popped can be pushed back, and that undoes the pop. -/
theorem vmPushWord_vmPopWord (hok : vmHasNoError vm = true) (h : Poppable vm)
    (hacc : vm.Accessible (vm.registers Register.sp - 4).toNat 4) :
    (vmPushWord (vm.setRegister Register.sp (vm.registers Register.sp - 4))
      (UInt32.ofNat (LittleEndian.value
        (slice vm.flat (vm.registers Register.sp - 4).toNat 4)))).1 = vm := by
  obtain ⟨hle, hlow, hhigh, hmod⟩ := poppable_iff.mp h
  have hsp : (vm.setRegister Register.sp (vm.registers Register.sp - 4)).registers Register.sp
      = vm.registers Register.sp - 4 := setRegister_self ..
  have hbp : (vm.setRegister Register.sp (vm.registers Register.sp - 4)).registers Register.bp
      = vm.registers Register.bp :=
    setRegister_of_ne _ _ _ (by decide)
  have hfour : (4 : Word) ≤ vm.registers Register.sp :=
    UInt32.le_iff_toNat_le.mpr (by simp; omega)
  have hpush : Pushable (vm.setRegister Register.sp (vm.registers Register.sp - 4)) := by
    rw [pushable_iff, hsp, hbp, UInt32.toNat_sub_of_le _ _ hfour]
    simp only [UInt32.reduceToNat]
    omega
  have hok' : vmHasNoError (vm.setRegister Register.sp (vm.registers Register.sp - 4)) = true := hok
  rw [vmPushWord_eq hok' hpush (by rw [hsp]; exact hacc), hsp, LittleEndian.bytes_value_word
    (length_slice_of_le (by rw [length_flat]; exact hacc.2))]
  refine ext_flat ?_ rfl rfl ?_ rfl rfl
  · exact (flat_poke _ _ _).trans (overlay_slice _ _ _)
  · funext r
    by_cases hr : r = Register.sp
    · subst hr
      simp
    · simp [hr]

variable {reg1 reg2 : Register} {imm : Word}

theorem vmDup_atomic (hok : vmHasNoError vm = true) :
    Atomic vm (vmDispatch vm reg1 reg2 imm .dup).1 := by
  rw [vmDispatch]
  by_cases hpop : Poppable vm
  · by_cases hacc : vm.Accessible (vm.registers Register.sp - 4).toNat 4
    · -- the pop and the first push cancel; only the second push can fail
      rw [vmPopWord_eq hok hpop hacc]
      simp only [vmPushWord_vmPopWord hok hpop hacc]
      exact vmPushWord_atomic hok _
    · rw [vmPopWord_outside hpop hacc]
      exact .set _
  · rw [vmPopWord_underflow hpop]
    exact .set _

theorem vmPopr_atomic (hok : vmHasNoError vm = true) :
    Atomic vm (vmDispatch vm reg1 reg2 imm .popr).1 := by
  rw [vmDispatch]
  by_cases hpop : Poppable vm
  · by_cases hacc : vm.Accessible (vm.registers Register.sp - 4).toNat 4
    · rw [vmPopWord_eq hok hpop hacc]
      exact .inl hok
    · rw [vmPopWord_outside hpop hacc]
      exact .set _
  · rw [vmPopWord_underflow hpop]
    exact .set _

theorem vmPop_atomic (hok : vmHasNoError vm = true) :
    Atomic vm (vmDispatch vm reg1 reg2 imm .pop).1 := by
  rw [vmDispatch]
  by_cases hpop : Poppable vm
  · by_cases hacc : vm.Accessible (vm.registers Register.sp - 4).toNat 4
    · rw [vmPopWord_eq hok hpop hacc]
      exact .inl hok
    · rw [vmPopWord_outside hpop hacc]
      exact .set _
  · rw [vmPopWord_underflow hpop]
    exact .set _

/-- A load that passes the range check reads and assigns; neither fails. -/
theorem vmLoad_atomic {α : Type} (hok : vmHasNoError vm = true) {size : ℕ}
    {read : VirtualMachine → ℕ → VirtualMachine × α} {merge : Word → α → Word}
    (hread : ∀ address, vm.Accessible address size → (read vm address).1 = vm) :
    Atomic vm (vmLoad vm reg1 reg2 imm size read merge) := by
  by_cases hacc : vm.Accessible ((vm.registers reg2).toNat + imm.toNat) size
  · rw [vmLoad_eq hacc (Prod.ext (hread _ hacc) rfl)]
    exact .of_cpsr hok rfl
  · rw [vmLoad_eq_fail hacc]
    exact .set _

/-- A store that passes the range check writes, which does not fail. -/
theorem vmStore_atomic (hok : vmHasNoError vm = true) {size : ℕ}
    {write : VirtualMachine → ℕ → Word → VirtualMachine}
    (hwrite : ∀ address value, vm.Accessible address size →
      (write vm address value).cpsr = vm.cpsr) :
    Atomic vm (vmStore vm reg1 reg2 imm size write) := by
  by_cases hacc : vm.Accessible ((vm.registers reg2).toNat + imm.toNat) size
  · rw [vmStore_eq hacc]
    exact .of_cpsr hok (hwrite _ _ hacc)
  · rw [vmStore_eq_fail hacc]
    exact .set _

theorem vmInterrupt_atomic (hok : vmHasNoError vm = true) (code : Word) :
    Atomic vm (vmInterrupt vm code) := by
  unfold vmInterrupt
  split
  · exact .of_cpsr hok rfl
  · split
    · exact .of_cpsr hok rfl
    · split
      · refine .of_cpsr hok ?_
        rw [setRegister_cpsr, getByte]
        split <;> rfl
      · split
        · exact .set _
        · exact .of_cpsr hok rfl

/-- **Every case of the switch is atomic.** -/
theorem vmDispatch_atomic (hok : vmHasNoError vm = true) (op : Opcode) :
    Atomic vm (vmDispatch vm reg1 reg2 imm op).1 := by
  cases op
  case dup => exact vmDup_atomic hok
  case popr => exact vmPopr_atomic hok
  case pop => exact vmPop_atomic hok
  case pushr => exact vmPushWord_atomic hok _
  case pushi => exact vmPushWord_atomic hok _
  case loadb =>
    simp only [vmDispatch]
    exact vmLoad_atomic hok fun _ hacc => by rw [vmReadByte_eq hacc]
  case loadh =>
    simp only [vmDispatch]
    exact vmLoad_atomic hok fun _ hacc => by rw [vmReadHword, vmReadScalar_eq hacc (by omega)]
  case loadw =>
    simp only [vmDispatch]
    exact vmLoad_atomic hok fun _ hacc => by rw [vmReadWord_eq hacc]
  case storeb =>
    simp only [vmDispatch]
    exact vmStore_atomic hok fun _ _ hacc => by rw [vmWriteByte_eq hacc, poke_cpsr]
  case storeh =>
    simp only [vmDispatch]
    exact vmStore_atomic hok fun _ _ hacc => by
      rw [vmWriteHword, vmWriteScalar_eq hacc (by omega), poke_cpsr]
  case storew =>
    simp only [vmDispatch]
    exact vmStore_atomic hok fun _ _ hacc => by rw [vmWriteWord_eq hacc, poke_cpsr]
  case int => exact vmInterrupt_atomic hok _
  case nop => exact .of_cpsr hok rfl
  case syscall => exact .of_cpsr hok rfl
  case movr => exact .of_cpsr hok rfl
  case movi => exact .of_cpsr hok rfl
  case jmp => exact .of_cpsr hok rfl
  case jmpal => exact .of_cpsr hok rfl
  case ret => exact .of_cpsr hok rfl
  -- the arithmetic opcodes and the comparisons
  all_goals exact vmDoOperation_atomic hok _ _ _

end Dispatch

/-! ## The instruction -/

/-- No register but `$zero`, which is clear, no byte of ROM or RAM and no flag differs. -/
structure Unchanged (vm vm' : VirtualMachine) : Prop where
  registers : ∀ r, r ≠ Register.zero → vm'.registers r = vm.registers r
  zero : vm'.registers Register.zero = 0
  rom : vm'.rom = vm.rom
  memory : vm'.memory = vm.memory
  N : vm'.cpsr.N = vm.cpsr.N
  Z : vm'.cpsr.Z = vm.cpsr.Z
  C : vm'.cpsr.C = vm.cpsr.C
  V : vm'.cpsr.V = vm.cpsr.V
  S : vm'.cpsr.S = vm.cpsr.S

/-- **Errors are atomic.**  An instruction run in the normal state that leaves the machine in an
error state has changed no register but `$zero`, which it has cleared, no byte of ROM or RAM and
no flag. -/
theorem vmRunInstruction_atomic {vm : VirtualMachine} (hnormal : vm.cpsr.ST = .normal)
    (instruction : Instruction)
    (herror : (vmRunInstruction vm instruction).cpsr.ST.isError = true) :
    Unchanged vm (vmRunInstruction vm instruction) := by
  have hok : vmHasNoError (vm.setRegister Register.zero 0) = true :=
    vmHasNoError_of_normal hnormal
  -- what the machine with a cleared `$zero` and one like it have in common with `vm`
  have hsame : ∀ vm', SameMachine (vm.setRegister Register.zero 0) vm' → Unchanged vm vm' := by
    intro vm' h
    obtain ⟨hN, hZ, hC, hV, hS⟩ := h.flags
    refine ⟨fun r hr => ?_, ?_, h.rom, h.memory, hN, hZ, hC, hV, hS⟩
    · rw [h.registers, setRegister_of_ne _ _ _ hr]
    · rw [h.registers, setRegister_self]
  cases hcond : Condition.ofWord instruction.condition with
  | none =>
      rw [vmRunInstruction_invalidCondition hcond]
      exact hsame _ (sameMachine_vmSetState _ _)
  | some c =>
      cases hrun : c.holds vm.cpsr with
      | false =>
          rw [vmRunInstruction_skip hcond hrun]
          exact hsame _ (.refl _)
      | true =>
          by_cases hregs : instruction.register1.toNat < 32 ∧ instruction.register2.toNat < 32
          · rw [vmRunInstruction_eq hcond hrun hregs.1 hregs.2] at herror ⊢
            generalize hswitch : vmSwitch (vm.setRegister Register.zero 0)
              ⟨_, hregs.1⟩ ⟨_, hregs.2⟩ instruction.immediate instruction.opcode = r at herror ⊢
            have herr : vmHasNoError r.1 = false := by
              rw [vmAfterSwitch_cpsr] at herror
              rw [vmHasNoError, herror]
              rfl
            have hatomic : Atomic (vm.setRegister Register.zero 0) r.1 := by
              rw [← hswitch, vmSwitch]
              split
              · exact vmDispatch_atomic hok _
              · exact .set _
            obtain hno | hs := hatomic
            · rw [herr] at hno
              cases hno
            · refine hsame _ ⟨?_, ?_, ?_, ?_⟩
              · rw [vmAfterSwitch_registers (by rw [herr, Bool.and_false]), hs.registers,
                  setRegister_registers, Function.update_idem]
              · rw [vmAfterSwitch_rom, hs.rom]
              · rw [vmAfterSwitch_memory, hs.memory]
              · rw [vmAfterSwitch_cpsr]
                exact hs.flags
          · rw [vmRunInstruction_invalidRegister hcond hrun hregs]
            exact hsame _ (sameMachine_vmSetState _ _)

/-- A machine whose stack is full. -/
def fullStack : VirtualMachine :=
  ((vmInitialize 512).setRegister Register.bp 4096).setRegister Register.sp 4352

/-- `DUP` on a full stack has popped and pushed before it fails. -/
theorem vmRunInstruction_atomic_fullStack :
    Unchanged fullStack (vmRunInstruction fullStack ⟨Opcode.dup.toWord, 0, 0, 0, 0⟩) :=
  vmRunInstruction_atomic rfl ⟨Opcode.dup.toWord, 0, 0, 0, 0⟩ (by decide +kernel)

end Zlvm
