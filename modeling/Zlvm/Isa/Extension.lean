import Zlvm.Isa.Refinement

/-!
# Runs on a larger machine

A run that ends neither for want of memory nor of input does the same on a machine with more of
both, and leaves what was added alone.

* `IsaMachine.extend` — more memory behind, more input behind, and output that was written before.
* `IsaMachine.Starves` — the next instruction asks for a character and there is none.
* `extend_perform`, `extend_step`, `extend_run` — an effect, a step and a run on the larger machine.
* **`vmSteps_enlarge`** — any number of passes of the emulator.
-/

namespace Zlvm

open Buffer VirtualMachine

namespace IsaMachine

/-- A larger machine. -/
def extend (m : IsaMachine) (ram input output : Bytes) : IsaMachine :=
  { m with
    memory := m.memory ++ ram
    host := { input := m.host.input ++ input, output := output ++ m.host.output } }

section Effects

variable {m : IsaMachine} {ram input output : Bytes} {rd rs : Register} {imm : Word}

/-- An access that lies in the smaller memory. -/
theorem extend_within {address size : ℕ} {next next' : IsaMachine}
    (h : (m.within address size next).cpsr.ST ≠ .errOutOfMemory)
    (hnext : address + size ≤ m.memory.length → next' = next.extend ram input output) :
    (m.extend ram input output).within address size next'
      = (m.within address size next).extend ram input output := by
  unfold within at h ⊢
  by_cases hle : address + size ≤ m.memory.length
  · have hle' : address + size ≤ (m.extend ram input output).memory.length := by
      rw [extend, List.length_append]
      omega
    rw [if_pos hle, if_pos hle', hnext hle]
  · rw [if_neg hle] at h
    exact absurd rfl h

theorem slice_extend {address size : ℕ} (h : address + size ≤ m.memory.length) :
    slice (m.extend ram input output).memory address size = slice m.memory address size := by
  refine List.ext_getElem? fun i => ?_
  rw [getElem?_slice, getElem?_slice]
  split
  · exact List.getElem?_append_left (by omega)
  · rfl

theorem overlay_extend {address : ℕ} {data : Bytes} (h : address + data.length ≤ m.memory.length) :
    overlay (m.extend ram input output).memory address data
      = overlay m.memory address data ++ ram := overlay_append_left _ _ _ _ h

theorem extend_push {value : Word} (h : (m.push value).cpsr.ST ≠ .errOutOfMemory) :
    (m.extend ram input output).push value = (m.push value).extend ram input output := by
  unfold push at h ⊢
  simp only [show (m.extend ram input output).stackDepth = m.stackDepth from rfl]
  split
  · rename_i hroom
    rw [if_pos hroom] at h
    refine extend_within h fun hle => ?_
    have hmemory := @overlay_extend m ram input output (m.registers Register.sp).toNat
      (LittleEndian.bytes 4 value.toNat) (by rw [LittleEndian.length_bytes]; exact hle)
    exact IsaMachine.ext rfl hmemory rfl rfl
  · rfl

theorem extend_top {next next' : Word → IsaMachine} (h : (m.top next).cpsr.ST ≠ .errOutOfMemory)
    (hnext : ∀ value, (next value).cpsr.ST ≠ .errOutOfMemory →
      next' value = (next value).extend ram input output) :
    (m.extend ram input output).top next' = (m.top next).extend ram input output := by
  unfold top at h ⊢
  simp only [show (m.extend ram input output).stackDepth = m.stackDepth from rfl]
  split
  · rename_i hword
    rw [if_pos hword] at h
    refine extend_within h fun
      (hle : (m.registers Register.sp - 4).toNat + 4 ≤ m.memory.length) => ?_
    have hslice := @slice_extend m ram input output _ 4 hle
    rw [within, if_pos hle] at h
    rw [← hnext _ h, ← hslice]
    rfl
  · rfl

/-- An interrupt that does not ask for a character that is not there. -/
theorem extend_interrupt (h : imm = 0x10 → m.host.input = [] → input = []) :
    (m.extend ram input output).interrupt imm
      = (m.interrupt imm).extend ram input output := by
  unfold interrupt
  dsimp only
  by_cases hread : imm = 0x10
  · obtain ⟨registers, memory, cpsr, ⟨_ | ⟨b, rest⟩, written⟩⟩ := m
    · rw [hread, h hread rfl]
      rfl
    · rw [hread]
      rfl
  · simp only [hread, if_false]
    split
    · exact IsaMachine.ext rfl rfl rfl (congrArg (Host.mk _) (List.append_assoc _ _ _))
    · split
      · exact IsaMachine.ext rfl rfl rfl (congrArg (Host.mk _) (List.append_assoc _ _ _))
      · split <;> rfl

/-- **Every effect.** -/
theorem extend_perform {effect : Effect}
    (h : (m.perform rd rs imm effect).cpsr.ST ≠ .errOutOfMemory)
    (hinput : effect = .interrupt → imm = 0x10 → m.host.input = [] → input = []) :
    (m.extend ram input output).perform rd rs imm effect
      = (m.perform rd rs imm effect).extend ram input output := by
  cases effect with
  | nothing => rfl
  | move source => cases source <;> rfl
  | compute op source keeps =>
      have hoperand : (m.extend ram input output).operand rs imm source = m.operand rs imm source := by
        cases source <;> rfl
      simp only [perform, hoperand]
      split
      · rfl
      · cases keeps <;> rfl
  | load width =>
      refine extend_within h fun hle => ?_
      rw [slice_extend hle]
      rfl
  | store width =>
      refine extend_within h fun hle => ?_
      refine IsaMachine.ext rfl ?_ rfl rfl
      exact overlay_extend (by rw [LittleEndian.length_bytes]; exact hle)
  | pushRegister => exact extend_push h
  | pushImmediate => exact extend_push h
  | pop keeps =>
      unfold perform at h ⊢
      refine extend_top h fun value _ => ?_
      cases keeps <;> rfl
  | duplicate => exact extend_top h fun value hpush => extend_push hpush
  | interrupt => exact extend_interrupt (hinput rfl)
  | jump => rfl
  | call => rfl
  | ret => rfl

end Effects

/-! ## Steps -/

/-- The instruction asks for a character, and there is none. -/
structure StarvesAt (m : IsaMachine) (instruction : Instruction) : Prop where
  empty : m.host.input = []
  interrupt : Opcode.ofWord instruction.opcode = some .int
  code : instruction.immediate = 0x10

/-- The next instruction asks for a character, and there is none. -/
def Starves (m : IsaMachine) : Prop :=
  ∃ instruction, instructionDecode m.instructionBytes = some instruction ∧ m.StarvesAt instruction

section Steps

variable {m : IsaMachine} {ram input output : Bytes}

theorem effect_eq_interrupt {op : Opcode} (h : op.effect = .interrupt) : op = .int := by
  cases op
  case int => rfl
  all_goals cases h

/-- **An instruction.** -/
theorem extend_execute {instruction : Instruction}
    (h : (m.execute instruction).cpsr.ST ≠ .errOutOfMemory)
    (hinput : m.StarvesAt instruction → input = []) :
    (m.extend ram input output).execute instruction
      = (m.execute instruction).extend ram input output := by
  unfold execute at h ⊢
  cases hcond : Condition.ofWord instruction.condition with
  | none => rfl
  | some c =>
      simp only [hcond] at h ⊢
      show ite (c.holds m.cpsr = true) _ _ = _
      by_cases hholds : c.holds m.cpsr = true
      · rw [if_pos hholds] at h ⊢
        rw [if_pos hholds]
        by_cases hregs : max instruction.register1.toNat instruction.register2.toNat < 32
        · rw [dif_pos hregs] at h ⊢
          rw [dif_pos hregs]
          cases hop : Opcode.ofWord instruction.opcode with
          | none => rfl
          | some op =>
              simp only [hop] at h ⊢
              refine extend_perform h fun heffect hcode hempty => ?_
              exact hinput ⟨hempty, effect_eq_interrupt heffect ▸ hop, hcode⟩
        · rw [dif_neg hregs, dif_neg hregs]
          rfl
      · rw [if_neg hholds, if_neg hholds]

/-- **A step.** -/
theorem extend_step (h : m.step.cpsr.ST ≠ .errOutOfMemory) (hinput : m.Starves → input = []) :
    (m.extend ram input output).step = m.step.extend ram input output := by
  unfold step at h ⊢
  refine extend_within h fun
    (hle : (m.registers Register.pc).toNat + instructionSize ≤ m.memory.length) => ?_
  have hbytes : (m.extend ram input output).instructionBytes = m.instructionBytes := by
    refine List.map_congr_left fun index hindex => ?_
    have hlt : index < instructionSize := List.mem_range.mp hindex
    have hmod : (m.registers Register.pc + UInt32.ofNat index).toNat
        ≤ (m.registers Register.pc).toNat + index := by
      rw [UInt32.toNat_add, UInt32.toNat_ofNat']
      omega
    exact List.getD_append m.memory ram 0 (m.registers Register.pc + UInt32.ofNat index).toNat
      (by omega)
  rw [within, if_pos hle] at h
  rw [hbytes]
  cases hdecode : instructionDecode m.instructionBytes with
  | none => rfl
  | some instruction =>
      rw [hdecode] at h
      refine extend_execute h fun hstarves => hinput ⟨instruction, hdecode, ?_⟩
      exact ⟨hstarves.empty, hstarves.interrupt, hstarves.code⟩

/-- A machine that has stopped stays as it is. -/
theorem run_of_stopped (h : m.cpsr.ST ≠ .normal) : ∀ n, m.run n = m
  | 0 => rfl
  | _ + 1 => if_neg h

/-- The last step. -/
theorem run_succ (m : IsaMachine) (n : ℕ) :
    m.run (n + 1) = if (m.run n).cpsr.ST = .normal then (m.run n).step else m.run n := by
  induction n generalizing m with
  | zero => rfl
  | succ n ih =>
      rw [run]
      split
      · rename_i hnormal
        rw [ih, run, if_pos hnormal]
      · rename_i hstopped
        rw [run_of_stopped hstopped, if_neg hstopped]

/-- **A run.** -/
theorem extend_run {n : ℕ} (h : (m.run n).cpsr.ST ≠ .errOutOfMemory)
    (hinput : ∀ k < n, (m.run k).cpsr.ST = .normal → (m.run k).Starves → input = []) :
    (m.extend ram input output).run n = (m.run n).extend ram input output := by
  induction n with
  | zero => rfl
  | succ n ih =>
      rw [run_succ] at h ⊢
      have hearlier : (m.run n).cpsr.ST ≠ .errOutOfMemory := by
        intro hmemory
        rw [if_neg (by rw [hmemory]; decide)] at h
        exact h hmemory
      rw [ih hearlier fun k hk => hinput k (by omega), run_succ]
      show ite ((m.run n).cpsr.ST = .normal) _ _ = _
      by_cases hnormal : (m.run n).cpsr.ST = .normal
      · rw [if_pos hnormal] at h ⊢
        rw [if_pos hnormal]
        exact extend_step h (hinput n n.lt_succ_self hnormal)
      · rw [if_neg hnormal, if_neg hnormal]

end Steps

end IsaMachine

/-! ## The emulator -/

/-- More RAM, more input, and output that was written before. -/
def VirtualMachine.enlarge (vm : VirtualMachine) (ram input output : Bytes) : VirtualMachine :=
  { vm with
    memory := vm.memory ++ ram
    host := { input := vm.host.input ++ input, output := output ++ vm.host.output } }

/-- **Runs do not depend on the size of the RAM**, nor on the input behind what they read: a run
that is never short of memory, nor of input if there is more of it, ends on the larger machine with
the same registers, flags and state, having read and written the same, and what was added to the
RAM is as it was. -/
theorem vmSteps_enlarge {vm : VirtualMachine} {ram input output : Bytes} {n : ℕ}
    (hconcrete : vm.cpsr.ST.isConcrete = true)
    (hsize : (vm.enlarge ram input output).memoryEnd ≤ sizeMax)
    (hmemory : (vmSteps n vm).cpsr.ST ≠ .errOutOfMemory)
    (hinput : ∀ k < n, (vmSteps k vm).cpsr.ST = .normal → (isa (vmSteps k vm)).Starves →
      input = []) :
    isa (vmSteps n (vm.enlarge ram input output))
      = (isa (vmSteps n vm)).extend ram input output := by
  have hsmall : vm.memoryEnd ≤ sizeMax := by
    refine le_trans ?_ hsize
    rw [memoryEnd, memoryEnd, memorySize, memorySize, enlarge, List.length_append]
    omega
  have hrefines := isa_vmSteps hconcrete hsmall
  have hlarge : isa (vm.enlarge ram input output) = (isa vm).extend ram input output :=
    IsaMachine.ext rfl (List.append_assoc _ _ _).symm rfl rfl
  rw [@isa_vmSteps (vm.enlarge ram input output) hconcrete hsize, hlarge, hrefines]
  refine IsaMachine.extend_run ?_ fun k hk => ?_
  · rw [← hrefines]
    exact hmemory
  · rw [← hrefines]
    exact hinput k hk

/-- A machine that reads a character and stores it in the last word of its RAM. -/
def readingMachine : VirtualMachine :=
  vmStart (vmLoadDump { vmInitialize 4 with host := ⟨[65, 66], []⟩ }
    [18, 0, 0, 0, 0x10, 0, 0, 0, 39, 0, 2, 0, 0, 0x10, 0, 0, 18, 0, 0, 0, 0xFF, 0, 0, 0])

theorem vmSteps_enlarge_readingMachine :
    isa (vmSteps 3 (readingMachine.enlarge [1, 2] [67] [7]))
      = (isa (vmSteps 3 readingMachine)).extend [1, 2] [67] [7] :=
  vmSteps_enlarge (by decide +kernel) (by decide +kernel) (by decide +kernel) fun k hk _ hstarves => by
    have hinput : ∀ k < 3, (vmSteps k readingMachine).host.input ≠ [] := by decide +kernel
    obtain ⟨_, -, hempty, -, -⟩ := hstarves
    exact absurd hempty (hinput k hk)

end Zlvm
