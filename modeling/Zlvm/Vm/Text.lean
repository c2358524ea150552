import Zlvm.Vm.Fetch
import Zlvm.Vm.Halt

/-!
# The text of a program in the machine

Instructions lie in the same memory that instructions write to.  This file says when a run can be
read off the text of its program instead of the memory.

* `MachineClosed` — a property that the changes an instruction is made of keep, and hence every
  instruction and every run; the size of the memory is one.
* `instructionWrites` — the addresses an instruction may write to; it changes no other byte
  (`getElem?_flat_vmRunInstruction`).
* `Text`, `HoldsText`, `Spares` — the instructions of a program and where they lie, a machine that
  holds them, and an instruction that writes beside them.
* `TextStep`, `TextSteps` — the steps of a program, whose instructions are taken from its text.
* **`vmSteps_of_textSteps`** — these are passes of the machine, and the text stays as it is;
  **`textSteps_or_leaves`** — all of them, as long as the machine stays in its text.
-/

namespace Zlvm

open Buffer VirtualMachine

/-! ## What every instruction keeps -/

/-- A property of machines that the changes an instruction is made of keep. -/
structure MachineClosed (P : VirtualMachine → Prop) : Prop where
  register : ∀ {vm} r value, P vm → P (vm.setRegister r value)
  poke : ∀ {vm address data}, vm.Accessible address data.length → P vm → P (vm.poke address data)
  processor : ∀ {vm} cpsr alu, P vm → P { vm with cpsr, alu }
  host : ∀ {vm} host, P vm → P { vm with host }

namespace MachineClosed

variable {P : VirtualMachine → Prop} (hP : MachineClosed P) {vm : VirtualMachine}
  {reg1 reg2 : Register} {imm : Word}
include hP

theorem setState (state : State) (h : P vm) : P (vmSetState vm state) := by
  unfold vmSetState
  split
  · exact hP.processor _ _ h
  · exact h

theorem doOperation (op : Operation) (left right : Word) (h : P vm) :
    P (vmDoOperation vm op left right) := by
  unfold vmDoOperation
  split
  · exact hP.setState _ h
  · exact hP.processor _ _ h

theorem popWord (hok : vmHasNoError vm = true) (h : P vm) : P (vmPopWord vm).1 := by
  by_cases hpop : Poppable vm
  · by_cases hacc : vm.Accessible (vm.registers Register.sp - 4).toNat 4
    · rw [vmPopWord_eq hok hpop hacc]
      exact hP.register _ _ h
    · rw [vmPopWord_outside hpop hacc]
      exact hP.setState _ h
  · rw [vmPopWord_underflow hpop]
    exact hP.setState _ h

theorem pushWord (hok : vmHasNoError vm = true) (value : Word) (h : P vm) :
    P (vmPushWord vm value).1 := by
  by_cases hpush : Pushable vm
  · by_cases hacc : vm.Accessible (vm.registers Register.sp).toNat 4
    · rw [vmPushWord_eq hok hpush hacc]
      refine hP.register _ _ (hP.poke ?_ h)
      rw [LittleEndian.length_bytes]
      exact hacc
    · rw [vmPushWord_outside hpush hacc]
      exact hP.setState _ h
  · rw [vmPushWord_overflow hpush]
    exact hP.setState _ h

theorem load {α : Type} {size : ℕ} {read : VirtualMachine → ℕ → VirtualMachine × α}
    {merge : Word → α → Word}
    (hread : ∀ address, vm.Accessible address size → (read vm address).1 = vm) (h : P vm) :
    P (vmLoad vm reg1 reg2 imm size read merge) := by
  by_cases hacc : vm.Accessible ((vm.registers reg2).toNat + imm.toNat) size
  · rw [vmLoad_eq hacc (Prod.ext (hread _ hacc) rfl)]
    exact hP.register _ _ h
  · rw [vmLoad_eq_fail hacc]
    exact hP.setState _ h

theorem store {size : ℕ} {write : VirtualMachine → ℕ → Word → VirtualMachine}
    (hwrite : ∀ address value, vm.Accessible address size →
      ∃ data : Bytes, data.length = size ∧ write vm address value = vm.poke address data)
    (h : P vm) : P (vmStore vm reg1 reg2 imm size write) := by
  by_cases hacc : vm.Accessible ((vm.registers reg2).toNat + imm.toNat) size
  · obtain ⟨data, hlength, hdata⟩ :=
      hwrite ((vm.registers reg2).toNat + imm.toNat) (vm.registers reg1) hacc
    rw [vmStore_eq hacc, hdata]
    exact hP.poke (hlength ▸ hacc) h
  · rw [vmStore_eq_fail hacc]
    exact hP.setState _ h

theorem interrupt (code : Word) (h : P vm) : P (vmInterrupt vm code) := by
  unfold vmInterrupt
  split
  · exact hP.host _ h
  · split
    · exact hP.host _ h
    · split
      · have hget : P vm.getByte.1 := by
          unfold VirtualMachine.getByte
          split
          · exact h
          · exact hP.host _ h
        exact hP.register _ _ hget
      · split
        · exact hP.setState _ h
        · exact h

/-- **Every case of the switch.** -/
theorem dispatch (hok : vmHasNoError vm = true) (h : P vm) (op : Opcode) :
    P (vmDispatch vm reg1 reg2 imm op).1 := by
  cases op
  case nop => exact h
  case syscall => exact h
  case movr => exact hP.register _ _ h
  case movi => exact hP.register _ _ h
  case jmpal => exact hP.register _ _ (hP.register _ _ h)
  case jmp => exact hP.register _ _ h
  case ret => exact hP.register _ _ h
  case int => exact hP.interrupt imm h
  case pop => exact hP.popWord hok h
  case pushr => exact hP.pushWord hok _ h
  case pushi => exact hP.pushWord hok _ h
  case popr =>
    simp only [vmDispatch]
    have hpop := hP.popWord hok h
    rcases hresult : vmPopWord vm with ⟨vm', _ | value⟩
    · rw [hresult] at hpop
      exact hpop
    · rw [hresult] at hpop
      exact hP.register _ _ hpop
  case dup =>
    simp only [vmDispatch]
    by_cases hpop : Poppable vm
    · by_cases hacc : vm.Accessible (vm.registers Register.sp - 4).toNat 4
      · -- the first push puts the popped word back
        rw [vmPopWord_eq hok hpop hacc]
        simp only [vmPushWord_vmPopWord hok hpop hacc]
        exact hP.pushWord hok _ h
      · rw [vmPopWord_outside hpop hacc]
        exact hP.setState _ h
    · rw [vmPopWord_underflow hpop]
      exact hP.setState _ h
  case loadb =>
    simp only [vmDispatch]
    exact hP.load (fun _ hacc => by rw [vmReadByte_eq hacc]) h
  case loadh =>
    simp only [vmDispatch]
    exact hP.load (fun _ hacc => by rw [vmReadHword, vmReadScalar_eq hacc (by omega)]) h
  case loadw =>
    simp only [vmDispatch]
    exact hP.load (fun _ hacc => by rw [vmReadWord_eq hacc]) h
  case storeb =>
    simp only [vmDispatch]
    exact hP.store (fun _ _ hacc => ⟨_, rfl, vmWriteByte_eq hacc _⟩) h
  case storeh =>
    simp only [vmDispatch]
    exact hP.store
      (fun _ _ hacc => ⟨_, LittleEndian.length_bytes _ _, vmWriteScalar_eq hacc (by omega) _⟩) h
  case storew =>
    simp only [vmDispatch]
    exact hP.store
      (fun _ _ hacc => ⟨_, LittleEndian.length_bytes _ _, vmWriteWord_eq hacc _⟩) h
  -- the arithmetic and logical opcodes and the comparisons
  all_goals
    simp only [vmDispatch]
    exact hP.doOperation _ _ _ h

/-- **One instruction.** -/
theorem runInstruction (hok : vmHasNoError vm = true) (h : P vm) (instruction : Instruction) :
    P (vmRunInstruction vm instruction) := by
  have hzero : P (vm.setRegister Register.zero 0) := hP.register _ _ h
  have hok : vmHasNoError (vm.setRegister Register.zero 0) = true := hok
  cases hcond : Condition.ofWord instruction.condition with
  | none =>
      rw [vmRunInstruction_invalidCondition hcond]
      exact hP.setState _ hzero
  | some c =>
      cases hrun : c.holds vm.cpsr with
      | false =>
          rw [vmRunInstruction_skip hcond hrun]
          exact hzero
      | true =>
          by_cases hregs : instruction.register1.toNat < 32 ∧ instruction.register2.toNat < 32
          · rw [vmRunInstruction_eq hcond hrun hregs.1 hregs.2, vmAfterSwitch_eq]
            refine hP.processor _ _ (hP.register _ _ ?_)
            have hswitch : P (vmSwitch (vm.setRegister Register.zero 0) ⟨_, hregs.1⟩ ⟨_, hregs.2⟩
                instruction.immediate instruction.opcode).1 := by
              unfold vmSwitch
              split
              · exact hP.dispatch hok hzero _
              · exact hP.setState _ hzero
            split
            · exact hP.register _ _ hswitch
            · exact hswitch
          · rw [vmRunInstruction_invalidRegister hcond hrun hregs]
            exact hP.setState _ hzero

/-- **One pass.** -/
theorem step (hok : vmHasNoError vm = true) (h : P vm) : P (vmStep vm) := by
  obtain ⟨instruction, -, hfetch⟩ := @vmFetchInstruction_eq vm
  rw [vmStep, hfetch]
  by_cases hacc : vm.Accessible (vm.registers Register.pc).toNat instructionSize
  · have hok' : vmHasNoError (vm.setRegister Register.pc (vm.registers Register.pc + 8)) = true :=
      hok
    simp only [if_pos hacc, hok', if_true]
    exact hP.runInstruction hok' (hP.register _ _ h) instruction
  · have hno : vmHasNoError (vmSetState vm .errOutOfMemory) = false := vmHasNoError_vmSetState rfl
    simp only [if_neg hacc, hno, Bool.false_eq_true, if_false]
    exact hP.setState _ h

/-- **Every run.** -/
theorem steps (h : P vm) (n : ℕ) : P (vmSteps n vm) :=
  vmSteps_induction P (fun _ h hlive => hP.step (Bool.and_eq_true_iff.mp hlive).1 h) h n

end MachineClosed

/-- The memory keeps its size. -/
theorem machineClosed_memoryEnd (size : ℕ) : MachineClosed fun vm => vm.memoryEnd = size where
  register _ _ h := h
  poke _ h := (memoryEnd_poke _ _ _).trans h
  processor _ _ h := h
  host _ h := h

@[simp] theorem memoryEnd_vmSteps (vm : VirtualMachine) (n : ℕ) :
    (vmSteps n vm).memoryEnd = vm.memoryEnd := (machineClosed_memoryEnd _).steps rfl n

/-! ## The addresses an instruction writes to -/

/-- The addresses that an instruction writes to unless it fails. -/
def instructionWrites (vm : VirtualMachine) (instruction : Instruction) : List ℕ :=
  if h : instruction.register2.toNat < 32 then
    let vm := vm.setRegister Register.zero 0
    match Opcode.ofWord instruction.opcode with
    | some op =>
        if op.isPush then List.range' (vm.registers Register.sp).toNat 4
        else List.range' ((vm.registers ⟨_, h⟩).toNat + instruction.immediate.toNat) op.storeSize
    | none => []
  else []

/-- No opcode both pushes and stores. -/
theorem storeSize_of_isPush {op : Opcode} (h : op.isPush = true) : op.storeSize = 0 := by
  cases op
  all_goals first | rfl | cases h

/-- The destinations of an instruction are among the addresses it writes to. -/
theorem mem_instructionWrites {vm : VirtualMachine} {instruction : Instruction} {op : Opcode}
    (hop : Opcode.ofWord instruction.opcode = some op) {rd rs : Register}
    (hrs : (rs : ℕ) = instruction.register2.toNat) {address : ℕ}
    (h : (op.footprint (vm.setRegister Register.zero 0) rd rs instruction.immediate).bytes
      address) : address ∈ instructionWrites vm instruction := by
  have hlt : instruction.register2.toNat < 32 := hrs ▸ rs.isLt
  have hrs' : (⟨instruction.register2.toNat, hlt⟩ : Register) = rs := Fin.ext hrs.symm
  rw [instructionWrites, dif_pos hlt]
  simp only [hop, hrs']
  rcases h with ⟨hlow, hhigh⟩ | ⟨hpush, hlow, hhigh⟩
  · split
    · rename_i hpush
      rw [storeSize_of_isPush hpush] at hhigh
      omega
    · exact List.mem_range'_1.mpr ⟨hlow, hhigh⟩
  · rw [if_pos hpush]
    exact List.mem_range'_1.mpr ⟨hlow, hhigh⟩

/-- **An instruction changes no byte that it does not write to**, whether it fails or not. -/
theorem getElem?_flat_vmRunInstruction {vm : VirtualMachine} (hnormal : vm.cpsr.ST = .normal)
    {instruction : Instruction} {address : ℕ} (h : address ∉ instructionWrites vm instruction) :
    (vmRunInstruction vm instruction).flat[address]? = vm.flat[address]? := by
  have hzero : vmHasNoError (vm.setRegister Register.zero 0) = true := vmHasNoError_of_normal hnormal
  have hset : ∀ state,
      (vmSetState (vm.setRegister Register.zero 0) state).flat[address]? = vm.flat[address]? := by
    intro state
    rw [VirtualMachine.flat, vmSetState_rom, vmSetState_memory]
    rfl
  cases hcond : Condition.ofWord instruction.condition with
  | none =>
      rw [vmRunInstruction_invalidCondition hcond]
      exact hset _
  | some c =>
      cases hrun : c.holds vm.cpsr with
      | false => rw [vmRunInstruction_skip hcond hrun, flat_setRegister]
      | true =>
          by_cases hregs : instruction.register1.toNat < 32 ∧ instruction.register2.toNat < 32
          · rw [vmRunInstruction_eq hcond hrun hregs.1 hregs.2, VirtualMachine.flat,
              vmAfterSwitch_rom, vmAfterSwitch_memory, ← VirtualMachine.flat]
            cases hop : Opcode.ofWord instruction.opcode with
            | none =>
                simp only [vmSwitch, hop]
                exact hset _
            | some op =>
                simp only [vmSwitch, hop]
                cases hok : vmHasNoError (vmDispatch (vm.setRegister Register.zero 0)
                    ⟨_, hregs.1⟩ ⟨_, hregs.2⟩ instruction.immediate op).1 with
                | true =>
                    exact (vmDispatch_within hzero op hok).bytes address fun hbyte =>
                      h (mem_instructionWrites hop rfl hbyte)
                | false =>
                    -- a case that fails changes nothing
                    have hsame := (vmDispatch_atomic hzero op).resolve_left (ne_true_of_eq_false hok)
                    rw [VirtualMachine.flat, hsame.rom, hsame.memory]
                    rfl
          · rw [vmRunInstruction_invalidRegister hcond hrun hregs]
            exact hset _

/-! ## Texts -/

/-- The instructions of a program, each with the address it lies at. -/
abbrev Text := ℕ → Instruction → Prop

/-- A machine that holds a text in the part of its memory that `$pc` reaches. -/
structure HoldsText (vm : VirtualMachine) (text : Text) : Prop where
  accessible : ∀ {address instruction}, text address instruction →
    vm.Accessible address instructionSize
  reachable : ∀ {address instruction}, text address instruction →
    address + instructionSize ≤ 2 ^ 32
  decodes : ∀ {address instruction}, text address instruction →
    instructionDecode (slice vm.flat address instructionSize) = some instruction

/-- Nothing is written over the text. -/
def Spares (text : Text) (writes : List ℕ) : Prop :=
  ∀ written ∈ writes, ∀ address instruction, text address instruction →
    ¬(address ≤ written ∧ written < address + instructionSize)

/-- A step of a program: the instruction that its text has at `$pc`. -/
inductive TextStep (text : Text) (vm : VirtualMachine) : VirtualMachine → Prop
  | run (live : vmLive vm = true) (instruction : Instruction)
      (here : text (vm.registers Register.pc).toNat instruction)
      (spares : Spares text (instructionWrites
        (vm.setRegister Register.pc (vm.registers Register.pc + 8)) instruction)) :
      TextStep text vm (vmRunInstruction
        (vm.setRegister Register.pc (vm.registers Register.pc + 8)) instruction)

/-- A number of steps of a program. -/
inductive TextSteps (text : Text) : ℕ → VirtualMachine → VirtualMachine → Prop
  | done (vm : VirtualMachine) : TextSteps text 0 vm vm
  | step {n : ℕ} {vm vm' vm'' : VirtualMachine} (first : TextStep text vm vm')
      (rest : TextSteps text n vm' vm'') : TextSteps text (n + 1) vm vm''

/-- A machine in a real state that holds a text. -/
structure Carries (vm : VirtualMachine) (text : Text) : Prop where
  concrete : vm.cpsr.ST.isConcrete = true
  text : HoldsText vm text

section Steps

variable {text : Text} {vm vm' : VirtualMachine}

/-- A real state in which the machine runs is the normal one. -/
theorem Carries.normal (h : Carries vm text) (hlive : vmLive vm = true) :
    vm.cpsr.ST = .normal := by
  rcases State.isConcrete_cases h.concrete with hst | hst | ⟨hst, -⟩
  · exact hst
  · rw [vmLive_of_halted hst] at hlive
    cases hlive
  · rw [vmLive_of_isError hst] at hlive
    cases hlive

/-- **A fetch from the text.** -/
theorem HoldsText.fetch (h : HoldsText vm text) {instruction : Instruction}
    (here : text (vm.registers Register.pc).toNat instruction) :
    vmFetchInstruction vm
      = (vm.setRegister Register.pc (vm.registers Register.pc + 8), instruction) := by
  have hacc := h.accessible here
  have hbytes := (instructionBytes_eq_iff hacc.2).mpr fun _ index hindex hwraps => by
    have hreach := h.reachable here
    omega
  obtain ⟨read, hread, hfetch⟩ := @vmFetchInstruction_eq vm
  rw [hbytes, h.decodes here] at hread
  obtain rfl := Option.some.inj hread
  rw [hfetch, if_pos hacc]

/-- The text stays where the bytes of its instructions do. -/
theorem HoldsText.of_bytes (h : HoldsText vm text) (hend : vm'.memoryEnd = vm.memoryEnd)
    (hbytes : ∀ address instruction, text address instruction →
      ∀ i, address ≤ i → i < address + instructionSize → vm'.flat[i]? = vm.flat[i]?) :
    HoldsText vm' text where
  accessible here := by
    rw [VirtualMachine.Accessible, hend]
    exact h.accessible here
  reachable := h.reachable
  decodes {address instruction} here := by
    have hslice : slice vm'.flat address instructionSize
        = slice vm.flat address instructionSize := by
      refine List.ext_getElem? fun i => ?_
      rw [getElem?_slice, getElem?_slice]
      split
      · exact hbytes address instruction here _ (by omega) (by omega)
      · rfl
    rw [hslice]
    exact h.decodes here

/-- **A step of the program is a pass of the machine**, and leaves the text as it is. -/
theorem TextStep.vmStep (h : Carries vm text) (hstep : TextStep text vm vm') :
    vmLive vm = true ∧ Zlvm.vmStep vm = vm' ∧ Carries vm' text := by
  cases hstep with
  | run live instruction here spares =>
      have hnormal := h.normal live
      have hmoved : (vm.setRegister Register.pc (vm.registers Register.pc + 8)).cpsr.ST
        = .normal := hnormal
      have hok := vmHasNoError_of_normal hmoved
      refine ⟨live, ?_, ?_, h.text.of_bytes ?_ fun address instruction' there i hlow hhigh => ?_⟩
      · rw [Zlvm.vmStep, h.text.fetch here]
        exact if_pos hok
      · obtain ⟨-, hconcrete, -⟩ :=
          cpuClosed_state.runInstruction hok (by rw [hmoved]; rfl) instruction
        exact hconcrete
      · exact (machineClosed_memoryEnd _).runInstruction hok rfl instruction
      · exact getElem?_flat_vmRunInstruction hmoved fun hwritten =>
          spares i hwritten address instruction' there ⟨hlow, hhigh⟩

/-- **The steps of the program are the passes of the machine.** -/
theorem vmSteps_of_textSteps {n : ℕ} (hsteps : TextSteps text n vm vm') (h : Carries vm text) :
    vmSteps n vm = vm' ∧ Carries vm' text := by
  induction hsteps with
  | done vm => exact ⟨rfl, h⟩
  | step first _ ih =>
      obtain ⟨hlive, hpass, hcarries⟩ := first.vmStep h
      rw [vmSteps, if_pos hlive, hpass]
      exact ih hcarries

/-- The last step. -/
theorem TextSteps.snoc {n : ℕ} {vm'' : VirtualMachine} (hsteps : TextSteps text n vm vm')
    (last : TextStep text vm' vm'') : TextSteps text (n + 1) vm vm'' := by
  induction hsteps with
  | done vm => exact .step last (.done _)
  | step first _ ih => exact .step first (ih last)

/-- What a machine that takes no step of the program does instead: it has stopped, stands outside
the text, or is about to write over it. -/
inductive LeavesText (text : Text) (vm : VirtualMachine) : Prop
  | stopped (stopped : vmLive vm = false)
  | outside (outside : ∀ instruction, ¬text (vm.registers Register.pc).toNat instruction)
  | overwrites (instruction : Instruction)
      (here : text (vm.registers Register.pc).toNat instruction)
      (overwrites : ¬Spares text (instructionWrites
        (vm.setRegister Register.pc (vm.registers Register.pc + 8)) instruction))

theorem textStep_or_leaves (text : Text) (vm : VirtualMachine) :
    (∃ vm', TextStep text vm vm') ∨ LeavesText text vm := by
  cases hlive : vmLive vm with
  | false => exact .inr (.stopped hlive)
  | true =>
      by_cases hhere : ∃ instruction, text (vm.registers Register.pc).toNat instruction
      · obtain ⟨instruction, here⟩ := hhere
        by_cases hspares : Spares text (instructionWrites
            (vm.setRegister Register.pc (vm.registers Register.pc + 8)) instruction)
        · exact .inl ⟨_, .run hlive instruction here hspares⟩
        · exact .inr (.overwrites instruction here hspares)
      · exact .inr (.outside fun instruction here => hhere ⟨instruction, here⟩)

/-- **The passes of the machine are the steps of the program** as long as it does not leave its
text. -/
theorem textSteps_or_leaves (h : Carries vm text) (n : ℕ) :
    TextSteps text n vm (vmSteps n vm) ∨
      ∃ m < n, TextSteps text m vm (vmSteps m vm) ∧ LeavesText text (vmSteps m vm) := by
  induction n with
  | zero => exact .inl (.done vm)
  | succ n ih =>
      rcases ih with hsteps | ⟨m, hm, hleaves⟩
      · rcases textStep_or_leaves text (vmSteps n vm) with ⟨vm', hstep⟩ | hleaves
        · have hall := hsteps.snoc hstep
          left
          rw [(vmSteps_of_textSteps hall h).1]
          exact hall
        · exact .inr ⟨n, n.lt_succ_self, hsteps, hleaves⟩
      · exact .inr ⟨m, hm.trans n.lt_succ_self, hleaves⟩

end Steps

end Zlvm
