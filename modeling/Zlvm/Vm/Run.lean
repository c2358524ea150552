import Zlvm.Vm.Execute

/-!
# Loading, fetching and running

`vm_loadDump`, `vm_fetch_instruction` and `vm_run`.  The loop of `vm_run` need not end, so `vmSteps`
counts its passes: `vmRun` answers when the given number of passes is enough.

* `vmFetchInstruction_eq` — a fetch reads eight bytes at `$pc` and moves it, or fails and moves
  nothing.
* `vmSteps_add`, `vmSteps_of_stopped` — passes one after the other; a machine that has stopped stays
  as it is.
* `vmSteps_induction` — an invariant of the pass holds after any number of passes.
-/

namespace Zlvm

open Buffer VirtualMachine

/-! ## The source -/

/-- `vm_loadDump`. -/
def vmLoadDump (vm : VirtualMachine) (program : Bytes) : VirtualMachine :=
  if program.length > romSize then vmSetState vm .errOutOfMemory
  else { vm with rom := vm.rom.write 0 program, entryPoint := 0 }

/-- `vm_fetch_byte`. -/
def vmFetchByte (vm : VirtualMachine) : VirtualMachine × Byte :=
  let address := vm.registers Register.pc
  vmReadByte (vm.setRegister Register.pc (address + 1)) address.toNat

/-- `(Instruction){0}`. -/
def zeroInstruction : Instruction where
  opcode := 0
  condition := 0
  register1 := 0
  register2 := 0
  immediate := 0

/-- `vm_fetch_instruction`. -/
def vmFetchInstruction (vm : VirtualMachine) : VirtualMachine × Instruction :=
  let address := (vm.registers Register.pc).toNat
  let (vm, valid) := vmValidateRange vm address instructionSize
  if !valid then (vm, zeroInstruction)
  else
    let (vm, bytes) := (List.range instructionSize).foldl (fun (vm, bytes) _ =>
      let (vm, b) := vmFetchByte vm
      (vm, bytes ++ [b])) (vm, ([] : Bytes))
    match instructionDecode bytes with
    | some instruction => (vm, instruction)
    | none => (vmSetState vm .errInvalidOpcode, zeroInstruction)

/-- What `vm_run` does before its loop. -/
def vmStart (vm : VirtualMachine) : VirtualMachine :=
  ((vm.setRegister Register.pc vm.entryPoint).setRegister Register.bp
    (UInt32.ofNat romSize)).setRegister Register.sp (UInt32.ofNat romSize)

/-- The condition of the loop of `vm_run`. -/
def vmLive (vm : VirtualMachine) : Bool := vmHasNoError vm && !vmHasState vm .halted

/-- One pass of the loop of `vm_run`. -/
def vmStep (vm : VirtualMachine) : VirtualMachine :=
  let (vm, instruction) := vmFetchInstruction vm
  if vmHasNoError vm then vmRunInstruction vm instruction else vm

/-- At most `n` passes of the loop of `vm_run`. -/
def vmSteps : ℕ → VirtualMachine → VirtualMachine
  | 0, vm => vm
  | n + 1, vm => if vmLive vm then vmSteps n (vmStep vm) else vm

/-- `vm_run`; no answer if its loop needs more than `n` passes. -/
def vmRun (n : ℕ) (vm : VirtualMachine) : Option (VirtualMachine × State) :=
  let final := vmSteps n (vmStart vm)
  if vmLive final then none else some (final, final.cpsr.ST)

/-! ## Fetching -/

section Fetch

variable {vm : VirtualMachine}

/-- Assigning a register twice. -/
theorem setRegister_setRegister (r : Register) (value value' : Word) :
    (vm.setRegister r value).setRegister r value' = vm.setRegister r value' := by
  rw [setRegister, setRegister, setRegister, Function.update_idem]

/-- A byte is fetched from `$pc`, which moves on. -/
theorem vmFetchByte_eq (h : vm.Accessible (vm.registers Register.pc).toNat 1) :
    vmFetchByte vm = (vm.setRegister Register.pc (vm.registers Register.pc + 1),
      vm.flat.getD (vm.registers Register.pc).toNat 0) := by
  have h' : (vm.setRegister Register.pc (vm.registers Register.pc + 1)).Accessible
      (vm.registers Register.pc).toNat 1 := h
  rw [vmFetchByte, vmReadByte_eq h']
  rfl

/-- The bytes of the instruction at `$pc`. -/
def instructionBytes (vm : VirtualMachine) : Bytes :=
  (List.range instructionSize).map fun index =>
    vm.flat.getD (vm.registers Register.pc + UInt32.ofNat index).toNat 0

@[simp] theorem length_instructionBytes : (instructionBytes vm).length = instructionSize := by
  rw [instructionBytes, List.length_map, List.length_range]

/-- Every byte of an instruction inside the memory can be read, even if `$pc` wraps. -/
theorem accessible_fetch (h : vm.Accessible (vm.registers Register.pc).toNat instructionSize)
    {index : ℕ} (hindex : index < instructionSize) :
    vm.Accessible (vm.registers Register.pc + UInt32.ofNat index).toNat 1 := by
  have hend : romSize ≤ vm.memoryEnd := Nat.le_add_right _ _
  have hle := h.2
  have hsum : (vm.registers Register.pc + UInt32.ofNat index).toNat
      ≤ (vm.registers Register.pc).toNat + index := by
    rw [UInt32.toNat_add, UInt32.toNat_ofNat']
    omega
  rw [instructionSize] at hindex hle
  exact ⟨h.1, by omega⟩

/-- **The fetching loop** reads the bytes at `$pc`. -/
theorem foldl_vmFetchByte
    (h : vm.Accessible (vm.registers Register.pc).toNat instructionSize) :
    (List.range instructionSize).foldl (fun (vm, bytes) (_ : ℕ) =>
        let (vm, b) := vmFetchByte vm
        (vm, bytes ++ [b])) (vm, ([] : Bytes))
      = (vm.setRegister Register.pc (vm.registers Register.pc + 8), instructionBytes vm) := by
  have hloop := Loop.foldl_induction (l := List.range instructionSize)
    (f := fun ((vm, bytes) : VirtualMachine × Bytes) (_ : ℕ) =>
      let (vm, b) := vmFetchByte vm
      (vm, bytes ++ [b])) (b := (vm, ([] : Bytes)))
    (fun done state => state
      = (vm.setRegister Register.pc (vm.registers Register.pc + UInt32.ofNat done.length),
        (List.range done.length).map fun index =>
          vm.flat.getD (vm.registers Register.pc + UInt32.ofNat index).toNat 0)) ?_ ?_
  · rw [List.length_range] at hloop
    exact hloop
  · have hself : vm.setRegister Register.pc (vm.registers Register.pc) = vm := by
      rw [setRegister, Function.update_eq_self]
    show (vm, ([] : Bytes)) = (vm.setRegister Register.pc (vm.registers Register.pc + 0), [])
    rw [UInt32.add_zero, hself]
  · rintro done index rest state hsplit rfl
    have hindex : done.length < instructionSize := by
      have hlength := congrArg List.length hsplit
      rw [List.length_range, List.length_append, List.length_cons] at hlength
      omega
    have hread : vmFetchByte
        (vm.setRegister Register.pc (vm.registers Register.pc + UInt32.ofNat done.length))
        = (vm.setRegister Register.pc (vm.registers Register.pc + UInt32.ofNat (done.length + 1)),
          vm.flat.getD (vm.registers Register.pc + UInt32.ofNat done.length).toNat 0) := by
      have haccessible := accessible_fetch h hindex
      rw [← setRegister_self vm Register.pc
        (vm.registers Register.pc + UInt32.ofNat done.length)] at haccessible
      rw [vmFetchByte_eq haccessible, setRegister_self, setRegister_setRegister, UInt32.ofNat_add,
        UInt32.add_assoc]
      rfl
    simp only [hread, List.length_append, List.length_singleton, List.range_succ, List.map_append,
      List.map_cons, List.map_nil]

/-- **Fetching an instruction.** -/
theorem vmFetchInstruction_eq :
    ∃ instruction, instructionDecode (instructionBytes vm) = some instruction ∧
      vmFetchInstruction vm
        = if vm.Accessible (vm.registers Register.pc).toNat instructionSize
          then (vm.setRegister Register.pc (vm.registers Register.pc + 8), instruction)
          else (vmSetState vm .errOutOfMemory, zeroInstruction) := by
  have hdecode : ∃ instruction, instructionDecode (instructionBytes vm) = some instruction := by
    rw [instructionDecode, if_neg (by rw [length_instructionBytes]; exact Nat.lt_irrefl _)]
    exact ⟨_, rfl⟩
  obtain ⟨instruction, hinstruction⟩ := hdecode
  refine ⟨instruction, hinstruction, ?_⟩
  rw [vmFetchInstruction, vmValidateRange_eq]
  by_cases h : vm.Accessible (vm.registers Register.pc).toNat instructionSize
  · rw [if_pos h, if_pos h]
    simp only [Bool.not_true, Bool.false_eq_true, if_false, foldl_vmFetchByte h, hinstruction]
  · rw [if_neg h, if_neg h]
    rfl

end Fetch

/-! ## Running -/

section Run

variable {vm : VirtualMachine}

theorem vmSteps_of_stopped (h : vmLive vm = false) : ∀ n, vmSteps n vm = vm
  | 0 => rfl
  | n + 1 => by rw [vmSteps, h, if_neg Bool.false_ne_true]

/-- Passes one after the other. -/
theorem vmSteps_add (vm : VirtualMachine) : ∀ m n : ℕ,
    vmSteps (m + n) vm = vmSteps n (vmSteps m vm)
  | 0, n => by rw [Nat.zero_add, vmSteps]
  | m + 1, n => by
      rw [Nat.succ_add, vmSteps, vmSteps]
      split
      · exact vmSteps_add _ m n
      · rename_i hstopped
        exact (vmSteps_of_stopped (by simpa using hstopped) n).symm

/-- The last pass. -/
theorem vmSteps_succ (vm : VirtualMachine) (n : ℕ) :
    vmSteps (n + 1) vm
      = if vmLive (vmSteps n vm) then vmStep (vmSteps n vm) else vmSteps n vm := by
  rw [vmSteps_add vm n 1]
  rfl

/-- **Invariant of the loop of `vm_run`.** -/
theorem vmSteps_induction (P : VirtualMachine → Prop)
    (step : ∀ vm, P vm → vmLive vm = true → P (vmStep vm)) (init : P vm) (n : ℕ) :
    P (vmSteps n vm) := by
  induction n with
  | zero => exact init
  | succ n ih =>
      rw [vmSteps_succ]
      split
      · rename_i hlive
        exact step _ ih hlive
      · exact ih

end Run

end Zlvm
