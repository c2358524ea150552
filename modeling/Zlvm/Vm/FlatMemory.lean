import Zlvm.Lib.Simulation
import Zlvm.Vm.Execute

/-!
# The memory is one flat array

Seen through its accesses, the pair of ROM and RAM is one array of `4096 + _memorySize` bytes.

* `Access`, `vmAccess` — the eight access functions and the load and store instructions.
* `FlatMachine`, `flatAccess` — the specification: an array of bytes and the registers, with
  unbounded addresses.
* `vmAccess_matches` — one access.
* **`vmAccess_refines_flat`** — every sequence of accesses.
-/

namespace Zlvm

open Buffer VirtualMachine Simulation

/-! ## Accesses -/

/-- The widths of an access. -/
inductive Width
  | byte
  | hword
  | word
  | dword
deriving DecidableEq

/-- The number of bytes of an access. -/
def Width.size : Width → ℕ
  | byte => 1
  | hword => 2
  | word => 4
  | dword => 8

/-- An access from outside, or by an unconditional `LOADx` or `STOREx`; there is no double word
instruction. -/
inductive Access
  | read (width : Width) (address : ℕ)
  | write (width : Width) (address : ℕ) (value : DWord)
  | load (width : Width) (narrow : width ≠ .dword) (reg1 reg2 : Register) (imm : Word)
  | store (width : Width) (narrow : width ≠ .dword) (reg1 reg2 : Register) (imm : Word)

/-- `vm_read_byte`, `vm_read_hword`, `vm_read_word` and `vm_read_dword`. -/
def vmRead (vm : VirtualMachine) (address : ℕ) : Width → VirtualMachine × ℕ
  | .byte => ((vmReadByte vm address).1, (vmReadByte vm address).2.toNat)
  | .hword => ((vmReadHword vm address).1, (vmReadHword vm address).2.toNat)
  | .word => ((vmReadWord vm address).1, (vmReadWord vm address).2.toNat)
  | .dword => ((vmReadDword vm address).1, (vmReadDword vm address).2.toNat)

/-- `vm_write_byte`, `vm_write_hword`, `vm_write_word` and `vm_write_dword`. -/
def vmWrite (vm : VirtualMachine) (address : ℕ) (value : DWord) : Width → VirtualMachine
  | .byte => vmWriteByte vm address value.toUInt8
  | .hword => vmWriteHword vm address value.toUInt16
  | .word => vmWriteWord vm address value.toUInt32
  | .dword => vmWriteDword vm address value

/-- The load instruction of a width. -/
def Width.loadOpcode : (width : Width) → width ≠ .dword → Opcode
  | .byte, _ => .loadb
  | .hword, _ => .loadh
  | .word, _ => .loadw

/-- The store instruction of a width. -/
def Width.storeOpcode : (width : Width) → width ≠ .dword → Opcode
  | .byte, _ => .storeb
  | .hword, _ => .storeh
  | .word, _ => .storew

/-- One access of the machine; only a read has a result. -/
def vmAccess (vm : VirtualMachine) : Access → VirtualMachine × ℕ
  | .read width address => vmRead vm address width
  | .write width address value => (vmWrite vm address value width, 0)
  | .load width narrow reg1 reg2 imm =>
      (vmRunInstruction vm (.unconditional (width.loadOpcode narrow) reg1 reg2 imm), 0)
  | .store width narrow reg1 reg2 imm =>
      (vmRunInstruction vm (.unconditional (width.storeOpcode narrow) reg1 reg2 imm), 0)

/-! ## The specification -/

/-- An array of bytes and the registers that the instructions work on. -/
structure FlatMachine where
  registers : Register → Word
  bytes : Bytes

/-- The registers as an instruction sees and leaves them. -/
def clearZero (registers : Register → Word) : Register → Word :=
  Function.update registers Register.zero 0

/-- The low bytes of a word replaced by those of a number. -/
def replaceLow (size : ℕ) (old : Word) (value : ℕ) : Word :=
  UInt32.ofNat (old.toNat / 256 ^ size * 256 ^ size + value)

/-- Go on if `size` bytes at `address` lie in the array. -/
def FlatMachine.within (flat : FlatMachine) (address size : ℕ) (next : FlatMachine × ℕ) :
    Except State (FlatMachine × ℕ) :=
  if address + size ≤ flat.bytes.length then .ok next else .error .errOutOfMemory

/-- One access of the specification. -/
def flatAccess (flat : FlatMachine) : Access → Except State (FlatMachine × ℕ)
  | .read width address =>
      flat.within address width.size
        (flat, LittleEndian.value (slice flat.bytes address width.size))
  | .write width address value =>
      flat.within address width.size
        ({ flat with
            bytes := overlay flat.bytes address (LittleEndian.bytes width.size value.toNat) }, 0)
  | .load width _ reg1 reg2 imm =>
      let registers := clearZero flat.registers
      let address := (registers reg2).toNat + imm.toNat
      let value := LittleEndian.value (slice flat.bytes address width.size)
      flat.within address width.size
        ({ flat with
            registers := clearZero
              (Function.update registers reg1 (replaceLow width.size (registers reg1) value)) }, 0)
  | .store width _ reg1 reg2 imm =>
      let registers := clearZero flat.registers
      let address := (registers reg2).toNat + imm.toNat
      flat.within address width.size
        ({ registers,
           bytes := overlay flat.bytes address
              (LittleEndian.bytes width.size (registers reg1).toNat) }, 0)

/-- The machine shows the array: no error is set, the ROM followed by the RAM is the array and the
registers agree. -/
structure Shows (vm : VirtualMachine) (flat : FlatMachine) : Prop where
  ok : vmHasNoError vm = true
  bytes : vm.flat = flat.bytes
  registers : vm.registers = flat.registers
  representable : vm.memoryEnd ≤ sizeMax

/-- What a failing access leaves: the error, and every byte and every register but `$zero`. -/
structure Fails (error : State) (vm : VirtualMachine) (flat : FlatMachine) : Prop where
  error_eq : error = .errOutOfMemory
  state : vm.cpsr.ST = .errOutOfMemory
  bytes : vm.flat = flat.bytes
  registers : ∀ r, r ≠ Register.zero → vm.registers r = flat.registers r

/-! ## The access functions -/

section Scalars

variable {vm : VirtualMachine} {address : ℕ}

/-- One byte, as the value of a slice. -/
theorem value_slice_one {bs : Bytes} (h : address + 1 ≤ bs.length) :
    LittleEndian.value (slice bs address 1) = (bs.getD address 0).toNat := by
  rw [slice_eq_map bs 0 h]
  simp

/-- A read inside the memory. -/
theorem vmRead_eq (width : Width) (h : vm.Accessible address width.size) :
    vmRead vm address width
      = (vm, LittleEndian.value (slice vm.flat address width.size)) := by
  have hin : address + width.size ≤ vm.flat.length := by rw [length_flat]; exact h.2
  have hlt := LittleEndian.value_lt (slice vm.flat address width.size)
  rw [length_slice_of_le hin] at hlt
  cases width with
  | byte =>
      simp only [vmRead, Width.size] at h hin ⊢
      rw [vmReadByte_eq h, value_slice_one hin]
  | hword =>
      simp only [vmRead, Width.size] at h hlt ⊢
      rw [vmReadHword, vmReadScalar_eq h (by omega)]
      refine Prod.ext rfl ?_
      simp only [UInt64.toNat_toUInt16, UInt64.toNat_ofNat']
      omega
  | word =>
      simp only [vmRead, Width.size] at h hlt ⊢
      rw [vmReadWord_eq h]
      refine Prod.ext rfl ?_
      simp only [UInt32.toNat_ofNat']
      omega
  | dword =>
      simp only [vmRead, Width.size] at h hlt ⊢
      rw [vmReadDword, vmReadScalar_eq h (by omega)]
      refine Prod.ext rfl ?_
      simp only [UInt64.toNat_ofNat']
      omega

/-- A read outside the memory. -/
theorem vmRead_eq_fail (width : Width) (h : ¬vm.Accessible address width.size) :
    (vmRead vm address width).1 = vmSetState vm .errOutOfMemory := by
  cases width with
  | byte =>
      rw [Width.size] at h
      rw [vmRead, vmReadByte, vmValidateRange_eq, if_neg h]
      rfl
  | hword =>
      rw [Width.size] at h
      rw [vmRead, vmReadHword, vmReadScalar_eq_fail h]
  | word =>
      rw [Width.size] at h
      rw [vmRead, vmReadWord, vmReadScalar_eq_fail h]
  | dword =>
      rw [Width.size] at h
      rw [vmRead, vmReadDword, vmReadScalar_eq_fail h]

/-- A write inside the memory stores the low bytes of the value. -/
theorem vmWrite_eq (width : Width) (value : DWord) (h : vm.Accessible address width.size) :
    vmWrite vm address value width
      = vm.poke address (LittleEndian.bytes width.size value.toNat) := by
  cases width with
  | byte =>
      rw [vmWrite, vmWriteByte_eq h]
      rfl
  | hword =>
      rw [Width.size] at h ⊢
      rw [vmWrite, vmWriteHword, vmWriteScalar_eq h (by decide), UInt16.toNat_toUInt64,
        UInt64.toNat_toUInt16, ← LittleEndian.bytes_mod _ value.toNat]
      rfl
  | word =>
      rw [vmWrite, vmWriteWord_eq h, UInt64.toNat_toUInt32, ← LittleEndian.bytes_mod _ value.toNat]
      rfl
  | dword => exact vmWriteScalar_eq h (by decide) value

/-- A write outside the memory. -/
theorem vmWrite_eq_fail (width : Width) (value : DWord) (h : ¬vm.Accessible address width.size) :
    vmWrite vm address value width = vmSetState vm .errOutOfMemory := by
  cases width with
  | byte =>
      rw [Width.size] at h
      rw [vmWrite, vmWriteByte, vmValidateRange_eq, if_neg h]
      rfl
  | hword => exact vmWriteScalar_eq_fail h _
  | word => exact vmWriteScalar_eq_fail h _
  | dword => exact vmWriteScalar_eq_fail h _

end Scalars

/-! ## The instructions -/

/-- Clearing the low bits of a word and filling them is a replacement of its low bytes. -/
theorem and_or_eq {old value k : ℕ} (hold : old < 2 ^ 32) (hk : k ≤ 32) (hvalue : value < 2 ^ k) :
    old &&& ((2 ^ (32 - k) - 1) <<< k) ||| value = old / 2 ^ k * 2 ^ k + value := by
  have hclear : old &&& ((2 ^ (32 - k) - 1) <<< k) = (old >>> k) <<< k := by
    refine Nat.eq_of_testBit_eq fun i => ?_
    simp only [Nat.testBit_and, Nat.testBit_shiftLeft, Nat.testBit_shiftRight,
      Nat.testBit_two_pow_sub_one]
    by_cases hki : k ≤ i
    · by_cases hi : i < 32
      · simp [hki, show k + (i - k) = i by omega, show i - k < 32 - k by omega]
      · have hbit : old.testBit i = false :=
          Nat.testBit_lt_two_pow (lt_of_lt_of_le hold (Nat.pow_le_pow_right (by omega) (by omega)))
        simp [hki, show k + (i - k) = i by omega, hbit]
    · simp [hki]
  rw [hclear, ← Nat.shiftLeft_add_eq_or_of_lt hvalue, Nat.shiftLeft_eq, Nat.shiftRight_eq_div_pow]

theorem mergeByte_eq (old : Word) (value : Byte) :
    mergeByte old value = replaceLow 1 old value.toNat := by
  have hvalue := value.toNat_lt
  have hmerge := and_or_eq (k := 8) old.toNat_lt (by omega) hvalue
  rw [← UInt32.toNat_inj, mergeByte, replaceLow, UInt32.toNat_or, UInt32.toNat_and,
    UInt8.toNat_toUInt32, UInt32.toNat_ofNat']
  have := old.toNat_lt
  rw [Nat.mod_eq_of_lt (by omega), pow_one]
  exact hmerge

theorem mergeHword_eq (old : Word) (value : HWord) :
    mergeHword old value = replaceLow 2 old value.toNat := by
  have hvalue := value.toNat_lt
  have hmerge := and_or_eq (k := 16) old.toNat_lt (by omega) hvalue
  rw [← UInt32.toNat_inj, mergeHword, replaceLow, UInt32.toNat_or, UInt32.toNat_and,
    UInt16.toNat_toUInt32, UInt32.toNat_ofNat']
  have := old.toNat_lt
  rw [Nat.mod_eq_of_lt (by omega)]
  exact hmerge

theorem replaceLow_word (old value : Word) : replaceLow 4 old value.toNat = value := by
  have := old.toNat_lt
  rw [replaceLow, Nat.div_eq_of_lt (by omega), Nat.zero_mul, Nat.zero_add, UInt32.ofNat_toNat]

section Instructions

variable {vm : VirtualMachine} {width : Width} {narrow : width ≠ .dword}
  {reg1 reg2 : Register} {imm : Word}

/-- The switch on a load inside the memory. -/
theorem vmDispatch_load
    (h : vm.Accessible ((vm.registers reg2).toNat + imm.toNat) width.size) :
    vmDispatch vm reg1 reg2 imm (width.loadOpcode narrow)
      = (vm.setRegister reg1 (replaceLow width.size (vm.registers reg1)
          (LittleEndian.value
            (slice vm.flat ((vm.registers reg2).toNat + imm.toNat) width.size))), false) := by
  have hread := vmRead_eq width h
  cases width with
  | byte =>
      rw [Width.size] at h hread ⊢
      rw [Width.loadOpcode, vmDispatch, vmLoad_eq h (vmReadByte_eq h), mergeByte_eq]
      rw [vmRead, vmReadByte_eq h] at hread
      rw [← (Prod.mk.inj hread).2]
  | hword =>
      rw [Width.size] at h hread ⊢
      have hfst := congrArg Prod.fst hread
      rw [Width.loadOpcode, vmDispatch, vmLoad_eq h (Prod.ext hfst rfl), mergeHword_eq]
      rw [vmRead] at hread
      rw [← (Prod.mk.inj hread).2]
  | word =>
      rw [Width.size] at h hread ⊢
      have hfst := congrArg Prod.fst hread
      rw [Width.loadOpcode, vmDispatch, vmLoad_eq h (Prod.ext hfst rfl)]
      rw [vmRead] at hread
      rw [← (Prod.mk.inj hread).2]
      exact congrArg (fun v => (vm.setRegister reg1 v, false)) (replaceLow_word _ _).symm
  | dword => exact absurd rfl narrow

/-- The switch on a load outside the memory. -/
theorem vmDispatch_load_fail
    (h : ¬vm.Accessible ((vm.registers reg2).toNat + imm.toNat) width.size) :
    vmDispatch vm reg1 reg2 imm (width.loadOpcode narrow)
      = (vmSetState vm .errOutOfMemory, false) := by
  cases width with
  | dword => exact absurd rfl narrow
  | _ =>
      rw [Width.size] at h
      rw [Width.loadOpcode, vmDispatch, vmLoad_eq_fail h]

/-- The switch on a store inside the memory. -/
theorem vmDispatch_store
    (h : vm.Accessible ((vm.registers reg2).toNat + imm.toNat) width.size) :
    vmDispatch vm reg1 reg2 imm (width.storeOpcode narrow)
      = (vm.poke ((vm.registers reg2).toNat + imm.toNat)
          (LittleEndian.bytes width.size (vm.registers reg1).toNat), false) := by
  have hwrite := vmWrite_eq width (vm.registers reg1).toUInt64 h
  rw [UInt32.toNat_toUInt64] at hwrite
  rw [← hwrite]
  cases width with
  | byte =>
      rw [Width.size] at h
      rw [Width.storeOpcode, vmDispatch, vmStore_eq h, vmWrite, UInt32.toUInt8_toUInt64]
  | hword =>
      rw [Width.size] at h
      rw [Width.storeOpcode, vmDispatch, vmStore_eq h, vmWrite, UInt32.toUInt16_toUInt64]
  | word =>
      rw [Width.size] at h
      rw [Width.storeOpcode, vmDispatch, vmStore_eq h, vmWrite, UInt32.toUInt32_toUInt64]
  | dword => exact absurd rfl narrow

/-- The switch on a store outside the memory. -/
theorem vmDispatch_store_fail
    (h : ¬vm.Accessible ((vm.registers reg2).toNat + imm.toNat) width.size) :
    vmDispatch vm reg1 reg2 imm (width.storeOpcode narrow)
      = (vmSetState vm .errOutOfMemory, false) := by
  cases width with
  | dword => exact absurd rfl narrow
  | _ =>
      rw [Width.size] at h
      rw [Width.storeOpcode, vmDispatch, vmStore_eq_fail h]

end Instructions

/-! ## Runs of accesses -/

section Runs

variable {vm : VirtualMachine} {flat : FlatMachine}

/-- In a machine that shows the array, the range check is that of the array. -/
theorem Shows.accessible_iff (h : Shows vm flat) {address size : ℕ} :
    vm.Accessible address size ↔ address + size ≤ flat.bytes.length := by
  rw [Accessible, ← h.bytes, length_flat]
  exact and_iff_right h.representable

/-- An out-of-memory error in a machine that differs from one that shows the array in `$zero`
only. -/
theorem Fails.of_vmSetState {vm' : VirtualMachine} (hok : vmHasNoError vm' = true)
    (hflat : vm'.flat = flat.bytes)
    (hregisters : ∀ r, r ≠ Register.zero → vm'.registers r = flat.registers r) :
    Fails .errOutOfMemory (vmSetState vm' .errOutOfMemory) flat := by
  refine ⟨rfl, ?_, ?_, ?_⟩
  · rw [vmSetState_cpsr, if_pos hok]
  · rw [← hflat, VirtualMachine.flat, VirtualMachine.flat, vmSetState_rom, vmSetState_memory]
  · intro r hr
    rw [vmSetState_registers]
    exact hregisters r hr

/-- Assigning a register. -/
theorem Shows.setRegister (h : Shows vm flat) (r : Register) (value : Word) :
    Shows (vm.setRegister r value)
      { flat with registers := Function.update flat.registers r value } :=
  ⟨h.ok, h.bytes, by rw [setRegister_registers, h.registers], h.representable⟩

/-- Copying bytes. -/
theorem Shows.poke (h : Shows vm flat) (address : ℕ) (data : Bytes) :
    Shows (vm.poke address data) { flat with bytes := overlay flat.bytes address data } :=
  ⟨h.ok, by rw [flat_poke, h.bytes], h.registers, by rw [memoryEnd_poke]; exact h.representable⟩

/-- What follows the switch keeps the array and clears `$zero`. -/
theorem Shows.vmAfterSwitch (h : Shows vm flat) (reg1 : Register) :
    Shows (vmAfterSwitch vm reg1 false)
      { flat with registers := clearZero flat.registers } := by
  have hrom := vmAfterSwitch_rom vm reg1 false
  have hmemory := vmAfterSwitch_memory vm reg1 false
  refine ⟨?_, ?_, ?_, ?_⟩
  · rw [vmHasNoError, vmAfterSwitch_cpsr]
    exact h.ok
  · rw [VirtualMachine.flat, hrom, hmemory]
    exact h.bytes
  · rw [vmAfterSwitch_registers rfl, h.registers]
    rfl
  · rw [memoryEnd, memorySize, hmemory]
    exact h.representable

/-- What follows a failing switch keeps the failure. -/
theorem Fails.vmAfterSwitch {error : State} (h : Fails error vm flat) (reg1 : Register) :
    Fails error (vmAfterSwitch vm reg1 false) flat := by
  refine ⟨h.error_eq, ?_, ?_, fun r hr => ?_⟩
  · rw [vmAfterSwitch_cpsr]
    exact h.state
  · rw [VirtualMachine.flat, vmAfterSwitch_rom, vmAfterSwitch_memory]
    exact h.bytes
  · rw [vmAfterSwitch_registers rfl, Function.update_of_ne hr]
    exact h.registers r hr

/-- **One access.** -/
theorem vmAccess_matches (h : Shows vm flat) (access : Access) :
    StepMatches vmHasNoError Shows Fails (vmAccess vm access) flat (flatAccess flat access) := by
  have hzero := h.setRegister Register.zero 0
  have hclear : ∀ r, r ≠ Register.zero →
      (vm.setRegister Register.zero 0).registers r = flat.registers r := fun r hr => by
    rw [setRegister_of_ne _ _ _ hr, h.registers]
  -- what a failing instruction leaves
  have hfails : ∀ reg1, vmHasNoError (vmAfterSwitch
      (vmSetState (vm.setRegister Register.zero 0) .errOutOfMemory) reg1 false) = false ∧
      Fails .errOutOfMemory (vmAfterSwitch
        (vmSetState (vm.setRegister Register.zero 0) .errOutOfMemory) reg1 false) flat := by
    intro reg1
    refine ⟨?_, (Fails.of_vmSetState hzero.ok h.bytes hclear).vmAfterSwitch reg1⟩
    rw [vmHasNoError, vmAfterSwitch_cpsr]
    exact vmHasNoError_vmSetState rfl
  have hregs : (vm.setRegister Register.zero 0).registers = clearZero flat.registers :=
    hzero.registers
  have hbytes : (vm.setRegister Register.zero 0).flat = flat.bytes := h.bytes
  cases access with
  | read width address =>
      simp only [vmAccess, flatAccess, FlatMachine.within]
      by_cases hin : address + width.size ≤ flat.bytes.length
      · rw [if_pos hin, vmRead_eq _ (h.accessible_iff.mpr hin), ← h.bytes]
        exact ⟨h.ok, rfl, h⟩
      · have hout := fun hacc => hin (h.accessible_iff.mp hacc)
        rw [if_neg hin]
        refine ⟨?_, ?_⟩
        · rw [vmRead_eq_fail _ hout, vmHasNoError_vmSetState rfl]
        · rw [vmRead_eq_fail _ hout]
          exact .of_vmSetState h.ok h.bytes fun r _ => by rw [h.registers]
  | write width address value =>
      simp only [vmAccess, flatAccess, FlatMachine.within]
      by_cases hin : address + width.size ≤ flat.bytes.length
      · rw [if_pos hin, vmWrite_eq _ _ (h.accessible_iff.mpr hin)]
        exact ⟨h.ok, rfl, h.poke _ _⟩
      · rw [if_neg hin, vmWrite_eq_fail _ _ fun hacc => hin (h.accessible_iff.mp hacc)]
        exact ⟨vmHasNoError_vmSetState rfl,
          .of_vmSetState h.ok h.bytes fun r _ => by rw [h.registers]⟩
  | load width narrow reg1 reg2 imm =>
      simp only [vmAccess, flatAccess, FlatMachine.within]
      rw [vmRunInstruction_unconditional]
      by_cases hin : (clearZero flat.registers reg2).toNat + imm.toNat + width.size
          ≤ flat.bytes.length
      · rw [if_pos hin, vmDispatch_load (hzero.accessible_iff.mpr (by rw [hregs]; exact hin)),
          hregs, hbytes]
        have hafter := fun value => (hzero.setRegister reg1 value).vmAfterSwitch reg1
        exact ⟨(hafter _).ok, rfl, hafter _⟩
      · rw [if_neg hin,
          vmDispatch_load_fail fun hacc => hin (by rw [← hregs]; exact hzero.accessible_iff.mp hacc)]
        exact hfails reg1
  | store width narrow reg1 reg2 imm =>
      simp only [vmAccess, flatAccess, FlatMachine.within]
      rw [vmRunInstruction_unconditional]
      by_cases hin : (clearZero flat.registers reg2).toNat + imm.toNat + width.size
          ≤ flat.bytes.length
      · rw [if_pos hin, vmDispatch_store (hzero.accessible_iff.mpr (by rw [hregs]; exact hin)),
          hregs]
        have hafter := fun address data => (hzero.poke address data).vmAfterSwitch reg1
        have hidem : clearZero (clearZero flat.registers) = clearZero flat.registers :=
          Function.update_idem ..
        refine ⟨(hafter _ _).ok, rfl, ?_⟩
        rw [← hidem]
        exact hafter _ _
      · rw [if_neg hin,
          vmDispatch_store_fail fun hacc => hin (by rw [← hregs]; exact hzero.accessible_iff.mp hacc)]
        exact hfails reg1

end Runs

/-- A machine answers a sequence of accesses as its flat array does: the reads return the same
values, and in the end either the machine shows the array or both have stopped at the same access,
outside the array, which changed nothing. -/
def AnswersFlat (vm : VirtualMachine) (accesses : List Access) : Prop :=
  RunsMatch Shows Fails (runLive vmHasNoError vmAccess accesses vm)
    (runFault flatAccess accesses ⟨vm.registers, vm.flat⟩)

/-- **The memory refines one flat array** of `4096 + _memorySize` bytes, for every sequence of
accesses of any width and at any address. -/
theorem vmAccess_refines_flat {vm : VirtualMachine} (hok : vmHasNoError vm = true)
    (hsize : vm.memorySize + romSize ≤ sizeMax) (accesses : List Access) :
    AnswersFlat vm accesses := by
  have hshows : Shows vm ⟨vm.registers, vm.flat⟩ :=
    ⟨hok, rfl, rfl, by rw [memoryEnd]; omega⟩
  exact runLive_simulates Shows Fails (fun _ => True)
    (fun _ _ access hR _ => vmAccess_matches hR access) accesses vm _ (fun _ _ => trivial) hshows

/-- A word written across the end of the ROM is read back, a load sees it, and the access that
ends one byte too far stops the run. -/
theorem vmAccess_refines_flat_straddle :
    AnswersFlat (vmInitialize 8)
      [.write .word 4094 0x11223344, .read .hword 4095, .load .byte (by decide) 2 0 4097,
        .store .word (by decide) 2 0 4100, .read .dword 4097] :=
  vmAccess_refines_flat (by decide) (by decide) _

end Zlvm
