import Zlvm.Lib.Loop
import Zlvm.Lib.LittleEndian
import Zlvm.Vm.Machine

/-!
# Memory access

`vm_read_byte` … `vm_write_scalar` and the two range checks.  Below them, what they compute, in
terms of the flat address space: the ROM followed by the RAM.

* `VirtualMachine.flat` — the flat address space; `VirtualMachine.poke` — the machine after bytes
  have been copied into it.
* `vmReadScalar_eq`, `vmWriteScalar_eq` — an access inside the memory is a slice or an overlay of
  the flat space; `vmReadScalar_eq_fail`, `vmWriteScalar_eq_fail` — outside it changes nothing.
-/

namespace Zlvm

open Buffer

/-! ## The source -/

/-- `vm_validate_range`. -/
def vmValidateRange (vm : VirtualMachine) (address size : ℕ) : VirtualMachine × Bool :=
  if vm.memorySize > sizeMax - romSize then (vmSetState vm .errOutOfMemory, false)
  else
    let memoryEnd := romSize + vm.memorySize
    if size > memoryEnd ∨ address > memoryEnd - size then
      (vmSetState vm .errOutOfMemory, false)
    else (vm, true)

/-- `vm_read_byte`. -/
def vmReadByte (vm : VirtualMachine) (address : ℕ) : VirtualMachine × Byte :=
  let (vm, valid) := vmValidateRange vm address 1
  if !valid then (vm, 0)
  else if address ≥ romSize then (vm, vm.memory.getD (address - romSize) 0)
  else (vm, vm.rom.bytes.getD address 0)

/-- `vm_write_byte`. -/
def vmWriteByte (vm : VirtualMachine) (address : ℕ) (value : Byte) : VirtualMachine :=
  let (vm, valid) := vmValidateRange vm address 1
  if !valid then vm
  else if address ≥ romSize then
    { vm with memory := overlay vm.memory (address - romSize) [value] }
  else { vm with rom := vm.rom.write address [value] }

/-- `vm_read_scalar`. -/
def vmReadScalar (vm : VirtualMachine) (address size : ℕ) : VirtualMachine × DWord :=
  let (vm, valid) := vmValidateRange vm address size
  if !valid then (vm, 0)
  else (List.range size).foldl (fun (vm, result) index =>
    let (vm, b) := vmReadByte vm (address + index)
    (vm, result ||| b.toUInt64 <<< UInt64.ofNat (8 * index))) (vm, 0)

/-- `vm_write_scalar`. -/
def vmWriteScalar (vm : VirtualMachine) (address : ℕ) (value : DWord) (size : ℕ) :
    VirtualMachine :=
  let (vm, valid) := vmValidateRange vm address size
  if !valid then vm
  else (List.range size).foldl (fun vm index =>
    vmWriteByte vm (address + index) (value >>> UInt64.ofNat (8 * index)).toUInt8) vm

def vmReadHword (vm : VirtualMachine) (address : ℕ) : VirtualMachine × HWord :=
  let (vm, value) := vmReadScalar vm address 2
  (vm, value.toUInt16)

def vmWriteHword (vm : VirtualMachine) (address : ℕ) (value : HWord) : VirtualMachine :=
  vmWriteScalar vm address value.toUInt64 2

def vmReadWord (vm : VirtualMachine) (address : ℕ) : VirtualMachine × Word :=
  let (vm, value) := vmReadScalar vm address 4
  (vm, value.toUInt32)

def vmWriteWord (vm : VirtualMachine) (address : ℕ) (value : Word) : VirtualMachine :=
  vmWriteScalar vm address value.toUInt64 4

def vmReadDword (vm : VirtualMachine) (address : ℕ) : VirtualMachine × DWord :=
  vmReadScalar vm address 8

def vmWriteDword (vm : VirtualMachine) (address : ℕ) (value : DWord) : VirtualMachine :=
  vmWriteScalar vm address value 8

/-- `vm_effective_address`: the sum of two words, in 64 bits, if the access fits. -/
def vmEffectiveAddress (vm : VirtualMachine) (base offset : Word) (size : ℕ) :
    VirtualMachine × Option ℕ :=
  let result : DWord := base.toUInt64 + offset.toUInt64
  if result.toNat > sizeMax then (vmSetState vm .errOutOfMemory, none)
  else
    let (vm, valid) := vmValidateRange vm result.toNat size
    if !valid then (vmSetState vm .errOutOfMemory, none) else (vm, some result.toNat)

/-! ## The flat address space -/

namespace VirtualMachine

/-- The ROM followed by the RAM. -/
def flat (vm : VirtualMachine) : Bytes := vm.rom.bytes ++ vm.memory

/-- `ZLVM_ROM_SIZE + _memorySize`. -/
def memoryEnd (vm : VirtualMachine) : ℕ := romSize + vm.memorySize

@[simp] theorem length_flat (vm : VirtualMachine) : vm.flat.length = vm.memoryEnd := by
  simp [flat, memoryEnd, memorySize, vm.rom.size]

@[simp] theorem flat_setRegister (vm : VirtualMachine) (r : Register) (value : Word) :
    (vm.setRegister r value).flat = vm.flat := rfl

/-- Copy bytes into the flat address space. -/
def poke (vm : VirtualMachine) (address : ℕ) (data : Bytes) : VirtualMachine :=
  { vm with
    rom := vm.rom.write address data
    memory := overlay vm.memory (address - romSize) (data.drop (romSize - address)) }

section Poke

variable (vm : VirtualMachine) (address : ℕ) (data : Bytes)

@[simp] theorem poke_registers : (vm.poke address data).registers = vm.registers := rfl

@[simp] theorem poke_cpsr : (vm.poke address data).cpsr = vm.cpsr := rfl

@[simp] theorem memoryEnd_poke : (vm.poke address data).memoryEnd = vm.memoryEnd := by
  simp [memoryEnd, memorySize, poke]

/-- **A copy into the machine is a copy into its flat address space.** -/
theorem flat_poke : (vm.poke address data).flat = overlay vm.flat address data := by
  have hsplit := overlay_split vm.rom.bytes vm.memory address data
  rw [vm.rom.size] at hsplit
  exact hsplit.symm

end Poke

/-- A machine is its flat address space and everything else. -/
theorem ext_flat {vm vm' : VirtualMachine} (hflat : vm.flat = vm'.flat)
    (hcpsr : vm.cpsr = vm'.cpsr) (halu : vm.alu = vm'.alu)
    (hregisters : vm.registers = vm'.registers) (hentry : vm.entryPoint = vm'.entryPoint)
    (hhost : vm.host = vm'.host) : vm = vm' := by
  obtain ⟨hrom, hmemory⟩ := List.append_inj hflat (by rw [vm.rom.size, vm'.rom.size])
  exact VirtualMachine.ext hcpsr halu hregisters (Rom.ext hrom) hmemory hentry hhost

end VirtualMachine

namespace VirtualMachine

/-- `size` bytes at `address` can be accessed. -/
def Accessible (vm : VirtualMachine) (address size : ℕ) : Prop :=
  vm.memoryEnd ≤ sizeMax ∧ address + size ≤ vm.memoryEnd

instance (vm : VirtualMachine) (address size : ℕ) : Decidable (vm.Accessible address size) :=
  inferInstanceAs (Decidable (_ ∧ _))

theorem Accessible.sub {vm : VirtualMachine} {address size index : ℕ}
    (h : vm.Accessible address size) (hindex : index < size) :
    vm.Accessible (address + index) 1 := ⟨h.1, by have := h.2; omega⟩

@[simp] theorem accessible_poke {vm : VirtualMachine} {at' : ℕ} {data : Bytes}
    {address size : ℕ} : (vm.poke at' data).Accessible address size ↔ vm.Accessible address size := by
  simp [Accessible]

end VirtualMachine

open VirtualMachine

/-! ## What the accesses compute -/

section Access

variable {vm : VirtualMachine} {address size : ℕ}

/-- The range check is `Accessible`. -/
theorem vmValidateRange_eq : vmValidateRange vm address size
    = if vm.Accessible address size then (vm, true)
      else (vmSetState vm .errOutOfMemory, false) := by
  have hrom : romSize ≤ sizeMax := by decide
  unfold vmValidateRange
  by_cases hsize : vm.memorySize > sizeMax - romSize
  · rw [if_pos hsize, if_neg]
    rintro ⟨hle, -⟩
    rw [memoryEnd] at hle
    omega
  · rw [if_neg hsize]
    simp only
    by_cases hrange : size > romSize + vm.memorySize ∨ address > romSize + vm.memorySize - size
    · rw [if_pos hrange, if_neg]
      rintro ⟨-, hle⟩
      rw [memoryEnd] at hle
      omega
    · rw [if_neg hrange, if_pos]
      refine ⟨?_, ?_⟩ <;> rw [memoryEnd] <;> omega

theorem vmReadByte_eq (h : vm.Accessible address 1) :
    vmReadByte vm address = (vm, vm.flat.getD address 0) := by
  have hrom := vm.rom.size
  rw [vmReadByte, vmValidateRange_eq, if_pos h]
  simp only [Bool.not_true, Bool.false_eq_true, if_false]
  split
  · rename_i hge
    rw [flat, List.getD_append_right _ _ _ _ (by omega), hrom]
  · rename_i hlt
    rw [flat, List.getD_append _ _ _ _ (by omega)]

theorem vmWriteByte_eq (h : vm.Accessible address 1) (value : Byte) :
    vmWriteByte vm address value = vm.poke address [value] := by
  rw [vmWriteByte, vmValidateRange_eq, if_pos h]
  simp only [Bool.not_true, Bool.false_eq_true, if_false]
  split
  · rename_i hge
    have hrom : vm.rom.write address [value] = vm.rom := by
      refine Rom.ext (List.ext_getElem? fun i => ?_)
      rw [Rom.write, getElem?_overlay, if_neg]
      have := vm.rom.size
      omega
    rw [poke, hrom, Nat.sub_eq_zero_of_le hge, List.drop_zero]
  · rename_i hlt
    rw [poke, List.drop_of_length_le (by simp; omega), overlay_nil_right]

/-- Two copies in a row are one. -/
theorem poke_poke (vm : VirtualMachine) (address : ℕ) (xs ys : Bytes) :
    (vm.poke address xs).poke (address + xs.length) ys = vm.poke address (xs ++ ys) :=
  ext_flat (by rw [flat_poke, flat_poke, flat_poke, overlay_append]) rfl rfl rfl rfl rfl

@[simp] theorem poke_nil (vm : VirtualMachine) (address : ℕ) : vm.poke address [] = vm :=
  ext_flat (by rw [flat_poke, overlay_nil_right]) rfl rfl rfl rfl rfl

/-- **Reading inside the memory.** -/
theorem vmReadScalar_eq (h : vm.Accessible address size) (hsize : size ≤ 8) :
    vmReadScalar vm address size
      = (vm, UInt64.ofNat (LittleEndian.value (slice vm.flat address size))) := by
  have hloop := Loop.foldl_induction (l := List.range size)
    (f := fun ((vm, result) : VirtualMachine × DWord) index =>
      let (vm, b) := vmReadByte vm (address + index)
      (vm, result ||| b.toUInt64 <<< UInt64.ofNat (8 * index))) (b := (vm, 0))
    (fun done state => state = (vm, done.foldl
      (fun result index => result ||| (vm.flat.getD (address + index) 0).toUInt64
        <<< UInt64.ofNat (8 * index)) 0)) rfl ?_
  · rw [vmReadScalar, vmValidateRange_eq, if_pos h]
    simp only [Bool.not_true, Bool.false_eq_true, if_false]
    refine hloop.trans (Prod.ext rfl (UInt64.toNat_inj.mp ?_))
    have hin : address + size ≤ vm.flat.length := by rw [length_flat]; exact h.2
    have hlt := LittleEndian.value_lt (slice vm.flat address size)
    have hpow : 256 ^ size ≤ 2 ^ 64 := by
      calc 256 ^ size ≤ 256 ^ 8 := Nat.pow_le_pow_right (by norm_num) hsize
        _ = 2 ^ 64 := by norm_num
    rw [length_slice_of_le hin] at hlt
    simp only
    rw [LittleEndian.foldl_or_dword (fun i => vm.flat.getD (address + i) 0) size hsize,
      ← slice_eq_map vm.flat 0 hin, UInt64.toNat_ofNat', Nat.mod_eq_of_lt (by omega)]
  · intro done index rest state hl hstate
    have hindex : index < size := List.mem_range.mp (by rw [hl]; simp)
    rw [hstate, List.foldl_append]
    simp only [vmReadByte_eq (h.sub hindex), List.foldl_cons, List.foldl_nil]

/-- **Writing inside the memory.** -/
theorem vmWriteScalar_eq (h : vm.Accessible address size) (hsize : size ≤ 8) (value : DWord) :
    vmWriteScalar vm address value size
      = vm.poke address (LittleEndian.bytes size value.toNat) := by
  have hloop := Loop.foldl_induction (l := List.range size)
    (f := fun vm index =>
      vmWriteByte vm (address + index) (value >>> UInt64.ofNat (8 * index)).toUInt8) (b := vm)
    (fun done vm' => vm' = vm.poke address
      (done.map fun index => (value >>> UInt64.ofNat (8 * index)).toUInt8)) (by simp) ?_
  · rw [vmWriteScalar, vmValidateRange_eq, if_pos h]
    simp only [Bool.not_true, Bool.false_eq_true, if_false]
    rw [hloop, LittleEndian.map_shift_dword value hsize]
  · intro done index rest vm' hl hvm
    have hindex : index < size := List.mem_range.mp (by rw [hl]; simp)
    have hdone : done.length = index := by
      have hget := congrArg (·[done.length]?) hl
      have hlt : done.length < size := by
        have := congrArg List.length hl
        simp at this
        omega
      simpa [List.getElem?_range, hlt] using hget
    have hposition : address + index = address
        + (done.map fun index => (value >>> UInt64.ofNat (8 * index)).toUInt8).length := by
      rw [List.length_map, hdone]
    rw [hvm, vmWriteByte_eq (accessible_poke.mpr (h.sub hindex)), hposition, poke_poke,
      List.map_append, List.map_cons, List.map_nil]

/-- Reading outside the memory. -/
theorem vmReadScalar_eq_fail (h : ¬vm.Accessible address size) :
    vmReadScalar vm address size = (vmSetState vm .errOutOfMemory, 0) := by
  rw [vmReadScalar, vmValidateRange_eq, if_neg h]
  rfl

/-- Writing outside the memory. -/
theorem vmWriteScalar_eq_fail (h : ¬vm.Accessible address size) (value : DWord) :
    vmWriteScalar vm address value size = vmSetState vm .errOutOfMemory := by
  rw [vmWriteScalar, vmValidateRange_eq, if_neg h]
  rfl

theorem vmReadWord_eq (h : vm.Accessible address 4) :
    vmReadWord vm address
      = (vm, UInt32.ofNat (LittleEndian.value (slice vm.flat address 4))) := by
  rw [vmReadWord, vmReadScalar_eq h (by omega)]
  simp

theorem vmWriteWord_eq (h : vm.Accessible address 4) (value : Word) :
    vmWriteWord vm address value = vm.poke address (LittleEndian.bytes 4 value.toNat) := by
  rw [vmWriteWord, vmWriteScalar_eq h (by omega), UInt32.toNat_toUInt64]

/-- **The effective address** never wraps: the sum of two words fits 64 bits. -/
theorem vmEffectiveAddress_eq (base offset : Word) :
    vmEffectiveAddress vm base offset size
      = if vm.Accessible (base.toNat + offset.toNat) size
        then (vm, some (base.toNat + offset.toNat))
        else (vmSetState vm .errOutOfMemory, none) := by
  have hsum : (base.toUInt64 + offset.toUInt64).toNat = base.toNat + offset.toNat := by
    rw [UInt64.toNat_add, UInt32.toNat_toUInt64, UInt32.toNat_toUInt64]
    have := base.toNat_lt
    have := offset.toNat_lt
    omega
  have hle : base.toNat + offset.toNat ≤ sizeMax := by
    have := base.toNat_lt
    have := offset.toNat_lt
    rw [sizeMax]
    omega
  rw [vmEffectiveAddress]
  simp only [hsum]
  rw [if_neg (by omega), vmValidateRange_eq]
  split
  · rfl
  · refine Prod.ext ?_ rfl
    simp only [Bool.not_false, if_true]
    unfold vmSetState
    split
    · rw [if_neg (by simp [vmHasNoError, State.isError])]
    · rfl

end Access

end Zlvm
