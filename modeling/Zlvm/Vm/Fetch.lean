import Zlvm.Vm.Run

/-!
# Fetching from a memory of any size

The range of an instruction is checked in `size_t`, but `$pc` has 32 bits and wraps between the
bytes.

* `FetchSpec` — a fetch reads the eight bytes from `$pc` on, or fails and changes nothing else.
* `WrapsAlike` — no byte of the instruction lies behind the 32-bit address space, or the memory
  holds the same byte where `$pc` wraps to.
* **`fetchSpec_iff`** — these are the same machines.
-/

namespace Zlvm

open Buffer VirtualMachine

/-- **An instruction has one encoding** of eight bytes. -/
theorem instructionDecode_inj {input input' : Bytes} (hlength : input.length = instructionSize)
    (hlength' : input'.length = instructionSize)
    (h : instructionDecode input = instructionDecode input') : input = input' := by
  have hlast : ∀ bytes : Bytes, ((List.range 4).foldl (fun immediate index =>
      immediate ||| (bytes.getD (4 + index) 0).toUInt32 <<< UInt32.ofNat (8 * index)) (0 : Word)).toNat
        = LittleEndian.value ((List.range 4).map fun index => bytes.getD (4 + index) 0) :=
    fun bytes => LittleEndian.foldl_or_word _ 4 (by omega)
  have hwide : ∀ {a b : Byte}, a.toUInt32 = b.toUInt32 → a = b := fun {a b} hab => by
    have htoNat := congrArg UInt32.toNat hab
    rw [UInt8.toNat_toUInt32, UInt8.toNat_toUInt32] at htoNat
    exact UInt8.toNat_inj.mp htoNat
  rw [instructionDecode, if_neg (by omega), instructionDecode, if_neg (by omega)] at h
  obtain ⟨hopcode, hcondition, hregister1, hregister2, himmediate⟩ :=
    Instruction.mk.inj (Option.some.inj h)
  have hvalues := congrArg UInt32.toNat himmediate
  rw [hlast, hlast] at hvalues
  have hmap := List.map_inj_left.mp (LittleEndian.value_inj (by simp) hvalues)
  have hget : ∀ i < 8, input.getD i 0 = input'.getD i 0 := by
    intro i hi
    obtain _ | _ | _ | _ | i := i
    · exact hwide hopcode
    · exact hwide hcondition
    · exact hregister1
    · exact hregister2
    · have hindex := hmap i (List.mem_range.mpr (by omega))
      rw [Nat.add_comm] at hindex
      exact hindex
  rw [instructionSize] at hlength hlength'
  refine List.ext_getElem (hlength.trans hlength'.symm) fun i hi hi' => ?_
  have heq := hget i (by omega)
  rwa [List.getD_eq_getElem _ _ hi, List.getD_eq_getElem _ _ hi'] at heq

/-- What a fetch should do: fail and change nothing but the state, exactly if the instruction ends
behind the memory, and otherwise read the eight bytes from `$pc` on and move `$pc` by eight. -/
structure FetchSpec (vm : VirtualMachine) : Prop where
  outside : vm.memoryEnd < (vm.registers Register.pc).toNat + instructionSize →
    (vmFetchInstruction vm).1 = { vm with cpsr := { vm.cpsr with ST := .errOutOfMemory } }
  inside : (vm.registers Register.pc).toNat + instructionSize ≤ vm.memoryEnd →
    ∃ instruction,
      instructionDecode (slice vm.flat (vm.registers Register.pc).toNat instructionSize)
        = some instruction ∧
      vmFetchInstruction vm
        = (vm.setRegister Register.pc (vm.registers Register.pc + 8), instruction)

/-- Wherever `$pc` wraps inside an instruction in the memory, the byte that it wraps to is the byte
behind the 32-bit address space. -/
def WrapsAlike (vm : VirtualMachine) : Prop :=
  (vm.registers Register.pc).toNat + instructionSize ≤ vm.memoryEnd →
    ∀ index < instructionSize, 2 ^ 32 ≤ (vm.registers Register.pc).toNat + index →
      vm.flat[(vm.registers Register.pc).toNat + index - 2 ^ 32]?
        = vm.flat[(vm.registers Register.pc).toNat + index]?

section Fetch

variable {vm : VirtualMachine}

/-- The address of a byte after `$pc` has wrapped. -/
theorem pc_add_toNat {index : ℕ} (h : index < instructionSize) :
    (vm.registers Register.pc + UInt32.ofNat index).toNat
      = if 2 ^ 32 ≤ (vm.registers Register.pc).toNat + index
        then (vm.registers Register.pc).toNat + index - 2 ^ 32
        else (vm.registers Register.pc).toNat + index := by
  have hlt := (vm.registers Register.pc).toNat_lt
  rw [instructionSize] at h
  rw [UInt32.toNat_add, UInt32.toNat_ofNat']
  split <;> omega

/-- **The bytes that a fetch reads** are those from `$pc` on exactly if `$pc` wraps alike. -/
theorem instructionBytes_eq_iff
    (h : (vm.registers Register.pc).toNat + instructionSize ≤ vm.memoryEnd) :
    instructionBytes vm = slice vm.flat (vm.registers Register.pc).toNat instructionSize ↔
      WrapsAlike vm := by
  have hlength : (vm.registers Register.pc).toNat + instructionSize ≤ vm.flat.length := by
    rw [length_flat]
    exact h
  have hpc := (vm.registers Register.pc).toNat_lt
  rw [instructionBytes, slice_eq_map vm.flat 0 hlength, List.map_inj_left]
  constructor
  · intro hbytes _ index hindex hwraps
    have hbyte := hbytes index (List.mem_range.mpr hindex)
    rw [pc_add_toNat hindex, if_pos hwraps, List.getD_eq_getElem _ _ (by omega),
      List.getD_eq_getElem _ _ (by omega)] at hbyte
    rw [List.getElem?_eq_getElem (by omega), List.getElem?_eq_getElem (by omega), hbyte]
  · intro hwraps index hmem
    have hindex := List.mem_range.mp hmem
    rw [pc_add_toNat hindex]
    split
    · rename_i hle
      rw [List.getD_eq_getElem?_getD, List.getD_eq_getElem?_getD, hwraps h index hindex hle]
    · rfl

variable (hsize : vm.memoryEnd ≤ sizeMax)
include hsize

theorem accessible_pc_iff : vm.Accessible (vm.registers Register.pc).toNat instructionSize ↔
    (vm.registers Register.pc).toNat + instructionSize ≤ vm.memoryEnd := and_iff_right hsize

/-- A fetch that is right has read the right bytes. -/
theorem FetchSpec.wrapsAlike (h : FetchSpec vm) : WrapsAlike vm := by
  by_cases hinside : (vm.registers Register.pc).toNat + instructionSize ≤ vm.memoryEnd
  · obtain ⟨instruction, hdecode, hfetch⟩ := h.inside hinside
    obtain ⟨read, hread, hrun⟩ := @vmFetchInstruction_eq vm
    rw [if_pos ((accessible_pc_iff hsize).mpr hinside)] at hrun
    obtain rfl : read = instruction := congrArg Prod.snd (hrun.symm.trans hfetch)
    refine (instructionBytes_eq_iff hinside).mp (instructionDecode_inj ?_ ?_ ?_)
    · exact length_instructionBytes
    · rw [length_slice_of_le]
      rw [length_flat]
      exact hinside
    · rw [hread, hdecode]
  · exact fun hle => absurd hle hinside

/-- **A fetch is right** exactly if `$pc` wraps alike. -/
theorem fetchSpec_iff (hnormal : vm.cpsr.ST = .normal) : FetchSpec vm ↔ WrapsAlike vm := by
  refine ⟨FetchSpec.wrapsAlike hsize, fun hwraps => ⟨fun houtside => ?_, fun hinside => ?_⟩⟩
  · obtain ⟨read, -, hrun⟩ := @vmFetchInstruction_eq vm
    rw [hrun, if_neg fun hacc => by
      have hle := (accessible_pc_iff hsize).mp hacc
      omega]
    exact if_pos (vmHasNoError_of_normal hnormal)
  · obtain ⟨read, hread, hrun⟩ := @vmFetchInstruction_eq vm
    rw [if_pos ((accessible_pc_iff hsize).mpr hinside)] at hrun
    rw [(instructionBytes_eq_iff hinside).mpr hwraps] at hread
    exact ⟨read, hread, hrun⟩

end Fetch

/-- An instruction at the end of the ROM goes on in the RAM. -/
theorem fetchSpec_boundary : FetchSpec ((vmInitialize 8).setRegister Register.pc 4092) :=
  (fetchSpec_iff (by decide +kernel) rfl).mpr fun _ index hindex hwraps => by
    have hpc : (((vmInitialize 8).setRegister Register.pc 4092).registers Register.pc).toNat = 4092 :=
      rfl
    rw [instructionSize] at hindex
    rw [hpc] at hwraps
    omega

/-- A machine with more than `2 ^ 32` bytes and an instruction that begins four bytes before. -/
def wrappingMachine : VirtualMachine :=
  { vmInitialize 0 with
    memory := List.replicate (2 ^ 32 - romSize) 0 ++ [1, 1, 1, 1]
    registers := Function.update (fun _ => 0) Register.pc 0xFFFFFFFC }

/-- **The last four bytes are those at address zero**, not those from `2 ^ 32` on. -/
theorem wrappingMachine_not_fetchSpec :
    wrappingMachine.cpsr.ST = .normal ∧ wrappingMachine.memoryEnd ≤ sizeMax ∧
      ¬FetchSpec wrappingMachine := by
  have hpc : (wrappingMachine.registers Register.pc).toNat = 0xFFFFFFFC := by
    show (Function.update (fun _ => (0 : Word)) Register.pc 0xFFFFFFFC Register.pc).toNat = _
    rw [Function.update_self]
    rfl
  have hmemory : wrappingMachine.memory = List.replicate (2 ^ 32 - romSize) 0 ++ [1, 1, 1, 1] := rfl
  have hend : wrappingMachine.memoryEnd = 2 ^ 32 + 4 := by
    rw [memoryEnd, memorySize, hmemory, List.length_append, List.length_replicate, romSize]
    rfl
  have hsize : wrappingMachine.memoryEnd ≤ sizeMax := by
    rw [hend]
    decide
  refine ⟨rfl, hsize, fun hspec => ?_⟩
  have hbyte := hspec.wrapsAlike hsize (by rw [hpc, hend, instructionSize]; decide) 4 (by decide) (by omega)
  rw [hpc] at hbyte
  have hlength : wrappingMachine.rom.bytes.length = 4096 := wrappingMachine.rom.size
  have hfirst : wrappingMachine.flat[(0 : ℕ)]? = some 0 := by
    rw [flat, List.getElem?_append_left (by omega)]
    rfl
  have hlast : wrappingMachine.flat[(2 ^ 32 : ℕ)]? = some 1 := by
    rw [flat, List.getElem?_append_right (by omega), hlength, hmemory,
      List.getElem?_append_right (by rw [List.length_replicate, romSize]), List.length_replicate,
      romSize]
    rfl
  rw [show 0xFFFFFFFC + 4 - 2 ^ 32 = 0 from rfl, show 0xFFFFFFFC + 4 = 2 ^ 32 from rfl, hfirst, hlast]
    at hbyte
  cases hbyte

end Zlvm
