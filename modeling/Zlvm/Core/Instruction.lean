import Zlvm.Core.Types
import Zlvm.Lib.LittleEndian

/-!
# Instructions

Opcodes, conditions and the eight-byte instruction format of `Opcode.h`, `Condition.h` and
`Instruction.c`.  An `Opcode` or a `Condition` field of an `Instruction` is an unsigned number, as
in C: decoding accepts every byte, and only the dispatch knows which of them mean something.
-/

namespace Zlvm

/-! ## Opcodes -/

inductive Opcode
  | nop | pop | popr | pushr | pushi | dup | movr | movi
  | addr | subr | mulr | divr | modr | addi | subi | muli
  | divi | modi | int | syscall | jmp | not | andr | orr
  | xorr | nandr | norr | andi | ori | xori | nandi | nori
  | inc | dec | loadb | storeb | loadh | storeh | loadw | storew
  | jmpal | ret | cmpr | cmpi | cmpsr | cmpsi | addsr | subsr
  | mulsr | divsr | modsr | addsi | subsi | mulsi | divsi | modsi
deriving DecidableEq

/-- The opcodes in the order of `FOREACH_OPCODE`; a position is an opcode's number. -/
def Opcode.all : List Opcode :=
  [.nop, .pop, .popr, .pushr, .pushi, .dup, .movr, .movi, .addr, .subr, .mulr, .divr, .modr,
   .addi, .subi, .muli, .divi, .modi, .int, .syscall, .jmp, .not, .andr, .orr, .xorr, .nandr,
   .norr, .andi, .ori, .xori, .nandi, .nori, .inc, .dec, .loadb, .storeb, .loadh, .storeh,
   .loadw, .storew, .jmpal, .ret, .cmpr, .cmpi, .cmpsr, .cmpsi, .addsr, .subsr, .mulsr, .divsr,
   .modsr, .addsi, .subsi, .mulsi, .divsi, .modsi]

/-- `OPCODE_TOTAL`. -/
def opcodeTotal : Word := 56

/-- The opcode with a given number. -/
def Opcode.ofWord (number : Word) : Option Opcode := Opcode.all[number.toNat]?

/-- The number of an opcode. -/
def Opcode.toWord (op : Opcode) : Word := UInt32.ofNat (Opcode.all.idxOf op)

@[simp] theorem Opcode.ofWord_toWord (op : Opcode) : Opcode.ofWord op.toWord = some op := by
  cases op <;> rfl

/-! ## Conditions -/

inductive Condition
  | unconditional | zeroSet | zeroClear | negativeSet | negativeClear | overflowSet
  | overflowClear | carrySet | carryClear | signedSet | signedClear | unsignedHigher
  | unsignedLowerOrSame | less | lessOrEquals | greater | greaterOrEquals
deriving DecidableEq

/-- The conditions in the order of the enumeration. -/
def Condition.all : List Condition :=
  [.unconditional, .zeroSet, .zeroClear, .negativeSet, .negativeClear, .overflowSet,
   .overflowClear, .carrySet, .carryClear, .signedSet, .signedClear, .unsignedHigher,
   .unsignedLowerOrSame, .less, .lessOrEquals, .greater, .greaterOrEquals]

/-- `C_TOTAL`. -/
def conditionTotal : Word := 17

/-- The condition with a given number. -/
def Condition.ofWord (number : Word) : Option Condition := Condition.all[number.toNat]?

/-- The number of a condition. -/
def Condition.toWord (c : Condition) : Word := UInt32.ofNat (Condition.all.idxOf c)

@[simp] theorem Condition.ofWord_toWord (c : Condition) :
    Condition.ofWord c.toWord = some c := by
  cases c <;> rfl

/-! ## Instructions -/

structure Instruction where
  opcode : Word
  condition : Word
  register1 : Byte
  register2 : Byte
  immediate : Word
deriving DecidableEq

/-- `ZLVM_INSTRUCTION_SIZE`. -/
def instructionSize : ℕ := 8

/-- `instruction_encode` into a buffer of `ZLVM_INSTRUCTION_SIZE` bytes; no answer is `false`. -/
def instructionEncode (instruction : Instruction) : Option Bytes :=
  if instruction.opcode ≥ opcodeTotal ∨ instruction.condition ≥ conditionTotal then none
  else some ([instruction.opcode.toUInt8, instruction.condition.toUInt8, instruction.register1,
      instruction.register2] ++
    (List.range 4).map fun index => (instruction.immediate >>> UInt32.ofNat (8 * index)).toUInt8)

/-- An encoded instruction ends with its immediate. -/
theorem instructionEncode_eq_some {instruction : Instruction} {output : Bytes}
    (h : instructionEncode instruction = some output) :
    ∃ head : Bytes, head.length = 4 ∧
      output = head ++ LittleEndian.bytes 4 instruction.immediate.toNat := by
  unfold instructionEncode at h
  split at h
  · cases h
  · rw [LittleEndian.map_shift_word _ (by omega)] at h
    exact ⟨_, rfl, (Option.some.inj h).symm⟩

/-- `instruction_decode`; no answer is `false`. -/
def instructionDecode (input : Bytes) : Option Instruction :=
  if input.length < instructionSize then none
  else some {
    opcode := (input.getD 0 0).toUInt32
    condition := (input.getD 1 0).toUInt32
    register1 := input.getD 2 0
    register2 := input.getD 3 0
    immediate := (List.range 4).foldl (fun immediate index =>
      immediate ||| (input.getD (4 + index) 0).toUInt32 <<< UInt32.ofNat (8 * index)) 0 }

/-- A number below 256 fits a byte. -/
theorem toUInt32_toUInt8 {number bound : Word} (h : number < bound) (hbound : bound ≤ 256) :
    number.toUInt8.toUInt32 = number := by
  have hlt : number.toNat < 256 :=
    Nat.lt_of_lt_of_le (UInt32.lt_iff_toNat_lt.mp h) (UInt32.le_iff_toNat_le.mp hbound)
  exact UInt32.toNat_inj.mp (by
    rw [UInt8.toNat_toUInt32, UInt32.toNat_toUInt8, Nat.mod_eq_of_lt hlt])

theorem instructionEncode_length {instruction : Instruction} {output : Bytes}
    (h : instructionEncode instruction = some output) : output.length = instructionSize := by
  obtain ⟨head, hlength, rfl⟩ := instructionEncode_eq_some h
  rw [List.length_append, hlength, LittleEndian.length_bytes]
  rfl

/-- The fields that the eight bytes at the front of a buffer hold. -/
theorem instructionDecode_eq (opcode condition register1 register2 : Byte) {immediate : Bytes}
    (h : immediate.length = 4) (rest : Bytes) :
    instructionDecode ([opcode, condition, register1, register2] ++ (immediate ++ rest))
      = some ⟨opcode.toUInt32, condition.toUInt32, register1, register2,
          UInt32.ofNat (LittleEndian.value immediate)⟩ := by
  have hbytes : (List.range 4).map (fun index =>
      ([opcode, condition, register1, register2] ++ (immediate ++ rest)).getD (4 + index) 0)
        = immediate := by
    refine List.ext_getElem (by simp [h]) fun i h₁ h₂ => ?_
    rw [List.getElem_map, List.getElem_range,
      List.getD_append_right _ _ _ _ (by simp), List.getD_append _ _ _ _ (by simpa using h₂)]
    simp [List.getD_eq_getElem?_getD, h₂]
  have himmediate : (List.range 4).foldl (fun word index => word |||
      (([opcode, condition, register1, register2] ++ (immediate ++ rest)).getD
        (4 + index) 0).toUInt32 <<< UInt32.ofNat (8 * index)) 0
        = UInt32.ofNat (LittleEndian.value immediate) := by
    refine UInt32.toNat_inj.mp ?_
    have hlt := LittleEndian.value_lt immediate
    rw [h] at hlt
    rw [LittleEndian.foldl_or_word _ 4 (by omega), hbytes, UInt32.toNat_ofNat',
      Nat.mod_eq_of_lt (by norm_num at hlt; omega)]
  rw [instructionDecode, if_neg (by simp [instructionSize, h]), himmediate]
  rfl

/-- **Decoding an encoded instruction.** -/
theorem instructionDecode_instructionEncode {instruction : Instruction} {output : Bytes}
    (h : instructionEncode instruction = some output) :
    instructionDecode output = some instruction := by
  unfold instructionEncode at h
  split at h
  · cases h
  · rename_i hvalid
    rw [not_or, ge_iff_le, ge_iff_le, UInt32.not_le, UInt32.not_le] at hvalid
    rw [LittleEndian.map_shift_word _ (by omega)] at h
    have himmediate : LittleEndian.value (LittleEndian.bytes 4 instruction.immediate.toNat)
        = instruction.immediate.toNat :=
      LittleEndian.value_bytes_of_lt instruction.immediate.toNat_lt
    have hdecode := instructionDecode_eq instruction.opcode.toUInt8 instruction.condition.toUInt8
      instruction.register1 instruction.register2
      (LittleEndian.length_bytes 4 instruction.immediate.toNat) []
    rw [List.append_nil, toUInt32_toUInt8 hvalid.1 (by decide),
      toUInt32_toUInt8 hvalid.2 (by decide), himmediate, UInt32.ofNat_toNat] at hdecode
    rw [← Option.some.inj h]
    exact hdecode

end Zlvm
