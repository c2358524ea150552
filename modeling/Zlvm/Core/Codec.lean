import Zlvm.Core.Instruction
import Zlvm.Lib.Buffer

/-!
# The instruction codec

`instruction_encode` writes into a buffer of its caller, byte by byte and only after its checks.

* `instructionEncodeInto` — the answer together with the buffer afterwards, and
  `instructionEncodeInto_eq`: the bytes of `instructionEncode` at the front of the buffer.
* `instructionEncode_of_decode` — the bytes an instruction was decoded from come back, unless one
  of the first two names no opcode or no condition.
* **`codecExact`** — both directions, for every instruction and for every string of eight bytes.
-/

namespace Zlvm

open Buffer

/-- `instruction_encode`: the answer and the output buffer afterwards. -/
def instructionEncodeInto (output : Bytes) (instruction : Instruction) : Bool × Bytes :=
  if output.length < instructionSize ∨ instruction.opcode ≥ opcodeTotal ∨
      instruction.condition ≥ conditionTotal then
    (false, output)
  else
    let output := output.set 0 instruction.opcode.toUInt8
    let output := output.set 1 instruction.condition.toUInt8
    let output := output.set 2 instruction.register1
    let output := output.set 3 instruction.register2
    (true, (List.range 4).foldl (fun output index =>
      output.set (4 + index) (instruction.immediate >>> UInt32.ofNat (8 * index)).toUInt8) output)

/-- The bytes of `instructionEncode` go to the front of the buffer; without them nothing is
written. -/
theorem instructionEncodeInto_eq (instruction : Instruction) {output : Bytes}
    (hsize : instructionSize ≤ output.length) :
    instructionEncodeInto output instruction
      = ((instructionEncode instruction).map fun bytes =>
          (true, bytes ++ output.drop instructionSize)).getD (false, output) := by
  unfold instructionEncodeInto instructionEncode
  by_cases hfields : instruction.opcode ≥ opcodeTotal ∨ instruction.condition ≥ conditionTotal
  · rw [if_pos (Or.inr hfields), if_pos hfields]
    rfl
  · rw [if_neg (by rw [not_or]; exact ⟨Nat.not_lt.mpr hsize, hfields⟩), if_neg hfields]
    -- the eight assignments are one copy
    simp only [foldl_set_range]
    simp only [set_eq_overlay]
    rw [← overlay_cons _ 3, ← overlay_cons _ 2, ← overlay_cons _ 1, ← overlay_cons _ 0,
      overlay_front _ _ (by simpa [instructionSize] using hsize)]
    simp [instructionSize]

@[simp] theorem instructionEncode_isSome {instruction : Instruction} :
    (instructionEncode instruction).isSome
      ↔ instruction.opcode < opcodeTotal ∧ instruction.condition < conditionTotal := by
  unfold instructionEncode
  split
  · rename_i hfields
    rw [Option.isSome_none]
    constructor
    · intro h
      cases h
    · rintro ⟨hopcode, hcondition⟩
      rcases hfields with h | h
      · exact absurd hopcode (UInt32.not_lt.mpr h)
      · exact absurd hcondition (UInt32.not_lt.mpr h)
  · rename_i hfields
    rw [not_or, ge_iff_le, ge_iff_le, UInt32.not_le, UInt32.not_le] at hfields
    rw [Option.isSome_some]
    exact ⟨fun _ => hfields, fun _ => rfl⟩

theorem exists_of_length_eq_size {bytes : Bytes} (h : bytes.length = instructionSize) :
    ∃ opcode condition register1 register2 : Byte, ∃ immediate : Bytes, immediate.length = 4 ∧
      bytes = [opcode, condition, register1, register2] ++ immediate := by
  rcases bytes with _ | ⟨b0, _ | ⟨b1, _ | ⟨b2, _ | ⟨b3, immediate⟩⟩⟩⟩
  all_goals simp only [instructionSize, List.length_cons, List.length_nil] at h
  · cases h
  · cases h
  · cases h
  · cases h
  · exact ⟨b0, b1, b2, b3, immediate, by omega, rfl⟩

/-- Every eight bytes are decoded. -/
theorem instructionDecode_isSome {bytes : Bytes} (h : bytes.length = instructionSize) :
    ∃ instruction, instructionDecode bytes = some instruction := by
  unfold instructionDecode
  rw [if_neg (by omega)]
  exact ⟨_, rfl⟩

/-- Decoding reads no further than the eight bytes. -/
theorem instructionDecode_append {bytes : Bytes} (h : bytes.length = instructionSize)
    (rest : Bytes) : instructionDecode (bytes ++ rest) = instructionDecode bytes := by
  obtain ⟨b0, b1, b2, b3, immediate, himmediate, rfl⟩ := exists_of_length_eq_size h
  have hdecode := instructionDecode_eq b0 b1 b2 b3 himmediate []
  rw [List.append_nil] at hdecode
  rw [hdecode, List.append_assoc, instructionDecode_eq b0 b1 b2 b3 himmediate rest]

/-- **Encoding a decoded instruction** gives the bytes that it was decoded from. -/
theorem instructionEncode_of_decode {bytes encoded : Bytes} {instruction : Instruction}
    (hlength : bytes.length = instructionSize)
    (hdecode : instructionDecode bytes = some instruction)
    (hencode : instructionEncode instruction = some encoded) : encoded = bytes := by
  obtain ⟨b0, b1, b2, b3, immediate, himmediate, rfl⟩ := exists_of_length_eq_size hlength
  have hfields := instructionDecode_eq b0 b1 b2 b3 himmediate []
  rw [List.append_nil, hdecode] at hfields
  obtain rfl := Option.some.inj hfields
  unfold instructionEncode at hencode
  split at hencode
  · cases hencode
  · rw [LittleEndian.map_shift_word _ (by omega), LittleEndian.bytes_value_word himmediate]
      at hencode
    rw [← Option.some.inj hencode]
    simp

/-- The first byte names an opcode and the second a condition. -/
def HasValidFields (bytes : Bytes) : Prop :=
  (bytes.getD 0 0).toUInt32 < opcodeTotal ∧ (bytes.getD 1 0).toUInt32 < conditionTotal

theorem instructionEncode_isSome_of_decode {bytes : Bytes} {instruction : Instruction}
    (hdecode : instructionDecode bytes = some instruction) :
    (instructionEncode instruction).isSome ↔ HasValidFields bytes := by
  unfold instructionDecode at hdecode
  split at hdecode
  · cases hdecode
  · rw [← Option.some.inj hdecode]
    exact instructionEncode_isSome

/-- Instructions and strings of eight bytes stand for each other.  Every instruction with valid
fields is decoded from what was written for it.  Every string of eight bytes is decoded, and
encoding the result writes it again exactly if its first two bytes are valid; nothing is written
otherwise. -/
structure CodecExact : Prop where
  instruction : ∀ instruction : Instruction, instruction.opcode < opcodeTotal →
    instruction.condition < conditionTotal → ∀ output : Bytes, instructionSize ≤ output.length →
      (instructionEncodeInto output instruction).1 = true ∧
      instructionDecode (instructionEncodeInto output instruction).2 = some instruction
  bytes : ∀ bytes : Bytes, bytes.length = instructionSize →
    ∃ instruction, instructionDecode bytes = some instruction ∧
      ∀ output : Bytes, instructionSize ≤ output.length →
        (instructionEncodeInto output instruction = (true, bytes ++ output.drop instructionSize)
          ↔ HasValidFields bytes) ∧
        (¬HasValidFields bytes → instructionEncodeInto output instruction = (false, output))

/-- **The instruction codec is exact.** -/
theorem codecExact : CodecExact where
  instruction := by
    intro instruction hopcode hcondition output hsize
    obtain ⟨encoded, hencode⟩ :=
      Option.isSome_iff_exists.mp (instructionEncode_isSome.mpr ⟨hopcode, hcondition⟩)
    rw [instructionEncodeInto_eq instruction hsize, hencode]
    refine ⟨rfl, ?_⟩
    exact (instructionDecode_append (instructionEncode_length hencode) _).trans
      (instructionDecode_instructionEncode hencode)
  bytes := by
    intro bytes hlength
    obtain ⟨instruction, hdecode⟩ := instructionDecode_isSome hlength
    refine ⟨instruction, hdecode, fun output hsize => ?_⟩
    have hvalid := instructionEncode_isSome_of_decode hdecode
    rw [instructionEncodeInto_eq instruction hsize]
    cases hencode : instructionEncode instruction with
    | none =>
        rw [hencode] at hvalid
        have hinvalid : ¬HasValidFields bytes := fun h => by simpa using hvalid.mpr h
        simpa using hinvalid
    | some encoded =>
        rw [hencode] at hvalid
        have hfields : HasValidFields bytes := hvalid.mp rfl
        obtain rfl := instructionEncode_of_decode hlength hdecode hencode
        exact ⟨⟨fun _ => hfields, fun _ => rfl⟩, fun h => absurd hfields h⟩

end Zlvm
