import Zlvm.Image.Decode

/-!
# What the reading functions read

Inside the input every reading function succeeds, and its result is a function of the slice it
reads.  Later modules use these equations and never look inside the readers.
-/

namespace Zlvm

open Loop Buffer

/-- The little-endian word at an offset. -/
def wordAt (input : Bytes) (offset : ℕ) : Word :=
  UInt32.ofNat (LittleEndian.value (slice input offset 4))

/-- A word is determined by its four bytes. -/
theorem wordAt_of_slice {input : Bytes} {offset : ℕ} {w : Word}
    (h : slice input offset 4 = LittleEndian.bytes 4 w.toNat) : wordAt input offset = w := by
  rw [wordAt, h, LittleEndian.value_bytes_of_lt (by simpa using w.toNat_lt)]
  simp

variable {input : Bytes}

theorem readByte_eq {index : ℕ} (h : index < input.length) :
    readByte input index = .ok (input.getD index 0) := by
  rw [readByte, List.getElem?_eq_getElem h, List.getD_eq_getElem _ _ h]

theorem readBytes_eq {offset size : ℕ} (h : offset + size ≤ input.length) :
    readBytes input offset size = .ok (slice input offset size) := by
  have hlen : (slice input offset size).length = size := length_slice_of_le h
  have hread : ∀ (i : ℕ) (hi : i < (slice input offset size).length),
      readByte input (offset + i) = .ok (slice input offset size)[i] := by
    intro i hi
    rw [readByte_eq (by omega)]
    have hget : (slice input offset size)[i]? = some (input.getD (offset + i) 0) := by
      rw [getElem?_slice, if_pos (by omega), List.getElem?_eq_getElem (by omega),
        List.getD_eq_getElem _ _ (by omega)]
    rw [List.getElem?_eq_getElem hi] at hget
    exact congrArg Except.ok (Option.some.inj hget).symm
  have hmap := mapM_range_eq_ok (f := fun i => readByte input (offset + i)) hread
  rwa [hlen] at hmap

theorem get32_eq {offset : ℕ} (h : offset + 4 ≤ input.length) :
    get32 input offset = .ok (wordAt input offset) := by
  have hstep : ∀ index ∈ List.range 4, ∀ value : Word,
      (do let b ← readByte input (offset + index)
          return value ||| b.toUInt32 <<< UInt32.ofNat (8 * index) : Except DecodeStop Word)
        = .ok (value ||| (input.getD (offset + index) 0).toUInt32
            <<< UInt32.ofNat (8 * index)) := by
    intro index hindex value
    rw [readByte_eq (by have := List.mem_range.mp hindex; omega)]
    rfl
  rw [get32, foldlM_eq_ok_foldl hstep]
  refine congrArg Except.ok (UInt32.toNat_inj.mp ?_)
  have hlt := LittleEndian.value_lt (slice input offset 4)
  rw [length_slice_of_le h] at hlt
  rw [LittleEndian.foldl_or_word (fun i => input.getD (offset + i) 0) 4 le_rfl,
    ← slice_eq_map input 0 h, wordAt, UInt32.toNat_ofNat', Nat.mod_eq_of_lt (by simpa using hlt)]

theorem get32_of_slice {offset : ℕ} {w : Word} (h : offset + 4 ≤ input.length)
    (hs : slice input offset 4 = LittleEndian.bytes 4 w.toNat) :
    get32 input offset = .ok w := by
  rw [get32_eq h, wordAt_of_slice hs]

theorem get16_eq {offset : ℕ} (h : offset + 2 ≤ input.length) :
    get16 input offset = .ok
      ((input.getD offset 0).toUInt16 ||| (input.getD (offset + 1) 0).toUInt16 <<< 8) := by
  rw [get16, readByte_eq (by omega), ok_bind, readByte_eq (by omega)]
  rfl

/-! ## Strings -/

/-- Scanning finds the string that lies at the offset. -/
theorem scanString_of_slice : ∀ {s : Bytes} (hs : 0 ∉ s) (offset size : ℕ),
    s.length < size → slice input offset (s.length + 1) = s ++ [0] →
    scanString input offset size = .ok (some ⟨s, hs⟩)
  | [], _, offset, size + 1, _, h => by
      have hget : input[offset]? = some 0 := by
        have := congrArg (·[0]?) h
        simpa [getElem?_slice] using this
      rw [scanString, readByte, hget]
      rfl
  | b :: s, hs, offset, size + 1, hlen, h => by
      have hget : input[offset]? = some b := by
        have := congrArg (·[0]?) h
        simpa [getElem?_slice] using this
      have hne : b ≠ 0 := fun hb => hs (by simp [hb])
      have htail : slice input (offset + 1) (s.length + 1) = s ++ [0] := by
        rw [← slice_slice input (n := (b :: s).length + 1) (by simp; omega), h]
        simp [slice, List.take_of_length_le]
      have ih := scanString_of_slice (s := s) (fun h0 => hs (by simp [h0])) (offset + 1) size
        (by simpa using hlen) htail
      rw [scanString, readByte, hget]
      simp [ih, hne, CString.cons]

/-- Scanning inside the input either finds a string that ends within reach or finds no NUL. -/
theorem scanString_ensures : ∀ (size offset : ℕ), offset + size ≤ input.length →
    ∃ r, scanString input offset size = .ok r
  | 0, _, _ => ⟨none, rfl⟩
  | size + 1, offset, h => by
      rw [scanString, readByte_eq (by omega), ok_bind]
      split
      · exact ⟨_, rfl⟩
      · obtain ⟨r, hr⟩ := scanString_ensures size (offset + 1) (by omega)
        rw [hr]
        exact ⟨_, rfl⟩

theorem getString_ensures {stringOffset stringSize : ℕ} (offset : Word)
    (h : stringOffset + stringSize ≤ input.length) :
    ∃ r, getString input stringOffset stringSize offset = .ok r := by
  unfold getString
  split
  · exact ⟨none, rfl⟩
  · exact scanString_ensures _ _ (by omega)

/-- The string table holds the string at the offset. -/
theorem getString_of_slice {stringOffset stringSize : ℕ} {offset : Word} {s : CString}
    (hlen : offset.toNat + s.length < stringSize)
    (h : slice input (stringOffset + offset.toNat) (s.length + 1) = s.terminated) :
    getString input stringOffset stringSize offset = .ok (some s) := by
  rw [getString, if_neg (by omega)]
  exact scanString_of_slice s.nulFree _ _ (by rw [CString.length] at hlen; omega) h

end Zlvm
