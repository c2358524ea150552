import Mathlib.Data.List.Basic

/-!
# Machine types

The fixed-width types of `Types.h`, the bounds of `size_t`, and C strings.  A `size_t` is a natural
number; wherever the code guards a sum or a product against `SIZE_MAX`, so does the model.
-/

namespace Zlvm

abbrev Byte := UInt8
abbrev HWord := UInt16
abbrev Word := UInt32
abbrev DWord := UInt64

/-- The contents of a memory block. -/
abbrev Bytes := List Byte

/-- `SIZE_MAX` of the 64-bit hosts the code is built for. -/
def sizeMax : ℕ := 0xFFFFFFFFFFFFFFFF

/-- `UINT32_MAX`. -/
def uint32Max : ℕ := 0xFFFFFFFF

/-- A C string: the bytes before the terminating NUL, none of which is NUL. -/
@[ext] structure CString where
  bytes : Bytes
  nulFree : 0 ∉ bytes
deriving DecidableEq

namespace CString

/-- The empty string `""`. -/
def empty : CString := ⟨[], by simp⟩

/-- One more character in front. -/
def cons (b : Byte) (h : b ≠ 0) (s : CString) : CString :=
  ⟨b :: s.bytes, by simpa using ⟨h.symm, s.nulFree⟩⟩

/-- A string literal of the source. -/
def lit (s : String) : CString :=
  ⟨(s.toList.map fun c => UInt8.ofNat c.toNat).filter (· ≠ 0), by simp⟩

/-- `strlen`. -/
def length (s : CString) : ℕ := s.bytes.length

/-- The characters followed by the terminating NUL, as the string lies in memory. -/
def terminated (s : CString) : Bytes := s.bytes ++ [0]

/-- The string without its first characters: the pointer moved on. -/
def drop (s : CString) (n : ℕ) : CString :=
  ⟨s.bytes.drop n, fun h => s.nulFree (List.mem_of_mem_drop h)⟩

/-- The first characters of the string, copied and terminated. -/
def take (s : CString) (n : ℕ) : CString :=
  ⟨s.bytes.take n, fun h => s.nulFree (List.mem_of_mem_take h)⟩

/-- Two strings, one after the other. -/
def append (s t : CString) : CString :=
  ⟨s.bytes ++ t.bytes, by simpa using ⟨s.nulFree, t.nulFree⟩⟩

@[simp] theorem bytes_empty : empty.bytes = [] := rfl

@[simp] theorem bytes_drop (s : CString) (n : ℕ) : (s.drop n).bytes = s.bytes.drop n := rfl

@[simp] theorem bytes_cons (b : Byte) (h : b ≠ 0) (s : CString) :
    (cons b h s).bytes = b :: s.bytes := rfl

@[simp] theorem length_terminated (s : CString) : s.terminated.length = s.length + 1 := by
  simp [terminated, length]

end CString

end Zlvm
