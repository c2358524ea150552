import Zlvm.Core.Types
import Zlvm.Lib.Buffer
import Zlvm.Lib.LittleEndian

/-!
# The image format

The types of `Image.h` and the small helpers of `Image.c` that its encoder and its decoder share.

Null pointers to the image itself, to its tables and to the result are not values of the model, so
the guards against them are absent.  A section's `data` and `data_size` are one field,
`SectionData`: either a null pointer with a size, or a pointer to exactly `data_size` bytes.
-/

namespace Zlvm

def imageVersion : HWord := 1
def imageHeaderSize : ℕ := 52
def imageSectionRecordSize : ℕ := 28
def imageSymbolRecordSize : ℕ := 20
def imageRelocationRecordSize : ℕ := 20

/-- `ZLIM`. -/
def imageMagic : Bytes := [0x5A, 0x4C, 0x49, 0x4D]

/-- `ZL_IMAGE_UNDEFINED_SECTION`. -/
def undefinedSection : Word := 0xFFFFFFFF

/-! ## Enumerations

The fields that hold these are plain integers in the structures of `Image.h`: a decoded image has
been checked, an image handed to the encoder has not. -/

def imageObject : Byte := 1
def imageExecutable : Byte := 2

def sectionText : Word := 1
def sectionDataType : Word := 2
def sectionBss : Word := 3

def symbolLocal : Byte := 0
def symbolGlobal : Byte := 1
def symbolWeak : Byte := 2

def symbolNotype : Byte := 0
def symbolObject : Byte := 1
def symbolFunction : Byte := 2

def relocationAbsolute32 : Word := 1
def relocationPcRelative32 : Word := 2

inductive ZlImageError
  | none
  | invalidArgument
  | outOfMemory
  | badMagic
  | unsupportedVersion
  | invalidKind
  | malformed
  | overflow
  | bounds
deriving DecidableEq

/-! ## Structures -/

/-- `data` together with `data_size`. -/
inductive SectionData
  /-- A null pointer; `data_size` is still a number. -/
  | null (size : ℕ)
  /-- A pointer to `data_size` bytes. -/
  | bytes (data : Bytes)
deriving DecidableEq

namespace SectionData

/-- `data_size`. -/
def size : SectionData → ℕ
  | null n => n
  | bytes d => d.length

/-- The bytes `data` points to. -/
def toBytes : SectionData → Bytes
  | null _ => []
  | bytes d => d

/-- `data == NULL`. -/
def isNull : SectionData → Bool
  | null _ => true
  | bytes _ => false

@[simp] theorem size_bytes (d : Bytes) : (bytes d).size = d.length := rfl
@[simp] theorem size_null (n : ℕ) : (null n).size = n := rfl
@[simp] theorem toBytes_bytes (d : Bytes) : (bytes d).toBytes = d := rfl

end SectionData

@[ext] structure ZlImageSection where
  name : Option CString
  type : Word
  flags : Word
  alignment : Word
  address : Word
  data : SectionData
deriving DecidableEq

/-- `data_size`. -/
def ZlImageSection.dataSize (s : ZlImageSection) : ℕ := s.data.size

@[ext] structure ZlImageSymbol where
  name : Option CString
  sectionIndex : Word
  value : Word
  size : Word
  binding : Byte
  type : Byte
deriving DecidableEq

@[ext] structure ZlImageRelocation where
  sectionIndex : Word
  offset : Word
  type : Word
  symbolIndex : Word
  addend : Int32
deriving DecidableEq

/-- An image; the three counts are the lengths of the three lists.  The default value is the
all-zero image. -/
@[ext] structure ZlImage where
  kind : Byte := 0
  entryPoint : Word := 0
  entrySymbol : Option CString := none
  sections : List ZlImageSection := []
  symbols : List ZlImageSymbol := []
  relocations : List ZlImageRelocation := []
deriving DecidableEq

/-- `value == NULL ? "" : value`. -/
def orEmpty (name : Option CString) : CString := name.getD CString.empty

/-! ## Helpers -/

/-- `add_size`: the sum of two sizes, unless it exceeds `SIZE_MAX`. -/
def addSize (left right : ℕ) : Option ℕ :=
  if right > sizeMax - left then none else some (left + right)

/-- `multiply_size`. -/
def multiplySize (left right : ℕ) : Option ℕ :=
  if left ≠ 0 ∧ right > sizeMax / left then none else some (left * right)

/-- `in_range`. -/
def inRange (offset size inputSize : ℕ) : Bool :=
  decide (offset ≤ inputSize) && decide (size ≤ inputSize - offset)

/-- `valid_alignment`: a nonzero power of two. -/
def validAlignment (alignment : Word) : Bool :=
  alignment ≠ 0 && alignment &&& (alignment - 1) == 0

/-- `put16`. -/
def put16 (output : Bytes) (offset : ℕ) (value : HWord) : Bytes :=
  Buffer.overlay output offset [value.toUInt8, (value >>> 8).toUInt8]

/-- `put32`. -/
def put32 (output : Bytes) (offset : ℕ) (value : Word) : Bytes :=
  Buffer.overlay output offset
    ((List.range 4).map fun index => (value >>> UInt32.ofNat (8 * index)).toUInt8)

/-- The relocation check, in the same words in the encoder and in the decoder: the record names an
existing section other than BSS, an existing symbol and a known type, and its four bytes lie inside
the section. -/
def relocationValid (sections : List ZlImageSection) (symbolCount : ℕ)
    (relocation : ZlImageRelocation) : Bool :=
  match sections[relocation.sectionIndex.toNat]? with
  | none => false
  | some s =>
      decide (relocation.symbolIndex.toNat < symbolCount) &&
      (relocation.type == relocationAbsolute32 || relocation.type == relocationPcRelative32) &&
      s.type != sectionBss &&
      decide (relocation.offset.toNat ≤ s.dataSize) &&
      decide (4 ≤ s.dataSize - relocation.offset.toNat)

/-- The search for the entry point, in the same words in the encoder and in the decoder: some text
section contains it. -/
def entryFound (sections : List ZlImageSection) (entryPoint : Word) : Bool :=
  sections.any fun s =>
    s.type == sectionText && decide (s.address ≤ entryPoint) &&
      decide ((entryPoint - s.address).toNat < s.dataSize)

/-! ## Small facts -/

@[simp] theorem length_put16 (output : Bytes) (offset : ℕ) (value : HWord) :
    (put16 output offset value).length = output.length := by simp [put16]

@[simp] theorem length_put32 (output : Bytes) (offset : ℕ) (value : Word) :
    (put32 output offset value).length = output.length := by simp [put32]

theorem put32_eq (output : Bytes) (offset : ℕ) (value : Word) :
    put32 output offset value
      = Buffer.overlay output offset (LittleEndian.bytes 4 value.toNat) := by
  rw [put32, LittleEndian.map_shift_word value (by norm_num)]

theorem addSize_eq_some {left right result : ℕ} (hleft : left ≤ sizeMax) :
    addSize left right = some result ↔ left + right ≤ sizeMax ∧ result = left + right := by
  unfold addSize
  split <;> simp <;> omega

theorem addSize_eq_none {left right : ℕ} (hleft : left ≤ sizeMax) :
    addSize left right = none ↔ sizeMax < left + right := by
  unfold addSize
  split <;> simp <;> omega

/-- Counts below `2 ^ 32` times a record size never overflow a `size_t`. -/
theorem multiplySize_of_le {left right : ℕ} (hleft : left ≤ uint32Max) (hright : right ≤ 28) :
    multiplySize left right = some (left * right) := by
  have hmul : left * right ≤ uint32Max * 28 := Nat.mul_le_mul hleft hright
  have hbound : uint32Max * 28 ≤ sizeMax := by decide
  unfold multiplySize
  rw [if_neg]
  rintro ⟨hne, hgt⟩
  have hle : right ≤ sizeMax / left :=
    (Nat.le_div_iff_mul_le (Nat.pos_of_ne_zero hne)).mpr (by
      rw [Nat.mul_comm]
      omega)
  omega

@[simp] theorem inRange_iff {offset size inputSize : ℕ} :
    inRange offset size inputSize = true ↔ offset + size ≤ inputSize := by
  simp only [inRange, Bool.and_eq_true, decide_eq_true_eq]
  omega

end Zlvm
