import Zlvm.Image.Format
import Zlvm.Lib.Loop

/-!
# The decoder

`zl_image_decode`, with every access to the input checked: a read at an index outside the input is
the outcome `fault`, which no C program may reach.  A rejected input is the outcome `failed`, with
the error and with the image the call leaves behind in its out-parameter.

Allocations are answered by an `Allocator`, one answer for each call of `malloc` or `calloc`.
-/

namespace Zlvm

open Loop

/-- How a decoding stops early. -/
inductive DecodeStop
  /-- The input was read at an index outside it. -/
  | fault (index : ℕ)
  /-- `zl_image_decode` returned false, leaving `image` in its out-parameter. -/
  | failed (error : ZlImageError) (image : ZlImage)
deriving DecidableEq

/-- The allocations of one decoding. -/
inductive Allocation
  | sections
  | symbols
  | relocations
  | entrySymbol
  | sectionName (index : ℕ)
  | sectionData (index : ℕ)
  | symbolName (index : ℕ)
deriving DecidableEq

/-- Which allocations succeed. -/
abbrev Allocator := Allocation → Bool

/-- The allocator that never fails. -/
def allocAll : Allocator := fun _ => true

/-- `zl_image_free`: release everything and reset the image to zero. -/
def zlImageFree (_image : ZlImage) : ZlImage := {}

/-! ## Reading the input -/

section Reading

variable (input : Bytes)

/-- One byte of the input. -/
def readByte (index : ℕ) : Except DecodeStop Byte :=
  match input[index]? with
  | some b => .ok b
  | none => .error (.fault index)

/-- `size` bytes of the input, as `memcpy` and `memcmp` read them. -/
def readBytes (offset size : ℕ) : Except DecodeStop Bytes :=
  (List.range size).mapM fun index => readByte input (offset + index)

/-- `get16`. -/
def get16 (offset : ℕ) : Except DecodeStop HWord := do
  let low ← readByte input offset
  let high ← readByte input (offset + 1)
  return low.toUInt16 ||| high.toUInt16 <<< 8

/-- `get32`. -/
def get32 (offset : ℕ) : Except DecodeStop Word :=
  (List.range 4).foldlM (fun value index => do
    let b ← readByte input (offset + index)
    return value ||| b.toUInt32 <<< UInt32.ofNat (8 * index)) 0

/-- The characters before the first NUL among `size` bytes, if there is a NUL: `memchr` and the
copy of the string it delimits. -/
def scanString (offset : ℕ) : ℕ → Except DecodeStop (Option CString)
  | 0 => return none
  | size + 1 => do
      let b ← readByte input offset
      if h : b = 0 then return some CString.empty
      else
        let rest ← scanString (offset + 1) size
        return rest.map (CString.cons b h)

/-- `get_string`: the string at `offset` of the string table. -/
def getString (stringOffset stringSize : ℕ) (offset : Word) : Except DecodeStop (Option CString) :=
  if offset.toNat ≥ stringSize then return none
  else scanString input (stringOffset + offset.toNat) (stringSize - offset.toNat)

end Reading

/-! ## Header -/

/-- The header fields that describe the rest of the file. -/
structure ImageHeader where
  kind : Byte
  entryField : Word
  sectionCount : Word
  symbolCount : Word
  relocationCount : Word
  sectionOffset : Word
  symbolOffset : Word
  relocationOffset : Word
  stringOffset : Word
  stringSize : Word
  payloadOffset : Word
deriving DecidableEq

namespace ImageHeader

def sectionRecord (header : ImageHeader) (index : ℕ) : ℕ :=
  header.sectionOffset.toNat + index * imageSectionRecordSize

def symbolRecord (header : ImageHeader) (index : ℕ) : ℕ :=
  header.symbolOffset.toNat + index * imageSymbolRecordSize

def relocationRecord (header : ImageHeader) (index : ℕ) : ℕ :=
  header.relocationOffset.toNat + index * imageRelocationRecordSize

/-- The range checks on the five regions. -/
def inBounds (header : ImageHeader) (inputSize : ℕ) : Bool :=
  match multiplySize header.sectionCount.toNat imageSectionRecordSize,
    multiplySize header.symbolCount.toNat imageSymbolRecordSize,
    multiplySize header.relocationCount.toNat imageRelocationRecordSize with
  | some sectionBytes, some symbolBytes, some relocationBytes =>
      inRange header.sectionOffset.toNat sectionBytes inputSize &&
      inRange header.symbolOffset.toNat symbolBytes inputSize &&
      inRange header.relocationOffset.toNat relocationBytes inputSize &&
      inRange header.stringOffset.toNat header.stringSize.toNat inputSize &&
      decide (header.payloadOffset.toNat ≤ inputSize) &&
      decide (imageHeaderSize ≤ header.sectionOffset.toNat) &&
      decide (header.sectionOffset.toNat + sectionBytes ≤ header.symbolOffset.toNat) &&
      decide (header.symbolOffset.toNat + symbolBytes ≤ header.relocationOffset.toNat) &&
      decide (header.relocationOffset.toNat + relocationBytes ≤ header.stringOffset.toNat) &&
      decide (header.stringOffset ≤ header.payloadOffset) &&
      decide (header.stringSize.toNat ≤ header.payloadOffset.toNat - header.stringOffset.toNat)
  | _, _, _ => false

end ImageHeader

/-- The checks on magic, version, kind and header size, and the rest of the header. -/
def decodeHeader (input : Bytes) : Except DecodeStop ImageHeader := do
  require (imageHeaderSize ≤ input.length) (.failed .badMagic {})
  let magic ← readBytes input 0 4
  require (magic = imageMagic) (.failed .badMagic {})
  let version ← get16 input 4
  require (version = imageVersion) (.failed .unsupportedVersion {})
  let kind ← readByte input 6
  require (kind = imageObject ∨ kind = imageExecutable) (.failed .malformed {})
  let reserved ← readByte input 7
  require (reserved = 0) (.failed .malformed {})
  let headerSize ← get32 input 8
  require (headerSize.toNat = imageHeaderSize) (.failed .malformed {})
  let sectionCount ← get32 input 12
  let symbolCount ← get32 input 16
  let relocationCount ← get32 input 20
  let sectionOffset ← get32 input 28
  let symbolOffset ← get32 input 32
  let relocationOffset ← get32 input 36
  let stringOffset ← get32 input 40
  let stringSize ← get32 input 44
  let payloadOffset ← get32 input 48
  let header : ImageHeader :=
    { kind, entryField := 0, sectionCount, symbolCount, relocationCount, sectionOffset,
      symbolOffset, relocationOffset, stringOffset, stringSize, payloadOffset }
  require (header.inBounds input.length) (.failed .bounds {})
  require (stringSize ≠ 0) (.failed .malformed {})
  let first ← readByte input stringOffset.toNat
  require (first = 0) (.failed .malformed {})
  let entryField ← get32 input 24
  return { header with entryField }

/-! ## Records -/

section Records

variable (alloc : Allocator) (input : Bytes) (header : ImageHeader) (image : ZlImage)

/-- One pass of the loop over the section table.  `image` is what has been decoded so far; a
failure releases it. -/
def decodeSection (index : ℕ) : Except DecodeStop ZlImageSection := do
  let record := header.sectionRecord index
  let dataOffset ← get32 input (record + 20)
  let dataSize ← get32 input (record + 24)
  let type ← get32 input (record + 4)
  let address ← get32 input (record + 16)
  let nameOffset ← get32 input record
  let name ← getString input header.stringOffset.toNat header.stringSize.toNat nameOffset
  require (name ≠ none) (.failed .malformed (zlImageFree image))
  let alignment ← get32 input (record + 12)
  require (validAlignment alignment) (.failed .malformed (zlImageFree image))
  require (sectionText ≤ type ∧ type ≤ sectionBss) (.failed .malformed (zlImageFree image))
  require (type = sectionBss → dataOffset.toNat ≤ input.length)
    (.failed .malformed (zlImageFree image))
  require (type ≠ sectionBss → header.payloadOffset ≤ dataOffset ∧
      inRange dataOffset.toNat dataSize.toNat input.length)
    (.failed .malformed (zlImageFree image))
  require (dataSize.toNat ≤ uint32Max - address.toNat) (.failed .malformed (zlImageFree image))
  let flags ← get32 input (record + 8)
  require (alloc (.sectionName index)) (.failed .outOfMemory (zlImageFree image))
  require (dataSize ≠ 0 → alloc (.sectionData index)) (.failed .outOfMemory (zlImageFree image))
  if type = sectionBss then
    return { name, type, flags, alignment, address,
             data := .bytes (List.replicate dataSize.toNat 0) }
  else
    let data ← readBytes input dataOffset.toNat dataSize.toNat
    return { name, type, flags, alignment, address, data := .bytes data }

/-- One pass of the loop over the symbol table. -/
def decodeSymbol (index : ℕ) : Except DecodeStop ZlImageSymbol := do
  let record := header.symbolRecord index
  let sectionIndex ← get32 input (record + 4)
  let nameOffset ← get32 input record
  let name ← getString input header.stringOffset.toNat header.stringSize.toNat nameOffset
  require (name ≠ none) (.failed .malformed (zlImageFree image))
  require (sectionIndex = undefinedSection ∨ sectionIndex < header.sectionCount)
    (.failed .malformed (zlImageFree image))
  let value ← get32 input (record + 8)
  let size ← get32 input (record + 12)
  let binding ← readByte input (record + 16)
  let type ← readByte input (record + 17)
  require (alloc (.symbolName index)) (.failed .outOfMemory (zlImageFree image))
  require (binding ≤ symbolWeak ∧ type ≤ symbolFunction) (.failed .malformed (zlImageFree image))
  let reserved ← readByte input (record + 18)
  require (reserved = 0) (.failed .malformed (zlImageFree image))
  let reserved' ← readByte input (record + 19)
  require (reserved' = 0) (.failed .malformed (zlImageFree image))
  return { name, sectionIndex, value, size, binding, type }

/-- One pass of the loop over the relocation table. -/
def decodeRelocation (index : ℕ) : Except DecodeStop ZlImageRelocation := do
  let record := header.relocationRecord index
  let sectionIndex ← get32 input record
  let offset ← get32 input (record + 4)
  let type ← get32 input (record + 8)
  let symbolIndex ← get32 input (record + 12)
  let addend ← get32 input (record + 16)
  let relocation : ZlImageRelocation :=
    { sectionIndex, offset, type, symbolIndex, addend := addend.toInt32 }
  require (relocationValid image.sections header.symbolCount.toNat relocation)
    (.failed .malformed (zlImageFree image))
  return relocation

end Records

/-- The entry symbol an object records: the string at the offset in its entry field. -/
def decodeEntrySymbol (alloc : Allocator) (input : Bytes) (header : ImageHeader)
    (image : ZlImage) : Except DecodeStop (Option CString) :=
  if header.kind = imageObject ∧ header.entryField ≠ 0 then do
    let name ← getString input header.stringOffset.toNat header.stringSize.toNat header.entryField
    require (name ≠ none) (.failed .malformed (zlImageFree image))
    require (alloc .entrySymbol) (.failed .outOfMemory (zlImageFree image))
    return name
  else return none

/-- `zl_image_decode`. -/
def zlImageDecode (alloc : Allocator) (input : Bytes) : Except DecodeStop ZlImage := do
  let header ← decodeHeader input
  let image : ZlImage :=
    { kind := header.kind
      entryPoint := if header.kind = imageExecutable then header.entryField else 0 }
  -- this failure leaves the kind and the entry point behind: nothing is released
  require (header.kind = imageExecutable → image.entryPoint ≠ 0 ∧ header.relocationCount = 0)
    (.failed .malformed image)
  require ((header.sectionCount ≠ 0 → alloc .sections) ∧ (header.symbolCount ≠ 0 → alloc .symbols) ∧
      (header.relocationCount ≠ 0 → alloc .relocations))
    (.failed .outOfMemory (zlImageFree image))
  let entrySymbol ← decodeEntrySymbol alloc input header image
  let image := { image with entrySymbol }
  let sections ← (List.range header.sectionCount.toNat).mapM
    (decodeSection alloc input header image)
  let image := { image with sections }
  let symbols ← (List.range header.symbolCount.toNat).mapM
    (decodeSymbol alloc input header image)
  let image := { image with symbols }
  let relocations ← (List.range header.relocationCount.toNat).mapM
    (decodeRelocation input header image)
  let image := { image with relocations }
  require (header.kind = imageExecutable →
      image.entryPoint ≠ 0 ∧ entryFound image.sections image.entryPoint)
    (.failed .malformed (zlImageFree image))
  return image

end Zlvm
