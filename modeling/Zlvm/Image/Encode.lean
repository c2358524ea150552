import Zlvm.Image.Format
import Zlvm.Lib.Loop

/-!
# The encoder

`zl_image_encode`: the checks in the order of the source, then the writes into one zeroed buffer.

* `encodeLayout` — the sizes and offsets of the regions, with the overflow guards.
* `encodeChecks` — the checks on sections, symbols, relocations and entry point.
* `encodeWrites` — the writes; `EncodeState` is what the three loops carry.
-/

namespace Zlvm

open Loop

/-! ## Layout -/

/-- The variables that say where the regions lie. -/
structure ImageLayout where
  symbolOffset : ℕ
  relocationOffset : ℕ
  stringOffset : ℕ
  stringSize : ℕ
  payloadOffset : ℕ
deriving DecidableEq

/-- The error every size guard reports. -/
def orOverflow : Option ℕ → Except ZlImageError ℕ
  | some size => .ok size
  | none => .error .overflow

/-- The names the size loop runs through: first the sections', then the symbols'. -/
def ZlImage.names (image : ZlImage) : List (Option CString) :=
  image.sections.map (·.name) ++ image.symbols.map (·.name)

/-- The entry symbol that takes part in the encoding: that of an object. -/
def ZlImage.encodedEntry (image : ZlImage) : Option CString :=
  if image.kind = imageObject then image.entrySymbol else none

/-- `string_size` after one more name. -/
def addName (stringSize : ℕ) (name : Option CString) : Except ZlImageError ℕ :=
  orOverflow (addSize stringSize ((orEmpty name).length + 1))

/-- `string_size`: the leading NUL, every name and the entry symbol. -/
def encodeStringSize (image : ZlImage) : Except ZlImageError ℕ := do
  let stringSize ← image.names.foldlM addName 1
  match image.encodedEntry with
  | some entrySymbol => addName stringSize entrySymbol
  | none => return stringSize

def encodeLayout (image : ZlImage) : Except ZlImageError ImageLayout := do
  let stringSize ← encodeStringSize image
  let sectionBytes ← orOverflow (multiplySize image.sections.length imageSectionRecordSize)
  let symbolBytes ← orOverflow (multiplySize image.symbols.length imageSymbolRecordSize)
  let relocationBytes ← orOverflow
    (multiplySize image.relocations.length imageRelocationRecordSize)
  let symbolOffset ← orOverflow (addSize imageHeaderSize sectionBytes)
  let relocationOffset ← orOverflow (addSize symbolOffset symbolBytes)
  let stringOffset ← orOverflow (addSize relocationOffset relocationBytes)
  let payloadOffset ← orOverflow (addSize stringOffset stringSize)
  return { symbolOffset, relocationOffset, stringOffset, stringSize, payloadOffset }

/-! ## Checks -/

/-- The check on one section, and `payload_size` after it. -/
def checkSection (payloadSize : ℕ) (s : ZlImageSection) : Except ZlImageError ℕ := do
  require (s.dataSize ≤ uint32Max ∧
      ¬(s.type ≠ sectionBss ∧ s.dataSize ≠ 0 ∧ s.data.isNull) ∧
      validAlignment s.alignment ∧
      (sectionText ≤ s.type ∧ s.type ≤ sectionBss) ∧
      s.dataSize ≤ uint32Max - s.address.toNat) .malformed
  if s.type ≠ sectionBss then orOverflow (addSize payloadSize s.dataSize) else return payloadSize

/-- The check on one symbol. -/
def symbolValid (sectionCount : ℕ) (y : ZlImageSymbol) : Bool :=
  decide (y.sectionIndex = undefinedSection ∨ y.sectionIndex.toNat < sectionCount) &&
    decide (y.binding ≤ symbolWeak) && decide (y.type ≤ symbolFunction)

/-- The checks after the layout; the result is `total_size`. -/
def encodeChecks (image : ZlImage) (layout : ImageLayout) : Except ZlImageError ℕ := do
  let payloadSize ← image.sections.foldlM checkSection 0
  require (image.symbols.all (symbolValid image.sections.length)) .malformed
  require (image.relocations.all (relocationValid image.sections image.symbols.length)) .malformed
  let totalSize ← orOverflow (addSize layout.payloadOffset payloadSize)
  require (totalSize ≤ uint32Max) .overflow
  require (image.kind = imageObject → image.entryPoint = 0) .malformed
  require (image.kind = imageExecutable → image.entryPoint ≠ 0) .malformed
  require (image.kind = imageExecutable → entryFound image.sections image.entryPoint) .malformed
  return totalSize

/-! ## Writes -/

/-- What the writing loops carry. -/
structure EncodeState where
  result : Bytes
  stringCursor : ℕ
  payloadCursor : ℕ
deriving DecidableEq

section Writes

variable (layout : ImageLayout)

/-- `append_string`: the string's offset and the state after copying it into the string table. -/
def appendString (state : EncodeState) (name : Option CString) : Option (EncodeState × Word) :=
  let length := (orEmpty name).length + 1
  if length > layout.stringSize - state.stringCursor ∨ state.stringCursor > uint32Max then none
  else some
    ({ state with
        result := Buffer.overlay state.result (layout.stringOffset + state.stringCursor)
          (orEmpty name).terminated
        stringCursor := state.stringCursor + length },
      UInt32.ofNat state.stringCursor)

/-- `append_string` where the source ignores its answer.  A refusal would leave `name_offset`
uninitialised; the table has been sized for every name, so there is none. -/
def appendName (state : EncodeState) (name : Option CString) : EncodeState × Word :=
  (appendString layout state name).getD (state, 0)

/-- One pass of the loop over the sections. -/
def encodeSection (state : EncodeState) (entry : ZlImageSection × ℕ) : EncodeState :=
  let (s, index) := entry
  let record := imageHeaderSize + index * imageSectionRecordSize
  let (state, nameOffset) := appendName layout state s.name
  let result := put32 state.result record nameOffset
  let result := put32 result (record + 4) s.type
  let result := put32 result (record + 8) s.flags
  let result := put32 result (record + 12) s.alignment
  let result := put32 result (record + 16) s.address
  let result := put32 result (record + 20) (UInt32.ofNat state.payloadCursor)
  let result := put32 result (record + 24) (UInt32.ofNat s.dataSize)
  if s.type ≠ sectionBss ∧ s.dataSize ≠ 0 then
    { state with
      result := Buffer.overlay result state.payloadCursor s.data.toBytes
      payloadCursor := state.payloadCursor + s.dataSize }
  else { state with result }

/-- One pass of the loop over the symbols. -/
def encodeSymbol (state : EncodeState) (entry : ZlImageSymbol × ℕ) : EncodeState :=
  let (y, index) := entry
  let record := layout.symbolOffset + index * imageSymbolRecordSize
  let (state, nameOffset) := appendName layout state y.name
  let result := put32 state.result record nameOffset
  let result := put32 result (record + 4) y.sectionIndex
  let result := put32 result (record + 8) y.value
  let result := put32 result (record + 12) y.size
  let result := Buffer.overlay result (record + 16) [y.binding]
  let result := Buffer.overlay result (record + 17) [y.type]
  { state with result }

/-- The entry symbol of an object, whose offset goes into the entry field. -/
def encodeEntry (image : ZlImage) (state : EncodeState) : Except ZlImageError EncodeState :=
  match image.encodedEntry with
  | none => return state
  | some entrySymbol =>
      match appendString layout state entrySymbol with
      | none => throw .overflow
      | some (state, entryOffset) => return { state with result := put32 state.result 24 entryOffset }

/-- One pass of the loop over the relocations. -/
def encodeRelocation (result : Bytes) (entry : ZlImageRelocation × ℕ) : Bytes :=
  let (r, index) := entry
  let record := layout.relocationOffset + index * imageRelocationRecordSize
  let result := put32 result record r.sectionIndex
  let result := put32 result (record + 4) r.offset
  let result := put32 result (record + 8) r.type
  let result := put32 result (record + 12) r.symbolIndex
  put32 result (record + 16) r.addend.toUInt32

/-- The header. -/
def encodeHeader (image : ZlImage) (result : Bytes) : Bytes :=
  let result := Buffer.overlay result 0 imageMagic
  let result := put16 result 4 imageVersion
  let result := Buffer.overlay result 6 [image.kind]
  let result := put32 result 8 (UInt32.ofNat imageHeaderSize)
  let result := put32 result 12 (UInt32.ofNat image.sections.length)
  let result := put32 result 16 (UInt32.ofNat image.symbols.length)
  let result := put32 result 20 (UInt32.ofNat image.relocations.length)
  let result := put32 result 24 image.entryPoint
  let result := put32 result 28 (UInt32.ofNat imageHeaderSize)
  let result := put32 result 32 (UInt32.ofNat layout.symbolOffset)
  let result := put32 result 36 (UInt32.ofNat layout.relocationOffset)
  let result := put32 result 40 (UInt32.ofNat layout.stringOffset)
  let result := put32 result 44 (UInt32.ofNat layout.stringSize)
  put32 result 48 (UInt32.ofNat layout.payloadOffset)

/-- Everything after the allocation of the result. -/
def encodeWrites (image : ZlImage) (totalSize : ℕ) : Except ZlImageError Bytes := do
  let state : EncodeState :=
    { result := encodeHeader layout image (List.replicate totalSize 0)
      stringCursor := 1
      payloadCursor := layout.payloadOffset }
  let state := image.sections.zipIdx.foldl (encodeSection layout) state
  let state := image.symbols.zipIdx.foldl (encodeSymbol layout) state
  let state ← encodeEntry layout image state
  return image.relocations.zipIdx.foldl (encodeRelocation layout) state.result

end Writes

/-- `zl_image_encode`; `alloc` is whether the result can be allocated. -/
def zlImageEncode (alloc : Bool) (image : ZlImage) : Except ZlImageError Bytes := do
  require (image.kind = imageObject ∨ image.kind = imageExecutable) .invalidKind
  require (image.sections.length ≤ uint32Max ∧ image.symbols.length ≤ uint32Max ∧
      image.relocations.length ≤ uint32Max) .overflow
  require (image.kind = imageExecutable → image.relocations.length = 0) .malformed
  let layout ← encodeLayout image
  let totalSize ← encodeChecks image layout
  require (alloc = true) .outOfMemory
  encodeWrites layout image totalSize

end Zlvm
