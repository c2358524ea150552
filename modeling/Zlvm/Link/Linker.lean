import Zlvm.Image.Decode
import Zlvm.Image.Encode
import Zlvm.Lib.Nested
import Zlvm.Vm.Machine

/-!
# The linker

`zl_link_objects`.  The nested loops over objects and their sections, symbols and relocations are
folds over the visits of `Nested.visits`, in the order of the loops.

* `placeSection` — one pass of the layout loop.
* `collectSymbol` — one pass of the symbol loop.
* `relocate` — one pass of the relocation loop.
* `linkImages` — everything between the decoding of the objects and the encoding of the result.

A decoded section has less than `2 ^ 32` bytes, so the 64-bit sums of the source are sums of
natural numbers; a decoded name is never a null pointer, so `strcmp` is equality.
-/

namespace Zlvm

open Loop Nested

inductive ZlLinkError
  | none
  | invalidArgument
  | outOfMemory
  | incompatibleObject
  | duplicateSymbol
  | unresolvedSymbol
  | overlap
  | overflow
  | noEntry
deriving DecidableEq

/-- The allocations of one linking. -/
inductive LinkAllocation
  | images
  | object (index : ℕ) (allocation : Allocation)
  | sections
  | symbols
  | outputSections
  | result
deriving DecidableEq

/-- Which allocations succeed. -/
abbrev LinkAllocator := LinkAllocation → Bool

structure LinkSection where
  image : ZlImageSection
  objectIndex : ℕ
  sourceIndex : ℕ
deriving DecidableEq

/-! ## Helpers -/

/-- The answer of a search, or an error where there is none. -/
def orElse {α : Type} (error : ZlLinkError) : Option α → Except ZlLinkError α
  | some a => .ok a
  | Option.none => .error error

@[simp] theorem orElse_eq_ok {α : Type} {error : ZlLinkError} {o : Option α} {a : α} :
    orElse error o = .ok a ↔ o = some a := by
  cases o <;> simp [orElse]

/-- `write32`. -/
def write32 (data : Bytes) (offset : ℕ) (value : Word) : Bytes :=
  Buffer.overlay data offset
    ((List.range 4).map fun index => (value >>> UInt32.ofNat (8 * index)).toUInt8)

/-- `align_address`. -/
def alignAddress (value : DWord) (alignment : Word) : Option Word :=
  if value > 0xFFFFFFFFFFFFFFFF - alignment.toUInt64 + 1 then none
  else
    let aligned := (value + alignment.toUInt64 - 1) &&& ~~~(alignment.toUInt64 - 1)
    if aligned > 0xFFFFFFFF then none else some aligned.toUInt32

/-- `overlaps`. -/
def overlaps (sections : List LinkSection) (address : Word) (size : ℕ) : Bool :=
  sections.any fun other =>
    decide (address.toNat < other.image.address.toNat + other.image.dataSize) &&
      decide (other.image.address.toNat < address.toNat + size)

/-- `find_section`. -/
def findSection (sections : List LinkSection) (objectIndex sourceIndex : ℕ) : Option ℕ :=
  sections.findIdx? fun s => s.objectIndex == objectIndex && s.sourceIndex == sourceIndex

/-- `sections[index].image.address`, for an index that `find_section` has returned. -/
def addressAt (sections : List LinkSection) (index : ℕ) : Word :=
  ((sections[index]?).map (·.image.address)).getD 0

/-- `sections[index].image.data_size`, for an index that `find_section` has returned. -/
def sizeAt (sections : List LinkSection) (index : ℕ) : ℕ :=
  ((sections[index]?).map (·.image.dataSize)).getD 0

/-! ## Layout -/

/-- What the layout loop carries. -/
structure LayoutState where
  sections : List LinkSection
  cursor : Word

/-- A section without an address of its own. -/
def ZlImageSection.Automatic (input : ZlImageSection) : Prop :=
  input.address = 0 ∧ input.flags &&& 1 = 0

instance (input : ZlImageSection) : Decidable input.Automatic :=
  inferInstanceAs (Decidable (_ ∧ _))

/-- The address of a section: its own, or the next aligned one after the cursor. -/
def chooseAddress (cursor : Word) (input : ZlImageSection) : Except ZlLinkError Word :=
  if input.Automatic then
    orElse .overflow (alignAddress cursor.toUInt64 input.alignment)
  else return input.address

/-- One pass of the layout loop. -/
def placeSection (state : LayoutState) (visit : Visit ZlImage ZlImageSection) :
    Except ZlLinkError LayoutState := do
  let input := visit.inner
  let address ← chooseAddress state.cursor input
  require (address.toNat + input.dataSize ≤ romSize ∧
      overlaps state.sections address input.dataSize = false)
    (if overlaps state.sections address input.dataSize then .overlap else .overflow)
  return {
    sections := state.sections ++
      [{ image := { input with address }
         objectIndex := visit.outerIndex
         sourceIndex := visit.innerIndex }]
    cursor := UInt32.ofNat (address.toNat + input.dataSize) }

/-! ## Symbols -/

/-- A symbol relative to the executable: its section's index there, and its absolute value. -/
def translateSymbol (sections : List LinkSection) (symbol : ZlImageSymbol) (object : ℕ) :
    Except ZlLinkError ZlImageSymbol :=
  if symbol.sectionIndex ≠ undefinedSection then do
    let index ← orElse .incompatibleObject
      (findSection sections object symbol.sectionIndex.toNat)
    return { symbol with
      value := symbol.value + addressAt sections index
      sectionIndex := UInt32.ofNat index }
  else return symbol

/-- A global symbol with a definition. -/
def definesGlobal (symbol : ZlImageSymbol) : Bool :=
  symbol.binding == symbolGlobal && symbol.sectionIndex != undefinedSection

/-- One pass of the symbol loop. -/
def collectSymbol (sections : List LinkSection) (symbols : List ZlImageSymbol)
    (visit : Visit ZlImage ZlImageSymbol) : Except ZlLinkError (List ZlImageSymbol) := do
  let symbol ← translateSymbol sections visit.inner visit.outerIndex
  require (¬(definesGlobal symbol ∧
      symbols.any fun existing => definesGlobal existing && existing.name == symbol.name))
    .duplicateSymbol
  return symbols ++ [symbol]

/-! ## Relocations -/

/-- The value of the symbol a relocation refers to. -/
def referenceValue (sections : List LinkSection) (symbols : List ZlImageSymbol)
    (reference : ZlImageSymbol) (object : ℕ) : Except ZlLinkError ℕ :=
  if reference.sectionIndex ≠ undefinedSection then do
    let target ← orElse .incompatibleObject
      (findSection sections object reference.sectionIndex.toNat)
    return (addressAt sections target).toNat + reference.value.toNat
  else do
    let symbol ← orElse .unresolvedSymbol
      (symbols.find? fun symbol => symbol.name == reference.name && definesGlobal symbol)
    return symbol.value.toNat

/-- The section a relocation patches and the value it writes there.  The decoder has checked that
the symbol exists. -/
def relocation (symbols : List ZlImageSymbol) (sections : List LinkSection)
    (visit : Visit ZlImage ZlImageRelocation) : Except ZlLinkError (ℕ × Word) := do
  let r := visit.inner
  let destination ← orElse .incompatibleObject
    (findSection sections visit.outerIndex r.sectionIndex.toNat)
  let reference ← orElse .incompatibleObject visit.outer.symbols[r.symbolIndex.toNat]?
  let symbolValue ← referenceValue sections symbols reference visit.outerIndex
  let place := (addressAt sections destination).toNat + r.offset.toNat
  let value : ℤ := symbolValue + r.addend.toInt
  let value : ℤ := if r.type = relocationPcRelative32 then value - place else value
  require (if r.type = relocationPcRelative32 then -0x80000000 ≤ value ∧ value ≤ 0x7FFFFFFF
    else 0 ≤ value ∧ value ≤ uint32Max) .overflow
  require (r.offset.toNat ≤ sizeAt sections destination ∧
      4 ≤ sizeAt sections destination - r.offset.toNat) .overflow
  return (destination, UInt32.ofInt value)

/-- Write a word into a section. -/
def patchSection (offset : ℕ) (value : Word) (s : LinkSection) : LinkSection :=
  { s with image := { s.image with data := .bytes (write32 s.image.data.toBytes offset value) } }

/-- One pass of the relocation loop. -/
def relocate (symbols : List ZlImageSymbol) (sections : List LinkSection)
    (visit : Visit ZlImage ZlImageRelocation) : Except ZlLinkError (List LinkSection) := do
  let (destination, value) ← relocation symbols sections visit
  return sections.modify destination (patchSection visit.inner.offset.toNat value)

/-! ## The whole linking -/

/-- The entry symbol: the one asked for, the first that an object records, or `start`. -/
def selectedEntry (images : List ZlImage) (entrySymbol : Option CString) : CString :=
  match entrySymbol with
  | some name => name
  | none => (images.findSome? (·.entrySymbol)).getD (CString.lit "start")

/-- The value of the first defined symbol of a name, or 0. -/
def findEntry (symbols : List ZlImageSymbol) (name : CString) : Word :=
  match symbols.find? fun symbol =>
    symbol.sectionIndex != undefinedSection && symbol.name == some name with
  | some symbol => symbol.value
  | none => 0

/-- The executable that decoded objects are linked to. -/
def linkImages (alloc : LinkAllocator) (images : List ZlImage) (entrySymbol : Option CString) :
    Except ZlLinkError ZlImage := do
  require (alloc .sections) .outOfMemory
  let layout ← (visits ZlImage.sections images).foldlM placeSection { sections := [], cursor := 8 }
  require (alloc .symbols) .outOfMemory
  let symbols ← (visits ZlImage.symbols images).foldlM (collectSymbol layout.sections) []
  let sections ← (visits ZlImage.relocations images).foldlM (relocate symbols) layout.sections
  let entry := findEntry symbols (selectedEntry images entrySymbol)
  require (entry ≠ 0) .noEntry
  require (alloc .outputSections) .outOfMemory
  return {
    kind := imageExecutable
    entryPoint := entry
    sections := sections.map (·.image) }

/-- One pass of the decoding loop: any failure, and any image that is not an object, is the same
error. -/
def decodeObject (alloc : LinkAllocator) (object : Bytes × ℕ) : Except ZlLinkError ZlImage :=
  match zlImageDecode (fun allocation => alloc (.object object.2 allocation)) object.1 with
  | .error _ => .error .incompatibleObject
  | .ok image => if image.kind = imageObject then .ok image else .error .incompatibleObject

/-- How an encoder's error is reported. -/
def orIncompatible : Except ZlImageError Bytes → Except ZlLinkError Bytes
  | .ok output => .ok output
  | .error .overflow => .error .overflow
  | .error _ => .error .incompatibleObject

/-- `zl_link_objects`. -/
def zlLinkObjects (alloc : LinkAllocator) (objects : List Bytes) (entrySymbol : Option CString) :
    Except ZlLinkError Bytes := do
  require (objects ≠ []) .invalidArgument
  require (alloc .images) .outOfMemory
  let images ← objects.zipIdx.mapM (decodeObject alloc)
  let executable ← linkImages alloc images entrySymbol
  orIncompatible (zlImageEncode (alloc .result) executable)

end Zlvm
