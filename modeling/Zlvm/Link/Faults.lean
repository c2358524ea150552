import Mathlib.Order.Bounds.Basic
import Zlvm.Lib.Failure
import Zlvm.Link.Overlap

/-!
# What linker errors mean

What can be wrong with objects, in the terms of the objects and of the places of their sections and
not of the loops that find it.

* `NextAddress`, `LaidOut` — the places of the sections, one after the other.
* `LinkFault` — the faults of decoded objects; `Faulty` — those of object files.
* `foldlM_placeSection`, `foldlM_collectSymbol`, `foldlM_relocate` — what the three loops report.
* `zlImageEncode_executable` — what the encoder reports; `LinkedBy.no_fault` — what is linked.
* **`zlLinkObjects_diagnosed`** — the linker links the objects without a fault, and reports one of
  the faults of the others.
-/

namespace Zlvm

open Loop Nested

/-! ## Places -/

/-- The address of a section behind those that have been placed: its own or the next aligned one. -/
structure NextAddress (sections : List LinkSection) (input : ZlImageSection) (address : Word) :
    Prop where
  automatic : input.Automatic →
    IsLeast {m | input.alignment.toNat ∣ m ∧ startAt sections sections.length ≤ m} address.toNat
  fixed : ¬input.Automatic → address = input.address

/-- A section of an object at an address. -/
def linkedAt (visit : Visit ZlImage ZlImageSection) (address : Word) : LinkSection where
  image := { visit.inner with address }
  objectIndex := visit.outerIndex
  sourceIndex := visit.innerIndex

/-- Sections that have places, inside the ROM and apart from each other. -/
inductive LaidOut : List (Visit ZlImage ZlImageSection) → List LinkSection → Prop
  | nil : LaidOut [] []
  | concat {done : List (Visit ZlImage ZlImageSection)} {sections : List LinkSection}
      {visit : Visit ZlImage ZlImageSection} {address : Word} (before : LaidOut done sections)
      (next : NextAddress sections visit.inner address)
      (fits : address.toNat + visit.inner.dataSize ≤ romSize)
      (apart : ∀ s ∈ sections, Apart s (linkedAt visit address)) :
      LaidOut (done ++ [visit]) (sections ++ [linkedAt visit address])

/-- A section that has no place behind those before it. -/
inductive PlacementFault (inputs : List (Visit ZlImage ZlImageSection)) : ZlLinkError → Prop
  | overlap {done rest : List (Visit ZlImage ZlImageSection)} {sections : List LinkSection}
      {visit : Visit ZlImage ZlImageSection} {address : Word} {s : LinkSection}
      (split : inputs = done ++ visit :: rest) (before : LaidOut done sections)
      (next : NextAddress sections visit.inner address) (listed : s ∈ sections)
      (meets : ¬Apart s (linkedAt visit address)) : PlacementFault inputs .overlap
  | outside {done rest : List (Visit ZlImage ZlImageSection)} {sections : List LinkSection}
      {visit : Visit ZlImage ZlImageSection} {address : Word}
      (split : inputs = done ++ visit :: rest) (before : LaidOut done sections)
      (next : NextAddress sections visit.inner address)
      (apart : ∀ s ∈ sections, Apart s (linkedAt visit address))
      (outside : romSize < address.toNat + visit.inner.dataSize) : PlacementFault inputs .overflow

/-! ## Faults -/

/-- The number that a relocation takes for its symbol: the address of its own definition, or what
the symbol table holds for the global one, the address without what exceeds 32 bits. -/
inductive DenotesNumber (images : List ZlImage) (placed : List ZlImageSection) (object : ℕ)
    (reference : ZlImageSymbol) : ℕ → Prop
  | own {address : ℕ} (defined : reference.sectionIndex ≠ undefinedSection)
      (address_eq : symbolAddress images placed object reference = some address) :
      DenotesNumber images placed object reference address
  | other {object' index' address : ℕ} {symbol : ZlImageSymbol}
      (undefined : reference.sectionIndex = undefinedSection)
      (definition : GlobalDefinition images reference.name object' index' symbol)
      (address_eq : symbolAddress images placed object' symbol = some address) :
      DenotesNumber images placed object reference (address % 2 ^ 32)

/-- The field of a relocation holds what belongs there. -/
def ZlImageRelocation.InRange (r : ZlImageRelocation) (value place : ℕ) : Prop :=
  if r.type = relocationPcRelative32 then
    -0x80000000 ≤ (value : ℤ) + r.addend.toInt - place ∧
      (value : ℤ) + r.addend.toInt - place ≤ 0x7FFFFFFF
  else 0 ≤ (value : ℤ) + r.addend.toInt ∧ (value : ℤ) + r.addend.toInt ≤ uint32Max

/-- The range check of the linker, on a value that depends on the type itself. -/
theorem ZlImageRelocation.inRange_iff {r : ZlImageRelocation} {value place : ℕ} :
    r.InRange value place ↔
      if r.type = relocationPcRelative32 then
        -0x80000000 ≤ (if r.type = relocationPcRelative32
            then (value : ℤ) + r.addend.toInt - place else (value : ℤ) + r.addend.toInt) ∧
          (if r.type = relocationPcRelative32
            then (value : ℤ) + r.addend.toInt - place else (value : ℤ) + r.addend.toInt) ≤ 0x7FFFFFFF
      else
        0 ≤ (if r.type = relocationPcRelative32
            then (value : ℤ) + r.addend.toInt - place else (value : ℤ) + r.addend.toInt) ∧
          (if r.type = relocationPcRelative32
            then (value : ℤ) + r.addend.toInt - place else (value : ℤ) + r.addend.toInt)
              ≤ uint32Max := by
  unfold InRange
  by_cases hrelative : r.type = relocationPcRelative32
  · simp only [if_pos hrelative]
  · simp only [if_neg hrelative]

/-- A relocation of an object, and the symbol that it names. -/
structure RefersTo (images : List ZlImage) (object : ℕ) (r : ZlImageRelocation)
    (reference : ZlImageSymbol) : Prop where
  listed : ∃ image, images[object]? = some image ∧ r ∈ image.relocations ∧
    image.symbols[r.symbolIndex.toNat]? = some reference

/-- The bytes that a section takes in a file: its record, its name and its data. -/
def ZlImageSection.fileSize (s : ZlImageSection) : ℕ :=
  imageSectionRecordSize + ((orEmpty s.name).length + 1)
    + (if s.type = sectionBss then 0 else s.dataSize)

/-- The size of the executable. -/
def executableSize (images : List ZlImage) : ℕ :=
  imageHeaderSize + 1 + ((images.flatMap ZlImage.sections).map ZlImageSection.fileSize).sum

/-- What can be wrong with decoded objects, and how it is reported. -/
inductive LinkFault (images : List ZlImage) (name : CString) : ZlLinkError → Prop
  | placement {error : ZlLinkError}
      (fault : PlacementFault (visits ZlImage.sections images) error) : LinkFault images name error
  | duplicateSymbol {shared : Option CString} {object index object' index' : ℕ}
      {y y' : ZlImageSymbol} (definition : GlobalDefinition images shared object index y)
      (definition' : GlobalDefinition images shared object' index' y')
      (different : ¬(object' = object ∧ index' = index)) : LinkFault images name .duplicateSymbol
  | unresolvedSymbol {object : ℕ} {r : ZlImageRelocation} {reference : ZlImageSymbol}
      (refers : RefersTo images object r reference)
      (undefined : reference.sectionIndex = undefinedSection)
      (missing : ∀ object' index y, ¬GlobalDefinition images reference.name object' index y) :
      LinkFault images name .unresolvedSymbol
  | range {sections : List LinkSection} {object value : ℕ} {r : ZlImageRelocation}
      {reference : ZlImageSymbol} {s : ZlImageSection}
      (laid : LaidOut (visits ZlImage.sections images) sections)
      (refers : RefersTo images object r reference)
      (denotes : DenotesNumber images (sections.map (·.image)) object reference value)
      (place : linkedSection images (sections.map (·.image)) object r.sectionIndex.toNat = some s)
      (range : ¬r.InRange value (s.address.toNat + r.offset.toNat)) :
      LinkFault images name .overflow
  | noEntry {sections : List LinkSection}
      (laid : LaidOut (visits ZlImage.sections images) sections)
      (zero : ∀ entry object index y,
        SelectsEntry images (sections.map (·.image)) name entry object index y → entry = 0) :
      LinkFault images name .noEntry
  | size (large : uint32Max < executableSize images) : LinkFault images name .overflow
  | entryOutside {sections : List LinkSection} {entry : Word} {object index : ℕ}
      {y : ZlImageSymbol} (laid : LaidOut (visits ZlImage.sections images) sections)
      (selects : SelectsEntry images (sections.map (·.image)) name entry object index y)
      (nonzero : entry ≠ 0)
      (outside : ∀ s ∈ sections, s.image.type = sectionText → ¬s.image.Covers entry.toNat) :
      LinkFault images name .incompatibleObject

/-! ## The layout loop -/

/-- **`align_address`** always finds an address for a section behind one in the ROM. -/
theorem exists_alignAddress {start : ℕ} {alignment : Word} {k : ℕ} (hstart : start ≤ romSize)
    (halignment : alignment.toNat = 2 ^ k) :
    ∃ address, alignAddress (UInt32.ofNat start).toUInt64 alignment = some address := by
  have hrom : romSize = 4096 := rfl
  have hvalue : (UInt32.ofNat start).toUInt64.toNat = start := by
    rw [UInt32.toNat_toUInt64, UInt32.toNat_ofNat', Nat.mod_eq_of_lt (by omega)]
  have hwide : alignment.toUInt64.toNat = alignment.toNat := UInt32.toNat_toUInt64 _
  have hlt := alignment.toNat_lt
  have hk : k ≤ 31 := by
    by_contra hk
    have hpow : 2 ^ 32 ≤ 2 ^ k := Nat.pow_le_pow_right (by decide) (by omega)
    omega
  have hsmall : alignment.toNat ≤ 2 ^ 31 := by
    rw [halignment]
    exact Nat.pow_le_pow_right (by decide) hk
  have hpos : 0 < alignment.toNat := by
    rw [halignment]
    exact Nat.two_pow_pos k
  have hround := Alignment.toNat_roundUp (v := (UInt32.ofNat start).toUInt64)
    (hwide.trans halignment) (by omega)
  have hbound : Alignment.roundUp alignment.toNat start ≤ 2 ^ 31 := by
    refine (Alignment.isLeast_roundUp hpos start).2 ⟨?_, by omega⟩
    rw [halignment]
    exact pow_dvd_pow 2 hk
  have hmax : (0xFFFFFFFFFFFFFFFF : UInt64).toNat = 2 ^ 64 - 1 := rfl
  have hmax32 : (0xFFFFFFFF : UInt64).toNat = 2 ^ 32 - 1 := rfl
  have hone : (1 : UInt64).toNat = 1 := rfl
  have hle : alignment.toUInt64 ≤ 0xFFFFFFFFFFFFFFFF := by
    rw [UInt64.le_iff_toNat_le, hwide, hmax]
    omega
  have hroom : ¬(UInt32.ofNat start).toUInt64 > 0xFFFFFFFFFFFFFFFF - alignment.toUInt64 + 1 := by
    rw [gt_iff_lt, UInt64.not_lt, UInt64.le_iff_toNat_le, UInt64.toNat_add,
      UInt64.toNat_sub_of_le _ _ hle, hwide, hmax, hone, Nat.mod_eq_of_lt (by omega)]
    omega
  unfold alignAddress
  rw [if_neg hroom]
  dsimp only
  refine ⟨_, if_neg ?_⟩
  rw [gt_iff_lt, UInt64.not_lt, UInt64.le_iff_toNat_le, hround, hvalue, hwide, hmax32]
  omega

section Next

variable {sections : List LinkSection} {input : ZlImageSection}

theorem NextAddress.unique {address address' : Word} (h : NextAddress sections input address)
    (h' : NextAddress sections input address') : address = address' := by
  by_cases hauto : input.Automatic
  · exact UInt32.toNat_inj.mp (IsLeast.unique (h.automatic hauto) (h'.automatic hauto))
  · rw [h.fixed hauto, h'.fixed hauto]

/-- **The linker chooses the next address.** -/
theorem exists_nextAddress (hwf : input.WellFormed)
    (hstart : startAt sections sections.length ≤ romSize) :
    ∃ address, chooseAddress (UInt32.ofNat (startAt sections sections.length)) input = .ok address ∧
      NextAddress sections input address := by
  by_cases hauto : input.Automatic
  · obtain ⟨k, hk⟩ := hwf.alignment
    obtain ⟨address, haddress⟩ := exists_alignAddress hstart hk
    have hleast := alignAddress_eq_some hk haddress
    have hrom : romSize = 4096 := rfl
    rw [UInt32.toNat_toUInt64, UInt32.toNat_ofNat', Nat.mod_eq_of_lt (by omega)] at hleast
    refine ⟨address, ?_, fun _ => hleast, fun hno => absurd hauto hno⟩
    rw [chooseAddress, if_pos hauto, haddress]
    rfl
  · refine ⟨input.address, ?_, fun hyes => absurd hyes hauto, fun _ => rfl⟩
    rw [chooseAddress, if_neg hauto]
    rfl

/-- The section at its address is apart from those before it, or it overlaps with one. -/
theorem overlaps_eq_false {visit : Visit ZlImage ZlImageSection} {address : Word} :
    overlaps sections address visit.inner.dataSize = false ↔
      ∀ s ∈ sections, Apart s (linkedAt visit address) := by
  constructor
  · intro h
    exact @apart_of_overlaps sections (linkedAt visit address) h
  · intro h
    refine List.any_eq_false.mpr fun s hs => ?_
    have hapart : s.image.address.toNat + s.image.dataSize ≤ address.toNat ∨
        address.toNat + visit.inner.dataSize ≤ s.image.address.toNat := h s hs
    simp only [Bool.and_eq_true, decide_eq_true_eq, not_and_or, Nat.not_lt]
    exact hapart

end Next

/-- Where the next section starts, once one has been placed. -/
theorem startAt_linkedAt (sections : List LinkSection) (visit : Visit ZlImage ZlImageSection)
    (address : Word) :
    startAt (sections ++ [linkedAt visit address]) (sections ++ [linkedAt visit address]).length
      = address.toNat + visit.inner.dataSize := by
  rw [List.length_append, List.length_singleton, startAt, addressAt, sizeAt,
    List.getElem?_concat_length]
  rfl

section LaidOut

variable {inputs : List (Visit ZlImage ZlImageSection)} {sections : List LinkSection}

theorem LaidOut.startAt_le (h : LaidOut inputs sections) :
    startAt sections sections.length ≤ romSize := by
  cases h with
  | nil =>
      show 8 ≤ 4096
      decide
  | concat before next fits apart =>
      rw [startAt_linkedAt]
      exact fits

theorem LaidOut.placed (h : LaidOut inputs sections) : List.Forall₂ Placed inputs sections := by
  induction h with
  | nil => exact .nil
  | concat before next fits apart ih =>
      exact List.rel_append ih (.cons ⟨rfl, rfl, rfl, next.fixed, fits⟩ .nil)

theorem LaidOut.apart (h : LaidOut inputs sections) : sections.Pairwise Apart := by
  induction h with
  | nil => exact .nil
  | concat before next fits apart ih =>
      refine List.pairwise_append.mpr ⟨ih, List.pairwise_singleton _ _, fun s hs t ht => ?_⟩
      rw [List.mem_singleton.mp ht]
      exact apart s hs

theorem LaidOut.layout {images : List ZlImage}
    (h : LaidOut (visits ZlImage.sections images) sections) : Layout images sections :=
  ⟨h.placed, h.apart⟩

/-- One pass of the layout loop, at the next address. -/
theorem placeSection_eq {visit : Visit ZlImage ZlImageSection} {address : Word} {cursor : Word}
    (haddress : chooseAddress cursor visit.inner = .ok address) :
    placeSection { sections, cursor } visit =
      if address.toNat + visit.inner.dataSize ≤ romSize ∧
          overlaps sections address visit.inner.dataSize = false
      then .ok { sections := sections ++ [linkedAt visit address]
                 cursor := UInt32.ofNat (address.toNat + visit.inner.dataSize) }
      else .error (if overlaps sections address visit.inner.dataSize then .overlap
        else .overflow) := by
  rw [placeSection, haddress, ok_bind, require]
  split
  · rfl
  · rfl

/-- **The layout loop finds the places** that there are. -/
theorem LaidOut.foldlM (h : LaidOut inputs sections)
    (hwf : ∀ visit ∈ inputs, visit.inner.WellFormed) :
    inputs.foldlM placeSection { sections := [], cursor := 8 }
      = .ok { sections, cursor := UInt32.ofNat (startAt sections sections.length) } := by
  induction h with
  | nil => rfl
  | @concat done sections visit address before next fits apart ih =>
      rw [List.forall_mem_append, List.forall_mem_singleton] at hwf
      obtain ⟨address', hchosen, hnext⟩ := exists_nextAddress hwf.2 before.startAt_le
      obtain rfl := next.unique hnext
      rw [List.foldlM_append, ih hwf.1, ok_bind, List.foldlM_cons, placeSection_eq hchosen,
        if_pos ⟨fits, overlaps_eq_false.mpr apart⟩, ok_bind, startAt_linkedAt]
      rfl

/-- **The layout loop** finds places for the sections, or reports the first section without one. -/
theorem foldlM_placeSection (hwf : ∀ visit ∈ inputs, visit.inner.WellFormed) :
    Ensures (inputs.foldlM placeSection { sections := [], cursor := 8 })
      (fun state => LaidOut inputs state.sections ∧
        state.cursor = UInt32.ofNat (startAt state.sections state.sections.length))
      (PlacementFault inputs) := by
  refine Ensures.foldlM (fun done (state : LayoutState) => LaidOut done state.sections ∧
    state.cursor = UInt32.ofNat (startAt state.sections state.sections.length)) ⟨.nil, rfl⟩ ?_
  rintro done visit rest ⟨sections, cursor⟩ rfl ⟨hbefore, hcursor⟩
  obtain rfl : cursor = UInt32.ofNat (startAt sections sections.length) := hcursor
  obtain ⟨address, hchosen, hnext⟩ := exists_nextAddress (hwf visit (by simp)) hbefore.startAt_le
  rw [placeSection_eq hchosen]
  split
  · rename_i hplace
    exact ⟨.concat hbefore hnext hplace.1 (overlaps_eq_false.mp hplace.2),
      congrArg UInt32.ofNat (startAt_linkedAt sections visit address).symm⟩
  · rename_i hplace
    split
    · rename_i hoverlaps
      have hmeets : ¬∀ s ∈ sections, Apart s (linkedAt visit address) := by
        rw [← overlaps_eq_false, hoverlaps]
        exact Bool.noConfusion
      push Not at hmeets
      obtain ⟨s, hs, hmeets⟩ := hmeets
      exact .overlap rfl hbefore hnext hs hmeets
    · rename_i hoverlaps
      rw [Bool.not_eq_true] at hoverlaps
      exact .outside rfl hbefore hnext (overlaps_eq_false.mp hoverlaps)
        (Nat.lt_of_not_le fun hfits => hplace ⟨hfits, hoverlaps⟩)

/-- The layout loop stops at a section without a place. -/
theorem LaidOut.stuck {done rest : List (Visit ZlImage ZlImageSection)}
    {visit : Visit ZlImage ZlImageSection} {address : Word} {state : LayoutState}
    (h : LaidOut done sections) (hwf : ∀ v ∈ done ++ visit :: rest, v.inner.WellFormed)
    (hnext : NextAddress sections visit.inner address)
    (hplace : ¬(address.toNat + visit.inner.dataSize ≤ romSize ∧
      ∀ s ∈ sections, Apart s (linkedAt visit address))) :
    (done ++ visit :: rest).foldlM placeSection { sections := [], cursor := 8 } ≠ .ok state := by
  rw [List.forall_mem_append, List.forall_mem_cons] at hwf
  obtain ⟨address', hchosen, hnext'⟩ := exists_nextAddress hwf.2.1 h.startAt_le
  obtain rfl := hnext.unique hnext'
  rw [← overlaps_eq_false] at hplace
  rw [List.foldlM_append, h.foldlM hwf.1, ok_bind, List.foldlM_cons, placeSection_eq hchosen,
    if_neg hplace, error_bind]
  intro h
  cases h

/-- Sections that have places have no placement fault. -/
theorem LaidOut.no_fault (h : LaidOut inputs sections)
    (hwf : ∀ visit ∈ inputs, visit.inner.WellFormed) (error : ZlLinkError) :
    ¬PlacementFault inputs error := by
  rintro (⟨rfl, hbefore, hnext, hs, hmeets⟩ | ⟨rfl, hbefore, hnext, hapart, houtside⟩)
  · exact hbefore.stuck hwf hnext (fun hplace => hmeets (hplace.2 _ hs)) (h.foldlM hwf)
  · exact hbefore.stuck hwf hnext (fun hplace => Nat.not_le_of_lt houtside hplace.1) (h.foldlM hwf)

end LaidOut

/-! ## The symbol loop -/

section Symbols

variable {images : List ZlImage} {sections : List LinkSection} {symbols : List ZlImageSymbol}
  {name : CString}

/-- The section of a symbol is always found. -/
theorem exists_translateSymbol (hlayout : Layout images sections) {object : ℕ} {image : ZlImage}
    {y : ZlImageSymbol} (himage : images[object]? = some image)
    (hwf : y.WellFormed image.sections.length) :
    ∃ symbol, translateSymbol sections y object = .ok symbol := by
  unfold translateSymbol
  split
  · rename_i hdefined
    have hlt := hwf.sectionIndex.resolve_left hdefined
    rw [hlayout.findSection_eq himage (List.getElem?_eq_getElem hlt)]
    exact ⟨_, rfl⟩
  · exact ⟨y, rfl⟩

/-- A symbol whose translation defines a global name does so itself. -/
theorem globalDefinition_of_translateSymbol (hlayout : Layout images sections)
    (hcount : sections.length ≤ uint32Max) {p : ℕ} {visit : Visit ZlImage ZlImageSymbol}
    {symbol : ZlImageSymbol} (hvisit : (visits ZlImage.symbols images)[p]? = some visit)
    (h : translateSymbol sections visit.inner visit.outerIndex = .ok symbol)
    (hdefines : definesGlobal symbol = true) :
    GlobalDefinition images symbol.name visit.outerIndex visit.innerIndex visit.inner := by
  simp only [definesGlobal, Bool.and_eq_true, beq_iff_eq, bne_iff_ne] at hdefines
  obtain ⟨himage, hindex, -⟩ := getElem?_visits.mp hvisit
  by_cases hdefined : visit.inner.sectionIndex = undefinedSection
  · obtain rfl := translateSymbol_undefined hdefined h
    exact absurd hdefined hdefines.2
  · obtain ⟨hname, hbinding, -, -⟩ := translateSymbol_defined hlayout hcount hdefined h
    exact ⟨⟨visit.outer, himage, hindex⟩, hbinding.symm.trans hdefines.1, hdefined, hname.symm⟩

/-- **The symbol loop** reports names that are defined twice, and nothing else. -/
theorem foldlM_collectSymbol (hlayout : Layout images sections)
    (hcount : sections.length ≤ uint32Max) (hwf : ∀ image ∈ images, image.WellFormed) :
    FailsWith (LinkFault images name)
      ((visits ZlImage.symbols images).foldlM (collectSymbol sections) []) := by
  refine (Ensures.foldlM (fun done symbols => List.Forall₂ (fun visit symbol =>
    translateSymbol sections visit.inner visit.outerIndex = .ok symbol) done symbols) .nil
    ?_).failsWith
  intro done visit rest symbols hsplit htranslated
  have hvisit : (visits ZlImage.symbols images)[done.length]? = some visit := by simp [hsplit]
  obtain ⟨himage, hindex, hposition⟩ := getElem?_visits.mp hvisit
  obtain ⟨symbol, hsymbol⟩ := exists_translateSymbol hlayout himage
    ((hwf _ (List.mem_of_getElem? himage)).symbols _ (List.mem_of_getElem? hindex))
  rw [collectSymbol, hsymbol, ok_bind, require]
  split
  · exact List.rel_append htranslated (.cons hsymbol .nil)
  · rename_i hknown
    rw [not_not, List.any_eq_true] at hknown
    obtain ⟨hdefines, existing, hexisting, hsame⟩ := hknown
    rw [Bool.and_eq_true, beq_iff_eq] at hsame
    -- the earlier definition, at its place among the symbols
    obtain ⟨q, hq⟩ := List.mem_iff_getElem?.mp hexisting
    obtain ⟨hlt, hget⟩ := List.getElem?_eq_some_iff.mp hq
    have hlt' : q < done.length := by
      rw [htranslated.length_eq]
      exact hlt
    have htranslate := htranslated.get hlt' hlt
    rw [List.get_eq_getElem, List.get_eq_getElem, hget] at htranslate
    have hvisit' : (visits ZlImage.symbols images)[q]? = some done[q] := by
      rw [hsplit, List.getElem?_append_left hlt', List.getElem?_eq_getElem hlt']
    have hearlier := globalDefinition_of_translateSymbol hlayout hcount hvisit' htranslate hsame.1
    rw [hsame.2] at hearlier
    have hlater := globalDefinition_of_translateSymbol hlayout hcount hvisit hsymbol hdefines
    refine .duplicateSymbol hearlier hlater ?_
    rintro ⟨hobject, hindex'⟩
    have hposition' := (getElem?_visits.mp hvisit').2.2
    rw [← hobject, ← hindex'] at hposition'
    omega

end Symbols

/-! ## The relocation loop -/

section Relocations

variable {images : List ZlImage} {sections : List LinkSection} {symbols : List ZlImageSymbol}
  {name : CString}

/-- Where names have one definition, a symbol denotes one number. -/
theorem DenotesNumber.unique {placed : List ZlImageSection} {object value value' : ℕ}
    {reference : ZlImageSymbol} (h : DenotesNumber images placed object reference value)
    (h' : DenotesNumber images placed object reference value')
    (hunique : ∀ {name object index object' index' y y'},
      GlobalDefinition images name object index y →
        GlobalDefinition images name object' index' y' → object' = object ∧ index' = index) :
    value = value' := by
  cases h with
  | own defined address_eq =>
      cases h' with
      | own _ address_eq' => exact Option.some.inj (address_eq.symm.trans address_eq')
      | other undefined => exact absurd undefined defined
  | other undefined definition address_eq =>
      cases h' with
      | own defined => exact absurd undefined defined
      | other _ definition' address_eq' =>
          obtain ⟨rfl, rfl⟩ := hunique definition definition'
          obtain ⟨image, himage, hindex⟩ := definition.listed
          obtain ⟨image', himage', hindex'⟩ := definition'.listed
          obtain rfl := Option.some.inj (himage.symm.trans himage')
          obtain rfl := Option.some.inj (hindex.symm.trans hindex')
          rw [Option.some.inj (address_eq.symm.trans address_eq')]

/-- **The value of a symbol** is what it denotes, unless no object defines it. -/
theorem referenceValue_ensures (hlayout : Layout images sections)
    (htable : SymbolTable images sections symbols) (hcount : sections.length ≤ uint32Max)
    {object : ℕ} {image : ZlImage} {reference : ZlImageSymbol}
    (himage : images[object]? = some image) (hwf : reference.WellFormed image.sections.length) :
    Ensures (referenceValue sections symbols reference object)
      (DenotesNumber images (sections.map (·.image)) object reference)
      (fun error => error = .unresolvedSymbol ∧ reference.sectionIndex = undefinedSection ∧
        ∀ object' index y, ¬GlobalDefinition images reference.name object' index y) := by
  unfold referenceValue
  split
  · rename_i hdefined
    have hlt := hwf.sectionIndex.resolve_left hdefined
    obtain ⟨s, hs, -⟩ := hlayout.at_position himage (List.getElem?_eq_getElem hlt)
    rw [hlayout.findSection_eq himage (List.getElem?_eq_getElem hlt), orElse, ok_bind,
      addressAt_eq hs]
    refine .own hdefined ?_
    rw [symbolAddress, if_neg hdefined, linkedSection, List.getElem?_map, hs]
    rfl
  · rename_i hundefined
    rw [not_not] at hundefined
    cases hfind : symbols.find? fun symbol =>
        symbol.name == reference.name && definesGlobal symbol with
    | none =>
        refine ⟨rfl, hundefined, fun object' index y hdefinition => ?_⟩
        obtain ⟨symbol, hsymbol, hdefines, hname⟩ := htable.entry hlayout hcount hdefinition
        have hno := List.find?_eq_none.mp hfind symbol (List.mem_of_getElem? hsymbol)
        simp [hdefines, hname] at hno
    | some symbol =>
        have hmatch := List.find?_some hfind
        simp only [Bool.and_eq_true, beq_iff_eq] at hmatch
        obtain ⟨p, hp⟩ := List.mem_iff_getElem?.mp (List.mem_of_find?_eq_some hfind)
        obtain ⟨object', index, y, address, hdefinition, -, haddress, hvalue⟩ :=
          htable.definition hlayout hcount hp hmatch.2
        rw [hmatch.1] at hdefinition
        rw [orElse, ok_bind, hvalue]
        have hnumber : (UInt32.ofNat address).toNat = address % 2 ^ 32 := UInt32.toNat_ofNat'
        exact hnumber ▸ .other hundefined hdefinition haddress

/-- **A relocation** reports a symbol that no object defines or a value that is out of range; the
field itself lies in its section. -/
theorem relocation_failsWith (hlaid : LaidOut (visits ZlImage.sections images) sections)
    (htable : SymbolTable images sections symbols) (hcount : sections.length ≤ uint32Max)
    (hwf : ∀ image ∈ images, image.WellFormed) {visit : Visit ZlImage ZlImageRelocation}
    (hvisit : visit ∈ visits ZlImage.relocations images) :
    FailsWith (LinkFault images name) (relocation symbols sections visit) := by
  obtain ⟨himage, hindex⟩ := mem_visits.mp hvisit
  have hr := List.mem_of_getElem? hindex
  have himagewf := hwf _ (List.mem_of_getElem? himage)
  obtain ⟨input, hinput, -, hsymbol, -, hroom⟩ := himagewf.relocations _ hr
  obtain ⟨s, hs, hplaced⟩ := hlaid.layout.at_position himage hinput
  have hreference := List.getElem?_eq_getElem hsymbol
  have hrefers : RefersTo images visit.outerIndex visit.inner
      visit.outer.symbols[visit.inner.symbolIndex.toNat] := ⟨⟨_, himage, hr, hreference⟩⟩
  have hvalue := referenceValue_ensures hlaid.layout htable hcount himage
    (himagewf.symbols _ (List.getElem_mem hsymbol))
  have hsize : sizeAt sections
      (position ZlImage.sections images visit.outerIndex visit.inner.sectionIndex.toNat)
        = input.dataSize := by
    rw [sizeAt, hs]
    exact hplaced.dataSize
  have hplace : linkedSection images (sections.map (·.image)) visit.outerIndex
      visit.inner.sectionIndex.toNat = some s.image := by
    rw [linkedSection, List.getElem?_map, hs]
    rfl
  rw [relocation, hlaid.layout.findSection_eq himage hinput, orElse, ok_bind, hreference, orElse,
    ok_bind, hsize, addressAt_eq hs]
  rw [failsWith_bind]
  refine ⟨fun error herror => ?_, fun value hok => ?_⟩
  · obtain ⟨rfl, hundefined, hmissing⟩ := hvalue.of_eq_error herror
    exact .unresolvedSymbol hrefers hundefined hmissing
  · dsimp only
    rw [failsWith_bind, failsWith_require]
    refine ⟨fun hrange => .range hlaid hrefers (hvalue.of_eq_ok hok) hplace ?_, fun _ _ => ?_⟩
    · intro hin
      exact hrange (ZlImageRelocation.inRange_iff.mp hin)
    · rw [failsWith_bind, failsWith_require]
      exact ⟨fun hno => absurd ⟨by omega, by omega⟩ hno, fun _ _ => failsWith_ok _⟩

/-- **The relocation loop** fails with the fault of one of the relocations. -/
theorem foldlM_relocate (hlaid : LaidOut (visits ZlImage.sections images) sections)
    (htable : SymbolTable images sections symbols) (hcount : sections.length ≤ uint32Max)
    (hwf : ∀ image ∈ images, image.WellFormed) :
    FailsWith (LinkFault images name)
      ((visits ZlImage.relocations images).foldlM (relocate symbols) sections) := by
  refine (Ensures.foldlM (fun done state =>
    done.foldlM (relocate symbols) sections = .ok state) rfl ?_).failsWith
  intro done visit rest state hsplit hstate
  have houtline := outline_foldlM (hlaid.layout.stored hwf) hstate
  have hfails : FailsWith (LinkFault images name) (relocation symbols sections visit) :=
    relocation_failsWith hlaid htable hcount hwf (by simp [hsplit])
  rw [relocate, relocation_congr houtline]
  refine (hfails.ensures fun r hr => hr).bind fun r hr => ?_
  show (done ++ [visit]).foldlM (relocate symbols) sections = _
  rw [List.foldlM_append, hstate, ok_bind, List.foldlM_cons, relocate, relocation_congr houtline,
    hr]
  rfl

end Relocations

/-! ## The entry point -/

/-- **The entry point** is the value that the name selects. -/
theorem findEntry_of_selectsEntry {images : List ZlImage} {sections : List LinkSection}
    {symbols : List ZlImageSymbol} {name : CString} {entry : Word} {object index : ℕ}
    {y : ZlImageSymbol} (hlayout : Layout images sections)
    (htable : SymbolTable images sections symbols) (hcount : sections.length ≤ uint32Max)
    (h : SelectsEntry images (sections.map (·.image)) name entry object index y) :
    findEntry symbols name = entry := by
  obtain ⟨image, himage, hindex⟩ := h.listed
  have hvisit := getElem?_position himage hindex
  obtain ⟨hlt, hget⟩ := List.getElem?_eq_some_iff.mp hvisit
  have hlt' : position ZlImage.symbols images object index < symbols.length := by
    rw [← htable.translated.length_eq]
    exact hlt
  have htranslate := htable.translated.get hlt hlt'
  rw [List.get_eq_getElem, List.get_eq_getElem, hget] at htranslate
  obtain ⟨hname, -, hsection, address, haddress, hvalue⟩ :=
    translateSymbol_defined hlayout hcount h.defined htranslate
  obtain ⟨address', haddress', rfl⟩ := h.value
  obtain rfl := Option.some.inj (haddress.symm.trans haddress')
  have hfind : symbols.find? (fun symbol =>
      symbol.sectionIndex != undefinedSection && symbol.name == some name)
        = some (symbols[position ZlImage.symbols images object index]) := by
    rw [List.find?_eq_some_iff_getElem]
    refine ⟨?_, _, hlt', rfl, fun j hj => ?_⟩
    · rw [Bool.and_eq_true, bne_iff_ne, beq_iff_eq]
      exact ⟨hsection, hname.trans h.named⟩
    · -- an earlier match would be an earlier definition
      rw [Bool.not_eq_true']
      by_contra hmatch
      rw [Bool.not_eq_false, Bool.and_eq_true, bne_iff_ne, beq_iff_eq] at hmatch
      obtain ⟨object', image', index', y', -, himage', hindex', hposition, hy', hname', -, -⟩ :=
        htable.defined hlayout hcount (List.getElem?_eq_getElem (hj.trans hlt')) hmatch.1
      have hle := h.first object' image' index' y' himage' hindex' hy'
        (hname'.symm.trans hmatch.2)
      omega
  rw [findEntry, hfind]
  exact hvalue

/-! ## The executable -/

section Executable

variable {executable : ZlImage}

/-- The size of an executable, section by section. -/
theorem encodedSize_executable (hkind : executable.kind = imageExecutable)
    (hsymbols : executable.symbols = []) (hrelocations : executable.relocations = [])
    (hwf : ∀ s ∈ executable.sections, s.WellFormed) :
    executable.encodedSize
      = imageHeaderSize + 1 + (executable.sections.map ZlImageSection.fileSize).sum := by
  have hentry : executable.encodedEntry = none := by
    rw [ZlImage.encodedEntry, hkind]
    rfl
  have htable : ∀ sections : List ZlImageSection, (∀ s ∈ sections, s.WellFormed) →
      sections.length * imageSectionRecordSize
        + (stringTable (sections.map (·.name))).length + (payloadTable sections).length
          = (sections.map ZlImageSection.fileSize).sum := by
    intro sections hwf
    induction sections with
    | nil => rfl
    | cons s rest ih =>
        rw [List.forall_mem_cons] at hwf
        have hpayload : s.payload.length = if s.type = sectionBss then 0 else s.dataSize := by
          rw [ZlImageSection.payload]
          split
          · rfl
          · exact hwf.1.length_toBytes
        rw [List.map_cons, List.map_cons, List.sum_cons, ← ih hwf.2, ZlImageSection.fileSize,
          ← hpayload, List.length_cons, Nat.succ_mul]
        simp only [stringTable, payloadTable, List.flatMap_cons, List.length_append]
        simp
        omega
  rw [← htable _ hwf, ZlImage.encodedSize, ZlImage.layout, ZlImage.strings, ZlImage.names, hsymbols,
    hrelocations, hentry]
  simp
  omega

/-- The checks of the encoder, of an executable whose entry point is not in its text. -/
theorem encodeChecks_executable (hkind : executable.kind = imageExecutable)
    (hsymbols : executable.symbols = []) (hrelocations : executable.relocations = [])
    (hentry : executable.entryPoint ≠ 0) (hwf : ∀ s ∈ executable.sections, s.WellFormed)
    (hpayload : executable.layout.payloadOffset ≤ sizeMax)
    (hfound : ¬entryFound executable.sections executable.entryPoint = true) :
    encodeChecks executable executable.layout
      = .error (if executable.encodedSize ≤ uint32Max then .malformed else .overflow) := by
  have hmax : uint32Max ≤ sizeMax := by decide
  have hsum : executable.encodedSize
      = executable.layout.payloadOffset + (payloadTable executable.sections).length := rfl
  have hobject : executable.kind = imageObject → executable.entryPoint = 0 := by
    rw [hkind]
    exact fun h => absurd h (by decide)
  rw [encodeChecks, foldlM_checkSection _ _ (Nat.zero_le _) fun s hs => (hwf s hs).encodable,
    Nat.zero_add]
  by_cases hfits : (payloadTable executable.sections).length ≤ sizeMax
  · rw [if_pos hfits, ok_bind, hsymbols, hrelocations, require_of List.all_nil, ok_bind,
      require_of List.all_nil, ok_bind, orOverflow_addSize hpayload, ← hsum]
    by_cases hsize : executable.encodedSize ≤ uint32Max
    · rw [if_pos (hsize.trans hmax), ok_bind, require_of hsize, ok_bind, require_of hobject,
        ok_bind, require_of fun _ => hentry, ok_bind, require, if_neg fun h => hfound (h hkind),
        if_pos hsize]
      rfl
    · rw [if_neg hsize]
      split
      · rw [ok_bind, require, if_neg hsize, error_bind]
      · rfl
  · rw [if_neg hfits, error_bind, if_neg (by omega)]

/-- **The encoder on an executable** rejects one that is too large, or whose entry point is not in
its text. -/
theorem zlImageEncode_executable (hkind : executable.kind = imageExecutable)
    (hsymbols : executable.symbols = []) (hrelocations : executable.relocations = [])
    (hentry : executable.entryPoint ≠ 0) (hwf : ∀ s ∈ executable.sections, s.WellFormed) :
    zlImageEncode true executable =
      if executable.encodedSize ≤ uint32Max then
        if entryFound executable.sections executable.entryPoint then .ok (serialize executable)
        else .error .malformed
      else .error .overflow := by
  have hmax : uint32Max ≤ sizeMax := by decide
  have hsum : executable.encodedSize
      = executable.layout.payloadOffset + (payloadTable executable.sections).length := rfl
  have hlinked : executable.kind = imageExecutable → executable.relocations.length = 0 := by
    rw [hrelocations]
    exact fun _ => rfl
  by_cases hfound : entryFound executable.sections executable.entryPoint = true
  · have hobject : executable.kind = imageObject → executable.entryPoint = 0 := by
      rw [hkind]
      exact fun h => absurd h (by decide)
    have hencodable : executable.Encodable :=
      ⟨.inr hkind, hlinked, fun s hs => (hwf s hs).encodable, by rw [hsymbols]; rfl,
        by rw [hrelocations]; rfl, hobject, fun _ => hentry, fun _ => hfound⟩
    rw [zlImageEncode_eq hencodable, if_pos hfound]
  · rw [if_neg hfound, zlImageEncode, require_of (.inr hkind), ok_bind]
    by_cases hcounts : executable.sections.length ≤ uint32Max ∧
        executable.symbols.length ≤ uint32Max ∧ executable.relocations.length ≤ uint32Max
    · rw [require_of hcounts, ok_bind, require_of hlinked, ok_bind,
        encodeLayout_eq hcounts.1 hcounts.2.1 hcounts.2.2]
      by_cases hpayload : executable.layout.payloadOffset ≤ sizeMax
      · rw [if_pos hpayload, ok_bind,
          encodeChecks_executable hkind hsymbols hrelocations hentry hwf hpayload hfound, error_bind]
        split
        · rfl
        · rfl
      · rw [if_neg hpayload, error_bind, if_neg (by omega)]
    · rw [require, if_neg hcounts, error_bind,
        if_neg fun hsize => hcounts (ZlImage.counts_le hsize)]

end Executable

/-! ## The whole linking -/

/-- What can be wrong with object files. -/
inductive Faulty (objects : List Bytes) (entrySymbol : Option CString) : ZlLinkError → Prop
  | noObjects (empty : objects = []) : Faulty objects entrySymbol .invalidArgument
  | notAnObject {object : Bytes} (listed : object ∈ objects)
      (other : ∀ image, zlImageDecode allocAll object = .ok image → image.kind ≠ imageObject) :
      Faulty objects entrySymbol .incompatibleObject
  | fault {images : List ZlImage} {error : ZlLinkError} (decoded : DecodeTo objects images)
      (fault : LinkFault images (selectedEntry images entrySymbol) error) :
      Faulty objects entrySymbol error

section Whole

variable {objects : List Bytes} {images : List ZlImage} {entrySymbol : Option CString}

theorem wellFormed_visits (hwf : ∀ image ∈ images, image.WellFormed) :
    ∀ visit ∈ visits ZlImage.sections images, visit.inner.WellFormed := by
  intro visit hvisit
  obtain ⟨himage, hinner⟩ := mem_visits.mp hvisit
  exact (hwf _ (List.mem_of_getElem? himage)).sections _ (List.mem_of_getElem? hinner)

/-- **The loops of the linker** make an executable, or report a fault. -/
theorem linkImages_ensures (hwf : ∀ image ∈ images, image.WellFormed)
    (hcount : (visits ZlImage.sections images).length ≤ uint32Max) :
    Ensures (linkImages (fun _ => true) images entrySymbol)
      (fun executable => ∃ sections symbols final,
        LaidOut (visits ZlImage.sections images) sections ∧
          LinkedBy images entrySymbol sections symbols final executable)
      (LinkFault images (selectedEntry images entrySymbol)) := by
  unfold linkImages
  refine .require_bind (fun hno => absurd rfl hno) fun _ => ?_
  refine ((foldlM_placeSection (wellFormed_visits hwf)).and_eq.mono (fun _ h => h)
    fun error h => .placement h).bind ?_
  rintro state ⟨⟨hlaid, -⟩, hfold⟩
  have hcount' : state.sections.length ≤ uint32Max := by
    rw [← hlaid.placed.length_eq]
    exact hcount
  refine .require_bind (fun hno => absurd rfl hno) fun _ => ?_
  refine ((foldlM_collectSymbol hlaid.layout hcount' hwf).ensures fun symbols h =>
    symbolTable_of_foldlM h).bind fun symbols htable => ?_
  refine ((foldlM_relocate hlaid htable hcount' hwf).ensures fun final h => h).bind
    fun final hloop => ?_
  dsimp only
  refine .require_bind (fun hzero => ?_) fun hentry => ?_
  · rw [not_not] at hzero
    refine .noEntry hlaid fun entry object index y hselects => ?_
    rw [← findEntry_of_selectsEntry hlaid.layout htable hcount' hselects, hzero]
  · refine .require_bind (fun hno => absurd rfl hno) fun _ => ?_
    exact ⟨state.sections, symbols, final, hlaid,
      ⟨hlaid.layout, chosen_of_foldlM hfold, htable, hloop, hentry, rfl⟩⟩

/-- The sections of the executable take as many bytes as those of the objects. -/
theorem LinkedBy.fileSizes {sections final : List LinkSection} {symbols : List ZlImageSymbol}
    {executable : ZlImage} (h : LinkedBy images entrySymbol sections symbols final executable)
    (hwf : ∀ image ∈ images, image.WellFormed) :
    imageHeaderSize + 1 + (executable.sections.map ZlImageSection.fileSize).sum
      = executableSize images := by
  have houtline : ∀ s : LinkSection,
      (Zlvm.outline s).image.fileSize = s.image.fileSize := fun _ => rfl
  have hsizes := congrArg (List.map fun s => s.image.fileSize) (h.outline hwf)
  simp only [List.map_map, Function.comp_def, houtline] at hsizes
  have hplaced : ∀ {inputs : List (Visit ZlImage ZlImageSection)} {sections : List LinkSection},
      List.Forall₂ Placed inputs sections →
        (sections.map fun s => s.image.fileSize) = inputs.map fun v => v.inner.fileSize := by
    intro inputs sections hplaced
    induction hplaced with
    | nil => rfl
    | cons hfirst _ ih =>
        rw [List.map_cons, List.map_cons, ih, hfirst.image]
        rfl
  rw [executableSize, h.executable_eq, List.map_map, ← map_inner_visits, List.map_map]
  exact congrArg (imageHeaderSize + 1 + List.sum ·) (hsizes.trans (hplaced h.layout.placed))

/-- Places are determined. -/
theorem LaidOut.unique {sections sections' : List LinkSection}
    (h : LaidOut (visits ZlImage.sections images) sections)
    (h' : LaidOut (visits ZlImage.sections images) sections')
    (hwf : ∀ image ∈ images, image.WellFormed) : sections = sections' := by
  have hfold := h.foldlM (wellFormed_visits hwf)
  rw [h'.foldlM (wellFormed_visits hwf)] at hfold
  exact (congrArg LayoutState.sections (Except.ok.inj hfold)).symm

/-- A relocation that succeeds has a symbol and a value in range. -/
theorem relocation_inRange {sections : List LinkSection} {symbols : List ZlImageSymbol}
    (hlayout : Layout images sections) {visit : Visit ZlImage ZlImageRelocation} {word : ℕ × Word}
    (h : relocation symbols sections visit = .ok word) :
    ∃ reference value s, visit.outer.symbols[visit.inner.symbolIndex.toNat]? = some reference ∧
      referenceValue sections symbols reference visit.outerIndex = .ok value ∧
      linkedSection images (sections.map (·.image)) visit.outerIndex
        visit.inner.sectionIndex.toNat = some s ∧
      visit.inner.InRange value (s.address.toNat + visit.inner.offset.toNat) := by
  simp only [relocation, bind_eq_ok, orElse_eq_ok, require_eq_ok] at h
  obtain ⟨destination, hfind, reference, hreference, value, hvalue, -, hrange, -⟩ := h
  obtain ⟨image, input, himage, hinput, rfl⟩ := hlayout.of_findSection hfind
  obtain ⟨s, hs, -⟩ := hlayout.at_position himage hinput
  refine ⟨reference, value, s.image, hreference, hvalue, ?_, ?_⟩
  · rw [linkedSection, List.getElem?_map, hs]
    rfl
  · rw [addressAt_eq hs] at hrange
    exact ZlImageRelocation.inRange_iff.mpr hrange

section Linked

variable {sections final : List LinkSection} {symbols : List ZlImageSymbol} {executable : ZlImage}
  (h : LinkedBy images entrySymbol sections symbols final executable)
  (hwf : ∀ image ∈ images, image.WellFormed)

include h hwf

/-- Every relocation of the objects has succeeded. -/
theorem LinkedBy.relocation_ok {object : ℕ} {r : ZlImageRelocation} {reference : ZlImageSymbol}
    (hrefers : RefersTo images object r reference) :
    ∃ image value s, images[object]? = some image ∧ reference ∈ image.symbols ∧
      referenceValue sections symbols reference object = .ok value ∧
      linkedSection images (sections.map (·.image)) object r.sectionIndex.toNat = some s ∧
      r.InRange value (s.address.toNat + r.offset.toNat) := by
  obtain ⟨image, himage, hr, hreference⟩ := hrefers.listed
  obtain ⟨index, hindex⟩ := List.mem_iff_getElem?.mp hr
  obtain ⟨word, hword⟩ := (relocate_foldlM (h.layout.stored hwf) h.loop).1 ⟨image, object, r, index⟩
    (mem_visits.mpr ⟨himage, hindex⟩)
  obtain ⟨reference', value, s, hreference', hvalue, hs, hrange⟩ :=
    relocation_inRange h.layout hword
  obtain rfl := Option.some.inj (hreference.symm.trans hreference')
  exact ⟨image, value, s, himage, List.mem_of_getElem? hreference, hvalue, hs, hrange⟩

/-- The entry point is in the text of the executable exactly if it is in that of the places. -/
theorem LinkedBy.entryFound_iff {entry : Word} : entryFound executable.sections entry = true ↔
    ∃ s ∈ sections, s.image.type = sectionText ∧ s.image.Covers entry.toNat := by
  have hsections : executable.sections = final.map (·.image) := h.sections_eq
  have hshape : ∀ {l l' : List LinkSection}, l.map Zlvm.outline = l'.map Zlvm.outline →
      (∃ s ∈ l, s.image.type = sectionText ∧ s.image.Covers entry.toNat) →
        ∃ s ∈ l', s.image.type = sectionText ∧ s.image.Covers entry.toNat := by
    rintro l l' hl ⟨s, hs, htype, hcovers⟩
    have hmem : Zlvm.outline s ∈ l'.map Zlvm.outline := hl ▸ List.mem_map_of_mem hs
    obtain ⟨t, ht, hst⟩ := List.mem_map.mp hmem
    have htype' : t.image.type = s.image.type := congrArg (·.image.type) hst
    have haddress : t.image.address = s.image.address := congrArg (·.image.address) hst
    have hsize : t.image.dataSize = s.image.dataSize := congrArg (·.image.dataSize) hst
    refine ⟨t, ht, htype'.trans htype, ?_⟩
    unfold ZlImageSection.Covers at hcovers ⊢
    rw [haddress, hsize]
    exact hcovers
  rw [Zlvm.entryFound_iff, hsections]
  have hfinal : (∃ s ∈ final.map (·.image), s.type = sectionText ∧
      s.address.toNat ≤ entry.toNat ∧ entry.toNat < s.address.toNat + s.dataSize) ↔
        ∃ s ∈ final, s.image.type = sectionText ∧ s.image.Covers entry.toNat := by
    simp only [List.mem_map, exists_exists_and_eq_and]
    rfl
  rw [hfinal]
  exact ⟨hshape (h.outline hwf), hshape (h.outline hwf).symm⟩

/-- **The encoder on what the loops have made.** -/
theorem LinkedBy.zlImageEncode_eq : zlImageEncode true executable =
    if executableSize images ≤ uint32Max then
      if entryFound executable.sections executable.entryPoint then .ok (serialize executable)
      else .error .malformed
    else .error .overflow := by
  have hsections : ∀ s ∈ executable.sections, s.WellFormed :=
    fun s hs => (h.sections_wellFormed hwf s hs).1
  have hkind : executable.kind = imageExecutable := by rw [h.executable_eq]
  have hsymbols : executable.symbols = [] := by rw [h.executable_eq]
  have hrelocations : executable.relocations = [] := by rw [h.executable_eq]
  have hentry : executable.entryPoint ≠ 0 := by
    rw [h.executable_eq]
    exact h.entry
  rw [zlImageEncode_executable hkind hsymbols hrelocations hentry hsections,
    encodedSize_executable hkind hsymbols hrelocations hsections, h.fileSizes hwf]

/-- What the encoder reports is a fault. -/
theorem LinkedBy.encode_failsWith (hlaid : LaidOut (visits ZlImage.sections images) sections)
    (hcount : sections.length ≤ uint32Max) :
    FailsWith (LinkFault images (selectedEntry images entrySymbol))
      (orIncompatible (zlImageEncode true executable)) := by
  rw [h.zlImageEncode_eq hwf]
  split
  · split
    · exact failsWith_ok _
    · rename_i hfound
      rw [h.entryFound_iff hwf] at hfound
      obtain ⟨object, index, y, hselects⟩ :=
        selectsEntry_of_findEntry h.table h.layout hcount h.entry
      refine failsWith_error.mpr (.entryOutside hlaid hselects h.entry fun s hs htype hcovers => ?_)
      refine hfound ⟨s, hs, htype, ?_⟩
      rw [h.executable_eq]
      exact hcovers
  · rename_i hsize
    exact failsWith_error.mpr (.size (Nat.lt_of_not_le hsize))

/-- **Objects that are linked have no fault.** -/
theorem LinkedBy.no_fault (hlaid : LaidOut (visits ZlImage.sections images) sections)
    (hcount : sections.length ≤ uint32Max) (hsize : executableSize images ≤ uint32Max)
    (hfound : entryFound executable.sections executable.entryPoint = true) (error : ZlLinkError) :
    ¬LinkFault images (selectedEntry images entrySymbol) error := by
  have hdenotes : ∀ {object value : ℕ} {image : ZlImage} {reference : ZlImageSymbol},
      images[object]? = some image → reference ∈ image.symbols →
        referenceValue sections symbols reference object = .ok value →
          DenotesNumber images (sections.map (·.image)) object reference value :=
    fun himage hreference hvalue =>
      (referenceValue_ensures h.layout h.table hcount himage
        ((hwf _ (List.mem_of_getElem? himage)).symbols _ hreference)).of_eq_ok hvalue
  intro hfault
  cases hfault with
  | placement fault => exact hlaid.no_fault (wellFormed_visits hwf) error fault
  | duplicateSymbol definition definition' different =>
      exact different (definition.unique h.table h.layout hcount definition')
  | unresolvedSymbol refers undefined missing =>
      obtain ⟨image, value, s, himage, hreference, hvalue, -⟩ := h.relocation_ok hwf refers
      cases hdenotes himage hreference hvalue with
      | own defined => exact defined undefined
      | other _ definition => exact missing _ _ _ definition
  | range laid refers denotes place range =>
      obtain rfl := laid.unique hlaid hwf
      obtain ⟨image, value, s, himage, hreference, hvalue, hs, hrange⟩ := h.relocation_ok hwf refers
      obtain rfl := denotes.unique (hdenotes himage hreference hvalue) fun d d' =>
        d.unique h.table h.layout hcount d'
      obtain rfl := Option.some.inj (place.symm.trans hs)
      exact range hrange
  | noEntry laid zero =>
      obtain rfl := laid.unique hlaid hwf
      obtain ⟨object, index, y, hselects⟩ :=
        selectsEntry_of_findEntry h.table h.layout hcount h.entry
      exact h.entry (zero _ object index y hselects)
  | size large => exact Nat.not_le_of_lt large hsize
  | entryOutside laid selects nonzero outside =>
      obtain rfl := laid.unique hlaid hwf
      obtain ⟨s, hs, htype, hcovers⟩ := (h.entryFound_iff hwf).mp hfound
      refine outside s hs htype ?_
      rw [← findEntry_of_selectsEntry h.layout h.table hcount selects]
      rw [h.executable_eq] at hcovers
      exact hcovers

end Linked

/-- What the decoder refuses is not an object. -/
theorem decodeObject_faulty {object : Bytes} {index : ℕ} (hobject : object ∈ objects) :
    FailsWith (Faulty objects entrySymbol) (decodeObject (fun _ => true) (object, index)) := by
  unfold decodeObject
  split
  · rename_i stop hresult
    refine failsWith_error.mpr (.notAnObject hobject fun image himage => ?_)
    cases himage.symm.trans hresult
  · rename_i image hresult
    split
    · exact failsWith_ok _
    · rename_i hkind
      refine failsWith_error.mpr (.notAnObject hobject fun image' himage => ?_)
      obtain rfl := Except.ok.inj (hresult.symm.trans himage)
      exact hkind

/-- **What the linker reports is a fault**, if there are not too many sections to number them. -/
theorem zlLinkObjects_failsWith (hfew : ∀ images, DecodeTo objects images →
      (visits ZlImage.sections images).length ≤ uint32Max) :
    FailsWith (Faulty objects entrySymbol)
      (zlLinkObjects (fun _ => true) objects entrySymbol) := by
  unfold zlLinkObjects
  rw [failsWith_bind, failsWith_require]
  refine ⟨fun hempty => .noObjects (not_not.mp hempty), fun _ _ => ?_⟩
  rw [failsWith_bind, failsWith_require]
  refine ⟨fun hno => absurd rfl hno, fun _ _ => ?_⟩
  rw [failsWith_bind]
  constructor
  · exact FailsWith.mapM fun object hobject =>
      decodeObject_faulty (List.fst_mem_of_mem_zipIdx hobject)
  · intro images himages
    have hdecoded := decodeTo_of_mapM himages
    have hlinking := @linkImages_ensures images entrySymbol hdecoded.wellFormed
      (hfew images hdecoded)
    rw [failsWith_bind]
    refine ⟨fun error h => .fault hdecoded (hlinking.of_eq_error h), fun executable h => ?_⟩
    obtain ⟨sections, symbols, final, hlaid, hlinked⟩ := hlinking.of_eq_ok h
    have hcount : sections.length ≤ uint32Max := by
      rw [← hlaid.placed.length_eq]
      exact hfew images hdecoded
    exact fun error herror =>
      .fault hdecoded (hlinked.encode_failsWith hdecoded.wellFormed hlaid hcount error herror)

/-- **What the linker links has no fault.** -/
theorem not_faulty_of_zlLinkObjects {output : Bytes}
    (h : zlLinkObjects (fun _ => true) objects entrySymbol = .ok output) (error : ZlLinkError) :
    ¬Faulty objects entrySymbol error := by
  obtain ⟨images, executable, hdecoded, hlink, hencodable, hsize, -⟩ := zlLinkObjects_eq_ok h
  have hwf := hdecoded.wellFormed
  obtain ⟨_, _, _, hlinked'⟩ := linkImages_eq_ok hlink
  have hcount : (visits ZlImage.sections images).length ≤ uint32Max := by
    rw [hlinked'.layout.placed.length_eq, ← hlinked'.length hwf]
    exact (ZlImage.counts_le hsize).1
  obtain ⟨sections, symbols, final, hlaid, hlinked⟩ :=
    (linkImages_ensures hwf hcount).of_eq_ok hlink
  have hkind : executable.kind = imageExecutable := by rw [hlinked.executable_eq]
  intro hfaulty
  cases hfaulty with
  | noObjects empty =>
      subst empty
      simp [zlLinkObjects, require] at h
  | notAnObject listed other =>
      obtain ⟨index, hlt, rfl⟩ := List.getElem_of_mem listed
      have hget := hdecoded.get hlt (hdecoded.length_eq ▸ hlt)
      exact other _ hget.1 hget.2
  | fault decoded fault =>
      obtain rfl := decoded.unique hdecoded
      refine hlinked.no_fault hwf hlaid (hlaid.placed.length_eq ▸ hcount) ?_
        (hencodable.found hkind) error fault
      rw [← hlinked.fileSizes hwf, ← encodedSize_executable hkind (by rw [hlinked.executable_eq])
        (by rw [hlinked.executable_eq]) fun s hs => (hlinked.sections_wellFormed hwf s hs).1]
      exact hsize

/-- Too many sections make the executable too large. -/
theorem count_le_of_executableSize (h : executableSize images ≤ uint32Max) :
    (visits ZlImage.sections images).length ≤ uint32Max := by
  have hsum : ∀ sections : List ZlImageSection,
      sections.length ≤ (sections.map ZlImageSection.fileSize).sum := by
    intro sections
    induction sections with
    | nil => exact Nat.le_refl 0
    | cons s rest ih =>
        have hpos : 1 ≤ s.fileSize := by
          unfold ZlImageSection.fileSize
          omega
        rw [List.length_cons, List.map_cons, List.sum_cons]
        omega
  have hlength := congrArg List.length (map_inner_visits ZlImage.sections images)
  rw [List.length_map] at hlength
  have hall := hsum (images.flatMap ZlImage.sections)
  unfold executableSize at h
  omega

/-- **What the linker links and what it reports.**  It links object files exactly if they have no
fault, and what it reports of others is one of their faults. -/
theorem zlLinkObjects_diagnosed (objects : List Bytes) (entrySymbol : Option CString) :
    ((∃ output, zlLinkObjects (fun _ => true) objects entrySymbol = .ok output) ↔
      ∀ error, ¬Faulty objects entrySymbol error) ∧
    ((∀ images, DecodeTo objects images → (visits ZlImage.sections images).length ≤ uint32Max) →
      ∀ error, zlLinkObjects (fun _ => true) objects entrySymbol = .error error →
        Faulty objects entrySymbol error) := by
  refine ⟨⟨fun ⟨output, h⟩ => not_faulty_of_zlLinkObjects h, fun hnone => ?_⟩,
    fun hfew => zlLinkObjects_failsWith hfew⟩
  have hfew : ∀ images, DecodeTo objects images →
      (visits ZlImage.sections images).length ≤ uint32Max := by
    intro images hdecoded
    refine count_le_of_executableSize (Nat.le_of_not_lt fun hlarge => ?_)
    exact hnone .overflow (.fault hdecoded (.size hlarge))
  cases hresult : zlLinkObjects (fun _ => true) objects entrySymbol with
  | ok output => exact ⟨output, rfl⟩
  | error error => exact absurd (zlLinkObjects_failsWith hfew error hresult) (hnone error)

theorem zlLinkObjects_diagnosed_crossingObject :
    Faulty [serialize (crossingObject [1, 2, 3, 4] 4)] none .overlap := by
  have hdecoded : DecodeTo [serialize (crossingObject [1, 2, 3, 4] 4)]
      [(crossingObject [1, 2, 3, 4] 4).normalise] := .cons ⟨by decide +kernel, rfl⟩ .nil
  refine (zlLinkObjects_diagnosed _ _).2 (fun images himages => ?_) .overlap (by decide +kernel)
  obtain rfl := himages.unique hdecoded
  decide +kernel

end Whole

end Zlvm
