import Zlvm.Image.RoundTrip
import Zlvm.Link.Symbols

/-!
# What relocations do

The relocation loop writes each word to its place and nothing else.

* `Field`, `Relocated` — what the placed sections hold, in terms of the input objects.
* `outline` — the part of a section table that relocations read; they never change it.
* `patches`, `relocate_foldlM` — the loop overlays every section with the words meant for it;
  `relocate_progress` — it succeeds when every relocation does.
* **`relocated_of_foldlM`** — the loop establishes `Relocated`.
-/

namespace Zlvm

open Buffer Loop Nested

/-! ## The specification -/

/-- The four bytes of a relocation field: `S + A`, or `S + A - P`. -/
inductive Field (r : ZlImageRelocation) (address place : ℕ) (bytes : Bytes) : Prop
  | absolute32 (type : r.type = relocationAbsolute32)
      (low : 0 ≤ (address : ℤ) + r.addend.toInt)
      (high : (address : ℤ) + r.addend.toInt < 0x100000000)
      (bytes_eq : bytes = LittleEndian.bytes 4 ((address : ℤ) + r.addend.toInt).toNat)
  | pcRelative32 (type : r.type = relocationPcRelative32)
      (low : -0x80000000 ≤ (address : ℤ) + r.addend.toInt - place)
      (high : (address : ℤ) + r.addend.toInt - place < 0x80000000)
      (bytes_eq : bytes = LittleEndian.bytes 4
        (((address : ℤ) + r.addend.toInt - place) % 0x100000000).toNat)

/-- The fields of two relocations of an object share a byte. -/
def ZlImageRelocation.Meets (r r' : ZlImageRelocation) : Prop :=
  r.sectionIndex = r'.sectionIndex ∧ r.offset.toNat < r'.offset.toNat + 4 ∧
    r'.offset.toNat < r.offset.toNat + 4

/-- The field of a relocation covers a byte of its section. -/
def ZlImageRelocation.CoversByte (r : ZlImageRelocation) (source j : ℕ) : Prop :=
  r.sectionIndex.toNat = source ∧ r.offset.toNat ≤ j ∧ j < r.offset.toNat + 4

/-- The placed sections are the sections of the objects with every relocation applied. -/
structure Relocated (images : List ZlImage) (placed : List ZlImageSection) : Prop where
  /-- A field that no later relocation meets holds its value. -/
  applied : ∀ (object : ℕ) image (index : ℕ) r, images[object]? = some image →
    image.relocations[index]? = some r →
    (∀ (index' : ℕ) r', index < index' → image.relocations[index']? = some r' → ¬r.Meets r') →
    ∃ s reference address, linkedSection images placed object r.sectionIndex.toNat = some s ∧
      image.symbols[r.symbolIndex.toNat]? = some reference ∧
      Resolves images placed object reference address ∧
      Field r address (s.address.toNat + r.offset.toNat) (slice s.data.toBytes r.offset.toNat 4)
  /-- A byte that no field covers is that of the object. -/
  kept : ∀ object image source input, images[object]? = some image →
    image.sections[source]? = some input →
    ∃ s, linkedSection images placed object source = some s ∧
      s = { input with address := s.address, data := s.data } ∧ s.dataSize = input.dataSize ∧
      ∀ j, (∀ r ∈ image.relocations, ¬r.CoversByte source j) →
        s.data.toBytes[j]? = input.data.toBytes[j]?

/-! ## What relocations read -/

/-- A section without its bytes. -/
def outline (s : LinkSection) : LinkSection :=
  { s with image := { s.image with data := .null s.image.dataSize } }

section Outline

variable (sections : List LinkSection) (symbols : List ZlImageSymbol)

@[simp] theorem findSection_outline (object source : ℕ) :
    findSection (sections.map outline) object source = findSection sections object source := by
  rw [findSection, List.findIdx?_map]
  rfl

@[simp] theorem addressAt_outline (index : ℕ) :
    addressAt (sections.map outline) index = addressAt sections index := by
  rw [addressAt, List.getElem?_map, Option.map_map]
  rfl

@[simp] theorem sizeAt_outline (index : ℕ) :
    sizeAt (sections.map outline) index = sizeAt sections index := by
  rw [sizeAt, List.getElem?_map, Option.map_map]
  rfl

/-- A relocation does not look at the bytes of a section. -/
theorem relocation_outline (visit : Visit ZlImage ZlImageRelocation) :
    relocation symbols (sections.map outline) visit = relocation symbols sections visit := by
  simp only [relocation, referenceValue, findSection_outline, addressAt_outline, sizeAt_outline]

variable {sections symbols}

theorem relocation_congr {sections' : List LinkSection}
    (h : sections.map outline = sections'.map outline)
    (visit : Visit ZlImage ZlImageRelocation) :
    relocation symbols sections visit = relocation symbols sections' visit := by
  rw [← relocation_outline, h, relocation_outline]

end Outline

/-! ## The loop -/

section Patches

variable (symbols : List ZlImageSymbol) (sections : List LinkSection) (index : ℕ)

/-- The word a relocation writes into the section at `index`, with its offset. -/
def patchOf (visit : Visit ZlImage ZlImageRelocation) : Option (ℕ × Word) :=
  match relocation symbols sections visit with
  | .ok (destination, value) =>
      if destination = index then some (visit.inner.offset.toNat, value) else none
  | .error _ => none

/-- All words written into the section at `index`. -/
def patches (visits : List (Visit ZlImage ZlImageRelocation)) : List (ℕ × Word) :=
  visits.filterMap (patchOf symbols sections index)

/-- The bytes of a section after some words have been written. -/
def patchedBytes (bytes : Bytes) (words : List (ℕ × Word)) : Bytes :=
  overlayAll (·.1) (fun word => LittleEndian.bytes 4 word.2.toNat) bytes words

/-- The section at `index` after some relocations. -/
def patched (visits : List (Visit ZlImage ZlImageRelocation)) (s : LinkSection) : LinkSection :=
  { s with image := { s.image with
      data := .bytes (patchedBytes s.image.data.toBytes (patches symbols sections index visits)) } }

end Patches

theorem patchedBytes_concat (bytes : Bytes) (words : List (ℕ × Word)) (word : ℕ × Word) :
    patchedBytes bytes (words ++ [word])
      = write32 (patchedBytes bytes words) word.1 word.2 := by
  rw [patchedBytes, overlayAll_append, write32, LittleEndian.map_shift_word _ (by omega)]
  rfl

@[simp] theorem length_patchedBytes (bytes : Bytes) (words : List (ℕ × Word)) :
    (patchedBytes bytes words).length = bytes.length := length_overlayAll ..

/-- A word that no later one meets can be read back. -/
theorem slice_patchedBytes {bytes : Bytes} (before after : List (ℕ × Word)) {offset : ℕ}
    {value : Word} (hroom : offset + 4 ≤ bytes.length)
    (hafter : ∀ word ∈ after, ¬(offset < word.1 + 4 ∧ word.1 < offset + 4)) :
    slice (patchedBytes bytes (before ++ (offset, value) :: after)) offset 4
      = LittleEndian.bytes 4 value.toNat := by
  have hlength : ∀ v : Word, (LittleEndian.bytes 4 v.toNat).length = 4 := by simp
  have hslice : slice (patchedBytes bytes (before ++ (offset, value) :: after)) offset
      (LittleEndian.bytes 4 value.toNat).length = LittleEndian.bytes 4 value.toNat := by
    refine slice_overlayAll_of_last before after (offset, value) (by rw [hlength]; exact hroom) ?_
    intro word hword i hi hi'
    rw [Covers, hlength] at hi hi'
    exact hafter word hword ⟨by omega, by omega⟩
  rw [hlength] at hslice
  exact hslice

section Loop

variable {symbols : List ZlImageSymbol} {sections : List LinkSection}

/-- A section whose data is stored keeps its outline. -/
theorem outline_patched {s : LinkSection} (hstored : s.image.data = .bytes s.image.data.toBytes)
    (index : ℕ) (visits : List (Visit ZlImage ZlImageRelocation)) :
    outline (patched symbols sections index visits s) = outline s := by
  have hsize : s.image.dataSize = s.image.data.toBytes.length := by
    rw [ZlImageSection.dataSize]
    conv_lhs => rw [hstored]
    rfl
  simp only [outline, patched, ZlImageSection.dataSize, SectionData.size_bytes,
    length_patchedBytes]
  rw [← hsize]
  rfl

/-- **The relocation loop** overlays every section with the words meant for it. -/
theorem relocate_foldlM {visits : List (Visit ZlImage ZlImageRelocation)}
    {final : List LinkSection}
    (hstored : ∀ s ∈ sections, s.image.data = .bytes s.image.data.toBytes)
    (h : visits.foldlM (relocate symbols) sections = .ok final) :
    (∀ visit ∈ visits, ∃ r, relocation symbols sections visit = .ok r) ∧
      ∀ index, final[index]? = (sections[index]?).map (patched symbols sections index visits) := by
  refine foldlM_induction (fun done final =>
    (∀ visit ∈ done, ∃ r, relocation symbols sections visit = .ok r) ∧
      ∀ index, final[index]? = (sections[index]?).map (patched symbols sections index done)) h
    ⟨by simp, fun index => ?_⟩ ?_
  · cases hs : sections[index]? with
    | none => rfl
    | some s =>
        have hdata := hstored s (List.mem_of_getElem? hs)
        rw [Option.map_some, Option.some.injEq, patched]
        change s = { s with image := { s.image with data := .bytes s.image.data.toBytes } }
        rw [← hdata]
  · intro done visit rest state state' _ hP hstep
    obtain ⟨hok, hstate⟩ := hP
    have houtline : state.map outline = sections.map outline := by
      refine List.ext_getElem? fun index => ?_
      rw [List.getElem?_map, List.getElem?_map, hstate, Option.map_map]
      cases hs : sections[index]? with
      | none => rfl
      | some s =>
          exact congrArg some (outline_patched (hstored s (List.mem_of_getElem? hs)) index done)
    rw [relocate, relocation_congr houtline, bind_eq_ok] at hstep
    obtain ⟨⟨destination, value⟩, hrelocation, hstep⟩ := hstep
    obtain rfl := Except.ok.inj hstep
    refine ⟨fun v hv => ?_, fun index => ?_⟩
    · rcases List.mem_append.mp hv with hv | hv
      · exact hok v hv
      · rw [List.mem_singleton.mp hv]
        exact ⟨_, hrelocation⟩
    · have hpatch : patchOf symbols sections index visit
          = if destination = index then some (visit.inner.offset.toNat, value) else none := by
        rw [patchOf, hrelocation]
      rw [List.getElem?_modify, hstate, Option.map_eq_map, Option.map_map]
      refine congrArg (fun f => (sections[index]?).map f) (funext fun s => ?_)
      by_cases hdestination : destination = index
      · rw [if_pos hdestination] at hpatch
        simp only [if_pos hdestination, Function.comp_apply, patched, patchSection, patches,
          List.filterMap_append, List.filterMap_cons, hpatch, List.filterMap_nil,
          patchedBytes_concat, SectionData.toBytes_bytes]
      · rw [if_neg hdestination] at hpatch
        simp only [if_neg hdestination, Function.comp_apply, patched, patches,
          List.filterMap_append, List.filterMap_cons, hpatch, List.filterMap_nil, List.append_nil]

/-- Sections keep their addresses and sizes in the relocation loop. -/
theorem outline_foldlM {visits : List (Visit ZlImage ZlImageRelocation)}
    {final : List LinkSection}
    (hstored : ∀ s ∈ sections, s.image.data = .bytes s.image.data.toBytes)
    (h : visits.foldlM (relocate symbols) sections = .ok final) :
    final.map outline = sections.map outline := by
  obtain ⟨-, hfinal⟩ := relocate_foldlM hstored h
  refine List.ext_getElem? fun index => ?_
  rw [List.getElem?_map, List.getElem?_map, hfinal, Option.map_map]
  cases hs : sections[index]? with
  | none => rfl
  | some s => exact congrArg some (outline_patched (hstored s (List.mem_of_getElem? hs)) _ _)

/-- **The relocation loop succeeds** when every relocation does. -/
theorem relocate_progress {visits : List (Visit ZlImage ZlImageRelocation)}
    (hstored : ∀ s ∈ sections, s.image.data = .bytes s.image.data.toBytes)
    (h : ∀ visit ∈ visits, ∃ r, relocation symbols sections visit = .ok r) :
    ∃ final, visits.foldlM (relocate symbols) sections = .ok final := by
  have hprogress := foldlM_progress (f := relocate symbols) (l := visits)
    (fun done state => done.foldlM (relocate symbols) sections = .ok state) rfl ?_
  · obtain ⟨final, hfinal, -⟩ := hprogress
    exact ⟨final, hfinal⟩
  · intro done visit rest state hsplit hstate
    obtain ⟨r, hr⟩ := h visit (by rw [hsplit]; simp)
    rw [← relocation_congr (outline_foldlM hstored hstate)] at hr
    have hstep : relocate symbols state visit
        = .ok (state.modify r.1 (patchSection visit.inner.offset.toNat r.2)) := by
      rw [relocate, hr]
      rfl
    refine ⟨_, hstep, ?_⟩
    rw [List.foldlM_append, hstate, ok_bind, List.foldlM_cons, hstep]
    rfl

end Loop

/-! ## One relocation -/

section Single

variable {images : List ZlImage} {symbols : List ZlImageSymbol} {sections : List LinkSection}

/-- A patch comes from a relocation of its section. -/
theorem patchOf_eq_some {index : ℕ} {visit : Visit ZlImage ZlImageRelocation} {word : ℕ × Word} :
    patchOf symbols sections index visit = some word ↔
      word.1 = visit.inner.offset.toNat ∧
        relocation symbols sections visit = .ok (index, word.2) := by
  obtain ⟨offset, value⟩ := word
  rw [patchOf]
  cases relocation symbols sections visit with
  | error e => simp
  | ok r =>
      obtain ⟨destination, value'⟩ := r
      by_cases hdestination : destination = index
      · simp [hdestination, eq_comm]
      · simp [hdestination]

/-- The value a relocation writes is in range, and its bytes are those of the field. -/
theorem field_of_range {r : ZlImageRelocation} (address place : ℕ)
    (htype : r.type = relocationAbsolute32 ∨ r.type = relocationPcRelative32)
    (hrange : if r.type = relocationPcRelative32
      then -0x80000000 ≤ (address : ℤ) + r.addend.toInt - place ∧
        (address : ℤ) + r.addend.toInt - place ≤ 0x7FFFFFFF
      else 0 ≤ (address : ℤ) + r.addend.toInt ∧ (address : ℤ) + r.addend.toInt ≤ uint32Max) :
    Field r address place (LittleEndian.bytes 4 (UInt32.ofInt
      (if r.type = relocationPcRelative32 then (address : ℤ) + r.addend.toInt - place
        else (address : ℤ) + r.addend.toInt)).toNat) := by
  have hofInt : ∀ v : ℤ, (UInt32.ofInt v).toNat = (v % 0x100000000).toNat := by
    intro v
    rw [UInt32.ofInt, UInt32.toNat_ofNat']
    omega
  rw [hofInt]
  rcases htype with habsolute | hrelative
  · have hne : r.type ≠ relocationPcRelative32 := by
      rw [habsolute]
      decide
    rw [if_neg hne] at hrange ⊢
    have hmax : uint32Max = 0xFFFFFFFF := rfl
    refine .absolute32 habsolute hrange.1 (by omega) ?_
    rw [Int.emod_eq_of_lt hrange.1 (by omega)]
  · rw [if_pos hrelative] at hrange ⊢
    exact .pcRelative32 hrelative hrange.1 (by omega) rfl

/-- A relocation that succeeds: its section, its symbol and its field. -/
structure RelocationFacts (images : List ZlImage) (symbols : List ZlImageSymbol)
    (sections : List LinkSection) (visit : Visit ZlImage ZlImageRelocation) (index : ℕ)
    (value : Word) (s : LinkSection) (reference : ZlImageSymbol) (address : ℕ) : Prop where
  listed : ∃ image input, images[visit.outerIndex]? = some image ∧
    image.sections[visit.inner.sectionIndex.toNat]? = some input
  index_eq : index = position ZlImage.sections images visit.outerIndex visit.inner.sectionIndex.toNat
  destination : sections[index]? = some s
  symbol : visit.outer.symbols[visit.inner.symbolIndex.toNat]? = some reference
  value_eq : referenceValue sections symbols reference visit.outerIndex = .ok address
  room : visit.inner.offset.toNat + 4 ≤ s.image.dataSize
  field : (visit.inner.type = relocationAbsolute32 ∨ visit.inner.type = relocationPcRelative32) →
    Field visit.inner address (s.image.address.toNat + visit.inner.offset.toNat)
      (LittleEndian.bytes 4 value.toNat)

theorem relocation_facts (hlayout : Layout images sections) {index : ℕ} {value : Word}
    {visit : Visit ZlImage ZlImageRelocation}
    (h : relocation symbols sections visit = .ok (index, value)) :
    ∃ s reference address,
      RelocationFacts images symbols sections visit index value s reference address := by
  simp only [relocation, bind_eq_ok, orElse_eq_ok, require_eq_ok] at h
  obtain ⟨destination, hfind, reference, hreference, address, haddress, -, hrange, -, hroom, h⟩ := h
  cases Except.ok.inj h
  obtain ⟨image, input, himage, hinput, hposition⟩ := hlayout.of_findSection hfind
  obtain ⟨s, hs, -⟩ := hlayout.at_position himage hinput
  rw [← hposition] at hs
  have hsize : sizeAt sections index = s.image.dataSize := by
    rw [sizeAt, hs]
    rfl
  rw [hsize] at hroom
  refine ⟨s, reference, address, ⟨⟨image, input, himage, hinput⟩, hposition, hs, hreference,
    haddress, by omega, fun htype => ?_⟩⟩
  rw [addressAt_eq hs] at hrange ⊢
  refine field_of_range _ _ htype ?_
  by_cases hrelative : visit.inner.type = relocationPcRelative32
  · simp only [if_pos hrelative] at hrange ⊢
    exact hrange
  · simp only [if_neg hrelative] at hrange ⊢
    exact hrange

end Single

/-! ## The whole loop -/

section Whole

variable {images : List ZlImage} {symbols : List ZlImageSymbol} {sections final : List LinkSection}

/-- Every section of the table is a well-formed section with another address. -/
theorem Layout.stored (hlayout : Layout images sections)
    (hwf : ∀ image ∈ images, image.WellFormed) :
    ∀ s ∈ sections, s.image.data = .bytes s.image.data.toBytes := by
  intro s hs
  obtain ⟨index, hindex⟩ := List.mem_iff_getElem?.mp hs
  obtain ⟨v, hv, hplaced⟩ := hlayout.visit hindex
  obtain ⟨himage, hinput⟩ := mem_visits.mp (List.mem_of_getElem? hv)
  rw [hplaced.image]
  exact ((hwf _ (List.mem_of_getElem? himage)).sections _ (List.mem_of_getElem? hinput)).stored

/-- A patch of the section of an object comes from a relocation of that object and section. -/
theorem patch_origin (hlayout : Layout images sections) {object source : ℕ} {image : ZlImage}
    {input : ZlImageSection} (himage : images[object]? = some image)
    (hinput : image.sections[source]? = some input)
    {visit : Visit ZlImage ZlImageRelocation} {word : ℕ × Word}
    (h : patchOf symbols sections (position ZlImage.sections images object source) visit
      = some word) :
    visit.outerIndex = object ∧ visit.inner.sectionIndex.toNat = source ∧
      word.1 = visit.inner.offset.toNat := by
  obtain ⟨hoffset, hrelocation⟩ := patchOf_eq_some.mp h
  obtain ⟨s, reference, address, hfacts⟩ := relocation_facts hlayout hrelocation
  obtain ⟨image', input', himage', hinput'⟩ := hfacts.listed
  obtain ⟨hobject, hsource⟩ := position_inj himage hinput himage' hinput' hfacts.index_eq
  exact ⟨hobject, hsource, hoffset⟩

/-- The words written before and after one of them. -/
theorem patches_split {index : ℕ} {before after : List (Visit ZlImage ZlImageRelocation)}
    {visit : Visit ZlImage ZlImageRelocation} {word : ℕ × Word}
    (h : patchOf symbols sections index visit = some word) :
    patches symbols sections index (before ++ visit :: after)
      = patches symbols sections index before ++ word :: patches symbols sections index after := by
  rw [patches, List.filterMap_append, List.filterMap_cons, h]
  rfl

/-- What a section is after the loop. -/
theorem placed_after {visits : List (Visit ZlImage ZlImageRelocation)}
    (hlayout : Layout images sections)
    (hfinal : ∀ index, final[index]?
      = (sections[index]?).map (patched symbols sections index visits))
    {object source : ℕ} {image : ZlImage} {input : ZlImageSection}
    (himage : images[object]? = some image) (hinput : image.sections[source]? = some input) :
    ∃ s : LinkSection, sections[position ZlImage.sections images object source]? = some s ∧
      Placed ⟨image, object, input, source⟩ s ∧
      linkedSection images (final.map (·.image)) object source
        = some (patched symbols sections (position ZlImage.sections images object source)
          visits s).image := by
  obtain ⟨s, hs, hplaced⟩ := hlayout.at_position himage hinput
  refine ⟨s, hs, hplaced, ?_⟩
  rw [linkedSection, List.getElem?_map, hfinal, hs]
  rfl

/-- **The relocation loop applies every relocation.** -/
theorem relocated_of_foldlM (hwf : ∀ image ∈ images, image.WellFormed)
    (hlayout : Layout images sections) (htable : SymbolTable images sections symbols)
    (hcount : sections.length ≤ uint32Max)
    (hfit : AddressesFit images (sections.map (·.image)))
    (h : (visits ZlImage.relocations images).foldlM (relocate symbols) sections = .ok final) :
    Relocated images (final.map (·.image)) := by
  obtain ⟨hok, hfinal⟩ := relocate_foldlM (hlayout.stored hwf) h
  have haddresses : (sections.map (·.image)).map (·.address)
      = (final.map (·.image)).map (·.address) := by
    refine List.ext_getElem? fun index => ?_
    simp only [List.getElem?_map, hfinal, Option.map_map]
    rfl
  constructor
  · intro object image index r himage hindex hlater
    -- the visits before and after this one
    have hvisit := getElem?_position himage hindex
    obtain ⟨hlt, hget⟩ := List.getElem?_eq_some_iff.mp hvisit
    have hsplit := eq_take_getElem_drop hlt
    rw [hget] at hsplit
    obtain ⟨⟨destination, value⟩, hrelocation⟩ := hok _ (List.mem_of_getElem? hvisit)
    obtain ⟨s, reference, address, hfacts⟩ := relocation_facts hlayout hrelocation
    obtain ⟨image', input, himage', hinput⟩ := hfacts.listed
    obtain rfl : image = image' := Option.some.inj (himage.symm.trans himage')
    obtain ⟨s', hs', hplaced, hlinked⟩ := placed_after hlayout hfinal himage hinput
    obtain rfl : s' = s := by
      have hdestination := hfacts.destination
      rw [hfacts.index_eq] at hdestination
      exact Option.some.inj (hs'.symm.trans hdestination)
    have htype : r.type = relocationAbsolute32 ∨ r.type = relocationPcRelative32 := by
      obtain ⟨_, -, -, -, htype, -⟩ := (hwf image (List.mem_of_getElem? himage)).relocations r
        (List.mem_of_getElem? hindex)
      exact htype
    refine ⟨_, reference, address, hlinked, hfacts.symbol, ?_, ?_⟩
    · exact (resolves_of_referenceValue htable hlayout hcount hfit hfacts.value_eq).congr haddresses
    · have hfield := hfacts.field htype
      have hpatch : patchOf symbols sections
          (position ZlImage.sections images object r.sectionIndex.toNat) ⟨image, object, r, index⟩
          = some (r.offset.toNat, value) :=
        patchOf_eq_some.mpr ⟨rfl, by rw [hrelocation, hfacts.index_eq]⟩
      have hbytes : s'.image.data.toBytes.length = s'.image.dataSize := by
        rw [ZlImageSection.dataSize]
        conv_rhs => rw [hlayout.stored hwf s' (List.mem_of_getElem? hs')]
        rfl
      have hroom : r.offset.toNat + 4 ≤ s'.image.dataSize := hfacts.room
      have hslice : slice (patchedBytes s'.image.data.toBytes (patches symbols sections
          (position ZlImage.sections images object r.sectionIndex.toNat)
          (visits ZlImage.relocations images))) r.offset.toNat 4
          = LittleEndian.bytes 4 value.toNat := by
        rw [hsplit, patches_split hpatch]
        refine slice_patchedBytes _ _ (by omega) fun word hword hmeets => ?_
        -- a later word that meets this one would come from a later relocation of the object
        obtain ⟨visit, hvisit', hpatch'⟩ := List.mem_filterMap.mp hword
        obtain ⟨hobject, hsource, hoffset⟩ := patch_origin hlayout himage hinput hpatch'
        obtain ⟨q, hq⟩ := List.mem_iff_getElem?.mp hvisit'
        rw [List.getElem?_drop] at hq
        obtain ⟨himage'', hindex'', hposition⟩ := getElem?_visits.mp hq
        rw [hobject, himage] at himage''
        rw [← Option.some.inj himage''] at hindex''
        rw [hobject, position, position] at hposition
        rw [hoffset] at hmeets
        exact hlater visit.innerIndex visit.inner (by omega) hindex''
          ⟨UInt32.toNat_inj.mp hsource.symm, hmeets⟩
      rw [← hslice] at hfield
      exact hfield
  · intro object image source input himage hinput
    obtain ⟨s, hs, hplaced, hlinked⟩ := placed_after hlayout hfinal himage hinput
    have hinputwf := (hwf image (List.mem_of_getElem? himage)).sections input
      (List.mem_of_getElem? hinput)
    have hdata : s.image.data = input.data := congrArg (·.data) hplaced.image
    refine ⟨_, hlinked, ?_, ?_, fun j huncovered => ?_⟩
    · exact ZlImageSection.ext (congrArg (·.name) hplaced.image) (congrArg (·.type) hplaced.image)
        (congrArg (·.flags) hplaced.image) (congrArg (·.alignment) hplaced.image) rfl rfl
    · rw [← hinputwf.length_toBytes, ← hdata]
      exact length_patchedBytes _ _
    · rw [← hdata]
      refine getElem?_overlayAll_of_uncovered _ _ _ fun word hword hcovers => ?_
      obtain ⟨visit, hvisit, hpatch⟩ := List.mem_filterMap.mp hword
      obtain ⟨hobject, hsource, hoffset⟩ := patch_origin hlayout himage hinput hpatch
      obtain ⟨himage', hindex'⟩ := mem_visits.mp hvisit
      rw [hobject, himage] at himage'
      rw [← Option.some.inj himage'] at hindex'
      refine huncovered _ (List.mem_of_getElem? hindex') ⟨hsource, ?_⟩
      rw [← hoffset]
      simpa [Covers] using hcovers

end Whole

end Zlvm
