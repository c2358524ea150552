import Zlvm.Link.Executable

/-!
# The section table of an executable

What the layout loop guarantees, as a statement about the sections before and after the linking.

* `SectionsLaidOut` — the output holds the sections of the objects, in order, inside the ROM and
  without a common byte, located sections where they were located and the others at the next aligned
  address.
* **`zlLinkObjects_laidOut`** — every successful linking establishes it.
-/

namespace Zlvm

open Nested

/-- Everything of a section but its address and its bytes. -/
def ZlImageSection.attributes (s : ZlImageSection) : Option CString × Word × Word × Word × ℕ :=
  (s.name, s.type, s.flags, s.alignment, s.dataSize)

/-- Where the search for an automatic address starts: behind the section before, or at 8. -/
def searchStart (outputs : List ZlImageSection) : ℕ → ℕ
  | 0 => 8
  | index + 1 => ((outputs[index]?).map fun s => s.address.toNat + s.dataSize).getD 0

/-- The sections of an executable, given those of its objects. -/
structure SectionsLaidOut (inputs outputs : List ZlImageSection) : Prop where
  kept : outputs.map (·.attributes) = inputs.map (·.attributes)
  inRom : ∀ s ∈ outputs, s.address.toNat + s.dataSize ≤ romSize
  apart : outputs.Pairwise fun s t => ∀ address, s.Covers address → ¬t.Covers address
  located : ∀ (index : ℕ) input s, inputs[index]? = some input → outputs[index]? = some s →
    (input.address ≠ 0 ∨ input.flags &&& 1 ≠ 0) → s.address = input.address
  automatic : ∀ (index : ℕ) input s, inputs[index]? = some input → outputs[index]? = some s →
    input.address = 0 → input.flags &&& 1 = 0 →
    IsLeast {address | input.alignment.toNat ∣ address ∧ searchStart outputs index ≤ address}
      s.address.toNat

/-- The output section of a section of an object. -/
theorem SectionsLaidOut.linkedSection {images : List ZlImage} {outputs : List ZlImageSection}
    (h : SectionsLaidOut (images.flatMap ZlImage.sections) outputs) {object source : ℕ}
    {image : ZlImage} {input : ZlImageSection} (himage : images[object]? = some image)
    (hinput : image.sections[source]? = some input) :
    ∃ s, linkedSection images outputs object source = some s ∧
      (images.flatMap ZlImage.sections)[position ZlImage.sections images object source]?
        = some input := by
  have hin : (images.flatMap ZlImage.sections)[position ZlImage.sections images object source]?
      = some input := by
    rw [← map_inner_visits, List.getElem?_map, getElem?_position himage hinput]
    rfl
  have hlength := congrArg List.length h.kept
  rw [List.length_map, List.length_map] at hlength
  have hlt := (List.getElem?_eq_some_iff.mp hin).1
  rw [← hlength] at hlt
  exact ⟨_, List.getElem?_eq_getElem hlt, hin⟩

section Linked

variable {images : List ZlImage} {entrySymbol : Option CString} {sections final : List LinkSection}
  {symbols : List ZlImageSymbol} {executable : ZlImage}

/-- An output section is the placed section of its index with other bytes. -/
theorem LinkedBy.getElem?_sections
    (h : LinkedBy images entrySymbol sections symbols final executable)
    (hwf : ∀ image ∈ images, image.WellFormed) {index : ℕ} {s : ZlImageSection}
    (hs : executable.sections[index]? = some s) :
    ∃ t v, sections[index]? = some t ∧ (visits ZlImage.sections images)[index]? = some v ∧
      Placed v t ∧ s.attributes = v.inner.attributes ∧ s.address = t.image.address ∧
      s.dataSize = t.image.dataSize := by
  have houtline := congrArg (·[index]?) (h.outline hwf)
  rw [h.sections_eq, List.getElem?_map] at hs
  obtain ⟨u, hu, rfl⟩ := Option.map_eq_some_iff.mp hs
  simp only [List.getElem?_map, hu, Option.map_some] at houtline
  obtain ⟨t, ht, hut⟩ := Option.map_eq_some_iff.mp houtline.symm
  obtain ⟨v, hv, hplaced⟩ := h.layout.visit ht
  have himage : ({ t.image with data := .null t.image.dataSize } : ZlImageSection)
      = { u.image with data := .null u.image.dataSize } := congrArg LinkSection.image hut
  have hsize : t.image.dataSize = u.image.dataSize := by
    have hdata := congrArg ZlImageSection.data himage
    exact SectionData.null.inj hdata
  refine ⟨t, v, ht, hv, hplaced, ?_, (congrArg ZlImageSection.address himage).symm, hsize.symm⟩
  have hattributes : u.image.attributes = t.image.attributes := by
    rw [ZlImageSection.attributes, ZlImageSection.attributes, ← hsize]
    exact (congrArg (fun s : ZlImageSection => (s.name, s.type, s.flags, s.alignment,
      t.image.dataSize)) himage).symm
  rw [hattributes, hplaced.image]
  rfl

/-- Every section of the objects is in the output. -/
theorem LinkedBy.length_flatMap (h : LinkedBy images entrySymbol sections symbols final executable)
    (hwf : ∀ image ∈ images, image.WellFormed) :
    executable.sections.length = (images.flatMap ZlImage.sections).length := by
  rw [h.length hwf, ← h.layout.placed.length_eq, ← map_inner_visits, List.length_map]

/-- The search starts at the same place in the output and in the loop's table. -/
theorem LinkedBy.searchStart_eq (h : LinkedBy images entrySymbol sections symbols final executable)
    (hwf : ∀ image ∈ images, image.WellFormed) {index : ℕ} (hlt : index < sections.length) :
    searchStart executable.sections index = startAt sections index := by
  cases index with
  | zero => rfl
  | succ index =>
      have hlt' : index < executable.sections.length := by
        rw [h.length hwf]
        omega
      obtain ⟨t, v, ht, -, -, -, haddress, hsize⟩ :=
        h.getElem?_sections hwf (List.getElem?_eq_getElem hlt')
      rw [searchStart, startAt, addressAt, sizeAt, ht, List.getElem?_eq_getElem hlt',
        Option.map_some, Option.getD_some, haddress, hsize]
      rfl

/-- **The layout of a linked executable.** -/
theorem LinkedBy.laidOut (h : LinkedBy images entrySymbol sections symbols final executable)
    (hwf : ∀ image ∈ images, image.WellFormed) :
    SectionsLaidOut (images.flatMap ZlImage.sections) executable.sections := by
  -- the input section of an output section
  have hinput : ∀ {index : ℕ} {input s : ZlImageSection},
      (images.flatMap ZlImage.sections)[index]? = some input →
      executable.sections[index]? = some s →
      ∃ t v, sections[index]? = some t ∧ (visits ZlImage.sections images)[index]? = some v ∧
        Placed v t ∧ v.inner = input ∧ s.attributes = input.attributes ∧
        s.address = t.image.address := by
    intro index input s hin hs
    obtain ⟨t, v, ht, hv, hplaced, hattributes, haddress, -⟩ := h.getElem?_sections hwf hs
    rw [← map_inner_visits, List.getElem?_map, hv] at hin
    obtain rfl := Option.some.inj hin
    exact ⟨t, v, ht, hv, hplaced, rfl, hattributes, haddress⟩
  refine ⟨?_, fun s hs => (h.sections_wellFormed hwf s hs).2, h.apart hwf, ?_, ?_⟩
  · have hlength := h.length_flatMap hwf
    refine List.ext_getElem? fun index => ?_
    rw [List.getElem?_map, List.getElem?_map]
    by_cases hlt : index < executable.sections.length
    · have hs := List.getElem?_eq_getElem hlt
      have hin := List.getElem?_eq_getElem (show index < (images.flatMap ZlImage.sections).length
        by omega)
      obtain ⟨-, -, -, -, -, -, hattributes, -⟩ := hinput hin hs
      rw [hs, hin, Option.map_some, Option.map_some, hattributes]
    · rw [List.getElem?_eq_none (by omega), List.getElem?_eq_none (by omega)]
  · intro index input s hin hs hlocated
    obtain ⟨t, v, -, -, hplaced, rfl, -, haddress⟩ := hinput hin hs
    rw [haddress]
    refine hplaced.fixed fun hauto => ?_
    rcases hlocated with hne | hflag
    · exact hne hauto.1
    · exact hflag hauto.2
  · intro index input s hin hs hzero hflag
    obtain ⟨t, v, ht, hv, -, rfl, -, haddress⟩ := hinput hin hs
    obtain ⟨image, himage, hmem⟩ := List.mem_flatMap.mp (List.mem_of_getElem? hin)
    obtain ⟨k, hk⟩ := ((hwf image himage).sections _ hmem).alignment
    rw [haddress, h.searchStart_eq hwf (List.getElem?_eq_some_iff.mp ht).1]
    exact h.layout.automatic h.chosen hv ht ⟨hzero, hflag⟩ hk

end Linked

/-- **The layout invariant of the linker.**  The output of a successful linking holds exactly the
sections of the objects, laid out as described. -/
theorem zlLinkObjects_laidOut {alloc : LinkAllocator} {objects : List Bytes}
    {entrySymbol : Option CString} {output : Bytes}
    (h : zlLinkObjects alloc objects entrySymbol = .ok output) :
    ∃ images executable, DecodeTo objects images ∧ zlImageDecode allocAll output = .ok executable ∧
      SectionsLaidOut (images.flatMap ZlImage.sections) executable.sections := by
  obtain ⟨images, sections, symbols, final, executable, -, hrun⟩ := zlLinkObjects_linkRun h
  exact ⟨images, executable, hrun.decoded, hrun.output_eq, hrun.linked.laidOut hrun.wellFormed⟩

theorem zlLinkObjects_laidOut_linkedObjects :
    ∃ images executable, DecodeTo [serialize callerObject, serialize calleeObject] images ∧
      zlImageDecode allocAll (serialize linkedObjects) = .ok executable ∧
      SectionsLaidOut (images.flatMap ZlImage.sections) executable.sections :=
  @zlLinkObjects_laidOut (fun _ => true) _ none _ (by decide +kernel)

end Zlvm
