import Zlvm.Asm.Sections
import Zlvm.Asm.SymbolTable
import Zlvm.Image.RoundTrip

/-!
# Encoding an object

Every check of the encoder follows from what the directive loop, the symbol loops and the last loop
of `asm_translate_object` establish.

* `SoundContext` — what the directive loop and the label loop establish.
* `symbolValid_of_mem`, `relocationValid_of_mem`, `SoundContext.encodable` — the checks.
* `Survives` — the image that is decoded is the one that was encoded.
* **`objectImage_encodes`** — every object that is small enough for its format is encoded and
  survives.
-/

namespace Zlvm

open Loop Buffer

/-! ## Contexts -/

/-- What holds of a context after `asm_processDirectives` and `asm_processLabels`. -/
structure SoundContext (context : AssemblerContext) : Prop where
  placement : Placement context
  labels : DistinctLabels context.lines
  names : SectionNames context
  alignment : ∀ s ∈ context.sections, ∃ k, s.alignment.toNat = 2 ^ k

theorem soundContext_of_process {lines : List Line} {context : AssemblerContext}
    {labels : List LabelInfo} (h : asmProcessDirectives lines = .ok context)
    (hlabels : asmProcessLabels context = .ok labels) : SoundContext context := by
  rw [asmProcessDirectives, bind_eq_ok] at h
  obtain ⟨state, hstate, h⟩ := h
  obtain rfl := Except.ok.inj h
  rw [asmProcessLabels, bind_eq_ok] at hlabels
  obtain ⟨table, htable, -⟩ := hlabels
  have hreached := Reached.init.processLines hstate
  refine ⟨placement_asmInit.processLines hstate, distinctLabels_of_processLabels htable,
    hreached.sections.1, fun s hs => ?_⟩
  have halignment := hreached.alignment s.name
  rwa [hreached.sections.1.sectionOf_name hs] at halignment

/-! ## The image -/

section Image

variable {context : AssemblerContext} {image : ZlImage}

/-- The fields that the loops do not fill in. -/
theorem objectImage_entry (h : objectImage context = .ok image) :
    image.entryPoint = 0 ∧ image.entrySymbol = context.entry := by
  simp only [objectImage, bind_eq_ok] at h
  obtain ⟨symbols, -, state, -, h⟩ := h
  obtain rfl := Except.ok.inj h
  exact ⟨rfl, rfl⟩

/-- A section of the image comes from one of the context. -/
theorem Translated.mem_sections (h : Translated context image) {t : ZlImageSection}
    (ht : t ∈ image.sections) : ∃ index s, context.sections[index]? = some s ∧
      t = filled context image.symbols context.lines index (objectSection s) := by
  obtain ⟨index, hindex⟩ := List.mem_iff_getElem?.mp ht
  rw [h.sections, List.getElem?_mapIdx, Option.map_eq_some_iff] at hindex
  obtain ⟨s, hs, rfl⟩ := hindex
  exact ⟨index, s, hs, rfl⟩

theorem Translated.dataSize_filled (h : Translated context image) {index : ℕ} {s : AsmSection}
    (hs : context.sections[index]? = some s) :
    (filled context image.symbols context.lines index (objectSection s)).dataSize = s.size := by
  refine Zlvm.dataSize_filled fun hnone => ?_
  obtain ⟨line, hline⟩ := List.exists_mem_of_ne_nil _ hnone
  obtain ⟨hmem, hindex⟩ := List.mem_filter.mp hline
  exact h.stored line hmem s (by rw [beq_iff_eq.mp hindex]; exact hs)

theorem type_newSection (name : CString) :
    sectionText ≤ (newSection name).type ∧ (newSection name).type ≤ sectionBss := by
  unfold newSection
  dsimp only
  split
  · decide
  · split <;> decide

/-- **Every section** passes the check of the encoder. -/
theorem SoundContext.section_encodable (h : SoundContext context) (htranslated : Translated context image)
    {t : ZlImageSection} (ht : t ∈ image.sections) : t.Encodable := by
  obtain ⟨index, s, hs, rfl⟩ := htranslated.mem_sections ht
  have hmem := List.mem_of_getElem? hs
  have hsize := htranslated.dataSize_filled hs
  have hrange := h.placement.inRom s hmem
  obtain ⟨k, hk⟩ := h.alignment s hmem
  rw [AsmSection.InRom, romSize] at hrange
  have hfilled := @filled_eq context image.symbols context.lines index (objectSection s)
  have htype : (filled context image.symbols context.lines index (objectSection s)).type
      = s.type := by
    rw [hfilled]
    rfl
  refine ⟨fun hbss _ => ?_, ?_, ?_, ?_⟩
  · rw [htype] at hbss
    obtain ⟨data, hdata⟩ := @data_filled context image.symbols index s context.lines hbss
    rw [hdata]
    rfl
  · rw [hfilled]
    exact validAlignment_of_pow hk
  · rw [htype, h.names.type s hmem]
    exact type_newSection s.name
  · rw [hsize, hfilled, uint32Max]
    dsimp only [objectSection]
    omega

/-- **Every symbol** passes the check of the encoder. -/
theorem SoundContext.symbolValid_of_mem (h : SoundContext context)
    (htranslated : Translated context image) {y : ZlImageSymbol} (hy : y ∈ image.symbols) :
    symbolValid image.sections.length y = true := by
  simp only [symbolValid, Bool.and_eq_true, decide_eq_true_eq]
  rcases symbol_cases h.labels htranslated.symbols hy with
    ⟨line, hline, label, -, rfl⟩ | ⟨name, -, rfl, -⟩
  · obtain ⟨s, hs, -⟩ := h.placement.inside line hline
    have hlt := (List.getElem?_eq_some_iff.mp hs).1
    have hfields : (definedSymbol context line label).sectionIndex
          = UInt32.ofNat line.sectionIndex ∧
        (definedSymbol context line label).type
          = (labelSymbol context.sections line label).type := by
      unfold definedSymbol markGlobal
      split <;> exact ⟨rfl, rfl⟩
    rw [hfields.1, hfields.2, UInt32.toNat_ofNat', htranslated.sections, List.length_mapIdx]
    refine ⟨⟨.inr (Nat.lt_of_le_of_lt (Nat.mod_le _ _) hlt), ?_⟩, ?_⟩
    · unfold definedSymbol markGlobal
      split
      · exact (by decide : symbolGlobal ≤ symbolWeak)
      · exact (by decide : symbolLocal ≤ symbolWeak)
    · rw [labelSymbol]
      dsimp only
      split <;> decide
  · exact ⟨⟨.inl rfl, (by decide : symbolGlobal ≤ symbolWeak)⟩,
      (by decide : symbolNotype ≤ symbolFunction)⟩

/-- The symbol of a line that needs a relocation is in the table. -/
theorem symbol_lt_of_lineBytes {symbols : List ZlImageSymbol} {line : PlacedLine} {bytes : Bytes}
    {symbol : ℕ} (h : lineBytes context symbols line = .ok (bytes, some symbol)) :
    symbol < symbols.length := by
  obtain ⟨statement, token, -, -, -, hfound⟩ := lineBytes_symbol h
  obtain ⟨y, hy, -⟩ := findImageSymbol_eq_some hfound
  exact (List.getElem?_eq_some_iff.mp hy).1

/-- **Every relocation** passes the check of the encoder. -/
theorem SoundContext.relocationValid_of_mem (h : SoundContext context)
    (htranslated : Translated context image) (hcount : image.sections.length ≤ uint32Max)
    {r : ZlImageRelocation} (hr : r ∈ image.relocations) :
    relocationValid image.sections image.symbols.length r = true := by
  rw [htranslated.relocations] at hr
  obtain ⟨line, hline, hr⟩ := List.mem_filterMap.mp hr
  obtain ⟨-, -, hsize⟩ := relocationOf_eq_some hr
  obtain ⟨bytes, answer, hbytes⟩ := htranslated.translated line hline
  simp only [relocationOf, hbytes, Option.map_eq_some_iff] at hr
  obtain ⟨symbol, rfl, rfl⟩ := hr
  have hsymbol := symbol_lt_of_lineBytes hbytes
  rw [htranslated.sections, List.length_mapIdx] at hcount
  obtain ⟨hindex, hoffset⟩ := lineRelocation_place h.placement hcount hline hsize symbol
  obtain ⟨s, hs, hbss, hinside, -⟩ := htranslated.payload h.placement hline
  rw [hsize, instructionSize] at hinside
  rw [relocationValid_iff]
  refine ⟨s, by rw [hindex]; exact hs, hbss, ?_, .inl rfl, ?_⟩
  · rw [lineRelocation, UInt32.toNat_ofNat']
    exact Nat.lt_of_le_of_lt (Nat.mod_le _ _) hsymbol
  · rw [hoffset]
    omega

/-- **The encoder accepts the image** if it accepts the relocations. -/
theorem SoundContext.encodable (h : SoundContext context) (himage : objectImage context = .ok image)
    (hrelocations : ∀ r ∈ image.relocations,
      relocationValid image.sections image.symbols.length r = true) : image.Encodable := by
  have htranslated := translated_of_objectImage himage
  have hobject : image.kind ≠ imageExecutable := by
    rw [htranslated.kind]
    decide
  exact ⟨.inl htranslated.kind, fun hexec => absurd hexec hobject,
    fun t ht => h.section_encodable htranslated ht,
    List.all_eq_true.mpr fun y hy => h.symbolValid_of_mem htranslated hy,
    List.all_eq_true.mpr hrelocations, fun _ => (objectImage_entry himage).1,
    fun hexec => absurd hexec hobject, fun hexec => absurd hexec hobject⟩

/-- Every symbol of an object has a name, which the format keeps. -/
theorem normalise_symbols (hlabels : DistinctLabels context.lines)
    (h : objectSymbols context = .ok image.symbols) : image.normalise.symbols = image.symbols := by
  show image.symbols.map (·.normalise) = image.symbols
  have hname : ∀ y ∈ image.symbols, y.normalise = y := by
    intro y hy
    rcases symbol_cases hlabels h hy with ⟨line, -, name, -, rfl⟩ | ⟨name, -, rfl, -⟩
    · have hname : (definedSymbol context line name).name = some name := name_definedSymbol line name
      rw [ZlImageSymbol.normalise, hname, orEmpty, Option.getD_some, ← hname]
    · rfl
  exact (List.map_congr_left hname).trans (List.map_id _)

/-- The sections keep everything; a BSS section has zeros where the assembler has no bytes. -/
theorem normalise_sections (h : Translated context image) : image.normalise.sections
    = image.sections.map fun s => if s.type = sectionBss
        then { s with data := .bytes (List.replicate s.dataSize 0) } else s := by
  refine List.map_congr_left fun t ht => ?_
  obtain ⟨index, s, hs, rfl⟩ := h.mem_sections ht
  have hfilled := @filled_eq context image.symbols context.lines index (objectSection s)
  have hname : (filled context image.symbols context.lines index (objectSection s)).name
      = some s.name := by
    rw [hfilled]
    rfl
  rw [ZlImageSection.normalise, hname, orEmpty, Option.getD_some, ← hname]
  split
  · rfl
  · rename_i hbss
    rw [hfilled] at hbss
    obtain ⟨data, hdata⟩ := @data_filled context image.symbols index s context.lines hbss
    rw [hdata]
    exact ZlImageSection.ext rfl rfl rfl rfl rfl hdata.symm

end Image

/-! ## Encoding and decoding -/

/-- A decoded image is the object that was encoded: its sections, of which those in BSS have zeros
where the assembler has no bytes, its symbols, its relocations and its entry symbol. -/
structure Survives (image decoded : ZlImage) : Prop where
  kind : decoded.kind = imageObject
  entryPoint : decoded.entryPoint = 0
  sections : decoded.sections = image.sections.map fun s => if s.type = sectionBss
    then { s with data := .bytes (List.replicate s.dataSize 0) } else s
  symbols : decoded.symbols = image.symbols
  relocations : decoded.relocations = image.relocations
  entrySymbol : decoded.entrySymbol = image.entrySymbol

/-- **Assembled objects are encodable.**  Whatever lines have been accepted, an image that is small
enough for its format is encoded, and decoding gives it back. -/
theorem objectImage_encodes {lines : List Line} {context : AssemblerContext}
    {labels : List LabelInfo} {image : ZlImage} (h : asmProcessDirectives lines = .ok context)
    (hlabels : asmProcessLabels context = .ok labels) (himage : objectImage context = .ok image)
    (hsize : image.encodedSize ≤ uint32Max) :
    ∃ output decoded, zlImageEncode true image = .ok output ∧
      asmTranslateObject true context = .ok output ∧
      zlImageDecode allocAll output = .ok decoded ∧ Survives image decoded := by
  have hsound := soundContext_of_process h hlabels
  have htranslated := translated_of_objectImage himage
  have hencodable := hsound.encodable himage fun r hr =>
    hsound.relocationValid_of_mem htranslated (ZlImage.counts_le hsize).1 hr
  have hencode := zlImageEncode_eq_ok.mpr ⟨rfl, hencodable, hsize, rfl⟩
  refine ⟨serialize image, image.normalise, hencode, ?_, zlImageDecode_serialize hencodable hsize,
    htranslated.kind, (objectImage_entry himage).1, normalise_sections htranslated,
    normalise_symbols hsound.labels htranslated.symbols, rfl, ?_⟩
  · rw [asmTranslateObject, himage, ok_bind, hencode]
    rfl
  · refine if_neg ?_
    rw [htranslated.kind]
    decide

/-- A reference from the text section to the data section, and an empty BSS section. -/
def referringLines : List Line :=
  match parseSource (CString.lit
    ".entry main\nmain: jmp #value\n.section bss\n.align 4\n.section data\nvalue: .byte 1\n") with
  | .ok lines => lines
  | .error _ => []

theorem objectImage_encodes_referringLines : ∃ context image,
    asmProcessDirectives referringLines = .ok context ∧ objectImage context = .ok image ∧
      image.relocations.length = 1 ∧
      ∃ output decoded, zlImageEncode true image = .ok output ∧
        asmTranslateObject true context = .ok output ∧
        zlImageDecode allocAll output = .ok decoded ∧ Survives image decoded := by
  have hrun : (do
      let context ← asmProcessDirectives referringLines
      let _ ← asmProcessLabels context
      let image ← objectImage context
      return (image.relocations.length, decide (image.encodedSize ≤ uint32Max)))
        = .ok (1, true) := by decide +kernel
  simp only [bind_eq_ok] at hrun
  obtain ⟨context, hcontext, labels, hlabels, image, himage, hrun⟩ := hrun
  obtain ⟨hcount, hsize⟩ := Prod.mk.inj (Except.ok.inj hrun)
  exact ⟨context, image, hcontext, himage, hcount,
    objectImage_encodes hcontext hlabels himage (of_decide_eq_true hsize)⟩

end Zlvm
