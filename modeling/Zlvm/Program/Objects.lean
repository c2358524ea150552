import Zlvm.Asm.Encoding
import Zlvm.Link.Executable

/-!
# Objects as the linker reads them

The linker decodes what the assembler has encoded: the image of a context, normalised.

* `AssemblesTo` — a source and its object; `ObjectOf` — a context and the image that is decoded.
* `objectsOf` — the contexts and the images of a whole link.
* `ObjectOf.payload`, `ObjectOf.relocations_apart`, `ObjectOf.not_covered` — the lines and the
  relocations of the decoded image.
* `position_sections` — a section comes at the same position among those of the contexts and those
  of the images.
-/

namespace Zlvm

open Buffer Loop Nested

/-- The assembler turns a source into an object. -/
def AssemblesTo (source : CString) (object : Bytes) : Prop :=
  ∃ alloc filename, zlasmAssembleObject alloc source filename = .ok object

/-- The image that is decoded from the object of a context. -/
structure ObjectOf (context : AssemblerContext) (image : ZlImage) : Prop where
  assembled : Assembled context
  encoded : ∃ raw, Translated context raw ∧ raw.Encodable ∧ raw.encodedSize ≤ uint32Max ∧
    image = raw.normalise

theorem asmTranslateObject_eq_ok {alloc : Bool} {context : AssemblerContext} {object : Bytes}
    (h : asmTranslateObject alloc context = .ok object) :
    ∃ raw, Translated context raw ∧ raw.Encodable ∧ raw.encodedSize ≤ uint32Max ∧
      object = serialize raw := by
  simp only [asmTranslateObject, bind_eq_ok] at h
  obtain ⟨raw, hraw, h⟩ := h
  cases hencode : zlImageEncode alloc raw with
  | error e =>
      rw [hencode] at h
      cases h
  | ok output =>
      rw [hencode] at h
      obtain rfl := Except.ok.inj h
      obtain ⟨-, hencodable, hsize, rfl⟩ := zlImageEncode_eq_ok.mp hencode
      exact ⟨raw, translated_of_objectImage hraw, hencodable, hsize, rfl⟩

/-- **The object of a source**, as the linker decodes it. -/
theorem AssemblesTo.objectOf {source : CString} {object : Bytes} {image : ZlImage}
    (h : AssemblesTo source object) (hdecode : zlImageDecode allocAll object = .ok image) :
    ∃ context, assembleContext source = .ok context ∧ ObjectOf context image := by
  obtain ⟨alloc, filename, h⟩ := h
  unfold zlasmAssembleObject at h
  split at h
  · rename_i output hrun
    obtain rfl := Except.ok.inj h
    rw [bind_eq_ok] at hrun
    obtain ⟨context, hcontext, hobject⟩ := hrun
    obtain ⟨raw, htranslated, hencodable, hsize, rfl⟩ := asmTranslateObject_eq_ok hobject
    rw [zlImageDecode_serialize hencodable hsize] at hdecode
    exact ⟨context, hcontext, (assembleContext_placed hcontext).1, raw, htranslated, hencodable,
      hsize, (Except.ok.inj hdecode).symm⟩
  · cases h

/-- The contexts behind the images of a link. -/
theorem objectsOf {sources : List CString} {objects : List Bytes} {images : List ZlImage}
    (h : List.Forall₂ AssemblesTo sources objects) (hdecode : DecodeTo objects images) :
    ∃ contexts, List.Forall₂ (fun source context => assembleContext source = .ok context)
        sources contexts ∧ List.Forall₂ ObjectOf contexts images := by
  induction h generalizing images with
  | nil =>
      cases hdecode
      exact ⟨[], .nil, .nil⟩
  | cons hobject _ ih =>
      obtain _ | ⟨⟨himage, -⟩, hdecode⟩ := hdecode
      obtain ⟨context, hcontext, hof⟩ := hobject.objectOf himage
      obtain ⟨contexts, hcontexts, hall⟩ := ih hdecode
      exact ⟨context :: contexts, .cons hcontext hcontexts, .cons hof hall⟩

namespace ObjectOf

variable {context : AssemblerContext} {image : ZlImage}

theorem symbols (h : ObjectOf context image) : objectSymbols context = .ok image.symbols := by
  obtain ⟨raw, htranslated, -, -, rfl⟩ := h.encoded
  rw [normalise_symbols h.assembled.labels htranslated.symbols]
  exact htranslated.symbols

theorem counts (h : ObjectOf context image) :
    context.sections.length ≤ uint32Max ∧ image.symbols.length ≤ uint32Max := by
  obtain ⟨raw, htranslated, -, hsize, rfl⟩ := h.encoded
  obtain ⟨hsections, hsymbols, -⟩ := ZlImage.counts_le hsize
  refine ⟨?_, ?_⟩
  · simpa [htranslated.sections] using hsections
  · rw [normalise_symbols h.assembled.labels htranslated.symbols]
    exact hsymbols

theorem translated (h : ObjectOf context image) {line : PlacedLine} (hline : line ∈ context.lines) :
    ∃ bytes symbol, lineBytes context image.symbols line = .ok (bytes, symbol) := by
  obtain ⟨raw, htranslated, -, -, rfl⟩ := h.encoded
  rw [normalise_symbols h.assembled.labels htranslated.symbols]
  exact htranslated.translated line hline

theorem relocations (h : ObjectOf context image) :
    image.relocations = context.lines.filterMap (relocationOf context image.symbols) := by
  obtain ⟨raw, htranslated, -, -, rfl⟩ := h.encoded
  rw [normalise_symbols h.assembled.labels htranslated.symbols]
  exact htranslated.relocations

/-- **The sections** keep everything but their bytes. -/
theorem getElem?_sections (h : ObjectOf context image) {index : ℕ} {s : AsmSection}
    (hs : context.sections[index]? = some s) :
    ∃ data, image.sections[index]? = some { objectSection s with data } ∧
      data.size = s.size := by
  obtain ⟨raw, htranslated, hencodable, -, rfl⟩ := h.encoded
  have hraw : raw.sections[index]?
      = some (filled context raw.symbols context.lines index (objectSection s)) := by
    rw [htranslated.sections, List.getElem?_mapIdx, hs]
    rfl
  have hsize := htranslated.dataSize_filled hs
  have hnormal := (hencodable.sections _ (List.mem_of_getElem? hraw)).dataSize_normalise
  refine ⟨(filled context raw.symbols context.lines index (objectSection s)).normalise.data, ?_,
    hnormal.trans hsize⟩
  show (raw.sections.map (·.normalise))[index]? = _
  rw [List.getElem?_map, hraw, Option.map_some, Option.some.injEq]
  exact ZlImageSection.ext (by rw [filled_eq]; rfl) (by rw [filled_eq]; rfl)
    (by rw [filled_eq]; rfl) (by rw [filled_eq]; rfl) (by rw [filled_eq]; rfl) rfl

theorem length_sections (h : ObjectOf context image) :
    image.sections.length = context.sections.length := by
  obtain ⟨raw, htranslated, -, -, rfl⟩ := h.encoded
  show (raw.sections.map (·.normalise)).length = _
  rw [List.length_map, htranslated.sections, List.length_mapIdx]

/-- **The bytes of a line** lie in its section. -/
theorem payload (h : ObjectOf context image) {line : PlacedLine} (hline : line ∈ context.lines) :
    ∃ s, image.sections[line.sectionIndex]? = some s ∧
      line.sectionOffset + line.size ≤ s.dataSize ∧
      slice s.data.toBytes line.sectionOffset line.size
        = emitted context image.symbols line := by
  obtain ⟨raw, htranslated, hencodable, -, rfl⟩ := h.encoded
  obtain ⟨s, hs, hbss, hinside, hbytes⟩ := htranslated.payload h.assembled.placement hline
  rw [normalise_symbols h.assembled.labels htranslated.symbols]
  refine ⟨s.normalise, ?_, ?_, ?_⟩
  · show (raw.sections.map (·.normalise))[line.sectionIndex]? = _
    rw [List.getElem?_map, hs]
    rfl
  · rw [(hencodable.sections s (List.mem_of_getElem? hs)).dataSize_normalise]
    exact hinside
  · rw [ZlImageSection.normalise, if_neg hbss]
    exact hbytes

/-- The symbols do not matter for the relocations being apart. -/
theorem relocations_apart (h : ObjectOf context image) :
    image.relocations.Pairwise fun r r' =>
      r.sectionIndex.toNat = r'.sectionIndex.toNat → r.offset.toNat + 4 ≤ r'.offset.toNat := by
  have hcount := h.counts.1
  obtain ⟨raw, htranslated, -, -, rfl⟩ := h.encoded
  exact htranslated.relocations_apart h.assembled.placement hcount

/-- A line without a relocation is met by none. -/
theorem not_covered (h : ObjectOf context image) {line : PlacedLine}
    (hline : line ∈ context.lines) (hnone : relocationOf context image.symbols line = none)
    {r : ZlImageRelocation} (hr : r ∈ image.relocations)
    (hsection : r.sectionIndex.toNat = line.sectionIndex) :
    r.offset.toNat + 4 ≤ line.sectionOffset ∨
      line.sectionOffset + line.size ≤ r.offset.toNat := by
  have hcount := h.counts.1
  obtain ⟨raw, htranslated, -, -, rfl⟩ := h.encoded
  rw [normalise_symbols h.assembled.labels htranslated.symbols] at hnone
  exact htranslated.not_covered h.assembled.placement hcount hline hnone hr hsection

end ObjectOf

/-! ## All objects -/

section All

variable {contexts : List AssemblerContext} {images : List ZlImage}

theorem objectOf_getElem? (h : List.Forall₂ ObjectOf contexts images) {object : ℕ}
    {context : AssemblerContext} (hcontext : contexts[object]? = some context) :
    ∃ image, images[object]? = some image ∧ ObjectOf context image := by
  obtain ⟨hlt, rfl⟩ := List.getElem?_eq_some_iff.mp hcontext
  have hlt' : object < images.length := h.length_eq ▸ hlt
  exact ⟨images[object], List.getElem?_eq_getElem hlt', h.get hlt hlt'⟩

theorem objectOf_getElem?_image (h : List.Forall₂ ObjectOf contexts images) {object : ℕ}
    {image : ZlImage} (himage : images[object]? = some image) :
    ∃ context, contexts[object]? = some context ∧ ObjectOf context image := by
  obtain ⟨hlt, rfl⟩ := List.getElem?_eq_some_iff.mp himage
  have hlt' : object < contexts.length := h.length_eq ▸ hlt
  exact ⟨contexts[object], List.getElem?_eq_getElem hlt', h.get hlt' hlt⟩

/-- The sections of the contexts and those of the images come in the same order. -/
theorem position_sections (h : List.Forall₂ ObjectOf contexts images) (object source : ℕ) :
    position ZlImage.sections images object source
      = position AssemblerContext.sections contexts object source := by
  refine position_congr ?_ object source
  refine List.ext_getElem? fun index => ?_
  rw [List.getElem?_map, List.getElem?_map]
  cases hcontext : contexts[index]? with
  | none =>
      have hnone : images[index]? = none := by
        rw [List.getElem?_eq_none_iff] at hcontext ⊢
        rw [← h.length_eq]
        exact hcontext
      rw [hnone]
      rfl
  | some context =>
      obtain ⟨image, himage, hof⟩ := objectOf_getElem? h hcontext
      rw [himage]
      exact congrArg some hof.length_sections

end All

end Zlvm
