import Zlvm.Link.Relocation
import Zlvm.Vm.Load

/-!
# The executable of a successful linking

* `linkImages_eq_ok` — the loops behind the executable; `zlLinkObjects_eq_ok` — the objects and the
  executable behind the output.
* `LinkedFrom` — the executable is well formed, and its sections fit the ROM without sharing a byte.
* **`zlLinkObjects_relocated`** — every relocation is applied, and nothing else is changed.
* **`vmLoadImage_zlLinkObjects`** — the output loads, and the ROM then holds the sections.
-/

namespace Zlvm

open Buffer Loop Nested

/-! ## Taking the linking apart -/

/-- The images that the objects decode to. -/
def DecodeTo (objects : List Bytes) (images : List ZlImage) : Prop :=
  List.Forall₂ (fun object image => zlImageDecode allocAll object = .ok image ∧
    image.kind = imageObject) objects images

theorem DecodeTo.wellFormed {objects : List Bytes} {images : List ZlImage}
    (h : DecodeTo objects images) : ∀ image ∈ images, image.WellFormed := by
  intro image himage
  obtain ⟨index, hlt, rfl⟩ := List.getElem_of_mem himage
  have hdecode := (h.get (by rw [h.length_eq]; exact hlt) hlt).1
  exact ((zlImageDecode_ensures allocAll _).of_eq_ok hdecode).1

theorem DecodeTo.getElem? {objects : List Bytes} {images : List ZlImage}
    (h : DecodeTo objects images) {object : ℕ} {file : Bytes} (hfile : objects[object]? = some file) :
    ∃ image, images[object]? = some image ∧ zlImageDecode allocAll file = .ok image := by
  obtain ⟨hlt, rfl⟩ := List.getElem?_eq_some_iff.mp hfile
  have hlt' : object < images.length := h.length_eq ▸ hlt
  exact ⟨images[object], List.getElem?_eq_getElem hlt', (h.get hlt hlt').1⟩

/-- Objects decode to one list of images. -/
theorem DecodeTo.unique {objects : List Bytes} {images images' : List ZlImage}
    (h : DecodeTo objects images) (h' : DecodeTo objects images') : images = images' := by
  induction h generalizing images' with
  | nil =>
      cases h'
      rfl
  | cons hdecode _ ih =>
      obtain _ | ⟨hdecode', hrest⟩ := h'
      rw [Except.ok.inj (hdecode.1.symm.trans hdecode'.1), ih hrest]

theorem decodeTo_of_mapM {alloc : LinkAllocator} {images : List ZlImage} :
    ∀ {objects : List Bytes} {k : ℕ}, (objects.zipIdx k).mapM (decodeObject alloc) = .ok images →
      DecodeTo objects images := by
  intro objects
  induction objects generalizing images with
  | nil =>
      intro k h
      obtain rfl : images = [] := by simpa [eq_comm] using h
      exact .nil
  | cons object objects ih =>
      intro k h
      rw [List.zipIdx_cons, mapM_eq_ok_iff] at h
      obtain _ | ⟨himage, himages⟩ := h
      refine .cons ?_ (ih (mapM_eq_ok_iff.mpr himages))
      rw [decodeObject] at himage
      split at himage
      · cases himage
      · rename_i image hdecode
        split at himage
        · rename_i hkind
          obtain rfl := Except.ok.inj himage
          exact ⟨zlImageDecode_allocAll hdecode, hkind⟩
        · cases himage

/-- The loops behind an executable. -/
structure LinkedBy (images : List ZlImage) (entrySymbol : Option CString)
    (sections : List LinkSection) (symbols : List ZlImageSymbol) (final : List LinkSection)
    (executable : ZlImage) : Prop where
  layout : Layout images sections
  chosen : Chosen images sections
  table : SymbolTable images sections symbols
  loop : (visits ZlImage.relocations images).foldlM (relocate symbols) sections = .ok final
  entry : findEntry symbols (selectedEntry images entrySymbol) ≠ 0
  executable_eq : executable = {
    kind := imageExecutable
    entryPoint := findEntry symbols (selectedEntry images entrySymbol)
    sections := final.map (·.image) }

theorem linkImages_eq_ok {alloc : LinkAllocator} {images : List ZlImage}
    {entrySymbol : Option CString} {executable : ZlImage}
    (h : linkImages alloc images entrySymbol = .ok executable) :
    ∃ sections symbols final,
      LinkedBy images entrySymbol sections symbols final executable := by
  simp only [linkImages, bind_eq_ok, require_eq_ok] at h
  obtain ⟨-, -, layout, hlayout, -, -, symbols, hsymbols, final, hfinal, -, hentry, -, -, h⟩ := h
  exact ⟨layout.sections, symbols, final, layout_of_foldlM hlayout,
    chosen_of_foldlM hlayout, symbolTable_of_foldlM hsymbols, hfinal, hentry, (Except.ok.inj h).symm⟩

theorem zlLinkObjects_eq_ok {alloc : LinkAllocator} {objects : List Bytes}
    {entrySymbol : Option CString} {output : Bytes}
    (h : zlLinkObjects alloc objects entrySymbol = .ok output) :
    ∃ images executable, DecodeTo objects images ∧
      linkImages alloc images entrySymbol = .ok executable ∧ executable.Encodable ∧
      executable.encodedSize ≤ uint32Max ∧ output = serialize executable := by
  simp only [zlLinkObjects, bind_eq_ok, require_eq_ok] at h
  obtain ⟨-, -, -, -, images, himages, executable, hexecutable, hencode⟩ := h
  cases hok : zlImageEncode (alloc .result) executable with
  | error e =>
      rw [hok] at hencode
      cases e <;> cases hencode
  | ok output' =>
      rw [hok] at hencode
      obtain rfl := Except.ok.inj hencode
      obtain ⟨-, hencodable, hsize, houtput⟩ := zlImageEncode_eq_ok.mp hok
      exact ⟨images, executable, decodeTo_of_mapM himages, hexecutable, hencodable, hsize, houtput⟩

/-! ## The sections of the executable -/

section Sections

variable {images : List ZlImage} {entrySymbol : Option CString} {sections final : List LinkSection}
  {symbols : List ZlImageSymbol} {executable : ZlImage}

/-- No word is written into a section without stored bytes. -/
theorem patches_bss (hlayout : Layout images sections)
    (hwf : ∀ image ∈ images, image.WellFormed) {object source : ℕ} {image : ZlImage}
    {input : ZlImageSection} (himage : images[object]? = some image)
    (hinput : image.sections[source]? = some input) (hbss : input.type = sectionBss) :
    patches symbols sections (position ZlImage.sections images object source)
      (visits ZlImage.relocations images) = [] := by
  refine List.filterMap_eq_nil_iff.mpr fun visit hvisit => ?_
  by_contra hpatch
  obtain ⟨word, hword⟩ := Option.ne_none_iff_exists'.mp hpatch
  obtain ⟨hobject, hsource, -⟩ := patch_origin hlayout himage hinput hword
  obtain ⟨himage', hindex⟩ := mem_visits.mp hvisit
  rw [hobject, himage] at himage'
  obtain ⟨s, hs, hnotbss, -⟩ := (hwf image (List.mem_of_getElem? himage)).relocations visit.inner
    (by rw [Option.some.inj himage']; exact List.mem_of_getElem? hindex)
  rw [hsource, hinput] at hs
  exact hnotbss (by rw [← Option.some.inj hs, hbss])

/-- **The sections of the executable are well formed and fit the ROM.** -/
theorem LinkedBy.sections_wellFormed
    (h : LinkedBy images entrySymbol sections symbols final executable)
    (hwf : ∀ image ∈ images, image.WellFormed) :
    ∀ s ∈ executable.sections, s.WellFormed ∧ s.address.toNat + s.dataSize ≤ romSize := by
  obtain ⟨-, hfinal⟩ := relocate_foldlM (h.layout.stored hwf) h.loop
  intro s hs
  rw [h.executable_eq] at hs
  obtain ⟨t, ht, rfl⟩ := List.mem_map.mp hs
  obtain ⟨index, hindex⟩ := List.mem_iff_getElem?.mp ht
  rw [hfinal] at hindex
  obtain ⟨t₀, ht₀, rfl⟩ := Option.map_eq_some_iff.mp hindex
  obtain ⟨v, hv, hplaced⟩ := h.layout.visit ht₀
  obtain ⟨himage, hinput, hposition⟩ := getElem?_visits.mp hv
  have hinputwf := (hwf _ (List.mem_of_getElem? himage)).sections _ (List.mem_of_getElem? hinput)
  have hdata : t₀.image.data = v.inner.data := congrArg (·.data) hplaced.image
  have htype : t₀.image.type = v.inner.type := congrArg (·.type) hplaced.image
  have hsize : (patched symbols sections index (visits ZlImage.relocations images) t₀).image.dataSize
      = t₀.image.dataSize := by
    have hlength := hinputwf.length_toBytes
    rw [← hdata, show v.inner.dataSize = t₀.image.dataSize by
      rw [ZlImageSection.dataSize, ZlImageSection.dataSize, hdata]] at hlength
    rw [← hlength]
    exact length_patchedBytes _ _
  have hfits := hplaced.fits
  refine ⟨⟨?_, ?_, ?_, ?_, rfl, fun hbss => ?_⟩, by rw [hsize]; exact hfits⟩
  · exact (congrArg (·.name) hplaced.image).trans_ne hinputwf.name
  · exact htype ▸ hinputwf.type
  · obtain ⟨k, hk⟩ := hinputwf.alignment
    exact ⟨k, (congrArg (·.alignment.toNat) hplaced.image).trans hk⟩
  · rw [hsize]
    refine le_trans hfits ?_
    decide
  · have hbss' : v.inner.type = sectionBss := htype.symm.trans hbss
    rw [hsize]
    simp only [patched, hposition, patches_bss h.layout hwf himage hinput hbss', hdata]
    have hzero := hinputwf.bss hbss'
    rw [show v.inner.dataSize = t₀.image.dataSize by
      rw [ZlImageSection.dataSize, ZlImageSection.dataSize, hdata]] at hzero
    rw [hzero]
    rfl

/-- **The executable is well formed.** -/
theorem LinkedBy.wellFormed (h : LinkedBy images entrySymbol sections symbols final executable)
    (hwf : ∀ image ∈ images, image.WellFormed) (hencodable : executable.Encodable) :
    executable.WellFormed := by
  have hkind : executable.kind = imageExecutable := by rw [h.executable_eq]
  have hfound := hencodable.found hkind
  refine ⟨.inr hkind, fun s hs => (h.sections_wellFormed hwf s hs).1, ?_, ?_, ?_, fun _ => ?_⟩
  · rw [h.executable_eq]
    simp
  · rw [h.executable_eq]
    simp
  · intro hobject
    exact absurd (hkind.symm.trans hobject) (by decide)
  · refine ⟨by rw [h.executable_eq], by rw [h.executable_eq], ?_, entryFound_iff.mp hfound⟩
    rw [h.executable_eq]
    exact h.entry

/-- Sections keep their addresses and sizes in the relocation loop. -/
theorem LinkedBy.outline (h : LinkedBy images entrySymbol sections symbols final executable)
    (hwf : ∀ image ∈ images, image.WellFormed) : final.map outline = sections.map outline :=
  outline_foldlM (h.layout.stored hwf) h.loop

/-- The loop keeps the number of sections. -/
theorem LinkedBy.length (h : LinkedBy images entrySymbol sections symbols final executable)
    (hwf : ∀ image ∈ images, image.WellFormed) :
    executable.sections.length = sections.length := by
  have hlength := congrArg List.length (h.outline hwf)
  rw [h.executable_eq]
  simpa using hlength

theorem LinkedBy.sections_eq
    (h : LinkedBy images entrySymbol sections symbols final executable) :
    executable.sections = final.map (·.image) := by rw [h.executable_eq]

theorem LinkedBy.addresses (h : LinkedBy images entrySymbol sections symbols final executable)
    (hwf : ∀ image ∈ images, image.WellFormed) :
    (final.map (·.image)).map (·.address) = (sections.map (·.image)).map (·.address) := by
  have houtline := congrArg (List.map (·.image.address)) (h.outline hwf)
  simpa [Function.comp_def, Zlvm.outline] using houtline

/-- **No two sections of the executable share a byte.** -/
theorem LinkedBy.apart (h : LinkedBy images entrySymbol sections symbols final executable)
    (hwf : ∀ image ∈ images, image.WellFormed) :
    executable.sections.Pairwise fun s t => ∀ address, s.Covers address → ¬t.Covers address := by
  have hapart : (sections.map Zlvm.outline).Pairwise Apart :=
    List.pairwise_map.mpr h.layout.apart
  rw [← h.outline hwf, List.pairwise_map] at hapart
  rw [h.executable_eq]
  refine List.pairwise_map.mpr (hapart.imp ?_)
  intro s t hst address hs ht
  have hst' : s.image.address.toNat + s.image.dataSize ≤ t.image.address.toNat ∨
      t.image.address.toNat + t.image.dataSize ≤ s.image.address.toNat := hst
  obtain ⟨hs₁, hs₂⟩ := hs
  obtain ⟨ht₁, ht₂⟩ := ht
  omega

end Sections

/-- The loops behind a successful linking, and what holds of its objects and its output. -/
structure LinkRun (objects : List Bytes) (entrySymbol : Option CString) (output : Bytes)
    (images : List ZlImage) (sections : List LinkSection) (symbols : List ZlImageSymbol)
    (final : List LinkSection) (executable : ZlImage) : Prop where
  decoded : DecodeTo objects images
  wellFormed : ∀ image ∈ images, image.WellFormed
  linked : LinkedBy images entrySymbol sections symbols final executable
  executable_wellFormed : executable.WellFormed
  output_eq : zlImageDecode allocAll output = .ok executable
  count : sections.length ≤ uint32Max

theorem zlLinkObjects_linkRun {alloc : LinkAllocator} {objects : List Bytes}
    {entrySymbol : Option CString} {output : Bytes}
    (h : zlLinkObjects alloc objects entrySymbol = .ok output) :
    ∃ images sections symbols final executable,
      linkImages alloc images entrySymbol = .ok executable ∧
      LinkRun objects entrySymbol output images sections symbols final executable := by
  obtain ⟨images, executable, himages, hlink, hencodable, hsize, rfl⟩ := zlLinkObjects_eq_ok h
  have hwf := himages.wellFormed
  obtain ⟨sections, symbols, final, hlinked⟩ := linkImages_eq_ok hlink
  have hexecutable := hlinked.wellFormed hwf hencodable
  refine ⟨images, sections, symbols, final, executable, hlink, himages, hwf, hlinked, hexecutable,
    ?_, ?_⟩
  · rw [zlImageDecode_serialize hencodable hsize, hexecutable.normalise]
  · rw [← hlinked.length hwf]
    exact (ZlImage.counts_le hsize).1

/-- **The entry point** is that of the first definition of the selected name. -/
theorem LinkRun.selectsEntry {objects : List Bytes} {entrySymbol : Option CString} {output : Bytes}
    {images : List ZlImage} {sections final : List LinkSection} {symbols : List ZlImageSymbol}
    {executable : ZlImage}
    (h : LinkRun objects entrySymbol output images sections symbols final executable) :
    ∃ object index symbol, SelectsEntry images executable.sections
      (selectedEntry images entrySymbol) executable.entryPoint object index symbol := by
  obtain ⟨object, index, symbol, hentry⟩ :=
    selectsEntry_of_findEntry h.linked.table h.linked.layout h.count h.linked.entry
  have hcongr := hentry.congr (h.linked.addresses h.wellFormed).symm
  rw [← h.linked.sections_eq] at hcongr
  rw [show executable.entryPoint = findEntry symbols (selectedEntry images entrySymbol) by
    rw [h.linked.executable_eq]]
  exact ⟨object, index, symbol, hcongr⟩

/-! ## Relocation -/

section Results

variable {alloc : LinkAllocator} {objects : List Bytes} {entrySymbol : Option CString}
  {output : Bytes}

/-- **Relocation.**  The output of a successful linking is an executable whose sections are those of
the objects with every relocation applied, provided that no address of a symbol exceeds 32 bits. -/
theorem zlLinkObjects_relocated (h : zlLinkObjects alloc objects entrySymbol = .ok output) :
    ∃ images executable, DecodeTo objects images ∧ zlImageDecode allocAll output = .ok executable ∧
      (AddressesFit images executable.sections → Relocated images executable.sections) := by
  obtain ⟨images, sections, symbols, final, executable, -, hrun⟩ := zlLinkObjects_linkRun h
  refine ⟨images, executable, hrun.decoded, hrun.output_eq, fun hfit => ?_⟩
  have haddresses := hrun.linked.addresses hrun.wellFormed
  rw [hrun.linked.sections_eq] at hfit ⊢
  exact relocated_of_foldlM hrun.wellFormed hrun.linked.layout hrun.linked.table hrun.count
    (hfit.congr haddresses) hrun.linked.loop

end Results

/-! ## An example -/

/-- An object that calls `f`. -/
def callerObject : ZlImage where
  kind := imageObject
  sections := [{ name := some (CString.lit "t"), type := sectionText, flags := 0, alignment := 8,
                 address := 0, data := .bytes [1, 2, 3, 4, 0, 0, 0, 0] }]
  symbols :=
    [{ name := some (CString.lit "start"), sectionIndex := 0, value := 0, size := 8,
       binding := symbolGlobal, type := symbolFunction },
     { name := some (CString.lit "f"), sectionIndex := undefinedSection, value := 0, size := 0,
       binding := symbolGlobal, type := symbolNotype }]
  relocations := [{ sectionIndex := 0, offset := 4, type := relocationAbsolute32,
                    symbolIndex := 1, addend := 2 }]

/-- An object that defines `f`. -/
def calleeObject : ZlImage where
  kind := imageObject
  sections := [{ name := some (CString.lit "u"), type := sectionText, flags := 0, alignment := 4,
                 address := 0, data := .bytes [5, 6, 7] }]
  symbols := [{ name := some (CString.lit "f"), sectionIndex := 0, value := 1, size := 0,
                binding := symbolGlobal, type := symbolFunction }]

/-- What the two are linked to. -/
def linkedObjects : ZlImage where
  kind := imageExecutable
  entryPoint := 8
  sections :=
    [{ name := some (CString.lit "t"), type := sectionText, flags := 0, alignment := 8,
       address := 8, data := .bytes [1, 2, 3, 4, 19, 0, 0, 0] },
     { name := some (CString.lit "u"), type := sectionText, flags := 0, alignment := 4,
       address := 16, data := .bytes [5, 6, 7] }]

theorem zlLinkObjects_relocated_linkedObjects :
    DecodeTo [serialize callerObject, serialize calleeObject]
        [callerObject.normalise, calleeObject.normalise] ∧
      zlImageDecode allocAll (serialize linkedObjects) = .ok linkedObjects ∧
      Relocated [callerObject.normalise, calleeObject.normalise] linkedObjects.sections := by
  have hobjects : DecodeTo [serialize callerObject, serialize calleeObject]
      [callerObject.normalise, calleeObject.normalise] :=
    .cons ⟨by decide +kernel, rfl⟩ (.cons ⟨by decide +kernel, rfl⟩ .nil)
  have hexecutable : zlImageDecode allocAll (serialize linkedObjects) = .ok linkedObjects := by
    decide +kernel
  obtain ⟨images, executable, hdecoded, houtput, hrelocated⟩ :=
    @zlLinkObjects_relocated (fun _ => true) [serialize callerObject, serialize calleeObject] none
      (serialize linkedObjects) (by decide +kernel)
  obtain rfl := hdecoded.unique hobjects
  obtain rfl := Except.ok.inj (hexecutable.symm.trans houtput)
  exact ⟨hobjects, hexecutable, hrelocated (by decide +kernel)⟩

section Loading

variable {alloc : LinkAllocator} {objects : List Bytes} {entrySymbol : Option CString}
  {output : Bytes}

/-! ## Loading -/

/-- The ROM after loading an executable whose sections do not share a byte. -/
structure HoldsSections (executable : ZlImage) (rom rom' : Rom) : Prop where
  held : ∀ s ∈ executable.sections, ∀ j < s.dataSize, rom'.bytes[s.address.toNat + j]?
    = if s.type = sectionBss then some 0 else s.data.toBytes[j]?
  rest : ∀ address, (∀ s ∈ executable.sections, ¬s.Covers address) →
    rom'.bytes[address]? = rom.bytes[address]?

/-- **Linking, then loading.**  The output of a successful linking loads into every machine; then
the entry point is that of the selected symbol and the ROM holds the linked sections, with every
other byte as before. -/
theorem vmLoadImage_zlLinkObjects (h : zlLinkObjects alloc objects entrySymbol = .ok output)
    (vm : VirtualMachine) :
    ∃ images executable rom', DecodeTo objects images ∧
      linkImages alloc images entrySymbol = .ok executable ∧
      (∃ object index symbol, SelectsEntry images executable.sections
        (selectedEntry images entrySymbol) executable.entryPoint object index symbol) ∧
      vmLoadImage allocAll vm output
        = ({ vm with rom := rom', entryPoint := executable.entryPoint }, .ok ()) ∧
      HoldsSections executable vm.rom rom' := by
  obtain ⟨images, sections, symbols, final, executable, hlink, hrun⟩ := zlLinkObjects_linkRun h
  have hwf := hrun.wellFormed
  have hlinked := hrun.linked
  have hexecutable := hrun.executable_wellFormed
  have hkind : executable.kind = imageExecutable := by rw [hlinked.executable_eq]
  have hfits : executable.sections.all fitsRom = true :=
    List.all_eq_true.mpr fun s hs =>
      (fitsRom_iff (hexecutable.sections s hs)).mpr (hlinked.sections_wellFormed hwf s hs).2
  have hloaded := loaded_foldl vm.rom hexecutable.sections hfits
  refine ⟨images, executable, _, hrun.decoded, hlink, hrun.selectsEntry,
    vmLoadImage_eq hrun.output_eq hkind hfits, ?_⟩
  refine ⟨fun s hs j hj => ?_, hloaded.rest⟩
  obtain ⟨before, after, hsplit⟩ := List.append_of_mem hs
  have hcovers : s.Covers (s.address.toNat + j) := ⟨by omega, by omega⟩
  -- no later section covers the byte, since no other one does
  have hafter : ∀ t ∈ after, ¬t.Covers (s.address.toNat + j) := by
    have hapart := hlinked.apart hwf
    rw [hsplit, List.pairwise_append, List.pairwise_cons] at hapart
    exact fun t ht => hapart.2.1.1 t ht _ hcovers
  rw [hloaded.covered before s after _ hsplit hcovers hafter, ZlImageSection.byteAt,
    Nat.add_sub_cancel_left]

end Loading

theorem vmLoadImage_zlLinkObjects_linkedObjects :
    ∃ images executable rom', DecodeTo [serialize callerObject, serialize calleeObject] images ∧
      linkImages (fun _ => true) images none = .ok executable ∧
      (∃ object index symbol, SelectsEntry images executable.sections
        (selectedEntry images none) executable.entryPoint object index symbol) ∧
      vmLoadImage allocAll (vmInitialize 16) (serialize linkedObjects)
        = ({ vmInitialize 16 with rom := rom', entryPoint := executable.entryPoint }, .ok ()) ∧
      HoldsSections executable (vmInitialize 16).rom rom' :=
  @vmLoadImage_zlLinkObjects (fun _ => true) _ none _ (by decide +kernel) (vmInitialize 16)

end Zlvm
