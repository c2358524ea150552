import Zlvm.Program.Objects

/-!
# What label references become

From the sources to the executable: the word that an instruction with a label reference holds, and
the address that the label denotes.

* `Denotes` — the address of the label of the same object, or else of the only global label of that
  name; `LabelResolved` — the immediate field of a reference is that address.
* `denotes_of_resolves`, `LinkedObjects.denotes_unique` — the linker's symbols denote what labels do.
* `LinkedObjects.field_of_relocation`, `LinkedObjects.field_of_local` — the two kinds of references.
* **`labelResolved_iff`** — which references are resolved.
-/

namespace Zlvm

open Buffer Loop Nested

/-! ## Labels and their addresses -/

/-- A label of some line of an object. -/
structure Defines (contexts : List AssemblerContext) (object : ℕ) (name : CString)
    (line : PlacedLine) : Prop where
  listed : ∃ context, contexts[object]? = some context ∧ line ∈ context.lines
  label : line.label = some name

/-- A label that its object has declared global. -/
structure DefinesGlobal (contexts : List AssemblerContext) (object : ℕ) (name : CString)
    (line : PlacedLine) : Prop extends Defines contexts object name line where
  declared : ∃ context, contexts[object]? = some context ∧ name ∈ context.globals

/-- What a section of an object becomes, in the list of all placed sections. -/
def placedSection (contexts : List AssemblerContext) (placed : List ZlImageSection)
    (object source : ℕ) : Option ZlImageSection :=
  placed[position AssemblerContext.sections contexts object source]?

/-- The absolute address of a line: that of its section plus its offset there. -/
def lineAddress (contexts : List AssemblerContext) (placed : List ZlImageSection) (object : ℕ)
    (line : PlacedLine) : Option ℕ :=
  (placedSection contexts placed object line.sectionIndex).map fun s =>
    s.address.toNat + line.sectionOffset

/-- What a label denotes in an object: the line of that object which has it, or else the only line
of another object which has it as a global one. -/
inductive Denotes (contexts : List AssemblerContext) (placed : List ZlImageSection) (object : ℕ)
    (name : CString) (address : ℕ) : Prop
  | own (line : PlacedLine) (definition : Defines contexts object name line)
      (address_eq : lineAddress contexts placed object line = some address)
  | other (undefined : ∀ line, ¬Defines contexts object name line) (object' : ℕ)
      (line : PlacedLine) (definition : DefinesGlobal contexts object' name line)
      (address_eq : lineAddress contexts placed object' line = some address)
      (unique : ∀ object'' line', DefinesGlobal contexts object'' name line' →
        object'' = object' ∧ line' = line)

/-- The immediate field of an instruction in the executable. -/
def immediateField (contexts : List AssemblerContext) (placed : List ZlImageSection) (object : ℕ)
    (line : PlacedLine) : Option Bytes :=
  (placedSection contexts placed object line.sectionIndex).map fun s =>
    slice s.data.toBytes (line.sectionOffset + 4) 4

/-- The immediate field of a statement that refers to a label is the address the label denotes. -/
def LabelResolved (contexts : List AssemblerContext) (placed : List ZlImageSection) (object : ℕ)
    (line : PlacedLine) (name : CString) : Prop :=
  ∃ address, (∀ a, Denotes contexts placed object name a ↔ a = address) ∧
    immediateField contexts placed object line = some (LittleEndian.bytes 4 address)

/-- All sections of the objects, before they are linked. -/
def objectSections (contexts : List AssemblerContext) : List ZlImageSection :=
  (contexts.flatMap AssemblerContext.sections).map objectSection

/-- A statement of an object that refers to a label. -/
structure Refers (contexts : List AssemblerContext) (object : ℕ) (line : PlacedLine)
    (name : CString) : Prop where
  listed : ∃ context, contexts[object]? = some context ∧ line ∈ context.lines
  statement : ∃ statement token, line.body = .stmt statement ∧ statement.imm = some token ∧
    token.type = .labelUse ∧ token.value = name

/-- A label that lies in the section of the statement that refers to it. -/
def LocalReference (contexts : List AssemblerContext) (object : ℕ) (line : PlacedLine)
    (name : CString) : Prop :=
  ∃ definition, Defines contexts object name definition ∧
    definition.sectionIndex = line.sectionIndex

/-! ## A link -/

/-- Everything behind a successful link of assembled objects. -/
structure LinkedObjects (contexts : List AssemblerContext) (images : List ZlImage)
    (entrySymbol : Option CString) (sections : List LinkSection) (symbols : List ZlImageSymbol)
    (final : List LinkSection) (executable : ZlImage) : Prop where
  objects : List.Forall₂ ObjectOf contexts images
  wellFormed : ∀ image ∈ images, image.WellFormed
  linked : LinkedBy images entrySymbol sections symbols final executable
  count : sections.length ≤ uint32Max

namespace LinkedObjects

variable {contexts : List AssemblerContext} {images : List ZlImage} {entrySymbol : Option CString}
  {sections final : List LinkSection} {symbols : List ZlImageSymbol} {executable : ZlImage}

theorem placedSection_eq (h : List.Forall₂ ObjectOf contexts images)
    (placed : List ZlImageSection) (object source : ℕ) :
    placedSection contexts placed object source = linkedSection images placed object source := by
  rw [placedSection, linkedSection, position_sections h]

/-- The address of a label's symbol is that of its line. -/
theorem symbolAddress_definedSymbol (h : List.Forall₂ ObjectOf contexts images)
    (placed : List ZlImageSection) {object : ℕ} {context : AssemblerContext}
    (hcontext : contexts[object]? = some context) {line : PlacedLine} (hline : line ∈ context.lines)
    (name : CString) :
    symbolAddress images placed object (definedSymbol context line name)
      = lineAddress contexts placed object line := by
  obtain ⟨image, -, hof⟩ := objectOf_getElem? h hcontext
  obtain ⟨hdefined, hindex, hvalue⟩ :=
    definedSymbol_place hof.assembled.placement hof.counts.1 hline name
  rw [symbolAddress, if_neg hdefined, hindex, hvalue, lineAddress, placedSection_eq h]

/-- Every address of a symbol lies in the ROM. -/
theorem addressesFit (h : LinkedObjects contexts images entrySymbol sections symbols final
    executable) : AddressesFit images (sections.map (·.image)) := by
  intro object image symbol address himage hsymbol haddress
  obtain ⟨context, hcontext, hof⟩ := objectOf_getElem?_image h.objects himage
  rcases symbol_cases hof.assembled.labels hof.symbols hsymbol
    with ⟨line, hline, name, -, rfl⟩ | ⟨name, -, rfl, -⟩
  · obtain ⟨hdefined, hindex, hvalue⟩ :=
      definedSymbol_place hof.assembled.placement hof.counts.1 hline name
    obtain ⟨input, hinput, hinside, -⟩ := hof.payload hline
    obtain ⟨s, hs, hplaced⟩ := h.linked.layout.at_position himage hinput
    rw [symbolAddress, if_neg hdefined, hindex, linkedSection, List.getElem?_map, hs] at haddress
    obtain rfl := Option.some.inj haddress
    have hfits := hplaced.fits
    rw [hplaced.dataSize, romSize] at hfits
    rw [hvalue, uint32Max]
    dsimp only at hfits hinside ⊢
    omega
  · rw [symbolAddress, externalSymbol, if_pos rfl] at haddress
    cases haddress

/-- The executable holds the sections with every relocation applied. -/
theorem relocated (h : LinkedObjects contexts images entrySymbol sections symbols final
    executable) : Relocated images executable.sections := by
  rw [h.linked.sections_eq]
  exact relocated_of_foldlM h.wellFormed h.linked.layout h.linked.table h.count h.addressesFit
    h.linked.loop

/-! ## What labels denote -/

/-- A global label is a global symbol. -/
theorem globalDefinition (h : List.Forall₂ ObjectOf contexts images) {object : ℕ} {name : CString}
    {line : PlacedLine} (hdefines : DefinesGlobal contexts object name line) :
    ∃ index context, contexts[object]? = some context ∧
      GlobalDefinition images (some name) object index (definedSymbol context line name) := by
  obtain ⟨context, hcontext, hline⟩ := hdefines.listed
  obtain ⟨context', hcontext', hglobal⟩ := hdefines.declared
  obtain rfl := Option.some.inj (hcontext.symm.trans hcontext')
  obtain ⟨image, himage, hof⟩ := objectOf_getElem? h hcontext
  obtain ⟨index, hindex⟩ := List.mem_iff_getElem?.mp
    (exists_symbol hof.assembled.labels hof.symbols hline hdefines.label)
  exact ⟨index, context, hcontext, ⟨image, himage, hindex⟩,
    (binding_definedSymbol line name).mpr hglobal,
    (definedSymbol_place hof.assembled.placement hof.counts.1 hline name).1,
    name_definedSymbol line name⟩

/-- A global symbol is a global label. -/
theorem definesGlobal_of_globalDefinition (h : List.Forall₂ ObjectOf contexts images)
    {object index : ℕ} {name : CString} {y : ZlImageSymbol}
    (hglobal : GlobalDefinition images (some name) object index y) :
    ∃ line context, contexts[object]? = some context ∧ y = definedSymbol context line name ∧
      DefinesGlobal contexts object name line := by
  obtain ⟨image, himage, hindex⟩ := hglobal.listed
  obtain ⟨context, hcontext, hof⟩ := objectOf_getElem?_image h himage
  rcases symbol_cases hof.assembled.labels hof.symbols (List.mem_of_getElem? hindex)
    with ⟨line, hline, name', hlabel, rfl⟩ | ⟨name', -, rfl, -⟩
  · have hname := hglobal.name
    rw [name_definedSymbol] at hname
    obtain rfl := Option.some.inj hname
    exact ⟨line, context, hcontext, rfl, ⟨⟨context, hcontext, hline⟩, hlabel⟩, context, hcontext,
      (binding_definedSymbol line name').mp hglobal.binding⟩
  · exact absurd rfl hglobal.defined

/-- **What a symbol denotes, its label denotes.** -/
theorem denotes_of_resolves (h : List.Forall₂ ObjectOf contexts images)
    {placed : List ZlImageSection} {object : ℕ} {image : ZlImage}
    (himage : images[object]? = some image) {reference : ZlImageSymbol}
    (hreference : reference ∈ image.symbols) {name : CString} (hname : reference.name = some name)
    {address : ℕ} (hresolves : Resolves images placed object reference address) :
    Denotes contexts placed object name address := by
  obtain ⟨context, hcontext, hof⟩ := objectOf_getElem?_image h himage
  rcases symbol_cases hof.assembled.labels hof.symbols hreference
    with ⟨line, hline, name', hlabel, rfl⟩ | ⟨name', -, rfl, hundefined⟩
  · rw [name_definedSymbol] at hname
    obtain rfl := Option.some.inj hname
    have hdefined := (definedSymbol_place hof.assembled.placement hof.counts.1 hline name').1
    cases hresolves with
    | own _ address_eq =>
        rw [symbolAddress_definedSymbol h placed hcontext hline] at address_eq
        exact .own line ⟨⟨context, hcontext, hline⟩, hlabel⟩ address_eq
    | other undefined => exact absurd undefined hdefined
  · obtain rfl := Option.some.inj hname
    cases hresolves with
    | own defined => exact absurd rfl defined
    | other _ object' index' symbol definition address_eq unique =>
        obtain ⟨line, context', hcontext', rfl, hdefines⟩ :=
          definesGlobal_of_globalDefinition h definition
        obtain ⟨context'', hcontext'', hline⟩ := hdefines.listed
        obtain rfl := Option.some.inj (hcontext'.symm.trans hcontext'')
        rw [symbolAddress_definedSymbol h placed hcontext' hline] at address_eq
        refine .other (fun line' hdefines' => ?_) object' line hdefines address_eq ?_
        · obtain ⟨context₁, hcontext₁, hline'⟩ := hdefines'.listed
          obtain rfl := Option.some.inj (hcontext.symm.trans hcontext₁)
          exact hundefined line' hline' hdefines'.label
        · intro object'' line' hdefines'
          obtain ⟨index'', context₁, hcontext₁, hglobal⟩ := globalDefinition h hdefines'
          obtain ⟨hobject, -⟩ := unique object'' index'' _ hglobal
          subst hobject
          obtain rfl := Option.some.inj (hcontext'.symm.trans hcontext₁)
          obtain ⟨context₂, hcontext₂, hline'⟩ := hdefines'.listed
          obtain rfl := Option.some.inj (hcontext'.symm.trans hcontext₂)
          obtain ⟨_, -, hof'⟩ := objectOf_getElem? h hcontext'
          exact ⟨rfl, hof'.assembled.labels.eq hline' hline hdefines'.label hdefines.label⟩

/-- A label denotes one address. -/
theorem denotes_unique (h : List.Forall₂ ObjectOf contexts images) {placed : List ZlImageSection}
    {object : ℕ} {name : CString} {a b : ℕ} (ha : Denotes contexts placed object name a)
    (hb : Denotes contexts placed object name b) : a = b := by
  cases ha with
  | own line definition address_eq =>
      cases hb with
      | own line' definition' address_eq' =>
          obtain ⟨context, hcontext, hline⟩ := definition.listed
          obtain ⟨context', hcontext', hline'⟩ := definition'.listed
          obtain rfl := Option.some.inj (hcontext.symm.trans hcontext')
          obtain ⟨_, -, hof⟩ := objectOf_getElem? h hcontext
          obtain rfl := hof.assembled.labels.eq hline hline' definition.label definition'.label
          exact Option.some.inj (address_eq.symm.trans address_eq')
      | other undefined => exact absurd definition (undefined line)
  | other undefined object' line definition address_eq unique =>
      cases hb with
      | own line' definition' => exact absurd definition' (undefined line')
      | other _ object'' line' definition' address_eq' _ =>
          obtain ⟨rfl, rfl⟩ := unique object'' line' definition'
          exact Option.some.inj (address_eq.symm.trans address_eq')

/-! ## The two kinds of references -/

/-- The placed section of a line's section. -/
theorem placed_line (h : LinkedObjects contexts images entrySymbol sections symbols final
    executable) {object : ℕ} {context : AssemblerContext}
    (hcontext : contexts[object]? = some context) {line : PlacedLine}
    (hline : line ∈ context.lines) :
    ∃ s, placedSection contexts executable.sections object line.sectionIndex = some s ∧
      line.sectionOffset + line.size ≤ s.dataSize ∧
      s.address.toNat + s.dataSize ≤ romSize := by
  obtain ⟨image, himage, hof⟩ := objectOf_getElem? h.objects hcontext
  obtain ⟨input, hinput, hinside, -⟩ := hof.payload hline
  obtain ⟨s, hs, -, hsize, -⟩ := h.relocated.kept object image _ input himage hinput
  refine ⟨s, by rw [placedSection_eq h.objects, hs], by rw [hsize]; exact hinside, ?_⟩
  exact (h.linked.sections_wellFormed h.wellFormed s (List.mem_of_getElem? hs)).2

/-- **A reference to a label of another section** is relocated to what the label denotes. -/
theorem field_of_relocation (h : LinkedObjects contexts images entrySymbol sections symbols final
    executable) {object : ℕ} {context : AssemblerContext} {image : ZlImage}
    (himage : images[object]? = some image) (hof : ObjectOf context image) {line : PlacedLine}
    (hline : line ∈ context.lines) {name : CString} {index : ℕ}
    (hsymbol : findImageSymbol image.symbols name = some index)
    (hrelocation : relocationOf context image.symbols line = some (lineRelocation line index))
    (hsize : line.size = instructionSize) :
    ∃ address, Denotes contexts executable.sections object name address ∧
      immediateField contexts executable.sections object line
        = some (LittleEndian.bytes 4 address) := by
  obtain ⟨y, hy, hname⟩ := findImageSymbol_eq_some hsymbol
  obtain ⟨hsection, hoffset⟩ :=
    lineRelocation_place hof.assembled.placement hof.counts.1 hline hsize index
  have hmem : lineRelocation line index ∈ image.relocations := by
    rw [hof.relocations]
    exact List.mem_filterMap.mpr ⟨line, hline, hrelocation⟩
  obtain ⟨place, hplace⟩ := List.mem_iff_getElem?.mp hmem
  have hindex : (lineRelocation line index).symbolIndex.toNat = index := by
    have hlt := (List.getElem?_eq_some_iff.mp hy).1
    have hcount := hof.counts.2
    rw [uint32Max] at hcount
    rw [lineRelocation, UInt32.toNat_ofNat', Nat.mod_eq_of_lt (by omega)]
  -- a later relocation of the object lies behind this one
  obtain ⟨s, reference, address, hs, hreference, hresolves, hfield⟩ :=
    h.relocated.applied object image place _ himage hplace (by
      intro later r hlater hr hmeets
      obtain ⟨hi, hgeti⟩ := List.getElem?_eq_some_iff.mp hplace
      obtain ⟨hj, hgetj⟩ := List.getElem?_eq_some_iff.mp hr
      have hapart := List.pairwise_iff_getElem.mp hof.relocations_apart place later hi hj hlater
      rw [hgeti, hgetj] at hapart
      have hle := hapart (congrArg UInt32.toNat hmeets.1)
      have hlt := hmeets.2.2
      omega)
  rw [hindex, hy] at hreference
  obtain rfl := Option.some.inj hreference
  refine ⟨address, denotes_of_resolves h.objects himage (List.mem_of_getElem? hy) hname hresolves,
    ?_⟩
  rw [immediateField, placedSection_eq h.objects, ← hsection, hs, Option.map_some, ← hoffset]
  cases hfield with
  | absolute32 type low high bytes_eq =>
      rw [bytes_eq]
      have haddend : (lineRelocation line index).addend.toInt = 0 := rfl
      rw [haddend, Int.add_zero, Int.toNat_natCast]
  | pcRelative32 type =>
      refine absurd type ?_
      show relocationAbsolute32 ≠ relocationPcRelative32
      decide

/-- **A reference to a label of its own section** keeps the offset that the assembler has put
there. -/
theorem field_of_local (h : LinkedObjects contexts images entrySymbol sections symbols final
    executable) {object : ℕ} {context : AssemblerContext} {image : ZlImage}
    (himage : images[object]? = some image) (hof : ObjectOf context image) {line : PlacedLine}
    (hline : line ∈ context.lines) (hsize : line.size = instructionSize)
    (hnone : relocationOf context image.symbols line = none) {head : Bytes} {offset : ℕ}
    (hhead : head.length = 4)
    (hemitted : emitted context image.symbols line = head ++ LittleEndian.bytes 4 offset) :
    immediateField contexts executable.sections object line
      = some (LittleEndian.bytes 4 offset) := by
  obtain ⟨input, hinput, hinside, hbytes⟩ := hof.payload hline
  obtain ⟨s, hs, -, -, hkept⟩ := h.relocated.kept object image _ input himage hinput
  rw [hsize, instructionSize] at hinside hbytes
  rw [immediateField, placedSection_eq h.objects, hs, Option.map_some, Option.some.injEq]
  have hslice : slice input.data.toBytes (line.sectionOffset + 4) 4
      = LittleEndian.bytes 4 offset := by
    have hsplit := slice_add input.data.toBytes line.sectionOffset 4 4
    rw [hbytes, hemitted] at hsplit
    refine (List.append_inj hsplit ?_).2.symm
    rw [hhead, length_slice_of_le]
    have hdata := ((h.wellFormed image (List.mem_of_getElem? himage)).sections input
      (List.mem_of_getElem? hinput)).length_toBytes
    omega
  rw [← hslice]
  refine List.ext_getElem? fun i => ?_
  rw [getElem?_slice, getElem?_slice]
  by_cases hi : i < 4
  · rw [if_pos hi, if_pos hi]
    refine hkept _ fun r hr hcovers => ?_
    have hapart := hof.not_covered hline hnone hr hcovers.1
    rw [hsize, instructionSize] at hapart
    have hlow := hcovers.2.1
    have hhigh := hcovers.2.2
    omega
  · rw [if_neg hi, if_neg hi]

/-- The sections of the images start at 0 where those of the contexts do. -/
theorem startsAtZero_objectSections (h : List.Forall₂ ObjectOf contexts images) :
    (images.flatMap ZlImage.sections).map (fun s => (s.address, s.flags, s.dataSize))
      = (objectSections contexts).map fun s => (s.address, s.flags, s.dataSize) := by
  rw [objectSections]
  induction h with
  | nil => rfl
  | @cons context image contexts images hof _ ih =>
      rw [List.flatMap_cons, List.flatMap_cons, List.map_append, List.map_append, List.map_append,
        ih]
      congr 1
      refine List.ext_getElem? fun index => ?_
      rw [List.map_map, List.getElem?_map, List.getElem?_map]
      cases hs : context.sections[index]? with
      | none =>
          have hnone : image.sections[index]? = none := by
            rw [List.getElem?_eq_none_iff] at hs ⊢
            rw [hof.length_sections]
            exact hs
          rw [hnone]
          rfl
      | some s =>
          obtain ⟨data, hdata, hsize⟩ := hof.getElem?_sections hs
          rw [hdata, Option.map_some, Option.map_some, Option.some.injEq]
          show (s.address, s.flags, data.size) = (s.address, s.flags, (objectSection s).dataSize)
          rw [hsize, dataSize_objectSection]

/-- **Which sections lie at address 0.** -/
theorem address_eq_zero_iff (h : LinkedObjects contexts images entrySymbol sections symbols final
    executable) {object source : ℕ} {s : ZlImageSection}
    (hs : placedSection contexts executable.sections object source = some s) :
    s.address = 0 ↔ StartsAtZero (objectSections contexts)
      (position AssemblerContext.sections contexts object source) := by
  have hget : (executable.sections.map (·.address))[
      position AssemblerContext.sections contexts object source]? = some s.address := by
    rw [List.getElem?_map, show executable.sections[_]? = some s from hs]
    rfl
  rw [h.linked.sections_eq, h.linked.addresses h.wellFormed, List.getElem?_map,
    List.getElem?_map, Option.map_map] at hget
  obtain ⟨t, ht, hst⟩ := Option.map_eq_some_iff.mp hget
  have hiff := h.linked.layout.startsAtZero_iff h.linked.chosen (by
    intro input hinput
    obtain ⟨image, himage, hmem⟩ := List.mem_flatMap.mp hinput
    exact ((h.wellFormed image himage).sections input hmem).alignment) _ t ht
  rw [show t.image.address = s.address from hst] at hiff
  rw [hiff]
  have hsame := startsAtZero_objectSections h.objects
  exact ⟨fun hstarts => hstarts.congr hsame, fun hstarts => hstarts.congr hsame.symm⟩

end LinkedObjects

/-! ## Label resolution -/

section Results

variable {sources : List CString} {objects : List Bytes} {alloc : LinkAllocator}
  {entrySymbol : Option CString} {output : Bytes}

/-- A successful link of assembled objects. -/
theorem linkedObjects_of_zlLinkObjects (hobjects : List.Forall₂ AssemblesTo sources objects)
    (hlink : zlLinkObjects alloc objects entrySymbol = .ok output) :
    ∃ contexts images sections symbols final executable,
      List.Forall₂ (fun source context => assembleContext source = .ok context) sources contexts ∧
      zlImageDecode allocAll output = .ok executable ∧
      LinkedObjects contexts images entrySymbol sections symbols final executable := by
  obtain ⟨images, sections, symbols, final, executable, -, hrun⟩ := zlLinkObjects_linkRun hlink
  obtain ⟨contexts, hcontexts, hall⟩ := objectsOf hobjects hrun.decoded
  exact ⟨contexts, images, sections, symbols, final, executable, hcontexts, hrun.output_eq,
    hall, hrun.wellFormed, hrun.linked, hrun.count⟩

/-- **Label resolution.**  In the executable of a successful link of assembled sources, a reference
to a label of another section or object holds the address that the label denotes; a reference to a
label of its own section does so exactly if that section starts at address 0. -/
theorem labelResolved_iff (hobjects : List.Forall₂ AssemblesTo sources objects)
    (hlink : zlLinkObjects alloc objects entrySymbol = .ok output) :
    ∃ contexts executable,
      List.Forall₂ (fun source context => assembleContext source = .ok context) sources contexts ∧
      zlImageDecode allocAll output = .ok executable ∧
      ∀ object line name, Refers contexts object line name →
        (LabelResolved contexts executable.sections object line name ↔
          (LocalReference contexts object line name → StartsAtZero (objectSections contexts)
            (position AssemblerContext.sections contexts object line.sectionIndex))) := by
  obtain ⟨contexts, images, sections, symbols, final, executable, hcontexts, hdecode, h⟩ :=
    linkedObjects_of_zlLinkObjects hobjects hlink
  refine ⟨contexts, executable, hcontexts, hdecode, fun object line name hrefers => ?_⟩
  obtain ⟨context, hcontext, hline⟩ := hrefers.listed
  obtain ⟨statement, token, hbody, himm, htype, rfl⟩ := hrefers.statement
  obtain ⟨image, himage, hof⟩ := objectOf_getElem? h.objects hcontext
  obtain ⟨bytes, symbol, hbytes⟩ := hof.translated hline
  have hsize : line.size = instructionSize := by
    rw [PlacedLine.size, hbody]
    rfl
  rcases lineBytes_reference hbytes hbody himm htype
    with ⟨offset, head, hfind, rfl, hhead, rfl⟩ | ⟨hfind, index, hsymbol, rfl⟩
  · -- a label of the same section: the field is its offset
    obtain ⟨definition, hdefinition, hsection, hlabel, rfl⟩ := findSymbolLine_eq_some hfind
    have hnone : relocationOf context image.symbols line = none := by
      rw [relocationOf, hbytes]
      rfl
    have hfield := h.field_of_local himage hof hline hsize hnone hhead
      (by rw [emitted, hbytes])
    obtain ⟨s, hs, hinside, hfits⟩ := h.placed_line hcontext hdefinition
    rw [romSize] at hfits
    have hoffset : (UInt32.ofNat definition.sectionOffset).toNat = definition.sectionOffset := by
      rw [UInt32.toNat_ofNat', Nat.mod_eq_of_lt (by omega)]
    rw [hoffset] at hfield
    have hdefines : Defines contexts object token.value definition :=
      ⟨⟨context, hcontext, hdefinition⟩, hlabel⟩
    have hdenotes : Denotes contexts executable.sections object token.value
        (s.address.toNat + definition.sectionOffset) := by
      refine .own definition hdefines ?_
      rw [lineAddress, hs]
      rfl
    have hzero := h.address_eq_zero_iff hs
    rw [hsection] at hzero
    constructor
    · rintro ⟨address, hunique, hfield'⟩ -
      obtain rfl := (hunique _).mp hdenotes
      have hvalue := congrArg LittleEndian.value
        (Option.some.inj (hfield.symm.trans hfield'))
      rw [LittleEndian.value_bytes_of_lt (by omega),
        LittleEndian.value_bytes_of_lt (by omega)] at hvalue
      have hzero' : (0 : Word).toNat = 0 := rfl
      exact hzero.mp (UInt32.toNat_inj.mp (by rw [hzero']; omega))
    · intro hstarts
      have haddress := hzero.mpr (hstarts ⟨definition, hdefines, hsection⟩)
      refine ⟨_, fun a => ⟨fun ha => LinkedObjects.denotes_unique h.objects ha hdenotes,
        fun ha => ha ▸ hdenotes⟩, ?_⟩
      rw [hfield, haddress]
      exact congrArg (fun a => some (LittleEndian.bytes 4 a)) (Nat.zero_add _).symm
  · -- any other label: the field is relocated
    have hrelocation : relocationOf context image.symbols line
        = some (lineRelocation line index) := by
      rw [relocationOf, hbytes]
      rfl
    obtain ⟨address, hdenotes, hfield⟩ :=
      h.field_of_relocation himage hof hline hsymbol hrelocation hsize
    refine iff_of_true ⟨address, fun a => ⟨fun ha =>
      LinkedObjects.denotes_unique h.objects ha hdenotes, fun ha => ha ▸ hdenotes⟩, hfield⟩ ?_
    rintro ⟨definition, hdefines, hsection⟩
    obtain ⟨context', hcontext', hdefinition⟩ := hdefines.listed
    obtain rfl := Option.some.inj (hcontext.symm.trans hcontext')
    exact absurd hsection
      (findSymbolLine_eq_none.mp hfind definition hdefinition hdefines.label)

end Results

/-! ## A jump to itself -/

/-- The only instruction of the first section, which the linker does not place at address 0. -/
def selfJump : CString := CString.lit "start: jmp #start"

def selfJumpLine : PlacedLine where
  label := some (CString.lit "start")
  body := .stmt {
    opcode := ⟨.id, CString.lit "jmp", 7, 1, 8, 3⟩
    cond := none
    reg1 := none
    reg2 := none
    imm := some ⟨.labelUse, CString.lit "start", 11, 1, 12, 6⟩ }
  sectionIndex := 0
  sectionOffset := 0

def selfJumpContext : AssemblerContext where
  entry := none
  globals := []
  externals := []
  lines := [selfJumpLine]
  sections := [{ newSection (CString.lit "text") with size := 8 }]
  currentSection := 0
  selected := by simp

def selfJumpObject : ZlImage where
  kind := imageObject
  sections := [{ name := some (CString.lit "text"), type := sectionText, flags := 0, alignment := 1,
                 address := 0, data := .bytes [20, 0, 0, 0, 0, 0, 0, 0] }]
  symbols := [{ name := some (CString.lit "start"), sectionIndex := 0, value := 0, size := 0,
                binding := symbolLocal, type := symbolFunction }]

def selfJumpExecutable : ZlImage where
  kind := imageExecutable
  entryPoint := 8
  sections := [{ name := some (CString.lit "text"), type := sectionText, flags := 0, alignment := 1,
                 address := 8, data := .bytes [20, 0, 0, 0, 0, 0, 0, 0] }]

theorem labelResolved_iff_selfJump :
    ∃ contexts executable,
      List.Forall₂ (fun source context => assembleContext source = .ok context) [selfJump]
        contexts ∧
      zlImageDecode allocAll (serialize selfJumpExecutable) = .ok executable ∧
      ∀ object line name, Refers contexts object line name →
        (LabelResolved contexts executable.sections object line name ↔
          (LocalReference contexts object line name → StartsAtZero (objectSections contexts)
            (position AssemblerContext.sections contexts object line.sectionIndex))) :=
  @labelResolved_iff [selfJump] [serialize selfJumpObject] (fun _ => true) none
    (serialize selfJumpExecutable) (.cons ⟨true, none, by decide +kernel⟩ .nil)
    (by decide +kernel)

/-- **A reference that is not resolved**: `start` lies at address 8, and the jump goes to 0. -/
theorem selfJump_not_labelResolved :
    zlasmAssembleObject true selfJump none = .ok (serialize selfJumpObject) ∧
      zlLinkObjects (fun _ => true) [serialize selfJumpObject] none
        = .ok (serialize selfJumpExecutable) ∧
      zlImageDecode allocAll (serialize selfJumpExecutable) = .ok selfJumpExecutable ∧
      assembleContext selfJump = .ok selfJumpContext ∧
      Refers [selfJumpContext] 0 selfJumpLine (CString.lit "start") ∧
      Denotes [selfJumpContext] selfJumpExecutable.sections 0 (CString.lit "start") 8 ∧
      immediateField [selfJumpContext] selfJumpExecutable.sections 0 selfJumpLine
        = some [0, 0, 0, 0] ∧
      ¬LabelResolved [selfJumpContext] selfJumpExecutable.sections 0 selfJumpLine
        (CString.lit "start") := by
  have hdenotes : Denotes [selfJumpContext] selfJumpExecutable.sections 0 (CString.lit "start") 8 :=
    .own selfJumpLine ⟨⟨selfJumpContext, rfl, List.mem_singleton.mpr rfl⟩, rfl⟩ rfl
  refine ⟨by decide +kernel, by decide +kernel, by decide +kernel, by decide +kernel,
    ⟨⟨selfJumpContext, rfl, List.mem_singleton.mpr rfl⟩, _, _, rfl, rfl, rfl, rfl⟩, hdenotes, rfl,
    ?_⟩
  rintro ⟨address, hunique, hfield⟩
  obtain rfl := (hunique 8).mp hdenotes
  exact absurd hfield (by decide)

end Zlvm
