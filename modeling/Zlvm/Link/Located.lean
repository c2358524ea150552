import Zlvm.Link.Executable

/-!
# Linking located objects

Where every section has an address of its own, what the linker makes of an object depends on the
other objects through the global definitions only.

* `definitions` — the symbols that the objects define, at their addresses in the executable.
* `ZlImage.word`, `ZlImage.linkedSections` — what the relocations of an object write, and its
  sections afterwards.
* `Linkable`, `merged` — when the objects are linked, and to what.
* **`linkImages_located`** — this is what the linker does.
-/

namespace Zlvm

open Buffer Loop Nested

/-! ## The executable, object by object -/

/-- A symbol that its object defines, at its address in the executable. -/
structure Definition where
  name : Option CString
  binding : Byte
  value : Word

/-- The definition that a symbol of an object is. -/
def ZlImage.definition (image : ZlImage) (symbol : ZlImageSymbol) : Option Definition :=
  if symbol.sectionIndex = undefinedSection then none
  else (image.sections[symbol.sectionIndex.toNat]?).map fun s =>
    ⟨symbol.name, symbol.binding, symbol.value + s.address⟩

def definitions (images : List ZlImage) : List Definition :=
  images.flatMap fun image => image.symbols.filterMap image.definition

/-- A definition is global and has the name. -/
def Definition.isGlobal (name : Option CString) (definition : Definition) : Bool :=
  definition.binding == symbolGlobal && definition.name == name

/-- The value of the first global definition of a name. -/
def globalValue (definitions : List Definition) (name : Option CString) : Option Word :=
  (definitions.find? (Definition.isGlobal name)).map (·.value)

/-- The value of the first definition of a name, or 0. -/
def entryValue (definitions : List Definition) (name : CString) : Word :=
  ((definitions.find? fun definition => definition.name == some name).map (·.value)).getD 0

section Object

variable (globals : Option CString → Option Word) (image : ZlImage)

/-- The value of the symbol a relocation of the object refers to. -/
def ZlImage.symbolValue (reference : ZlImageSymbol) : Option ℕ :=
  if reference.sectionIndex ≠ undefinedSection then
    (image.sections[reference.sectionIndex.toNat]?).map fun s =>
      s.address.toNat + reference.value.toNat
  else (globals reference.name).map (·.toNat)

/-- The word a relocation of the object writes. -/
def ZlImage.word (r : ZlImageRelocation) : Option Word := do
  let s ← image.sections[r.sectionIndex.toNat]?
  let reference ← image.symbols[r.symbolIndex.toNat]?
  let symbolValue ← image.symbolValue globals reference
  let value : ℤ := symbolValue + r.addend.toInt
  let value : ℤ := if r.type = relocationPcRelative32
    then value - (s.address.toNat + r.offset.toNat : ℕ) else value
  if (if r.type = relocationPcRelative32 then -0x80000000 ≤ value ∧ value ≤ 0x7FFFFFFF
      else 0 ≤ value ∧ value ≤ uint32Max) ∧ r.offset.toNat ≤ s.dataSize ∧
      4 ≤ s.dataSize - r.offset.toNat then
    some (UInt32.ofInt value)
  else none

/-- The words written into a section of the object, with their offsets. -/
def ZlImage.words (source : ℕ) : List (ℕ × Word) :=
  image.relocations.filterMap fun r =>
    if r.sectionIndex.toNat = source then (image.word globals r).map (r.offset.toNat, ·) else none

/-- A section of the object after the linking. -/
def ZlImage.linkedSection (s : ZlImageSection) (source : ℕ) : ZlImageSection :=
  { s with data := .bytes (patchedBytes s.data.toBytes (image.words globals source)) }

/-- The sections of the object after the linking. -/
def ZlImage.linkedSections : List ZlImageSection :=
  image.sections.zipIdx.map fun (s, source) => image.linkedSection globals s source

end Object

/-- Two sections that share no byte, and none of which is empty inside the other. -/
def ZlImageSection.Apart (s t : ZlImageSection) : Prop :=
  s.address.toNat + s.dataSize ≤ t.address.toNat ∨ t.address.toNat + t.dataSize ≤ s.address.toNat

/-- The executable that located objects are linked to. -/
def merged (images : List ZlImage) (name : CString) : ZlImage where
  kind := imageExecutable
  entryPoint := entryValue (definitions images) name
  sections := images.flatMap (ZlImage.linkedSections (globalValue (definitions images)))

/-- The located objects that are linked. -/
structure Linkable (images : List ZlImage) (name : CString) : Prop where
  fits : ∀ s ∈ images.flatMap ZlImage.sections, s.address.toNat + s.dataSize ≤ romSize
  apart : (images.flatMap ZlImage.sections).Pairwise ZlImageSection.Apart
  distinct : ∀ name, (definitions images).countP (Definition.isGlobal name) ≤ 1
  relocates : ∀ image ∈ images, ∀ r ∈ image.relocations,
    image.word (globalValue (definitions images)) r ≠ none
  entry : entryValue (definitions images) name ≠ 0

/-- Every section has an address of its own. -/
def Located (images : List ZlImage) : Prop :=
  ∀ image ∈ images, ∀ s ∈ image.sections, s.flags &&& 1 ≠ 0

/-! ## Layout -/

/-- The link section of a located section. -/
def linkSection (visit : Visit ZlImage ZlImageSection) : LinkSection where
  image := visit.inner
  objectIndex := visit.outerIndex
  sourceIndex := visit.innerIndex

/-- The table of all sections, where each is located. -/
def locatedTable (images : List ZlImage) : List LinkSection :=
  (visits ZlImage.sections images).map linkSection

theorem map_image_locatedTable (images : List ZlImage) :
    (locatedTable images).map (·.image) = images.flatMap ZlImage.sections := by
  rw [locatedTable, List.map_map, ← map_inner_visits]
  rfl

theorem length_locatedTable (images : List ZlImage) :
    (locatedTable images).length = (images.flatMap ZlImage.sections).length := by
  rw [← map_image_locatedTable, List.length_map]

theorem Located.not_automatic {images : List ZlImage} (h : Located images)
    {v : Visit ZlImage ZlImageSection} (hv : v ∈ visits ZlImage.sections images) :
    ¬v.inner.Automatic := by
  obtain ⟨himage, hinner⟩ := mem_visits.mp hv
  exact fun hauto => h _ (List.mem_of_getElem? himage) _ (List.mem_of_getElem? hinner) hauto.2

theorem Placed.eq_linkSection {v : Visit ZlImage ZlImageSection} {s : LinkSection}
    (h : Placed v s) (hfixed : ¬v.inner.Automatic) : s = linkSection v := by
  have himage : s.image = v.inner := by
    rw [h.image, h.fixed hfixed]
  obtain ⟨image, object, source⟩ := s
  obtain rfl : image = v.inner := himage
  obtain rfl : object = v.outerIndex := h.object
  obtain rfl : source = v.innerIndex := h.source
  rfl

/-- **The layout loop** leaves located sections where they are. -/
theorem Layout.located {images : List ZlImage} {sections : List LinkSection}
    (h : Layout images sections) (hlocated : Located images) : sections = locatedTable images := by
  have hplaced : List.Forall₂ (fun v s => linkSection v = s) (visits ZlImage.sections images)
      sections := by
    refine List.forall₂_iff_get.mpr ⟨h.placed.length_eq, fun index hv hs => ?_⟩
    have hget := h.placed.get hv hs
    exact (hget.eq_linkSection (hlocated.not_automatic (List.getElem_mem hv))).symm
  rw [← List.forall₂_map_left_iff, List.forall₂_eq_eq_eq] at hplaced
  exact hplaced.symm

/-- **The layout loop succeeds** for located sections that fit and are apart. -/
theorem layout_located {images : List ZlImage} (hlocated : Located images)
    (hfits : ∀ s ∈ images.flatMap ZlImage.sections, s.address.toNat + s.dataSize ≤ romSize)
    (hapart : (images.flatMap ZlImage.sections).Pairwise ZlImageSection.Apart) :
    ∃ state, (visits ZlImage.sections images).foldlM placeSection { sections := [], cursor := 8 }
      = .ok state ∧ state.sections = locatedTable images := by
  refine foldlM_progress (fun done (state : LayoutState) => state.sections = done.map linkSection)
    rfl fun done visit rest state hsplit hstate => ?_
  have hvisit : visit ∈ visits ZlImage.sections images := by
    rw [hsplit]
    simp
  have haddress : chooseAddress state.cursor visit.inner = .ok visit.inner.address := by
    rw [chooseAddress, if_neg (hlocated.not_automatic hvisit)]
    rfl
  have hfit := hfits visit.inner (by
    rw [← map_inner_visits]
    exact List.mem_map_of_mem hvisit)
  have hoverlaps : overlaps state.sections visit.inner.address visit.inner.dataSize = false := by
    rw [← map_inner_visits, hsplit, List.map_append, List.map_cons, List.pairwise_append] at hapart
    rw [overlaps, List.any_eq_false, hstate]
    intro s hs
    obtain ⟨v, hv, rfl⟩ := List.mem_map.mp hs
    have hclear : v.inner.Apart visit.inner :=
      hapart.2.2 _ (List.mem_map_of_mem hv) _ List.mem_cons_self
    simp only [Bool.and_eq_true, decide_eq_true_eq, not_and_or, Nat.not_lt]
    exact hclear
  refine ⟨⟨state.sections ++ [linkSection visit],
    UInt32.ofNat (visit.inner.address.toNat + visit.inner.dataSize)⟩, ?_, ?_⟩
  · rw [placeSection, haddress, ok_bind, require_of ⟨hfit, hoverlaps⟩, ok_bind]
    rfl
  · rw [hstate, List.map_append]
    rfl

/-! ## Symbols -/

/-- The definition that an entry of the symbol table is. -/
def ZlImageSymbol.toDefinition (symbol : ZlImageSymbol) : Option Definition :=
  if symbol.sectionIndex = undefinedSection then none
  else some ⟨symbol.name, symbol.binding, symbol.value⟩

theorem any_isGlobal_toDefinition (name : Option CString) (symbol : ZlImageSymbol) :
    symbol.toDefinition.any (Definition.isGlobal name)
      = (symbol.name == name && definesGlobal symbol) := by
  by_cases hdefined : symbol.sectionIndex = undefinedSection
  · simp [ZlImageSymbol.toDefinition, definesGlobal, hdefined]
  · have hne : (symbol.sectionIndex != undefinedSection) = true := bne_iff_ne.mpr hdefined
    rw [ZlImageSymbol.toDefinition, if_neg hdefined, Option.any_some, definesGlobal, hne,
      Bool.and_true, Definition.isGlobal, Bool.and_comm]

/-- What a relocation finds in the table. -/
theorem find?_definesGlobal (symbols : List ZlImageSymbol) (name : Option CString) :
    (symbols.find? fun symbol => symbol.name == name && definesGlobal symbol).map (·.value)
      = globalValue (symbols.filterMap ZlImageSymbol.toDefinition) name := by
  rw [globalValue, List.find?_filterMap]
  simp only [any_isGlobal_toDefinition]
  cases hfind : symbols.find? fun symbol => symbol.name == name && definesGlobal symbol with
  | none => rfl
  | some symbol =>
      have hdefines := List.find?_some hfind
      simp only [Bool.and_eq_true, definesGlobal, bne_iff_ne] at hdefines
      simp [ZlImageSymbol.toDefinition, hdefines.2.2]

/-- What the search for the entry finds in the table. -/
theorem findEntry_eq (symbols : List ZlImageSymbol) (name : CString) :
    findEntry symbols name = entryValue (symbols.filterMap ZlImageSymbol.toDefinition) name := by
  have hany : ∀ symbol : ZlImageSymbol,
      symbol.toDefinition.any (fun definition => definition.name == some name)
        = (symbol.sectionIndex != undefinedSection && symbol.name == some name) := by
    intro symbol
    by_cases hdefined : symbol.sectionIndex = undefinedSection
    · simp [ZlImageSymbol.toDefinition, hdefined]
    · simp [ZlImageSymbol.toDefinition, hdefined]
  rw [findEntry, entryValue, List.find?_filterMap]
  simp only [hany]
  cases hfind : symbols.find? fun symbol =>
      symbol.sectionIndex != undefinedSection && symbol.name == some name with
  | none => rfl
  | some symbol =>
      have hdefined := List.find?_some hfind
      simp only [Bool.and_eq_true, bne_iff_ne] at hdefined
      simp [ZlImageSymbol.toDefinition, hdefined.1]

/-- At most one entry of a list satisfies a condition that no two entries do. -/
theorem countP_le_one_of_pairwise {α : Type} {p : α → Bool} : ∀ {l : List α},
    l.Pairwise (fun a b => ¬(p a = true ∧ p b = true)) → l.countP p ≤ 1
  | [], _ => Nat.zero_le _
  | a :: l, h => by
      obtain ⟨hfirst, hrest⟩ := List.pairwise_cons.mp h
      by_cases ha : p a = true
      · have hzero : l.countP p = 0 := List.countP_eq_zero.mpr fun b hb hpb => hfirst b hb ⟨ha, hpb⟩
        rw [List.countP_cons_of_pos ha, hzero]
      · rw [List.countP_cons_of_neg ha]
        exact countP_le_one_of_pairwise hrest

/-- Some definition of a table satisfies a condition. -/
theorem countP_filterMap_pos {α β : Type} {f : α → Option β} {p : β → Bool} {l : List α} {a : α}
    (ha : a ∈ l) (h : (f a).any p = true) : 0 < (l.filterMap f).countP p := by
  cases hb : f a with
  | none => simp [hb] at h
  | some b =>
      rw [hb, Option.any_some] at h
      exact List.countP_pos_iff.mpr ⟨b, List.mem_filterMap.mpr ⟨a, ha, hb⟩, h⟩

section Symbols

variable {images : List ZlImage} (hlayout : Layout images (locatedTable images))
  (hcount : (locatedTable images).length ≤ uint32Max) (hwf : ∀ image ∈ images, image.WellFormed)

/-- A section of an object in the table. -/
theorem getElem?_locatedTable {object source : ℕ} {image : ZlImage} {s : ZlImageSection}
    (himage : images[object]? = some image) (hs : image.sections[source]? = some s) :
    (locatedTable images)[position ZlImage.sections images object source]?
      = some ⟨s, object, source⟩ := by
  rw [locatedTable, List.getElem?_map, getElem?_position himage hs]
  rfl

include hlayout hcount hwf

/-- **The translation of a symbol** is the definition that it is. -/
theorem translateSymbol_located {v : Visit ZlImage ZlImageSymbol}
    (hv : v ∈ visits ZlImage.symbols images) :
    ∃ symbol, translateSymbol (locatedTable images) v.inner v.outerIndex = .ok symbol ∧
      symbol.toDefinition = v.outer.definition v.inner := by
  obtain ⟨himage, hinner⟩ := mem_visits.mp hv
  by_cases hdefined : v.inner.sectionIndex = undefinedSection
  · refine ⟨v.inner, ?_, ?_⟩
    · rw [translateSymbol, if_neg (not_not.mpr hdefined)]
      rfl
    · rw [ZlImageSymbol.toDefinition, ZlImage.definition, if_pos hdefined, if_pos hdefined]
  · have hvalid := ((hwf _ (List.mem_of_getElem? himage)).symbols _
      (List.mem_of_getElem? hinner)).sectionIndex.resolve_left hdefined
    have hs := List.getElem?_eq_getElem hvalid
    have hfind := hlayout.findSection_eq himage hs
    have htable := getElem?_locatedTable himage hs
    have hlt := (List.getElem?_eq_some_iff.mp htable).1
    refine ⟨_, by rw [translateSymbol, if_pos hdefined, hfind]; rfl, ?_⟩
    have hindex : UInt32.ofNat (position ZlImage.sections images v.outerIndex
        v.inner.sectionIndex.toNat) ≠ undefinedSection := by
      intro hundef
      have htoNat := congrArg UInt32.toNat hundef
      simp only [UInt32.toNat_ofNat', undefinedSection, UInt32.reduceToNat] at htoNat
      rw [uint32Max] at hcount
      omega
    rw [ZlImageSymbol.toDefinition, ZlImage.definition, if_neg hindex, if_neg hdefined, hs,
      addressAt_eq htable]
    rfl

/-- **The symbol loop** collects the definitions of the objects. -/
theorem filterMap_toDefinition {symbols : List ZlImageSymbol}
    (htable : SymbolTable images (locatedTable images) symbols) :
    symbols.filterMap ZlImageSymbol.toDefinition = definitions images := by
  have hmap : (visits ZlImage.symbols images).map (fun v => v.outer.definition v.inner)
      = symbols.map ZlImageSymbol.toDefinition := by
    rw [← List.forall₂_eq_eq_eq, List.forall₂_map_left_iff, List.forall₂_map_right_iff,
      List.forall₂_iff_get]
    refine ⟨htable.translated.length_eq, fun index hv hs => ?_⟩
    obtain ⟨symbol, hsymbol, hdefinition⟩ :=
      translateSymbol_located hlayout hcount hwf (List.getElem_mem hv)
    have hsymbol' := htable.translated.get hv hs
    obtain rfl := Except.ok.inj (hsymbol.symm.trans hsymbol')
    exact hdefinition.symm
  have hcollect := congrArg (List.filterMap id) hmap
  rw [List.filterMap_map, List.filterMap_map, Function.id_comp, Function.id_comp] at hcollect
  rw [← hcollect, definitions, filterMap_visits]

/-- **The symbol loop succeeds** when no name has two global definitions. -/
theorem symbols_located
    (hdistinct : ∀ name, (definitions images).countP (Definition.isGlobal name) ≤ 1) :
    ∃ symbols, (visits ZlImage.symbols images).foldlM (collectSymbol (locatedTable images)) []
      = .ok symbols := by
  have hprogress := foldlM_progress (f := collectSymbol (locatedTable images))
    (fun done (symbols : List ZlImageSymbol) => symbols.filterMap ZlImageSymbol.toDefinition
      = done.filterMap fun v => v.outer.definition v.inner)
    (l := visits ZlImage.symbols images) (b := []) rfl ?_
  · obtain ⟨symbols, hsymbols, -⟩ := hprogress
    exact ⟨symbols, hsymbols⟩
  · intro done v rest symbols hsplit hsymbols
    obtain ⟨symbol, hsymbol, hdefinition⟩ := translateSymbol_located hlayout hcount hwf
      (v := v) (by rw [hsplit]; simp)
    have hnew : ¬(definesGlobal symbol ∧
        symbols.any fun existing => definesGlobal existing && existing.name == symbol.name) := by
      rintro ⟨hdefines, hany⟩
      obtain ⟨existing, hmem, hexisting⟩ := List.any_eq_true.mp hany
      rw [Bool.and_comm, ← any_isGlobal_toDefinition] at hexisting
      have hself : (v.outer.definition v.inner).any (Definition.isGlobal symbol.name) = true := by
        rw [← hdefinition, any_isGlobal_toDefinition, hdefines]
        simp
      have hbefore := countP_filterMap_pos hmem hexisting
      have hafter := countP_filterMap_pos (f := fun v : Visit ZlImage ZlImageSymbol =>
        v.outer.definition v.inner) (List.mem_cons_self (l := rest)) hself
      have hone := hdistinct symbol.name
      rw [definitions, ← filterMap_visits, hsplit, List.filterMap_append, List.countP_append,
        ← hsymbols] at hone
      omega
    refine ⟨symbols ++ [symbol], ?_, ?_⟩
    · rw [collectSymbol, hsymbol, ok_bind, require_of hnew]
      rfl
    · rw [List.filterMap_append, List.filterMap_append, hsymbols, List.filterMap_cons,
        List.filterMap_cons, hdefinition]
      rfl

/-- **No name has two global definitions** when the symbol loop succeeds. -/
theorem distinct_located {symbols : List ZlImageSymbol}
    (htable : SymbolTable images (locatedTable images) symbols) (name : Option CString) :
    (definitions images).countP (Definition.isGlobal name) ≤ 1 := by
  rw [← filterMap_toDefinition hlayout hcount hwf htable]
  refine countP_le_one_of_pairwise (List.pairwise_filterMap.mpr (htable.distinct.imp ?_))
  rintro a b hdistinct d hd d' hd' ⟨hp, hp'⟩
  have hany := any_isGlobal_toDefinition name a
  have hany' := any_isGlobal_toDefinition name b
  rw [hd, Option.any_some, hp, eq_comm, Bool.and_eq_true, beq_iff_eq] at hany
  rw [hd', Option.any_some, hp', eq_comm, Bool.and_eq_true, beq_iff_eq] at hany'
  exact hdistinct ⟨hany.2, hany'.2, hany.1.trans hany'.1.symm⟩

end Symbols

/-! ## Relocations -/

/-- A relocation that writes a word has a section. -/
theorem ZlImage.section_of_word {globals : Option CString → Option Word} {image : ZlImage}
    {r : ZlImageRelocation} {w : Word} (h : image.word globals r = some w) :
    ∃ s, image.sections[r.sectionIndex.toNat]? = some s := by
  simp only [ZlImage.word, Option.bind_eq_bind, Option.bind_eq_some_iff] at h
  obtain ⟨s, hs, -⟩ := h
  exact ⟨s, hs⟩

section Relocations

variable {images : List ZlImage} (hlayout : Layout images (locatedTable images))
  {symbols : List ZlImageSymbol} {globals : Option CString → Option Word}
  (hglobals : ∀ name, (symbols.find? fun symbol =>
    symbol.name == name && definesGlobal symbol).map (·.value) = globals name)
include hlayout

/-- `find_section` finds a section exactly if the object has it. -/
theorem findSection_located {object : ℕ} {image : ZlImage} (himage : images[object]? = some image)
    (source : ℕ) : findSection (locatedTable images) object source
      = (image.sections[source]?).map fun _ => position ZlImage.sections images object source := by
  cases hs : image.sections[source]? with
  | some s => exact hlayout.findSection_eq himage hs
  | none =>
      refine Option.eq_none_iff_forall_ne_some.mpr fun index hfind => ?_
      obtain ⟨image', s, himage', hs', -⟩ := hlayout.of_findSection hfind
      obtain rfl := Option.some.inj (himage.symm.trans himage')
      rw [hs] at hs'
      cases hs'

include hglobals

/-- The value of a symbol that a relocation refers to. -/
theorem referenceValue_located {object value : ℕ} {image : ZlImage} {reference : ZlImageSymbol}
    (himage : images[object]? = some image) :
    referenceValue (locatedTable images) symbols reference object = .ok value ↔
      image.symbolValue globals reference = some value := by
  by_cases hdefined : reference.sectionIndex ≠ undefinedSection
  · rw [referenceValue, ZlImage.symbolValue, if_pos hdefined, if_pos hdefined,
      findSection_located hlayout himage]
    cases hs : image.sections[reference.sectionIndex.toNat]? with
    | none => simp [orElse]
    | some s =>
        rw [Option.map_some, Option.map_some, orElse, ok_bind,
          addressAt_eq (getElem?_locatedTable himage hs)]
        exact ⟨fun h => congrArg some (Except.ok.inj h), fun h => congrArg _ (Option.some.inj h)⟩
  · rw [referenceValue, ZlImage.symbolValue, if_neg hdefined, if_neg hdefined]
    simp only [bind_eq_ok, orElse_eq_ok, ← hglobals, Option.map_map, Option.map_eq_some_iff]
    constructor
    · rintro ⟨symbol, hfind, hvalue⟩
      exact ⟨symbol, hfind, Except.ok.inj hvalue⟩
    · rintro ⟨symbol, hfind, rfl⟩
      exact ⟨symbol, hfind, rfl⟩

/-- **A relocation** of an object, in terms of the object alone. -/
theorem relocation_located {v : Visit ZlImage ZlImageRelocation}
    (himage : images[v.outerIndex]? = some v.outer) {index : ℕ} {w : Word} :
    relocation symbols (locatedTable images) v = .ok (index, w) ↔
      index = position ZlImage.sections images v.outerIndex v.inner.sectionIndex.toNat ∧
        v.outer.word globals v.inner = some w := by
  simp only [relocation, ZlImage.word, findSection_located hlayout himage]
  cases hs : v.outer.sections[v.inner.sectionIndex.toNat]? with
  | none => simp [orElse]
  | some s =>
      have htable := getElem?_locatedTable himage hs
      have hsize : sizeAt (locatedTable images)
          (position ZlImage.sections images v.outerIndex v.inner.sectionIndex.toNat)
            = s.dataSize := by
        rw [sizeAt, htable]
        rfl
      simp only [bind_eq_ok, orElse_eq_ok, require_eq_ok, Option.map_some, Option.some.injEq,
        referenceValue_located hlayout hglobals himage, exists_eq_left', addressAt_eq htable, hsize,
        Option.bind_eq_bind, Option.bind_some, Option.bind_eq_some_iff]
      constructor
      · rintro ⟨reference, hreference, value, hvalue, -, hrange, -, hroom, hok⟩
        obtain ⟨rfl, rfl⟩ := Prod.mk.inj (Except.ok.inj hok)
        exact ⟨rfl, reference, hreference, value, hvalue, if_pos ⟨hrange, hroom⟩⟩
      · rintro ⟨rfl, reference, hreference, value, hvalue, hword⟩
        obtain ⟨⟨hrange, hroom⟩, hw⟩ := Option.ite_none_right_eq_some.mp hword
        obtain rfl := Option.some.inj hw
        exact ⟨reference, hreference, value, hvalue, (), hrange, (), hroom, rfl⟩

/-- **The words meant for a section** come from the relocations of its object. -/
theorem patches_located {object source : ℕ} {image : ZlImage} {s : ZlImageSection}
    (himage : images[object]? = some image) (hs : image.sections[source]? = some s) :
    patches symbols (locatedTable images) (position ZlImage.sections images object source)
      (visits ZlImage.relocations images) = image.words globals source := by
  refine filterMap_visits_outer himage fun v hv => Option.ext fun word => ?_
  obtain ⟨himage', -⟩ := mem_visits.mp hv
  rw [patchOf_eq_some, relocation_located hlayout hglobals himage']
  constructor
  · rintro ⟨hoffset, hposition, hword⟩
    obtain ⟨t, ht⟩ := ZlImage.section_of_word hword
    obtain ⟨hobject, hsource⟩ := position_inj himage hs himage' ht hposition
    rw [hobject, himage] at himage'
    rw [← Option.some.inj himage'] at hword
    rw [if_pos hobject, if_pos hsource, hword, Option.map_some, ← hoffset]
  · intro hword
    obtain ⟨hobject, hword⟩ := Option.ite_none_right_eq_some.mp hword
    obtain ⟨hsource, hword⟩ := Option.ite_none_right_eq_some.mp hword
    obtain ⟨w, hw, rfl⟩ := Option.map_eq_some_iff.mp hword
    rw [hobject, himage] at himage'
    rw [← Option.some.inj himage', hobject, hsource]
    exact ⟨rfl, rfl, hw⟩

/-- **The relocation loop** patches the sections of each object. -/
theorem sections_located (hwf : ∀ image ∈ images, image.WellFormed) {final : List LinkSection}
    (h : (visits ZlImage.relocations images).foldlM (relocate symbols) (locatedTable images)
      = .ok final) :
    final.map (·.image) = images.flatMap (ZlImage.linkedSections globals) := by
  obtain ⟨-, hfinal⟩ := relocate_foldlM (hlayout.stored hwf) h
  have hvisits : final.map (·.image) = (visits ZlImage.sections images).map fun v =>
      v.outer.linkedSection globals v.inner v.innerIndex := by
    refine List.ext_getElem? fun index => ?_
    rw [List.getElem?_map, List.getElem?_map, hfinal, locatedTable, List.getElem?_map]
    cases hv : (visits ZlImage.sections images)[index]? with
    | none => rfl
    | some v =>
        obtain ⟨himage, hs, rfl⟩ := getElem?_visits.mp hv
        rw [Option.map_some, Option.map_some, Option.map_some, Option.map_some, patched,
          ← locatedTable, patches_located hlayout hglobals himage hs]
        rfl
  rw [hvisits, map_visits ZlImage.sections
    (fun image s source => ZlImage.linkedSection globals image s source)]
  rfl

/-- The words of all relocations exist exactly if the loop succeeds. -/
theorem words_iff : (∀ image ∈ images, ∀ r ∈ image.relocations, image.word globals r ≠ none) ↔
    ∀ v ∈ visits ZlImage.relocations images, ∃ r,
      relocation symbols (locatedTable images) v = .ok r := by
  constructor
  · intro h v hv
    obtain ⟨himage, hr⟩ := mem_visits.mp hv
    obtain ⟨w, hw⟩ := Option.ne_none_iff_exists'.mp
      (h _ (List.mem_of_getElem? himage) _ (List.mem_of_getElem? hr))
    exact ⟨_, (relocation_located hlayout hglobals himage).mpr ⟨rfl, hw⟩⟩
  · intro h image himage r hr
    obtain ⟨object, hobject⟩ := List.mem_iff_getElem?.mp himage
    obtain ⟨index, hindex⟩ := List.mem_iff_getElem?.mp hr
    obtain ⟨⟨destination, w⟩, hok⟩ := h ⟨image, object, r, index⟩ (mem_visits.mpr ⟨hobject, hindex⟩)
    rw [((relocation_located hlayout hglobals (v := ⟨image, object, r, index⟩) hobject).mp hok).2]
    exact Option.some_ne_none w

end Relocations

/-! ## The whole linking -/

section Linking

variable {images : List ZlImage} {name : CString} {executable : ZlImage}

/-- The two forms of being apart. -/
theorem pairwise_apart_iff : (locatedTable images).Pairwise Apart ↔
    (images.flatMap ZlImage.sections).Pairwise ZlImageSection.Apart := by
  rw [← map_image_locatedTable, List.pairwise_map]
  exact Iff.rfl

/-- **Linking located objects**: it succeeds exactly for linkable ones, and merges them. -/
theorem linkImages_located (hlocated : Located images)
    (hcount : (images.flatMap ZlImage.sections).length ≤ uint32Max)
    (hwf : ∀ image ∈ images, image.WellFormed) :
    linkImages (fun _ => true) images (some name) = .ok executable ↔
      Linkable images name ∧ executable = merged images name := by
  rw [← length_locatedTable] at hcount
  constructor
  · intro h
    obtain ⟨sections, symbols, final, hlinked⟩ := linkImages_eq_ok h
    have hlayout := hlinked.layout
    have htable := hlinked.table
    have hloop := hlinked.loop
    obtain rfl := hlayout.located hlocated
    have hdefinitions := filterMap_toDefinition hlayout hcount hwf htable
    have hglobals := find?_definesGlobal symbols
    have hentry := findEntry_eq symbols name
    rw [hdefinitions] at hglobals hentry
    have hsections := sections_located hlayout hglobals hwf hloop
    refine ⟨⟨fun s hs => ?_, pairwise_apart_iff.mp hlayout.apart,
      distinct_located hlayout hcount hwf htable,
      (words_iff hlayout hglobals).mpr (relocate_foldlM (hlayout.stored hwf) hloop).1,
      hentry ▸ hlinked.entry⟩, ?_⟩
    · rw [← map_image_locatedTable] at hs
      obtain ⟨t, ht, rfl⟩ := List.mem_map.mp hs
      exact hlayout.fits ht
    · rw [hlinked.executable_eq, merged, hsections, ← hentry]
      rfl
  · rintro ⟨h, rfl⟩
    obtain ⟨state, hstate, hsections⟩ := layout_located hlocated h.fits h.apart
    have hlayout := layout_of_foldlM hstate
    rw [hsections] at hlayout
    obtain ⟨symbols, hsymbols⟩ := symbols_located hlayout hcount hwf h.distinct
    have hdefinitions := filterMap_toDefinition hlayout hcount hwf (symbolTable_of_foldlM hsymbols)
    have hglobals := find?_definesGlobal symbols
    have hentry := findEntry_eq symbols name
    rw [hdefinitions] at hglobals hentry
    obtain ⟨final, hfinal⟩ := relocate_progress (hlayout.stored hwf)
      ((words_iff hlayout hglobals).mp h.relocates)
    have hnonzero : findEntry symbols (selectedEntry images (some name)) ≠ 0 := by
      rw [selectedEntry, hentry]
      exact h.entry
    simp only [linkImages, bind_eq_ok, require_eq_ok]
    refine ⟨(), trivial, state, hstate, (), trivial, symbols, hsections ▸ hsymbols, final,
      hsections ▸ hfinal, (), hnonzero, (), trivial, ?_⟩
    rw [merged, ← sections_located hlayout hglobals hwf hfinal, ← hentry]
    rfl

end Linking

end Zlvm
