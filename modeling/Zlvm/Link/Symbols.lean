import Zlvm.Link.Layout

/-!
# What symbols denote

The meaning of a symbol reference in terms of the input objects and the placed sections, and the
symbol table that the linker collects for it.

* `symbolAddress` — the absolute address of a symbol that its object defines.
* `GlobalDefinition`, `Resolves` — a reference to a symbol the object does not define denotes the
  only global definition of its name.
* `SelectsEntry` — the symbol that gives the entry point.
* `AddressesFit`, `addressesFit_iff` — no address exceeds 32 bits, which can be decided.
* `SymbolTable` — the table after the symbol loop; `symbolTable_of_foldlM` — the loop builds it.
* **`resolves_of_referenceValue`** — the value a relocation uses is what its symbol denotes.
-/

namespace Zlvm

open Loop Nested

/-! ## Denotation -/

/-- What a section of an object becomes, in the list of all placed sections. -/
def linkedSection (images : List ZlImage) (placed : List ZlImageSection) (object source : ℕ) :
    Option ZlImageSection :=
  placed[position ZlImage.sections images object source]?

/-- The address of a symbol: that of its section plus its value. -/
def symbolAddress (images : List ZlImage) (placed : List ZlImageSection) (object : ℕ)
    (symbol : ZlImageSymbol) : Option ℕ :=
  if symbol.sectionIndex = undefinedSection then none
  else (linkedSection images placed object symbol.sectionIndex.toNat).map fun s =>
    s.address.toNat + symbol.value.toNat

/-- A global symbol of a given name, at some index of some object that defines it. -/
structure GlobalDefinition (images : List ZlImage) (name : Option CString) (object index : ℕ)
    (symbol : ZlImageSymbol) : Prop where
  listed : ∃ image, images[object]? = some image ∧ image.symbols[index]? = some symbol
  binding : symbol.binding = symbolGlobal
  defined : symbol.sectionIndex ≠ undefinedSection
  name : symbol.name = name

/-- What a symbol of an object denotes: its own definition, or else the only global definition of
its name. -/
inductive Resolves (images : List ZlImage) (placed : List ZlImageSection) (object : ℕ)
    (reference : ZlImageSymbol) (address : ℕ) : Prop
  | own (defined : reference.sectionIndex ≠ undefinedSection)
      (address_eq : symbolAddress images placed object reference = some address)
  | other (undefined : reference.sectionIndex = undefinedSection) (object' index' : ℕ)
      (symbol : ZlImageSymbol)
      (definition : GlobalDefinition images reference.name object' index' symbol)
      (address_eq : symbolAddress images placed object' symbol = some address)
      (unique : ∀ object'' index'' symbol', GlobalDefinition images reference.name object'' index''
        symbol' → object'' = object' ∧ index'' = index')

/-- The entry point that a name selects: the value of the first symbol of that name, over all
objects in order, that its object defines. -/
structure SelectsEntry (images : List ZlImage) (placed : List ZlImageSection) (name : CString)
    (entry : Word) (object index : ℕ) (symbol : ZlImageSymbol) : Prop where
  listed : ∃ image, images[object]? = some image ∧ image.symbols[index]? = some symbol
  defined : symbol.sectionIndex ≠ undefinedSection
  named : symbol.name = some name
  value : ∃ address, symbolAddress images placed object symbol = some address ∧
    entry = UInt32.ofNat address
  first : ∀ object' image' index' symbol', images[object']? = some image' →
    image'.symbols[index']? = some symbol' → symbol'.sectionIndex ≠ undefinedSection →
    symbol'.name = some name → position ZlImage.symbols images object index
      ≤ position ZlImage.symbols images object' index'

/-- No address of a symbol exceeds 32 bits. -/
def AddressesFit (images : List ZlImage) (placed : List ZlImageSection) : Prop :=
  ∀ object image symbol address, images[object]? = some image → symbol ∈ image.symbols →
    symbolAddress images placed object symbol = some address → address ≤ uint32Max

/-- The addresses of the symbols, in the order of the objects. -/
theorem addressesFit_iff {images : List ZlImage} {placed : List ZlImageSection} :
    AddressesFit images placed ↔ ∀ visit ∈ visits ZlImage.symbols images,
      ∀ address ∈ symbolAddress images placed visit.outerIndex visit.inner,
        address ≤ uint32Max := by
  constructor
  · intro hfit visit hvisit address haddress
    obtain ⟨himage, hsymbol⟩ := mem_visits.mp hvisit
    exact hfit _ _ _ _ himage (List.mem_of_getElem? hsymbol) haddress
  · intro hall object image symbol address himage hsymbol haddress
    obtain ⟨index, hindex⟩ := List.mem_iff_getElem?.mp hsymbol
    exact hall ⟨image, object, symbol, index⟩ (mem_visits.mpr ⟨himage, hindex⟩) address haddress

instance (images : List ZlImage) (placed : List ZlImageSection) :
    Decidable (AddressesFit images placed) :=
  decidable_of_iff _ addressesFit_iff.symm

/-! ## Addresses -/

section Addresses

variable {images : List ZlImage} {placed placed' : List ZlImageSection}

/-- Addresses of symbols depend on the addresses of sections only. -/
theorem symbolAddress_congr (h : placed.map (·.address) = placed'.map (·.address)) (object : ℕ)
    (symbol : ZlImageSymbol) :
    symbolAddress images placed object symbol = symbolAddress images placed' object symbol := by
  have hget := congrArg (·[position ZlImage.sections images object symbol.sectionIndex.toNat]?) h
  simp only [List.getElem?_map] at hget
  have hmap := congrArg (Option.map fun a : Word => a.toNat + symbol.value.toNat) hget
  simp only [Option.map_map] at hmap
  unfold symbolAddress linkedSection
  split
  · rfl
  · exact hmap

theorem Resolves.congr (h : placed.map (·.address) = placed'.map (·.address)) {object : ℕ}
    {reference : ZlImageSymbol} {address : ℕ} (hr : Resolves images placed object reference address) :
    Resolves images placed' object reference address := by
  cases hr with
  | own hdef haddress => exact .own hdef (by rw [← symbolAddress_congr h, haddress])
  | other hundef object' index' symbol hglobal haddress hunique =>
      exact .other hundef object' index' symbol hglobal
        (by rw [← symbolAddress_congr h, haddress]) hunique

theorem AddressesFit.congr (h : placed.map (·.address) = placed'.map (·.address))
    (hfit : AddressesFit images placed) : AddressesFit images placed' := by
  intro object image symbol address himage hsymbol haddress
  rw [← symbolAddress_congr h] at haddress
  exact hfit object image symbol address himage hsymbol haddress

theorem SelectsEntry.congr (h : placed.map (·.address) = placed'.map (·.address))
    {name : CString} {entry : Word} {object index : ℕ} {symbol : ZlImageSymbol}
    (hentry : SelectsEntry images placed name entry object index symbol) :
    SelectsEntry images placed' name entry object index symbol := by
  refine ⟨hentry.listed, hentry.defined, hentry.named, ?_, hentry.first⟩
  rw [← symbolAddress_congr h]
  exact hentry.value

end Addresses

/-! ## The symbol table -/

/-- The table the symbol loop builds: every symbol of every object, translated, no two of which
define the same global name. -/
structure SymbolTable (images : List ZlImage) (sections : List LinkSection)
    (symbols : List ZlImageSymbol) : Prop where
  translated : List.Forall₂ (fun visit symbol =>
    translateSymbol sections visit.inner visit.outerIndex = .ok symbol)
    (visits ZlImage.symbols images) symbols
  distinct : symbols.Pairwise fun a b =>
    ¬(definesGlobal a = true ∧ definesGlobal b = true ∧ a.name = b.name)

/-- **The symbol loop.** -/
theorem symbolTable_of_foldlM {images : List ZlImage} {sections : List LinkSection}
    {symbols : List ZlImageSymbol}
    (h : (visits ZlImage.symbols images).foldlM (collectSymbol sections) [] = .ok symbols) :
    SymbolTable images sections symbols := by
  have hinv := foldlM_induction (fun done symbols =>
    List.Forall₂ (fun visit symbol =>
      translateSymbol sections visit.inner visit.outerIndex = .ok symbol) done symbols ∧
    symbols.Pairwise fun a b =>
      ¬(definesGlobal a = true ∧ definesGlobal b = true ∧ a.name = b.name)) h ⟨.nil, .nil⟩ ?_
  · exact ⟨hinv.1, hinv.2⟩
  · intro done visit rest symbols symbols' _ hP hstep
    obtain ⟨htranslated, hdistinct⟩ := hP
    simp only [collectSymbol, bind_eq_ok, require_eq_ok] at hstep
    obtain ⟨symbol, hsymbol, -, hnew, hsymbols⟩ := hstep
    obtain rfl := Except.ok.inj hsymbols
    refine ⟨List.rel_append htranslated (.cons hsymbol .nil), ?_⟩
    rw [List.pairwise_append]
    refine ⟨hdistinct, List.pairwise_singleton _ _, fun a ha b hb => ?_⟩
    rw [List.mem_singleton.mp hb]
    rintro ⟨hdefa, hdefb, hname⟩
    refine hnew ⟨hdefb, List.any_eq_true.mpr ⟨a, ha, ?_⟩⟩
    rw [hdefa, hname]
    simp

section Table

variable {images : List ZlImage} {sections : List LinkSection} {symbols : List ZlImageSymbol}

/-- The address at a position. -/
theorem addressAt_eq {index : ℕ} {s : LinkSection} (h : sections[index]? = some s) :
    addressAt sections index = s.image.address := by
  rw [addressAt, h]
  rfl

/-- The translation of a symbol that its object defines. -/
theorem translateSymbol_defined (hlayout : Layout images sections)
    (hcount : sections.length ≤ uint32Max) {object : ℕ} {y symbol : ZlImageSymbol}
    (hdefined : y.sectionIndex ≠ undefinedSection)
    (h : translateSymbol sections y object = .ok symbol) :
    symbol.name = y.name ∧ symbol.binding = y.binding ∧ symbol.sectionIndex ≠ undefinedSection ∧
      ∃ address, symbolAddress images (sections.map (·.image)) object y = some address ∧
        symbol.value = UInt32.ofNat address := by
  simp only [translateSymbol, if_pos hdefined, bind_eq_ok, orElse_eq_ok] at h
  obtain ⟨index, hfind, h⟩ := h
  obtain rfl := Except.ok.inj h
  obtain ⟨image, input, himage, hinput, hposition⟩ := hlayout.of_findSection hfind
  obtain ⟨s, hs, -⟩ := hlayout.at_position himage hinput
  have hlt : index < sections.length := by
    rw [hposition]
    exact (List.getElem?_eq_some_iff.mp hs).1
  refine ⟨rfl, rfl, ?_, s.image.address.toNat + y.value.toNat, ?_, ?_⟩
  · intro hundef
    have htoNat := congrArg UInt32.toNat hundef
    simp only [UInt32.toNat_ofNat', undefinedSection, UInt32.reduceToNat] at htoNat
    rw [uint32Max] at hcount
    omega
  · rw [symbolAddress, if_neg hdefined, linkedSection, List.getElem?_map, hs]
    rfl
  · rw [← hposition] at hs
    simp only [addressAt_eq hs]
    rw [← UInt32.toNat_inj, UInt32.toNat_add, UInt32.toNat_ofNat', Nat.add_comm]

/-- The translation of any other symbol. -/
theorem translateSymbol_undefined {object : ℕ} {y symbol : ZlImageSymbol}
    (hundefined : y.sectionIndex = undefinedSection)
    (h : translateSymbol sections y object = .ok symbol) : symbol = y := by
  rw [translateSymbol, if_neg (not_not.mpr hundefined)] at h
  exact (Except.ok.inj h).symm

/-- An entry of the table that is defined stands for a symbol that its object defines. -/
theorem SymbolTable.defined (htable : SymbolTable images sections symbols)
    (hlayout : Layout images sections) (hcount : sections.length ≤ uint32Max) {p : ℕ}
    {symbol : ZlImageSymbol} (hsymbol : symbols[p]? = some symbol)
    (hdefined : symbol.sectionIndex ≠ undefinedSection) :
    ∃ object image index y address, images[object]? = some image ∧
      image.symbols[index]? = some y ∧ p = position ZlImage.symbols images object index ∧
      y.sectionIndex ≠ undefinedSection ∧ symbol.name = y.name ∧ symbol.binding = y.binding ∧
      symbolAddress images (sections.map (·.image)) object y = some address ∧
      symbol.value = UInt32.ofNat address := by
  obtain ⟨hlt, hget⟩ := List.getElem?_eq_some_iff.mp hsymbol
  have hlen := htable.translated.length_eq
  have hlt' : p < (visits ZlImage.symbols images).length := by omega
  have htranslate := htable.translated.get hlt' hlt
  simp only [List.get_eq_getElem, hget] at htranslate
  obtain ⟨himage, hindex, hposition⟩ :=
    getElem?_visits.mp (List.getElem?_eq_getElem hlt')
  by_cases hy : (visits ZlImage.symbols images)[p].inner.sectionIndex = undefinedSection
  · rw [translateSymbol_undefined hy htranslate] at hdefined
    exact absurd hy hdefined
  · obtain ⟨hname, hbinding, -, address, haddress, hvalue⟩ :=
      translateSymbol_defined hlayout hcount hy htranslate
    exact ⟨_, _, _, _, address, himage, hindex, hposition, hy, hname, hbinding, haddress, hvalue⟩

/-- A symbol that its object defines has a defined entry in the table. -/
theorem SymbolTable.of_defined (htable : SymbolTable images sections symbols)
    (hlayout : Layout images sections) (hcount : sections.length ≤ uint32Max) {object index : ℕ}
    {image : ZlImage} {y : ZlImageSymbol} (himage : images[object]? = some image)
    (hindex : image.symbols[index]? = some y) (hdefined : y.sectionIndex ≠ undefinedSection) :
    ∃ symbol, symbols[position ZlImage.symbols images object index]? = some symbol ∧
      symbol.sectionIndex ≠ undefinedSection ∧ symbol.name = y.name ∧
      symbol.binding = y.binding := by
  have hvisit := getElem?_position himage hindex
  obtain ⟨hlt, hget⟩ := List.getElem?_eq_some_iff.mp hvisit
  have hlen := htable.translated.length_eq
  have hlt' : position ZlImage.symbols images object index < symbols.length := by omega
  have htranslate := htable.translated.get hlt hlt'
  simp only [List.get_eq_getElem, hget] at htranslate
  obtain ⟨hname, hbinding, hsection, -⟩ :=
    translateSymbol_defined hlayout hcount hdefined htranslate
  exact ⟨_, List.getElem?_eq_getElem hlt', hsection, hname, hbinding⟩

/-- An entry of the table that defines a global name stands for a global definition. -/
theorem SymbolTable.definition (htable : SymbolTable images sections symbols)
    (hlayout : Layout images sections) (hcount : sections.length ≤ uint32Max) {p : ℕ}
    {symbol : ZlImageSymbol} (hsymbol : symbols[p]? = some symbol)
    (hdefines : definesGlobal symbol = true) :
    ∃ object index y address, GlobalDefinition images symbol.name object index y ∧
      p = position ZlImage.symbols images object index ∧
      symbolAddress images (sections.map (·.image)) object y = some address ∧
      symbol.value = UInt32.ofNat address := by
  simp only [definesGlobal, Bool.and_eq_true, beq_iff_eq, bne_iff_ne] at hdefines
  obtain ⟨object, image, index, y, address, himage, hindex, hposition, hy, hname, hbinding,
    haddress, hvalue⟩ := htable.defined hlayout hcount hsymbol hdefines.2
  exact ⟨object, index, y, address,
    ⟨⟨image, himage, hindex⟩, hbinding.symm.trans hdefines.1, hy, hname.symm⟩, hposition,
    haddress, hvalue⟩

/-- A global definition has an entry in the table. -/
theorem SymbolTable.entry (htable : SymbolTable images sections symbols)
    (hlayout : Layout images sections) (hcount : sections.length ≤ uint32Max)
    {name : Option CString} {object index : ℕ} {y : ZlImageSymbol}
    (h : GlobalDefinition images name object index y) :
    ∃ symbol, symbols[position ZlImage.symbols images object index]? = some symbol ∧
      definesGlobal symbol = true ∧ symbol.name = name := by
  obtain ⟨image, himage, hindex⟩ := h.listed
  obtain ⟨symbol, hsymbol, hsection, hname, hbinding⟩ :=
    htable.of_defined hlayout hcount himage hindex h.defined
  refine ⟨symbol, hsymbol, ?_, hname.trans h.name⟩
  simp only [definesGlobal, Bool.and_eq_true, beq_iff_eq, bne_iff_ne]
  exact ⟨hbinding.trans h.binding, hsection⟩

/-- Two entries that define the same global name are one. -/
theorem SymbolTable.unique (htable : SymbolTable images sections symbols) {p q : ℕ}
    {a b : ZlImageSymbol} (ha : symbols[p]? = some a) (hb : symbols[q]? = some b)
    (hdefa : definesGlobal a = true) (hdefb : definesGlobal b = true) (hname : a.name = b.name) :
    p = q := by
  by_contra hne
  rcases pairwise_getElem? htable.distinct ha hb hne with hdistinct | hdistinct
  · exact hdistinct ⟨hdefa, hdefb, hname⟩
  · exact hdistinct ⟨hdefb, hdefa, hname.symm⟩

/-- A name has at most one global definition. -/
theorem GlobalDefinition.unique (htable : SymbolTable images sections symbols)
    (hlayout : Layout images sections) (hcount : sections.length ≤ uint32Max)
    {name : Option CString} {object index object' index' : ℕ} {y y' : ZlImageSymbol}
    (h : GlobalDefinition images name object index y)
    (h' : GlobalDefinition images name object' index' y') : object' = object ∧ index' = index := by
  obtain ⟨a, ha, hdefa, hnamea⟩ := htable.entry hlayout hcount h
  obtain ⟨b, hb, hdefb, hnameb⟩ := htable.entry hlayout hcount h'
  have hposition := htable.unique ha hb hdefa hdefb (hnamea.trans hnameb.symm)
  obtain ⟨image, himage, hindex⟩ := h.listed
  obtain ⟨image', himage', hindex'⟩ := h'.listed
  exact position_inj himage hindex himage' hindex' hposition

/-- **The value a relocation uses** is the address its symbol denotes. -/
theorem resolves_of_referenceValue (htable : SymbolTable images sections symbols)
    (hlayout : Layout images sections) (hcount : sections.length ≤ uint32Max)
    (hfit : AddressesFit images (sections.map (·.image))) {object value : ℕ}
    {reference : ZlImageSymbol}
    (h : referenceValue sections symbols reference object = .ok value) :
    Resolves images (sections.map (·.image)) object reference value := by
  by_cases hdefined : reference.sectionIndex = undefinedSection
  · -- the first global definition in the table
    simp only [referenceValue, if_neg (not_not.mpr hdefined), bind_eq_ok, orElse_eq_ok] at h
    obtain ⟨symbol, hfind, h⟩ := h
    obtain rfl := Except.ok.inj h
    have hmatch := List.find?_some hfind
    simp only [Bool.and_eq_true, beq_iff_eq] at hmatch
    obtain ⟨hname, hdefines⟩ := hmatch
    obtain ⟨p, hp⟩ := List.mem_iff_getElem?.mp (List.mem_of_find?_eq_some hfind)
    obtain ⟨object', index', y, address, hglobal, -, haddress, hvalue⟩ :=
      htable.definition hlayout hcount hp hdefines
    rw [hname] at hglobal
    obtain ⟨image, himage, hindex⟩ := hglobal.listed
    have hle := hfit object' image y address himage (List.mem_of_getElem? hindex) haddress
    have htoNat : symbol.value.toNat = address := by
      rw [uint32Max] at hle
      rw [hvalue, UInt32.toNat_ofNat', Nat.mod_eq_of_lt (by omega)]
    exact .other hdefined object' index' y hglobal (by rw [htoNat]; exact haddress)
      fun _ _ _ h' => hglobal.unique htable hlayout hcount h'
  · simp only [referenceValue, if_pos hdefined, bind_eq_ok, orElse_eq_ok] at h
    obtain ⟨target, hfind, h⟩ := h
    obtain rfl := Except.ok.inj h
    obtain ⟨image, input, himage, hinput, rfl⟩ := hlayout.of_findSection hfind
    obtain ⟨s, hs, -⟩ := hlayout.at_position himage hinput
    refine .own hdefined ?_
    rw [symbolAddress, if_neg hdefined, linkedSection, List.getElem?_map, hs, addressAt_eq hs]
    rfl

/-- **The entry point** is that of the first defined symbol of the name. -/
theorem selectsEntry_of_findEntry (htable : SymbolTable images sections symbols)
    (hlayout : Layout images sections) (hcount : sections.length ≤ uint32Max) {name : CString}
    (h : findEntry symbols name ≠ 0) :
    ∃ object index symbol, SelectsEntry images (sections.map (·.image)) name
      (findEntry symbols name) object index symbol := by
  unfold findEntry at h ⊢
  split at h
  · rename_i symbol hfind
    rw [List.find?_eq_some_iff_getElem] at hfind
    obtain ⟨hmatch, p, hlt, hget, hearlier⟩ := hfind
    simp only [Bool.and_eq_true, bne_iff_ne, beq_iff_eq] at hmatch
    have hsymbol : symbols[p]? = some symbol := by rw [List.getElem?_eq_getElem hlt, hget]
    obtain ⟨object, image, index, y, address, himage, hindex, hposition, hy, hname, -, haddress,
      hvalue⟩ := htable.defined hlayout hcount hsymbol hmatch.1
    refine ⟨object, index, y, ⟨image, himage, hindex⟩, hy, hname.symm.trans hmatch.2,
      ⟨address, haddress, hvalue⟩, ?_⟩
    intro object' image' index' symbol' himage' hindex' hdefined' hname'
    obtain ⟨t, ht, hsection, htname, -⟩ := htable.of_defined hlayout hcount himage' hindex' hdefined'
    by_contra hlater
    have hlt' : position ZlImage.symbols images object' index' < p := by omega
    have hnot := hearlier _ hlt'
    rw [List.getElem?_eq_some_iff] at ht
    obtain ⟨_, ht⟩ := ht
    simp [ht, hsection, htname, hname'] at hnot
  · exact absurd rfl h

end Table

end Zlvm
