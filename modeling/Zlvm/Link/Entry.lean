import Zlvm.Link.SectionTable

/-!
# Whose symbol is the entry point

The linker looks for the entry symbol by its name among the symbols of all objects, those of earlier
objects first, whatever their binding.

* `FirstDefinition` — the symbol that it finds.
* `FirstEntry`, `OnlyDefinition` — the object that records the entry, and its own symbol.
* `EntryScoped` — the entry point is the address of that symbol; `Unshadowed` — no earlier object
  has a symbol of the name elsewhere.
* **`entryScoped_iff`** — these are the same linkings.
-/

namespace Zlvm

open Nested

/-! ## Definitions of a name -/

/-- The first symbol of a name, over all objects in order, that its object defines. -/
structure FirstDefinition (images : List ZlImage) (name : CString) (object index : ℕ)
    (symbol : ZlImageSymbol) : Prop where
  listed : ∃ image, images[object]? = some image ∧ image.symbols[index]? = some symbol
  defined : symbol.sectionIndex ≠ undefinedSection
  named : symbol.name = some name
  first : ∀ object' image' index' symbol', images[object']? = some image' →
    image'.symbols[index']? = some symbol' → symbol'.sectionIndex ≠ undefinedSection →
    symbol'.name = some name → position ZlImage.symbols images object index
      ≤ position ZlImage.symbols images object' index'

/-- The first object that records an entry symbol. -/
structure FirstEntry (images : List ZlImage) (object : ℕ) (name : CString) : Prop where
  recorded : ∃ image, images[object]? = some image ∧ image.entrySymbol = some name
  first : ∀ object' < object, ∀ image', images[object']? = some image' → image'.entrySymbol = none

/-- The only symbol of a name that an object defines. -/
structure OnlyDefinition (images : List ZlImage) (name : CString) (object index : ℕ)
    (symbol : ZlImageSymbol) : Prop where
  listed : ∃ image, images[object]? = some image ∧ image.symbols[index]? = some symbol
  defined : symbol.sectionIndex ≠ undefinedSection
  named : symbol.name = some name
  unique : ∀ image index' symbol', images[object]? = some image →
    image.symbols[index']? = some symbol' → symbol'.sectionIndex ≠ undefinedSection →
    symbol'.name = some name → index' = index

section Definitions

variable {images : List ZlImage} {placed : List ZlImageSection} {name : CString}
  {object index object' index' : ℕ} {symbol symbol' : ZlImageSymbol}

theorem SelectsEntry.firstDefinition {entry : Word}
    (h : SelectsEntry images placed name entry object index symbol) :
    FirstDefinition images name object index symbol :=
  ⟨h.listed, h.defined, h.named, h.first⟩

/-- A name has one first definition. -/
theorem FirstDefinition.unique (h : FirstDefinition images name object index symbol)
    (h' : FirstDefinition images name object' index' symbol') :
    object' = object ∧ symbol' = symbol := by
  obtain ⟨image, himage, hindex⟩ := h.listed
  obtain ⟨image', himage', hindex'⟩ := h'.listed
  obtain ⟨rfl, rfl⟩ := position_inj himage hindex himage' hindex' (Nat.le_antisymm
    (h.first _ _ _ _ himage' hindex' h'.defined h'.named)
    (h'.first _ _ _ _ himage hindex h.defined h.named))
  rw [himage] at himage'
  rw [← Option.some.inj himage', hindex] at hindex'
  exact ⟨rfl, (Option.some.inj hindex').symm⟩

/-- The first definition is not behind an object that defines the name. -/
theorem FirstDefinition.le (h : FirstDefinition images name object index symbol)
    (h' : OnlyDefinition images name object' index' symbol') : object ≤ object' := by
  obtain ⟨image', himage', hindex'⟩ := h'.listed
  by_contra hlt
  have hfirst := h.first _ _ _ _ himage' hindex' h'.defined h'.named
  have hposition : position ZlImage.symbols images object' index'
      < position ZlImage.symbols images object index :=
    position_lt himage' hindex' (Nat.not_le.mp hlt)
  omega

/-- The first definition, if it is in the object, is the only one of the object. -/
theorem OnlyDefinition.eq (h : OnlyDefinition images name object index symbol)
    (h' : FirstDefinition images name object index' symbol') : symbol' = symbol := by
  obtain ⟨image, himage, hindex⟩ := h.listed
  obtain ⟨image', himage', hindex'⟩ := h'.listed
  obtain rfl := Option.some.inj (himage.symm.trans himage')
  obtain rfl := h.unique _ _ _ himage hindex' h'.defined h'.named
  exact Option.some.inj (hindex'.symm.trans hindex)

/-- **The selected name** is that of the first object that records one. -/
theorem selectedEntry_of_firstEntry : ∀ {images : List ZlImage} {object : ℕ},
    FirstEntry images object name → selectedEntry images none = name
  | [], object, h => by
      obtain ⟨image, himage, -⟩ := h.recorded
      cases himage
  | image :: images, 0, h => by
      obtain ⟨image', himage, hentry⟩ := h.recorded
      obtain rfl := Option.some.inj himage
      rw [selectedEntry, List.findSome?_cons, hentry]
      rfl
  | image :: images, object + 1, h => by
      have hnone := h.first 0 (Nat.succ_pos object) image rfl
      have ih := @selectedEntry_of_firstEntry images object
        ⟨h.recorded, fun object' hlt => h.first (object' + 1) (Nat.succ_lt_succ hlt)⟩
      rw [selectedEntry, List.findSome?_cons, hnone]
      exact ih

end Definitions

/-! ## The entry point -/

/-- The entry point is the address of a symbol of an object. -/
def EntryScoped (images : List ZlImage) (executable : ZlImage) (object : ℕ)
    (symbol : ZlImageSymbol) : Prop :=
  ∃ address, symbolAddress images executable.sections object symbol = some address ∧
    executable.entryPoint.toNat = address

/-- The address of a symbol has 32 bits, and the first definition of the name in an earlier object,
if there is one, has the same address in 32 bits. -/
structure Unshadowed (images : List ZlImage) (placed : List ZlImageSection) (name : CString)
    (object : ℕ) (symbol : ZlImageSymbol) : Prop where
  fits : ∀ address, symbolAddress images placed object symbol = some address → address ≤ uint32Max
  same : ∀ object' index' symbol', FirstDefinition images name object' index' symbol' →
    object' < object → ∀ address address', symbolAddress images placed object symbol = some address →
      symbolAddress images placed object' symbol' = some address' →
      UInt32.ofNat address' = UInt32.ofNat address

section Run

variable {objects : List Bytes} {entrySymbol : Option CString} {output : Bytes}
  {images : List ZlImage} {sections final : List LinkSection} {symbols : List ZlImageSymbol}
  {executable : ZlImage}

/-- A symbol that its object defines has an address. -/
theorem LinkRun.exists_symbolAddress
    (h : LinkRun objects entrySymbol output images sections symbols final executable)
    {object index : ℕ} {symbol : ZlImageSymbol}
    (hlisted : ∃ image, images[object]? = some image ∧ image.symbols[index]? = some symbol)
    (hdefined : symbol.sectionIndex ≠ undefinedSection) :
    ∃ address, symbolAddress images executable.sections object symbol = some address := by
  obtain ⟨image, himage, hindex⟩ := hlisted
  have hlt := ((h.wellFormed image (List.mem_of_getElem? himage)).symbols symbol
    (List.mem_of_getElem? hindex)).sectionIndex.resolve_left hdefined
  obtain ⟨s, hs, -⟩ := (h.linked.laidOut h.wellFormed).linkedSection himage
    (List.getElem?_eq_getElem hlt)
  exact ⟨_, by rw [symbolAddress, if_neg hdefined, hs]; rfl⟩

theorem LinkRun.scoped_iff
    (h : LinkRun objects none output images sections symbols final executable)
    {object index : ℕ} {name : CString} {symbol : ZlImageSymbol}
    (hentry : FirstEntry images object name)
    (honly : OnlyDefinition images name object index symbol) :
    EntryScoped images executable object symbol ↔
      Unshadowed images executable.sections name object symbol := by
  obtain ⟨object', index', symbol', hselects⟩ := h.selectsEntry
  rw [selectedEntry_of_firstEntry hentry] at hselects
  have hfirst := hselects.firstDefinition
  obtain ⟨address', haddress', hpoint⟩ := hselects.value
  constructor
  · rintro ⟨address, haddress, hscoped⟩
    refine ⟨fun a ha => ?_, fun o i y hy hlt a b ha hb => ?_⟩
    · obtain rfl := Option.some.inj (haddress.symm.trans ha)
      rw [← hscoped, uint32Max]
      have hlt := executable.entryPoint.toNat_lt
      omega
    · obtain ⟨rfl, rfl⟩ := hfirst.unique hy
      obtain rfl := Option.some.inj (haddress'.symm.trans hb)
      obtain rfl := Option.some.inj (haddress.symm.trans ha)
      rw [← hpoint, ← hscoped, UInt32.ofNat_toNat]
  · intro hunshadowed
    obtain ⟨address, haddress⟩ := h.exists_symbolAddress honly.listed honly.defined
    have hsame : UInt32.ofNat address' = UInt32.ofNat address := by
      rcases Nat.lt_or_eq_of_le (hfirst.le honly) with hlt | rfl
      · exact hunshadowed.same _ _ _ hfirst hlt _ _ haddress haddress'
      · rw [honly.eq hfirst] at haddress'
        rw [Option.some.inj (haddress'.symm.trans haddress)]
    have hle := hunshadowed.fits address haddress
    rw [uint32Max] at hle
    refine ⟨address, haddress, ?_⟩
    rw [hpoint, hsame, UInt32.toNat_ofNat', Nat.mod_eq_of_lt (by omega)]

end Run

/-- **Whose symbol the entry point is.**  If an object is the first to record an entry symbol and
defines it once, a successful linking starts there exactly if no symbol of an earlier object takes
its place. -/
theorem entryScoped_iff {alloc : LinkAllocator} {objects : List Bytes} {output : Bytes}
    {images : List ZlImage} {executable : ZlImage} {object index : ℕ} {name : CString}
    {symbol : ZlImageSymbol} (h : zlLinkObjects alloc objects none = .ok output)
    (himages : DecodeTo objects images) (hexecutable : zlImageDecode allocAll output = .ok executable)
    (hentry : FirstEntry images object name)
    (honly : OnlyDefinition images name object index symbol) :
    EntryScoped images executable object symbol ↔
      Unshadowed images executable.sections name object symbol := by
  obtain ⟨images', sections, symbols, final, executable', -, hrun⟩ := zlLinkObjects_linkRun h
  obtain rfl := hrun.decoded.unique himages
  obtain rfl := Except.ok.inj (hrun.output_eq.symm.trans hexecutable)
  exact hrun.scoped_iff hentry honly

/-! ## Examples -/

/-- A local symbol. -/
def mainSymbol : ZlImageSymbol where
  name := some (CString.lit "main")
  sectionIndex := 0
  value := 0
  size := 0
  binding := symbolLocal
  type := symbolFunction

/-- An object that defines the local symbol `main`. -/
def mainObject (entry : Option CString) : ZlImage where
  kind := imageObject
  entrySymbol := entry
  sections := [{ name := some (CString.lit "text"), type := sectionText, flags := 0, alignment := 1,
                 address := 0, data := .bytes [1, 2, 3, 4, 5, 6, 7, 8] }]
  symbols := [mainSymbol]

/-- An executable of such objects. -/
def mainExecutable (addresses : List Word) : ZlImage where
  kind := imageExecutable
  entryPoint := 8
  sections := addresses.map fun address =>
    { name := some (CString.lit "text"), type := sectionText, flags := 0, alignment := 1,
      address, data := .bytes [1, 2, 3, 4, 5, 6, 7, 8] }

/-- The definition of `main` in such an object. -/
theorem onlyDefinition_mainObject {images : List ZlImage} {object : ℕ} {entry : Option CString}
    (h : images[object]? = some (mainObject entry)) :
    OnlyDefinition images (CString.lit "main") object 0 mainSymbol where
  listed := ⟨mainObject entry, h, rfl⟩
  defined := by decide
  named := rfl
  unique := by
    intro image index' symbol' himage hindex _ _
    rw [h] at himage
    obtain rfl := Option.some.inj himage
    have hlt := (List.getElem?_eq_some_iff.mp hindex).1
    exact Nat.lt_one_iff.mp hlt

theorem entryScoped_mainObject :
    EntryScoped [mainObject (some (CString.lit "main"))] (mainExecutable [8]) 0 mainSymbol := by
  refine (@entryScoped_iff (fun _ => true) [serialize (mainObject (some (CString.lit "main")))]
    (serialize (mainExecutable [8])) _ _ _ 0 _ _ (by decide +kernel)
    (.cons ⟨by decide +kernel, rfl⟩ .nil) (by decide +kernel) ⟨⟨_, rfl, rfl⟩, fun _ hlt => ?_⟩
    (onlyDefinition_mainObject rfl)).mpr ⟨fun address haddress => ?_, fun _ _ _ _ hlt => ?_⟩
  · cases hlt
  · have h8 : symbolAddress [mainObject (some (CString.lit "main"))] (mainExecutable [8]).sections 0
        mainSymbol = some 8 := by decide
    rw [← Option.some.inj (h8.symm.trans haddress), uint32Max]
    decide
  · cases hlt

/-- **A local symbol of an earlier object** takes the place of the entry symbol. -/
theorem mainObject_not_entryScoped :
    zlLinkObjects (fun _ => true)
        [serialize (mainObject none), serialize (mainObject (some (CString.lit "main")))] none
      = .ok (serialize (mainExecutable [8, 16])) ∧
    zlImageDecode allocAll (serialize (mainExecutable [8, 16])) = .ok (mainExecutable [8, 16]) ∧
    DecodeTo [serialize (mainObject none), serialize (mainObject (some (CString.lit "main")))]
      [mainObject none, mainObject (some (CString.lit "main"))] ∧
    FirstEntry [mainObject none, mainObject (some (CString.lit "main"))] 1 (CString.lit "main") ∧
    OnlyDefinition [mainObject none, mainObject (some (CString.lit "main"))] (CString.lit "main") 1 0
      mainSymbol ∧
    ¬EntryScoped [mainObject none, mainObject (some (CString.lit "main"))] (mainExecutable [8, 16]) 1
      mainSymbol := by
  refine ⟨by decide +kernel, by decide +kernel,
    .cons ⟨by decide +kernel, rfl⟩ (.cons ⟨by decide +kernel, rfl⟩ .nil),
    ⟨⟨_, rfl, rfl⟩, fun object hlt image himage => ?_⟩, onlyDefinition_mainObject rfl, ?_⟩
  · obtain rfl := Nat.lt_one_iff.mp hlt
    obtain rfl := Option.some.inj himage
    rfl
  · rintro ⟨address, haddress, hentry⟩
    have h16 : symbolAddress [mainObject none, mainObject (some (CString.lit "main"))]
        (mainExecutable [8, 16]).sections 1 mainSymbol = some 16 := by decide
    rw [← Option.some.inj (h16.symm.trans haddress)] at hentry
    exact absurd hentry (by decide)

end Zlvm
