import Zlvm.Link.Entry

/-!
# Whether addresses of symbols wrap

A reference inside an object adds the address of the section and the value of the symbol in 64 bits,
the symbol table that external references and the entry point use adds them in 32 bits.

* `ExternalReference` — a symbol that a relocation refers to and its object does not define.
* `ExactAddresses` — every address that is used is the sum, as it is inside the defining object.
* `SumsFit` — every sum that is used has 32 bits.
* **`exactAddresses_iff`** — these are the same linkings.
-/

namespace Zlvm

open Loop Nested

/-- A symbol that a relocation of an object refers to and that the object does not define. -/
structure ExternalReference (images : List ZlImage) (object : ℕ) (reference : ZlImageSymbol) :
    Prop where
  used : ∃ image r, images[object]? = some image ∧ r ∈ image.relocations ∧
    image.symbols[r.symbolIndex.toNat]? = some reference
  undefined : reference.sectionIndex = undefinedSection

/-- The addresses that a linking uses for external references and for the entry point are those of
the defining sections plus the values of the symbols, which a reference inside the defining object
uses. -/
structure ExactAddresses (images : List ZlImage) (name : CString) (sections : List LinkSection)
    (symbols : List ZlImageSymbol) (executable : ZlImage) : Prop where
  external : ∀ object reference, ExternalReference images object reference →
    ∃ object' index' symbol address,
      GlobalDefinition images reference.name object' index' symbol ∧
      symbolAddress images executable.sections object' symbol = some address ∧
      referenceValue sections symbols symbol object' = .ok address ∧
      referenceValue sections symbols reference object = .ok address
  entry : ∃ object index symbol address, FirstDefinition images name object index symbol ∧
    symbolAddress images executable.sections object symbol = some address ∧
    executable.entryPoint.toNat = address

/-- Every definition that an external reference or the entry point uses has an address of 32 bits. -/
structure SumsFit (images : List ZlImage) (name : CString) (placed : List ZlImageSection) :
    Prop where
  external : ∀ object reference object' index' symbol address,
    ExternalReference images object reference →
    GlobalDefinition images reference.name object' index' symbol →
    symbolAddress images placed object' symbol = some address → address ≤ uint32Max
  entry : ∀ object index symbol address, FirstDefinition images name object index symbol →
    symbolAddress images placed object symbol = some address → address ≤ uint32Max

section Run

variable {objects : List Bytes} {entrySymbol : Option CString} {output : Bytes}
  {images : List ZlImage} {sections final : List LinkSection} {symbols : List ZlImageSymbol}
  {executable : ZlImage}

theorem LinkRun.symbolAddress_eq
    (h : LinkRun objects entrySymbol output images sections symbols final executable) (object : ℕ)
    (symbol : ZlImageSymbol) : symbolAddress images (sections.map (·.image)) object symbol
      = symbolAddress images executable.sections object symbol := by
  rw [h.linked.sections_eq]
  exact symbolAddress_congr (h.linked.addresses h.wellFormed).symm object symbol

/-- **A reference inside the defining object** uses the sum. -/
theorem LinkRun.referenceValue_own
    (h : LinkRun objects entrySymbol output images sections symbols final executable)
    {object index address : ℕ} {symbol : ZlImageSymbol}
    (hlisted : ∃ image, images[object]? = some image ∧ image.symbols[index]? = some symbol)
    (hdefined : symbol.sectionIndex ≠ undefinedSection)
    (haddress : symbolAddress images executable.sections object symbol = some address) :
    referenceValue sections symbols symbol object = .ok address := by
  obtain ⟨image, himage, hindex⟩ := hlisted
  have hlt := ((h.wellFormed image (List.mem_of_getElem? himage)).symbols symbol
    (List.mem_of_getElem? hindex)).sectionIndex.resolve_left hdefined
  have hinput := List.getElem?_eq_getElem hlt
  obtain ⟨s, hs, -⟩ := h.linked.layout.at_position himage hinput
  rw [← h.symbolAddress_eq, symbolAddress, if_neg hdefined, linkedSection, List.getElem?_map, hs]
    at haddress
  rw [referenceValue, if_pos hdefined, h.linked.layout.findSection_eq himage hinput, orElse, ok_bind,
    addressAt_eq hs]
  exact congrArg Except.ok (Option.some.inj haddress)

/-- **A reference to another object** uses the sum in 32 bits. -/
theorem LinkRun.referenceValue_external
    (h : LinkRun objects entrySymbol output images sections symbols final executable) {object : ℕ}
    {reference : ZlImageSymbol} (hreference : ExternalReference images object reference) :
    ∃ object' index' symbol address,
      GlobalDefinition images reference.name object' index' symbol ∧
      symbolAddress images executable.sections object' symbol = some address ∧
      referenceValue sections symbols reference object = .ok (UInt32.ofNat address).toNat := by
  obtain ⟨image, r, himage, hr, hsymbol⟩ := hreference.used
  obtain ⟨index, hindex⟩ := List.mem_iff_getElem?.mp hr
  obtain ⟨hok, -⟩ := relocate_foldlM (h.linked.layout.stored h.wellFormed) h.linked.loop
  obtain ⟨⟨destination, value⟩, hrelocation⟩ :=
    hok _ (List.mem_of_getElem? (getElem?_position himage hindex))
  obtain ⟨s, reference', address, hfacts⟩ := relocation_facts h.linked.layout hrelocation
  obtain rfl := Option.some.inj (hsymbol.symm.trans hfacts.symbol)
  have hvalue := hfacts.value_eq
  simp only [referenceValue, if_neg (not_not.mpr hreference.undefined), bind_eq_ok, orElse_eq_ok]
    at hvalue
  obtain ⟨entry, hfind, -⟩ := hvalue
  have hmatch := List.find?_some hfind
  rw [Bool.and_eq_true, beq_iff_eq] at hmatch
  obtain ⟨p, hp⟩ := List.mem_iff_getElem?.mp (List.mem_of_find?_eq_some hfind)
  obtain ⟨object', index', symbol, address', hglobal, -, haddress, hentry⟩ :=
    h.linked.table.definition h.linked.layout h.count hp hmatch.2
  rw [hmatch.1] at hglobal
  rw [h.symbolAddress_eq] at haddress
  refine ⟨object', index', symbol, address', hglobal, haddress, ?_⟩
  rw [referenceValue, if_neg (not_not.mpr hreference.undefined), hfind, orElse, ok_bind, hentry]
  rfl

theorem LinkRun.exact_iff
    (h : LinkRun objects entrySymbol output images sections symbols final executable) :
    ExactAddresses images (selectedEntry images entrySymbol) sections symbols executable ↔
      SumsFit images (selectedEntry images entrySymbol) executable.sections := by
  obtain ⟨object₀, index₀, symbol₀, hselects⟩ := h.selectsEntry
  obtain ⟨address₀, haddress₀, hpoint⟩ := hselects.value
  constructor
  · intro hexact
    refine ⟨fun object reference object' index' symbol address hreference hglobal haddress => ?_,
      fun object index symbol address hfirst haddress => ?_⟩
    · obtain ⟨o, i, y, a, hglobal', haddress', -, hvalue⟩ := hexact.external object reference hreference
      obtain ⟨o', i', y', a', hglobal'', haddress'', hvalue'⟩ := h.referenceValue_external hreference
      obtain ⟨rfl, rfl⟩ := hglobal.unique h.linked.table h.linked.layout h.count hglobal'
      obtain ⟨image, himage, hindex⟩ := hglobal.listed
      obtain ⟨image', himage', hindex'⟩ := hglobal'.listed
      rw [himage] at himage'
      rw [← Option.some.inj himage', hindex] at hindex'
      obtain rfl := Option.some.inj hindex'
      obtain rfl := Option.some.inj (haddress.symm.trans haddress')
      rw [Except.ok.inj (hvalue.symm.trans hvalue'), uint32Max]
      have hlt := (UInt32.ofNat a').toNat_lt
      omega
    · obtain ⟨o, i, y, a, hfirst', haddress', hentry⟩ := hexact.entry
      obtain ⟨rfl, rfl⟩ := hfirst.unique hfirst'
      rw [Option.some.inj (haddress.symm.trans haddress'), ← hentry, uint32Max]
      have hlt := executable.entryPoint.toNat_lt
      omega
  · intro hfit
    have hexact : ∀ {address : ℕ}, address ≤ uint32Max → (UInt32.ofNat address).toNat = address := by
      intro address hle
      rw [uint32Max] at hle
      rw [UInt32.toNat_ofNat', Nat.mod_eq_of_lt (by omega)]
    refine ⟨fun object reference hreference => ?_, object₀, index₀, symbol₀, address₀,
      hselects.firstDefinition, haddress₀, ?_⟩
    · obtain ⟨object', index', symbol, address, hglobal, haddress, hvalue⟩ :=
        h.referenceValue_external hreference
      refine ⟨object', index', symbol, address, hglobal, haddress,
        h.referenceValue_own hglobal.listed hglobal.defined haddress, ?_⟩
      rw [hvalue, hexact (hfit.external _ _ _ _ _ _ hreference hglobal haddress)]
    · rw [hpoint, hexact (hfit.entry _ _ _ _ hselects.firstDefinition haddress₀)]

end Run

/-- **When no address wraps.**  The addresses that a successful linking uses are exact if and only if
those of the definitions that it uses have 32 bits. -/
theorem exactAddresses_iff {alloc : LinkAllocator} {objects : List Bytes}
    {entrySymbol : Option CString} {output : Bytes}
    (h : zlLinkObjects alloc objects entrySymbol = .ok output) :
    ∃ images sections symbols final executable,
      LinkRun objects entrySymbol output images sections symbols final executable ∧
      (ExactAddresses images (selectedEntry images entrySymbol) sections symbols executable ↔
        SumsFit images (selectedEntry images entrySymbol) executable.sections) := by
  obtain ⟨images, sections, symbols, final, executable, -, hrun⟩ := zlLinkObjects_linkRun h
  exact ⟨images, sections, symbols, final, executable, hrun, hrun.exact_iff⟩

theorem exactAddresses_iff_linkedObjects :
    ∃ images sections symbols final executable,
      LinkRun [serialize callerObject, serialize calleeObject] none (serialize linkedObjects) images
        sections symbols final executable ∧
      (ExactAddresses images (selectedEntry images none) sections symbols executable ↔
        SumsFit images (selectedEntry images none) executable.sections) :=
  @exactAddresses_iff (fun _ => true) _ none _ (by decide +kernel)

/-- An object that defines `f` far behind its section. -/
def farObject : ZlImage :=
  { calleeObject with
    symbols := [{ name := some (CString.lit "f"), sectionIndex := 0, value := 0xFFFFFFFF, size := 0,
                  binding := symbolGlobal, type := symbolFunction }] }

/-- What a caller and that object are linked to: the call goes to `2 ^ 32 + 15`, without the bit
that does not fit. -/
def wrappedObjects : ZlImage :=
  { linkedObjects with
    sections :=
      [{ name := some (CString.lit "t"), type := sectionText, flags := 0, alignment := 8,
         address := 8, data := .bytes [1, 2, 3, 4, 17, 0, 0, 0] },
       { name := some (CString.lit "u"), type := sectionText, flags := 0, alignment := 4,
         address := 16, data := .bytes [5, 6, 7] }] }

/-- **An address that does not fit** is used without its highest bit. -/
theorem farObject_not_exactAddresses :
    zlLinkObjects (fun _ => true) [serialize callerObject, serialize farObject] none
      = .ok (serialize wrappedObjects) ∧
    ∀ images sections symbols final executable,
      LinkRun [serialize callerObject, serialize farObject] none (serialize wrappedObjects) images
        sections symbols final executable →
      ¬ExactAddresses images (selectedEntry images none) sections symbols executable := by
  refine ⟨by decide +kernel, fun images sections symbols final executable hrun hexact => ?_⟩
  have hdecoded : DecodeTo [serialize callerObject, serialize farObject] [callerObject, farObject] :=
    .cons ⟨by decide +kernel, rfl⟩ (.cons ⟨by decide +kernel, rfl⟩ .nil)
  have houtput : zlImageDecode allocAll (serialize wrappedObjects) = .ok wrappedObjects := by
    decide +kernel
  obtain rfl := hrun.decoded.unique hdecoded
  obtain rfl := Except.ok.inj (hrun.output_eq.symm.trans houtput)
  have hfit := (hrun.exact_iff.mp hexact).external 0 _ 1 0 _ (2 ^ 32 + 15)
    ⟨⟨callerObject, _, rfl, List.mem_singleton_self _, rfl⟩, rfl⟩
    ⟨⟨farObject, rfl, rfl⟩, rfl, by decide, rfl⟩ (by decide)
  exact absurd hfit (by decide)

end Zlvm
