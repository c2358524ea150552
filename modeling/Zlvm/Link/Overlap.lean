import Zlvm.Lib.Failure
import Zlvm.Link.Executable

/-!
# When an overlap is reported

`overlaps` compares half-open intervals, and an empty interval can lie inside another one without
sharing a byte with it.

* `SharesByte` — the section that is placed has a byte in common with an earlier one.
* `NonemptyMatch` — the section is not empty, and neither is one that `overlaps` finds.
* `sharesByte_iff` — these are the same.
* **`zlLinkObjects_overlap`** — an overlap error comes from the layout loop, and is genuine exactly
  if the sections it is about are not empty.
-/

namespace Zlvm

open Loop Nested

/-! ## The test -/

/-- The section to be placed has, at its address, a byte in common with a section placed before. -/
def SharesByte (state : LayoutState) (visit : Visit ZlImage ZlImageSection) : Prop :=
  ∃ address, chooseAddress state.cursor visit.inner = .ok address ∧
    ∃ s ∈ state.sections, ∃ byte, s.image.Covers byte ∧ { visit.inner with address }.Covers byte

/-- The section to be placed is not empty, and `overlaps` finds an earlier one that is not. -/
def NonemptyMatch (state : LayoutState) (visit : Visit ZlImage ZlImageSection) : Prop :=
  visit.inner.dataSize ≠ 0 ∧ ∃ address, chooseAddress state.cursor visit.inner = .ok address ∧
    ∃ s ∈ state.sections, s.image.dataSize ≠ 0 ∧
      overlaps [s] address visit.inner.dataSize = true

theorem overlaps_singleton {s : LinkSection} {address : Word} {size : ℕ} :
    overlaps [s] address size = true ↔
      address.toNat < s.image.address.toNat + s.image.dataSize ∧
        s.image.address.toNat < address.toNat + size := by
  rw [overlaps, List.any_cons, List.any_nil, Bool.or_false, Bool.and_eq_true, decide_eq_true_eq,
    decide_eq_true_eq]

/-- **Two sections share a byte** exactly if their intervals meet and neither is empty. -/
theorem covers_iff {s : LinkSection} {input : ZlImageSection} {address : Word} :
    (∃ byte, s.image.Covers byte ∧ { input with address }.Covers byte) ↔
      s.image.dataSize ≠ 0 ∧ input.dataSize ≠ 0 ∧ overlaps [s] address input.dataSize = true := by
  have hcovers : ∀ byte, ({ input with address } : ZlImageSection).Covers byte ↔
      address.toNat ≤ byte ∧ byte < address.toNat + input.dataSize := fun _ => Iff.rfl
  rw [overlaps_singleton]
  constructor
  · rintro ⟨byte, ⟨hle, hlt⟩, hbyte⟩
    obtain ⟨hle', hlt'⟩ := (hcovers byte).mp hbyte
    omega
  · rintro ⟨hs, hinput, hleft, hright⟩
    refine ⟨max s.image.address.toNat address.toNat, ⟨?_, ?_⟩, (hcovers _).mpr ⟨?_, ?_⟩⟩ <;> omega

theorem sharesByte_iff {state : LayoutState} {visit : Visit ZlImage ZlImageSection} :
    SharesByte state visit ↔ NonemptyMatch state visit := by
  simp only [SharesByte, NonemptyMatch, covers_iff]
  constructor
  · rintro ⟨address, haddress, s, hs, hsize, hinput, hoverlaps⟩
    exact ⟨hinput, address, haddress, s, hs, hsize, hoverlaps⟩
  · rintro ⟨hinput, address, haddress, s, hs, hsize, hoverlaps⟩
    exact ⟨address, haddress, s, hs, hsize, hinput, hoverlaps⟩

/-! ## Where the error comes from -/

theorem failsWith_orElse {α : Type} {E : ZlLinkError → Prop} {error : ZlLinkError} {o : Option α} :
    FailsWith E (orElse error o) ↔ (o = none → E error) := by
  cases o <;> simp [orElse]

/-- Decoding an object reports no overlap. -/
theorem decodeObject_failsWith (alloc : LinkAllocator) (object : Bytes × ℕ) :
    FailsWith (· ≠ .overlap) (decodeObject alloc object) := by
  unfold decodeObject
  split
  · simp
  · split <;> simp

/-- The symbol loop reports no overlap. -/
theorem collectSymbol_failsWith (sections : List LinkSection) (symbols : List ZlImageSymbol)
    (visit : Visit ZlImage ZlImageSymbol) :
    FailsWith (· ≠ .overlap) (collectSymbol sections symbols visit) := by
  have htranslate : FailsWith (· ≠ .overlap)
      (translateSymbol sections visit.inner visit.outerIndex) := by
    unfold translateSymbol
    split <;> simp [failsWith_orElse]
  simp [collectSymbol, htranslate]

/-- The relocation loop reports no overlap. -/
theorem relocate_failsWith (symbols : List ZlImageSymbol) (sections : List LinkSection)
    (visit : Visit ZlImage ZlImageRelocation) :
    FailsWith (· ≠ .overlap) (relocate symbols sections visit) := by
  have hvalue : ∀ reference object, FailsWith (· ≠ .overlap)
      (referenceValue sections symbols reference object) := by
    intro reference object
    unfold referenceValue
    split <;> simp [failsWith_orElse]
  simp [relocate, relocation, hvalue, failsWith_orElse]

theorem orIncompatible_failsWith (x : Except ZlImageError Bytes) :
    FailsWith (· ≠ .overlap) (orIncompatible x) := by
  unfold orIncompatible
  split <;> simp

/-- An overlap comes from the layout loop. -/
theorem layout_of_overlap {alloc : LinkAllocator} {objects : List Bytes}
    {entrySymbol : Option CString} (h : zlLinkObjects alloc objects entrySymbol = .error .overlap) :
    ∃ images, DecodeTo objects images ∧
      (visits ZlImage.sections images).foldlM placeSection { sections := [], cursor := 8 }
        = .error .overlap := by
  rw [zlLinkObjects, bind_eq_error] at h
  rcases h with h | ⟨-, -, h⟩
  · exact absurd (require_eq_error.mp h).2 (by decide)
  rw [bind_eq_error] at h
  rcases h with h | ⟨-, -, h⟩
  · exact absurd (require_eq_error.mp h).2 (by decide)
  rw [bind_eq_error] at h
  rcases h with h | ⟨images, himages, h⟩
  · exact absurd rfl (FailsWith.mapM (fun object _ => decodeObject_failsWith alloc object) _ h)
  refine ⟨images, decodeTo_of_mapM himages, ?_⟩
  rw [bind_eq_error] at h
  rcases h with h | ⟨executable, -, h⟩
  swap
  · exact absurd rfl (orIncompatible_failsWith _ _ h)
  rw [linkImages, bind_eq_error] at h
  rcases h with h | ⟨-, -, h⟩
  · exact absurd (require_eq_error.mp h).2 (by decide)
  rw [bind_eq_error] at h
  rcases h with h | ⟨layout, -, h⟩
  · exact h
  -- nothing after the layout loop reports an overlap
  have hsymbols := FailsWith.foldlM (l := visits ZlImage.symbols images) (b := [])
    fun visit _ symbols => collectSymbol_failsWith layout.sections symbols visit
  have hrelocations : ∀ symbols, FailsWith (· ≠ .overlap)
      ((visits ZlImage.relocations images).foldlM (relocate symbols) layout.sections) :=
    fun symbols => FailsWith.foldlM fun visit _ sections => relocate_failsWith symbols sections visit
  refine absurd rfl ((?_ : FailsWith (· ≠ ZlLinkError.overlap) _) _ h)
  simp [hsymbols, hrelocations]

/-- A pass that reports an overlap. -/
theorem placeSection_overlap {state : LayoutState} {visit : Visit ZlImage ZlImageSection}
    (h : placeSection state visit = .error .overlap) :
    ∃ address, chooseAddress state.cursor visit.inner = .ok address ∧
      overlaps state.sections address visit.inner.dataSize = true := by
  rw [placeSection, bind_eq_error] at h
  rcases h with h | ⟨address, haddress, h⟩
  · exfalso
    revert h
    unfold chooseAddress
    split
    · refine fun h => absurd rfl ((?_ : FailsWith (· ≠ ZlLinkError.overlap) _) _ h)
      simp [failsWith_orElse]
    · exact fun h => by cases h
  rw [bind_eq_error] at h
  rcases h with h | ⟨-, -, h⟩
  · refine ⟨address, haddress, ?_⟩
    have herror := (require_eq_error.mp h).2
    by_contra hno
    rw [if_neg hno] at herror
    cases herror
  · cases h

/-- **When an overlap error is genuine.**  The error comes from a pass of the layout loop at which
`overlaps` finds a section; they share a byte exactly if neither of the two is empty. -/
theorem zlLinkObjects_overlap {alloc : LinkAllocator} {objects : List Bytes}
    {entrySymbol : Option CString} (h : zlLinkObjects alloc objects entrySymbol = .error .overlap) :
    ∃ images state visit, DecodeTo objects images ∧
      failingPass placeSection { sections := [], cursor := 8 } (visits ZlImage.sections images)
        = some (state, visit) ∧
      (∃ address, chooseAddress state.cursor visit.inner = .ok address ∧
        overlaps state.sections address visit.inner.dataSize = true) ∧
      (SharesByte state visit ↔ NonemptyMatch state visit) := by
  obtain ⟨images, himages, hlayout⟩ := layout_of_overlap h
  obtain ⟨state, visit, hpass, herror⟩ := foldlM_eq_error_iff.mp hlayout
  exact ⟨images, state, visit, himages, hpass, placeSection_overlap herror, sharesByte_iff⟩

/-- An object whose data is located at the given address, behind a text section. -/
def crossingObject (text : Bytes) (address : Word) : ZlImage where
  kind := imageObject
  sections :=
    [{ name := some (CString.lit "text"), type := sectionText, flags := 0, alignment := 1,
       address := 0, data := .bytes text },
     { name := some (CString.lit "data"), type := sectionDataType, flags := 1, alignment := 1,
       address, data := .bytes (List.replicate 16 0) }]

theorem zlLinkObjects_overlap_crossingObject :
    ∃ images state visit, DecodeTo [serialize (crossingObject [1, 2, 3, 4] 4)] images ∧
      failingPass placeSection { sections := [], cursor := 8 } (visits ZlImage.sections images)
        = some (state, visit) ∧
      (∃ address, chooseAddress state.cursor visit.inner = .ok address ∧
        overlaps state.sections address visit.inner.dataSize = true) ∧
      (SharesByte state visit ↔ NonemptyMatch state visit) :=
  @zlLinkObjects_overlap (fun _ => true) _ none (by decide +kernel)

/-- **An empty section is reported as an overlap** if it lies inside another one. -/
theorem crossingObject_not_sharesByte :
    zlLinkObjects (fun _ => true) [serialize (crossingObject [] 4)] none = .error .overlap ∧
      ∀ images state visit, DecodeTo [serialize (crossingObject [] 4)] images →
        failingPass placeSection { sections := [], cursor := 8 } (visits ZlImage.sections images)
          = some (state, visit) → ¬SharesByte state visit := by
  refine ⟨by decide +kernel, fun images state visit himages hpass => ?_⟩
  have hdecode : zlImageDecode allocAll (serialize (crossingObject [] 4))
      = .ok (crossingObject [] 4).normalise := by decide +kernel
  obtain _ | ⟨⟨himage, -⟩, hrest⟩ := himages
  obtain _ | _ := hrest
  obtain rfl := Except.ok.inj (hdecode.symm.trans himage)
  have hempty : ∀ s ∈ state.sections, s.image.dataSize = 0 := by
    have hsections : (failingPass placeSection { sections := [], cursor := 8 }
        (visits ZlImage.sections [(crossingObject [] 4).normalise])).map
          (fun pass => pass.1.sections.all fun s => s.image.dataSize == 0) = some true := by
      decide +kernel
    rw [hpass, Option.map_some, Option.some.injEq, List.all_eq_true] at hsections
    exact fun s hs => beq_iff_eq.mp (hsections s hs)
  rintro ⟨address, -, s, hs, byte, ⟨hle, hlt⟩, -⟩
  rw [hempty s hs] at hlt
  omega

end Zlvm
