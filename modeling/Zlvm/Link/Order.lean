import Mathlib.Algebra.Order.BigOperators.Group.List
import Mathlib.Data.List.Perm.Basic
import Zlvm.Link.Located

/-!
# The order of the objects

* `zlLinkObjects_located` — the linking of located objects, in terms of the objects alone.
* `find?_perm`, `definitions_perm`, `merged_perm`, `Linkable.perm`, `Encodable.perm` — what another
  order of the objects changes.
* `HoldsSections.unique` — executables with the same sections leave the same ROM.
* **`zlLinkObjects_perm`** — located objects may be linked in any order.
-/

namespace Zlvm

open Loop Nested

/-! ## The linking of located objects -/

theorem mapM_decodeObject {images : List ZlImage} : ∀ {objects : List Bytes} (k : ℕ),
    DecodeTo objects images →
      (objects.zipIdx k).mapM (decodeObject fun _ => true) = .ok images := by
  intro objects k h
  induction h generalizing k with
  | nil => rfl
  | @cons object image _ _ hdecode _ ih =>
      have hobject : decodeObject (fun _ => true) (object, k) = .ok image := by
        rw [decodeObject, show (fun allocation => (fun _ => true : LinkAllocator)
          (.object k allocation)) = allocAll from rfl, hdecode.1]
        exact if_pos hdecode.2
      rw [List.zipIdx_cons, List.mapM_cons, hobject, ok_bind, ih]
      rfl

theorem length_merged (images : List ZlImage) (name : CString) :
    (merged images name).sections.length = (images.flatMap ZlImage.sections).length := by
  rw [merged, List.length_flatMap, List.length_flatMap]
  simp [ZlImage.linkedSections]

/-- **The linking of located objects.** -/
theorem zlLinkObjects_located {objects : List Bytes} {images : List ZlImage} {name : CString}
    {output : Bytes} (hdecode : DecodeTo objects images) (hlocated : Located images) :
    zlLinkObjects (fun _ => true) objects (some name) = .ok output ↔
      Linkable images name ∧ (merged images name).Encodable ∧
        (merged images name).encodedSize ≤ uint32Max ∧
        output = serialize (merged images name) := by
  constructor
  · intro h
    obtain ⟨images', sections, symbols, final, executable, hlink, hrun⟩ := zlLinkObjects_linkRun h
    obtain ⟨images'', executable', himages, hlink', hencodable, hsize, rfl⟩ := zlLinkObjects_eq_ok h
    obtain rfl := hdecode.unique hrun.decoded
    obtain rfl := hdecode.unique himages
    have hcount := hrun.count
    rw [hrun.linked.layout.located hlocated, length_locatedTable] at hcount
    obtain ⟨hlinkable, rfl⟩ := (linkImages_located hlocated hcount hrun.wellFormed).mp hlink'
    exact ⟨hlinkable, hencodable, hsize, rfl⟩
  · rintro ⟨hlinkable, hencodable, hsize, rfl⟩
    have hcount := (ZlImage.counts_le hsize).1
    rw [length_merged] at hcount
    have hlink := (linkImages_located hlocated hcount hdecode.wellFormed).mpr ⟨hlinkable, rfl⟩
    have hnonempty : objects ≠ [] := by
      rintro rfl
      obtain _ | _ := hdecode
      exact hlinkable.entry rfl
    simp only [zlLinkObjects, bind_eq_ok, require_eq_ok]
    refine ⟨(), hnonempty, (), trivial, images, mapM_decodeObject 0 hdecode, _, hlink, ?_⟩
    rw [zlImageEncode_eq_ok.mpr ⟨rfl, hencodable, hsize, rfl⟩]
    rfl

/-! ## Another order -/

/-- A search with at most one answer does not depend on the order. -/
theorem find?_perm {α : Type} {p : α → Bool} {l l' : List α} (h : l.Perm l')
    (hcount : l.countP p ≤ 1) : l.find? p = l'.find? p := by
  have hfilter := h.filter p
  rw [List.countP_eq_length_filter] at hcount
  rw [← List.head?_filter, ← List.head?_filter]
  rcases Nat.le_one_iff_eq_zero_or_eq_one.mp hcount with hzero | hone
  · rw [List.eq_nil_of_length_eq_zero hzero] at hfilter ⊢
    rw [hfilter.nil_eq]
  · obtain ⟨a, ha⟩ := List.length_eq_one_iff.mp hone
    rw [ha] at hfilter ⊢
    rw [hfilter.singleton_eq]

section Permutation

variable {images images' : List ZlImage} {name : CString} (hperm : images.Perm images')
include hperm

theorem definitions_perm : (definitions images).Perm (definitions images') :=
  hperm.flatMap_right _

/-- The global definitions are the same. -/
theorem globalValue_perm
    (hdistinct : ∀ name, (definitions images).countP (Definition.isGlobal name) ≤ 1) :
    globalValue (definitions images) = globalValue (definitions images') :=
  funext fun name => by
    rw [globalValue, globalValue, find?_perm (definitions_perm hperm) (hdistinct name)]

/-- The entry point is the same. -/
theorem entryValue_perm
    (hentry : (definitions images).countP (fun definition => definition.name == some name) ≤ 1) :
    entryValue (definitions images) name = entryValue (definitions images') name := by
  rw [entryValue, entryValue, find?_perm (definitions_perm hperm) hentry]

/-- The sections of the executable are the same, in another order. -/
theorem merged_perm
    (hdistinct : ∀ name, (definitions images).countP (Definition.isGlobal name) ≤ 1)
    (name : CString) :
    (merged images name).sections.Perm (merged images' name).sections := by
  rw [merged, merged, ← globalValue_perm hperm hdistinct]
  exact hperm.flatMap_right _

theorem Located.perm (h : Located images) : Located images' :=
  fun image himage => h image (hperm.mem_iff.mpr himage)

theorem Linkable.perm (h : Linkable images name)
    (hentry : (definitions images).countP (fun definition => definition.name == some name) ≤ 1) :
    Linkable images' name := by
  have hsections := hperm.flatMap_right ZlImage.sections
  refine ⟨fun s hs => h.fits s (hsections.mem_iff.mpr hs), ?_, fun name => ?_, ?_, ?_⟩
  · exact (hsections.pairwise_iff fun hst => hst.symm).mp h.apart
  · rw [← (definitions_perm hperm).countP_eq]
    exact h.distinct name
  · rw [← globalValue_perm hperm h.distinct]
    exact fun image himage => h.relocates image (hperm.mem_iff.mpr himage)
  · rw [← entryValue_perm hperm hentry]
    exact h.entry

end Permutation

section Encoding

variable {image : ZlImage} {sections : List ZlImageSection}
  (hsections : image.sections.Perm sections)
include hsections

/-- The encoder takes the sections of an executable in any order. -/
theorem Encodable.perm (hkind : image.kind = imageExecutable) (h : image.Encodable) :
    ZlImage.Encodable { image with sections } := by
  refine ⟨h.kind, h.linked, fun s hs => h.sections s (hsections.mem_iff.mpr hs), ?_, ?_, h.object,
    h.entry, fun hkind => ?_⟩
  · rw [← hsections.length_eq]
    exact h.symbols
  · rw [List.eq_nil_of_length_eq_zero (h.linked hkind)]
    rfl
  · obtain ⟨s, hs, hcovers⟩ := entryFound_iff.mp (h.found hkind)
    exact entryFound_iff.mpr ⟨s, hsections.mem_iff.mp hs, hcovers⟩

/-- The size of the file does not depend on the order of the sections. -/
theorem encodedSize_perm : ZlImage.encodedSize { image with sections } = image.encodedSize := by
  have hpayload : (payloadTable sections).length = (payloadTable image.sections).length :=
    (hsections.flatMap_right _).length_eq.symm
  have hnames : (ZlImage.strings { image with sections }).Perm image.strings :=
    ((hsections.map _).symm.append_right _).append_right _
  have hstrings : (stringTable (ZlImage.strings { image with sections })).length
      = (stringTable image.strings).length := (hnames.flatMap_right _).length_eq
  rw [ZlImage.encodedSize, ZlImage.encodedSize, ZlImage.layout, ZlImage.layout]
  simp only [hpayload, hstrings, hsections.length_eq]

end Encoding

/-! ## Loading -/

/-- Executables with the same sections leave the same ROM. -/
theorem HoldsSections.unique {executable executable' : ZlImage} {rom rom₁ rom₂ : Rom}
    (h₁ : HoldsSections executable rom rom₁) (h₂ : HoldsSections executable' rom rom₂)
    (hsections : ∀ s, s ∈ executable.sections ↔ s ∈ executable'.sections) : rom₁ = rom₂ := by
  refine Rom.ext (List.ext_getElem? fun address => ?_)
  by_cases hcovered : ∃ s ∈ executable.sections, s.Covers address
  · obtain ⟨s, hs, hle, hlt⟩ := hcovered
    obtain ⟨j, rfl⟩ := Nat.exists_eq_add_of_le hle
    rw [h₁.held s hs j (by omega), h₂.held s ((hsections s).mp hs) j (by omega)]
  · rw [h₁.rest address fun s hs hcovers => hcovered ⟨s, hs, hcovers⟩,
      h₂.rest address fun s hs hcovers => hcovered ⟨s, (hsections s).mpr hs, hcovers⟩]

/-! ## Order independence -/

/-- A symbol that its object defines has the name. -/
def ZlImageSymbol.definesName (name : CString) (symbol : ZlImageSymbol) : Bool :=
  symbol.sectionIndex != undefinedSection && symbol.name == some name

theorem countP_definitions_le (images : List ZlImage) (name : CString) :
    (definitions images).countP (fun definition => definition.name == some name)
      ≤ (images.flatMap ZlImage.symbols).countP (ZlImageSymbol.definesName name) := by
  rw [definitions, List.countP_flatMap, List.countP_flatMap]
  refine List.sum_le_sum fun image _ => ?_
  rw [Function.comp_apply, Function.comp_apply, List.countP_filterMap]
  refine List.countP_mono_left fun symbol _ hcount => ?_
  by_cases hdefined : symbol.sectionIndex = undefinedSection
  · simp [ZlImage.definition, hdefined] at hcount
  · rw [ZlImageSymbol.definesName, bne_iff_ne.mpr hdefined, Bool.true_and]
    cases hs : image.sections[symbol.sectionIndex.toNat]? with
    | none => simp [ZlImage.definition, hdefined, hs] at hcount
    | some s => simpa [ZlImage.definition, hdefined, hs] using hcount

/-- Objects in another order decode to their images in that order. -/
theorem DecodeTo.perm {objects objects' : List Bytes} {images : List ZlImage}
    (h : DecodeTo objects images) (hperm : objects.Perm objects') :
    ∃ images', DecodeTo objects' images' ∧ images.Perm images' := by
  obtain ⟨images', hdecode, himages⟩ := List.perm_comp_forall₂ hperm.symm h
  exact ⟨images', hdecode, himages.symm⟩

/-- Objects whose every section has an address of its own, and of whose symbols exactly one defines
the entry. -/
structure Orderless (images : List ZlImage) (name : CString) : Prop where
  located : Located images
  entry : (images.flatMap ZlImage.symbols).countP (ZlImageSymbol.definesName name) = 1

section Orderless

variable {images images' : List ZlImage} {name : CString}

theorem Orderless.countP_le (h : Orderless images name) :
    (definitions images).countP (fun definition => definition.name == some name) ≤ 1 :=
  (countP_definitions_le images name).trans h.entry.le

theorem Orderless.perm (h : Orderless images name) (hperm : images.Perm images') :
    Orderless images' name :=
  ⟨h.located.perm hperm, by rw [← (hperm.flatMap_right ZlImage.symbols).countP_eq, h.entry]⟩

/-- The executable of another order differs in the order of its sections. -/
theorem Orderless.merged_eq (h : Orderless images name) (hperm : images.Perm images') :
    merged images' name = { merged images name with sections := (merged images' name).sections } := by
  rw [merged, merged, ← entryValue_perm hperm h.countP_le]

variable {objects objects' : List Bytes} {output output' : Bytes}

/-- **Another order is linked, too.** -/
theorem Orderless.links (h : Orderless images name) (hperm : images.Perm images')
    (hdecode : DecodeTo objects images) (hdecode' : DecodeTo objects' images')
    (hlink : zlLinkObjects (fun _ => true) objects (some name) = .ok output) :
    zlLinkObjects (fun _ => true) objects' (some name)
      = .ok (serialize (merged images' name)) := by
  obtain ⟨hlinkable, hencodable, hsize, -⟩ := (zlLinkObjects_located hdecode h.located).mp hlink
  have hsections := merged_perm hperm hlinkable.distinct name
  refine (zlLinkObjects_located hdecode' (h.located.perm hperm)).mpr
    ⟨hlinkable.perm hperm h.countP_le, ?_, ?_, rfl⟩
  · rw [h.merged_eq hperm]
    exact Encodable.perm hsections rfl hencodable
  · rw [h.merged_eq hperm, encodedSize_perm hsections]
    exact hsize

/-- What loading the executable of located objects does. -/
theorem Orderless.loads (h : Orderless images name) (hdecode : DecodeTo objects images)
    (hlink : zlLinkObjects (fun _ => true) objects (some name) = .ok output) (vm : VirtualMachine) :
    ∃ rom, vmLoadImage allocAll vm output
        = ({ vm with rom, entryPoint := (merged images name).entryPoint }, .ok ()) ∧
      HoldsSections (merged images name) vm.rom rom := by
  obtain ⟨images', executable, rom, hdecode', hlinked, -, hload, hholds⟩ :=
    vmLoadImage_zlLinkObjects hlink vm
  obtain rfl := hdecode.unique hdecode'
  obtain ⟨-, -, hsize, -⟩ := (zlLinkObjects_located hdecode h.located).mp hlink
  have hcount := (ZlImage.counts_le hsize).1
  rw [length_merged] at hcount
  obtain ⟨-, rfl⟩ := (linkImages_located h.located hcount hdecode.wellFormed).mp hlinked
  exact ⟨rom, hload, hholds⟩

end Orderless

section Results

variable {objects objects' : List Bytes} {name : CString}

/-- **Link order independence.**  Located objects, among whose symbols exactly one defines the entry,
are linked in one order if and only if they are in another; then both executables load into every
machine, with the same ROM and the same entry point. -/
theorem zlLinkObjects_perm (hperm : objects.Perm objects')
    (h : ∀ images, DecodeTo objects images → Orderless images name) :
    ((∃ output, zlLinkObjects (fun _ => true) objects (some name) = .ok output) ↔
      ∃ output', zlLinkObjects (fun _ => true) objects' (some name) = .ok output') ∧
    ∀ output output', zlLinkObjects (fun _ => true) objects (some name) = .ok output →
      zlLinkObjects (fun _ => true) objects' (some name) = .ok output' →
      ∀ vm : VirtualMachine, ∃ rom entryPoint,
        vmLoadImage allocAll vm output = ({ vm with rom, entryPoint }, .ok ()) ∧
        vmLoadImage allocAll vm output' = ({ vm with rom, entryPoint }, .ok ()) := by
  refine ⟨⟨?_, ?_⟩, ?_⟩
  · rintro ⟨output, hlink⟩
    obtain ⟨images, -, hdecode, -⟩ := zlLinkObjects_eq_ok hlink
    obtain ⟨images', hdecode', himages⟩ := hdecode.perm hperm
    exact ⟨_, (h images hdecode).links himages hdecode hdecode' hlink⟩
  · rintro ⟨output', hlink⟩
    obtain ⟨images', -, hdecode', -⟩ := zlLinkObjects_eq_ok hlink
    obtain ⟨images, hdecode, himages⟩ := hdecode'.perm hperm.symm
    exact ⟨_, ((h images hdecode).perm himages.symm).links himages hdecode' hdecode hlink⟩
  · intro output output' hlink hlink' vm
    obtain ⟨images, -, hdecode, -⟩ := zlLinkObjects_eq_ok hlink
    obtain ⟨images', hdecode', himages⟩ := hdecode.perm hperm
    have hfree := h images hdecode
    obtain ⟨rom, hload, hholds⟩ := hfree.loads hdecode hlink vm
    obtain ⟨rom', hload', hholds'⟩ := (hfree.perm himages).loads hdecode' hlink' vm
    obtain ⟨hlinkable, -⟩ := (zlLinkObjects_located hdecode hfree.located).mp hlink
    have hsections := merged_perm himages hlinkable.distinct name
    obtain rfl := hholds.unique hholds' fun s => hsections.mem_iff
    rw [hfree.merged_eq himages] at hload'
    exact ⟨rom, _, hload, hload'⟩

end Results

/-- An object with its sections located at an address. -/
def ZlImage.locatedAt (image : ZlImage) (address : Word) : ZlImage :=
  { image with sections := image.sections.map fun s => { s with flags := 1, address } }

/-- An object that calls `f` and one that defines it, both located. -/
def locatedObjects : List Bytes :=
  [serialize (callerObject.locatedAt 32), serialize (calleeObject.locatedAt 16)]

theorem zlLinkObjects_perm_locatedObjects :
    ((∃ output, zlLinkObjects (fun _ => true) locatedObjects (some (CString.lit "start"))
        = .ok output) ↔
      ∃ output', zlLinkObjects (fun _ => true) locatedObjects.reverse (some (CString.lit "start"))
        = .ok output') ∧
    ∀ output output',
      zlLinkObjects (fun _ => true) locatedObjects (some (CString.lit "start")) = .ok output →
      zlLinkObjects (fun _ => true) locatedObjects.reverse (some (CString.lit "start"))
        = .ok output' →
      ∀ vm : VirtualMachine, ∃ rom entryPoint,
        vmLoadImage allocAll vm output = ({ vm with rom, entryPoint }, .ok ()) ∧
        vmLoadImage allocAll vm output' = ({ vm with rom, entryPoint }, .ok ()) := by
  refine zlLinkObjects_perm (List.reverse_perm _).symm fun images hdecode => ?_
  have hdecode' : DecodeTo locatedObjects
      [callerObject.locatedAt 32, calleeObject.locatedAt 16] :=
    .cons ⟨by decide +kernel, rfl⟩ (.cons ⟨by decide +kernel, rfl⟩ .nil)
  obtain rfl := hdecode.unique hdecode'
  exact ⟨by unfold Located; decide +kernel, by decide +kernel⟩

end Zlvm
