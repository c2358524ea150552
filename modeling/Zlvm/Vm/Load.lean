import Zlvm.Image.Robust
import Zlvm.Vm.Machine

/-!
# Loading an image

`vm_loadImage`: decode, check that every section fits the ROM, copy the sections, set the entry
point.

* `vmLoadImage_eq` — what a load does with an image that decodes and fits.
* **`vmLoadImage_atomic`** — a load fails and changes nothing, or succeeds and changes the ROM and
  the entry point only, as the sections say.
-/

namespace Zlvm

open Buffer

/-! ## The source -/

/-- The types the loader knows; it skips any other section. -/
def ZlImageSection.loads (s : ZlImageSection) : Bool :=
  s.type == sectionText || s.type == sectionDataType || s.type == sectionBss

/-- The check of the first loop. -/
def fitsRom (s : ZlImageSection) : Bool :=
  !s.loads ||
    !(decide (s.address.toNat > romSize) || decide (s.dataSize > romSize - s.address.toNat))

/-- One pass of the second loop. -/
def loadSection (rom : Rom) (s : ZlImageSection) : Rom :=
  if s.type = sectionBss then rom.write s.address.toNat (List.replicate s.dataSize 0)
  else if s.type = sectionText ∨ s.type = sectionDataType then
    if s.dataSize ≠ 0 then rom.write s.address.toNat s.data.toBytes else rom
  else rom

/-- `vm_loadImage`. -/
def vmLoadImage (alloc : Allocator) (vm : VirtualMachine) (image : Bytes) :
    VirtualMachine × Except DecodeStop Unit :=
  match zlImageDecode alloc image with
  | .error stop => (vm, .error stop)
  | .ok decoded =>
      if decoded.kind ≠ imageExecutable then
        (vm, .error (.failed .invalidKind (zlImageFree decoded)))
      else if !decoded.sections.all fitsRom then
        (vm, .error (.failed .bounds (zlImageFree decoded)))
      else
        ({ vm with
            rom := decoded.sections.foldl loadSection vm.rom
            entryPoint := decoded.entryPoint }, .ok ())

/-! ## What the copies amount to -/

/-- The section covers an address. -/
def ZlImageSection.Covers (s : ZlImageSection) (address : ℕ) : Prop :=
  s.address.toNat ≤ address ∧ address < s.address.toNat + s.dataSize

/-- The byte a section has at an address it covers: zero in BSS. -/
def ZlImageSection.byteAt (s : ZlImageSection) (address : ℕ) : Option Byte :=
  if s.type = sectionBss then some 0 else s.data.toBytes[address - s.address.toNat]?

/-- The ROM after loading: the last section that covers an address decides its byte, and the rest
keeps the old contents. -/
structure Loaded (sections : List ZlImageSection) (rom rom' : Rom) : Prop where
  covered : ∀ before s after address, sections = before ++ s :: after → s.Covers address →
    (∀ s' ∈ after, ¬s'.Covers address) → rom'.bytes[address]? = s.byteAt address
  rest : ∀ address, (∀ s ∈ sections, ¬s.Covers address) →
    rom'.bytes[address]? = rom.bytes[address]?

theorem ZlImageSection.WellFormed.loads {s : ZlImageSection} (h : s.WellFormed) :
    s.loads = true := by
  rcases h.type with ht | ht | ht <;> simp [ZlImageSection.loads, ht]

theorem fitsRom_iff {s : ZlImageSection} (h : s.WellFormed) :
    fitsRom s = true ↔ s.address.toNat + s.dataSize ≤ romSize := by
  rw [fitsRom, h.loads]
  simp only [Bool.not_true, Bool.false_or, Bool.not_eq_true', Bool.or_eq_false_iff,
    decide_eq_false_iff_not]
  omega

/-- Copying a well-formed section, whatever its type, is copying its data. -/
theorem loadSection_eq {s : ZlImageSection} (h : s.WellFormed) (rom : Rom) :
    (loadSection rom s).bytes = overlay rom.bytes s.address.toNat s.data.toBytes := by
  unfold loadSection
  split
  · rename_i hbss
    rw [h.bss hbss]
    rfl
  · rename_i hbss
    rw [if_pos (by rcases h.type with ht | ht | ht <;> simp_all)]
    split
    · rfl
    · rename_i hempty
      have hnil : s.data.toBytes = [] :=
        List.eq_nil_of_length_eq_zero (h.length_toBytes.trans (not_not.mp hempty))
      rw [hnil, overlay_nil_right]

theorem foldl_loadSection : ∀ {sections : List ZlImageSection} (rom : Rom),
    (∀ s ∈ sections, s.WellFormed) →
      (sections.foldl loadSection rom).bytes
        = overlayAll (·.address.toNat) (·.data.toBytes) rom.bytes sections
  | [], _, _ => rfl
  | s :: rest, rom, h => by
      rw [List.foldl_cons, foldl_loadSection _ fun s' hs' => h s' (by simp [hs']),
        loadSection_eq (h s (by simp))]
      rfl

/-- **The loading loop.** -/
theorem loaded_foldl {sections : List ZlImageSection} (rom : Rom)
    (hwf : ∀ s ∈ sections, s.WellFormed) (hfits : sections.all fitsRom = true) :
    Loaded sections rom (sections.foldl loadSection rom) := by
  have hcovers : ∀ s ∈ sections, ∀ address, s.Covers address ↔
      Buffer.Covers (fun s : ZlImageSection => s.address.toNat) (·.data.toBytes) s address := by
    intro s hs address
    rw [ZlImageSection.Covers, Buffer.Covers, (hwf s hs).length_toBytes]
  constructor
  · intro before s after address hsplit hs hafter
    have hmem : s ∈ sections := by rw [hsplit]; simp
    have hroom := (fitsRom_iff (hwf s hmem)).mp (List.all_eq_true.mp hfits s hmem)
    have hlast := getElem?_overlayAll_of_last (b := rom.bytes) before after s address
      (by rw [rom.size]; exact hs.2.trans_le hroom) ((hcovers s hmem address).mp hs)
      fun s' hs' hc => hafter s' hs' ((hcovers s' (by rw [hsplit]; simp [hs']) address).mpr hc)
    rw [foldl_loadSection rom hwf, hsplit, hlast, ZlImageSection.byteAt]
    split
    · rename_i hbss
      rw [(hwf s hmem).bss hbss]
      exact List.getElem?_replicate_of_lt (by have := hs.1; have := hs.2; omega)
    · rfl
  · intro address huncovered
    rw [foldl_loadSection rom hwf]
    exact getElem?_overlayAll_of_uncovered _ _ _ fun s hs hc =>
      huncovered s hs ((hcovers s hs address).mpr hc)

/-! ## The whole load -/

/-- A load of an executable whose sections fit. -/
theorem vmLoadImage_eq {alloc : Allocator} {vm : VirtualMachine} {image : Bytes}
    {decoded : ZlImage} (hdecode : zlImageDecode alloc image = .ok decoded)
    (hkind : decoded.kind = imageExecutable) (hfits : decoded.sections.all fitsRom = true) :
    vmLoadImage alloc vm image
      = ({ vm with
            rom := decoded.sections.foldl loadSection vm.rom
            entryPoint := decoded.entryPoint }, .ok ()) := by
  simp [vmLoadImage, hdecode, hkind, hfits]

/-- **Loading is atomic.**  It fails and leaves the machine as it was, or it succeeds: then only
the entry point and the ROM differ, the entry point is that of the image and lies in a text section
inside the ROM, and the ROM is as the sections say. -/
theorem vmLoadImage_atomic (alloc : Allocator) (vm : VirtualMachine) (image : Bytes) :
    (∃ error left, vmLoadImage alloc vm image = (vm, .error (.failed error left))) ∨
    ∃ decoded rom', zlImageDecode alloc image = .ok decoded ∧
      vmLoadImage alloc vm image
        = ({ vm with rom := rom', entryPoint := decoded.entryPoint }, .ok ()) ∧
      decoded.entryPoint ≠ 0 ∧
      (∃ s ∈ decoded.sections, s.type = sectionText ∧ s.Covers decoded.entryPoint.toNat ∧
        s.address.toNat + s.dataSize ≤ romSize) ∧
      Loaded decoded.sections vm.rom rom' := by
  cases hdecode : zlImageDecode alloc image with
  | error stop =>
      have hstop := (zlImageDecode_ensures alloc image).of_eq_error hdecode
      cases stop with
      | fault index => exact hstop.elim
      | failed error left => exact .inl ⟨error, left, by simp [vmLoadImage, hdecode]⟩
  | ok decoded =>
      have hwf := ((zlImageDecode_ensures alloc image).of_eq_ok hdecode).1
      by_cases hkind : decoded.kind = imageExecutable
      · cases hfits : decoded.sections.all fitsRom with
        | false => exact .inl ⟨.bounds, zlImageFree decoded, by
            simp [vmLoadImage, hdecode, hkind, hfits]⟩
        | true =>
            obtain ⟨-, -, hpoint, s, hs, htype, hle, hlt⟩ := hwf.executable hkind
            refine .inr ⟨decoded, _, rfl, vmLoadImage_eq hdecode hkind hfits, hpoint,
              ⟨s, hs, htype, ⟨hle, hlt⟩, ?_⟩, loaded_foldl vm.rom hwf.sections hfits⟩
            exact (fitsRom_iff (hwf.sections s hs)).mp (List.all_eq_true.mp hfits s hs)
      · exact .inl ⟨.invalidKind, zlImageFree decoded, by
          simp [vmLoadImage, hdecode, hkind]⟩

end Zlvm
