import Zlvm.Image.Robust

/-!
# The image behind a rejected input

`zl_image_decode` clears its out-parameter first and releases what it has stored at every failure
but one.  The exception lies between the header and the tables: an executable without an entry
point, or with relocations, is given up while its kind and its entry point are already stored.

* `decodeHeader_of_valid` — the header checks accept every valid header.
* `zlImageDecode_of_stopsAtEntry` — the exception, and what it leaves behind.
* **`rejectedEmpty_iff`** — every other rejected input leaves the empty image.
-/

namespace Zlvm

open Loop Buffer

/-- Whenever the decoder rejects the input, it returns, and the image is empty afterwards. -/
def RejectedEmpty (alloc : Allocator) (input : Bytes) : Prop :=
  ∀ stop, zlImageDecode alloc input = .error stop → ∃ error, stop = .failed error {}

variable {input : Bytes}

/-- The header checks accept every valid header. -/
theorem decodeHeader_of_valid (h : HeaderValid input) :
    decodeHeader input = .ok (headerOf input) := by
  have hlength : 52 ≤ input.length := h.length
  have hpos : 0 < (wordAt input 44).toNat :=
    Nat.pos_of_ne_zero fun h0 => h.stringSize (UInt32.toNat_inj.mp h0)
  have hfirst : (wordAt input 40).toNat + (wordAt input 44).toNat ≤ input.length :=
    h.strings.trans h.payload
  unfold decodeHeader
  rw [require_of h.length, ok_bind, readBytes_eq (by omega), ok_bind, require_of h.magic, ok_bind,
    get16_eq (by omega), ok_bind, require_of h.version, ok_bind, readByte_eq (by omega), ok_bind,
    require_of h.kind, ok_bind, readByte_eq (by omega), ok_bind, require_of h.reserved, ok_bind,
    get32_eq (by omega), ok_bind, require_of h.headerSize, ok_bind]
  rw [get32_eq (by omega), ok_bind, get32_eq (by omega), ok_bind, get32_eq (by omega), ok_bind,
    get32_eq (by omega), ok_bind, get32_eq (by omega), ok_bind, get32_eq (by omega), ok_bind,
    get32_eq (by omega), ok_bind, get32_eq (by omega), ok_bind, get32_eq (by omega), ok_bind]
  simp only []
  rw [require_of, ok_bind, require_of h.stringSize, ok_bind, readByte_eq (by omega), ok_bind,
    require_of h.first, ok_bind, get32_eq (by omega), ok_bind]
  · rfl
  · exact ImageHeader.inBounds_iff.mpr
      ⟨h.header, h.sections, h.symbols, h.relocations, h.strings, h.payload⟩

/-- **The exception.**  Its kind and its entry point stay in the out-parameter. -/
theorem zlImageDecode_of_stopsAtEntry (alloc : Allocator) (h : StopsAtEntry input) :
    zlImageDecode alloc input = .error
      (.failed .malformed { kind := imageExecutable, entryPoint := wordAt input 24 }) := by
  obtain ⟨hvalid, hkind, hentry⟩ := h
  have hheader : (headerOf input).kind = imageExecutable := hkind
  unfold zlImageDecode
  rw [decodeHeader_of_valid hvalid, ok_bind]
  simp only [hheader, if_true]
  rw [require, if_neg, error_bind]
  · rfl
  · intro hexec
    obtain ⟨hpoint, hcount⟩ := hexec trivial
    rcases hentry with hzero | hrelocations
    · exact hpoint hzero
    · exact hrelocations hcount

/-- **What a rejected input leaves behind.**  The image is empty after every rejection exactly if
the input is not an executable with a valid header, but without an entry point or with
relocations. -/
theorem rejectedEmpty_iff (alloc : Allocator) (input : Bytes) :
    RejectedEmpty alloc input ↔ ¬StopsAtEntry input := by
  constructor
  · intro hempty hstops
    obtain ⟨error, hstop⟩ := hempty _ (zlImageDecode_of_stopsAtEntry alloc hstops)
    have hkind := congrArg ZlImage.kind (DecodeStop.failed.inj hstop).2
    exact absurd hkind (show imageExecutable ≠ 0 by decide)
  · intro hgoes stop hstop
    rcases (zlImageDecode_outcome alloc input).of_eq_error hstop with hempty | ⟨hstops, -⟩
    · exact hempty
    · exact absurd hstops hgoes

/-- An executable without sections, symbols and relocations whose entry field is zero. -/
def entrylessExecutable : Bytes :=
  imageMagic ++ [1, 0, imageExecutable, 0, 52, 0, 0, 0] ++ List.replicate 16 0 ++
    [52, 0, 0, 0, 52, 0, 0, 0, 52, 0, 0, 0, 52, 0, 0, 0, 1, 0, 0, 0, 53, 0, 0, 0] ++ [0]

theorem entrylessExecutable_keeps_kind : ¬RejectedEmpty allocAll entrylessExecutable := by
  intro hempty
  have hdecode : zlImageDecode allocAll entrylessExecutable
      = .error (.failed .malformed { kind := imageExecutable }) := by
    decide
  obtain ⟨error, hstop⟩ := hempty _ hdecode
  have hkind := congrArg ZlImage.kind (DecodeStop.failed.inj hstop).2
  exact absurd hkind (by decide)

end Zlvm
