import Zlvm.Image.Reading
import Zlvm.Lib.Alignment

/-!
# The decoder on untrusted input

Every byte the decoder reads lies in the input, whatever the input is, and what it accepts is a
well-formed image.

* `HeaderValid`, `headerOf` — what the header checks amount to on the bytes of the input, and the
  header they accept.
* `ImageHeader.Ok` — the chain of range facts that the header checks establish.  Every later read
  is justified from it.
* `DecodeStop.LeavesEmpty` — a failure that leaves the empty image, as those of the header and of
  the tables do; `StopsAtEntry` is the one condition under which another failure can occur.
* `ZlImageSection.WellFormed`, `ZlImage.WellFormed` — what an accepted image satisfies.
* **`zlImageDecode_robust`** — no fault, and acceptance implies well-formedness.
-/

namespace Zlvm

open Loop Buffer

/-- A stop that is not an access outside the input. -/
def DecodeStop.IsFailure : DecodeStop → Prop
  | .fault _ => False
  | .failed _ _ => True

/-- A failure that leaves the empty image in the out-parameter. -/
def DecodeStop.LeavesEmpty (stop : DecodeStop) : Prop :=
  ∃ error, stop = .failed error {}

theorem DecodeStop.LeavesEmpty.isFailure {stop : DecodeStop} (h : stop.LeavesEmpty) :
    stop.IsFailure := by
  obtain ⟨error, rfl⟩ := h
  trivial

/-! ## Well-formed images -/

/-- A section of an accepted image. -/
structure ZlImageSection.WellFormed (s : ZlImageSection) : Prop where
  name : s.name ≠ none
  type : s.type = sectionText ∨ s.type = sectionDataType ∨ s.type = sectionBss
  alignment : ∃ k, s.alignment.toNat = 2 ^ k
  range : s.address.toNat + s.dataSize ≤ uint32Max
  stored : s.data = .bytes s.data.toBytes
  bss : s.type = sectionBss → s.data = .bytes (List.replicate s.dataSize 0)

/-- The stored data has the recorded size. -/
theorem ZlImageSection.WellFormed.length_toBytes {s : ZlImageSection} (h : s.WellFormed) :
    s.data.toBytes.length = s.dataSize := by
  conv_rhs => rw [ZlImageSection.dataSize, h.stored]
  rfl

/-- A symbol of an accepted image with `sectionCount` sections. -/
structure ZlImageSymbol.WellFormed (sectionCount : ℕ) (y : ZlImageSymbol) : Prop where
  name : y.name ≠ none
  sectionIndex : y.sectionIndex = undefinedSection ∨ y.sectionIndex.toNat < sectionCount
  binding : y.binding ≤ 2
  type : y.type ≤ 2

/-- A relocation of an accepted image: its four bytes lie inside an existing section that is not
BSS, and it names an existing symbol. -/
def ZlImageRelocation.WellFormed (sections : List ZlImageSection) (symbolCount : ℕ)
    (r : ZlImageRelocation) : Prop :=
  ∃ s, sections[r.sectionIndex.toNat]? = some s ∧ s.type ≠ sectionBss ∧
    r.symbolIndex.toNat < symbolCount ∧ (r.type = 1 ∨ r.type = 2) ∧
    r.offset.toNat + 4 ≤ s.dataSize

/-- What the decoder guarantees about an image it accepts. -/
structure ZlImage.WellFormed (image : ZlImage) : Prop where
  kind : image.kind = imageObject ∨ image.kind = imageExecutable
  sections : ∀ s ∈ image.sections, s.WellFormed
  symbols : ∀ y ∈ image.symbols, y.WellFormed image.sections.length
  relocations : ∀ r ∈ image.relocations,
    r.WellFormed image.sections image.symbols.length
  object : image.kind = imageObject → image.entryPoint = 0
  executable : image.kind = imageExecutable →
    image.relocations = [] ∧ image.entrySymbol = none ∧ image.entryPoint ≠ 0 ∧
    ∃ s ∈ image.sections, s.type = sectionText ∧ s.address.toNat ≤ image.entryPoint.toNat ∧
      image.entryPoint.toNat < s.address.toNat + s.dataSize

/-- The payload of a section that is not BSS lies in the input, at or after the payload offset that
the header records. -/
def ZlImageSection.PayloadIn (input : Bytes) (s : ZlImageSection) : Prop :=
  s.type ≠ sectionBss → ∃ offset, (wordAt input 48).toNat ≤ offset ∧
    offset + s.dataSize ≤ input.length ∧ s.data = .bytes (slice input offset s.dataSize)

/-! ## The checks, as facts -/

theorem validAlignment_pow {alignment : Word} (h : validAlignment alignment = true) :
    ∃ k, alignment.toNat = 2 ^ k := by
  simp only [validAlignment, Bool.and_eq_true, decide_eq_true_eq, beq_iff_eq] at h
  obtain ⟨hne, hand⟩ := h
  have hpos : alignment.toNat ≠ 0 := fun h0 => hne (UInt32.toNat_inj.mp h0)
  have hle : (1 : Word) ≤ alignment := by
    rw [UInt32.le_iff_toNat_le]
    exact Nat.one_le_iff_ne_zero.mpr hpos
  have hand' : alignment.toNat &&& (alignment.toNat - 1) = 0 := by
    have := congrArg UInt32.toNat hand
    rwa [UInt32.toNat_and, UInt32.toNat_sub_of_le _ _ hle] at this
  exact ⟨_, Alignment.eq_two_pow_of_and_pred hpos hand'⟩

theorem validAlignment_of_pow {alignment : Word} {k : ℕ} (h : alignment.toNat = 2 ^ k) :
    validAlignment alignment = true := by
  have hne : alignment ≠ 0 := by
    rintro rfl
    exact absurd h.symm (Nat.two_pow_pos k).ne'
  have hle : (1 : Word) ≤ alignment := by
    rw [UInt32.le_iff_toNat_le, h]
    exact Nat.one_le_two_pow
  have hand : alignment &&& (alignment - 1) = 0 := by
    rw [← UInt32.toNat_inj, UInt32.toNat_and, UInt32.toNat_sub_of_le _ _ hle, h]
    exact (Nat.and_two_pow_sub_one_eq_mod _ _).trans (Nat.mod_self _)
  simp [validAlignment, hne, hand]

theorem type_of_range {type : Word} (h : sectionText ≤ type ∧ type ≤ sectionBss) :
    type = sectionText ∨ type = sectionDataType ∨ type = sectionBss := by
  obtain ⟨h₁, h₂⟩ := h
  rw [UInt32.le_iff_toNat_le] at h₁ h₂
  simp only [sectionText, sectionDataType, sectionBss, ← UInt32.toNat_inj] at h₁ h₂ ⊢
  simp at h₁ h₂ ⊢
  omega

theorem relocationValid_iff {sections : List ZlImageSection} {symbolCount : ℕ}
    {r : ZlImageRelocation} :
    relocationValid sections symbolCount r = true ↔ r.WellFormed sections symbolCount := by
  unfold relocationValid ZlImageRelocation.WellFormed
  cases h : sections[r.sectionIndex.toNat]? with
  | none => simp
  | some s =>
      simp only [Bool.and_eq_true, decide_eq_true_eq, Bool.or_eq_true, beq_iff_eq, bne_iff_ne,
        Option.some.injEq, exists_eq_left', relocationAbsolute32, relocationPcRelative32]
      constructor
      · rintro ⟨⟨⟨⟨hsym, htype⟩, hbss⟩, hle⟩, hroom⟩
        exact ⟨hbss, hsym, htype, by omega⟩
      · rintro ⟨hbss, hsym, htype, hroom⟩
        exact ⟨⟨⟨⟨hsym, htype⟩, hbss⟩, by omega⟩, by omega⟩

theorem entryFound_iff {sections : List ZlImageSection} {entryPoint : Word} :
    entryFound sections entryPoint = true ↔
      ∃ s ∈ sections, s.type = sectionText ∧ s.address.toNat ≤ entryPoint.toNat ∧
        entryPoint.toNat < s.address.toNat + s.dataSize := by
  simp only [entryFound, List.any_eq_true, Bool.and_eq_true, beq_iff_eq, decide_eq_true_eq]
  refine exists_congr fun s => and_congr_right fun _ => ?_
  constructor
  · rintro ⟨⟨htype, hle⟩, hlt⟩
    rw [UInt32.toNat_sub_of_le _ _ hle] at hlt
    rw [UInt32.le_iff_toNat_le] at hle
    exact ⟨htype, hle, by omega⟩
  · rintro ⟨htype, hle, hlt⟩
    have hle' : s.address ≤ entryPoint := UInt32.le_iff_toNat_le.mpr hle
    refine ⟨⟨htype, hle'⟩, ?_⟩
    rw [UInt32.toNat_sub_of_le _ _ hle']
    omega

/-! ## The header -/

/-- The range facts a successful header check establishes. -/
structure ImageHeader.Ok (header : ImageHeader) (input : Bytes) : Prop where
  length : imageHeaderSize ≤ input.length
  kind : header.kind = imageObject ∨ header.kind = imageExecutable
  sections : header.sectionOffset.toNat + header.sectionCount.toNat * imageSectionRecordSize
    ≤ header.symbolOffset.toNat
  symbols : header.symbolOffset.toNat + header.symbolCount.toNat * imageSymbolRecordSize
    ≤ header.relocationOffset.toNat
  relocations : header.relocationOffset.toNat
    + header.relocationCount.toNat * imageRelocationRecordSize ≤ header.stringOffset.toNat
  strings : header.stringOffset.toNat + header.stringSize.toNat ≤ header.payloadOffset.toNat
  payload : header.payloadOffset.toNat ≤ input.length
  payloadOffset : header.payloadOffset = wordAt input 48

theorem toNat_le_uint32Max (w : Word) : w.toNat ≤ uint32Max := by
  have := w.toNat_lt
  rw [uint32Max]
  omega

/-- The products of a count and a record size never overflow, so the range checks are the plain
inequalities between the five regions. -/
theorem ImageHeader.inBounds_iff {header : ImageHeader} {inputSize : ℕ} :
    header.inBounds inputSize = true ↔
      imageHeaderSize ≤ header.sectionOffset.toNat ∧
      header.sectionOffset.toNat + header.sectionCount.toNat * imageSectionRecordSize
        ≤ header.symbolOffset.toNat ∧
      header.symbolOffset.toNat + header.symbolCount.toNat * imageSymbolRecordSize
        ≤ header.relocationOffset.toNat ∧
      header.relocationOffset.toNat + header.relocationCount.toNat * imageRelocationRecordSize
        ≤ header.stringOffset.toNat ∧
      header.stringOffset.toNat + header.stringSize.toNat ≤ header.payloadOffset.toNat ∧
      header.payloadOffset.toNat ≤ inputSize := by
  have hsec := @multiplySize_of_le _ imageSectionRecordSize
    (toNat_le_uint32Max header.sectionCount) (by decide)
  have hsym := @multiplySize_of_le _ imageSymbolRecordSize
    (toNat_le_uint32Max header.symbolCount) (by decide)
  have hrel := @multiplySize_of_le _ imageRelocationRecordSize
    (toNat_le_uint32Max header.relocationCount) (by decide)
  simp only [ImageHeader.inBounds, hsec, hsym, hrel, Bool.and_eq_true, decide_eq_true_eq,
    inRange_iff, UInt32.le_iff_toNat_le]
  omega

/-- The header that the bytes of the input spell. -/
def headerOf (input : Bytes) : ImageHeader :=
  { kind := input.getD 6 0
    entryField := wordAt input 24
    sectionCount := wordAt input 12
    symbolCount := wordAt input 16
    relocationCount := wordAt input 20
    sectionOffset := wordAt input 28
    symbolOffset := wordAt input 32
    relocationOffset := wordAt input 36
    stringOffset := wordAt input 40
    stringSize := wordAt input 44
    payloadOffset := wordAt input 48 }

/-- The input begins with a header that passes every check on the header. -/
structure HeaderValid (input : Bytes) : Prop where
  length : imageHeaderSize ≤ input.length
  magic : slice input 0 4 = imageMagic
  version : (input.getD 4 0).toUInt16 ||| (input.getD 5 0).toUInt16 <<< 8 = imageVersion
  kind : input.getD 6 0 = imageObject ∨ input.getD 6 0 = imageExecutable
  reserved : input.getD 7 0 = 0
  headerSize : (wordAt input 8).toNat = imageHeaderSize
  header : imageHeaderSize ≤ (wordAt input 28).toNat
  sections : (wordAt input 28).toNat + (wordAt input 12).toNat * imageSectionRecordSize
    ≤ (wordAt input 32).toNat
  symbols : (wordAt input 32).toNat + (wordAt input 16).toNat * imageSymbolRecordSize
    ≤ (wordAt input 36).toNat
  relocations : (wordAt input 36).toNat + (wordAt input 20).toNat * imageRelocationRecordSize
    ≤ (wordAt input 40).toNat
  strings : (wordAt input 40).toNat + (wordAt input 44).toNat ≤ (wordAt input 48).toNat
  payload : (wordAt input 48).toNat ≤ input.length
  stringSize : wordAt input 44 ≠ 0
  first : input.getD (wordAt input 40).toNat 0 = 0

theorem HeaderValid.ok {input : Bytes} (h : HeaderValid input) : (headerOf input).Ok input :=
  ⟨h.length, h.kind, h.sections, h.symbols, h.relocations, h.strings, h.payload, rfl⟩

/-- What the header checks accept; what they reject leaves the image empty. -/
theorem decodeHeader_ensures (input : Bytes) :
    Ensures (decodeHeader input) (fun header => HeaderValid input ∧ header = headerOf input)
      DecodeStop.LeavesEmpty := by
  unfold decodeHeader
  refine Ensures.require_bind (fun _ => ⟨_, rfl⟩) fun hlen => ?_
  have hlen' : 52 ≤ input.length := hlen
  rw [readBytes_eq (by omega), ok_bind]
  refine Ensures.require_bind (fun _ => ⟨_, rfl⟩) fun hmagic => ?_
  rw [get16_eq (by omega), ok_bind]
  refine Ensures.require_bind (fun _ => ⟨_, rfl⟩) fun hversion => ?_
  rw [readByte_eq (by omega), ok_bind]
  refine Ensures.require_bind (fun _ => ⟨_, rfl⟩) fun hkind => ?_
  rw [readByte_eq (by omega), ok_bind]
  refine Ensures.require_bind (fun _ => ⟨_, rfl⟩) fun hreserved => ?_
  rw [get32_eq (by omega), ok_bind]
  refine Ensures.require_bind (fun _ => ⟨_, rfl⟩) fun hheaderSize => ?_
  rw [get32_eq (by omega), ok_bind, get32_eq (by omega), ok_bind, get32_eq (by omega), ok_bind,
    get32_eq (by omega), ok_bind, get32_eq (by omega), ok_bind, get32_eq (by omega), ok_bind,
    get32_eq (by omega), ok_bind, get32_eq (by omega), ok_bind, get32_eq (by omega), ok_bind]
  refine Ensures.require_bind (fun _ => ⟨_, rfl⟩) fun hbounds => ?_
  obtain ⟨hheader, hsec, hsym, hrel, hstr, hpay⟩ := ImageHeader.inBounds_iff.mp hbounds
  refine Ensures.require_bind (fun _ => ⟨_, rfl⟩) fun hsize => ?_
  have hpos : 0 < (wordAt input 44).toNat :=
    Nat.pos_of_ne_zero fun h0 => hsize (UInt32.toNat_inj.mp h0)
  have hfirst : (wordAt input 40).toNat + (wordAt input 44).toNat ≤ input.length :=
    hstr.trans hpay
  rw [readByte_eq (by omega), ok_bind]
  refine Ensures.require_bind (fun _ => ⟨_, rfl⟩) fun hnul => ?_
  rw [get32_eq (by omega), ok_bind]
  exact ⟨⟨hlen, hmagic, hversion, hkind, hreserved, hheaderSize, hheader, hsec, hsym, hrel, hstr,
    hpay, hsize, hnul⟩, rfl⟩

/-! ## The records -/

section Records

variable {alloc : Allocator} {input : Bytes} {header : ImageHeader} {image : ZlImage}

theorem decodeSection_ensures (hok : header.Ok input) {index : ℕ}
    (hindex : index < header.sectionCount.toNat) :
    Ensures (decodeSection alloc input header image index)
      (fun s => s.WellFormed ∧ s.PayloadIn input) DecodeStop.LeavesEmpty := by
  have hrecord : header.sectionRecord index + 28 ≤ input.length := by
    have hmul : (index + 1) * 28 ≤ header.sectionCount.toNat * 28 := Nat.mul_le_mul_right _ hindex
    have h₁ := hok.sections
    have h₂ := hok.symbols
    have h₃ := hok.relocations
    have h₄ := hok.strings
    have h₅ := hok.payload
    simp only [ImageHeader.sectionRecord, imageSectionRecordSize] at *
    omega
  have hstrings : header.stringOffset.toNat + header.stringSize.toNat ≤ input.length :=
    hok.strings.trans hok.payload
  unfold decodeSection
  simp only []
  rw [get32_eq (by omega), ok_bind, get32_eq (by omega), ok_bind, get32_eq (by omega), ok_bind,
    get32_eq (by omega), ok_bind, get32_eq (by omega), ok_bind]
  obtain ⟨name, hname⟩ := getString_ensures (wordAt input (header.sectionRecord index)) hstrings
  rw [hname, ok_bind]
  refine Ensures.require_bind (fun _ => ⟨_, rfl⟩) fun hsome => ?_
  rw [get32_eq (by omega), ok_bind]
  refine Ensures.require_bind (fun _ => ⟨_, rfl⟩) fun halign => ?_
  refine Ensures.require_bind (fun _ => ⟨_, rfl⟩) fun htype => ?_
  refine Ensures.require_bind (fun _ => ⟨_, rfl⟩) fun _ => ?_
  refine Ensures.require_bind (fun _ => ⟨_, rfl⟩) fun hpayload => ?_
  refine Ensures.require_bind (fun _ => ⟨_, rfl⟩) fun haddr => ?_
  rw [get32_eq (by omega), ok_bind]
  refine Ensures.require_bind (fun _ => ⟨_, rfl⟩) fun _ => ?_
  refine Ensures.require_bind (fun _ => ⟨_, rfl⟩) fun _ => ?_
  have haddr' : ∀ a b : ℕ, a ≤ uint32Max → b ≤ uint32Max - a → a + b ≤ uint32Max := by omega
  have hrange := haddr' _ _ (toNat_le_uint32Max _) haddr
  split
  · rename_i hbss
    refine ⟨⟨hsome, type_of_range htype, validAlignment_pow halign, ?_, rfl, fun _ => ?_⟩, ?_⟩
    · simpa [ZlImageSection.dataSize] using hrange
    · simp [ZlImageSection.dataSize]
    · exact fun h => absurd hbss h
  · rename_i hbss
    obtain ⟨hle, hin⟩ := hpayload hbss
    rw [inRange_iff] at hin
    rw [readBytes_eq hin, ok_bind]
    have hlen := length_slice_of_le hin
    refine ⟨⟨hsome, type_of_range htype, validAlignment_pow halign, ?_, rfl,
      fun h => absurd h hbss⟩, fun _ => ?_⟩
    · simpa [ZlImageSection.dataSize, hlen] using hrange
    · refine ⟨(wordAt input (header.sectionRecord index + 20)).toNat, ?_, ?_, ?_⟩
      · rw [← hok.payloadOffset]
        exact UInt32.le_iff_toNat_le.mp hle
      · simpa [ZlImageSection.dataSize, hlen] using hin
      · simp only [ZlImageSection.dataSize, SectionData.size_bytes, hlen]

theorem decodeSymbol_ensures (hok : header.Ok input) {index : ℕ}
    (hindex : index < header.symbolCount.toNat) :
    Ensures (decodeSymbol alloc input header image index)
      (fun y => y.WellFormed header.sectionCount.toNat) DecodeStop.LeavesEmpty := by
  have hrecord : header.symbolRecord index + 20 ≤ input.length := by
    have hmul : (index + 1) * 20 ≤ header.symbolCount.toNat * 20 := Nat.mul_le_mul_right _ hindex
    have h₂ := hok.symbols
    have h₃ := hok.relocations
    have h₄ := hok.strings
    have h₅ := hok.payload
    simp only [ImageHeader.symbolRecord, imageSymbolRecordSize] at *
    omega
  have hstrings : header.stringOffset.toNat + header.stringSize.toNat ≤ input.length :=
    hok.strings.trans hok.payload
  unfold decodeSymbol
  simp only []
  rw [get32_eq (by omega), ok_bind, get32_eq (by omega), ok_bind]
  obtain ⟨name, hname⟩ := getString_ensures (wordAt input (header.symbolRecord index)) hstrings
  rw [hname, ok_bind]
  refine Ensures.require_bind (fun _ => ⟨_, rfl⟩) fun hsome => ?_
  refine Ensures.require_bind (fun _ => ⟨_, rfl⟩) fun hsection => ?_
  rw [get32_eq (by omega), ok_bind, get32_eq (by omega), ok_bind, readByte_eq (by omega), ok_bind,
    readByte_eq (by omega), ok_bind]
  refine Ensures.require_bind (fun _ => ⟨_, rfl⟩) fun _ => ?_
  refine Ensures.require_bind (fun _ => ⟨_, rfl⟩) fun hkinds => ?_
  rw [readByte_eq (by omega), ok_bind]
  refine Ensures.require_bind (fun _ => ⟨_, rfl⟩) fun _ => ?_
  rw [readByte_eq (by omega), ok_bind]
  refine Ensures.require_bind (fun _ => ⟨_, rfl⟩) fun _ => ?_
  exact ⟨hsome, hsection.imp_right UInt32.lt_iff_toNat_lt.mp, hkinds.1, hkinds.2⟩

theorem decodeRelocation_ensures (hok : header.Ok input) {index : ℕ}
    (hindex : index < header.relocationCount.toNat) :
    Ensures (decodeRelocation input header image index)
      (fun r => r.WellFormed image.sections header.symbolCount.toNat) DecodeStop.LeavesEmpty := by
  have hrecord : header.relocationRecord index + 20 ≤ input.length := by
    have hmul : (index + 1) * 20 ≤ header.relocationCount.toNat * 20 :=
      Nat.mul_le_mul_right _ hindex
    have h₃ := hok.relocations
    have h₄ := hok.strings
    have h₅ := hok.payload
    simp only [ImageHeader.relocationRecord, imageRelocationRecordSize] at *
    omega
  unfold decodeRelocation
  simp only []
  rw [get32_eq (by omega), ok_bind, get32_eq (by omega), ok_bind, get32_eq (by omega), ok_bind,
    get32_eq (by omega), ok_bind, get32_eq (by omega), ok_bind]
  refine Ensures.require_bind (fun _ => ⟨_, rfl⟩) fun hvalid => ?_
  exact relocationValid_iff.mp hvalid

theorem decodeEntrySymbol_ensures (hok : header.Ok input) :
    Ensures (decodeEntrySymbol alloc input header image)
      (fun name => header.kind = imageExecutable → name = none) DecodeStop.LeavesEmpty := by
  have hstrings : header.stringOffset.toNat + header.stringSize.toNat ≤ input.length :=
    hok.strings.trans hok.payload
  unfold decodeEntrySymbol
  split
  · rename_i hobject
    obtain ⟨name, hname⟩ := getString_ensures header.entryField hstrings
    rw [hname, ok_bind]
    refine Ensures.require_bind (fun _ => ⟨_, rfl⟩) fun _ => ?_
    refine Ensures.require_bind (fun _ => ⟨_, rfl⟩) fun _ => ?_
    intro hexec
    rw [hobject.1] at hexec
    exact absurd hexec (by decide)
  · exact fun _ => rfl

end Records

/-! ## The whole decoder -/

/-- The input is an executable with a valid header, but without an entry point or with
relocations. -/
def StopsAtEntry (input : Bytes) : Prop :=
  HeaderValid input ∧ input.getD 6 0 = imageExecutable ∧
    (wordAt input 24 = 0 ∨ wordAt input 20 ≠ 0)

/-- What the decoder accepts, and the two ways in which it fails. -/
theorem zlImageDecode_outcome (alloc : Allocator) (input : Bytes) :
    Ensures (zlImageDecode alloc input)
      (fun image => image.WellFormed ∧ ∀ s ∈ image.sections, s.PayloadIn input)
      (fun stop => stop.LeavesEmpty ∨ StopsAtEntry input ∧ stop.IsFailure) := by
  unfold zlImageDecode
  refine ((decodeHeader_ensures input).mono (fun _ h => h) fun _ => Or.inl).bind ?_
  rintro header ⟨hvalid, hheader⟩
  have hok : header.Ok input := hheader ▸ hvalid.ok
  simp only []
  refine Ensures.require_bind (fun hexec => Or.inr ⟨?_, trivial⟩) fun hexec => ?_
  · obtain ⟨hkind, hentry⟩ := Classical.not_imp.mp hexec
    rw [if_pos hkind] at hentry
    rw [hheader] at hkind hentry
    refine ⟨hvalid, hkind, ?_⟩
    by_cases hzero : wordAt input 24 = 0
    · exact Or.inl hzero
    · exact Or.inr fun hcount => hentry ⟨hzero, hcount⟩
  refine Ensures.require_bind (fun _ => Or.inl ⟨_, rfl⟩) fun _ => ?_
  refine ((decodeEntrySymbol_ensures hok).mono (fun _ h => h) fun _ => Or.inl).bind
    fun entrySymbol hentry => ?_
  refine (Ensures.mapM (R := fun _ s => s.WellFormed ∧ s.PayloadIn input) fun index hindex =>
    (decodeSection_ensures hok (List.mem_range.mp hindex)).mono (fun _ h => h)
      fun _ => Or.inl).bind fun sections hsections => ?_
  refine (Ensures.mapM (R := fun _ y => y.WellFormed header.sectionCount.toNat) fun index hindex =>
    (decodeSymbol_ensures hok (List.mem_range.mp hindex)).mono (fun _ h => h)
      fun _ => Or.inl).bind fun symbols hsymbols => ?_
  refine (Ensures.mapM (R := fun _ r => r.WellFormed sections header.symbolCount.toNat)
    fun index hindex => (decodeRelocation_ensures hok (List.mem_range.mp hindex)).mono
      (fun _ h => h) fun _ => Or.inl).bind fun relocations hrelocations => ?_
  refine Ensures.require_bind (fun _ => Or.inl ⟨_, rfl⟩) fun hfound => ?_
  have hsecs := List.forall₂_iff_get.mp hsections
  have hsyms := List.forall₂_iff_get.mp hsymbols
  have hrels := List.forall₂_iff_get.mp hrelocations
  have hmem : ∀ s ∈ sections, s.WellFormed ∧ s.PayloadIn input := by
    intro s hs
    obtain ⟨i, hi, rfl⟩ := List.getElem_of_mem hs
    exact hsecs.2 i (hsecs.1 ▸ hi) hi
  refine ⟨⟨hok.kind, fun s hs => (hmem s hs).1, ?_, ?_, ?_, ?_⟩, fun s hs => (hmem s hs).2⟩
  · intro y hy
    obtain ⟨i, hi, rfl⟩ := List.getElem_of_mem hy
    rw [← hsecs.1, List.length_range]
    exact hsyms.2 i (hsyms.1 ▸ hi) hi
  · intro r hr
    obtain ⟨i, hi, rfl⟩ := List.getElem_of_mem hr
    rw [← hsyms.1, List.length_range]
    exact hrels.2 i (hrels.1 ▸ hi) hi
  · intro hobject
    have hkind : header.kind ≠ imageExecutable := fun h => by
      rw [show header.kind = imageObject from hobject] at h
      exact absurd h (by decide)
    exact if_neg hkind
  · intro hkind
    obtain ⟨hpoint, hcount⟩ := hexec hkind
    refine ⟨?_, hentry hkind, hpoint, entryFound_iff.mp (hfound hkind).2⟩
    refine List.eq_nil_of_length_eq_zero ?_
    rw [← hrels.1, List.length_range, hcount]
    rfl

theorem zlImageDecode_ensures (alloc : Allocator) (input : Bytes) :
    Ensures (zlImageDecode alloc input)
      (fun image => image.WellFormed ∧ ∀ s ∈ image.sections, s.PayloadIn input)
      DecodeStop.IsFailure := by
  refine (zlImageDecode_outcome alloc input).mono (fun _ h => h) ?_
  rintro stop (hempty | ⟨-, hfailure⟩)
  · exact hempty.isFailure
  · exact hfailure

/-! ## Allocations -/

section Allocations

variable {alloc : Allocator} {input : Bytes} {header : ImageHeader} {image : ZlImage}

theorem decodeSection_allocAll {index : ℕ} {s : ZlImageSection}
    (h : decodeSection alloc input header image index = .ok s) :
    decodeSection allocAll input header image index = .ok s := by
  simp only [decodeSection, bind_eq_ok, require_eq_ok] at h ⊢
  obtain ⟨dataOffset, h1, dataSize, h2, type, h3, address, h4, nameOffset, h5, name, h6, -, h7,
    alignment, h8, -, h9, -, h10, -, h11, -, h12, -, h13, flags, h14, -, -, -, -, h⟩ := h
  exact ⟨dataOffset, h1, dataSize, h2, type, h3, address, h4, nameOffset, h5, name, h6, (), h7,
    alignment, h8, (), h9, (), h10, (), h11, (), h12, (), h13, flags, h14, (), rfl, (),
    fun _ => rfl, h⟩

theorem decodeSymbol_allocAll {index : ℕ} {y : ZlImageSymbol}
    (h : decodeSymbol alloc input header image index = .ok y) :
    decodeSymbol allocAll input header image index = .ok y := by
  simp only [decodeSymbol, bind_eq_ok, require_eq_ok] at h ⊢
  obtain ⟨sectionIndex, h1, nameOffset, h2, name, h3, -, h4, -, h5, value, h6, size, h7, binding,
    h8, type, h9, -, -, h⟩ := h
  exact ⟨sectionIndex, h1, nameOffset, h2, name, h3, (), h4, (), h5, value, h6, size, h7, binding,
    h8, type, h9, (), rfl, h⟩

theorem decodeEntrySymbol_allocAll {name : Option CString}
    (h : decodeEntrySymbol alloc input header image = .ok name) :
    decodeEntrySymbol allocAll input header image = .ok name := by
  unfold decodeEntrySymbol at h ⊢
  split at h
  · rename_i hentry
    rw [if_pos hentry]
    simp only [bind_eq_ok, require_eq_ok] at h ⊢
    obtain ⟨name', h1, -, h2, -, -, h⟩ := h
    exact ⟨name', h1, (), h2, (), rfl, h⟩
  · rename_i hentry
    rw [if_neg hentry]
    exact h

/-- **Allocations decide only whether the decoding fails**, not what it returns. -/
theorem zlImageDecode_allocAll (h : zlImageDecode alloc input = .ok image) :
    zlImageDecode allocAll input = .ok image := by
  simp only [zlImageDecode, bind_eq_ok, require_eq_ok] at h ⊢
  obtain ⟨header, h1, -, h2, -, -, entrySymbol, h3, sections, h4, symbols, h5, relocations, h6, -,
    h7, h⟩ := h
  refine ⟨header, h1, (), h2, (), ⟨fun _ => rfl, fun _ => rfl, fun _ => rfl⟩, entrySymbol,
    decodeEntrySymbol_allocAll h3, sections, ?_, symbols, ?_, relocations, h6, (), h7, h⟩
  · exact mapM_eq_ok_iff.mpr ((mapM_eq_ok_iff.mp h4).imp fun _ _ => decodeSection_allocAll)
  · exact mapM_eq_ok_iff.mpr ((mapM_eq_ok_iff.mp h5).imp fun _ _ => decodeSymbol_allocAll)

end Allocations
/-! ## The whole decoder -/

/-- **Decoder robustness.**  On every input the decoder reads only bytes of the input, and an image
it accepts is well formed, with the payload of every section that has one inside the input at or
after the payload offset. -/
theorem zlImageDecode_robust (alloc : Allocator) (input : Bytes) :
    (∀ index, zlImageDecode alloc input ≠ .error (.fault index)) ∧
    ∀ image, zlImageDecode alloc input = .ok image →
      image.WellFormed ∧ ∀ s ∈ image.sections, s.PayloadIn input :=
  ⟨fun _ h => (zlImageDecode_ensures alloc input).of_eq_error h,
    fun _ h => (zlImageDecode_ensures alloc input).of_eq_ok h⟩

end Zlvm
