import Zlvm.Image.Reading
import Zlvm.Image.Robust
import Zlvm.Image.Serialize

/-!
# The codec round trip

Decoding the canonical file of an encodable image gives the image back, up to the three things the
format does not keep: null names, BSS contents and the entry symbol of an executable.

* `ZlImage.normalise` — what survives.
* `decodeHeader_serialize`, `decodeSection_serialize`, … — the decoder, region by region.
* **`zlImageDecode_zlImageEncode`** — encode, then decode.
* **`zlImageEncode_zlImageDecode`** — decode an arbitrary file, then encode, then decode again.
-/

namespace Zlvm

open Loop Buffer

/-! ## Normalisation -/

/-- A null name becomes empty; BSS data becomes zeros. -/
def ZlImageSection.normalise (s : ZlImageSection) : ZlImageSection :=
  { s with
    name := some (orEmpty s.name)
    data := .bytes (if s.type = sectionBss then List.replicate s.dataSize 0 else s.data.toBytes) }

def ZlImageSymbol.normalise (y : ZlImageSymbol) : ZlImageSymbol :=
  { y with name := some (orEmpty y.name) }

/-- What the format keeps of an image. -/
def ZlImage.normalise (image : ZlImage) : ZlImage :=
  { image with
    entrySymbol := if image.kind = imageExecutable then none else image.entrySymbol
    sections := image.sections.map (·.normalise)
    symbols := image.symbols.map (·.normalise) }

/-! ## Reading fields and tables -/

/-- Cutting a list at a position. -/
theorem eq_take_getElem_drop {α : Type} {l : List α} {i : ℕ} (hi : i < l.length) :
    l = l.take i ++ l[i] :: l.drop (i + 1) := by
  rw [List.getElem_cons_drop hi, List.take_append_drop]

/-- Reading field `i` of a run of fields. -/
theorem get32_fields (pre : Bytes) (ws : List Word) (post : Bytes) (i : ℕ) (hi : i < ws.length)
    (offset : ℕ) (hoffset : offset = pre.length + 4 * i) :
    get32 (pre ++ (fields ws ++ post)) offset = .ok ws[i] := by
  have hsplit : fields ws
      = fields (ws.take i) ++ (LittleEndian.bytes 4 ws[i].toNat ++ fields (ws.drop (i + 1))) :=
    (congrArg fields (eq_take_getElem_drop hi)).trans (by simp only [fields, List.flatMap_append,
      List.flatMap_cons])
  have hlen : (fields (ws.take i)).length = 4 * i := by
    rw [length_fields, List.length_take, Nat.min_eq_left hi.le]
  refine get32_of_slice ?_ ?_
  · simp only [List.length_append, length_fields]
    omega
  · rw [hsplit]
    simp only [List.append_assoc]
    rw [← List.append_assoc]
    exact slice_mid (by simp [hlen, hoffset]) (by simp)

theorem readByte_mid {pre post : Bytes} {b : Byte} {index : ℕ} (h : index = pre.length) :
    readByte (pre ++ b :: post) index = .ok b := by
  subst h
  simp [readByte]

theorem sectionTable_append : ∀ (c p : ℕ) (as bs : List ZlImageSection),
    sectionTable c p (as ++ bs) = sectionTable c p as
      ++ sectionTable (c + (stringTable (as.map (·.name))).length)
          (p + (payloadTable as).length) bs
  | _, _, [], _ => by simp [sectionTable, payloadTable]
  | c, p, a :: as, bs => by
      rw [List.cons_append, sectionTable, sectionTable_append, sectionTable]
      simp [Nat.add_assoc]

theorem symbolTable_append : ∀ (c : ℕ) (as bs : List ZlImageSymbol),
    symbolTable c (as ++ bs) = symbolTable c as
      ++ symbolTable (c + (stringTable (as.map (·.name))).length) bs
  | _, [], _ => by simp [symbolTable]
  | c, a :: as, bs => by
      rw [List.cons_append, symbolTable, symbolTable_append, symbolTable]
      simp [Nat.add_assoc]

theorem relocationTable_append (as bs : List ZlImageRelocation) :
    relocationTable (as ++ bs) = relocationTable as ++ relocationTable bs := List.flatMap_append

theorem payloadTable_append (as bs : List ZlImageSection) :
    payloadTable (as ++ bs) = payloadTable as ++ payloadTable bs := List.flatMap_append

theorem toNat_ofNat_of_le {n : ℕ} (h : n ≤ uint32Max) : (UInt32.ofNat n).toNat = n := by
  rw [UInt32.toNat_ofNat', Nat.mod_eq_of_lt]
  rw [uint32Max] at h
  omega

/-! ## The canonical file -/

section Canonical

variable {image : ZlImage} (hsize : image.encodedSize ≤ uint32Max)

include hsize

/-- The offsets of the canonical header fit its fields. -/
theorem header_toNat :
    image.header.sectionOffset.toNat = 52 ∧
    image.header.sectionCount.toNat = image.sections.length ∧
    image.header.symbolCount.toNat = image.symbols.length ∧
    image.header.relocationCount.toNat = image.relocations.length ∧
    image.header.symbolOffset.toNat = image.layout.symbolOffset ∧
    image.header.relocationOffset.toNat = image.layout.relocationOffset ∧
    image.header.stringOffset.toNat = image.layout.stringOffset ∧
    image.header.stringSize.toNat = image.layout.stringSize ∧
    image.header.payloadOffset.toNat = image.layout.payloadOffset := by
  obtain ⟨hsec, hsym, hrel⟩ := ZlImage.counts_le hsize
  simp only [ZlImage.encodedSize, ZlImage.layout, imageHeaderSize, imageSectionRecordSize,
    imageSymbolRecordSize, imageRelocationRecordSize] at hsize
  simp only [ZlImage.header, ZlImage.layout, imageHeaderSize, imageSectionRecordSize,
    imageSymbolRecordSize, imageRelocationRecordSize]
  refine ⟨rfl, toNat_ofNat_of_le hsec, toNat_ofNat_of_le hsym, toNat_ofNat_of_le hrel, ?_, ?_, ?_,
    ?_, ?_⟩ <;> exact toNat_ofNat_of_le (by omega)

/-- The string table holds every string of the image. -/
theorem getString_serialize (done : List (Option CString)) (name : Option CString)
    (rest : List (Option CString)) (hstrings : image.strings = done ++ name :: rest) :
    getString (serialize image) image.header.stringOffset.toNat image.header.stringSize.toNat
        (UInt32.ofNat (1 + (stringTable done).length))
      = .ok (some (orEmpty name)) := by
  obtain ⟨-, -, -, -, -, -, hoffset, hstringSize, -⟩ := header_toNat hsize
  have hlayout : image.layout.stringSize
      = 1 + (stringTable done).length + ((orEmpty name).length + 1)
        + (stringTable rest).length := by
    simp only [ZlImage.layout, hstrings, stringTable_append, stringTable_cons, List.length_append,
      CString.length_terminated]
    omega
  have hle : image.layout.stringSize ≤ uint32Max := by
    simp only [ZlImage.encodedSize, ZlImage.layout] at hsize ⊢
    omega
  have hnat : (UInt32.ofNat (1 + (stringTable done).length)).toNat
      = 1 + (stringTable done).length := toNat_ofNat_of_le (by omega)
  refine getString_of_slice (by rw [hnat, hstringSize]; omega) ?_
  have hfile : serialize image
      = (image.header.toBytes ++ sectionTable 1 image.layout.payloadOffset image.sections
          ++ symbolTable image.symbolCursor image.symbols ++ relocationTable image.relocations
          ++ (0 :: stringTable done))
        ++ ((orEmpty name).terminated
          ++ (stringTable rest ++ payloadTable image.sections)) := by
    simp [serialize, ZlImage.regions, hstrings]
  rw [hnat, hoffset, hfile]
  refine slice_mid ?_ (by simp)
  simp [ZlImage.layout, imageHeaderSize, imageSectionRecordSize, imageSymbolRecordSize,
    imageRelocationRecordSize]
  omega

theorem decodeHeader_serialize (hkind : image.kind = imageObject ∨ image.kind = imageExecutable) :
    decodeHeader (serialize image) = .ok image.header := by
  obtain ⟨hso, hsc, hyc, hrc, hyo, hro, hto, hts, hpo⟩ := header_toNat hsize
  have hlen := length_serialize image
  have hlarge : 52 ≤ image.encodedSize := by
    simp only [ZlImage.encodedSize, ZlImage.layout, imageHeaderSize]
    omega
  -- the header fields, as fields of the file
  have hfile : serialize image = (imageMagic ++ [1, 0, image.kind, 0]) ++
      (fields [UInt32.ofNat imageHeaderSize, image.header.sectionCount, image.header.symbolCount,
        image.header.relocationCount, image.header.entryField, image.header.sectionOffset,
        image.header.symbolOffset, image.header.relocationOffset, image.header.stringOffset,
        image.header.stringSize, image.header.payloadOffset] ++ image.regions.tail.flatten) := by
    simp only [serialize, ZlImage.regions, ImageHeader.toBytes, List.flatten_cons, List.tail_cons,
      List.append_assoc]
    rfl
  have hget := get32_fields (imageMagic ++ [1, 0, image.kind, 0])
    [UInt32.ofNat imageHeaderSize, image.header.sectionCount, image.header.symbolCount,
      image.header.relocationCount, image.header.entryField, image.header.sectionOffset,
      image.header.symbolOffset, image.header.relocationOffset, image.header.stringOffset,
      image.header.stringSize, image.header.payloadOffset] image.regions.tail.flatten
  rw [← hfile] at hget
  have hmagic : readBytes (serialize image) 0 4 = .ok imageMagic := by
    rw [readBytes_eq (by omega), hfile, List.append_assoc]
    exact congrArg Except.ok (@slice_mid Byte [] imageMagic _ 0 4 rfl rfl)
  have hversion : get16 (serialize image) 4 = .ok imageVersion := by
    have hlow : (serialize image).getD 4 0 = 1 := by rw [hfile]; rfl
    have hhigh : (serialize image).getD (4 + 1) 0 = 0 := by rw [hfile]; rfl
    rw [get16_eq (by omega), hlow, hhigh]
    decide
  have hkindByte : readByte (serialize image) 6 = .ok image.kind := by
    rw [hfile]
    rfl
  have hreserved : readByte (serialize image) 7 = .ok 0 := by
    rw [hfile]
    rfl
  have hbounds : image.header.inBounds (serialize image).length = true := by
    rw [ImageHeader.inBounds_iff, hlen, hso, hsc, hyc, hrc, hyo, hro, hto, hts, hpo]
    simp only [ZlImage.encodedSize, ZlImage.layout, imageHeaderSize, imageSectionRecordSize,
      imageSymbolRecordSize, imageRelocationRecordSize]
    omega
  have hstrings : image.header.stringSize ≠ 0 := by
    intro h0
    rw [h0] at hts
    simp only [ZlImage.layout, UInt32.toNat_zero] at hts
    omega
  have hfirst : readByte (serialize image) image.header.stringOffset.toNat = .ok 0 := by
    have hsplit : serialize image
        = (image.header.toBytes ++ sectionTable 1 image.layout.payloadOffset image.sections
            ++ symbolTable image.symbolCursor image.symbols ++ relocationTable image.relocations)
          ++ 0 :: (stringTable image.strings ++ payloadTable image.sections) := by
      simp [serialize, ZlImage.regions]
    rw [hsplit]
    refine readByte_mid ?_
    rw [hto]
    simp [ZlImage.layout, imageHeaderSize, imageSectionRecordSize, imageSymbolRecordSize,
      imageRelocationRecordSize]
    omega
  unfold decodeHeader
  rw [require_of (by rw [hlen]; exact hlarge), ok_bind, hmagic, ok_bind, require_of rfl, ok_bind,
    hversion, ok_bind, require_of rfl, ok_bind, hkindByte, ok_bind, require_of hkind, ok_bind,
    hreserved, ok_bind, require_of rfl, ok_bind, hget 0 (by simp) 8 rfl, ok_bind,
    require_of (by rfl), ok_bind, hget 1 (by simp) 12 rfl, ok_bind, hget 2 (by simp) 16 rfl,
    ok_bind, hget 3 (by simp) 20 rfl, ok_bind, hget 5 (by simp) 28 rfl, ok_bind,
    hget 6 (by simp) 32 rfl, ok_bind, hget 7 (by simp) 36 rfl, ok_bind,
    hget 8 (by simp) 40 rfl, ok_bind, hget 9 (by simp) 44 rfl, ok_bind,
    hget 10 (by simp) 48 rfl, ok_bind]
  refine (congrArg (· >>= _) (require_of hbounds)).trans ?_
  rw [ok_bind]
  refine (congrArg (· >>= _) (require_of hstrings)).trans ?_
  rw [ok_bind]
  refine (congrArg (· >>= _) hfirst).trans ?_
  rw [ok_bind, require_of rfl, ok_bind, hget 4 (by simp) 24 rfl, ok_bind]
  rfl

omit hsize in
/-- The record of a section in the file. -/
theorem serialize_section {done rest : List ZlImageSection} {s : ZlImageSection}
    (hcut : image.sections = done ++ s :: rest) :
    ∃ post, serialize image
      = (image.header.toBytes ++ sectionTable 1 image.layout.payloadOffset done)
        ++ (sectionRecordBytes (1 + (stringTable (done.map (·.name))).length)
          (image.layout.payloadOffset + (payloadTable done).length) s ++ post) := by
  have htable := congrArg (sectionTable 1 image.layout.payloadOffset) hcut
  rw [sectionTable_append, sectionTable] at htable
  rw [serialize, ZlImage.regions, htable]
  simp only [List.flatten_cons, List.append_assoc]
  exact ⟨_, rfl⟩

omit hsize in
/-- The payload of a section in the file. -/
theorem serialize_payload {done rest : List ZlImageSection} {s : ZlImageSection}
    (hcut : image.sections = done ++ s :: rest) :
    slice (serialize image) (image.layout.payloadOffset + (payloadTable done).length)
      s.payload.length = s.payload := by
  have htable := congrArg payloadTable hcut
  rw [payloadTable_append, payloadTable_cons] at htable
  have hfile : serialize image
      = (image.header.toBytes ++ sectionTable 1 image.layout.payloadOffset image.sections
          ++ symbolTable image.symbolCursor image.symbols ++ relocationTable image.relocations
          ++ (0 :: stringTable image.strings) ++ payloadTable done)
        ++ (s.payload ++ payloadTable rest) := by
    simp [serialize, ZlImage.regions, htable]
  rw [hfile]
  refine slice_mid ?_ rfl
  simp [ZlImage.layout, imageHeaderSize, imageSectionRecordSize, imageSymbolRecordSize,
    imageRelocationRecordSize]
  omega

theorem decodeSection_serialize (hall : ∀ s ∈ image.sections, s.Encodable) (decoded : ZlImage)
    {i : ℕ} (hi : i < image.sections.length) :
    decodeSection allocAll (serialize image) image.header decoded i
      = .ok image.sections[i].normalise := by
  obtain ⟨hso, -, -, -, -, -, -, -, hpo⟩ := header_toNat hsize
  have hs := hall _ (List.getElem_mem hi)
  have hcut := eq_take_getElem_drop hi
  generalize image.sections[i] = s at hs hcut ⊢
  generalize hdone : image.sections.take i = done at hcut
  generalize image.sections.drop (i + 1) = rest at hcut
  have hlen : done.length = i := by
    rw [← hdone, List.length_take, Nat.min_eq_left hi.le]
  have hrange := hs.range
  have hpayload := serialize_payload hcut
  have hname := getString_serialize hsize (done.map (·.name)) s.name
    (rest.map (·.name) ++ image.symbols.map (·.name) ++ image.encodedEntry.toList.map some) (by
        rw [ZlImage.strings, ZlImage.names]
        conv_lhs => rw [hcut]
        simp)
  have hfits : image.layout.payloadOffset + (payloadTable done).length + s.payload.length
      ≤ image.encodedSize := by
    have htable := congrArg (fun l => (payloadTable l).length) hcut
    simp only [payloadTable_append, payloadTable_cons, List.length_append] at htable
    rw [ZlImage.encodedSize, htable]
    omega
  have hstart : image.layout.payloadOffset
      ≤ image.layout.payloadOffset + (payloadTable done).length := Nat.le_add_right _ _
  have halloc : ∀ a, allocAll a = true := fun _ => rfl
  obtain ⟨post, hfile⟩ := serialize_section hcut
  generalize 1 + (stringTable (done.map (·.name))).length = nameOffset at hfile hname
  generalize image.layout.payloadOffset + (payloadTable done).length = dataOffset
    at hfile hpayload hfits hstart
  have hoffset : (UInt32.ofNat dataOffset).toNat = dataOffset := toNat_ofNat_of_le (by omega)
  have hdata : (UInt32.ofNat s.dataSize).toNat = s.dataSize := toNat_ofNat_of_le (by omega)
  have hrecord : image.header.sectionRecord i
      = (image.header.toBytes ++ sectionTable 1 image.layout.payloadOffset done).length := by
    simp [ImageHeader.sectionRecord, hso, imageSectionRecordSize, hlen]
  have hget := get32_fields (image.header.toBytes ++ sectionTable 1 image.layout.payloadOffset done)
    [UInt32.ofNat nameOffset, s.type, s.flags, s.alignment, s.address, UInt32.ofNat dataOffset,
      UInt32.ofNat s.dataSize] post
  rw [← sectionRecordBytes, ← hfile] at hget
  unfold decodeSection
  simp only []
  rw [hget 5 (by simp) _ (by omega), ok_bind, hget 6 (by simp) _ (by omega),
    ok_bind, hget 1 (by simp) _ (by omega), ok_bind,
    hget 4 (by simp) _ (by omega), ok_bind, hget 0 (by simp) _ (by omega),
    ok_bind]
  simp only [List.getElem_cons_zero, List.getElem_cons_succ]
  rw [hname, ok_bind, require_of (by simp), ok_bind, hget 3 (by simp) _ (by omega),
    ok_bind]
  simp only [List.getElem_cons_zero, List.getElem_cons_succ]
  have hin : s.type ≠ sectionBss → dataOffset + s.dataSize ≤ (serialize image).length := by
    intro hbss
    rw [hs.length_payload, if_neg hbss] at hfits
    rwa [length_serialize]
  rw [require_of hs.alignment, ok_bind, require_of hs.type, ok_bind,
    require_of (fun _ => by rw [hoffset, length_serialize]; omega), ok_bind,
    require_of (fun hbss => by
      rw [inRange_iff, hoffset, hdata, UInt32.le_iff_toNat_le, hoffset, hpo]
      exact ⟨by omega, hin hbss⟩), ok_bind,
    require_of (by rw [hdata]; omega), ok_bind, hget 2 (by simp) _ (by omega), ok_bind,
    require_of (halloc _), ok_bind, require_of (fun _ => halloc _), ok_bind]
  simp only [List.getElem_cons_zero, List.getElem_cons_succ, hoffset, hdata]
  split
  · rename_i hbss
    simp [ZlImageSection.normalise, hbss]
  · rename_i hbss
    rw [hs.length_payload, if_neg hbss, ZlImageSection.payload, if_neg hbss] at hpayload
    rw [readBytes_eq (hin hbss), ok_bind, hpayload]
    simp [ZlImageSection.normalise, hbss]

omit hsize in
/-- The record of a symbol in the file. -/
theorem serialize_symbol {done rest : List ZlImageSymbol} {y : ZlImageSymbol}
    (hcut : image.symbols = done ++ y :: rest) :
    ∃ post, serialize image
      = (image.header.toBytes ++ sectionTable 1 image.layout.payloadOffset image.sections
          ++ symbolTable image.symbolCursor done)
        ++ (symbolRecordBytes (image.symbolCursor + (stringTable (done.map (·.name))).length) y
          ++ post) := by
  have htable := congrArg (symbolTable image.symbolCursor) hcut
  rw [symbolTable_append, symbolTable] at htable
  rw [serialize, ZlImage.regions, htable]
  simp only [List.flatten_cons, List.append_assoc]
  exact ⟨_, rfl⟩

theorem decodeSymbol_serialize
    (hall : image.symbols.all (symbolValid image.sections.length) = true) (decoded : ZlImage)
    {i : ℕ} (hi : i < image.symbols.length) :
    decodeSymbol allocAll (serialize image) image.header decoded i
      = .ok image.symbols[i].normalise := by
  obtain ⟨-, hsc, -, -, hyo, -, -, -, -⟩ := header_toNat hsize
  have hy := List.all_eq_true.mp hall _ (List.getElem_mem hi)
  simp only [symbolValid, Bool.and_eq_true, decide_eq_true_eq] at hy
  obtain ⟨⟨hsection, hbinding⟩, htype⟩ := hy
  have hcut := eq_take_getElem_drop hi
  generalize image.symbols[i] = y at hsection hbinding htype hcut ⊢
  generalize hdone : image.symbols.take i = done at hcut
  generalize image.symbols.drop (i + 1) = rest at hcut
  have hlen : done.length = i := by
    rw [← hdone, List.length_take, Nat.min_eq_left hi.le]
  have hname := getString_serialize hsize
    (image.sections.map (·.name) ++ done.map (·.name)) y.name
    (rest.map (·.name) ++ image.encodedEntry.toList.map some) (by
        rw [ZlImage.strings, ZlImage.names]
        conv_lhs => rw [hcut]
        simp)
  have hcursor : 1 + (stringTable (image.sections.map (·.name) ++ done.map (·.name))).length
      = image.symbolCursor + (stringTable (done.map (·.name))).length := by
    rw [stringTable_append, List.length_append, ZlImage.symbolCursor, Nat.add_assoc]
  obtain ⟨post, hfile⟩ := serialize_symbol hcut
  rw [hcursor] at hname
  generalize image.symbolCursor + (stringTable (done.map (·.name))).length = nameOffset
    at hfile hname
  have hrecord : image.header.symbolRecord i
      = (image.header.toBytes ++ sectionTable 1 image.layout.payloadOffset image.sections
          ++ symbolTable image.symbolCursor done).length := by
    simp [ImageHeader.symbolRecord, hyo, ZlImage.layout, imageHeaderSize, imageSectionRecordSize,
      imageSymbolRecordSize, hlen]
    omega
  generalize image.header.toBytes ++ sectionTable 1 image.layout.payloadOffset image.sections
    ++ symbolTable image.symbolCursor done = pre at hfile hrecord
  rw [symbolRecordBytes, List.append_assoc] at hfile
  have hget := get32_fields pre [UInt32.ofNat nameOffset, y.sectionIndex, y.value, y.size]
    ([y.binding, y.type, 0, 0] ++ post)
  rw [← hfile] at hget
  have hbyte : ∀ (k : ℕ) (hk : k < 4) (offset : ℕ), offset = pre.length + 16 + k →
      readByte (serialize image) offset = .ok ([y.binding, y.type, 0, 0].get ⟨k, hk⟩) := by
    intro k hk offset hoffset
    have hbytes : (serialize image)[offset]? = [y.binding, y.type, 0, 0][k]? := by
      rw [hfile, ← List.append_assoc, List.getElem?_append_right (by simp; omega),
        List.getElem?_append_left (by simp; omega)]
      congr 1
      simp
      omega
    rw [readByte, hbytes, List.getElem?_eq_getElem hk]
    rfl
  have h18 : readByte (serialize image) (image.header.symbolRecord i + 18) = .ok 0 :=
    hbyte 2 (by decide) _ (by omega)
  have h19 : readByte (serialize image) (image.header.symbolRecord i + 19) = .ok 0 :=
    hbyte 3 (by decide) _ (by omega)
  have halloc : ∀ a, allocAll a = true := fun _ => rfl
  unfold decodeSymbol
  simp only []
  rw [hget 1 (by simp) _ (by omega), ok_bind, hget 0 (by simp) _ (by omega), ok_bind]
  simp only [List.getElem_cons_zero, List.getElem_cons_succ]
  rw [hname, ok_bind, require_of (by simp), ok_bind,
    require_of (hsection.imp_right fun h => by rwa [UInt32.lt_iff_toNat_lt, hsc]), ok_bind,
    hget 2 (by simp) _ (by omega), ok_bind, hget 3 (by simp) _ (by omega), ok_bind,
    hbyte 0 (by decide) _ (by omega), ok_bind, hbyte 1 (by decide) _ (by omega), ok_bind,
    require_of (halloc _), ok_bind, require_of ⟨hbinding, htype⟩, ok_bind,
    h18, ok_bind, require_of rfl, ok_bind, h19, ok_bind, require_of rfl, ok_bind]
  rfl

omit hsize in
/-- The record of a relocation in the file. -/
theorem serialize_relocation {done rest : List ZlImageRelocation} {r : ZlImageRelocation}
    (hcut : image.relocations = done ++ r :: rest) :
    ∃ post, serialize image
      = (image.header.toBytes ++ sectionTable 1 image.layout.payloadOffset image.sections
          ++ symbolTable image.symbolCursor image.symbols ++ relocationTable done)
        ++ (relocationRecordBytes r ++ post) := by
  have htable := congrArg relocationTable hcut
  rw [relocationTable_append] at htable
  rw [serialize, ZlImage.regions, htable]
  simp only [List.flatten_cons, List.append_assoc, relocationTable, List.flatMap_cons]
  exact ⟨_, rfl⟩

theorem decodeRelocation_serialize {decoded : ZlImage}
    (hall : image.relocations.all (relocationValid decoded.sections image.symbols.length) = true)
    {i : ℕ} (hi : i < image.relocations.length) :
    decodeRelocation (serialize image) image.header decoded i = .ok image.relocations[i] := by
  obtain ⟨-, -, hyc, -, -, hro, -, -, -⟩ := header_toNat hsize
  have hr := List.all_eq_true.mp hall _ (List.getElem_mem hi)
  have hcut := eq_take_getElem_drop hi
  generalize image.relocations[i] = r at hr hcut ⊢
  generalize hdone : image.relocations.take i = done at hcut
  generalize image.relocations.drop (i + 1) = rest at hcut
  have hlen : done.length = i := by
    rw [← hdone, List.length_take, Nat.min_eq_left hi.le]
  obtain ⟨post, hfile⟩ := serialize_relocation hcut
  have hrecord : image.header.relocationRecord i
      = (image.header.toBytes ++ sectionTable 1 image.layout.payloadOffset image.sections
          ++ symbolTable image.symbolCursor image.symbols ++ relocationTable done).length := by
    simp [ImageHeader.relocationRecord, hro, ZlImage.layout, imageHeaderSize,
      imageSectionRecordSize, imageSymbolRecordSize, imageRelocationRecordSize, hlen]
    omega
  have hget := get32_fields
    (image.header.toBytes ++ sectionTable 1 image.layout.payloadOffset image.sections
      ++ symbolTable image.symbolCursor image.symbols ++ relocationTable done)
    [r.sectionIndex, r.offset, r.type, r.symbolIndex, r.addend.toUInt32] post
  rw [← relocationRecordBytes, ← hfile] at hget
  have haddend : r.addend.toUInt32.toInt32 = r.addend := rfl
  unfold decodeRelocation
  simp only []
  rw [hget 0 (by simp) _ (by omega), ok_bind, hget 1 (by simp) _ (by omega), ok_bind,
    hget 2 (by simp) _ (by omega), ok_bind, hget 3 (by simp) _ (by omega), ok_bind,
    hget 4 (by simp) _ (by omega), ok_bind]
  simp only [List.getElem_cons_zero, List.getElem_cons_succ, haddend]
  rw [hyc, require_of hr, ok_bind]
  rfl

theorem decodeEntrySymbol_serialize (h : image.Encodable) (decoded : ZlImage) :
    decodeEntrySymbol allocAll (serialize image) image.header decoded
      = .ok image.normalise.entrySymbol := by
  have halloc : ∀ a, allocAll a = true := fun _ => rfl
  have hnone : image.encodedEntry = none → image.kind = imageObject →
      image.header.entryField = 0 := by
    intro hentry hobject
    simp [ZlImage.header, hentry, h.object hobject]
  rcases h.kind with hobject | hexec
  · have hne : image.kind ≠ imageExecutable := by rw [hobject]; decide
    have hencoded : image.encodedEntry = image.entrySymbol := if_pos hobject
    have hkeep : image.normalise.entrySymbol = image.encodedEntry := by
      rw [hencoded]
      exact if_neg hne
    rw [decodeEntrySymbol, hkeep]
    cases hentry : image.encodedEntry with
    | none => rw [if_neg (fun hc => hc.2 (hnone hentry hobject))]; rfl
    | some entrySymbol =>
        have hstrings : image.strings = image.names ++ some entrySymbol :: [] := by
          simp [ZlImage.strings, hentry]
        have hname := getString_serialize hsize _ _ _ hstrings
        have hfield : image.header.entryField
            = UInt32.ofNat (1 + (stringTable image.names).length) := by
          simp [ZlImage.header, hentry, ZlImage.entryOffset]
        have hmax : 1 + (stringTable image.names).length ≤ uint32Max := by
          simp only [ZlImage.encodedSize, ZlImage.layout, hstrings, stringTable_append,
            List.length_append] at hsize
          omega
        have hfieldNe : image.header.entryField ≠ 0 := by
          intro h0
          have := congrArg UInt32.toNat (hfield.symm.trans h0)
          rw [toNat_ofNat_of_le hmax, UInt32.toNat_zero] at this
          omega
        rw [if_pos ⟨hobject, hfieldNe⟩, hfield, hname, ok_bind, require_of (by simp), ok_bind,
          require_of (halloc _), ok_bind]
        rfl
  · have hdrop : image.normalise.entrySymbol = none := if_pos hexec
    have hne : ¬(image.header.kind = imageObject ∧ image.header.entryField ≠ 0) := fun hc =>
      absurd (hc.1.symm.trans hexec) (by decide)
    rw [decodeEntrySymbol, if_neg hne, hdrop]
    rfl

end Canonical

/-! ## Normalisation changes no check -/

theorem ZlImageSection.Encodable.dataSize_normalise {s : ZlImageSection} (h : s.Encodable) :
    s.normalise.dataSize = s.dataSize := by
  by_cases hbss : s.type = sectionBss
  · simp [ZlImageSection.normalise, ZlImageSection.dataSize, hbss]
  · have hstored := h.stored hbss
    simpa [ZlImageSection.normalise, ZlImageSection.dataSize, hbss] using hstored

theorem relocationValid_normalise {sections : List ZlImageSection}
    (hall : ∀ s ∈ sections, s.Encodable) (symbolCount : ℕ) (r : ZlImageRelocation) :
    relocationValid (sections.map (·.normalise)) symbolCount r
      = relocationValid sections symbolCount r := by
  unfold relocationValid
  rw [List.getElem?_map]
  cases h : sections[r.sectionIndex.toNat]? with
  | none => rfl
  | some s =>
      simp only [Option.map_some, (hall s (List.mem_of_getElem? h)).dataSize_normalise]
      rfl

theorem entryFound_normalise {sections : List ZlImageSection}
    (hall : ∀ s ∈ sections, s.Encodable) (entryPoint : Word) :
    entryFound (sections.map (·.normalise)) entryPoint = entryFound sections entryPoint := by
  rw [Bool.eq_iff_iff, entryFound_iff, entryFound_iff]
  constructor
  · rintro ⟨s', hs', htype, hle, hlt⟩
    obtain ⟨s, hs, rfl⟩ := List.mem_map.mp hs'
    rw [(hall s hs).dataSize_normalise] at hlt
    exact ⟨s, hs, htype, hle, hlt⟩
  · rintro ⟨s, hs, htype, hle, hlt⟩
    refine ⟨s.normalise, List.mem_map.mpr ⟨s, hs, rfl⟩, htype, hle, ?_⟩
    rwa [(hall s hs).dataSize_normalise]

/-! ## The round trips -/

/-- **Decoding the canonical file.** -/
theorem zlImageDecode_serialize {image : ZlImage} (h : image.Encodable)
    (hsize : image.encodedSize ≤ uint32Max) :
    zlImageDecode allocAll (serialize image) = .ok image.normalise := by
  obtain ⟨-, hsc, hyc, hrc, -, -, -, -, -⟩ := header_toNat hsize
  have halloc : ∀ a, allocAll a = true := fun _ => rfl
  -- the entry point survives in both kinds
  have hpoint : (if image.header.kind = imageExecutable then image.header.entryField else 0)
      = image.entryPoint := by
    rcases h.kind with hobject | hexec
    · have hne : image.header.kind ≠ imageExecutable := fun hk =>
        absurd (hobject.symm.trans hk) (by decide)
      rw [if_neg hne, h.object hobject]
    · have hentry : image.encodedEntry = none := if_neg (by rw [hexec]; decide)
      have hfield : image.header.entryField = image.entryPoint := if_pos hentry
      have hk : image.header.kind = imageExecutable := hexec
      rw [if_pos hk, hfield]
  have hsections : ∀ decoded, (List.range image.header.sectionCount.toNat).mapM
      (decodeSection allocAll (serialize image) image.header decoded)
        = .ok (image.sections.map (·.normalise)) := by
    intro decoded
    have hmap := mapM_range_eq_ok (l := image.sections.map (·.normalise))
      (f := decodeSection allocAll (serialize image) image.header decoded) fun i hi => by
        rw [List.getElem_map]
        exact decodeSection_serialize hsize h.sections decoded (by simpa using hi)
    rwa [List.length_map, ← hsc] at hmap
  have hsymbols : ∀ decoded, (List.range image.header.symbolCount.toNat).mapM
      (decodeSymbol allocAll (serialize image) image.header decoded)
        = .ok (image.symbols.map (·.normalise)) := by
    intro decoded
    have hmap := mapM_range_eq_ok (l := image.symbols.map (·.normalise))
      (f := decodeSymbol allocAll (serialize image) image.header decoded) fun i hi => by
        rw [List.getElem_map]
        exact decodeSymbol_serialize hsize h.symbols decoded (by simpa using hi)
    rwa [List.length_map, ← hyc] at hmap
  have hrelocations : ∀ decoded : ZlImage, decoded.sections = image.sections.map (·.normalise) →
      (List.range image.header.relocationCount.toNat).mapM
        (decodeRelocation (serialize image) image.header decoded) = .ok image.relocations := by
    intro decoded hdecoded
    have hmap := mapM_range_eq_ok (l := image.relocations)
      (f := decodeRelocation (serialize image) image.header decoded) fun i hi =>
        decodeRelocation_serialize hsize (by
          rw [hdecoded, List.all_eq_true]
          intro r hr
          rw [relocationValid_normalise h.sections]
          exact List.all_eq_true.mp h.relocations r hr) hi
    rwa [← hrc] at hmap
  unfold zlImageDecode
  rw [decodeHeader_serialize hsize h.kind, ok_bind]
  simp only [hpoint]
  rw [require_of (fun hexec => ⟨h.entry hexec, UInt32.toNat_inj.mp (by
      rw [hrc, h.linked hexec, UInt32.toNat_zero])⟩), ok_bind,
    require_of ⟨fun _ => halloc _, fun _ => halloc _, fun _ => halloc _⟩, ok_bind,
    decodeEntrySymbol_serialize hsize h, ok_bind, hsections, ok_bind, hsymbols, ok_bind,
    hrelocations _ rfl, ok_bind, require_of (fun hexec => ⟨h.entry hexec, by
      rw [entryFound_normalise h.sections]
      exact h.found hexec⟩), ok_bind]
  rfl

/-- **Encode, then decode.**  Whatever image the encoder accepts, its output decodes to the
normalised image. -/
theorem zlImageDecode_zlImageEncode {alloc : Bool} {image : ZlImage} {output : Bytes}
    (h : zlImageEncode alloc image = .ok output) :
    zlImageDecode allocAll output = .ok image.normalise := by
  obtain ⟨-, hencodable, hsize, rfl⟩ := zlImageEncode_eq_ok.mp h
  exact zlImageDecode_serialize hencodable hsize

/-- An object with a text section, a BSS section and a relocation with a negative addend. -/
def sampleImage : ZlImage where
  kind := imageObject
  entrySymbol := some (CString.lit "s")
  sections :=
    [{ name := none, type := sectionText, flags := 0, alignment := 4, address := 0,
       data := .bytes [1, 0, 0, 0] },
     { name := some (CString.lit "b"), type := sectionBss, flags := 1, alignment := 1, address := 9,
       data := .null 3 }]
  symbols := [{ name := some (CString.lit "s"), sectionIndex := 0, value := 0, size := 4,
                binding := symbolGlobal, type := symbolFunction }]
  relocations := [{ sectionIndex := 0, offset := 0, type := relocationAbsolute32,
                    symbolIndex := 0, addend := -1 }]

theorem zlImageDecode_zlImageEncode_sampleImage :
    zlImageDecode allocAll (serialize sampleImage) = .ok sampleImage.normalise :=
  @zlImageDecode_zlImageEncode true _ _ (by decide +kernel)

/-! ## Decode first -/

theorem ZlImageSection.WellFormed.encodable {s : ZlImageSection} (h : s.WellFormed) :
    s.Encodable := by
  obtain ⟨k, hk⟩ := h.alignment
  refine ⟨fun _ _ => ?_, validAlignment_of_pow hk, ?_, h.range⟩
  · rw [h.stored]
    rfl
  · rcases h.type with ht | ht | ht <;> rw [ht] <;> decide

/-- What the decoder accepts passes every check of the encoder. -/
theorem ZlImage.WellFormed.encodable {image : ZlImage} (h : image.WellFormed) :
    image.Encodable where
  kind := h.kind
  linked hexec := by rw [(h.executable hexec).1]; rfl
  sections s hs := (h.sections s hs).encodable
  symbols := by
    rw [List.all_eq_true]
    intro y hy
    have hy' := h.symbols y hy
    simp only [symbolValid, Bool.and_eq_true, decide_eq_true_eq]
    exact ⟨⟨hy'.sectionIndex, hy'.binding⟩, hy'.type⟩
  relocations := by
    rw [List.all_eq_true]
    exact fun r hr => relocationValid_iff.mpr (h.relocations r hr)
  object := h.object
  entry hexec := (h.executable hexec).2.2.1
  found hexec := entryFound_iff.mpr (h.executable hexec).2.2.2

theorem ZlImageSection.WellFormed.normalise {s : ZlImageSection} (h : s.WellFormed) :
    s.normalise = s := by
  refine ZlImageSection.ext ?_ rfl rfl rfl rfl ?_
  · obtain ⟨name, hname⟩ := Option.ne_none_iff_exists'.mp h.name
    simp [ZlImageSection.normalise, orEmpty, hname]
  · by_cases hbss : s.type = sectionBss
    · rw [ZlImageSection.normalise, if_pos hbss]
      exact (h.bss hbss).symm
    · rw [ZlImageSection.normalise, if_neg hbss]
      exact h.stored.symm

theorem ZlImageSymbol.WellFormed.normalise {sectionCount : ℕ} {y : ZlImageSymbol}
    (h : y.WellFormed sectionCount) : y.normalise = y := by
  refine ZlImageSymbol.ext ?_ rfl rfl rfl rfl rfl
  obtain ⟨name, hname⟩ := Option.ne_none_iff_exists'.mp h.name
  simp [ZlImageSymbol.normalise, orEmpty, hname]

/-- What the decoder accepts is already normal. -/
theorem ZlImage.WellFormed.normalise {image : ZlImage} (h : image.WellFormed) :
    image.normalise = image := by
  refine ZlImage.ext rfl rfl ?_ ?_ ?_ rfl
  · by_cases hexec : image.kind = imageExecutable
    · rw [ZlImage.normalise, if_pos hexec]
      exact (h.executable hexec).2.1.symm
    · rw [ZlImage.normalise, if_neg hexec]
  · exact (List.map_congr_left fun s hs => (h.sections s hs).normalise).trans (List.map_id _)
  · exact (List.map_congr_left fun y hy => (h.symbols y hy).normalise).trans (List.map_id _)

/-- **Decode, then encode.**  An accepted file, canonical or not, encodes again unless its
canonical form is too large for the format, and what comes out decodes to the same image. -/
theorem zlImageEncode_zlImageDecode {alloc : Allocator} {input : Bytes} {image : ZlImage}
    (h : zlImageDecode alloc input = .ok image) :
    (zlImageEncode true image = .error .overflow ∧ 2 ^ 32 - 1 < (serialize image).length) ∨
    ∃ output, zlImageEncode true image = .ok output ∧
      zlImageDecode allocAll output = .ok image := by
  have hwf := ((zlImageDecode_ensures alloc input).of_eq_ok h).1
  rw [zlImageEncode_eq hwf.encodable]
  by_cases hsize : image.encodedSize ≤ uint32Max
  · refine .inr ⟨serialize image, if_pos hsize, ?_⟩
    rw [zlImageDecode_serialize hwf.encodable hsize, hwf.normalise]
  · refine .inl ⟨if_neg hsize, ?_⟩
    rw [length_serialize]
    rw [uint32Max] at hsize
    omega

/-- A file with bytes after its payload is not canonical and still accepted. -/
theorem zlImageEncode_zlImageDecode_sampleImage :
    (zlImageEncode true sampleImage.normalise = .error .overflow ∧
      2 ^ 32 - 1 < (serialize sampleImage.normalise).length) ∨
    ∃ output, zlImageEncode true sampleImage.normalise = .ok output ∧
      zlImageDecode allocAll output = .ok sampleImage.normalise :=
  @zlImageEncode_zlImageDecode allocAll (serialize sampleImage ++ [7, 7]) _ (by decide +kernel)

end Zlvm
