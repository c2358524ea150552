import Zlvm.Image.Decode
import Zlvm.Image.Encode

/-!
# The canonical file of an image

What the encoder's in-place writes amount to: an image as the concatenation of its six regions.

* `serialize` — header, section records, symbol records, relocation records, string table, payload.
* `ZlImage.Encodable` — the checks of the encoder as one predicate.
* `encodeWrites_eq` — the writes produce `serialize`.
* **`zlImageEncode_eq`**, **`zlImageEncode_eq_ok`** — the encoder is `serialize` behind its checks.
-/

namespace Zlvm

open Loop Buffer

/-! ## Records -/

/-- A run of 32-bit fields. -/
def fields (ws : List Word) : Bytes := ws.flatMap fun w => LittleEndian.bytes 4 w.toNat

/-- The header as it lies in the file. -/
def ImageHeader.toBytes (header : ImageHeader) : Bytes :=
  imageMagic ++ [1, 0, header.kind, 0] ++
    fields [UInt32.ofNat imageHeaderSize, header.sectionCount, header.symbolCount,
      header.relocationCount, header.entryField, header.sectionOffset, header.symbolOffset,
      header.relocationOffset, header.stringOffset, header.stringSize, header.payloadOffset]

/-- The header with another entry field. -/
def ImageHeader.withEntry (header : ImageHeader) (entryField : Word) : ImageHeader :=
  { header with entryField }

@[simp] theorem ImageHeader.withEntry_self (header : ImageHeader) :
    header.withEntry header.entryField = header := rfl

@[simp] theorem ImageHeader.withEntry_withEntry (header : ImageHeader) (v w : Word) :
    (header.withEntry v).withEntry w = header.withEntry w := rfl

/-- A section record. -/
def sectionRecordBytes (nameOffset payloadOffset : ℕ) (s : ZlImageSection) : Bytes :=
  fields [UInt32.ofNat nameOffset, s.type, s.flags, s.alignment, s.address,
    UInt32.ofNat payloadOffset, UInt32.ofNat s.dataSize]

/-- A symbol record. -/
def symbolRecordBytes (nameOffset : ℕ) (y : ZlImageSymbol) : Bytes :=
  fields [UInt32.ofNat nameOffset, y.sectionIndex, y.value, y.size] ++ [y.binding, y.type, 0, 0]

/-- A relocation record. -/
def relocationRecordBytes (r : ZlImageRelocation) : Bytes :=
  fields [r.sectionIndex, r.offset, r.type, r.symbolIndex, r.addend.toUInt32]

/-! ## Tables -/

/-- The bytes a section has in the file. -/
def ZlImageSection.payload (s : ZlImageSection) : Bytes :=
  if s.type = sectionBss then [] else s.data.toBytes

def payloadTable (sections : List ZlImageSection) : Bytes := sections.flatMap (·.payload)

def stringTable (names : List (Option CString)) : Bytes :=
  names.flatMap fun name => (orEmpty name).terminated

/-- The section records, the first of which refers to the string at `stringCursor` and to the
payload at `payloadCursor`. -/
def sectionTable (stringCursor payloadCursor : ℕ) : List ZlImageSection → Bytes
  | [] => []
  | s :: rest =>
      sectionRecordBytes stringCursor payloadCursor s ++
        sectionTable (stringCursor + ((orEmpty s.name).length + 1))
          (payloadCursor + s.payload.length) rest

/-- The symbol records, the first of which refers to the string at `stringCursor`. -/
def symbolTable (stringCursor : ℕ) : List ZlImageSymbol → Bytes
  | [] => []
  | y :: rest =>
      symbolRecordBytes stringCursor y ++ symbolTable (stringCursor + ((orEmpty y.name).length + 1)) rest

def relocationTable (relocations : List ZlImageRelocation) : Bytes :=
  relocations.flatMap relocationRecordBytes

/-! ## The file -/

namespace ZlImage

variable (image : ZlImage)

/-- Every string of the file, in order: the sections' names, the symbols' and the entry symbol. -/
def strings : List (Option CString) := image.names ++ (image.encodedEntry.toList.map some)

/-- Where the entry symbol's string starts. -/
def entryOffset : ℕ := 1 + (stringTable image.names).length

/-- The layout with nothing overflowing. -/
def layout : ImageLayout where
  symbolOffset := imageHeaderSize + image.sections.length * imageSectionRecordSize
  relocationOffset := imageHeaderSize + image.sections.length * imageSectionRecordSize
    + image.symbols.length * imageSymbolRecordSize
  stringOffset := imageHeaderSize + image.sections.length * imageSectionRecordSize
    + image.symbols.length * imageSymbolRecordSize
    + image.relocations.length * imageRelocationRecordSize
  stringSize := 1 + (stringTable image.strings).length
  payloadOffset := imageHeaderSize + image.sections.length * imageSectionRecordSize
    + image.symbols.length * imageSymbolRecordSize
    + image.relocations.length * imageRelocationRecordSize
    + (1 + (stringTable image.strings).length)

/-- The size of the canonical file. -/
def encodedSize : ℕ := image.layout.payloadOffset + (payloadTable image.sections).length

/-- The header of the canonical file. -/
def header : ImageHeader where
  kind := image.kind
  entryField := if image.encodedEntry = none then image.entryPoint else UInt32.ofNat image.entryOffset
  sectionCount := UInt32.ofNat image.sections.length
  symbolCount := UInt32.ofNat image.symbols.length
  relocationCount := UInt32.ofNat image.relocations.length
  sectionOffset := UInt32.ofNat imageHeaderSize
  symbolOffset := UInt32.ofNat image.layout.symbolOffset
  relocationOffset := UInt32.ofNat image.layout.relocationOffset
  stringOffset := UInt32.ofNat image.layout.stringOffset
  stringSize := UInt32.ofNat image.layout.stringSize
  payloadOffset := UInt32.ofNat image.layout.payloadOffset

/-- Where the string of symbol 0 starts. -/
def symbolCursor : ℕ := 1 + (stringTable (image.sections.map (·.name))).length

/-- The six regions of the canonical file. -/
def regions : List Bytes :=
  [image.header.toBytes,
    sectionTable 1 image.layout.payloadOffset image.sections,
    symbolTable image.symbolCursor image.symbols,
    relocationTable image.relocations,
    0 :: stringTable image.strings,
    payloadTable image.sections]

end ZlImage

/-- **The canonical file** of an image. -/
def serialize (image : ZlImage) : Bytes := image.regions.flatten

/-! ## Lengths -/

@[simp] theorem length_fields : ∀ ws : List Word, (fields ws).length = 4 * ws.length
  | [] => rfl
  | w :: ws => by
      have ih := length_fields ws
      simp only [fields] at ih
      simp [fields, ih]
      omega

@[simp] theorem length_toBytes (header : ImageHeader) : header.toBytes.length = 52 := by
  simp [ImageHeader.toBytes, imageMagic]

@[simp] theorem length_sectionRecordBytes (n p : ℕ) (s : ZlImageSection) :
    (sectionRecordBytes n p s).length = 28 := by simp [sectionRecordBytes]

@[simp] theorem length_symbolRecordBytes (n : ℕ) (y : ZlImageSymbol) :
    (symbolRecordBytes n y).length = 20 := by simp [symbolRecordBytes]

@[simp] theorem length_relocationRecordBytes (r : ZlImageRelocation) :
    (relocationRecordBytes r).length = 20 := by simp [relocationRecordBytes]

@[simp] theorem length_sectionTable : ∀ (n p : ℕ) (sections : List ZlImageSection),
    (sectionTable n p sections).length = sections.length * 28
  | _, _, [] => rfl
  | n, p, s :: rest => by
      rw [sectionTable, List.length_append, length_sectionTable, length_sectionRecordBytes,
        List.length_cons]
      omega

@[simp] theorem length_symbolTable : ∀ (n : ℕ) (symbols : List ZlImageSymbol),
    (symbolTable n symbols).length = symbols.length * 20
  | _, [] => rfl
  | n, y :: rest => by
      rw [symbolTable, List.length_append, length_symbolTable, length_symbolRecordBytes,
        List.length_cons]
      omega

@[simp] theorem length_relocationTable : ∀ relocations : List ZlImageRelocation,
    (relocationTable relocations).length = relocations.length * 20
  | [] => rfl
  | r :: rest => by
      have ih := length_relocationTable rest
      simp only [relocationTable] at ih
      simp [relocationTable, ih]
      omega

@[simp] theorem stringTable_nil : stringTable [] = [] := rfl

@[simp] theorem stringTable_cons (name : Option CString) (names : List (Option CString)) :
    stringTable (name :: names) = (orEmpty name).terminated ++ stringTable names := rfl

@[simp] theorem stringTable_append (as bs : List (Option CString)) :
    stringTable (as ++ bs) = stringTable as ++ stringTable bs := List.flatMap_append

@[simp] theorem payloadTable_cons (s : ZlImageSection) (rest : List ZlImageSection) :
    payloadTable (s :: rest) = s.payload ++ payloadTable rest := rfl

/-- The canonical file has the canonical size. -/
theorem length_serialize (image : ZlImage) : (serialize image).length = image.encodedSize := by
  simp [serialize, ZlImage.regions, ZlImage.encodedSize, ZlImage.layout, imageHeaderSize,
    imageSectionRecordSize, imageSymbolRecordSize, imageRelocationRecordSize]
  omega

/-! ## The writes -/

/-- Field by field is one overlay. -/
theorem foldl_put32 (base : ℕ) : ∀ (ws : List Word) (n : ℕ) (buf : Bytes),
    (ws.zipIdx n).foldl (fun buf entry => put32 buf (base + 4 * entry.2) entry.1) buf
      = overlay buf (base + 4 * n) (fields ws)
  | [], _, _ => by simp [fields]
  | w :: ws, n, buf => by
      have ih := foldl_put32 base ws (n + 1) (put32 buf (base + 4 * n) w)
      have hstart : base + 4 * (n + 1)
          = base + 4 * n + (LittleEndian.bytes 4 w.toNat).length := by simp; omega
      have hfields : fields (w :: ws) = LittleEndian.bytes 4 w.toNat ++ fields ws := rfl
      rw [List.zipIdx_cons, List.foldl_cons, ih, put32_eq, hstart, ← overlay_append, hfields]

/-- The header writes fill the first region. -/
theorem encodeHeader_eq (image : ZlImage) (post : List Bytes) :
    encodeHeader image.layout image (List.replicate 52 0 :: post).flatten
      = ((image.header.withEntry image.entryPoint).toBytes :: post).flatten := by
  have hsplit : (List.replicate 52 (0 : Byte) :: post).flatten
      = [0, 0, 0, 0, 0, 0, 0, 0] ++ (List.replicate 44 0 ++ post.flatten) := rfl
  have hfront : overlay (put16 (overlay ([0, 0, 0, 0, 0, 0, 0, 0]
        ++ (List.replicate 44 0 ++ post.flatten)) 0 imageMagic) 4 imageVersion) 6 [image.kind]
      = (imageMagic ++ [1, 0, image.kind, 0]) ++ (List.replicate 44 0 ++ post.flatten) := by
    have hhigh : (imageVersion >>> 8).toUInt8 = 0 := rfl
    have hlow : imageVersion.toUInt8 = 1 := rfl
    simp [overlay, put16, imageMagic, hhigh, hlow]
  have hfields := foldl_put32 8 [UInt32.ofNat imageHeaderSize, image.header.sectionCount,
    image.header.symbolCount, image.header.relocationCount, image.entryPoint,
    image.header.sectionOffset, image.header.symbolOffset, image.header.relocationOffset,
    image.header.stringOffset, image.header.stringSize, image.header.payloadOffset] 0
    ((imageMagic ++ [1, 0, image.kind, 0]) ++ (List.replicate 44 0 ++ post.flatten))
  have hregion := overlay_flatten_fill [imageMagic ++ [1, 0, image.kind, 0]] []
    (fields [UInt32.ofNat imageHeaderSize, image.header.sectionCount,
      image.header.symbolCount, image.header.relocationCount, image.entryPoint,
      image.header.sectionOffset, image.header.symbolOffset, image.header.relocationOffset,
      image.header.stringOffset, image.header.stringSize, image.header.payloadOffset])
    (List.replicate 44 0) (0 : Byte) 0 post 8 rfl (by simp)
  simp only [List.zipIdx_cons, List.zipIdx_nil, List.foldl_cons, List.foldl_nil, Nat.reduceMul,
    Nat.reduceAdd, Nat.mul_zero, Nat.mul_one, Nat.add_zero] at hfields
  rw [hsplit, encodeHeader]
  simp only [hfront]
  simp only [ZlImage.header] at hfields hregion
  rw [hfields]
  simpa [ImageHeader.toBytes, ImageHeader.withEntry, ZlImage.header] using hregion

/-- Appending a string extends the string region. -/
theorem appendString_eq (layout : ImageLayout) {H S Y R P t : Bytes} (room : ℕ)
    (name : Option CString) (payloadCursor : ℕ)
    (hoffset : layout.stringOffset = [H, S, Y, R].flatten.length)
    (hsize : t.length + ((orEmpty name).length + 1) ≤ layout.stringSize)
    (hcursor : t.length ≤ uint32Max) :
    appendString layout
        ⟨[H, S, Y, R, t ++ List.replicate ((orEmpty name).length + 1 + room) 0, P].flatten,
          t.length, payloadCursor⟩ name
      = some (⟨[H, S, Y, R, (t ++ (orEmpty name).terminated) ++ List.replicate room 0, P].flatten,
          t.length + ((orEmpty name).length + 1), payloadCursor⟩, UInt32.ofNat t.length) := by
  have hfill := overlay_flatten_fill [H, S, Y, R] t (orEmpty name).terminated
    (List.replicate ((orEmpty name).length + 1 + room) 0) (0 : Byte) room [P]
    (layout.stringOffset + t.length) (by rw [hoffset]) (by simp)
  simp only [List.cons_append, List.nil_append] at hfill
  unfold appendString
  rw [if_neg (by dsimp only; omega)]
  dsimp only
  rw [hfill]

theorem appendName_eq (layout : ImageLayout) {H S Y R P t : Bytes} (room : ℕ)
    (name : Option CString) (payloadCursor : ℕ)
    (hoffset : layout.stringOffset = [H, S, Y, R].flatten.length)
    (hsize : t.length + ((orEmpty name).length + 1) ≤ layout.stringSize)
    (hcursor : t.length ≤ uint32Max) :
    appendName layout
        ⟨[H, S, Y, R, t ++ List.replicate ((orEmpty name).length + 1 + room) 0, P].flatten,
          t.length, payloadCursor⟩ name
      = (⟨[H, S, Y, R, (t ++ (orEmpty name).terminated) ++ List.replicate room 0, P].flatten,
          t.length + ((orEmpty name).length + 1), payloadCursor⟩, UInt32.ofNat t.length) := by
  rw [appendName, appendString_eq _ _ _ _ hoffset hsize hcursor, Option.getD_some]

/-- A section that is not BSS points to as many bytes as its size says. -/
def ZlImageSection.Stored (s : ZlImageSection) : Prop :=
  s.type ≠ sectionBss → s.data.toBytes.length = s.dataSize

/-- One pass of the section loop extends three regions at once. -/
theorem encodeSection_eq {layout : ImageLayout} {H Y R t p done : Bytes}
    (sectionRoom stringRoom payloadRoom payloadCursor index : ℕ) {s : ZlImageSection}
    (hstored : s.Stored) (hH : H.length = imageHeaderSize)
    (hdone : done.length = index * imageSectionRecordSize)
    (hoffset : layout.stringOffset
      = [H, done ++ List.replicate (28 + sectionRoom) 0, Y, R].flatten.length)
    (hsize : t.length + ((orEmpty s.name).length + 1) ≤ layout.stringSize)
    (hcursor : t.length ≤ uint32Max)
    (hpayload : payloadCursor = [H, done ++ List.replicate (28 + sectionRoom) 0, Y, R,
      t ++ List.replicate ((orEmpty s.name).length + 1 + stringRoom) 0].flatten.length + p.length) :
    encodeSection layout
        ⟨[H, done ++ List.replicate (28 + sectionRoom) 0, Y, R,
          t ++ List.replicate ((orEmpty s.name).length + 1 + stringRoom) 0,
          p ++ List.replicate (s.payload.length + payloadRoom) 0].flatten,
          t.length, payloadCursor⟩ (s, index)
      = ⟨[H, (done ++ sectionRecordBytes t.length payloadCursor s) ++ List.replicate sectionRoom 0,
          Y, R, (t ++ (orEmpty s.name).terminated) ++ List.replicate stringRoom 0,
          (p ++ s.payload) ++ List.replicate payloadRoom 0].flatten,
          t.length + ((orEmpty s.name).length + 1), payloadCursor + s.payload.length⟩ := by
  have hrecord := overlay_flatten_fill [H] done (sectionRecordBytes t.length payloadCursor s)
    (List.replicate (28 + sectionRoom) 0) (0 : Byte) sectionRoom
    [Y, R, (t ++ (orEmpty s.name).terminated) ++ List.replicate stringRoom 0,
      p ++ List.replicate (s.payload.length + payloadRoom) 0]
    (imageHeaderSize + index * imageSectionRecordSize) (by simp [hH, hdone]) (by simp)
  have hcopy := overlay_flatten_fill
    [H, (done ++ sectionRecordBytes t.length payloadCursor s) ++ List.replicate sectionRoom 0, Y, R,
      (t ++ (orEmpty s.name).terminated) ++ List.replicate stringRoom 0] p s.payload
    (List.replicate (s.payload.length + payloadRoom) 0) (0 : Byte) payloadRoom []
    payloadCursor (by rw [hpayload]; simp; omega) rfl
  have hputs := foldl_put32 (imageHeaderSize + index * imageSectionRecordSize)
    [UInt32.ofNat t.length, s.type, s.flags, s.alignment, s.address, UInt32.ofNat payloadCursor,
      UInt32.ofNat s.dataSize] 0
    [H, done ++ List.replicate (28 + sectionRoom) 0, Y, R,
      (t ++ (orEmpty s.name).terminated) ++ List.replicate stringRoom 0,
      p ++ List.replicate (s.payload.length + payloadRoom) 0].flatten
  simp only [List.cons_append, List.nil_append] at hrecord hcopy
  simp only [List.zipIdx_cons, List.zipIdx_nil, List.foldl_cons, List.foldl_nil, Nat.reduceMul,
    Nat.reduceAdd, Nat.mul_zero, Nat.mul_one, Nat.add_zero] at hputs
  rw [encodeSection]
  simp only [appendName_eq _ _ _ _ hoffset hsize hcursor, hputs]
  rw [← sectionRecordBytes, hrecord]
  split
  · rename_i hne
    have hbytes : s.payload = s.data.toBytes := if_neg hne.1
    rw [← hbytes, hcopy, ← hstored hne.1, hbytes]
  · rename_i hempty
    have hnil : s.payload = [] := by
      rw [ZlImageSection.payload]
      split
      · rfl
      · rename_i hbss
        refine List.eq_nil_of_length_eq_zero ((hstored hbss).trans ?_)
        by_contra hsz
        exact hempty ⟨hbss, hsz⟩
    simp [hnil]

/-- **The section loop** fills the section region, the payload and the sections' share of the
string table. -/
theorem foldl_encodeSection (layout : ImageLayout) {H Y R : Bytes} (sectionRoom : ℕ)
    (hH : H.length = imageHeaderSize) (hmax : layout.stringSize ≤ uint32Max) :
    ∀ (sections : List ZlImageSection) (index stringRoom payloadCursor : ℕ) (done t p : Bytes),
      (∀ s ∈ sections, s.Stored) →
      done.length = index * imageSectionRecordSize →
      layout.stringOffset = [H, done ++ List.replicate (sections.length * 28 + sectionRoom) 0,
        Y, R].flatten.length →
      t.length + (stringTable (sections.map (·.name))).length + stringRoom = layout.stringSize →
      payloadCursor = layout.stringOffset + layout.stringSize + p.length →
      (sections.zipIdx index).foldl (encodeSection layout)
          ⟨[H, done ++ List.replicate (sections.length * 28 + sectionRoom) 0, Y, R,
            t ++ List.replicate ((stringTable (sections.map (·.name))).length + stringRoom) 0,
            p ++ List.replicate (payloadTable sections).length 0].flatten, t.length, payloadCursor⟩
        = ⟨[H, (done ++ sectionTable t.length payloadCursor sections)
              ++ List.replicate sectionRoom 0, Y, R,
            (t ++ stringTable (sections.map (·.name))) ++ List.replicate stringRoom 0,
            p ++ payloadTable sections].flatten,
            t.length + (stringTable (sections.map (·.name))).length,
            payloadCursor + (payloadTable sections).length⟩
  | [], index, stringRoom, payloadCursor, done, t, p, _, _, _, _, _ => by
      simp [sectionTable, payloadTable]
  | s :: rest, index, stringRoom, payloadCursor, done, t, p, hstored, hdone, hoffset, hsize,
      hpayload => by
      have hnames : (stringTable ((s :: rest).map (·.name))).length
          = (orEmpty s.name).length + 1 + (stringTable (rest.map (·.name))).length := by simp
      have hcount : (s :: rest).length * 28 + sectionRoom = 28 + (rest.length * 28 + sectionRoom) := by
        rw [List.length_cons]
        omega
      rw [hcount] at hoffset ⊢
      rw [hnames] at hsize
      have hstep := encodeSection_eq (Y := Y) (R := R) (t := t) (p := p)
        (rest.length * 28 + sectionRoom)
        ((stringTable (rest.map (·.name))).length + stringRoom) (payloadTable rest).length
        payloadCursor index (hstored s (by simp)) hH hdone hoffset (by omega) (by omega)
        (by rw [hpayload, hoffset]; simp; omega)
      have ih := foldl_encodeSection layout (Y := Y) (R := R) sectionRoom hH hmax rest
        (index + 1) stringRoom (payloadCursor + s.payload.length)
        (done ++ sectionRecordBytes t.length payloadCursor s) (t ++ (orEmpty s.name).terminated)
        (p ++ s.payload) (fun s' hs' => hstored s' (by simp [hs'])) (by simp [hdone, imageSectionRecordSize]; omega)
        (by rw [hoffset]; simp; omega) (by simp; omega) (by rw [hpayload]; simp; omega)
      rw [List.zipIdx_cons, List.foldl_cons, hnames, Nat.add_assoc _ _ stringRoom,
        payloadTable_cons, List.length_append, hstep]
      simp only [List.length_append, CString.length_terminated] at ih
      rw [ih]
      simp [sectionTable, List.append_assoc, Nat.add_assoc]

/-- One pass of the symbol loop.  The two reserved bytes keep the zero of the fresh buffer. -/
theorem encodeSymbol_eq {layout : ImageLayout} {H S R P t done : Bytes}
    (symbolRoom stringRoom payloadCursor index : ℕ) {y : ZlImageSymbol}
    (hsymbols : layout.symbolOffset = [H, S].flatten.length)
    (hdone : done.length = index * imageSymbolRecordSize)
    (hoffset : layout.stringOffset
      = [H, S, done ++ List.replicate (20 + symbolRoom) 0, R].flatten.length)
    (hsize : t.length + ((orEmpty y.name).length + 1) ≤ layout.stringSize)
    (hcursor : t.length ≤ uint32Max) :
    encodeSymbol layout
        ⟨[H, S, done ++ List.replicate (20 + symbolRoom) 0, R,
          t ++ List.replicate ((orEmpty y.name).length + 1 + stringRoom) 0, P].flatten,
          t.length, payloadCursor⟩ (y, index)
      = ⟨[H, S, (done ++ symbolRecordBytes t.length y) ++ List.replicate symbolRoom 0, R,
          (t ++ (orEmpty y.name).terminated) ++ List.replicate stringRoom 0, P].flatten,
          t.length + ((orEmpty y.name).length + 1), payloadCursor⟩ := by
  have hputs := foldl_put32 (layout.symbolOffset + index * imageSymbolRecordSize)
    [UInt32.ofNat t.length, y.sectionIndex, y.value, y.size] 0
    [H, S, done ++ List.replicate (20 + symbolRoom) 0, R,
      (t ++ (orEmpty y.name).terminated) ++ List.replicate stringRoom 0, P].flatten
  have hbinding := overlay_append
    [H, S, done ++ List.replicate (20 + symbolRoom) 0, R,
      (t ++ (orEmpty y.name).terminated) ++ List.replicate stringRoom 0, P].flatten
    (layout.symbolOffset + index * imageSymbolRecordSize)
    (fields [UInt32.ofNat t.length, y.sectionIndex, y.value, y.size]) [y.binding]
  have htype := overlay_append
    [H, S, done ++ List.replicate (20 + symbolRoom) 0, R,
      (t ++ (orEmpty y.name).terminated) ++ List.replicate stringRoom 0, P].flatten
    (layout.symbolOffset + index * imageSymbolRecordSize)
    (fields [UInt32.ofNat t.length, y.sectionIndex, y.value, y.size] ++ [y.binding]) [y.type]
  have hrecord := overlay_flatten_fill [H, S] done
    (fields [UInt32.ofNat t.length, y.sectionIndex, y.value, y.size] ++ [y.binding] ++ [y.type])
    (List.replicate (20 + symbolRoom) 0) (0 : Byte) (2 + symbolRoom)
    [R, (t ++ (orEmpty y.name).terminated) ++ List.replicate stringRoom 0, P]
    (layout.symbolOffset + index * imageSymbolRecordSize) (by rw [hsymbols, hdone])
    (by simp; omega)
  have hzero : List.replicate (2 + symbolRoom) (0 : Byte) = [0, 0] ++ List.replicate symbolRoom 0 :=
    List.replicate_add 2 symbolRoom 0
  simp only [List.cons_append, List.nil_append] at hrecord
  simp only [List.zipIdx_cons, List.zipIdx_nil, List.foldl_cons, List.foldl_nil, Nat.reduceMul,
    Nat.reduceAdd, Nat.mul_zero, Nat.mul_one, Nat.add_zero] at hputs
  simp only [length_fields, List.length_append, List.length_cons, List.length_nil, Nat.reduceMul,
    Nat.reduceAdd] at hbinding htype
  rw [encodeSymbol]
  simp only [appendName_eq _ _ _ _ hoffset hsize hcursor, hputs]
  rw [← hbinding, ← htype, hrecord, hzero]
  simp [symbolRecordBytes]

/-- **The symbol loop** fills the symbol region and the symbols' share of the string table. -/
theorem foldl_encodeSymbol (layout : ImageLayout) {H S R P : Bytes} (symbolRoom payloadCursor : ℕ)
    (hsymbols : layout.symbolOffset = [H, S].flatten.length)
    (hmax : layout.stringSize ≤ uint32Max) :
    ∀ (symbols : List ZlImageSymbol) (index stringRoom : ℕ) (done t : Bytes),
      done.length = index * imageSymbolRecordSize →
      layout.stringOffset = [H, S, done ++ List.replicate (symbols.length * 20 + symbolRoom) 0,
        R].flatten.length →
      t.length + (stringTable (symbols.map (·.name))).length + stringRoom = layout.stringSize →
      (symbols.zipIdx index).foldl (encodeSymbol layout)
          ⟨[H, S, done ++ List.replicate (symbols.length * 20 + symbolRoom) 0, R,
            t ++ List.replicate ((stringTable (symbols.map (·.name))).length + stringRoom) 0,
            P].flatten, t.length, payloadCursor⟩
        = ⟨[H, S, (done ++ symbolTable t.length symbols) ++ List.replicate symbolRoom 0, R,
            (t ++ stringTable (symbols.map (·.name))) ++ List.replicate stringRoom 0, P].flatten,
            t.length + (stringTable (symbols.map (·.name))).length, payloadCursor⟩
  | [], index, stringRoom, done, t, _, _, _ => by simp [symbolTable]
  | y :: rest, index, stringRoom, done, t, hdone, hoffset, hsize => by
      have hnames : (stringTable ((y :: rest).map (·.name))).length
          = (orEmpty y.name).length + 1 + (stringTable (rest.map (·.name))).length := by simp
      have hcount : (y :: rest).length * 20 + symbolRoom = 20 + (rest.length * 20 + symbolRoom) := by
        rw [List.length_cons]
        omega
      rw [hcount] at hoffset ⊢
      rw [hnames] at hsize
      have hstep := encodeSymbol_eq (y := y) (R := R) (P := P) (t := t)
        (rest.length * 20 + symbolRoom)
        ((stringTable (rest.map (·.name))).length + stringRoom) payloadCursor index hsymbols hdone hoffset (by omega) (by omega)
      have ih := foldl_encodeSymbol layout (R := R) (P := P) symbolRoom payloadCursor hsymbols hmax rest (index + 1) stringRoom
        (done ++ symbolRecordBytes t.length y) (t ++ (orEmpty y.name).terminated)
        (by simp [hdone, imageSymbolRecordSize]; omega) (by rw [hoffset]; simp; omega)
        (by simp; omega)
      rw [List.zipIdx_cons, List.foldl_cons, hnames, Nat.add_assoc _ _ stringRoom, hstep]
      simp only [List.length_append, CString.length_terminated] at ih
      rw [ih]
      simp [symbolTable, List.append_assoc, Nat.add_assoc]

/-- **The relocation loop** fills the relocation region. -/
theorem foldl_encodeRelocation (layout : ImageLayout) {H S Y T P : Bytes}
    (hrelocations : layout.relocationOffset = [H, S, Y].flatten.length) :
    ∀ (relocations : List ZlImageRelocation) (index : ℕ) (done : Bytes),
      done.length = index * imageRelocationRecordSize →
      (relocations.zipIdx index).foldl (encodeRelocation layout)
          [H, S, Y, done ++ List.replicate (relocations.length * 20) 0, T, P].flatten
        = [H, S, Y, done ++ relocationTable relocations, T, P].flatten
  | [], _, _, _ => by simp [relocationTable]
  | r :: rest, index, done, hdone => by
      have hcount : (r :: rest).length * 20 = 20 + rest.length * 20 := by
        rw [List.length_cons]
        omega
      have hputs := foldl_put32 (layout.relocationOffset + index * imageRelocationRecordSize)
        [r.sectionIndex, r.offset, r.type, r.symbolIndex, r.addend.toUInt32] 0
        [H, S, Y, done ++ List.replicate (20 + rest.length * 20) 0, T, P].flatten
      have hrecord := overlay_flatten_fill [H, S, Y] done (relocationRecordBytes r)
        (List.replicate (20 + rest.length * 20) 0) (0 : Byte) (rest.length * 20) [T, P]
        (layout.relocationOffset + index * imageRelocationRecordSize)
        (by rw [hrelocations, hdone]) (by simp)
      have ih := foldl_encodeRelocation layout (T := T) (P := P) hrelocations rest (index + 1)
        (done ++ relocationRecordBytes r) (by simp [hdone, imageRelocationRecordSize]; omega)
      simp only [List.cons_append, List.nil_append] at hrecord
      simp only [List.zipIdx_cons, List.zipIdx_nil, List.foldl_cons, List.foldl_nil, Nat.reduceMul,
        Nat.reduceAdd, Nat.mul_zero, Nat.mul_one, Nat.add_zero] at hputs
      rw [List.zipIdx_cons, List.foldl_cons, hcount, encodeRelocation]
      simp only [hputs]
      rw [← relocationRecordBytes, hrecord, ih]
      simp [relocationTable]

/-- Overwriting the entry field of a header. -/
theorem put32_entryField (header : ImageHeader) (post : List Bytes) (w : Word) :
    put32 (header.toBytes :: post).flatten 24 w
      = ((header.withEntry w).toBytes :: post).flatten := by
  have hregion := overlay_flatten [imageMagic ++ [1, 0, header.kind, 0],
      fields [UInt32.ofNat imageHeaderSize, header.sectionCount, header.symbolCount,
        header.relocationCount]]
    (LittleEndian.bytes 4 header.entryField.toNat)
    (fields [header.sectionOffset, header.symbolOffset, header.relocationOffset,
      header.stringOffset, header.stringSize, header.payloadOffset] :: post)
    24 0 (LittleEndian.bytes 4 w.toNat) (by simp [imageMagic]) (by simp)
  rw [overlay_all _ _ (by simp)] at hregion
  rw [put32_eq]
  simpa [ImageHeader.toBytes, ImageHeader.withEntry, fields] using hregion

namespace ZlImage

variable (image : ZlImage)

/-- The string region, by the three loops that fill it. -/
theorem stringTable_strings : stringTable image.strings
    = stringTable (image.sections.map (·.name)) ++ (stringTable (image.symbols.map (·.name))
      ++ stringTable (image.encodedEntry.toList.map some)) := by
  simp [strings, names]

theorem stringSize_eq : image.layout.stringSize
    = 1 + (stringTable (image.sections.map (·.name))).length
      + (stringTable (image.symbols.map (·.name))).length
      + (stringTable (image.encodedEntry.toList.map some)).length := by
  simp only [layout, stringTable_strings, List.length_append]
  omega

/-- The entry field is written last, over the entry point. -/
theorem encodeEntry_eq {S Y R P t : Bytes} (payloadCursor : ℕ)
    (hoffset : image.layout.stringOffset = [image.header.toBytes, S, Y, R].flatten.length)
    (ht : t.length = image.entryOffset)
    (hsize : t.length + (stringTable (image.encodedEntry.toList.map some)).length
      = image.layout.stringSize) (hmax : image.layout.stringSize ≤ uint32Max) :
    encodeEntry image.layout image
        ⟨[(image.header.withEntry image.entryPoint).toBytes, S, Y, R,
          t ++ List.replicate (stringTable (image.encodedEntry.toList.map some)).length 0,
          P].flatten, t.length, payloadCursor⟩
      = .ok ⟨[image.header.toBytes, S, Y, R,
          t ++ stringTable (image.encodedEntry.toList.map some), P].flatten,
          image.layout.stringSize, payloadCursor⟩ := by
  cases hentry : image.encodedEntry with
  | none =>
      have hfield : image.header.entryField = image.entryPoint := by simp [header, hentry]
      rw [hentry] at hsize
      simp only [Option.toList_none, List.map_nil, stringTable_nil, List.length_nil,
        Nat.add_zero] at hsize
      simp [encodeEntry, hentry, ← hfield, hsize]
  | some entrySymbol =>
      have hfield : image.header.entryField = UInt32.ofNat t.length := by
        simp [header, hentry, ht]
      have htable : stringTable ((some entrySymbol).toList.map some)
          = (orEmpty (some entrySymbol)).terminated := by simp [stringTable]
      have hlen : (orEmpty (some entrySymbol)).terminated.length
          = (orEmpty (some entrySymbol)).length + 1 + 0 := CString.length_terminated _
      rw [hentry, htable, hlen] at hsize
      have happend := appendString_eq image.layout (H := (image.header.withEntry image.entryPoint).toBytes) (S := S) (Y := Y)
        (R := R) (P := P) (t := t) 0 (some entrySymbol) payloadCursor (by simpa using hoffset) (by omega) (by omega)
      rw [encodeEntry, hentry, htable, hlen]
      simp only [happend]
      rw [put32_entryField, ← hfield]
      simp [← hsize]

end ZlImage

/-- **The writes produce the canonical file.** -/
theorem encodeWrites_eq {image : ZlImage} (hstored : ∀ s ∈ image.sections, s.Stored)
    (hsize : image.encodedSize ≤ uint32Max) :
    encodeWrites image.layout image image.encodedSize = .ok (serialize image) := by
  have hmax : image.layout.stringSize ≤ uint32Max := by
    simp only [ZlImage.encodedSize, ZlImage.layout] at hsize ⊢
    omega
  have hstrings := image.stringSize_eq
  -- the fresh buffer, cut into the six regions
  have hfresh : List.replicate image.encodedSize (0 : Byte)
      = [List.replicate 52 0, [] ++ List.replicate (image.sections.length * 28 + 0) 0,
          [] ++ List.replicate (image.symbols.length * 20 + 0) 0,
          [] ++ List.replicate (image.relocations.length * 20) 0,
          [(0 : Byte)] ++ List.replicate ((stringTable (image.sections.map (·.name))).length
            + ((stringTable (image.symbols.map (·.name))).length
              + (stringTable (image.encodedEntry.toList.map some)).length)) 0,
          [] ++ List.replicate (payloadTable image.sections).length 0].flatten := by
    rw [show [(0 : Byte)] = List.replicate 1 0 from rfl]
    simp only [List.nil_append, List.flatten_cons, List.flatten_nil, List.append_nil,
      List.replicate_append_replicate]
    refine congrArg (List.replicate · 0) ?_
    simp only [ZlImage.encodedSize, ZlImage.layout, ZlImage.stringTable_strings,
      List.length_append, imageHeaderSize, imageSectionRecordSize, imageSymbolRecordSize,
      imageRelocationRecordSize]
    omega
  have hsections := foldl_encodeSection image.layout
    (H := (image.header.withEntry image.entryPoint).toBytes)
    (Y := [] ++ List.replicate (image.symbols.length * 20 + 0) 0)
    (R := [] ++ List.replicate (image.relocations.length * 20) 0) 0
    (length_toBytes _) hmax image.sections 0
    ((stringTable (image.symbols.map (·.name))).length
      + (stringTable (image.encodedEntry.toList.map some)).length) image.layout.payloadOffset
    [] [0] [] hstored rfl
    (by simp [ZlImage.layout, imageHeaderSize, imageSectionRecordSize, imageSymbolRecordSize,
          imageRelocationRecordSize]; omega)
    (by simp; omega) (by simp [ZlImage.layout])
  have hsymbols := foldl_encodeSymbol image.layout
    (H := (image.header.withEntry image.entryPoint).toBytes)
    (S := ([] ++ sectionTable [(0 : Byte)].length image.layout.payloadOffset image.sections)
      ++ List.replicate 0 0)
    (R := [] ++ List.replicate (image.relocations.length * 20) 0)
    (P := [] ++ payloadTable image.sections) 0
    (image.layout.payloadOffset + (payloadTable image.sections).length)
    (by simp [ZlImage.layout, imageHeaderSize, imageSectionRecordSize]) hmax image.symbols 0
    (stringTable (image.encodedEntry.toList.map some)).length []
    ([(0 : Byte)] ++ stringTable (image.sections.map (·.name))) rfl
    (by simp [ZlImage.layout, imageHeaderSize, imageSectionRecordSize, imageSymbolRecordSize,
          imageRelocationRecordSize]; omega)
    (by simp; omega)
  have hentry := image.encodeEntry_eq
    (S := ([] ++ sectionTable [(0 : Byte)].length image.layout.payloadOffset image.sections)
      ++ List.replicate 0 0)
    (Y := ([] ++ symbolTable ([(0 : Byte)] ++ stringTable (image.sections.map (·.name))).length
      image.symbols) ++ List.replicate 0 0)
    (R := [] ++ List.replicate (image.relocations.length * 20) 0)
    (P := [] ++ payloadTable image.sections)
    (t := ([(0 : Byte)] ++ stringTable (image.sections.map (·.name)))
      ++ stringTable (image.symbols.map (·.name)))
    (image.layout.payloadOffset + (payloadTable image.sections).length)
    (by simp [ZlImage.layout, imageHeaderSize, imageSectionRecordSize, imageSymbolRecordSize,
          imageRelocationRecordSize]; omega)
    (by simp [ZlImage.entryOffset, ZlImage.names]; omega) (by simp; omega) hmax
  have hrelocations := foldl_encodeRelocation image.layout
    (H := image.header.toBytes)
    (S := ([] ++ sectionTable [(0 : Byte)].length image.layout.payloadOffset image.sections)
      ++ List.replicate 0 0)
    (Y := ([] ++ symbolTable ([(0 : Byte)] ++ stringTable (image.sections.map (·.name))).length
      image.symbols) ++ List.replicate 0 0)
    (T := (([(0 : Byte)] ++ stringTable (image.sections.map (·.name)))
      ++ stringTable (image.symbols.map (·.name)))
      ++ stringTable (image.encodedEntry.toList.map some))
    (P := [] ++ payloadTable image.sections)
    (by simp [ZlImage.layout, imageHeaderSize, imageSectionRecordSize, imageSymbolRecordSize]; omega)
    image.relocations 0 [] rfl
  unfold encodeWrites
  rw [hfresh, encodeHeader_eq, show (1 : ℕ) = [(0 : Byte)].length from rfl]
  simp only [hsections]
  have hcursor : [(0 : Byte)].length + (stringTable (image.sections.map (·.name))).length
      = ([(0 : Byte)] ++ stringTable (image.sections.map (·.name))).length := by simp; omega
  simp only [hcursor]
  rw [hsymbols, ← List.length_append, hentry, ok_bind, hrelocations]
  refine congrArg Except.ok ?_
  have hsym : image.symbolCursor = (0 :: stringTable (image.sections.map (·.name))).length := by
    simp [ZlImage.symbolCursor]
    omega
  simp [serialize, ZlImage.regions, ZlImage.stringTable_strings, hsym, List.append_assoc]

/-! ## The checks -/

/-- What the encoder checks of a section. -/
structure ZlImageSection.Encodable (s : ZlImageSection) : Prop where
  data : s.type ≠ sectionBss → s.dataSize ≠ 0 → s.data.isNull = false
  alignment : validAlignment s.alignment = true
  type : sectionText ≤ s.type ∧ s.type ≤ sectionBss
  range : s.address.toNat + s.dataSize ≤ uint32Max

/-- What the encoder checks of an image, sizes apart. -/
structure ZlImage.Encodable (image : ZlImage) : Prop where
  kind : image.kind = imageObject ∨ image.kind = imageExecutable
  linked : image.kind = imageExecutable → image.relocations.length = 0
  sections : ∀ s ∈ image.sections, s.Encodable
  symbols : image.symbols.all (symbolValid image.sections.length) = true
  relocations :
    image.relocations.all (relocationValid image.sections image.symbols.length) = true
  object : image.kind = imageObject → image.entryPoint = 0
  entry : image.kind = imageExecutable → image.entryPoint ≠ 0
  found : image.kind = imageExecutable → entryFound image.sections image.entryPoint = true

/-- An encodable section stores its bytes: a null pointer has size zero. -/
theorem ZlImageSection.Encodable.stored {s : ZlImageSection} (h : s.Encodable) : s.Stored := by
  intro hbss
  have hdata := h.data hbss
  simp only [ZlImageSection.dataSize] at hdata ⊢
  cases hd : s.data with
  | bytes d => rfl
  | null n =>
      rw [hd] at hdata
      have hn : n = 0 := by
        by_contra hne
        exact absurd (hdata hne) (by simp [SectionData.isNull])
      simp [SectionData.toBytes, hn]

theorem ZlImageSection.Encodable.length_payload {s : ZlImageSection} (h : s.Encodable) :
    s.payload.length = if s.type = sectionBss then 0 else s.dataSize := by
  rw [ZlImageSection.payload]
  split
  · rfl
  · rename_i hbss
    exact h.stored hbss

@[simp] theorem orOverflow_some (size : ℕ) : orOverflow (some size) = .ok size := rfl

/-- A guarded sum is the sum, or an overflow. -/
theorem orOverflow_addSize {left right : ℕ} (hleft : left ≤ sizeMax) :
    orOverflow (addSize left right)
      = if left + right ≤ sizeMax then .ok (left + right) else .error .overflow := by
  split
  · rename_i hle
    rw [(addSize_eq_some hleft).mpr ⟨hle, rfl⟩, orOverflow]
  · rename_i hgt
    rw [(addSize_eq_none hleft).mpr (by omega), orOverflow]

/-- The name loop sums up the string table. -/
theorem foldlM_addName : ∀ (names : List (Option CString)) (size : ℕ), size ≤ sizeMax →
    names.foldlM addName size
      = if size + (stringTable names).length ≤ sizeMax
        then .ok (size + (stringTable names).length) else .error .overflow
  | [], size, hsize => by simp [hsize]
  | name :: rest, size, hsize => by
      have hlen : (stringTable (name :: rest)).length
          = (orEmpty name).length + 1 + (stringTable rest).length := by simp
      rw [List.foldlM_cons, addName, orOverflow_addSize hsize, hlen]
      split
      · rename_i hle
        rw [ok_bind, foldlM_addName rest _ hle, Nat.add_assoc size]
      · rw [error_bind, if_neg (by omega)]

theorem checkSection_iff {s : ZlImageSection} :
    (s.dataSize ≤ uint32Max ∧ ¬(s.type ≠ sectionBss ∧ s.dataSize ≠ 0 ∧ s.data.isNull) ∧
      validAlignment s.alignment ∧ (sectionText ≤ s.type ∧ s.type ≤ sectionBss) ∧
      s.dataSize ≤ uint32Max - s.address.toNat) ↔ s.Encodable := by
  have haddr : s.address.toNat ≤ uint32Max := by
    have := s.address.toNat_lt
    rw [uint32Max]
    omega
  constructor
  · rintro ⟨hmax, hnull, halign, htype, hrange⟩
    refine ⟨fun hbss hne => ?_, halign, htype, by omega⟩
    by_contra hn
    exact hnull ⟨hbss, hne, by simpa using hn⟩
  · intro hs
    have hrange := hs.range
    refine ⟨by omega, fun ⟨hbss, hne, hnull⟩ => ?_, hs.alignment, hs.type, by omega⟩
    simp [hs.data hbss hne] at hnull

/-- An encodable section adds its payload. -/
theorem checkSection_eq {s : ZlImageSection} {size : ℕ} (hs : s.Encodable)
    (hsize : size ≤ sizeMax) :
    checkSection size s
      = if size + s.payload.length ≤ sizeMax then .ok (size + s.payload.length)
        else .error .overflow := by
  rw [checkSection, require_of (checkSection_iff.mpr hs), ok_bind, hs.length_payload]
  by_cases hbss : s.type = sectionBss
  · rw [if_neg (by simp [hbss]), if_pos hbss, Nat.add_zero, if_pos hsize]
    rfl
  · rw [if_pos hbss, if_neg hbss, orOverflow_addSize hsize]

/-- The section loop passes only encodable sections. -/
theorem foldlM_checkSection_encodable {sections : List ZlImageSection} {size total : ℕ}
    (h : sections.foldlM checkSection size = .ok total) : ∀ s ∈ sections, s.Encodable := by
  refine foldlM_induction (fun done _ => ∀ s ∈ done, s.Encodable) h (by simp) ?_
  intro done s rest size size' _ hdone hstep s' hs'
  rw [checkSection, bind_eq_ok] at hstep
  obtain ⟨_, hchecks, -⟩ := hstep
  rcases List.mem_append.mp hs' with hs' | hs'
  · exact hdone s' hs'
  · rw [List.mem_singleton.mp hs']
    exact checkSection_iff.mp (require_eq_ok.mp hchecks)

/-- On encodable sections it sums up the payload. -/
theorem foldlM_checkSection : ∀ (sections : List ZlImageSection) (size : ℕ), size ≤ sizeMax →
    (∀ s ∈ sections, s.Encodable) →
      sections.foldlM checkSection size
        = if size + (payloadTable sections).length ≤ sizeMax
          then .ok (size + (payloadTable sections).length) else .error .overflow
  | [], size, hsize, _ => by simp [payloadTable, hsize]
  | s :: rest, size, hsize, hall => by
      have hlen : (payloadTable (s :: rest)).length
          = s.payload.length + (payloadTable rest).length := by simp
      rw [List.foldlM_cons, checkSection_eq (hall s (by simp)) hsize, hlen]
      split
      · rename_i hle
        rw [ok_bind, foldlM_checkSection rest _ hle fun s' hs' => hall s' (by simp [hs']),
          Nat.add_assoc size]
      · rw [error_bind, if_neg (by omega)]

theorem encodeStringSize_eq (image : ZlImage) :
    encodeStringSize image
      = if image.layout.stringSize ≤ sizeMax then .ok image.layout.stringSize
        else .error .overflow := by
  have hstring : image.layout.stringSize
      = 1 + (stringTable image.names).length
        + (stringTable (image.encodedEntry.toList.map some)).length := by
    simp only [ZlImage.layout, ZlImage.strings, stringTable_append, List.length_append]
    omega
  rw [encodeStringSize, foldlM_addName image.names 1 (by decide), hstring]
  split
  · rename_i hle
    cases hentry : image.encodedEntry with
    | none => simp [hle]
    | some entrySymbol =>
        have htable : (stringTable ((some entrySymbol).toList.map some)).length
            = (orEmpty (some entrySymbol)).length + 1 := by simp [stringTable]
        rw [ok_bind, htable]
        exact orOverflow_addSize hle
  · rw [error_bind, if_neg (by omega)]

/-- The layout is the plain one, or an overflow. -/
theorem encodeLayout_eq {image : ZlImage} (hsec : image.sections.length ≤ uint32Max)
    (hsym : image.symbols.length ≤ uint32Max) (hrel : image.relocations.length ≤ uint32Max) :
    encodeLayout image
      = if image.layout.payloadOffset ≤ sizeMax then .ok image.layout else .error .overflow := by
  have hmul : uint32Max * 68 + 52 ≤ sizeMax := by decide
  have hoffsets : imageHeaderSize + image.sections.length * imageSectionRecordSize
      + image.symbols.length * imageSymbolRecordSize
      + image.relocations.length * imageRelocationRecordSize ≤ sizeMax := by
    simp only [imageHeaderSize, imageSectionRecordSize, imageSymbolRecordSize,
      imageRelocationRecordSize]
    omega
  have hpayload : image.layout.payloadOffset = imageHeaderSize
      + image.sections.length * imageSectionRecordSize
      + image.symbols.length * imageSymbolRecordSize
      + image.relocations.length * imageRelocationRecordSize + image.layout.stringSize := rfl
  rw [encodeLayout, encodeStringSize_eq]
  split
  · rename_i hle
    rw [ok_bind, multiplySize_of_le hsec (by decide), multiplySize_of_le hsym (by decide),
      multiplySize_of_le hrel (by decide)]
    simp only [orOverflow_some, ok_bind]
    rw [orOverflow_addSize (by decide), if_pos (by omega), ok_bind, orOverflow_addSize (by omega),
      if_pos (by omega), ok_bind, orOverflow_addSize (by omega), if_pos (by omega), ok_bind,
      orOverflow_addSize (by omega), hpayload]
    split
    · rw [ok_bind]
      rfl
    · rfl
  · rw [error_bind, if_neg (by omega)]

/-- The checks pass exactly for encodable images, and report the size of the canonical file. -/
theorem encodeChecks_eq {image : ZlImage} (h : image.Encodable)
    (hpayload : image.layout.payloadOffset ≤ sizeMax) :
    encodeChecks image image.layout
      = if image.encodedSize ≤ uint32Max then .ok image.encodedSize else .error .overflow := by
  have hmax : uint32Max ≤ sizeMax := by decide
  have hsum : image.encodedSize
      = image.layout.payloadOffset + (payloadTable image.sections).length := rfl
  rw [encodeChecks, foldlM_checkSection _ _ (Nat.zero_le _) h.sections, Nat.zero_add]
  by_cases hfits : (payloadTable image.sections).length ≤ sizeMax
  · rw [if_pos hfits, ok_bind, require_of h.symbols, ok_bind, require_of h.relocations, ok_bind,
      orOverflow_addSize hpayload, ← hsum]
    by_cases hsize : image.encodedSize ≤ uint32Max
    · rw [if_pos (hsize.trans hmax), ok_bind, require_of hsize, ok_bind, require_of h.object,
        ok_bind, require_of h.entry, ok_bind, require_of h.found, if_pos hsize]
      rfl
    · rw [if_neg hsize]
      split
      · rw [ok_bind, require, if_neg hsize, error_bind]
      · rfl
  · rw [if_neg hfits, error_bind, if_neg (by omega)]

theorem encodeChecks_eq_ok {image : ZlImage} {total : ℕ}
    (h : encodeChecks image image.layout = .ok total) :
    (∀ s ∈ image.sections, s.Encodable) ∧
    image.symbols.all (symbolValid image.sections.length) = true ∧
    image.relocations.all (relocationValid image.sections image.symbols.length) = true ∧
    (image.kind = imageObject → image.entryPoint = 0) ∧
    (image.kind = imageExecutable → image.entryPoint ≠ 0) ∧
    (image.kind = imageExecutable → entryFound image.sections image.entryPoint = true) := by
  simp only [encodeChecks, bind_eq_ok, require_eq_ok] at h
  obtain ⟨_, hsections, _, hsymbols, _, hrelocations, _, -, _, -, _, hobject, _, hentry, _, hfound,
    -⟩ := h
  exact ⟨foldlM_checkSection_encodable hsections, hsymbols, hrelocations, hobject, hentry, hfound⟩

/-- A table of more than `2 ^ 32 - 1` records makes the canonical file too large by itself. -/
theorem ZlImage.counts_le {image : ZlImage} (h : image.encodedSize ≤ uint32Max) :
    image.sections.length ≤ uint32Max ∧ image.symbols.length ≤ uint32Max ∧
      image.relocations.length ≤ uint32Max := by
  simp only [ZlImage.encodedSize, ZlImage.layout, imageSectionRecordSize, imageSymbolRecordSize,
    imageRelocationRecordSize] at h
  omega

/-- **The encoder on an encodable image** writes the canonical file, unless that file exceeds the
32-bit offsets of the format. -/
theorem zlImageEncode_eq {image : ZlImage} (h : image.Encodable) :
    zlImageEncode true image
      = if image.encodedSize ≤ uint32Max then .ok (serialize image) else .error .overflow := by
  have hmax : uint32Max ≤ sizeMax := by decide
  have hsum : image.encodedSize
      = image.layout.payloadOffset + (payloadTable image.sections).length := rfl
  rw [zlImageEncode, require_of h.kind, ok_bind]
  by_cases hcounts : image.sections.length ≤ uint32Max ∧ image.symbols.length ≤ uint32Max ∧
      image.relocations.length ≤ uint32Max
  · rw [require_of hcounts, ok_bind, require_of h.linked, ok_bind,
      encodeLayout_eq hcounts.1 hcounts.2.1 hcounts.2.2]
    by_cases hpayload : image.layout.payloadOffset ≤ sizeMax
    · rw [if_pos hpayload, ok_bind, encodeChecks_eq h hpayload]
      split
      · rename_i hsize
        rw [ok_bind, require_of rfl, ok_bind,
          encodeWrites_eq (fun s hs => (h.sections s hs).stored) hsize]
      · rfl
    · rw [if_neg hpayload, error_bind, if_neg (by omega)]
  · rw [require, if_neg hcounts, error_bind, if_neg fun hsize => hcounts (ZlImage.counts_le hsize)]

/-- **What a successful encoding tells**: the image is encodable and the output is its canonical
file. -/
theorem zlImageEncode_eq_ok {alloc : Bool} {image : ZlImage} {output : Bytes} :
    zlImageEncode alloc image = .ok output ↔
      alloc = true ∧ image.Encodable ∧ image.encodedSize ≤ uint32Max ∧ output = serialize image := by
  constructor
  · intro h
    have hrun := h
    simp only [zlImageEncode, bind_eq_ok, require_eq_ok] at h
    obtain ⟨_, hkind, _, hcounts, _, hlinked, layout, hlayout, total, hchecks, _, halloc, -⟩ := h
    rw [encodeLayout_eq hcounts.1 hcounts.2.1 hcounts.2.2] at hlayout
    split at hlayout
    · obtain rfl := Except.ok.inj hlayout
      obtain ⟨hsections, hsymbols, hrelocations, hobject, hentry, hfound⟩ :=
        encodeChecks_eq_ok hchecks
      have hencodable : image.Encodable :=
        ⟨hkind, hlinked, hsections, hsymbols, hrelocations, hobject, hentry, hfound⟩
      rw [halloc, zlImageEncode_eq hencodable] at hrun
      split at hrun
      · rename_i hsize
        exact ⟨halloc, hencodable, hsize, (Except.ok.inj hrun).symm⟩
      · cases hrun
    · cases hlayout
  · rintro ⟨rfl, h, hsize, rfl⟩
    rw [zlImageEncode_eq h, if_pos hsize]

end Zlvm
