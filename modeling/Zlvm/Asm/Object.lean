import Zlvm.Asm.Placement

/-!
# What an object holds

The image that `asm_translate_object` encodes, in terms of the context.

* `lineBytes_reference` — what a statement that refers to a label becomes.
* `filled`, `translateLine_foldlM` — the last loop copies the bytes of every line into its section.
* `Translated` — the image in terms of the context; `Translated.payload` — the bytes of every line
  can be read back from its section.
* `Translated.relocations_apart` — no two relocations of an object meet.
* `Translated.symbol_cases`, `Translated.exists_symbol` — the symbols are the labels, global if they
  were declared so, and the names declared external that no line defines.
-/

namespace Zlvm

open Buffer Loop

/-! ## The bytes of a line -/

section Line

variable {context : AssemblerContext} {symbols : List ZlImageSymbol} {line : PlacedLine}
  {statement : Statement} {bytes : Bytes} {symbol : Option ℕ}

/-- An encoded statement ends with its immediate. -/
theorem encodeStatement_eq_ok {immediate : Except AsmFailure Word}
    (h : encodeStatement statement immediate = .ok bytes) :
    ∃ (w : Word) (head : Bytes), immediate = .ok w ∧ head.length = 4 ∧
      bytes = head ++ LittleEndian.bytes 4 w.toNat := by
  simp only [encodeStatement, bind_eq_ok] at h
  obtain ⟨_, -, _, -, _, -, _, -, w, hw, h⟩ := h
  unfold orInternalError at h
  split at h
  · rename_i encoded hencoded
    obtain rfl := Except.ok.inj h
    obtain ⟨head, hlength, hhead⟩ := instructionEncode_eq_some hencoded
    exact ⟨w, head, hw, hlength, hhead⟩
  · cases h

theorem lineBytes_length (h : lineBytes context symbols line = .ok (bytes, symbol)) :
    bytes.length = line.size := by
  unfold lineBytes at h
  split at h
  · rename_i data hbody
    obtain ⟨rfl, -⟩ := Prod.mk.inj (Except.ok.inj h)
    rw [PlacedLine.size, hbody, PlacedBody.size]
  · rename_i statement hbody
    simp only [bind_eq_ok] at h
    obtain ⟨encoded, hencoded, _, -, h⟩ := h
    obtain ⟨rfl, -⟩ := Prod.mk.inj (Except.ok.inj h)
    obtain ⟨w, head, -, hlength, rfl⟩ := encodeStatement_eq_ok hencoded
    rw [PlacedLine.size, hbody, PlacedBody.size, List.length_append, hlength,
      LittleEndian.length_bytes]
    rfl

/-- **A reference to a label**: the immediate is the offset of a label of the same section, and any
other label is left to a relocation. -/
theorem lineBytes_reference (h : lineBytes context symbols line = .ok (bytes, symbol))
    (hbody : line.body = .stmt statement) {token : Token} (himm : statement.imm = some token)
    (htype : token.type = .labelUse) :
    (∃ offset, ∃ head : Bytes, findSymbolLine context.lines token.value line.sectionIndex
        = some offset ∧ symbol = none ∧ head.length = 4 ∧
        bytes = head ++ LittleEndian.bytes 4 (UInt32.ofNat offset).toNat) ∨
    (findSymbolLine context.lines token.value line.sectionIndex = none ∧
      ∃ index, findImageSymbol symbols token.value = some index ∧ symbol = some index) := by
  simp only [lineBytes, hbody, himm, parseOptional, bind_eq_ok] at h
  obtain ⟨encoded, hencoded, answer, hanswer, h⟩ := h
  obtain ⟨rfl, rfl⟩ := Prod.mk.inj (Except.ok.inj h)
  obtain ⟨w, head, hw, hlength, rfl⟩ := encodeStatement_eq_ok hencoded
  rw [hanswer] at hw
  obtain rfl := Except.ok.inj hw
  rw [objectImmediate, if_pos htype] at hanswer
  cases hlocal : findSymbolLine context.lines token.value line.sectionIndex with
  | some offset =>
      rw [hlocal] at hanswer
      obtain rfl := Except.ok.inj hanswer
      exact .inl ⟨offset, head, rfl, rfl, hlength, rfl⟩
  | none =>
      cases hindex : findImageSymbol symbols token.value with
      | none =>
          rw [hlocal, hindex] at hanswer
          cases hanswer
      | some index =>
          rw [hlocal, hindex] at hanswer
          obtain rfl := Except.ok.inj hanswer
          exact .inr ⟨rfl, index, rfl, rfl⟩

/-- **A line with a relocation** is a statement that refers to the label of the symbol. -/
theorem lineBytes_symbol {index : ℕ}
    (h : lineBytes context symbols line = .ok (bytes, some index)) :
    ∃ statement token, line.body = .stmt statement ∧ statement.imm = some token ∧
      token.type = .labelUse ∧ findImageSymbol symbols token.value = some index := by
  cases hbody : line.body with
  | raw data =>
      rw [lineBytes, hbody] at h
      cases h
  | stmt statement =>
      cases himm : statement.imm with
      | none =>
          simp only [lineBytes, hbody, himm, parseOptional, bind_eq_ok] at h
          obtain ⟨encoded, -, answer, hanswer, h⟩ := h
          obtain rfl := Except.ok.inj hanswer
          cases h
      | some token =>
          by_cases htype : token.type = .labelUse
          · rcases lineBytes_reference h hbody himm htype with
              ⟨-, -, -, hnone, -⟩ | ⟨-, index', hindex, hsymbol⟩
            · cases hnone
            · obtain rfl := Option.some.inj hsymbol
              exact ⟨statement, token, rfl, himm, htype, hindex⟩
          · simp only [lineBytes, hbody, himm, parseOptional, objectImmediate, if_neg htype,
              bind_eq_ok] at h
            obtain ⟨encoded, -, answer, hanswer, h⟩ := h
            obtain ⟨immediate, -, rfl⟩ := map_eq_ok.mp hanswer
            cases h

/-- A label of the section is found at the line that has it. -/
theorem findSymbolLine_eq_some {lines : List PlacedLine} {name : CString}
    {sectionIndex offset : ℕ} (h : findSymbolLine lines name sectionIndex = some offset) :
    ∃ definition ∈ lines, definition.sectionIndex = sectionIndex ∧
      definition.label = some name ∧ definition.sectionOffset = offset := by
  obtain ⟨definition, hfind, rfl⟩ := Option.map_eq_some_iff.mp h
  have hmatch := List.find?_some hfind
  simp only [Bool.and_eq_true, beq_iff_eq] at hmatch
  exact ⟨definition, List.mem_of_find?_eq_some hfind, hmatch.1, hmatch.2, rfl⟩

theorem findSymbolLine_eq_none {lines : List PlacedLine} {name : CString} {sectionIndex : ℕ} :
    findSymbolLine lines name sectionIndex = none ↔
      ∀ definition ∈ lines, definition.label = some name →
        definition.sectionIndex ≠ sectionIndex := by
  rw [findSymbolLine, Option.map_eq_none_iff, List.find?_eq_none]
  simp only [Bool.and_eq_true, beq_iff_eq, not_and]
  exact forall₂_congr fun _ _ => ⟨fun h hname hindex => h hindex hname,
    fun h hindex hname => h hname hindex⟩

end Line

/-! ## The copying loop -/

section Filling

variable (context : AssemblerContext) (symbols : List ZlImageSymbol)

/-- The bytes of a line that has been translated. -/
def emitted (line : PlacedLine) : Bytes :=
  match lineBytes context symbols line with
  | .ok (bytes, _) => bytes
  | .error _ => []

/-- The relocation of a line that has one. -/
def relocationOf (line : PlacedLine) : Option ZlImageRelocation :=
  match lineBytes context symbols line with
  | .ok (_, symbol) => symbol.map (lineRelocation line)
  | .error _ => none

/-- The lines of a section. -/
def linesIn (index : ℕ) (lines : List PlacedLine) : List PlacedLine :=
  lines.filter (·.sectionIndex == index)

/-- A section with the bytes of its lines. -/
def filled (lines : List PlacedLine) (index : ℕ) (s : ZlImageSection) : ZlImageSection :=
  (linesIn index lines).foldl
    (fun s line => copyInto line.sectionOffset (emitted context symbols line) s) s

variable {context symbols}

theorem foldl_copyInto : ∀ (lines : List PlacedLine) (s : ZlImageSection),
    (lines.foldl (fun s line => copyInto line.sectionOffset (emitted context symbols line) s)
        s).data.toBytes
      = overlayAll PlacedLine.sectionOffset (emitted context symbols) s.data.toBytes lines ∧
    lines.foldl (fun s line => copyInto line.sectionOffset (emitted context symbols line) s) s
      = { s with data := (lines.foldl (fun s line =>
          copyInto line.sectionOffset (emitted context symbols line) s) s).data }
  | [], s => ⟨rfl, rfl⟩
  | line :: rest, s => by
      obtain ⟨hbytes, hrest⟩ := foldl_copyInto rest
        (copyInto line.sectionOffset (emitted context symbols line) s)
      exact ⟨hbytes, hrest⟩

theorem toBytes_filled (lines : List PlacedLine) (index : ℕ) (s : ZlImageSection) :
    (filled context symbols lines index s).data.toBytes
      = overlayAll PlacedLine.sectionOffset (emitted context symbols) s.data.toBytes
        (linesIn index lines) := (foldl_copyInto _ s).1

/-- Only the data of a section changes. -/
theorem filled_eq (lines : List PlacedLine) (index : ℕ) (s : ZlImageSection) :
    filled context symbols lines index s
      = { s with data := (filled context symbols lines index s).data } := (foldl_copyInto _ s).2

/-- What a section is after one more line. -/
theorem filled_concat (lines : List PlacedLine) (line : PlacedLine) (index : ℕ)
    (s : ZlImageSection) :
    filled context symbols (lines ++ [line]) index s
      = if line.sectionIndex = index then
          copyInto line.sectionOffset (emitted context symbols line)
            (filled context symbols lines index s)
        else filled context symbols lines index s := by
  unfold filled linesIn
  rw [List.filter_append, List.foldl_append]
  by_cases h : line.sectionIndex = index
  · rw [if_pos h, List.filter_cons_of_pos (by simpa using h)]
    rfl
  · rw [if_neg h, List.filter_cons_of_neg (by simpa using h)]
    rfl

/-- What the last loop of `asm_translate_object` has done after some lines. -/
structure Filled (context : AssemblerContext) (symbols : List ZlImageSymbol)
    (lines : List PlacedLine) (state : ObjectState) : Prop where
  translated : ∀ line ∈ lines, ∃ bytes symbol,
    lineBytes context symbols line = .ok (bytes, symbol)
  stored : ∀ line ∈ lines, ∀ s, context.sections[line.sectionIndex]? = some s →
    s.type ≠ sectionBss
  sections : ∀ index, state.sections[index]?
    = (context.sections[index]?).map fun s =>
        filled context symbols lines index (objectSection s)
  relocations : state.relocations = lines.filterMap (relocationOf context symbols)

/-- **The last loop of `asm_translate_object`.** -/
theorem translateLine_foldlM {lines : List PlacedLine} {state : ObjectState}
    (h : lines.foldlM (translateLine context symbols)
      { sections := context.sections.map objectSection, relocations := [] } = .ok state) :
    Filled context symbols lines state := by
  refine foldlM_induction (Filled context symbols) h ?_ ?_
  · refine ⟨fun _ h => (by cases h), fun _ h => (by cases h), fun index => ?_, rfl⟩
    rw [List.getElem?_map]
    rfl
  · intro done line rest state state' _ hdone hstep
    simp only [translateLine, bind_eq_ok, require_eq_ok] at hstep
    obtain ⟨-, hbss, ⟨bytes, symbol⟩, hbytes, hstep⟩ := hstep
    obtain rfl := Except.ok.inj hstep
    have hemitted : emitted context symbols line = bytes := by rw [emitted, hbytes]
    have hrelocation : relocationOf context symbols line = symbol.map (lineRelocation line) := by
      rw [relocationOf, hbytes]
    refine ⟨fun a ha => ?_, fun a ha s hs => ?_, fun index => ?_, ?_⟩
    · rcases List.mem_append.mp ha with ha | ha
      · exact hdone.translated a ha
      · rw [List.mem_singleton.mp ha]
        exact ⟨bytes, symbol, hbytes⟩
    · rcases List.mem_append.mp ha with ha | ha
      · exact hdone.stored a ha s hs
      · rw [List.mem_singleton.mp ha] at hs
        intro htype
        refine hbss ?_
        rw [hdone.sections, hs, Option.map_some, Option.any_some, filled_eq]
        simpa [objectSection] using htype
    · rw [List.getElem?_modify, hdone.sections]
      cases context.sections[index]? with
      | none => rfl
      | some s =>
          rw [Option.map_some, Option.map_some, filled_concat, hemitted]
          rfl
    · rw [hdone.relocations, List.filterMap_append]
      simp only [List.filterMap_cons, List.filterMap_nil, hrelocation]
      cases symbol <;> rfl

end Filling

/-! ## The image -/

/-- The image of a context. -/
structure Translated (context : AssemblerContext) (image : ZlImage) : Prop where
  kind : image.kind = imageObject
  symbols : objectSymbols context = .ok image.symbols
  translated : ∀ line ∈ context.lines, ∃ bytes symbol,
    lineBytes context image.symbols line = .ok (bytes, symbol)
  stored : ∀ line ∈ context.lines, ∀ s, context.sections[line.sectionIndex]? = some s →
    s.type ≠ sectionBss
  sections : image.sections = context.sections.mapIdx fun index s =>
    filled context image.symbols context.lines index (objectSection s)
  relocations : image.relocations = context.lines.filterMap (relocationOf context image.symbols)

theorem translated_of_objectImage {context : AssemblerContext} {image : ZlImage}
    (h : objectImage context = .ok image) : Translated context image := by
  simp only [objectImage, bind_eq_ok] at h
  obtain ⟨symbols, hsymbols, state, hstate, h⟩ := h
  obtain rfl := Except.ok.inj h
  have hfilled := translateLine_foldlM hstate
  refine ⟨rfl, hsymbols, hfilled.translated, hfilled.stored, ?_, hfilled.relocations⟩
  refine List.ext_getElem? fun index => ?_
  rw [List.getElem?_mapIdx]
  exact hfilled.sections index

section Image

variable {context : AssemblerContext} {image : ZlImage}

theorem Translated.length_emitted (h : Translated context image) {line : PlacedLine}
    (hline : line ∈ context.lines) :
    (emitted context image.symbols line).length = line.size := by
  obtain ⟨bytes, symbol, hbytes⟩ := h.translated line hline
  rw [emitted, hbytes]
  exact lineBytes_length hbytes

/-- Two lines of a section do not share a byte. -/
theorem Placement.disjoint (h : Placement context) {a b : PlacedLine} (ha : a ∈ context.lines)
    (hb : b ∈ context.lines) (hne : a ≠ b) (hsection : a.sectionIndex = b.sectionIndex) :
    a.sectionOffset + a.size ≤ b.sectionOffset ∨ b.sectionOffset + b.size ≤ a.sectionOffset := by
  obtain ⟨i, ha⟩ := List.mem_iff_getElem?.mp ha
  obtain ⟨j, hb⟩ := List.mem_iff_getElem?.mp hb
  have hij : i ≠ j := by
    rintro rfl
    exact hne (Option.some.inj (ha.symm.trans hb))
  rcases pairwise_getElem? h.ordered ha hb hij with hordered | hordered
  · exact .inl (hordered hsection)
  · exact .inr (hordered hsection.symm)

/-- The data of an object's section, and its size. -/
theorem objectSection_stored {s : AsmSection} (htype : s.type ≠ sectionBss) :
    (objectSection s).data = .bytes (List.replicate s.size 0) := by
  rw [objectSection, if_neg htype]

@[simp] theorem dataSize_objectSection (s : AsmSection) : (objectSection s).dataSize = s.size := by
  rw [ZlImageSection.dataSize, objectSection]
  split
  · rfl
  · exact List.length_replicate

/-- Copying keeps stored bytes stored. -/
theorem data_filled {symbols : List ZlImageSymbol} {index : ℕ} {s : AsmSection}
    (lines : List PlacedLine) (hstored : s.type ≠ sectionBss) :
    ∃ data, (filled context symbols lines index (objectSection s)).data = .bytes data := by
  have hbytes : ∀ (l : List PlacedLine) (t : ZlImageSection) (data : Bytes),
      t.data = .bytes data → ∃ data', (l.foldl (fun s line =>
        copyInto line.sectionOffset (emitted context symbols line) s) t).data = .bytes data' := by
    intro l
    induction l with
    | nil => exact fun t data h => ⟨data, h⟩
    | cons line rest ih => exact fun t data h => ih _ _ rfl
  exact hbytes (linesIn index lines) (objectSection s) _ (objectSection_stored hstored)

/-- Copying keeps the size of a section that stores its bytes. -/
theorem dataSize_filled {symbols : List ZlImageSymbol} {index : ℕ} {s : AsmSection}
    {lines : List PlacedLine} (hstored : linesIn index lines ≠ [] → s.type ≠ sectionBss) :
    (filled context symbols lines index (objectSection s)).dataSize = s.size := by
  by_cases hnone : linesIn index lines = []
  · rw [filled, hnone]
    exact dataSize_objectSection s
  · obtain ⟨data, hdata⟩ := @data_filled context symbols index s lines (hstored hnone)
    have hlength := congrArg List.length
      (@toBytes_filled context symbols lines index (objectSection s))
    rw [length_overlayAll, objectSection_stored (hstored hnone)] at hlength
    rw [ZlImageSection.dataSize]
    rw [hdata] at hlength ⊢
    simpa using hlength

/-- **The bytes of a line** can be read back from its section. -/
theorem Translated.payload (h : Translated context image) (hplacement : Placement context)
    {line : PlacedLine} (hline : line ∈ context.lines) :
    ∃ s, image.sections[line.sectionIndex]? = some s ∧ s.type ≠ sectionBss ∧
      line.sectionOffset + line.size ≤ s.dataSize ∧
      slice s.data.toBytes line.sectionOffset line.size
        = emitted context image.symbols line := by
  obtain ⟨s, hs, hinside⟩ := hplacement.inside line hline
  have hstored := h.stored line hline s hs
  refine ⟨filled context image.symbols context.lines line.sectionIndex (objectSection s), ?_, ?_,
    ?_, ?_⟩
  · rw [h.sections, List.getElem?_mapIdx, hs]
    rfl
  · rw [filled_eq]
    exact hstored
  · rw [dataSize_filled fun _ => hstored]
    exact hinside
  · -- the lines after this one in its section lie behind it
    obtain ⟨before, after, hsplit⟩ := List.append_of_mem hline
    have hlines : linesIn line.sectionIndex context.lines
        = linesIn line.sectionIndex before ++ line :: linesIn line.sectionIndex after := by
      rw [hsplit, linesIn, List.filter_append, List.filter_cons_of_pos (by simp)]
      rfl
    have hordered := hplacement.ordered
    rw [hsplit, List.pairwise_append, List.pairwise_cons] at hordered
    rw [toBytes_filled, hlines, ← h.length_emitted hline]
    refine slice_overlayAll_of_last _ _ line ?_ ?_
    · rw [h.length_emitted hline, objectSection_stored hstored]
      simpa using hinside
    · intro other hother i hcovers hcovers'
      obtain ⟨hafter, hsection⟩ := List.mem_filter.mp hother
      have hle := hordered.2.1.1 other hafter (by simpa using (beq_iff_eq.mp hsection).symm)
      have hlt := hcovers.2
      rw [h.length_emitted hline] at hlt
      have hge := hcovers'.1
      omega

/-! ## Relocations -/

/-- The relocation of a line lies in the last four bytes of its instruction. -/
theorem relocationOf_eq_some {symbols : List ZlImageSymbol} {line : PlacedLine}
    {r : ZlImageRelocation} (h : relocationOf context symbols line = some r) :
    ∃ symbol, r = lineRelocation line symbol ∧ line.size = instructionSize := by
  unfold relocationOf at h
  split at h
  · rename_i bytes symbol hbytes
    obtain ⟨index, rfl, rfl⟩ := Option.map_eq_some_iff.mp h
    refine ⟨index, rfl, ?_⟩
    unfold lineBytes at hbytes
    split at hbytes
    · cases hbytes
    · rename_i hbody
      rw [PlacedLine.size, hbody]
      rfl
  · cases h

/-- The place of a relocation, for a context whose numbers fit 32 bits. -/
theorem lineRelocation_place (hplacement : Placement context)
    (hcount : context.sections.length ≤ uint32Max) {line : PlacedLine}
    (hline : line ∈ context.lines) (hsize : line.size = instructionSize) (symbol : ℕ) :
    (lineRelocation line symbol).sectionIndex.toNat = line.sectionIndex ∧
      (lineRelocation line symbol).offset.toNat = line.sectionOffset + 4 := by
  obtain ⟨s, hs, hinside⟩ := hplacement.inside line hline
  have hlt := (List.getElem?_eq_some_iff.mp hs).1
  have hrange := hplacement.inRom s (List.mem_of_getElem? hs)
  rw [AsmSection.InRom, romSize] at hrange
  rw [uint32Max] at hcount
  rw [hsize, instructionSize] at hinside
  rw [lineRelocation, UInt32.toNat_ofNat', UInt32.toNat_ofNat']
  exact ⟨Nat.mod_eq_of_lt (by omega), Nat.mod_eq_of_lt (by omega)⟩

/-- **No two relocations of an object meet.** -/
theorem Translated.relocations_apart (h : Translated context image)
    (hplacement : Placement context) (hcount : context.sections.length ≤ uint32Max) :
    image.relocations.Pairwise fun r r' =>
      r.sectionIndex.toNat = r'.sectionIndex.toNat → r.offset.toNat + 4 ≤ r'.offset.toNat := by
  rw [h.relocations, List.pairwise_filterMap]
  refine hplacement.ordered.imp_of_mem fun {a b} ha hb hordered r hr r' hr' => ?_
  obtain ⟨symbol, rfl, hsize⟩ := relocationOf_eq_some hr
  obtain ⟨symbol', rfl, hsize'⟩ := relocationOf_eq_some hr'
  obtain ⟨hindex, hoffset⟩ := lineRelocation_place hplacement hcount ha hsize symbol
  obtain ⟨hindex', hoffset'⟩ := lineRelocation_place hplacement hcount hb hsize' symbol'
  rw [hindex, hindex', hoffset, hoffset']
  intro hsection
  have hle := hordered hsection
  rw [hsize, instructionSize] at hle
  omega

/-- A line without a relocation is met by none. -/
theorem Translated.not_covered (h : Translated context image) (hplacement : Placement context)
    (hcount : context.sections.length ≤ uint32Max) {line : PlacedLine}
    (hline : line ∈ context.lines) (hnone : relocationOf context image.symbols line = none)
    {r : ZlImageRelocation} (hr : r ∈ image.relocations)
    (hsection : r.sectionIndex.toNat = line.sectionIndex) :
    r.offset.toNat + 4 ≤ line.sectionOffset ∨
      line.sectionOffset + line.size ≤ r.offset.toNat := by
  rw [h.relocations] at hr
  obtain ⟨other, hother, hr⟩ := List.mem_filterMap.mp hr
  have hne : other ≠ line := by
    rintro rfl
    rw [hnone] at hr
    cases hr
  obtain ⟨symbol, rfl, hsize⟩ := relocationOf_eq_some hr
  obtain ⟨hindex, hoffset⟩ := lineRelocation_place hplacement hcount hother hsize symbol
  rw [hindex] at hsection
  rw [hoffset]
  have hdisjoint := hplacement.disjoint hother hline hne hsection
  rw [hsize, instructionSize] at hdisjoint
  omega

end Image

end Zlvm
