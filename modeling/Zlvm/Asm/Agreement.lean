import Zlvm.Asm.Encoding
import Zlvm.Asm.Padding
import Zlvm.Asm.Raw
import Zlvm.Lib.Lockstep

/-!
# The two back ends

`asm_translate` and `asm_translate_object` on the context of a source that has one text section.

* `TextContext` — such a context; `TextContext.rawOffset_le` — no line lies before its offset in the
  raw image.
* `immediate_lockstep`, `statement_lockstep`, `line_lockstep` — both back ends reject the same
  immediates, statements and lines.
* **`translate_lockstep`** — both accept the same contexts, and the object has no relocations.
* `Translated.text_eq` — the section holds the raw image if every line lies at its offset there.
-/

namespace Zlvm

open Loop Buffer

/-- The context of a source that has one text section and declares no symbol. -/
structure TextContext (context : AssemblerContext) (name : CString) : Prop where
  assembled : Assembled context
  names : SectionNames context
  text : name = CString.lit "text" ∨ name = CString.lit ".text"
  inText : ∀ line ∈ context.lines, ∃ s, context.sections[line.sectionIndex]? = some s ∧
    s.name = name
  alignment : ∀ s ∈ context.sections, ∃ k, s.alignment.toNat = 2 ^ k
  globals : context.globals = []
  externals : context.externals = []
  entry : context.entry = none

/-- Every line lies in its section where it lies in the raw image. -/
def RawOffsets (context : AssemblerContext) : Prop :=
  ∀ k r, context.lines[k]? = some r → r.sectionOffset = rawOffset context.lines k

section Context

variable {context : AssemblerContext} {name : CString} {line : PlacedLine}

/-! ## Places -/

theorem TextContext.sectionIndex_eq (h : TextContext context name) {a b : PlacedLine}
    (ha : a ∈ context.lines) (hb : b ∈ context.lines) : a.sectionIndex = b.sectionIndex := by
  obtain ⟨s, hs, hname⟩ := h.inText a ha
  obtain ⟨t, ht, hname'⟩ := h.inText b hb
  by_contra hne
  rcases pairwise_getElem? h.names.distinct hs ht hne with hdistinct | hdistinct
  · exact hdistinct (hname.trans hname'.symm)
  · exact hdistinct (hname'.trans hname.symm)

/-- The text section stores its bytes. -/
theorem TextContext.type_ne (h : TextContext context name) {s : AsmSection}
    (hs : s ∈ context.sections) (hname : s.name = name) : s.type ≠ sectionBss := by
  rw [h.names.type s hs, hname]
  rcases h.text with rfl | rfl
  · decide
  · decide

theorem TextContext.stored (h : TextContext context name) (hline : line ∈ context.lines)
    {s : AsmSection} (hs : context.sections[line.sectionIndex]? = some s) :
    s.type ≠ sectionBss := by
  obtain ⟨t, ht, hname⟩ := h.inText line hline
  obtain rfl := Option.some.inj (hs.symm.trans ht)
  exact h.type_ne (List.mem_of_getElem? hs) hname

/-- **Padding only moves lines up.** -/
theorem TextContext.rawOffset_le (h : TextContext context name) : ∀ (k : ℕ) (r : PlacedLine),
    context.lines[k]? = some r → rawOffset context.lines k ≤ r.sectionOffset
  | 0, r, _ => Nat.zero_le _
  | k + 1, r, hr => by
      have hlt := (List.getElem?_eq_some_iff.mp hr).1
      have hk : context.lines[k]? = some context.lines[k] :=
        List.getElem?_eq_getElem (Nat.lt_of_succ_lt hlt)
      have hsection := h.sectionIndex_eq (List.mem_of_getElem? hk) (List.mem_of_getElem? hr)
      have hordered : context.lines[k].sectionOffset + context.lines[k].size ≤ r.sectionOffset := by
        have hpair := List.pairwise_iff_getElem.mp h.assembled.placement.ordered k (k + 1)
          (Nat.lt_of_succ_lt hlt) hlt (Nat.lt_succ_self k)
        rw [← (List.getElem?_eq_some_iff.mp hr).2]
        exact hpair (by rw [(List.getElem?_eq_some_iff.mp hr).2]; exact hsection)
      rw [rawOffset_succ hk]
      have hle := h.rawOffset_le k _ hk
      omega

/-- The raw image is no larger than the ROM. -/
theorem TextContext.rawOffset_le_romSize (h : TextContext context name) {k : ℕ}
    (hline : context.lines[k]? = some line) :
    rawOffset context.lines k + line.size ≤ romSize := by
  obtain ⟨s, hs, hinside⟩ := h.assembled.placement.inside line (List.mem_of_getElem? hline)
  have hrange := h.assembled.placement.inRom s (List.mem_of_getElem? hs)
  have hle := h.rawOffset_le k line hline
  rw [AsmSection.InRom] at hrange
  omega

/-! ## Immediates -/

/-- A label of the context is found by both back ends. -/
theorem immediate_lockstep (h : TextContext context name) {labels : List LabelInfo}
    (hlabels : asmProcessLabels context = .ok labels) (hline : line ∈ context.lines)
    (token : Token) :
    Lockstep (fun (w : Word) (answer : Word × Option ℕ) =>
        answer.2 = none ∧ (RawOffsets context → answer.1 = w))
      (rawImmediate labels token)
      (objectImmediate context (labelSymbols context.sections context.lines) line.sectionIndex
        token) := by
  rw [rawImmediate, objectImmediate]
  split
  · rename_i htype
    cases hfind : findSymbolLine context.lines token.value line.sectionIndex with
    | some offset =>
        -- the label table has the same line
        obtain ⟨definition, hmem, -, hname, rfl⟩ := findSymbolLine_eq_some hfind
        obtain ⟨k, hk⟩ := List.mem_iff_getElem?.mp hmem
        cases hlabel : labels.find? (·.name == token.value) with
        | none =>
            have hentry := (mem_labels hlabels ⟨token.value, rawOffset context.lines k⟩).mpr
              ⟨k, ⟨definition, hk, hname⟩, rfl⟩
            have hnone := List.find?_eq_none.mp hlabel _ hentry
            simp at hnone
        | some label =>
            have hlabelName : label.name = token.value := by
              simpa using List.find?_some hlabel
            obtain ⟨k', hk', haddress⟩ :=
              (mem_labels hlabels label).mp (List.mem_of_find?_eq_some hlabel)
            rw [hlabelName] at hk'
            obtain rfl := h.assembled.labels.index_eq ⟨definition, hk, hname⟩ hk'
            have hle := h.rawOffset_le_romSize hk
            refine Lockstep.require_bind_left ?_ (.ok ⟨rfl, fun hraw => ?_⟩)
            · rw [haddress, wordMax]
              rw [romSize] at hle
              omega
            · rw [haddress, hraw k definition hk]
    | none =>
        have hnowhere : ∀ definition ∈ context.lines, definition.label ≠ some token.value :=
          fun definition hmem hname =>
            findSymbolLine_eq_none.mp hfind definition hmem hname (h.sectionIndex_eq hmem hline)
        have hsymbol : findImageSymbol (labelSymbols context.sections context.lines) token.value
            = none := by
          refine findImageSymbol_eq_none.mpr fun y hy hname => ?_
          obtain ⟨definition, hmem, label, hlabel, rfl⟩ := mem_labelSymbols.mp hy
          exact hnowhere definition hmem (hlabel.trans hname)
        have hlabel : labels.find? (·.name == token.value) = none := by
          refine List.find?_eq_none.mpr fun label hlabel heq => ?_
          obtain ⟨k, ⟨definition, hk, hname⟩, -⟩ := (mem_labels hlabels label).mp hlabel
          exact hnowhere definition (List.mem_of_getElem? hk)
            (hname.trans (congrArg some (beq_iff_eq.mp heq)))
        simp only [hsymbol, hlabel]
        exact .error _ _
  · generalize literalImmediate token = literal
    cases literal with
    | ok w => exact .ok ⟨rfl, fun _ => rfl⟩
    | error e => exact .error e e

theorem optional_immediate_lockstep (h : TextContext context name) {labels : List LabelInfo}
    (hlabels : asmProcessLabels context = .ok labels) (hline : line ∈ context.lines)
    (token : Option Token) :
    Lockstep (fun (w : Word) (answer : Word × Option ℕ) =>
        answer.2 = none ∧ (RawOffsets context → answer.1 = w))
      (parseOptional (rawImmediate labels) 0 token)
      (parseOptional (objectImmediate context (labelSymbols context.sections context.lines)
        line.sectionIndex) (0, none) token) := by
  cases token with
  | none => exact .ok ⟨rfl, fun _ => rfl⟩
  | some token => exact immediate_lockstep h hlabels hline token

/-! ## Statements and lines -/

/-- The order of the checks does not matter for what is accepted. -/
theorem encodeRawStatement_iff {labels : List LabelInfo} {statement : Statement} {bytes : Bytes} :
    encodeRawStatement labels statement = .ok bytes ↔
      encodeStatement statement (parseOptional (rawImmediate labels) 0 statement.imm)
        = .ok bytes := by
  simp only [encodeRawStatement, encodeStatement, bind_eq_ok]
  constructor
  · rintro ⟨op, hop, condition, hcondition, register1, hregister1, register2, hregister2, h⟩
    exact ⟨condition, hcondition, register1, hregister1, register2, hregister2, op, hop, h⟩
  · rintro ⟨condition, hcondition, register1, hregister1, register2, hregister2, op, hop, h⟩
    exact ⟨op, hop, condition, hcondition, register1, hregister1, register2, hregister2, h⟩

/-- The value of an immediate does not matter for what is accepted. -/
theorem orInternalError_lockstep {P : Prop} (instruction : Instruction) {w w' : Word}
    (hvalue : P → w' = w) :
    Lockstep (fun bytes bytes' => P → bytes' = bytes)
      (orInternalError (instructionEncode { instruction with immediate := w }))
      (orInternalError (instructionEncode { instruction with immediate := w' })) := by
  unfold instructionEncode
  dsimp only
  split
  · exact .error _ _
  · exact .ok fun hP => by rw [hvalue hP]

theorem statement_lockstep {P : Prop} (statement : Statement) {x y : Except AsmFailure Word}
    (h : Lockstep (fun w w' => P → w' = w) x y) :
    Lockstep (fun bytes bytes' => P → bytes' = bytes) (encodeStatement statement x)
      (encodeStatement statement y) := by
  refine Lockstep.same_bind fun condition _ => Lockstep.same_bind fun register1 _ =>
    Lockstep.same_bind fun register2 _ => Lockstep.same_bind fun op _ =>
    h.bind fun w w' hvalue => ?_
  exact orInternalError_lockstep
    ⟨op.toWord, condition.toWord, UInt8.ofNat register1, UInt8.ofNat register2, 0⟩ hvalue

/-- A statement whose immediate is rejected. -/
theorem encodeStatement_error (statement : Statement) (e : AsmFailure) :
    ∃ e', encodeStatement statement (.error e) = .error e' := by
  cases hencode : encodeStatement statement (.error e) with
  | error e' => exact ⟨e', rfl⟩
  | ok bytes =>
      obtain ⟨w, -, hw, -⟩ := encodeStatement_eq_ok hencode
      cases hw

/-- A statement whose immediate the object's back end gets together with a symbol. -/
theorem answer_lockstep {P : Prop} (statement : Statement) {x : Except AsmFailure Word}
    {y : Except AsmFailure (Word × Option ℕ)}
    (h : Lockstep (fun w answer => answer.2 = none ∧ (P → answer.1 = w)) x y) :
    Lockstep (fun bytes answer => answer.2 = none ∧ (P → answer.1 = bytes))
      (encodeStatement statement x)
      (do
        let encoded ← encodeStatement statement (y.map (·.1))
        return (encoded, (← y).2)) := by
  cases h with
  | ok related =>
      rename_i w answer
      rw [← bind_pure (encodeStatement statement (.ok w))]
      exact (statement_lockstep statement (.ok related.2)).bind fun bytes bytes' hvalue =>
        .ok ⟨related.1, hvalue⟩
  | error e e' =>
      obtain ⟨raw, hraw⟩ := encodeStatement_error statement e
      obtain ⟨object, hobject⟩ := encodeStatement_error statement e'
      rw [hraw, show (Except.error e').map Prod.fst = (.error e' : Except AsmFailure Word) from rfl,
        hobject]
      exact .error _ _

/-- **Lines.** -/
theorem line_lockstep (h : TextContext context name) {labels : List LabelInfo}
    (hlabels : asmProcessLabels context = .ok labels) (hline : line ∈ context.lines) :
    Lockstep (fun bytes (answer : Bytes × Option ℕ) =>
        answer.2 = none ∧ (RawOffsets context → answer.1 = bytes))
      (rawLineBytes labels line)
      (lineBytes context (labelSymbols context.sections context.lines) line) := by
  cases hbody : line.body with
  | stmt statement =>
      simp only [rawLineBytes, lineBytes, hbody]
      refine Lockstep.congr_left ?_ fun bytes => encodeRawStatement_iff
      exact answer_lockstep statement (optional_immediate_lockstep h hlabels hline statement.imm)
  | raw data =>
      simp only [rawLineBytes, lineBytes, hbody]
      exact .ok ⟨rfl, fun _ => rfl⟩

/-! ## Whole contexts -/

/-- The buffer can grow to any size that leaves room for one more step. -/
theorem growCapacity_ok {capacity requiredSize : ℕ} (h : requiredSize ≤ sizeMax - growthSize) :
    ∃ capacity', growCapacity capacity requiredSize = .ok capacity' := by
  induction capacity using growCapacity.induct requiredSize with
  | case1 capacity hlarger hlimit => omega
  | case2 capacity hlarger hlimit ih =>
      rw [growCapacity, if_pos hlarger, if_neg hlimit]
      exact ih
  | case3 capacity hfits =>
      rw [growCapacity, if_neg hfits]
      exact ⟨capacity, rfl⟩

theorem ensureCapacity_ok {capacity requiredSize : ℕ} (h : requiredSize ≤ sizeMax - growthSize) :
    ∃ capacity', ensureCapacity capacity requiredSize = .ok capacity' := by
  unfold ensureCapacity
  split
  · exact growCapacity_ok h
  · exact ⟨capacity, rfl⟩

/-- The symbols are the labels. -/
theorem TextContext.objectSymbols_eq (h : TextContext context name) :
    objectSymbols context = .ok (labelSymbols context.sections context.lines) := by
  rw [objectSymbols, foldl_addLabel _ h.assembled.labels, h.globals, h.externals]
  rfl

/-- What the two loops have in common after some lines. -/
structure InStep (context : AssemblerContext) (done : List PlacedLine) (raw : RawState)
    (object : ObjectState) : Prop where
  size : raw.output.length = rawOffset context.lines done.length
  types : ∀ index : ℕ, (object.sections[index]?).map ZlImageSection.type
    = (context.sections[index]?).map AsmSection.type
  relocations : object.relocations = []

/-- **One pass of both loops.** -/
theorem InStep.step (h : TextContext context name) {labels : List LabelInfo}
    (hlabels : asmProcessLabels context = .ok labels) {done rest : List PlacedLine}
    (hlines : context.lines = done ++ line :: rest) {raw : RawState} {object : ObjectState}
    (hstep : InStep context done raw object) :
    Lockstep (InStep context (done ++ [line])) (translateRawLine labels raw line)
      (translateLine context (labelSymbols context.sections context.lines) object line) := by
  have hmem : line ∈ context.lines := hlines ▸ List.mem_append_right _ List.mem_cons_self
  have hline : context.lines[done.length]? = some line := by
    rw [hlines, List.getElem?_append_right (Nat.le_refl _), Nat.sub_self]
    rfl
  have hsize := h.rawOffset_le_romSize hline
  rw [translateRawLine, translateLine]
  refine Lockstep.require_bind_right ?_ ?_
  · -- the section of the line is not BSS
    obtain ⟨s, hs, -⟩ := h.inText line hmem
    have htype := hstep.types line.sectionIndex
    rw [hs, Option.map_some, Option.map_eq_some_iff] at htype
    obtain ⟨t, ht, htype⟩ := htype
    rw [ht, Option.any_some, htype]
    simpa using h.stored hmem hs
  · refine (line_lockstep h hlabels hmem).values.bind ?_
    rintro data ⟨bytes, symbol⟩ ⟨⟨hsymbol, -⟩, hdata, -⟩
    have hlength := rawLineBytes_length hdata
    have hmax : romSize ≤ sizeMax - growthSize := by decide
    obtain ⟨capacity, hcapacity⟩ := @ensureCapacity_ok raw.capacity
      (raw.output.length + data.length) (by rw [hstep.size, hlength]; omega)
    refine Lockstep.require_bind_left ?_ ?_
    · rw [hstep.size, hlength]
      omega
    · rw [hcapacity]
      refine .ok ⟨?_, fun index => ?_, ?_⟩
      · rw [List.length_append, List.length_append, List.length_singleton, rawOffset_succ hline,
          hstep.size, hlength]
      · rw [List.getElem?_modify, ← hstep.types index]
        cases object.sections[index]? with
        | none => rfl
        | some s =>
            rw [Option.map_eq_map, Option.map_some, Option.map_some, Option.map_some]
            split <;> rfl
      · dsimp only at hsymbol ⊢
        rw [hsymbol, hstep.relocations]
        rfl

/-- **Both back ends accept the same contexts**, and the object has no relocations. -/
theorem translate_lockstep (h : TextContext context name) {labels : List LabelInfo}
    (hlabels : asmProcessLabels context = .ok labels) :
    Lockstep (fun _ image => image.relocations = []) (asmTranslate labels context.lines)
      (objectImage context) := by
  rw [asmTranslate, objectImage, h.objectSymbols_eq, ok_bind]
  refine (Lockstep.foldlM (InStep context) ?_ ?_).bind fun raw object hstep => ?_
  · refine ⟨rfl, fun index => ?_, rfl⟩
    rw [List.getElem?_map, Option.map_map]
    rfl
  · exact fun done line rest raw object hlines hstep => hstep.step h hlabels hlines
  · exact .ok hstep.relocations

/-! ## The object -/

/-- The size of the object of a context that needs no relocation: the header, a record for each
section and each label, their names, and the bytes of the sections. -/
def AssemblerContext.objectSize (context : AssemblerContext) : ℕ :=
  let labels := context.lines.filterMap (·.label)
  imageHeaderSize + context.sections.length * imageSectionRecordSize
    + labels.length * imageSymbolRecordSize
    + (1 + (context.sections.map (·.name.length + 1)).sum + (labels.map (·.length + 1)).sum)
    + (context.sections.map fun s => if s.type = sectionBss then 0 else s.size).sum

variable {image : ZlImage}

/-- **The encoder accepts the image** unless it is too large. -/
theorem TextContext.encodable (h : TextContext context name) (himage : objectImage context = .ok image)
    (hrelocations : image.relocations = []) : image.Encodable := by
  have hsound : SoundContext context :=
    ⟨h.assembled.placement, h.assembled.labels, h.names, h.alignment⟩
  refine hsound.encodable himage fun r hr => ?_
  rw [hrelocations] at hr
  cases hr

/-- The length of a string table. -/
theorem length_stringTable (names : List (Option CString)) :
    (stringTable names).length = (names.map fun name => (orEmpty name).length + 1).sum := by
  induction names with
  | nil => rfl
  | cons name names ih => simp [ih]

theorem length_payloadTable (sections : List ZlImageSection) :
    (payloadTable sections).length = (sections.map fun s => s.payload.length).sum :=
  List.length_flatMap

theorem names_labelSymbols (sections : List AsmSection) (lines : List PlacedLine) :
    (labelSymbols sections lines).map (·.name) = (lines.filterMap (·.label)).map some := by
  rw [labelSymbols, List.map_filterMap, List.map_filterMap]
  refine List.filterMap_congr fun line _ => ?_
  rw [Option.map_map]
  rfl

/-- The symbols of the object are its labels. -/
theorem TextContext.symbols_eq (h : TextContext context name) (htranslated : Translated context image) :
    image.symbols = labelSymbols context.sections context.lines := by
  have hsymbols := htranslated.symbols
  rw [h.objectSymbols_eq] at hsymbols
  exact (Except.ok.inj hsymbols).symm

/-- **The size of the object** in terms of the context. -/
theorem TextContext.encodedSize_eq (h : TextContext context name)
    (himage : objectImage context = .ok image) (hrelocations : image.relocations = []) :
    image.encodedSize = context.objectSize := by
  have htranslated := translated_of_objectImage himage
  have hencodable := h.encodable himage hrelocations
  have hsymbols := h.symbols_eq htranslated
  have hentry : image.encodedEntry = none := by
    rw [ZlImage.encodedEntry, (objectImage_entry himage).2, h.entry]
    split <;> rfl
  have hcount : image.sections.length = context.sections.length := by
    rw [htranslated.sections, List.length_mapIdx]
  have hnames : image.sections.map (·.name) = context.sections.map (some ·.name) := by
    refine List.ext_getElem? fun index => ?_
    rw [htranslated.sections, List.getElem?_map, List.getElem?_mapIdx, List.getElem?_map,
      Option.map_map]
    refine Option.map_congr fun s _ => ?_
    rw [Function.comp_apply, filled_eq]
    rfl
  have hpayload : image.sections.map (fun s => s.payload.length)
      = context.sections.map fun s => if s.type = sectionBss then 0 else s.size := by
    refine List.ext_getElem? fun index => ?_
    rw [htranslated.sections, List.getElem?_map, List.getElem?_mapIdx, List.getElem?_map,
      Option.map_map]
    refine Option.map_congr fun s hs => ?_
    have hmem : filled context image.symbols context.lines index (objectSection s)
        ∈ image.sections := by
      refine List.mem_of_getElem? (i := index) ?_
      rw [htranslated.sections, List.getElem?_mapIdx, hs]
      rfl
    rw [Function.comp_apply, (hencodable.sections _ hmem).length_payload,
      htranslated.dataSize_filled hs, filled_eq]
    rfl
  have hlabels : (image.symbols.map (·.name)).length = (context.lines.filterMap (·.label)).length := by
    rw [hsymbols, names_labelSymbols, List.length_map]
  rw [List.length_map] at hlabels
  rw [ZlImage.encodedSize, ZlImage.layout, AssemblerContext.objectSize, length_payloadTable,
    hpayload, length_stringTable, ZlImage.strings, hentry, ZlImage.names, hnames, hsymbols,
    names_labelSymbols, hrelocations, hcount, ← hlabels, hsymbols]
  simp [Function.comp_def, orEmpty]
  omega

/-! ## The text section -/

/-- **The text section holds the raw image** if every line lies at its offset there and nothing
follows the last one. -/
theorem TextContext.text_eq (h : TextContext context name) {labels : List LabelInfo}
    (hlabels : asmProcessLabels context = .ok labels) {output : Bytes}
    (houtput : asmTranslate labels context.lines = .ok output)
    (himage : objectImage context = .ok image) {index : ℕ} {s : AsmSection}
    (hs : context.sections[index]? = some s) (hname : s.name = name)
    (hoffsets : RawOffsets context) (hsize : s.size = output.length) :
    (filled context image.symbols context.lines index (objectSection s)).data.toBytes
      = output := by
  have htranslated := translated_of_objectImage himage
  have hsymbols := h.symbols_eq htranslated
  have htake : ∀ k, ((context.lines.map PlacedLine.size).take k).sum
      = rawOffset context.lines k := by
    intro k
    rw [rawOffset, List.map_take]
  have houtputSize : output.length = (context.lines.map PlacedLine.size).sum :=
    asmTranslate_length houtput
  refine @eq_of_slices _ _ _ (context.lines.map PlacedLine.size) ?_ houtputSize fun k n hn => ?_
  · have hdataSize := htranslated.dataSize_filled hs
    obtain ⟨data, hdata⟩ := @data_filled context image.symbols index s context.lines
      (h.type_ne (List.mem_of_getElem? hs) hname)
    rw [ZlImageSection.dataSize, hdata] at hdataSize
    rw [hdata, ← houtputSize, ← hsize]
    exact hdataSize
  · rw [List.getElem?_map, Option.map_eq_some_iff] at hn
    obtain ⟨line, hline, rfl⟩ := hn
    have hmem := List.mem_of_getElem? hline
    obtain ⟨t, ht, -, -, hslice⟩ := htranslated.payload h.assembled.placement hmem
    obtain ⟨bytes, symbol, hbytes⟩ := htranslated.translated line hmem
    obtain ⟨hraw, -⟩ := asmTranslate_slice houtput hline
    have hindex : line.sectionIndex = index := by
      obtain ⟨s', hs', hname'⟩ := h.inText line hmem
      by_contra hne
      rcases pairwise_getElem? h.names.distinct hs' hs hne with hdistinct | hdistinct
      · exact hdistinct (hname'.trans hname.symm)
      · exact hdistinct (hname.trans hname'.symm)
    rw [htranslated.sections, List.getElem?_mapIdx, hindex, hs] at ht
    obtain rfl := Option.some.inj ht
    have hemitted : emitted context image.symbols line = bytes := by rw [emitted, hbytes]
    rw [hsymbols] at hbytes
    have hagree := ((line_lockstep h hlabels hmem).value hraw hbytes).2 hoffsets
    rw [htake, ← hagree, ← hemitted, ← hslice, hoffsets k line hline]

end Context

end Zlvm
