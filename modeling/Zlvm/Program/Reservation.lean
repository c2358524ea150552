import Zlvm.Asm.LabelTable
import Zlvm.Program.Objects

/-!
# Reservations in BSS

`.space` travels to `asm_translate_object` as a raw line of zeros, and that function accepts no raw
line in a BSS section.

* `bssLines` — the lines of a source that stand in a BSS section.
* `ReservesOnly`, `OthersValid` — sources that a BSS section with reservations should not keep from
  being assembled.
* `Reserved` — what the object of such a source should be.
* `objectImage_progress` — the translation succeeds if every line can be translated.
* **`reserved_iff`** — it is what it should be exactly if nothing is reserved.
-/

namespace Zlvm

open Loop

/-! ## The lines of a BSS section -/

/-- A name that makes a section a BSS section. -/
def namesBss (name : CString) : Bool := (newSection name).type == sectionBss

/-- The lines that stand in a BSS section if the section `name` is selected before them. -/
def bssLinesFrom (name : CString) : List Line → List Line
  | [] => []
  | line :: rest =>
      (if namesBss name then [line] else []) ++ bssLinesFrom (line.selects name) rest

/-- The lines that stand in a BSS section. -/
def bssLines (lines : List Line) : List Line := bssLinesFrom (CString.lit "text") lines

/-- A BSS section holds nothing but what `.space` reserves: no data and no instructions. -/
def ReservesOnly (lines : List Line) : Prop :=
  ∀ line ∈ bssLines lines, line.emits = true → (line.argument .dirSpace).isSome = true

/-- Nothing is reserved in a BSS section. -/
def Unreserved (lines : List Line) : Prop :=
  ∀ line ∈ bssLines lines, (line.argument .dirSpace).isSome = false

instance (lines : List Line) : Decidable (ReservesOnly lines) :=
  inferInstanceAs (Decidable (∀ line ∈ bssLines lines, _))

instance (lines : List Line) : Decidable (Unreserved lines) :=
  inferInstanceAs (Decidable (∀ line ∈ bssLines lines, _))

theorem mem_bssLinesFrom {line : Line} : ∀ {lines : List Line} {name : CString},
    line ∈ bssLinesFrom name lines ↔ ∃ before after, lines = before ++ line :: after ∧
      namesBss (before.foldl (fun name line => line.selects name) name) = true
  | [], name => by simp [bssLinesFrom]
  | head :: rest, name => by
      rw [bssLinesFrom, List.mem_append, mem_bssLinesFrom]
      constructor
      · rintro (hhead | ⟨before, after, rfl, hbss⟩)
        · split at hhead
          · rename_i hbss
            obtain rfl := List.mem_singleton.mp hhead
            exact ⟨[], rest, rfl, hbss⟩
          · cases hhead
        · exact ⟨head :: before, after, rfl, hbss⟩
      · rintro ⟨before, after, hsplit, hbss⟩
        cases before with
        | nil =>
            obtain ⟨rfl, rfl⟩ := List.cons.inj hsplit
            rw [List.foldl_nil] at hbss
            exact .inl (by rw [if_pos hbss]; exact List.mem_singleton_self _)
        | cons first before =>
            obtain ⟨rfl, rfl⟩ := List.cons.inj hsplit
            exact .inr ⟨before, after, rfl, hbss⟩

/-- **The lines of a BSS section** are those with a BSS section selected before them. -/
theorem mem_bssLines {lines : List Line} {line : Line} :
    line ∈ bssLines lines ↔ ∃ before after, lines = before ++ line :: after ∧
      namesBss (selectedSection before) = true := mem_bssLinesFrom

/-! ## What is promised -/

/-- The lines outside BSS can be translated, the global names are defined, and the object is small
enough for its format. -/
structure OthersValid (context : AssemblerContext) : Prop where
  translated : ∃ symbols, objectSymbols context = .ok symbols ∧ ∀ line ∈ context.lines,
    (∀ s : AsmSection, context.sections[line.sectionIndex]? = some s → s.type ≠ sectionBss) →
      ∃ answer, lineBytes context symbols line = .ok answer
  fits : ∀ image, objectImage context = .ok image → image.encodedSize ≤ uint32Max

/-- The name of a label in a BSS section, and the counter of the section at the first reservation at
the label or behind it. -/
inductive ReservedFor (lines : List Line) : CString → ℕ → Prop
  | mk {before between after : List Line} {line reservation : Line} {label : CString}
      {mid : DirectiveState} (lines_eq : lines = before ++ between ++ reservation :: after)
      (head : (between ++ [reservation]).head? = some line) (written : line.label = some label)
      (bss : namesBss (selectedSection before) = true)
      (same : selectedSection (before ++ between) = selectedSection before)
      (reserves : (reservation.argument .dirSpace).isSome = true)
      (first : ∀ earlier other later, between = earlier ++ other :: later →
        selectedSection (before ++ earlier) = selectedSection before →
        (other.argument .dirSpace).isSome = false)
      (reached : Reached (before ++ between) mid) :
      ReservedFor lines (definedName (procedureOf before) label)
        (sectionOf mid.context (selectedSection before)).size

/-- The source is assembled, every BSS section of the object has the size that its counter has
reached, and the symbol of every label there has the value of the counter at the first reservation
at the label or behind it. -/
def Reserved (source : CString) (lines : List Line) (context : AssemblerContext) : Prop :=
  ∀ filename, ∃ object image, zlasmAssembleObject true source filename = .ok object ∧
    zlImageDecode allocAll object = .ok image ∧
    (∀ (index : ℕ) (s : AsmSection), context.sections[index]? = some s → s.type = sectionBss →
      ∃ t : ZlImageSection, image.sections[index]? = some t ∧ t.type = sectionBss ∧
        t.dataSize = s.size) ∧
    ∀ name counter, ReservedFor lines name counter →
      ∃ y ∈ image.symbols, y.name = some name ∧ y.value.toNat = counter

/-! ## The translation -/

section Translation

variable {context : AssemblerContext} {symbols : List ZlImageSymbol}

/-- **The translation succeeds** if no line lies in BSS and every line can be translated. -/
theorem objectImage_progress (hsymbols : objectSymbols context = .ok symbols)
    (hstored : ∀ line ∈ context.lines, ∀ s : AsmSection,
      context.sections[line.sectionIndex]? = some s → s.type ≠ sectionBss)
    (htranslated : ∀ line ∈ context.lines, ∃ answer, lineBytes context symbols line = .ok answer) :
    ∃ image, objectImage context = .ok image := by
  have hloop := foldlM_progress (l := context.lines) (f := translateLine context symbols)
    (b := { sections := context.sections.map objectSection, relocations := [] })
    (fun _ state => ∀ index : ℕ, (state.sections[index]?).map ZlImageSection.type
      = (context.sections[index]?).map AsmSection.type) ?_ ?_
  · obtain ⟨state, hstate, -⟩ := hloop
    rw [objectImage, hsymbols, ok_bind, hstate]
    exact ⟨_, rfl⟩
  · intro index
    rw [List.getElem?_map, Option.map_map]
    rfl
  · intro done line rest state hsplit htypes
    have hline : line ∈ context.lines := hsplit ▸ List.mem_append_right _ List.mem_cons_self
    obtain ⟨⟨bytes, symbol⟩, hbytes⟩ := htranslated line hline
    have hbss : ¬(state.sections[line.sectionIndex]?).any (·.type == sectionBss) := by
      intro hany
      rw [Option.any_eq_true] at hany
      obtain ⟨t, ht, htype⟩ := hany
      have hsection := htypes line.sectionIndex
      rw [ht, Option.map_some, eq_comm, Option.map_eq_some_iff] at hsection
      obtain ⟨s, hs, hsame⟩ := hsection
      exact hstored line hline s hs (hsame.trans (beq_iff_eq.mp htype))
    refine ⟨_, by rw [translateLine, require_of hbss, ok_bind, hbytes, ok_bind]; rfl,
      fun index => ?_⟩
    rw [List.getElem?_modify, ← htypes index]
    cases state.sections[index]? with
    | none => rfl
    | some s =>
        rw [Option.map_eq_map, Option.map_some, Option.map_some, Option.map_some]
        split <;> rfl

end Translation

/-! ## Recorded lines -/

section Recorded

variable {before : List Line} {line : Line} {final mid : DirectiveState} {r : PlacedLine}

/-- **A line is recorded in BSS** exactly if it stands there. -/
theorem RecordedAt.bss_iff (h : RecordedAt before line final mid r)
    (hnames : SectionNames final.context) {s : AsmSection}
    (hs : final.context.sections[r.sectionIndex]? = some s) :
    s.type = sectionBss ↔ namesBss (selectedSection before) = true := by
  obtain ⟨t, ht, hname⟩ := h.named
  obtain rfl := Option.some.inj (hs.symm.trans ht)
  rw [hnames.type s (List.mem_of_getElem? hs), hname, namesBss, beq_iff_eq]

/-- A line of a BSS section that reserves bytes is recorded. -/
theorem emits_of_space (h : (line.argument .dirSpace).isSome = true) : line.emits = true := by
  obtain ⟨argument, hargument⟩ := Option.isSome_iff_exists.mp h
  cases hbody : line.body with
  | stmt statement => simp [Line.argument, hbody] at hargument
  | dir directive =>
      simp only [Line.argument, hbody, Option.ite_none_right_eq_some] at hargument
      have hdata : DirectiveType.dirSpace.isData = true := rfl
      simp only [Line.emits, hbody, hargument.1, hdata]

end Recorded

/-! ## When the promise is kept -/

section Source

variable {source : CString} {lines : List Line} {context : AssemblerContext}

/-- An object in which a BSS section has a line does not exist. -/
theorem unreserved_of_objectImage {final : DirectiveState} {image : ZlImage}
    (hfinal : processLines directiveInit lines = .ok final)
    (himage : objectImage final.context = .ok image) : Unreserved lines := by
  intro line hline
  by_contra hspace
  rw [Bool.not_eq_false] at hspace
  obtain ⟨before, after, rfl, hbss⟩ := mem_bssLines.mp hline
  obtain ⟨mid, r, hrecorded⟩ := recordedAt_of_split hfinal (emits_of_space hspace)
  have hnames := (Reached.init.processLines hfinal).sections.1
  obtain ⟨s, hs, -⟩ := hrecorded.named
  exact (translated_of_objectImage himage).stored r (List.mem_of_getElem? hrecorded.listed) s hs
    ((hrecorded.bss_iff hnames hs).mpr hbss)

/-- Where nothing is reserved, no line lies in BSS. -/
theorem stored_of_unreserved {final : DirectiveState}
    (hfinal : processLines directiveInit lines = .ok final) (honly : ReservesOnly lines)
    (hunreserved : Unreserved lines) {r : PlacedLine} (hr : r ∈ final.context.lines)
    {s : AsmSection} (hs : final.context.sections[r.sectionIndex]? = some s) :
    s.type ≠ sectionBss := by
  obtain ⟨k, hk⟩ := List.mem_iff_getElem?.mp hr
  obtain ⟨before, line, after, mid, rfl, hemits, -, hrecorded⟩ := exists_recordedAt hfinal hk
  have hnames := (Reached.init.processLines hfinal).sections.1
  intro htype
  have hline : line ∈ bssLines (before ++ line :: after) :=
    mem_bssLines.mpr ⟨before, after, rfl, (hrecorded.bss_iff hnames hs).mp htype⟩
  exact Bool.false_ne_true ((hunreserved line hline).symm.trans (honly line hline hemits))

/-- **Reservations in BSS.**  A source whose BSS sections hold nothing but reservations, and whose
other sections are valid, is assembled as it should be exactly if it reserves nothing there. -/
theorem reserved_iff (hlines : parseSource source = .ok lines)
    (hcontext : assembleContext source = .ok context) (honly : ReservesOnly lines)
    (hothers : OthersValid context) : Reserved source lines context ↔ Unreserved lines := by
  obtain ⟨lines', final, labels, hlines', hfinal, rfl, hlabels⟩ :=
    assembleContext_eq_ok.mp hcontext
  obtain rfl := Except.ok.inj (hlines.symm.trans hlines')
  constructor
  · intro hreserved
    obtain ⟨object, -, hobject, -⟩ := hreserved none
    unfold zlasmAssembleObject at hobject
    rw [hcontext, ok_bind] at hobject
    cases himage : objectImage final.context with
    | error e =>
        rw [asmTranslateObject, himage] at hobject
        cases hobject
    | ok image => exact unreserved_of_objectImage hfinal himage
  · intro hunreserved filename
    obtain ⟨symbols, hsymbols, htranslated⟩ := hothers.translated
    have hstored : ∀ r ∈ final.context.lines, ∀ s : AsmSection,
        final.context.sections[r.sectionIndex]? = some s → s.type ≠ sectionBss :=
      fun r hr s hs => stored_of_unreserved hfinal honly hunreserved hr hs
    obtain ⟨raw, hraw⟩ := objectImage_progress hsymbols hstored fun r hr =>
      htranslated r hr (hstored r hr)
    have hdirectives : asmProcessDirectives lines = .ok final.context := by
      rw [asmProcessDirectives]
      exact bind_eq_ok.mpr ⟨final, hfinal, rfl⟩
    obtain ⟨object, image, -, hobject, hdecode, -⟩ :=
      objectImage_encodes hdirectives hlabels hraw (hothers.fits raw hraw)
    have hassembled : zlasmAssembleObject true source filename = .ok object := by
      unfold zlasmAssembleObject
      rw [hcontext, ok_bind, hobject]
    obtain ⟨context, hcontext', hof⟩ := AssemblesTo.objectOf ⟨true, filename, hassembled⟩ hdecode
    obtain rfl := Except.ok.inj (hcontext.symm.trans hcontext')
    refine ⟨object, image, hassembled, hdecode, fun index s hs htype => ?_, ?_⟩
    · obtain ⟨data, ht, hsize⟩ := hof.getElem?_sections hs
      exact ⟨_, ht, htype, hsize⟩
    · -- there is no reservation that a label could stand before
      rintro name counter ⟨lines_eq, -, -, bss, same, reserves, -, -⟩
      have hline := mem_bssLines.mpr ⟨_, _, lines_eq, same.symm ▸ bss⟩
      exact absurd ((hunreserved _ hline).symm.trans reserves) Bool.false_ne_true

end Source

/-- A source with an object has valid sections. -/
theorem othersValid_of_objectImage {context : AssemblerContext} {image : ZlImage}
    (h : objectImage context = .ok image) (hsize : image.encodedSize ≤ uint32Max) :
    OthersValid context := by
  have htranslated := translated_of_objectImage h
  refine ⟨⟨image.symbols, htranslated.symbols, fun line hline _ => ?_⟩, fun image' himage' => ?_⟩
  · obtain ⟨bytes, symbol, hbytes⟩ := htranslated.translated line hline
    exact ⟨_, hbytes⟩
  · obtain rfl := Except.ok.inj (h.symm.trans himage')
    exact hsize

/-- A BSS section that is aligned and located, and a text section that refers to a data section. -/
def alignedBssSource : CString := CString.lit
  "jmp #value\n.section bss\nbuffer: .align 4\n.locate 64\n.section data\nvalue: .byte 1\n"

theorem reserved_iff_alignedBssSource : ∃ lines context,
    parseSource alignedBssSource = .ok lines ∧ assembleContext alignedBssSource = .ok context ∧
    (bssLines lines).length = 3 ∧
    (Reserved alignedBssSource lines context ↔ Unreserved lines) := by
  have hrun : (do
      let lines ← parseSource alignedBssSource
      let context ← assembleContext alignedBssSource
      let image ← objectImage context
      return ((bssLines lines).length, decide (ReservesOnly lines),
        decide (image.encodedSize ≤ uint32Max))) = .ok (3, true, true) := by decide +kernel
  simp only [bind_eq_ok] at hrun
  obtain ⟨lines, hlines, context, hcontext, image, himage, hrun⟩ := hrun
  obtain ⟨hlength, hrun⟩ := Prod.mk.inj (Except.ok.inj hrun)
  obtain ⟨honly, hsize⟩ := Prod.mk.inj hrun
  exact ⟨lines, context, hlines, hcontext, hlength, reserved_iff hlines hcontext
    (of_decide_eq_true honly) (othersValid_of_objectImage himage (of_decide_eq_true hsize))⟩

/-- Four bytes reserved in BSS, and nothing else. -/
def spaceSource : CString := CString.lit ".section bss\nbuffer: .space 4\n"

/-- **No source with a reservation in BSS is assembled.** -/
theorem spaceSource_not_reserved : ∃ lines context,
    parseSource spaceSource = .ok lines ∧ assembleContext spaceSource = .ok context ∧
    ReservesOnly lines ∧ OthersValid context ∧
    zlasmAssembleObject true spaceSource none = .error ((asmFail .sectionError
      "Initialized data cannot be emitted in bss").report none) ∧
    ¬Reserved spaceSource lines context := by
  have hfails : zlasmAssembleObject true spaceSource none = .error ((asmFail .sectionError
      "Initialized data cannot be emitted in bss").report none) := by decide +kernel
  have hrun : (do
      let lines ← parseSource spaceSource
      let context ← assembleContext spaceSource
      let symbols ← objectSymbols context
      return (decide (ReservesOnly lines), decide (Unreserved lines),
        symbols.length, context.lines.all fun line =>
          (context.sections[line.sectionIndex]?).any fun (s : AsmSection) => s.type == sectionBss))
        = .ok (true, false, 1, true) := by decide +kernel
  simp only [bind_eq_ok] at hrun
  obtain ⟨lines, hlines, context, hcontext, symbols, hsymbols, hrun⟩ := hrun
  obtain ⟨honly, hrun⟩ := Prod.mk.inj (Except.ok.inj hrun)
  obtain ⟨hreserves, hrun⟩ := Prod.mk.inj hrun
  obtain ⟨-, hbss⟩ := Prod.mk.inj hrun
  refine ⟨lines, context, hlines, hcontext, of_decide_eq_true honly,
    ⟨⟨symbols, hsymbols, fun line hline hstored => ?_⟩, fun image himage => ?_⟩, hfails,
    fun hreserved => ?_⟩
  · have hany := List.all_eq_true.mp hbss line hline
    rw [Option.any_eq_true] at hany
    obtain ⟨s, hs, htype⟩ := hany
    exact absurd (beq_iff_eq.mp htype) (hstored s hs)
  · obtain ⟨lines', final, -, hlines', hfinal, rfl, -⟩ := assembleContext_eq_ok.mp hcontext
    obtain rfl := Except.ok.inj (hlines.symm.trans hlines')
    exact absurd (unreserved_of_objectImage hfinal himage) (of_decide_eq_false hreserves)
  · obtain ⟨object, -, hobject, -⟩ := hreserved none
    rw [hfails] at hobject
    cases hobject

end Zlvm
