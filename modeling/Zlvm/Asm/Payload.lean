import Zlvm.Asm.Object
import Zlvm.Asm.Trace

/-!
# What is copied into the sections of an object

The last loop of `asm_translate_object` trusts the offsets that the directive loop has recorded.

* `CopiesInBounds` — every copy of that loop lies inside its buffer, in every run of it.
* `PayloadExact` — a section holds the bytes of its lines at their offsets, and zeros elsewhere.
* **`objectLayout_safe`** — both follow from the placement that the directive loop establishes.
-/

namespace Zlvm

open Buffer Loop

/-- Wherever the last loop of `asm_translate_object` comes to a line that it copies, the buffer of
its section reaches as far as the copy. -/
def CopiesInBounds (context : AssemblerContext) (symbols : List ZlImageSymbol) : Prop :=
  ∀ done line rest state bytes symbol, context.lines = done ++ line :: rest →
    done.foldlM (translateLine context symbols)
      { sections := context.sections.map objectSection, relocations := [] } = .ok state →
    lineBytes context symbols line = .ok (bytes, symbol) →
    ¬(state.sections[line.sectionIndex]?).any (·.type == sectionBss) = true →
    ∃ s, state.sections[line.sectionIndex]? = some s ∧
      line.sectionOffset + bytes.length ≤ s.data.toBytes.length

/-- The bytes of a text or data section: those of its lines at their offsets, zero at every other
position. -/
structure PayloadExact (context : AssemblerContext) (image : ZlImage) (index : ℕ)
    (s : AsmSection) (payload : Bytes) : Prop where
  size : payload.length = s.size
  lines : ∀ line ∈ context.lines, line.sectionIndex = index → ∃ bytes symbol,
    lineBytes context image.symbols line = .ok (bytes, symbol) ∧ bytes.length = line.size ∧
    slice payload line.sectionOffset line.size = bytes
  rest : ∀ i < s.size, (∀ line ∈ context.lines, line.sectionIndex = index →
    ¬(line.sectionOffset ≤ i ∧ i < line.sectionOffset + line.size)) → payload[i]? = some 0

section Copies

variable {context : AssemblerContext} {image : ZlImage}

/-- **No copy leaves its buffer.** -/
theorem Placement.copiesInBounds (h : Placement context) (symbols : List ZlImageSymbol) :
    CopiesInBounds context symbols := by
  intro done line rest state bytes symbol hsplit hrun hbytes hstored
  have hline : line ∈ context.lines := by
    rw [hsplit]
    exact List.mem_append_right _ List.mem_cons_self
  obtain ⟨s, hs, hinside⟩ := h.inside line hline
  have hsection := (translateLine_foldlM hrun).sections line.sectionIndex
  rw [hs, Option.map_some] at hsection
  refine ⟨_, hsection, ?_⟩
  rw [hsection, Option.any_some, filled_eq, beq_iff_eq] at hstored
  rw [lineBytes_length hbytes, toBytes_filled, length_overlayAll, objectSection_stored hstored,
    SectionData.toBytes_bytes, List.length_replicate]
  exact hinside

/-- **What a section holds.** -/
theorem Translated.payloadExact (h : Translated context image) (hplacement : Placement context)
    {index : ℕ} {s : AsmSection} (hs : context.sections[index]? = some s)
    (hstored : s.type ≠ sectionBss) :
    ∃ t, image.sections[index]? = some t ∧ PayloadExact context image index s t.data.toBytes := by
  have hsection : image.sections[index]?
      = some (filled context image.symbols context.lines index (objectSection s)) := by
    rw [h.sections, List.getElem?_mapIdx, hs]
    rfl
  have hbytes := @toBytes_filled context image.symbols context.lines index (objectSection s)
  rw [objectSection_stored hstored, SectionData.toBytes_bytes] at hbytes
  refine ⟨_, hsection, ?_, fun line hline hindex => ?_, fun i hi huncovered => ?_⟩
  · rw [hbytes, length_overlayAll, List.length_replicate]
  · obtain ⟨bytes, symbol, hline'⟩ := h.translated line hline
    obtain ⟨t, ht, -, -, hslice⟩ := h.payload hplacement hline
    rw [hindex, hsection] at ht
    rw [← Option.some.inj ht, emitted, hline'] at hslice
    exact ⟨bytes, symbol, hline', lineBytes_length hline', hslice⟩
  · rw [hbytes, getElem?_overlayAll_of_uncovered, List.getElem?_replicate, if_pos hi]
    intro line hline hcovers
    obtain ⟨hmem, hindex⟩ := List.mem_filter.mp hline
    rw [Covers, h.length_emitted hmem] at hcovers
    exact huncovered line hmem (beq_iff_eq.mp hindex) hcovers

end Copies

/-- **The layout of objects is safe.**  Whatever lines the directive loop accepts, every section lies
in the ROM and holds its lines one after the other; no copy of the translation leaves its buffer, and
what it produces is exactly the bytes of the lines. -/
theorem objectLayout_safe {lines : List Line} {context : AssemblerContext}
    (h : asmProcessDirectives lines = .ok context) :
    Placement context ∧ (∀ symbols, CopiesInBounds context symbols) ∧
      ∀ image, objectImage context = .ok image → ∀ index s, context.sections[index]? = some s →
        s.type ≠ sectionBss →
        ∃ t, image.sections[index]? = some t ∧ PayloadExact context image index s t.data.toBytes := by
  rw [asmProcessDirectives, bind_eq_ok] at h
  obtain ⟨state, hstate, h⟩ := h
  obtain rfl := Except.ok.inj h
  have hplacement := placement_asmInit.processLines hstate
  exact ⟨hplacement, hplacement.copiesInBounds, fun image himage index s hs hstored =>
    (translated_of_objectImage himage).payloadExact hplacement hs hstored⟩

/-- A section that is left for another one and entered again, moved and padded. -/
def reenteredLines : List Line :=
  match parseSource (CString.lit
    ".byte 1\n.section data\n.locate 64\n.byte 2\n.section text\n.align 4\n.locate 16\nret\n") with
  | .ok lines => lines
  | .error _ => []

theorem objectLayout_safe_reenteredLines : ∃ context,
    asmProcessDirectives reenteredLines = .ok context ∧ context.lines.length = 3 ∧
    Placement context ∧ (∀ symbols, CopiesInBounds context symbols) ∧
      ∀ image, objectImage context = .ok image → ∀ index s, context.sections[index]? = some s →
        s.type ≠ sectionBss →
        ∃ t, image.sections[index]? = some t ∧ PayloadExact context image index s t.data.toBytes := by
  have hlength : (asmProcessDirectives reenteredLines).map (·.lines.length) = .ok 3 := by
    decide +kernel
  cases hcontext : asmProcessDirectives reenteredLines with
  | error e =>
      rw [hcontext] at hlength
      cases hlength
  | ok context =>
      rw [hcontext] at hlength
      exact ⟨context, rfl, Except.ok.inj hlength, objectLayout_safe hcontext⟩

end Zlvm
