import Zlvm.Asm.Agreement
import Zlvm.Image.RoundTrip

/-!
# Raw images and objects

`zlasm_assemble` and `zlasm_assemble_object` on a source that puts everything into one text section.

* `ModesAgree` — both modes accept the source, and the section holds the raw image.
* `length_sectionPayload`, `sectionPayload_eq_iff` — what the section holds is the raw image exactly
  if no `.align` pads.
* **`modesAgree_iff`** — when the two modes agree.
-/

namespace Zlvm

open Loop Buffer

/-- The bytes of the section of an image that has the given name. -/
def sectionPayload (image : ZlImage) (name : CString) : Bytes :=
  ((image.sections.find? (·.name == some name)).map (·.data.toBytes)).getD []

/-- Both modes accept the source or neither does, and the section of the object holds the raw
image. -/
structure ModesAgree (source name : CString) : Prop where
  accepted : ∀ filename, (∃ output, zlasmAssemble source filename = .ok output) ↔
    ∃ object, zlasmAssembleObject true source filename = .ok object
  payload : ∀ filename output object, zlasmAssemble source filename = .ok output →
    zlasmAssembleObject true source filename = .ok object →
    ∃ image, zlImageDecode allocAll object = .ok image ∧ sectionPayload image name = output

/-- No `.align` of the source pads, and the object is small enough for its format. -/
def Agreeable (source name : CString) : Prop :=
  ∀ lines context, parseSource source = .ok lines → assembleContext source = .ok context →
    Unpadded lines name ∧ context.objectSize ≤ uint32Max

/-! ## Both modes in terms of the context -/

theorem zlasmAssemble_iff {source : CString} {filename : Option CString} {output : Bytes} :
    zlasmAssemble source filename = .ok output ↔ ∃ context labels,
      assembleContext source = .ok context ∧ asmProcessLabels context = .ok labels ∧
      asmTranslate labels context.lines = .ok output := by
  unfold zlasmAssemble
  dsimp only
  constructor
  · intro h
    split at h
    · rename_i hrun
      obtain rfl := Except.ok.inj h
      simp only [bind_eq_ok] at hrun
      exact hrun.elim fun context h => h.2.elim fun labels h' => ⟨context, labels, h.1, h'⟩
    · cases h
  · rintro ⟨context, labels, hcontext, hlabels, houtput⟩
    rw [hcontext, ok_bind, hlabels, ok_bind, houtput]

theorem zlasmAssembleObject_iff {source : CString} {filename : Option CString} {object : Bytes} :
    zlasmAssembleObject true source filename = .ok object ↔ ∃ context image,
      assembleContext source = .ok context ∧ objectImage context = .ok image ∧ image.Encodable ∧
      image.encodedSize ≤ uint32Max ∧ object = serialize image := by
  unfold zlasmAssembleObject
  constructor
  · intro h
    split at h
    · rename_i hrun
      obtain rfl := Except.ok.inj h
      simp only [asmTranslateObject, bind_eq_ok] at hrun
      obtain ⟨context, hcontext, image, himage, hrun⟩ := hrun
      cases hencode : zlImageEncode true image with
      | error e =>
          rw [hencode] at hrun
          cases hrun
      | ok encoded =>
          rw [hencode] at hrun
          obtain rfl := Except.ok.inj hrun
          obtain ⟨-, hencodable, hsize, hobject⟩ := zlImageEncode_eq_ok.mp hencode
          exact ⟨context, image, hcontext, himage, hencodable, hsize, hobject⟩
    · cases h
  · rintro ⟨context, image, hcontext, himage, hencodable, hsize, rfl⟩
    have hencode := zlImageEncode_eq_ok.mpr ⟨rfl, hencodable, hsize, rfl⟩
    rw [hcontext, ok_bind, asmTranslateObject, himage, ok_bind, hencode]
    rfl

/-- The context of a text program. -/
theorem TextProgram.textContext {source name : CString} {lines : List Line}
    (h : TextProgram lines name) (hlines : parseSource source = .ok lines)
    {context : AssemblerContext} (hcontext : assembleContext source = .ok context) :
    TextContext context name ∧ ∃ final, processLines directiveInit lines = .ok final ∧
      final.context = context := by
  have hassembled := (assembleContext_placed hcontext).1
  obtain ⟨lines', final, labels, hlines', hfinal, rfl, -⟩ := assembleContext_eq_ok.mp hcontext
  obtain rfl := Except.ok.inj (hlines.symm.trans hlines')
  have hreached := Reached.init.processLines hfinal
  rw [List.nil_append] at hreached
  obtain ⟨hnames, -⟩ := hreached.sections
  obtain ⟨hglobals, hexternals, hentry⟩ := hreached.declarations h
  refine ⟨⟨hassembled, hnames, h.text, fun line hline => ?_, fun s hs => ?_, hglobals, hexternals,
    hentry⟩, final, hfinal, rfl⟩
  · obtain ⟨k, hk⟩ := List.mem_iff_getElem?.mp hline
    exact (h.recorded hfinal hk).1
  · have halignment := hreached.alignment s.name
    rw [hnames.sectionOf_name hs] at halignment
    exact halignment

/-! ## The payload -/

section Payload

variable {context : AssemblerContext} {name : CString} {image : ZlImage}

/-- The section of the name, if there is one. -/
theorem sectionPayload_normalise (h : TextContext context name)
    (htranslated : Translated context image) {index : ℕ} {s : AsmSection}
    (hs : context.sections[index]? = some s) (hname : s.name = name) :
    sectionPayload image.normalise name
      = (filled context image.symbols context.lines index (objectSection s)).data.toBytes := by
  have hsection : ∀ {j : ℕ} {u : AsmSection}, context.sections[j]? = some u →
      image.normalise.sections[j]?
        = some (filled context image.symbols context.lines j (objectSection u)).normalise := by
    intro j u hu
    show (image.sections.map (·.normalise))[j]? = _
    rw [List.getElem?_map, htranslated.sections, List.getElem?_mapIdx, hu]
    rfl
  have hsectionName : ∀ (j : ℕ) (u : AsmSection),
      (filled context image.symbols context.lines j (objectSection u)).normalise.name
        = some u.name := by
    intro j u
    rw [filled_eq]
    rfl
  rw [sectionPayload]
  cases hfind : image.normalise.sections.find? (·.name == some name) with
  | none =>
      have hnone := List.find?_eq_none.mp hfind _ (List.mem_of_getElem? (hsection hs))
      rw [hsectionName, hname] at hnone
      simp at hnone
  | some t =>
      obtain ⟨j, hj⟩ := List.mem_iff_getElem?.mp (List.mem_of_find?_eq_some hfind)
      have hlt : j < context.sections.length := by
        have hlt := (List.getElem?_eq_some_iff.mp hj).1
        change j < (image.sections.map (·.normalise)).length at hlt
        rwa [List.length_map, htranslated.sections, List.length_mapIdx] at hlt
      have hu := List.getElem?_eq_getElem hlt
      obtain rfl := Option.some.inj (hj.symm.trans (hsection hu))
      have hmatch := List.find?_some hfind
      rw [hsectionName, beq_iff_eq] at hmatch
      have hindex : j = index := by
        by_contra hne
        rcases pairwise_getElem? h.names.distinct hu hs hne with hdistinct | hdistinct
        · exact hdistinct ((Option.some.inj hmatch).trans hname.symm)
        · exact hdistinct (hname.trans (Option.some.inj hmatch).symm)
      subst hindex
      obtain rfl := Option.some.inj (hs.symm.trans hu)
      have hstored : (filled context image.symbols context.lines j
          (objectSection context.sections[j])).type ≠ sectionBss := by
        rw [filled_eq]
        exact h.type_ne (List.mem_of_getElem? hs) hname
      rw [Option.map_some, Option.getD_some, ZlImageSection.normalise, if_neg hstored]
      rfl

/-- No section has the name. -/
theorem sectionPayload_normalise_none (htranslated : Translated context image)
    (hnone : ∀ s ∈ context.sections, s.name ≠ name) : sectionPayload image.normalise name = [] := by
  rw [sectionPayload, List.find?_eq_none.mpr]
  · rfl
  · intro t ht
    obtain ⟨u, hu, rfl⟩ := List.mem_map.mp ht
    obtain ⟨index, s, hs, rfl⟩ := htranslated.mem_sections hu
    rw [ZlImageSection.normalise, filled_eq]
    simpa [objectSection, orEmpty] using hnone s (List.mem_of_getElem? hs)

/-- The payload has the size of the section. -/
theorem length_sectionPayload (h : TextContext context name)
    (htranslated : Translated context image) :
    (sectionPayload image.normalise name).length = (sectionOf context name).size := by
  by_cases hsome : ∃ s ∈ context.sections, s.name = name
  · obtain ⟨s, hs, rfl⟩ := hsome
    obtain ⟨index, hindex⟩ := List.mem_iff_getElem?.mp hs
    obtain ⟨data, hdata⟩ := @data_filled context image.symbols index s context.lines
      (h.type_ne hs rfl)
    have hsize := htranslated.dataSize_filled hindex
    rw [ZlImageSection.dataSize, hdata] at hsize
    rw [sectionPayload_normalise h htranslated hindex rfl, h.names.sectionOf_name hs, hdata]
    exact hsize
  · have hnone : ∀ s ∈ context.sections, s.name ≠ name := fun s hs hname => hsome ⟨s, hs, hname⟩
    rw [sectionPayload_normalise_none htranslated hnone, sectionOf_of_not_mem hnone]
    rfl

/-- **The section holds the raw image** exactly if no `.align` pads. -/
theorem sectionPayload_eq_iff {lines : List Line} {final : DirectiveState} {labels : List LabelInfo}
    {output : Bytes} (h : TextContext final.context name) (hprogram : TextProgram lines name)
    (hfinal : processLines directiveInit lines = .ok final)
    (hlabels : asmProcessLabels final.context = .ok labels)
    (houtput : asmTranslate labels final.context.lines = .ok output)
    (himage : objectImage final.context = .ok image) :
    sectionPayload image.normalise name = output ↔ Unpadded lines name := by
  have htranslated := translated_of_objectImage himage
  have hreached := Reached.init.processLines hfinal
  rw [List.nil_append] at hreached
  have hemitted : output.length = emittedBytes lines := by
    rw [asmTranslate_length houtput, ← hreached.emitted.2, rawOffset, List.take_length]
  obtain ⟨-, hsize⟩ := hreached.size hprogram
  have hlength := length_sectionPayload h htranslated
  rw [hsize, ← hlength, ← hemitted]
  constructor
  · exact congrArg List.length
  · intro heq
    by_cases hsome : ∃ s ∈ final.context.sections, s.name = name
    · obtain ⟨s, hs, hname⟩ := hsome
      obtain ⟨index, hindex⟩ := List.mem_iff_getElem?.mp hs
      have hunpadded : Unpadded lines name := by
        rw [hsize, ← hlength, heq, hemitted]
      rw [sectionPayload_normalise h htranslated hindex hname]
      refine h.text_eq hlabels houtput himage hindex hname ?_ ?_
      · exact fun k r hr => (hprogram.recorded hfinal hr).2 hunpadded
      · rw [← heq, hlength, ← hname, h.names.sectionOf_name hs]
    · have hnone : ∀ s ∈ final.context.sections, s.name ≠ name := fun s hs hname =>
        hsome ⟨s, hs, hname⟩
      rw [sectionPayload_normalise_none htranslated hnone] at heq ⊢
      exact (List.eq_nil_of_length_eq_zero heq.symm).symm

end Payload

/-! ## When the modes agree -/

section Agree

variable {source name : CString}

/-- What the object mode accepts, the raw mode accepts. -/
theorem zlasmAssemble_of_object
    (hprogram : ∀ lines, parseSource source = .ok lines → TextProgram lines name)
    {filename filename' : Option CString} {object : Bytes}
    (h : zlasmAssembleObject true source filename = .ok object) :
    ∃ output, zlasmAssemble source filename' = .ok output := by
  obtain ⟨context, image, hcontext, himage, -⟩ := zlasmAssembleObject_iff.mp h
  obtain ⟨lines, final, labels, hlines, -, hfinal, hlabels⟩ := assembleContext_eq_ok.mp hcontext
  obtain ⟨htext, -⟩ := (hprogram lines hlines).textContext hlines hcontext
  obtain ⟨output, houtput⟩ := (translate_lockstep htext hlabels).exists_iff.mpr ⟨image, himage⟩
  exact ⟨output, zlasmAssemble_iff.mpr ⟨context, labels, hcontext, hlabels, houtput⟩⟩

/-- What the raw mode accepts has an object, apart from its size. -/
theorem objectImage_of_zlasmAssemble
    (hprogram : ∀ lines, parseSource source = .ok lines → TextProgram lines name)
    {filename : Option CString} {output : Bytes}
    (h : zlasmAssemble source filename = .ok output) :
    ∃ lines context image, parseSource source = .ok lines ∧ assembleContext source = .ok context ∧
      objectImage context = .ok image ∧ image.Encodable ∧
      image.encodedSize = context.objectSize ∧
      (sectionPayload image.normalise name = output ↔ Unpadded lines name) := by
  obtain ⟨context, labels, hcontext, hlabels, houtput⟩ := zlasmAssemble_iff.mp h
  obtain ⟨lines, -, -, hlines, -⟩ := assembleContext_eq_ok.mp hcontext
  obtain ⟨htext, final, hfinal, rfl⟩ := (hprogram lines hlines).textContext hlines hcontext
  have hlockstep := translate_lockstep htext hlabels
  obtain ⟨image, himage⟩ := hlockstep.exists_iff.mp ⟨output, houtput⟩
  have hrelocations := hlockstep.value houtput himage
  exact ⟨lines, final.context, image, hlines, hcontext, himage,
    htext.encodable himage hrelocations, htext.encodedSize_eq himage hrelocations,
    sectionPayload_eq_iff htext (hprogram lines hlines) hfinal hlabels houtput himage⟩

/-- **When both modes agree**: always on a source that the raw mode rejects, and on one that it
accepts exactly if no `.align` pads and the object is small enough for its format. -/
theorem modesAgree_iff
    (hprogram : ∀ lines, parseSource source = .ok lines → TextProgram lines name) :
    ((∃ failure, zlasmAssemble source none = .error failure) → ModesAgree source name) ∧
    ((∃ output, zlasmAssemble source none = .ok output) →
      (ModesAgree source name ↔ Agreeable source name)) := by
  have hnone : ∀ {filename output}, zlasmAssemble source filename = .ok output →
      zlasmAssemble source none = .ok output := fun h =>
    zlasmAssemble_iff.mpr (zlasmAssemble_iff.mp h)
  refine ⟨?_, ?_⟩
  · rintro ⟨failure, hfailure⟩
    have hrejected : ∀ filename output, zlasmAssemble source filename ≠ .ok output := by
      intro filename output houtput
      rw [hnone houtput] at hfailure
      cases hfailure
    refine ⟨fun filename => ⟨?_, ?_⟩, fun filename output object houtput =>
      absurd houtput (hrejected filename output)⟩
    · rintro ⟨output, houtput⟩
      exact absurd houtput (hrejected filename output)
    · rintro ⟨object, hobject⟩
      exact zlasmAssemble_of_object hprogram hobject
  · rintro ⟨output, houtput⟩
    obtain ⟨lines, context, image, hlines, hcontext, himage, hencodable, hsize, hpayload⟩ :=
      objectImage_of_zlasmAssemble hprogram houtput
    have hobject : ∀ {filename object}, zlasmAssembleObject true source filename = .ok object →
        image.encodedSize ≤ uint32Max ∧ object = serialize image := by
      intro filename object h
      obtain ⟨context', image', hcontext', himage', -, hsize', hobject'⟩ :=
        zlasmAssembleObject_iff.mp h
      obtain rfl := Except.ok.inj (hcontext.symm.trans hcontext')
      obtain rfl := Except.ok.inj (himage.symm.trans himage')
      exact ⟨hsize', hobject'⟩
    constructor
    · intro hagree lines' context' hlines' hcontext'
      obtain rfl := Except.ok.inj (hlines.symm.trans hlines')
      obtain rfl := Except.ok.inj (hcontext.symm.trans hcontext')
      obtain ⟨object, hok⟩ := (hagree.accepted none).mp ⟨output, houtput⟩
      obtain ⟨hle, rfl⟩ := hobject hok
      obtain ⟨decoded, hdecoded, hsame⟩ := hagree.payload none output _ houtput hok
      rw [zlImageDecode_serialize hencodable hle] at hdecoded
      obtain rfl := Except.ok.inj hdecoded
      exact ⟨hpayload.mp hsame, hsize ▸ hle⟩
    · intro hcondition
      obtain ⟨hunpadded, hle⟩ := hcondition lines context hlines hcontext
      rw [← hsize] at hle
      refine ⟨fun filename => ⟨fun _ => ?_, fun ⟨object, h⟩ => zlasmAssemble_of_object hprogram h⟩,
        fun filename output' object houtput' h => ?_⟩
      · exact ⟨serialize image, zlasmAssembleObject_iff.mpr
          ⟨context, image, hcontext, himage, hencodable, hle, rfl⟩⟩
      · obtain ⟨-, rfl⟩ := hobject h
        obtain rfl := Except.ok.inj (houtput.symm.trans (hnone houtput'))
        exact ⟨image.normalise, zlImageDecode_serialize hencodable hle, hpayload.mpr hunpadded⟩

end Agree

/-- The lines of a source that is plain. -/
theorem textProgram_of_parseSource {source : CString}
    (h : (parseSource source).map (·.all Line.isPlain) = .ok true) (lines : List Line)
    (hlines : parseSource source = .ok lines) : TextProgram lines (CString.lit "text") := by
  rw [hlines] at h
  exact textProgram_of_isPlain (Except.ok.inj h)

/-- A loop over a byte that is already aligned, and its image. -/
def alignedSource : CString := CString.lit "loop: jmp #loop\n.align 8\n.byte 1\n"

theorem modesAgree_iff_alignedSource :
    ModesAgree alignedSource (CString.lit "text") ↔
      Agreeable alignedSource (CString.lit "text") :=
  (@modesAgree_iff alignedSource (CString.lit "text")
    (textProgram_of_parseSource (by decide +kernel))).2
    ⟨[0x14, 0, 0, 0, 0, 0, 0, 0, 1], by decide +kernel⟩

/-- Two bytes with an `.align` between them. -/
def paddedSource : CString := CString.lit ".byte 1\n.align 4\n.byte 2\n"

def paddedObject : ZlImage where
  kind := imageObject
  sections := [{ name := some (CString.lit "text"), type := sectionText, flags := 0, alignment := 4,
                 address := 0, data := .bytes [1, 0, 0, 0, 2] }]

/-- **The modes differ**: only the object has the padding. -/
theorem paddedSource_not_modesAgree :
    (∀ lines, parseSource paddedSource = .ok lines →
      TextProgram lines (CString.lit "text")) ∧
    zlasmAssemble paddedSource none = .ok [1, 2] ∧
    zlasmAssembleObject true paddedSource none = .ok (serialize paddedObject) ∧
    zlImageDecode allocAll (serialize paddedObject) = .ok paddedObject ∧
    sectionPayload paddedObject (CString.lit "text") = [1, 0, 0, 0, 2] ∧
    ¬ModesAgree paddedSource (CString.lit "text") := by
  have hraw : zlasmAssemble paddedSource none = .ok [1, 2] := by decide +kernel
  have hobject : zlasmAssembleObject true paddedSource none = .ok (serialize paddedObject) := by
    decide +kernel
  have hdecode : zlImageDecode allocAll (serialize paddedObject) = .ok paddedObject := by
    decide +kernel
  refine ⟨textProgram_of_parseSource (by decide +kernel), hraw, hobject, hdecode, rfl,
    fun hagree => ?_⟩
  obtain ⟨image, himage, hpayload⟩ := hagree.payload none _ _ hraw hobject
  obtain rfl := Except.ok.inj (hdecode.symm.trans himage)
  exact absurd hpayload (by decide)

end Zlvm
