import Zlvm.Asm.Assembler

/-!
# Where the assembler puts the lines

What the loop of `asm_processDirectives` can do to a context, and what therefore holds of the lines
it has recorded.

* `recordLine_eq_ok`, `processLine_cases` — a line is recorded at the end of the current section, or
  it leaves the lines alone and makes no section smaller.
* `Placement` — every section lies in the ROM, every line in its section, and the lines of a section
  follow one another; `Placement.processLines` — the loop keeps it.
* `statements_processLines` — every statement is recorded, in order.
* `distinctLabels_of_processLabels` — no two recorded lines have the same label.
* **`assembleContext_placed`** — all of this for the context of an accepted source.
-/

namespace Zlvm

open Loop

/-! ## One line -/

/-- A section inside the ROM. -/
def AsmSection.InRom (s : AsmSection) : Prop := s.address.toNat + s.size ≤ romSize

/-- No section disappears or becomes smaller, and none leaves the ROM. -/
structure SectionsGrow (old new : List AsmSection) : Prop where
  kept : ∀ (index : ℕ) (s : AsmSection), old[index]? = some s →
    ∃ s' : AsmSection, new[index]? = some s' ∧ s.size ≤ s'.size
  inRom : (∀ s ∈ old, s.InRom) → ∀ s ∈ new, s.InRom

theorem SectionsGrow.refl (sections : List AsmSection) : SectionsGrow sections sections :=
  ⟨fun _ s h => ⟨s, h, Nat.le_refl _⟩, fun h => h⟩

theorem validateSectionRange_eq_ok {s : AsmSection} {token : Option Token} {u : Unit} :
    validateSectionRange s token = .ok u ↔ s.InRom := by
  rw [validateSectionRange, require_eq_ok, AsmSection.InRom]
  omega

section Context

variable {context context' : AssemblerContext}

theorem AssemblerContext.getElem?_current :
    context.sections[context.currentSection]? = some context.current :=
  List.getElem?_eq_getElem context.selected

/-- Making the current section larger. -/
theorem sectionsGrow_setCurrent {s : AsmSection} (hsize : context.current.size ≤ s.size)
    (hs : s.InRom) : SectionsGrow context.sections (context.setCurrent s).sections := by
  constructor
  · intro index t ht
    by_cases hindex : context.currentSection = index
    · subst hindex
      obtain rfl := Option.some.inj (ht.symm.trans AssemblerContext.getElem?_current)
      exact ⟨s, List.getElem?_set_self context.selected, hsize⟩
    · refine ⟨t, ?_, Nat.le_refl _⟩
      rw [AssemblerContext.setCurrent, List.getElem?_set_ne hindex]
      exact ht
  · intro hall t ht
    rcases List.mem_or_eq_of_mem_set ht with ht | rfl
    · exact hall t ht
    · exact hs

/-- Selecting a section, which may have to be created. -/
theorem sectionsGrow_selectSection (name : CString) :
    SectionsGrow context.sections (selectSection context name).sections := by
  unfold selectSection
  split
  · exact SectionsGrow.refl _
  · refine ⟨fun index s hs => ⟨s, ?_, Nat.le_refl _⟩, fun hall s hs => ?_⟩
    · exact List.getElem?_append_left (List.getElem?_eq_some_iff.mp hs).1 ▸ hs
    · rcases List.mem_append.mp hs with hs | hs
      · exact hall s hs
      · rw [List.mem_singleton.mp hs]
        exact Nat.zero_le _

/-- **Recording a line** puts it at the end of the current section. -/
theorem recordLine_eq_ok {label : Option CString} {body : PlacedBody}
    (h : recordLine context label body = .ok context') :
    { context.current with size := context.current.size + body.size }.InRom ∧
      context' = { context.setCurrent
          { context.current with size := context.current.size + body.size } with
        lines := context.lines ++
          [⟨label, body, context.currentSection, context.current.size⟩] } := by
  simp only [recordLine, bind_eq_ok, require_eq_ok, validateSectionRange_eq_ok] at h
  obtain ⟨-, -, -, hrange, h⟩ := h
  exact ⟨hrange, (Except.ok.inj h).symm⟩

theorem alignSection_eq_ok {s s' : AsmSection} {argument : Token}
    (h : alignSection s argument = .ok s') : s.size ≤ s'.size ∧ s'.InRom := by
  simp only [alignSection, bind_eq_ok, require_eq_ok, validateSectionRange_eq_ok] at h
  obtain ⟨alignment, -, -, -, -, -, -, hrange, h⟩ := h
  obtain rfl := Except.ok.inj h
  exact ⟨Nat.le_add_right _ _, hrange⟩

theorem locateSection_eq_ok {s s' : AsmSection} {argument : Token}
    (h : locateSection s argument = .ok s') : s.size ≤ s'.size ∧ s'.InRom := by
  simp only [locateSection, bind_eq_ok, require_eq_ok, validateSectionRange_eq_ok] at h
  obtain ⟨address, -, -, -, moved, hmoved, -, hrange, h⟩ := h
  obtain rfl := Except.ok.inj h
  refine ⟨?_, hrange⟩
  unfold moveSection at hmoved
  split at hmoved
  · obtain rfl := Except.ok.inj hmoved
    exact Nat.le_refl _
  · simp only [bind_eq_ok, require_eq_ok] at hmoved
    obtain ⟨-, hsize, hmoved⟩ := hmoved
    obtain rfl := Except.ok.inj hmoved
    exact hsize

end Context

/-- What a line emits. -/
inductive Emits : LineBody → PlacedBody → Prop
  | stmt (statement : Statement) : Emits (.stmt statement) (.stmt statement)
  | raw {directive : Directive} {data : Bytes} (type : directive.type.isData = true)
      (data_eq : directiveGetRawData directive = .ok data) : Emits (.dir directive) (.raw data)

section Line

variable {state state' : DirectiveState} {line : Line} {last : Bool}

theorem applyDirective_grows {directive : Directive} {argument : Token}
    (h : applyDirective state directive argument last = .ok state') :
    state'.context.lines = state.context.lines ∧
      SectionsGrow state.context.sections state'.context.sections := by
  unfold applyDirective at h
  split at h
  case h_1 =>
    simp only [bind_eq_ok, require_eq_ok] at h
    obtain ⟨-, -, h⟩ := h
    obtain rfl := Except.ok.inj h
    refine ⟨?_, sectionsGrow_selectSection _⟩
    show (selectSection _ _).lines = _
    unfold selectSection
    split <;> rfl
  case h_4 =>
    rw [bind_eq_ok] at h
    obtain ⟨s, hs, h⟩ := h
    obtain rfl := Except.ok.inj h
    obtain ⟨hsize, hrange⟩ := alignSection_eq_ok hs
    exact ⟨rfl, sectionsGrow_setCurrent hsize hrange⟩
  case h_6 =>
    rw [bind_eq_ok] at h
    obtain ⟨s, hs, h⟩ := h
    obtain rfl := Except.ok.inj h
    obtain ⟨hsize, hrange⟩ := locateSection_eq_ok hs
    exact ⟨rfl, sectionsGrow_setCurrent hsize hrange⟩
  case h_7 =>
    rw [bind_eq_ok] at h
    obtain ⟨-, -, h⟩ := h
    obtain rfl := Except.ok.inj h
    exact ⟨rfl, SectionsGrow.refl _⟩
  case h_11 => cases h
  all_goals
    obtain rfl := Except.ok.inj h
    exact ⟨rfl, SectionsGrow.refl _⟩

/-- **What one line does**: it is recorded, or it emits nothing. -/
theorem processLine_cases (h : processLine state line last = .ok state') :
    (∃ body, Emits line.body body ∧
      recordLine state.context (lineLabel state line) body = .ok state'.context) ∨
    (∃ directive, line.body = .dir directive ∧ directive.type.isData = false ∧
      state'.context.lines = state.context.lines ∧
      SectionsGrow state.context.sections state'.context.sections) := by
  unfold processLine at h
  split at h
  · rename_i statement hbody
    rw [bind_eq_ok] at h
    obtain ⟨context, hcontext, h⟩ := h
    obtain rfl := Except.ok.inj h
    exact .inl ⟨_, hbody ▸ .stmt statement, hcontext⟩
  · rename_i directive hbody
    rw [bind_eq_ok] at h
    obtain ⟨-, -, h⟩ := h
    split at h
    · rename_i hdata
      simp only [bind_eq_ok] at h
      obtain ⟨data, hraw, context, hcontext, h⟩ := h
      obtain rfl := Except.ok.inj h
      exact .inl ⟨_, hbody ▸ .raw hdata hraw, hcontext⟩
    · rename_i hdata
      obtain ⟨hlines, hgrow⟩ := applyDirective_grows h
      exact .inr ⟨directive, hbody, by simpa using hdata, hlines, hgrow⟩

end Line

/-! ## All lines -/

/-- **Invariant of the loop of `asm_processDirectives`.** -/
theorem processLines_induction (P : DirectiveState → Prop)
    (step : ∀ state line last state', P state → processLine state line last = .ok state' →
      P state') :
    ∀ (lines : List Line) (state state' : DirectiveState), P state →
      processLines state lines = .ok state' → P state'
  | [], state, state', hP, h => by
      obtain rfl := Except.ok.inj h
      exact hP
  | line :: rest, state, state', hP, h => by
      rw [processLines, bind_eq_ok] at h
      obtain ⟨next, hnext, h⟩ := h
      exact processLines_induction P step rest next state'
        (step state line rest.isEmpty next hP hnext) h

/-- Where the recorded lines lie. -/
structure Placement (context : AssemblerContext) : Prop where
  inRom : ∀ s ∈ context.sections, s.InRom
  inside : ∀ line ∈ context.lines, ∃ s, context.sections[line.sectionIndex]? = some s ∧
    line.sectionOffset + line.size ≤ s.size
  ordered : context.lines.Pairwise fun a b =>
    a.sectionIndex = b.sectionIndex → a.sectionOffset + a.size ≤ b.sectionOffset

theorem placement_asmInit : Placement asmInit where
  inRom := by
    intro s hs
    rw [List.mem_singleton.mp hs]
    exact Nat.zero_le _
  inside := by
    intro line hline
    cases hline
  ordered := .nil

/-- Sections that only grow keep their lines. -/
theorem Placement.grow {context context' : AssemblerContext} (h : Placement context)
    (hlines : context'.lines = context.lines)
    (hgrow : SectionsGrow context.sections context'.sections) : Placement context' where
  inRom := hgrow.inRom h.inRom
  inside := by
    intro line hline
    rw [hlines] at hline
    obtain ⟨s, hs, hle⟩ := h.inside line hline
    obtain ⟨s', hs', hsize⟩ := hgrow.kept _ _ hs
    exact ⟨s', hs', Nat.le_trans hle hsize⟩
  ordered := hlines ▸ h.ordered

/-- A recorded line begins where its section ended. -/
theorem Placement.record {context context' : AssemblerContext} (h : Placement context)
    {label : Option CString} {body : PlacedBody}
    (hrecord : recordLine context label body = .ok context') : Placement context' := by
  obtain ⟨hrange, rfl⟩ := recordLine_eq_ok hrecord
  have hgrow : SectionsGrow context.sections (context.setCurrent
      { context.current with size := context.current.size + body.size }).sections :=
    sectionsGrow_setCurrent (Nat.le_add_right _ _) hrange
  refine ⟨hgrow.inRom h.inRom, fun line hline => ?_, ?_⟩
  · rcases List.mem_append.mp hline with hline | hline
    · obtain ⟨s, hs, hle⟩ := h.inside line hline
      obtain ⟨s', hs', hsize⟩ := hgrow.kept _ _ hs
      exact ⟨s', hs', Nat.le_trans hle hsize⟩
    · rw [List.mem_singleton.mp hline]
      exact ⟨_, List.getElem?_set_self context.selected, Nat.le_refl _⟩
  · refine List.pairwise_append.mpr ⟨h.ordered, List.pairwise_singleton _ _, ?_⟩
    intro a ha b hb hsection
    rw [List.mem_singleton.mp hb] at hsection ⊢
    obtain ⟨s, hs, hle⟩ := h.inside a ha
    rw [show a.sectionIndex = context.currentSection from hsection,
      AssemblerContext.getElem?_current] at hs
    rw [Option.some.inj hs]
    exact hle

/-- **The loop of `asm_processDirectives` keeps the placement.** -/
theorem Placement.processLines {lines : List Line} {state state' : DirectiveState}
    (h : Placement state.context) (hrun : processLines state lines = .ok state') :
    Placement state'.context := by
  refine processLines_induction (fun state => Placement state.context) ?_ lines state state' h hrun
  intro state line last state' hP hstep
  rcases processLine_cases hstep with ⟨body, -, hrecord⟩ | ⟨-, -, -, hlines, hgrow⟩
  · exact hP.record hrecord
  · exact hP.grow hlines hgrow

/-- The statement of a line of the parser. -/
def LineBody.statement? : LineBody → Option Statement
  | .stmt statement => some statement
  | .dir _ => none

/-- The statement of a recorded line. -/
def PlacedBody.statement? : PlacedBody → Option Statement
  | .stmt statement => some statement
  | .raw _ => none

/-- **Every statement is recorded**, in the order of the source. -/
theorem statements_processLines : ∀ (lines : List Line) (state state' : DirectiveState),
    processLines state lines = .ok state' →
      state'.context.lines.filterMap (·.body.statement?)
        = state.context.lines.filterMap (·.body.statement?)
          ++ lines.filterMap (·.body.statement?)
  | [], state, state', h => by
      obtain rfl := Except.ok.inj h
      simp
  | line :: rest, state, state', h => by
      rw [processLines, bind_eq_ok] at h
      obtain ⟨next, hnext, h⟩ := h
      rw [statements_processLines rest next state' h, List.filterMap_cons]
      rcases processLine_cases hnext with ⟨body, hemits, hrecord⟩ | ⟨directive, hbody, -, hlines, -⟩
      · obtain ⟨-, hcontext⟩ := recordLine_eq_ok hrecord
        rw [hcontext, List.filterMap_append, List.append_assoc]
        obtain ⟨label, lineBody⟩ := line
        cases hemits with
        | stmt statement => rfl
        | raw type data_eq => rfl
      · rw [hlines, hbody]
        rfl

/-! ## Labels -/

/-- No two lines have the same label. -/
def DistinctLabels (lines : List PlacedLine) : Prop :=
  lines.Pairwise fun a b => ∀ name, a.label = some name → b.label ≠ some name

/-- **`asm_processLabels`** rejects a label that is defined twice. -/
theorem distinctLabels_of_processLabels {lines : List PlacedLine}
    {result : List LabelInfo × ℕ} (h : lines.foldlM processLabel ([], 0) = .ok result) :
    DistinctLabels lines := by
  have hinv := foldlM_induction (fun done (state : List LabelInfo × ℕ) =>
    DistinctLabels done ∧ ∀ line ∈ done, ∀ name, line.label = some name →
      state.1.any (·.name == name) = true) h ⟨.nil, fun _ h => by cases h⟩ ?_
  · exact hinv.1
  · rintro done line rest ⟨table, address⟩ state' - ⟨hdistinct, htable⟩ hstep
    unfold processLabel at hstep
    split at hstep
    · -- a line without a label
      rename_i hlabel
      obtain rfl := Except.ok.inj hstep
      refine ⟨List.pairwise_append.mpr ⟨hdistinct, List.pairwise_singleton _ _, ?_⟩, ?_⟩
      · intro a _ b hb name _
        rw [List.mem_singleton.mp hb, hlabel]
        exact fun heq => by cases heq
      · intro a ha name hname
        rcases List.mem_append.mp ha with ha | ha
        · exact htable a ha name hname
        · rw [List.mem_singleton.mp ha, hlabel] at hname
          cases hname
    · rename_i label hlabel
      simp only [bind_eq_ok, require_eq_ok] at hstep
      obtain ⟨-, hnew, hstep⟩ := hstep
      obtain rfl := Except.ok.inj hstep
      refine ⟨List.pairwise_append.mpr ⟨hdistinct, List.pairwise_singleton _ _, ?_⟩, ?_⟩
      · intro a ha b hb name hname
        rw [List.mem_singleton.mp hb, hlabel]
        rintro heq
        obtain rfl := Option.some.inj heq
        exact hnew (htable a ha label hname)
      · intro a ha name hname
        rcases List.mem_append.mp ha with ha | ha
        · simp [htable a ha name hname]
        · rw [List.mem_singleton.mp ha, hlabel] at hname
          simp [Option.some.inj hname]

/-- A label belongs to one line. -/
theorem DistinctLabels.eq {lines : List PlacedLine} (h : DistinctLabels lines) {a b : PlacedLine}
    (ha : a ∈ lines) (hb : b ∈ lines) {name : CString} (hname : a.label = some name)
    (hname' : b.label = some name) : a = b := by
  obtain ⟨i, ha⟩ := List.mem_iff_getElem?.mp ha
  obtain ⟨j, hb⟩ := List.mem_iff_getElem?.mp hb
  by_cases hij : i = j
  · subst hij
    exact Option.some.inj (ha.symm.trans hb)
  · rcases pairwise_getElem? h ha hb hij with hdistinct | hdistinct
    · exact absurd hname' (hdistinct name hname)
    · exact absurd hname (hdistinct name hname')

/-! ## Sources -/

/-- What holds of the context of an accepted source. -/
structure Assembled (context : AssemblerContext) : Prop where
  placement : Placement context
  labels : DistinctLabels context.lines

/-- **The context of a source**: its statements are those of the parsed lines, at places that do not
overlap, and its labels are distinct. -/
theorem assembleContext_placed {source : CString} {context : AssemblerContext}
    (h : assembleContext source = .ok context) :
    Assembled context ∧ ∃ tokens expanded lines, lexSource source = .ok tokens ∧
      macrosExpand tokens = .ok expanded ∧ parserParse expanded = .ok lines ∧
      context.lines.filterMap (·.body.statement?) = lines.filterMap (·.body.statement?) := by
  simp only [assembleContext, asmProcessDirectives, asmProcessLabels, bind_eq_ok] at h
  obtain ⟨tokens, htokens, expanded, hexpanded, lines, hlines, _, ⟨state, hstate, hcontext⟩, _,
    ⟨labels, hlabels, -⟩, h⟩ := h
  obtain rfl := Except.ok.inj hcontext
  obtain rfl := Except.ok.inj h
  exact ⟨⟨placement_asmInit.processLines hstate, distinctLabels_of_processLabels hlabels⟩,
    tokens, expanded, lines, htokens, hexpanded, hlines, statements_processLines _ _ _ hstate⟩

end Zlvm
