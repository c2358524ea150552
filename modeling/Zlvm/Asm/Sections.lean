import Zlvm.Asm.Trace
import Zlvm.Lib.Alignment

/-!
# The sections of a source

The context of the assembler as a table of sections by name, and what a line of the source does to
the section that is selected.

* `selectedSection` — the section that some lines leave selected, in terms of the source.
* `sectionOf` — the section of a name; one that was never selected is new.
* `SectionStep` — what a line does to the selected section; **`Processed.sectionStep`** — it does
  nothing to any other.
* `Reached.sections` — the selected section of a run is the one that the source says.
* `RecordedAt`, **`recordedAt_of_split`** — what is recorded of a line, and where.
-/

namespace Zlvm

open Loop

/-! ## The source -/

/-- The argument of a directive of the given type. -/
def Line.argument (line : Line) (type : DirectiveType) : Option Token :=
  match line.body with
  | .stmt _ => none
  | .dir directive =>
      if directive.type = type then some (directive.argv.headD directive.name) else none

/-- The section that a line leaves selected. -/
def Line.selects (line : Line) (name : CString) : CString :=
  ((line.argument .dirSection).map (·.value)).getD name

/-- The section that some lines leave selected. -/
def selectedSection (lines : List Line) : CString :=
  lines.foldl (fun name line => line.selects name) (CString.lit "text")

theorem selectedSection_concat (lines : List Line) (line : Line) :
    selectedSection (lines ++ [line]) = line.selects (selectedSection lines) := by
  rw [selectedSection, List.foldl_append]
  rfl

theorem argument_of_dir {line : Line} {directive : Directive} (h : line.body = .dir directive)
    (type : DirectiveType) :
    line.argument type
      = if directive.type = type then some (directive.argv.headD directive.name) else none := by
  rw [Line.argument, h]

/-- A line that emits has no argument of a directive that does not. -/
theorem argument_of_emits {line : Line} (h : line.emits = true) {type : DirectiveType}
    (htype : type.isData = false) : line.argument type = none := by
  unfold Line.emits at h
  unfold Line.argument
  split
  · rfl
  · rename_i directive hbody
    rw [hbody] at h
    rw [if_neg]
    rintro rfl
    exact Bool.false_ne_true (htype.symm.trans h)

/-! ## Sections by name -/

/-- The section of a name. -/
def sectionOf (context : AssemblerContext) (name : CString) : AsmSection :=
  (context.sections.find? (·.name == name)).getD (newSection name)

/-- No two sections have the same name, and each has the type that its name says. -/
structure SectionNames (context : AssemblerContext) : Prop where
  distinct : context.sections.Pairwise fun a b => a.name ≠ b.name
  type : ∀ s ∈ context.sections, s.type = (newSection s.name).type

section Names

variable {context : AssemblerContext} {name : CString}

/-- A section is found by its name. -/
theorem SectionNames.sectionOf_name (h : SectionNames context) {s : AsmSection}
    (hs : s ∈ context.sections) : sectionOf context s.name = s := by
  cases hfind : context.sections.find? (·.name == s.name) with
  | none =>
      have hnone := List.find?_eq_none.mp hfind s hs
      simp at hnone
  | some found =>
      have hname : found.name = s.name := by simpa using List.find?_some hfind
      obtain ⟨i, hi⟩ := List.mem_iff_getElem?.mp (List.mem_of_find?_eq_some hfind)
      obtain ⟨j, hj⟩ := List.mem_iff_getElem?.mp hs
      rw [sectionOf, hfind, Option.getD_some]
      by_cases hij : i = j
      · subst hij
        exact Option.some.inj (hi.symm.trans hj)
      · rcases pairwise_getElem? h.distinct hi hj hij with hne | hne
        · exact absurd hname hne
        · exact absurd hname.symm hne

theorem current_mem (context : AssemblerContext) : context.current ∈ context.sections :=
  List.getElem_mem context.selected

theorem SectionNames.sectionOf_current (h : SectionNames context) :
    sectionOf context context.current.name = context.current :=
  h.sectionOf_name (current_mem context)

/-- Selecting a section changes none. -/
theorem sectionOf_selectSection (context : AssemblerContext) (selected name : CString) :
    sectionOf (selectSection context selected) name = sectionOf context name := by
  unfold selectSection
  split
  · rfl
  · rename_i hnone
    have hother : ∀ s ∈ context.sections, s.name ≠ selected := by
      simpa using List.findIdx?_eq_none_iff.mp hnone
    rw [sectionOf, sectionOf]
    show ((context.sections ++ [newSection selected]).find? _).getD _ = _
    rw [List.find?_append]
    cases hfind : context.sections.find? (·.name == name) with
    | some s => rfl
    | none =>
        rw [Option.none_or, List.find?_singleton]
        split
        · rename_i hname
          rw [show selected = name by simpa [newSection] using hname]
          rfl
        · rfl

theorem current_selectSection (context : AssemblerContext) (selected : CString) :
    (selectSection context selected).current.name = selected := by
  unfold selectSection
  split
  · rename_i index hindex
    have hname := (List.findIdx?_eq_some_iff_getElem.mp hindex).2.1
    exact beq_iff_eq.mp hname
  · show ((context.sections ++ [newSection selected]).get ⟨context.sections.length, _⟩).name
      = selected
    rw [List.get_eq_getElem, List.getElem_append_right (Nat.le_refl _)]
    simp [newSection]

/-- Selecting a section may add one. -/
theorem map_name_selectSection (context : AssemblerContext) (selected : CString) :
    ∃ more, (selectSection context selected).sections.map (·.name)
      = context.sections.map (·.name) ++ more := by
  unfold selectSection
  split
  · exact ⟨[], (List.append_nil _).symm⟩
  · exact ⟨_, List.map_append⟩

theorem SectionNames.select (h : SectionNames context) (selected : CString) :
    SectionNames (selectSection context selected) := by
  unfold selectSection
  split
  · exact ⟨h.distinct, h.type⟩
  · rename_i hnone
    have hother : ∀ s ∈ context.sections, s.name ≠ selected := by
      simpa using List.findIdx?_eq_none_iff.mp hnone
    constructor
    · refine List.pairwise_append.mpr ⟨h.distinct, List.pairwise_singleton _ _, ?_⟩
      intro s hs t ht
      rw [List.mem_singleton.mp ht]
      exact hother s hs
    · intro s hs
      rcases List.mem_append.mp hs with hs | hs
      · exact h.type s hs
      · rw [List.mem_singleton.mp hs]
        rfl

theorem current_setCurrent (s : AsmSection) : (context.setCurrent s).current = s :=
  Option.some.inj (AssemblerContext.getElem?_current.symm.trans
    (List.getElem?_set_self context.selected))

/-- Replacing the current section by one of the same name keeps the names. -/
theorem map_name_setCurrent {s : AsmSection} (hname : s.name = context.current.name) :
    (context.setCurrent s).sections.map (·.name) = context.sections.map (·.name) := by
  show (context.sections.set context.currentSection s).map (·.name) = _
  rw [List.map_set, hname]
  refine List.ext_getElem? fun index => ?_
  rw [List.getElem?_set]
  split
  · rename_i hindex
    subst hindex
    rw [if_pos (by rw [List.length_map]; exact context.selected), List.getElem?_map,
      AssemblerContext.getElem?_current]
    rfl
  · rfl

theorem SectionNames.setCurrent (h : SectionNames context) {s : AsmSection}
    (hname : s.name = context.current.name) (htype : s.type = context.current.type) :
    SectionNames (context.setCurrent s) := by
  constructor
  · have hmap := map_name_setCurrent hname
    have hpairwise : ((context.setCurrent s).sections.map (·.name)).Pairwise (· ≠ ·) := by
      rw [hmap]
      exact List.pairwise_map.mpr h.distinct
    exact List.pairwise_map.mp hpairwise
  · intro t ht
    rcases List.mem_or_eq_of_mem_set ht with ht | rfl
    · exact h.type t ht
    · rw [htype, hname]
      exact h.type _ (current_mem context)

/-- A name that no section has. -/
theorem sectionOf_of_not_mem (h : ∀ s ∈ context.sections, s.name ≠ name) :
    sectionOf context name = newSection name := by
  rw [sectionOf, List.find?_eq_none.mpr fun s hs => by simpa using h s hs]
  rfl

/-- The current section is replaced by one of the same name. -/
theorem sectionOf_setCurrent (h : SectionNames context) {s : AsmSection}
    (hname : s.name = context.current.name) (htype : s.type = context.current.type)
    (name : CString) :
    sectionOf (context.setCurrent s) name
      = if name = context.current.name then s else sectionOf context name := by
  have hset := h.setCurrent hname htype
  split
  · rename_i hself
    have hmem : s ∈ (context.setCurrent s).sections := by
      have hcurrent := current_mem (context.setCurrent s)
      rw [current_setCurrent] at hcurrent
      exact hcurrent
    rw [hself, ← hname]
    exact hset.sectionOf_name hmem
  · rename_i hother
    by_cases hsome : ∃ t ∈ context.sections, t.name = name
    · obtain ⟨t, ht, rfl⟩ := hsome
      rw [h.sectionOf_name ht]
      obtain ⟨index, hindex⟩ := List.mem_iff_getElem?.mp ht
      have hne : context.currentSection ≠ index := by
        rintro rfl
        obtain rfl := Option.some.inj (hindex.symm.trans AssemblerContext.getElem?_current)
        exact hother rfl
      refine hset.sectionOf_name (List.mem_of_getElem? (i := index) ?_)
      exact (List.getElem?_set_ne hne).trans hindex
    · have hnone : ∀ t ∈ context.sections, t.name ≠ name := fun t ht hname =>
        hsome ⟨t, ht, hname⟩
      rw [sectionOf_of_not_mem hnone]
      refine sectionOf_of_not_mem fun t ht => ?_
      rcases List.mem_or_eq_of_mem_set ht with ht | rfl
      · exact hnone t ht
      · rw [hname]
        exact fun heq => hother heq.symm

end Names

/-! ## One line -/

/-- What a line does to the selected section. -/
inductive SectionStep (line : Line) (s : AsmSection) : AsmSection → Prop
  | emit (emits : line.emits = true) :
      SectionStep line s { s with size := s.size + line.emittedBytes }
  | align {argument : Token} {s' : AsmSection} (directive : line.argument .dirAlign = some argument)
      (aligned : alignSection s argument = .ok s') : SectionStep line s s'
  | locate {argument : Token} {s' : AsmSection}
      (directive : line.argument .dirLocate = some argument)
      (located : locateSection s argument = .ok s') : SectionStep line s s'
  | keep (silent : line.emits = false) (noAlign : line.argument .dirAlign = none)
      (noLocate : line.argument .dirLocate = none) : SectionStep line s s

/-- **`.align`** rounds the size of the section up to a power of two. -/
theorem alignSection_roundUp {s s' : AsmSection} {argument : Token}
    (h : alignSection s argument = .ok s') :
    ∃ k, k < 32 ∧ tokenGetIntValue argument = .ok (2 ^ k) ∧
      s'.size = Alignment.roundUp (2 ^ k) s.size ∧
      s'.alignment.toNat = max s.alignment.toNat (2 ^ k) := by
  simp only [alignSection, bind_eq_ok, require_eq_ok] at h
  obtain ⟨alignment, hvalue, -, ⟨hne, hle, hand⟩, -, -, -, -, h⟩ := h
  obtain rfl := Except.ok.inj h
  have hpow := Alignment.eq_two_pow_of_and_pred hne hand
  generalize Nat.log2 alignment = k at hpow
  subst hpow
  rw [uint32Max] at hle
  have hk : k < 32 := by
    rw [← Nat.pow_lt_pow_iff_right (Nat.lt_succ_self 1)]
    exact Nat.lt_of_le_of_lt hle (by norm_num)
  refine ⟨k, hk, hvalue, Alignment.add_padding s.size k, ?_⟩
  dsimp only
  split
  · rename_i hlt
    rw [UInt32.toNat_ofNat', Nat.mod_eq_of_lt (by omega), Nat.max_eq_right hlt.le]
  · rename_i hge
    rw [Nat.max_eq_left (Nat.not_lt.mp hge)]

theorem alignSection_fields {s s' : AsmSection} {argument : Token}
    (h : alignSection s argument = .ok s') :
    s'.name = s.name ∧ s'.type = s.type ∧ s'.address = s.address ∧ s'.flags = s.flags := by
  simp only [alignSection, bind_eq_ok] at h
  obtain ⟨alignment, -, -, -, -, -, -, -, h⟩ := h
  obtain rfl := Except.ok.inj h
  exact ⟨rfl, rfl, rfl, rfl⟩

theorem locateSection_fields {s s' : AsmSection} {argument : Token}
    (h : locateSection s argument = .ok s') :
    s'.name = s.name ∧ s'.type = s.type ∧ s'.alignment = s.alignment := by
  simp only [locateSection, bind_eq_ok] at h
  obtain ⟨address, -, -, -, moved, hmoved, -, -, h⟩ := h
  obtain rfl := Except.ok.inj h
  unfold moveSection at hmoved
  split at hmoved
  · obtain rfl := Except.ok.inj hmoved
    exact ⟨rfl, rfl, rfl⟩
  · simp only [bind_eq_ok] at hmoved
    obtain ⟨-, -, hmoved⟩ := hmoved
    obtain rfl := Except.ok.inj hmoved
    exact ⟨rfl, rfl, rfl⟩

theorem SectionStep.fields {line : Line} {s s' : AsmSection} (h : SectionStep line s s') :
    s'.name = s.name ∧ s'.type = s.type := by
  cases h with
  | emit => exact ⟨rfl, rfl⟩
  | align _ aligned => exact ⟨(alignSection_fields aligned).1, (alignSection_fields aligned).2.1⟩
  | locate _ located =>
      exact ⟨(locateSection_fields located).1, (locateSection_fields located).2.1⟩
  | keep => exact ⟨rfl, rfl⟩

/-- The alignment of a section stays a power of two and never becomes smaller. -/
theorem SectionStep.alignment {line : Line} {s s' : AsmSection} (h : SectionStep line s s') {j : ℕ}
    (hj : s.alignment.toNat = 2 ^ j) : ∃ k, j ≤ k ∧ s'.alignment.toNat = 2 ^ k := by
  cases h with
  | emit => exact ⟨j, Nat.le_refl _, hj⟩
  | align _ aligned =>
      obtain ⟨k, -, -, -, hmax⟩ := alignSection_roundUp aligned
      refine ⟨max j k, Nat.le_max_left _ _, ?_⟩
      rw [hmax, hj]
      exact (Monotone.map_max (f := fun n : ℕ => 2 ^ n) (pow_right_mono₀ (by norm_num))).symm
  | locate _ located => exact ⟨j, Nat.le_refl _, by rw [(locateSection_fields located).2.2, hj]⟩
  | keep => exact ⟨j, Nat.le_refl _, hj⟩

/-- What a line does to the sections: to the selected one only, and then it may select another. -/
structure Steps (line : Line) (context context' : AssemblerContext) : Prop where
  names : SectionNames context'
  current : context'.current.name = line.selects context.current.name
  step : SectionStep line context.current (sectionOf context' context.current.name)
  other : ∀ name, name ≠ context.current.name → sectionOf context' name = sectionOf context name
  kept : ∃ more, context'.sections.map (·.name) = context.sections.map (·.name) ++ more

/-- Replacing the current section. -/
theorem steps_setCurrent {line : Line} {context context' : AssemblerContext} {s : AsmSection}
    (hnames : SectionNames context) (hstep : SectionStep line context.current s)
    (hsilent : line.argument .dirSection = none)
    (hsections : context'.sections = (context.setCurrent s).sections)
    (hcurrent : context'.currentSection = context.currentSection) : Steps line context context' := by
  obtain ⟨hname, htype⟩ := hstep.fields
  have hset := hnames.setCurrent hname htype
  have hsame : ∀ name, sectionOf context' name = sectionOf (context.setCurrent s) name := by
    intro name
    rw [sectionOf, sectionOf, hsections]
  refine ⟨⟨hsections ▸ hset.distinct, hsections ▸ hset.type⟩, ?_, ?_, fun name hother => ?_,
    [], ?_⟩
  · have hget := @AssemblerContext.getElem?_current context'
    rw [hsections, hcurrent] at hget
    have hs := Option.some.inj (hget.symm.trans (List.getElem?_set_self context.selected))
    rw [hs, hname, Line.selects, hsilent]
    rfl
  · rw [hsame, sectionOf_setCurrent hnames hname htype, if_pos rfl]
    exact hstep
  · rw [hsame, sectionOf_setCurrent hnames hname htype, if_neg hother]
  · rw [hsections, map_name_setCurrent hname, List.append_nil]

/-- Leaving every section as it is. -/
theorem steps_same {line : Line} {context context' : AssemblerContext}
    (hnames : SectionNames context) (hsilent : line.emits = false)
    (hselect : line.argument .dirSection = none) (halign : line.argument .dirAlign = none)
    (hlocate : line.argument .dirLocate = none) (hsections : context'.sections = context.sections)
    (hcurrent : context'.currentSection = context.currentSection) : Steps line context context' := by
  refine steps_setCurrent hnames (.keep hsilent halign hlocate) hselect ?_ hcurrent
  rw [hsections]
  exact (List.set_getElem_self _).symm

/-- **One line** changes the selected section only. -/
theorem Processed.steps {state state' : DirectiveState} {line : Line} {last : Bool}
    (h : Processed state line last state') (hnames : SectionNames state.context) :
    Steps line state.context state'.context := by
  cases h with
  | emits emits body_eq recorded =>
      obtain ⟨-, hcontext⟩ := recordLine_eq_ok recorded
      rw [body_eq.size_eq] at hcontext
      exact steps_setCurrent hnames (.emit emits) (argument_of_emits emits rfl) (by rw [hcontext])
        (by rw [hcontext]; rfl)
  | applies silent body_eq valid applied =>
      rename_i directive
      have hargument := argument_of_dir body_eq
      generalize directive.type = type at hargument applied
      cases applied with
      | select supported =>
          refine ⟨hnames.select _, ?_, ?_, fun name _ => sectionOf_selectSection _ _ _,
            map_name_selectSection _ _⟩
          · rw [current_selectSection, Line.selects, hargument]
            rfl
          · rw [sectionOf_selectSection]
            show SectionStep line state.context.current
              (sectionOf state.context state.context.current.name)
            rw [hnames.sectionOf_current]
            exact .keep silent (hargument _) (hargument _)
      | align aligned =>
          exact steps_setCurrent hnames (.align (hargument _) aligned) (hargument _) rfl rfl
      | locate located =>
          exact steps_setCurrent hnames (.locate (hargument _) located) (hargument _) rfl rfl
      | proc more =>
          exact steps_same hnames silent (hargument _) (hargument _) (hargument _) rfl rfl
      | endProc =>
          exact steps_same hnames silent (hargument _) (hargument _) (hargument _) rfl rfl
      | declare declares sections current lines _ _ _ =>
          have hother : ∀ other : DirectiveType, other.declares = false →
              line.argument other = none := by
            intro other hother
            rw [hargument, if_neg]
            rintro rfl
            exact Bool.false_ne_true (hother.symm.trans declares)
          exact steps_same hnames silent (hother _ rfl) (hother _ rfl) (hother _ rfl) sections
            current

/-! ## A run -/

theorem sectionNames_asmInit : SectionNames asmInit where
  distinct := List.pairwise_singleton _ _
  type := by
    intro s hs
    rw [List.mem_singleton.mp hs]
    rfl

/-- **The selected section** is the one that the source says. -/
theorem Reached.sections {done : List Line} {state : DirectiveState} (h : Reached done state) :
    SectionNames state.context ∧ state.context.current.name = selectedSection done := by
  induction h with
  | init => exact ⟨sectionNames_asmInit, rfl⟩
  | step before processed ih =>
      have hsteps := processed.steps ih.1
      refine ⟨hsteps.names, ?_⟩
      rw [hsteps.current, selectedSection_concat, ih.2]

/-- No line makes the alignment of a section smaller. -/
theorem Processed.alignment {state state' : DirectiveState} {line : Line} {last : Bool}
    (h : Processed state line last state') (hnames : SectionNames state.context) {name : CString}
    {j : ℕ} (hj : (sectionOf state.context name).alignment.toNat = 2 ^ j) :
    ∃ k, j ≤ k ∧ (sectionOf state'.context name).alignment.toNat = 2 ^ k := by
  have hsteps := h.steps hnames
  by_cases hname : name = state.context.current.name
  · subst hname
    rw [hnames.sectionOf_current] at hj
    exact hsteps.step.alignment hj
  · rw [hsteps.other name hname]
    exact ⟨j, Nat.le_refl _, hj⟩

/-- Every section has a power of two as its alignment. -/
theorem Reached.alignment {done : List Line} {state : DirectiveState} (h : Reached done state)
    (name : CString) : ∃ k, (sectionOf state.context name).alignment.toNat = 2 ^ k := by
  induction h with
  | init =>
      refine ⟨0, ?_⟩
      rw [sectionOf, directiveInit, asmInit, List.find?_singleton]
      split <;> rfl
  | step before processed ih =>
      obtain ⟨j, hj⟩ := ih
      obtain ⟨k, -, hk⟩ := processed.alignment before.sections.1 hj
      exact ⟨k, hk⟩

/-- **The names of the sections stay**, in their order. -/
theorem sectionNames_of_processLines {lines : List Line} {state final : DirectiveState}
    (hnames : SectionNames state.context) (h : processLines state lines = .ok final) :
    SectionNames final.context ∧ ∃ more,
      final.context.sections.map (·.name) = state.context.sections.map (·.name) ++ more := by
  refine processLines_induction (fun current => SectionNames current.context ∧ ∃ more,
    current.context.sections.map (·.name) = state.context.sections.map (·.name) ++ more) ?_
    lines state final ⟨hnames, [], (List.append_nil _).symm⟩ h
  rintro current line last next ⟨hcurrent, more, hmore⟩ hnext
  have hsteps := (processLine_eq_ok hnext).steps hcurrent
  obtain ⟨more', hmore'⟩ := hsteps.kept
  exact ⟨hsteps.names, more ++ more', by rw [hmore', hmore, List.append_assoc]⟩

/-! ## Recorded lines -/

/-- What is recorded of a line of the source, which `before` precedes. -/
structure RecordedAt (before : List Line) (line : Line) (final mid : DirectiveState)
    (r : PlacedLine) : Prop where
  reached : Reached before mid
  listed : final.context.lines[emittedCount before]? = some r
  label : r.label = lineLabel mid line
  body : Emits line.body r.body
  /-- It lies where its section ended. -/
  offset : r.sectionOffset = (sectionOf mid.context (selectedSection before)).size
  /-- Its section is the one that was selected. -/
  named : ∃ s, final.context.sections[r.sectionIndex]? = some s ∧ s.name = selectedSection before
  /-- In a raw image it begins after what was emitted before. -/
  rawPosition : rawOffset final.context.lines (emittedCount before) = emittedBytes before

/-- **What is recorded of a line that emits.** -/
theorem recordedAt_of_split {before after : List Line} {line : Line} {final : DirectiveState}
    (h : processLines directiveInit (before ++ line :: after) = .ok final)
    (hemits : line.emits = true) : ∃ mid r, RecordedAt before line final mid r := by
  obtain ⟨mid, next, hmid, hprocessed, -, hafter⟩ := processLines_split h
  obtain ⟨hcount, hoffset⟩ := hmid.emitted
  obtain ⟨hnames, hcurrent⟩ := hmid.sections
  obtain ⟨more, hmore⟩ := lines_of_processLines hafter
  have hsteps := hprocessed.steps hnames
  obtain ⟨names, hkept⟩ := hsteps.kept
  obtain ⟨-, names', hkept'⟩ := sectionNames_of_processLines hsteps.names hafter
  rcases hprocessed.lines_eq with ⟨-, body, hbody, hlines⟩ | ⟨hsilent, -⟩
  · have hnamed : (final.context.sections.map (·.name))[mid.context.currentSection]?
        = some (selectedSection before) := by
      have hlt : mid.context.currentSection < (mid.context.sections.map (·.name)).length := by
        rw [List.length_map]
        exact mid.context.selected
      rw [hkept', hkept, List.append_assoc, List.getElem?_append_left hlt, List.getElem?_map,
        AssemblerContext.getElem?_current, Option.map_some, hcurrent]
    rw [List.getElem?_map, Option.map_eq_some_iff] at hnamed
    refine ⟨mid, ⟨lineLabel mid line, body, mid.context.currentSection, mid.context.current.size⟩,
      hmid, ?_, rfl, hbody, ?_, hnamed, ?_⟩
    · rw [hmore, hlines, List.append_assoc, ← hcount, List.getElem?_append_right (Nat.le_refl _),
        Nat.sub_self]
      rfl
    · rw [← hcurrent, hnames.sectionOf_current]
    · rw [hmore, hlines, List.append_assoc, ← hcount, rawOffset_append (Nat.le_refl _), hoffset]
  · rw [hemits] at hsilent
    cases hsilent

/-- Every recorded line comes from a line of the source. -/
theorem exists_recordedAt {lines : List Line} {final : DirectiveState} {k : ℕ} {r : PlacedLine}
    (h : processLines directiveInit lines = .ok final) (hr : final.context.lines[k]? = some r) :
    ∃ before line after mid, lines = before ++ line :: after ∧ line.emits = true ∧
      emittedCount before = k ∧ RecordedAt before line final mid r := by
  have hlt := (List.getElem?_eq_some_iff.mp hr).1
  have hcount := (Reached.init.processLines h).emitted.1
  rw [List.nil_append] at hcount
  rw [hcount] at hlt
  obtain ⟨before, line, after, rfl, hemits, rfl⟩ := exists_split_of_lt hlt
  obtain ⟨mid, r', hrecorded⟩ := recordedAt_of_split h hemits
  obtain rfl := Option.some.inj (hr.symm.trans hrecorded.listed)
  exact ⟨before, line, after, mid, rfl, hemits, rfl, hrecorded⟩

end Zlvm
