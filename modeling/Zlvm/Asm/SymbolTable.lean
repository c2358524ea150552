import Zlvm.Asm.Object

/-!
# The symbols of an object

The four loops that build the symbol table of an object, in closed form.

* `foldl_addLabel` — one symbol for each label; `foldlM_addGlobal` — the declared ones become
  global; `foldl_addExternal` — external names that are not there yet are added.
* **`symbol_cases`**, **`exists_symbol`** — the table holds the labels, and the external names that
  no line defines.
-/

namespace Zlvm

open Loop

/-! ## Searching -/

section Search

variable {symbols : List ZlImageSymbol} {name : CString}

theorem findImageSymbol_eq_none :
    findImageSymbol symbols name = none ↔ ∀ y ∈ symbols, y.name ≠ some name := by
  rw [findImageSymbol, List.findIdx?_eq_none_iff]
  simp only [beq_eq_false_iff_ne, ne_eq]

theorem findImageSymbol_eq_some {index : ℕ} (h : findImageSymbol symbols name = some index) :
    ∃ y, symbols[index]? = some y ∧ y.name = some name := by
  rw [findImageSymbol, List.findIdx?_eq_some_iff_getElem] at h
  obtain ⟨hlt, hname, -⟩ := h
  exact ⟨_, List.getElem?_eq_getElem hlt, by simpa using hname⟩

end Search

/-! ## Labels -/

/-- The symbols of the labels of some lines. -/
def labelSymbols (sections : List AsmSection) (lines : List PlacedLine) : List ZlImageSymbol :=
  lines.filterMap fun line => line.label.map (labelSymbol sections line)

theorem mem_labelSymbols {sections : List AsmSection} {lines : List PlacedLine}
    {y : ZlImageSymbol} : y ∈ labelSymbols sections lines ↔
      ∃ line ∈ lines, ∃ name, line.label = some name ∧ y = labelSymbol sections line name := by
  simp only [labelSymbols, List.mem_filterMap, Option.map_eq_some_iff]
  exact exists_congr fun _ => and_congr_right fun _ => exists_congr fun _ =>
    and_congr_right fun _ => eq_comm

/-- The loop over the labels. -/
theorem foldl_addLabel (sections : List AsmSection) {lines : List PlacedLine}
    (h : DistinctLabels lines) :
    lines.foldl (addLabel sections) [] = labelSymbols sections lines := by
  refine foldl_induction (fun done symbols => symbols = labelSymbols sections done) rfl ?_
  rintro done line rest symbols hlines rfl
  have happend : labelSymbols sections (done ++ [line])
      = labelSymbols sections done ++ (line.label.map (labelSymbol sections line)).toList := by
    rw [labelSymbols, List.filterMap_append, List.filterMap_cons, List.filterMap_nil]
    cases line.label.map (labelSymbol sections line) <;> rfl
  rw [happend]
  unfold addLabel
  cases hlabel : line.label with
  | none => simp
  | some name =>
      -- the labels of the lines before are other ones
      have hnone : findImageSymbol (labelSymbols sections done) name = none := by
        refine findImageSymbol_eq_none.mpr fun y hy hname => ?_
        obtain ⟨earlier, hearlier, name', hlabel', rfl⟩ := mem_labelSymbols.mp hy
        obtain rfl := Option.some.inj hname
        rw [hlines, DistinctLabels, List.pairwise_append] at h
        exact h.2.2 earlier hearlier line List.mem_cons_self _ hlabel' hlabel
      simp [hnone]

/-- No two symbols of labels have the same name. -/
theorem labelSymbols_distinct (sections : List AsmSection) {lines : List PlacedLine}
    (h : DistinctLabels lines) :
    (labelSymbols sections lines).Pairwise fun a b => a.name ≠ b.name := by
  rw [labelSymbols, List.pairwise_filterMap]
  refine h.imp fun {a b} hab y hy y' hy' => ?_
  obtain ⟨name, hname, rfl⟩ := Option.map_eq_some_iff.mp hy
  obtain ⟨name', hname', rfl⟩ := Option.map_eq_some_iff.mp hy'
  rintro heq
  obtain rfl := Option.some.inj heq
  exact hab _ hname hname'

/-! ## Global names -/

/-- A symbol after some names have been declared global. -/
def markGlobal (globals : List CString) (y : ZlImageSymbol) : ZlImageSymbol :=
  if y.name ∈ globals.map some then { y with binding := symbolGlobal } else y

@[simp] theorem name_markGlobal (globals : List CString) (y : ZlImageSymbol) :
    (markGlobal globals y).name = y.name := by
  unfold markGlobal
  split <;> rfl

theorem markGlobal_concat_self {globals : List CString} {name : CString} {y : ZlImageSymbol}
    (h : y.name = some name) :
    markGlobal (globals ++ [name]) y = { markGlobal globals y with binding := symbolGlobal } := by
  unfold markGlobal
  rw [if_pos (by simp [h])]
  split <;> rfl

theorem markGlobal_concat_of_ne {globals : List CString} {name : CString} {y : ZlImageSymbol}
    (h : y.name ≠ some name) : markGlobal (globals ++ [name]) y = markGlobal globals y := by
  unfold markGlobal
  simp [h]

/-- The loop over the global names. -/
theorem foldlM_addGlobal {symbols result : List ZlImageSymbol} {globals : List CString}
    (hdistinct : symbols.Pairwise fun a b => a.name ≠ b.name)
    (h : globals.foldlM addGlobal symbols = .ok result) :
    result = symbols.map (markGlobal globals) := by
  refine foldlM_induction (fun done current => current = symbols.map (markGlobal done)) h ?_ ?_
  · exact (List.map_id _).symm
  · rintro done name rest current current' - rfl hstep
    unfold addGlobal at hstep
    split at hstep
    · cases hstep
    · rename_i index hindex
      obtain rfl := Except.ok.inj hstep
      obtain ⟨marked, hmarked, hname⟩ := findImageSymbol_eq_some hindex
      rw [List.getElem?_map, Option.map_eq_some_iff] at hmarked
      obtain ⟨y, hy, rfl⟩ := hmarked
      rw [name_markGlobal] at hname
      refine List.ext_getElem? fun j => ?_
      rw [List.getElem?_modify, List.getElem?_map, List.getElem?_map]
      by_cases hj : index = j
      · subst hj
        simp [hy, markGlobal_concat_self hname]
      · cases hz : symbols[j]? with
        | none => rfl
        | some z =>
            have hne : z.name ≠ some name := by
              rw [← hname]
              rcases pairwise_getElem? hdistinct hz hy (Ne.symm hj) with hne | hne
              · exact hne
              · exact hne.symm
            simp [hj, markGlobal_concat_of_ne hne]

/-! ## External names -/

/-- The loop over the external names keeps what is there and adds names that are not. -/
theorem foldl_addExternal (symbols : List ZlImageSymbol) (externals : List CString) :
    ∃ added, externals.foldl addExternal symbols = symbols ++ added ∧
      ∀ y ∈ added, ∃ name ∈ externals, y = externalSymbol name ∧
        ∀ z ∈ symbols, z.name ≠ some name := by
  refine foldl_induction (fun done current => ∃ added, current = symbols ++ added ∧
    ∀ y ∈ added, ∃ name ∈ done, y = externalSymbol name ∧ ∀ z ∈ symbols, z.name ≠ some name)
    ⟨[], (List.append_nil _).symm, fun _ h => (by cases h)⟩ ?_
  rintro done name rest current - ⟨added, rfl, hadded⟩
  unfold addExternal
  split
  · refine ⟨added, rfl, fun y hy => ?_⟩
    obtain ⟨name', hname', hy'⟩ := hadded y hy
    exact ⟨name', List.mem_append_left _ hname', hy'⟩
  · rename_i hnone
    refine ⟨added ++ [externalSymbol name], List.append_assoc _ _ _, fun y hy => ?_⟩
    rcases List.mem_append.mp hy with hy | hy
    · obtain ⟨name', hname', hy'⟩ := hadded y hy
      exact ⟨name', List.mem_append_left _ hname', hy'⟩
    · refine ⟨name, by simp, List.mem_singleton.mp hy, fun z hz => ?_⟩
      exact findImageSymbol_eq_none.mp hnone z (List.mem_append_left _ hz)

/-- That loop keeps the names distinct, and afterwards every external name has a symbol. -/
theorem foldl_addExternal_distinct {symbols : List ZlImageSymbol} (externals : List CString)
    (h : symbols.Pairwise fun a b => a.name ≠ b.name) :
    (externals.foldl addExternal symbols).Pairwise (fun a b => a.name ≠ b.name) ∧
      ∀ name ∈ externals, ∃ y ∈ externals.foldl addExternal symbols, y.name = some name := by
  refine foldl_induction (fun done (current : List ZlImageSymbol) =>
    current.Pairwise (fun a b => a.name ≠ b.name) ∧
      ∀ name ∈ done, ∃ y ∈ current, y.name = some name) ⟨h, fun _ hname => (by cases hname)⟩ ?_
  rintro done name rest current - ⟨hdistinct, hnames⟩
  unfold addExternal
  split
  · rename_i index hindex
    obtain ⟨found, hfound, hname⟩ := findImageSymbol_eq_some hindex
    refine ⟨hdistinct, fun name' hname' => ?_⟩
    rcases List.mem_append.mp hname' with hname' | hname'
    · exact hnames name' hname'
    · rw [List.mem_singleton.mp hname']
      exact ⟨found, List.mem_of_getElem? hfound, hname⟩
  · rename_i hnone
    constructor
    · refine List.pairwise_append.mpr ⟨hdistinct, List.pairwise_singleton _ _, ?_⟩
      intro y hy z hz
      rw [List.mem_singleton.mp hz]
      exact findImageSymbol_eq_none.mp hnone y hy
    · intro name' hname'
      rcases List.mem_append.mp hname' with hname' | hname'
      · obtain ⟨y, hy, hyname⟩ := hnames name' hname'
        exact ⟨y, List.mem_append_left _ hy, hyname⟩
      · rw [List.mem_singleton.mp hname']
        exact ⟨externalSymbol name, by simp, rfl⟩

/-! ## The table -/

/-- The symbol of a label in the finished table. -/
def definedSymbol (context : AssemblerContext) (line : PlacedLine) (name : CString) :
    ZlImageSymbol :=
  markGlobal context.globals (labelSymbol context.sections line name)

section Table

variable {context : AssemblerContext} {symbols : List ZlImageSymbol}

/-- The finished table: the labels, then the external names that no line defines. -/
theorem objectSymbols_eq_ok (hlabels : DistinctLabels context.lines)
    (h : objectSymbols context = .ok symbols) :
    ∃ added, symbols = (labelSymbols context.sections context.lines).map
        (markGlobal context.globals) ++ added ∧
      ∀ y ∈ added, ∃ name ∈ context.externals, y = externalSymbol name ∧
        ∀ line ∈ context.lines, line.label ≠ some name := by
  simp only [objectSymbols, bind_eq_ok, foldl_addLabel _ hlabels] at h
  obtain ⟨marked, hmarked, h⟩ := h
  obtain rfl := Except.ok.inj h
  obtain rfl := foldlM_addGlobal (labelSymbols_distinct _ hlabels) hmarked
  obtain ⟨added, hadded, hnames⟩ := foldl_addExternal
    ((labelSymbols context.sections context.lines).map (markGlobal context.globals))
    context.externals
  refine ⟨added, hadded, fun y hy => ?_⟩
  obtain ⟨name, hname, rfl, hnew⟩ := hnames y hy
  refine ⟨name, hname, rfl, fun line hline hlabel => ?_⟩
  refine hnew _ (List.mem_map_of_mem (mem_labelSymbols.mpr ⟨line, hline, name, hlabel, rfl⟩)) ?_
  rw [name_markGlobal]
  rfl

/-- **What a symbol of an object is**: a label of a line, or a name declared external that no line
defines. -/
theorem symbol_cases (hlabels : DistinctLabels context.lines)
    (h : objectSymbols context = .ok symbols) {y : ZlImageSymbol} (hy : y ∈ symbols) :
    (∃ line ∈ context.lines, ∃ name, line.label = some name ∧
      y = definedSymbol context line name) ∨
    (∃ name ∈ context.externals, y = externalSymbol name ∧
      ∀ line ∈ context.lines, line.label ≠ some name) := by
  obtain ⟨added, rfl, hadded⟩ := objectSymbols_eq_ok hlabels h
  rcases List.mem_append.mp hy with hy | hy
  · obtain ⟨y, hlabel, rfl⟩ := List.mem_map.mp hy
    obtain ⟨line, hline, name, hname, rfl⟩ := mem_labelSymbols.mp hlabel
    exact .inl ⟨line, hline, name, hname, rfl⟩
  · exact .inr (hadded y hy)

/-- **Every label has its symbol.** -/
theorem exists_symbol (hlabels : DistinctLabels context.lines)
    (h : objectSymbols context = .ok symbols) {line : PlacedLine} (hline : line ∈ context.lines)
    {name : CString} (hname : line.label = some name) :
    definedSymbol context line name ∈ symbols := by
  obtain ⟨added, rfl, -⟩ := objectSymbols_eq_ok hlabels h
  refine List.mem_append_left _ (List.mem_map_of_mem ?_)
  exact mem_labelSymbols.mpr ⟨line, hline, name, hname, rfl⟩

/-! ## Fields of a label's symbol -/

@[simp] theorem name_definedSymbol (line : PlacedLine) (name : CString) :
    (definedSymbol context line name).name = some name := by
  rw [definedSymbol, name_markGlobal]
  rfl

/-- The finished table is what the loop over the external names makes of the labels. -/
theorem objectSymbols_eq_foldl (hlabels : DistinctLabels context.lines)
    (h : objectSymbols context = .ok symbols) :
    ∃ defined : List ZlImageSymbol, defined.Pairwise (fun a b => a.name ≠ b.name) ∧
      symbols = context.externals.foldl addExternal defined := by
  simp only [objectSymbols, bind_eq_ok, foldl_addLabel _ hlabels] at h
  obtain ⟨marked, hmarked, h⟩ := h
  have hdistinct := labelSymbols_distinct context.sections hlabels
  obtain rfl := foldlM_addGlobal hdistinct hmarked
  refine ⟨_, List.pairwise_map.mpr (hdistinct.imp fun {a b} hab => ?_), (Except.ok.inj h).symm⟩
  rw [name_markGlobal, name_markGlobal]
  exact hab

/-- **No two symbols have the same name.** -/
theorem objectSymbols_distinct (hlabels : DistinctLabels context.lines)
    (h : objectSymbols context = .ok symbols) :
    symbols.Pairwise fun a b => a.name ≠ b.name := by
  obtain ⟨defined, hdistinct, rfl⟩ := objectSymbols_eq_foldl hlabels h
  exact (foldl_addExternal_distinct context.externals hdistinct).1

/-- **Every external name that no line defines has its symbol.** -/
theorem exists_externalSymbol (hlabels : DistinctLabels context.lines)
    (h : objectSymbols context = .ok symbols) {name : CString} (hname : name ∈ context.externals)
    (hundefined : ∀ line ∈ context.lines, line.label ≠ some name) :
    externalSymbol name ∈ symbols := by
  obtain ⟨y, hy, hyname⟩ : ∃ y ∈ symbols, y.name = some name := by
    obtain ⟨defined, hdistinct, rfl⟩ := objectSymbols_eq_foldl hlabels h
    exact (foldl_addExternal_distinct context.externals hdistinct).2 name hname
  rcases symbol_cases hlabels h hy with ⟨line, hline, label, hlabel, rfl⟩ | ⟨label, -, rfl, -⟩
  · rw [name_definedSymbol] at hyname
    exact absurd (hlabel.trans hyname) (hundefined line hline)
  · rw [← Option.some.inj hyname]
    exact hy

/-- A label is global exactly if it has been declared so. -/
theorem binding_definedSymbol (line : PlacedLine) (name : CString) :
    (definedSymbol context line name).binding = symbolGlobal ↔ name ∈ context.globals := by
  unfold definedSymbol markGlobal
  split
  · rename_i hmem
    exact iff_of_true rfl (by simpa [labelSymbol] using hmem)
  · rename_i hmem
    have hlocal : (labelSymbol context.sections line name).binding ≠ symbolGlobal := by
      show symbolLocal ≠ symbolGlobal
      decide
    exact iff_of_false hlocal (by simpa [labelSymbol] using hmem)

/-- Where a label's symbol lies, for a context whose numbers fit 32 bits. -/
theorem definedSymbol_place (hplacement : Placement context)
    (hcount : context.sections.length ≤ uint32Max) {line : PlacedLine}
    (hline : line ∈ context.lines) (name : CString) :
    (definedSymbol context line name).sectionIndex ≠ undefinedSection ∧
      (definedSymbol context line name).sectionIndex.toNat = line.sectionIndex ∧
      (definedSymbol context line name).value.toNat = line.sectionOffset := by
  obtain ⟨s, hs, hinside⟩ := hplacement.inside line hline
  have hlt := (List.getElem?_eq_some_iff.mp hs).1
  have hrange := hplacement.inRom s (List.mem_of_getElem? hs)
  rw [AsmSection.InRom, romSize] at hrange
  rw [uint32Max] at hcount
  have hindex : (definedSymbol context line name).sectionIndex
      = UInt32.ofNat line.sectionIndex := by
    unfold definedSymbol markGlobal
    split <;> rfl
  have hvalue : (definedSymbol context line name).value = UInt32.ofNat line.sectionOffset := by
    unfold definedSymbol markGlobal
    split <;> rfl
  have htoNat : (UInt32.ofNat line.sectionIndex).toNat = line.sectionIndex := by
    rw [UInt32.toNat_ofNat', Nat.mod_eq_of_lt (by omega)]
  refine ⟨fun hundefined => ?_, by rw [hindex, htoNat], ?_⟩
  · rw [hindex] at hundefined
    have hmax : undefinedSection.toNat = 4294967295 := rfl
    rw [hundefined, hmax] at htoNat
    omega
  · rw [hvalue, UInt32.toNat_ofNat', Nat.mod_eq_of_lt (by omega)]

end Table

end Zlvm
