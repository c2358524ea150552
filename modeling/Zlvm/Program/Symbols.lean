import Zlvm.Lib.Lockstep
import Zlvm.Program.Objects

/-!
# The symbol table of an object

What the decoded object of a source says about the names of the source.

* `declared` — the names that the directives of one type declare; `processLines_declared` — the
  context holds them.
* `Once` — a table has one symbol of a name.
* `SymbolsCorrect` — the table against the source.
* **`symbolsCorrect_of_assembles`** — every object has such a table.
-/

namespace Zlvm

open Loop

/-! ## Declarations -/

/-- The names that the directives of a type declare first. -/
def declared (type : DirectiveType) (lines : List Line) : List CString :=
  lines.filterMap fun line => (line.argument type).map (·.value)

theorem selectSection_declarations (context : AssemblerContext) (name : CString) :
    (selectSection context name).globals = context.globals ∧
      (selectSection context name).externals = context.externals := by
  unfold selectSection
  split <;> exact ⟨rfl, rfl⟩

/-- What a directive adds to the declared names. -/
theorem applyDirective_declared {state state' : DirectiveState} {directive : Directive}
    {argument : Token} {last : Bool}
    (h : applyDirective state directive argument last = .ok state') :
    state'.context.globals = state.context.globals
        ++ (if directive.type = .dirGlobal then [argument.value] else []) ∧
      state'.context.externals = state.context.externals
        ++ (if directive.type = .dirExtern then [argument.value] else []) := by
  unfold applyDirective at h
  cases htype : directive.type <;> rw [htype] at h <;> simp only at h
  case dirSection =>
    simp only [bind_eq_ok] at h
    obtain ⟨-, -, h⟩ := h
    obtain rfl := Except.ok.inj h
    simpa using selectSection_declarations state.context argument.value
  case dirGlobal | dirExtern | dirEntry | dirEndProc | dirMacro | dirEndMacro =>
    obtain rfl := Except.ok.inj h
    simp
  case dirAlign | dirLocate | dirProc =>
    simp only [bind_eq_ok] at h
    obtain ⟨_, -, h⟩ := h
    obtain rfl := Except.ok.inj h
    simp [AssemblerContext.setCurrent]
  all_goals cases h

/-- What a line adds to the declared names. -/
theorem processLine_declared {state state' : DirectiveState} {line : Line} {last : Bool}
    (h : processLine state line last = .ok state') :
    state'.context.globals = state.context.globals ++ declared .dirGlobal [line] ∧
      state'.context.externals = state.context.externals ++ declared .dirExtern [line] := by
  have hrecord : ∀ {label : Option CString} {body : PlacedBody} {context : AssemblerContext},
      recordLine state.context label body = .ok context →
        context.globals = state.context.globals ∧ context.externals = state.context.externals := by
    intro label body context hcontext
    obtain ⟨-, rfl⟩ := recordLine_eq_ok hcontext
    exact ⟨rfl, rfl⟩
  unfold processLine at h
  split at h
  · rename_i statement hbody
    rw [bind_eq_ok] at h
    obtain ⟨context, hcontext, h⟩ := h
    obtain rfl := Except.ok.inj h
    simpa [declared, Line.argument, hbody] using hrecord hcontext
  · rename_i directive hbody
    rw [bind_eq_ok] at h
    obtain ⟨-, -, h⟩ := h
    have hdeclared : ∀ type, declared type [line]
        = if directive.type = type then [(directive.argv.headD directive.name).value] else [] := by
      intro type
      rw [declared, List.filterMap_cons, argument_of_dir hbody, List.filterMap_nil]
      by_cases htype : directive.type = type <;> simp [htype]
    rw [hdeclared, hdeclared]
    split at h
    · rename_i hdata
      simp only [bind_eq_ok] at h
      obtain ⟨data, -, context, hcontext, h⟩ := h
      obtain rfl := Except.ok.inj h
      have hne : ∀ type : DirectiveType, type.isData = false → directive.type ≠ type := by
        rintro type htype rfl
        exact Bool.false_ne_true (htype.symm.trans hdata)
      rw [if_neg (hne _ rfl), if_neg (hne _ rfl), List.append_nil, List.append_nil]
      exact hrecord hcontext
    · exact @applyDirective_declared { state with opens := false } _ _ _ _ h

/-- **The declared names** of a run are those of its lines, in their order. -/
theorem processLines_declared : ∀ {lines : List Line} {state final : DirectiveState},
    processLines state lines = .ok final →
      final.context.globals = state.context.globals ++ declared .dirGlobal lines ∧
        final.context.externals = state.context.externals ++ declared .dirExtern lines
  | [], state, final, h => by
      obtain rfl := Except.ok.inj h
      exact ⟨(List.append_nil _).symm, (List.append_nil _).symm⟩
  | line :: rest, state, final, h => by
      rw [processLines, bind_eq_ok] at h
      obtain ⟨next, hnext, h⟩ := h
      obtain ⟨hglobals, hexternals⟩ := processLines_declared h
      obtain ⟨hglobals', hexternals'⟩ := processLine_declared hnext
      have hcons : ∀ type, declared type [line] ++ declared type rest
          = declared type (line :: rest) := fun type => by
        rw [declared, declared, declared, ← List.filterMap_append, List.singleton_append]
      rw [hglobals, hexternals, hglobals', hexternals', List.append_assoc, List.append_assoc, hcons,
        hcons]
      exact ⟨rfl, rfl⟩

/-! ## The table -/

/-- The only symbol of its name. -/
def Once (symbols : List ZlImageSymbol) (y : ZlImageSymbol) : Prop :=
  symbols.filter (·.name == y.name) = [y]

theorem once_of_distinct {symbols : List ZlImageSymbol} {y : ZlImageSymbol}
    (h : symbols.Pairwise fun a b => a.name ≠ b.name) (hy : y ∈ symbols) : Once symbols y := by
  obtain ⟨before, after, rfl⟩ := List.append_of_mem hy
  obtain ⟨-, hafter, hbefore⟩ := List.pairwise_append.mp h
  rw [Once, List.filter_append, List.filter_eq_nil_iff.mpr, List.nil_append,
    List.filter_cons_of_pos (by simp), List.filter_eq_nil_iff.mpr]
  · intro z hz
    rw [beq_iff_eq]
    exact ((List.pairwise_cons.mp hafter).1 z hz).symm
  · intro z hz
    rw [beq_iff_eq]
    exact hbefore z hz y List.mem_cons_self

/-- The symbols of an object, and the symbols that its relocations name, against the lines of the
source and the recorded ones. -/
structure SymbolsCorrect (lines : List Line) (context : AssemblerContext) (image : ZlImage) :
    Prop where
  distinct : image.symbols.Pairwise fun a b => a.name ≠ b.name
  /-- A label of a recorded line is a symbol of the section and the offset of the line. -/
  label : ∀ line ∈ context.lines, ∀ name, line.label = some name → ∃ y s,
    Once image.symbols y ∧ y.name = some name ∧ y.sectionIndex.toNat = line.sectionIndex ∧
    y.value.toNat = line.sectionOffset ∧ context.sections[line.sectionIndex]? = some s ∧
    y.type = (if s.type = sectionText then symbolFunction else symbolObject) ∧
    y.binding = if name ∈ declared .dirGlobal lines then symbolGlobal else symbolLocal
  /-- An external name that no recorded line defines is an undefined symbol. -/
  external : ∀ name ∈ declared .dirExtern lines, (∀ line ∈ context.lines, line.label ≠ some name) →
    Once image.symbols (externalSymbol name)
  /-- There is no other symbol. -/
  nothingElse : ∀ y ∈ image.symbols,
    (∃ line ∈ context.lines, line.label.isSome = true ∧ y.name = line.label) ∨
    ∃ name ∈ declared .dirExtern lines, (∀ line ∈ context.lines, line.label ≠ some name) ∧
      y = externalSymbol name
  /-- A relocation names the symbol of the label that its instruction refers to. -/
  relocation : ∀ r ∈ image.relocations, ∃ line ∈ context.lines, ∃ statement token y,
    line.body = .stmt statement ∧ r.sectionIndex.toNat = line.sectionIndex ∧
    r.offset.toNat = line.sectionOffset + 4 ∧ statement.imm = some token ∧
    token.type = .labelUse ∧ image.symbols[r.symbolIndex.toNat]? = some y ∧
    y.name = some token.value

section Table

variable {context : AssemblerContext} {image : ZlImage}

/-- The type and the binding of a label's symbol. -/
theorem definedSymbol_kind {line : PlacedLine} {s : AsmSection}
    (hs : context.sections[line.sectionIndex]? = some s) (name : CString) :
    (definedSymbol context line name).type
        = (if s.type = sectionText then symbolFunction else symbolObject) ∧
      (definedSymbol context line name).binding
        = if name ∈ context.globals then symbolGlobal else symbolLocal := by
  have htype : (labelSymbol context.sections line name).type
      = if s.type = sectionText then symbolFunction else symbolObject := by
    rw [labelSymbol, hs, Option.any_some]
    simp only [beq_iff_eq]
  have hmem : (labelSymbol context.sections line name).name ∈ context.globals.map some ↔
      name ∈ context.globals := by
    rw [labelSymbol]
    simp
  unfold definedSymbol markGlobal
  rw [if_congr hmem rfl rfl]
  split <;> exact ⟨htype, rfl⟩

/-- **A relocation names the symbol** of the label that its instruction refers to. -/
theorem ObjectOf.relocation_symbol (h : ObjectOf context image) {r : ZlImageRelocation}
    (hr : r ∈ image.relocations) : ∃ line ∈ context.lines, ∃ statement token y,
      line.body = .stmt statement ∧ r.sectionIndex.toNat = line.sectionIndex ∧
      r.offset.toNat = line.sectionOffset + 4 ∧ statement.imm = some token ∧
      token.type = .labelUse ∧ image.symbols[r.symbolIndex.toNat]? = some y ∧
      y.name = some token.value := by
  obtain ⟨hsections, hsymbols⟩ := h.counts
  rw [h.relocations] at hr
  obtain ⟨line, hline, hr⟩ := List.mem_filterMap.mp hr
  obtain ⟨-, -, hsize⟩ := relocationOf_eq_some hr
  obtain ⟨bytes, answer, hbytes⟩ := h.translated hline
  simp only [relocationOf, hbytes, Option.map_eq_some_iff] at hr
  obtain ⟨index, rfl, rfl⟩ := hr
  obtain ⟨statement, token, hbody, himm, htype, hfound⟩ := lineBytes_symbol hbytes
  obtain ⟨y, hy, hname⟩ := findImageSymbol_eq_some hfound
  obtain ⟨hindex, hoffset⟩ :=
    lineRelocation_place h.assembled.placement hsections hline hsize index
  refine ⟨line, hline, statement, token, y, hbody, hindex, hoffset, himm, htype, ?_, hname⟩
  have hlt := (List.getElem?_eq_some_iff.mp hy).1
  rw [uint32Max] at hsymbols
  rw [lineRelocation, UInt32.toNat_ofNat', Nat.mod_eq_of_lt (by omega)]
  exact hy

end Table

/-- **The symbol table of an object** says what the source says. -/
theorem symbolsCorrect_of_assembles {source : CString} {object : Bytes} {image : ZlImage}
    (h : AssemblesTo source object) (hdecode : zlImageDecode allocAll object = .ok image) :
    ∃ lines context, parseSource source = .ok lines ∧ assembleContext source = .ok context ∧
      SymbolsCorrect lines context image := by
  obtain ⟨context, hcontext, hof⟩ := h.objectOf hdecode
  obtain ⟨lines, final, labels, hlines, hfinal, rfl, -⟩ := assembleContext_eq_ok.mp hcontext
  obtain ⟨hglobals, hexternals⟩ := processLines_declared hfinal
  have hlabels := hof.assembled.labels
  have hdistinct := objectSymbols_distinct hlabels hof.symbols
  refine ⟨lines, final.context, hlines, hcontext, hdistinct, ?_, ?_, ?_,
    fun r hr => hof.relocation_symbol hr⟩
  · intro line hline name hname
    obtain ⟨s, hs, -⟩ := hof.assembled.placement.inside line hline
    obtain ⟨-, hindex, hvalue⟩ :=
      definedSymbol_place hof.assembled.placement hof.counts.1 hline name
    obtain ⟨htype, hbinding⟩ := definedSymbol_kind hs name
    rw [hglobals] at hbinding
    exact ⟨_, s, once_of_distinct hdistinct (exists_symbol hlabels hof.symbols hline hname),
      name_definedSymbol line name, hindex, hvalue, hs, htype, hbinding⟩
  · intro name hname hundefined
    refine once_of_distinct hdistinct (exists_externalSymbol hlabels hof.symbols ?_ hundefined)
    rw [hexternals]
    exact hname
  · intro y hy
    rcases symbol_cases hlabels hof.symbols hy with
      ⟨line, hline, name, hname, rfl⟩ | ⟨name, hname, rfl, hundefined⟩
    · refine .inl ⟨line, hline, by rw [hname]; rfl, ?_⟩
      rw [name_definedSymbol, hname]
    · rw [hexternals] at hname
      exact .inr ⟨name, hname, hundefined, rfl⟩

/-- A global function, a local object, an external name that is used twice and one that is
defined. -/
def symbolsSource : CString := CString.lit
  ".extern far\n.global main\n.extern main\nmain: jmp #far\njmpal #far\n.section data\nbox: .byte 1\n"

theorem symbolsCorrect_of_assembles_symbolsSource : ∃ object image,
    zlasmAssembleObject true symbolsSource none = .ok object ∧
    zlImageDecode allocAll object = .ok image ∧
    image.symbols.map (·.name) = ["main", "box", "far"].map (some ∘ CString.lit) ∧
    image.relocations.map (·.symbolIndex) = [2, 2] ∧
    ∃ lines context, parseSource symbolsSource = .ok lines ∧
      assembleContext symbolsSource = .ok context ∧ SymbolsCorrect lines context image := by
  have hrun : ((zlasmAssembleObject true symbolsSource none).toOption.bind fun object =>
      (zlImageDecode allocAll object).toOption.map fun image =>
        (image.symbols.map (·.name), image.relocations.map (·.symbolIndex)))
      = some (["main", "box", "far"].map (some ∘ CString.lit), [2, 2]) := by decide +kernel
  obtain ⟨object, hobject, hdecoded⟩ := Option.bind_eq_some_iff.mp hrun
  obtain ⟨image, himage, hread⟩ := Option.map_eq_some_iff.mp hdecoded
  obtain ⟨hnames, hindices⟩ := Prod.mk.inj hread
  have hassembled := toOption_eq_some.mp hobject
  have hdecoded := toOption_eq_some.mp himage
  exact ⟨object, image, hassembled, hdecoded, hnames, hindices,
    symbolsCorrect_of_assembles ⟨true, none, hassembled⟩ hdecoded⟩

end Zlvm
