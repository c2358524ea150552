import Zlvm.Asm.NamedArguments

/-!
# Diagnostics point into the source

* `DiagnosticsPoint` — in both modes, a failure that has a location lies in the source, at its line
  and column.
* `ArgumentsCountOn` — the source behind an invocation has the line breaks of every named argument
  that the second lexer rejects, up to the place where it does.
* **`diagnosticsPoint_iff`** — these are the same sources.
-/

namespace Zlvm

open Loop

/-- Every failure of either mode that has a location points into the source. -/
def DiagnosticsPoint (source : CString) : Prop :=
  ∀ alloc sourceFilename diagnostic place,
    zlasmAssemble source sourceFilename = .error diagnostic ∨
        zlasmAssembleObject alloc source sourceFilename = .error diagnostic →
      diagnostic.failure.location = some place → PointsInto source.bytes place

/-- For every named argument that the expansion comes to and whose text the lexer rejects when it
reads it by itself, the source behind the invocation is long enough and has the same line breaks up
to the rejected place. -/
def ArgumentsCountOn (source : CString) : Prop :=
  ∀ invocation value place, ReadsNamedArgument source invocation value →
    rejectedAt value = some place →
      CountsOn source.bytes value.bytes invocation.pos place

/-- The invocation of a named argument is a token of the list, or reported at one. -/
theorem Reads.invocation_in {P : SourceLocation → Prop} {macros : List Macro} {room : ℕ}
    {stack : List Macro} {isLineStart : Bool} {tokens : List Token} {invocation : Token}
    {value : CString} (h : Reads macros room stack isLineStart tokens invocation value)
    (htokens : TokensIn P tokens) : P invocation.location := by
  induction h with
  | definition _ _ ih => exact ih (htokens.subset (skipMacroDefinition_subset _))
  | copied _ _ _ ih => exact ih (tokensIn_cons.mp htokens).2
  | arguments => exact (tokensIn_cons.mp htokens).1
  | body _ _ _ _ _ _ ih =>
      exact ih (List.forall_mem_map.mpr fun t _ => substitute_in (tokensIn_cons.mp htokens).1 t)
  | after _ _ _ _ _ ih =>
      exact ih ((tokensIn_cons.mp htokens).2.subset (nextLine_subset _))

section Source

variable {source : CString} {invocation : Token} {value : CString} {place : SourceLocation}

theorem ReadsNamedArgument.invocation_pointsInto (h : ReadsNamedArgument source invocation value) :
    PointsInto source.bytes invocation.location := by
  obtain ⟨tokens, macros, hlex, -, hreads⟩ := h
  exact hreads.invocation_in ((lexSource_pointsInto source).of_eq_ok hlex)

/-- **What the second lexer rejects** is what the assembly reports. -/
theorem ReadsNamedArgument.assembleContext_eq (h : ReadsNamedArgument source invocation value)
    (hrejected : rejectedAt value = some place) :
    ∃ failure, assembleContext source = .error failure ∧
      failure.location = some (place.rebase invocation) := by
  obtain ⟨tokens, macros, hlex, hcapture, hreads⟩ := h
  obtain ⟨failure, hfailure, hplace⟩ := @namedArgumentValue_rejected _ invocation _ hrejected
  refine ⟨failure, ?_, hplace⟩
  have hexpand : macrosExpand tokens = .error failure := by
    rw [macrosExpand_eq, hcapture, ok_bind]
    exact expandAll_reads hreads hfailure none
  rw [assembleContext, hlex, ok_bind, hexpand]
  rfl

/-- **Up to the translations**, in terms of the named arguments. -/
theorem assembleContext_ensures {P : SourceLocation → Prop}
    (hpoints : ∀ place, PointsInto source.bytes place → P place)
    (hrejects : ∀ invocation value place, ReadsNamedArgument source invocation value →
      rejectedAt value = some place → P (place.rebase invocation)) :
    Ensures (assembleContext source)
      (fun context => ∀ line ∈ context.lines, TokensIn P line.body.tokens)
      (AsmFailure.Within P) := by
  have hlexed : Ensures (lexSource source) (TokensIn P) (AsmFailure.Within P) :=
    (lexSource_pointsInto source).mono (fun tokens h token htoken => hpoints _ (h token htoken))
      fun failure h place hplace => hpoints _ (h place hplace)
  refine hlexed.and_eq.bind fun tokens htokens => ?_
  refine (macrosExpand_ensures htokens.2 htokens.1 hrejects).bind fun expanded hexpanded => ?_
  refine (parserParse_ensures hexpanded).bind fun lines hlines => ?_
  refine (asmProcessDirectives_ensures hlines).bind fun context hcontext => ?_
  refine ((asmProcessLabels_failsWith context).ensures (Q := fun _ => True) fun _ _ =>
    trivial).bind fun labels _ => ?_
  exact hcontext

end Source

/-- **Diagnostics point into the source** exactly if the source behind every invocation whose named
argument is rejected counts on like that argument. -/
theorem diagnosticsPoint_iff (source : CString) :
    DiagnosticsPoint source ↔ ArgumentsCountOn source := by
  constructor
  · intro hpoint invocation value place hreads hrejected
    obtain ⟨failure, hcontext, hplace⟩ := hreads.assembleContext_eq hrejected
    rw [← rebase_pointsInto_iff hreads.invocation_pointsInto (rejectedAt_pointsInto hrejected)]
    refine hpoint true none (failure.report none) _ (.inl ?_) hplace
    rw [zlasmAssemble, hcontext]
    rfl
  · intro hcount alloc sourceFilename diagnostic place hfails hplace
    have hcontext := assembleContext_ensures (P := PointsInto source.bytes) (fun _ h => h)
      fun invocation value place hreads hrejected =>
        (rebase_pointsInto_iff hreads.invocation_pointsInto
          (rejectedAt_pointsInto hrejected)).mpr (hcount _ _ _ hreads hrejected)
    have hreport : ∀ {x : Except AsmFailure Bytes},
        FailsWith (AsmFailure.Within (PointsInto source.bytes)) x →
          ∀ failure, x = .error failure → failure.report sourceFilename = diagnostic →
            PointsInto source.bytes place := by
      rintro x hx failure hfailure rfl
      exact hx failure hfailure place hplace
    rcases hfails with hfails | hfails
    · rw [zlasmAssemble] at hfails
      have hraw : FailsWith (AsmFailure.Within (PointsInto source.bytes)) (do
          let context ← assembleContext source
          let labels ← asmProcessLabels context
          asmTranslate labels context.lines) := by
        rw [failsWith_bind]
        refine ⟨hcontext.failsWith, fun context h => ?_⟩
        rw [failsWith_bind]
        exact ⟨asmProcessLabels_failsWith context,
          fun labels _ => asmTranslate_failsWith (hcontext.of_eq_ok h) labels⟩
      split at hfails
      · cases hfails
      · rename_i failure hfailure
        exact hreport hraw failure hfailure (Except.error.inj hfails)
    · rw [zlasmAssembleObject] at hfails
      have hobject : FailsWith (AsmFailure.Within (PointsInto source.bytes))
          (assembleContext source >>= asmTranslateObject alloc) := by
        rw [failsWith_bind]
        exact ⟨hcontext.failsWith,
          fun context h => asmTranslateObject_failsWith (hcontext.of_eq_ok h) alloc⟩
      split at hfails
      · cases hfails
      · rename_i failure hfailure
        exact hreport hobject failure hfailure (Except.error.inj hfails)

/-- A macro that another macro invokes, with a malformed named argument. -/
def nestedSource : CString :=
  CString.lit ".macro i a\n.endmacro\n.macro o\ni a=0000000000z\n.endmacro\no"

/-- What is reported is counted on from the invocation of the outer macro. -/
def nestedDiagnostic : ZlasmDiagnostic where
  failure :=
    { code := .malformedNumber
      message := "Malformed numeric literal"
      location := some { line := 6, column := 1, byteOffset := 56, byteLength := 11 } }
  sourceFilename := CString.lit "<memory>"

/-- **A range that ends behind the source**, which has 57 bytes. -/
theorem nestedSource_not_diagnosticsPoint :
    zlasmAssemble nestedSource none = .error nestedDiagnostic ∧ nestedSource.length = 57 ∧
      ¬DiagnosticsPoint nestedSource := by
  have hrun : zlasmAssemble nestedSource none = .error nestedDiagnostic := by decide +kernel
  have hlength : nestedSource.bytes.length = 57 := by decide +kernel
  refine ⟨hrun, hlength, fun hpoint => ?_⟩
  have hbounded := (hpoint true none _ _ (.inl hrun) rfl).bounded
  rw [hlength] at hbounded
  exact absurd hbounded (by decide)

end Zlvm
