import Zlvm.Asm.Comments

/-!
# Where definitions stand

A macro definition on lines of its own may be moved to any other line boundary that is not inside a
definition.

* `expandMacro_congr`, `expandAll_congr` — an expansion reads the table only by `find_macro`.
* `Piece` — lines that both scans pass on their own; `macrosExpand_swap` — two of them may change
  places if one expands to nothing.
* `WholeLines`, `Boundary` — the definition that is moved, and where to.
* **`macrosExpand_moved`** — the expansion stays the same.
-/

namespace Zlvm

open Loop

/-! ## The table -/

section Table

variable {macros macros' : List Macro}

/-- The order of the table does not matter. -/
theorem findMacro_perm (h : macros.Perm macros') (hnames : DistinctNames macros) :
    findMacro macros = findMacro macros' := by
  funext name
  have hnames' : DistinctNames macros' := (h.map _).nodup_iff.mp hnames
  cases hfound : findMacro macros name with
  | none =>
      have hmissing := findMacro_eq_none.mp hfound
      rw [(h.map (·.name.value)).mem_iff] at hmissing
      exact (findMacro_eq_none.mpr hmissing).symm
  | some m =>
      have hm := h.mem_iff.mp (mem_of_findMacro hfound)
      have hname := name_of_findMacro hfound
      cases hfound' : findMacro macros' name with
      | none =>
          exact absurd (hname ▸ List.mem_map_of_mem hm) (findMacro_eq_none.mp hfound')
      | some m' =>
          rw [hnames'.eq hm (mem_of_findMacro hfound')
            (hname.trans (name_of_findMacro hfound').symm)]

theorem expandTokens_congr {expand : Macro → List Token → Token → Except AsmFailure (List Token)}
    {location : Option Token} (hfind : findMacro macros = findMacro macros') :
    ∀ (fuel : ℕ) (isLineStart : Bool) (l : List Token),
      expandTokens expand macros location fuel isLineStart l
        = expandTokens expand macros' location fuel isLineStart l
  | 0, _, _ => rfl
  | _ + 1, _, [] => rfl
  | fuel + 1, isLineStart, token :: rest => by
      simp only [expandTokens, hfind, expandTokens_congr hfind fuel]

/-- **An invocation** reads the table only by `find_macro`. -/
theorem expandMacro_congr (hfind : findMacro macros = findMacro macros') :
    ∀ (room : ℕ) (stack : List Macro),
      expandMacro macros room stack = expandMacro macros' room stack
  | 0, stack => by
      funext m arguments invocation
      rw [expandMacro_zero, expandMacro_zero]
  | room + 1, stack => by
      funext m arguments invocation
      rw [expandMacro_succ, expandMacro_succ, expandMacro_congr hfind room]
      simp only [expandAll, expandTokens_congr hfind]

theorem expandTop_congr (hfind : findMacro macros = findMacro macros') (isLineStart : Bool)
    (l : List Token) : expandTop macros isLineStart l = expandTop macros' isLineStart l := by
  rw [expandTop, expandTop, expandMacro_congr hfind, expandAll, expandAll, expandTokens_congr hfind]

end Table

/-! ## Pieces -/

/-- Lines that the scan of `capture_macros` passes on their own. -/
structure Piece (l : List Token) (found : List Macro) : Prop where
  passed : ∀ l', Scans (l ++ l') found l'
  lines : EndsLine l

section Pieces

variable {a b l l' before after expansion : List Token} {found found' : List Macro}
  {macros : List Macro}

theorem Piece.of_scans (h : Scans (l ++ l') found l') (hlines : EndsLine l) : Piece l found :=
  ⟨fun l'' => h.append_right (fun _ => hlines) l'', hlines⟩

theorem Piece.scan (h : Piece l found) : Scans l found [] := by
  have hpassed := h.passed []
  rwa [List.append_nil] at hpassed

/-- A piece of a longer one. -/
theorem Piece.tail (h : Piece (a ++ b) found) (ha : Piece a found') :
    ∃ later, found = found' ++ later ∧ Piece b later := by
  have hscan := h.scan
  obtain ⟨later, rfl, hb⟩ := (ha.passed b).split hscan (Nat.zero_le _)
  rw [← List.append_nil b] at hb
  exact ⟨later, rfl, .of_scans hb (h.lines.suffix (List.suffix_append _ _))⟩

/-- What is found behind a piece. -/
theorem Piece.later (h : Piece l found') (hscan : Scans (l ++ l') found []) :
    ∃ later, found = found' ++ later ∧ Scans l' later [] :=
  (h.passed l').split hscan (Nat.zero_le _)

theorem Piece.expandTop_append (h : Piece l found) (l' : List Token) :
    expandTop macros true (l ++ l') = (do
      let expansion ← expandTop macros true l
      return expansion ++ (← expandTop macros true l')) :=
  expandAll_append _ (Nat.le_refl _) (h.scan.ended trivial) h.lines (fun _ => rfl) l'

/-- The lines expand to nothing. -/
def Silent (l : List Token) : Prop := ∀ macros, expandTop macros true l = .ok []

/-- **Two pieces change places**, the first or the second of which expands to nothing. -/
theorem macrosExpand_swap {found₁ found₂ found₃ : List Macro} (hbefore : Piece before found₁)
    (ha : Piece a found₂) (hb : Piece b found₃) (hsilent : Silent a ∨ Silent b)
    (hrun : macrosExpand (before ++ (a ++ (b ++ after))) = .ok expansion) :
    macrosExpand (before ++ (b ++ (a ++ after))) = .ok expansion := by
  obtain ⟨_, hscan, hnames, hexpand⟩ := macrosExpand_eq_ok.mp hrun
  obtain ⟨_, rfl, hscan₁⟩ := hbefore.later hscan
  obtain ⟨_, rfl, hscan₂⟩ := ha.later hscan₁
  obtain ⟨found, rfl, hscan₃⟩ := hb.later hscan₂
  have hperm : (found₁ ++ (found₂ ++ (found₃ ++ found))).reverse.Perm
      (found₁ ++ (found₃ ++ (found₂ ++ found))).reverse := by
    refine (List.reverse_perm _).trans (.trans ?_ (List.reverse_perm _).symm)
    exact (List.perm_append_comm_assoc _ _ _).append_left _
  have hfind := findMacro_perm hperm hnames
  refine macrosExpand_eq_ok.mpr ⟨_, (hbefore.passed _).trans ((hb.passed _).trans
    ((ha.passed _).trans hscan₃)), (hperm.map _).nodup_iff.mp hnames, ?_⟩
  rw [← expandTop_congr hfind]
  generalize (found₁ ++ (found₂ ++ (found₃ ++ found))).reverse = macros at hexpand
  rw [hbefore.expandTop_append, ha.expandTop_append, hb.expandTop_append] at hexpand
  rw [hbefore.expandTop_append, hb.expandTop_append, ha.expandTop_append, ← hexpand]
  rcases hsilent with hsilent | hsilent <;>
    (rw [hsilent macros]
     simp only [ok_bind, List.nil_append, bind_assoc, pure_bind])

end Pieces

/-! ## Definitions on lines of their own -/

/-- The tokens `block` are a definition that `capture_macros` finds behind `before`, from its
`.macro` to the line break that ends the line of its `.endmacro`. -/
structure WholeLines (before block after : List Token) : Prop where
  found : ∃ found, Scans (before ++ (block ++ after)) found (block ++ after)
  captured : ∃ definition rest m, block = definition :: rest ∧
    isDirective definition "macro" = true ∧
    captureMacro [] definition (rest ++ after) = .ok (m, after)
  starts : EndsLine before
  ends : EndsLine block

/-- No `.endmacro` stands on the line of the `.macro` at the head of a definition. -/
def PlainHeader (block : List Token) : Prop :=
  ∀ t ∈ lineTokens block.tail, isDirective t "endmacro" = false

/-- The start of a line that is not inside a definition. -/
structure Boundary (before after : List Token) : Prop where
  outside : ∃ found, Scans (before ++ after) found after
  line : EndsLine before

section Blocks

variable {before block after before' after' expansion : List Token}

theorem WholeLines.piece_before (h : WholeLines before block after) :
    ∃ found, Piece before found := by
  obtain ⟨found, hscan⟩ := h.found
  exact ⟨found, .of_scans hscan h.starts⟩

theorem Boundary.piece (h : Boundary before after) : ∃ found, Piece before found := by
  obtain ⟨found, hscan⟩ := h.outside
  exact ⟨found, .of_scans hscan h.line⟩

/-- **The definition is a piece** that expands to nothing. -/
theorem WholeLines.piece (h : WholeLines before block after) (hheader : PlainHeader block) :
    (∃ found, Piece block found) ∧ Silent block := by
  obtain ⟨definition, rest, m, rfl, hdefinition, hcaptured⟩ := h.captured
  have hlines := h.ends.suffix (List.suffix_cons _ _)
  obtain ⟨after', hafter, -, hcapture⟩ :=
    captureMacro_append hcaptured (Nat.le_refl _) fun _ => hlines
  obtain rfl : after' = [] := by simpa using hafter
  have hpiece : Piece (definition :: rest) [m] :=
    ⟨fun l' => .definition hdefinition (hcapture l') (.refl l'), h.ends⟩
  refine ⟨⟨_, hpiece⟩, fun macros => ?_⟩
  have hnil := hcapture []
  rw [List.append_nil] at hnil
  rw [expandTop, expandAll_definition hdefinition,
    skipMacroDefinition_of_capture hnil hdefinition hheader]
  rfl

/-- In the tokens of a source every definition has such a header. -/
theorem WholeLines.plainHeader (h : WholeLines before block after)
    (hcomments : CommentsLast (before ++ (block ++ after))) : PlainHeader block := by
  obtain ⟨definition, rest, m, rfl, hdefinition, hcaptured⟩ := h.captured
  have hsuffix : rest ++ after <:+ before ++ (definition :: rest ++ after) :=
    (List.suffix_cons definition _).trans (List.suffix_append _ _)
  have hheader := captureMacro_header (hcomments.suffix hsuffix) hcaptured
  rw [lineTokens_append (h.ends.tail_hasNewline (newline_ne_of_isDirective hdefinition))] at hheader
  exact fun t ht => (isDefinitionDirective_eq_false.mp (hheader t ht)).2

/-- **Macro definitions may stand anywhere.**  A definition that is moved with its lines to another
boundary leaves the expansion as it is, unless an `.endmacro` stands behind a comment on the line of
its `.macro`. -/
theorem macrosExpand_moved (h : WholeLines before block after) (hheader : PlainHeader block)
    (hmove : before ++ after = before' ++ after') (hboundary : Boundary before' after')
    (hrun : macrosExpand (before ++ block ++ after) = .ok expansion) :
    macrosExpand (before' ++ block ++ after') = .ok expansion := by
  obtain ⟨found, hbefore⟩ := h.piece_before
  obtain ⟨found', hbefore'⟩ := hboundary.piece
  obtain ⟨⟨_, hblock⟩, hsilent⟩ := h.piece hheader
  rw [List.append_assoc] at hrun ⊢
  rcases List.append_eq_append_iff.mp hmove with ⟨between, rfl, rfl⟩ | ⟨between, rfl, rfl⟩
  · obtain ⟨_, -, hbetween⟩ := hbefore'.tail hbefore
    rw [List.append_assoc]
    exact macrosExpand_swap hbefore hblock hbetween (.inl hsilent) hrun
  · obtain ⟨_, -, hbetween⟩ := hbefore.tail hbefore'
    rw [List.append_assoc] at hrun
    exact macrosExpand_swap hbefore' hbetween hblock (.inr hsilent) hrun

end Blocks

/-! ## An `.endmacro` behind a comment -/

/-- The line of an invocation. -/
def invocationLine : List Token := [plainToken .id "inner", plainToken .newline "\n"]

/-- A definition. -/
def innerDefinition : List Token :=
  [plainToken .directive "macro", plainToken .id "inner", plainToken .newline "\n",
    plainToken .id "nop", plainToken .newline "\n", plainToken .directive "endmacro",
    plainToken .newline "\n"]

theorem innerDefinition_wholeLines : WholeLines [] innerDefinition invocationLine where
  found := ⟨[], .refl _⟩
  captured := ⟨_, _, _, rfl, rfl, rfl⟩
  starts := endsLine_nil
  ends := fun _ h => Option.some.inj h ▸ rfl

theorem invocationLine_boundary : Boundary invocationLine [] where
  outside := ⟨[], .other rfl rfl (.other rfl rfl (.refl _))⟩
  line := fun _ h => Option.some.inj h ▸ rfl

theorem innerDefinition_plainHeader : PlainHeader innerDefinition := by
  unfold PlainHeader
  decide

theorem macrosExpand_moved_innerDefinition :
    ∃ expansion, macrosExpand (invocationLine ++ innerDefinition ++ []) = .ok expansion :=
  ⟨_, macrosExpand_moved innerDefinition_wholeLines innerDefinition_plainHeader
    (List.append_nil _).symm invocationLine_boundary rfl⟩

/-- A definition whose `.macro` has an `.endmacro` behind a comment on its line. -/
def strayDefinition : List Token :=
  [plainToken .directive "macro", plainToken .id "inner", plainToken .comment ";",
    plainToken .directive "endmacro", plainToken .newline "\n", plainToken .id "hlt",
    plainToken .newline "\n", plainToken .directive "endmacro", plainToken .newline "\n"]

/-- A line without macros. -/
def nopLine : List Token := [plainToken .id "nop", plainToken .newline "\n"]

/-- The expansion does not skip what the table is made of. -/
theorem strayDefinition_not_moved :
    WholeLines [] strayDefinition nopLine ∧ Boundary nopLine [] ∧
    ∃ expansion expansion', macrosExpand ([] ++ strayDefinition ++ nopLine) = .ok expansion ∧
      macrosExpand (nopLine ++ strayDefinition ++ []) = .ok expansion' ∧
      ¬TokensAlike expansion expansion' := by
  refine ⟨⟨⟨[], .refl _⟩, ⟨_, _, _, rfl, rfl, rfl⟩, endsLine_nil,
      fun _ h => Option.some.inj h ▸ rfl⟩,
    ⟨⟨[], .other rfl rfl (.other rfl rfl (.refl _))⟩, fun _ h => Option.some.inj h ▸ rfl⟩,
    _, _, rfl, rfl, ?_⟩
  intro halike
  cases halike with
  | cons head _ => exact absurd head.value (by decide)

end Zlvm
