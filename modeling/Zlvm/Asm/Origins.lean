import Zlvm.Asm.Inlining

/-!
# Where expanded tokens come from

The expansion of a range as a derivation, with what each token of the range puts out.  At the top
level every output token is a copy of a token of the source or belongs to the expansion of one
invocation, and then it lies where that invocation lies, however deep it was expanded.

* `Emission` — a copied token, or an invocation with its expansion.
* `Expands` — the derivation; `expands_iff` — `expandAll` returns what it puts out.
* `Expands.located` — a range at one place is expanded at that place.
* `Expands.expanded_located`, `Expands.origins_sublist` — so every expansion lies at its invocation,
  and the emissions of the source are in its order.
* **`positionsKept`** — the positions of the output.
-/

namespace Zlvm

open Loop

/-! ## Derivations -/

/-- A token that the loop of `expand_range` copies. -/
structure IsCopied (macros : List Macro) (isLineStart : Bool) (token : Token) : Prop where
  ordinary : isDirective token "macro" = false
  plain : isLineStart = true → token.type = .id →
    findMacro macros (invocationName token) = none ∧ token.value.bytes.headD 0 ≠ invocationMark

/-- What the loop of `expand_range` puts out at one token of its range. -/
inductive Emission
  | copied (token : Token)
  | expanded (invocation : Token) (expansion : List Token)

/-- The token at which the loop stands. -/
def Emission.origin : Emission → Token
  | .copied token => token
  | .expanded invocation _ => invocation

/-- The tokens put out, where copies are placed at `location`. -/
def Emission.tokens (location : Option Token) : Emission → List Token
  | .copied token => [cloneToken token location]
  | .expanded _ expansion => expansion

/-- The output of a range. -/
def outputOf (location : Option Token) (emissions : List Emission) : List Token :=
  emissions.flatMap (·.tokens location)

/-- The expansion of a range, with `room` and `stack` of `expand_macro`. -/
inductive Expands (macros : List Macro) :
    ℕ → List Macro → Option Token → Bool → List Token → List Emission → Prop
  | nil {room : ℕ} {stack : List Macro} {location : Option Token} {isLineStart : Bool} :
      Expands macros room stack location isLineStart [] []
  | definition {room : ℕ} {stack : List Macro} {location : Option Token} {isLineStart : Bool}
      {token : Token} {rest : List Token} {emissions : List Emission}
      (definition : isDirective token "macro" = true)
      (later : Expands macros room stack location true (skipMacroDefinition (token :: rest))
        emissions) :
      Expands macros room stack location isLineStart (token :: rest) emissions
  | copied {room : ℕ} {stack : List Macro} {location : Option Token} {isLineStart : Bool}
      {token : Token} {rest : List Token} {emissions : List Emission}
      (copied : IsCopied macros isLineStart token)
      (later : Expands macros room stack location (nextLineStart isLineStart token) rest
        emissions) :
      Expands macros room stack location isLineStart (token :: rest) (.copied token :: emissions)
  | invocation {room : ℕ} {stack : List Macro} {location : Option Token} {token : Token}
      {rest values : List Token} {inside emissions : List Emission} {m : Macro}
      (invocation : IsInvocation macros token m)
      (fresh : ¬stack.any (·.name.value == m.name.value))
      (arguments : readArguments m (lineTokens rest) token = .ok values)
      (inner : Expands macros room (m :: stack) (some token) true
        (m.body.map (substitute m values token)) inside)
      (later : Expands macros (room + 1) stack location true (nextLine rest) emissions) :
      Expands macros (room + 1) stack location true (token :: rest)
        (.expanded token (outputOf (some token) inside) :: emissions)

section Derivations

variable {macros stack : List Macro} {room : ℕ} {location : Option Token} {isLineStart : Bool}
  {tokens output : List Token} {emissions : List Emission}

theorem outputOf_cons (emission : Emission) : outputOf location (emission :: emissions)
    = emission.tokens location ++ outputOf location emissions := List.flatMap_cons

/-- The code returns what a derivation puts out. -/
theorem Expands.expandAll_eq (h : Expands macros room stack location isLineStart tokens emissions) :
    expandAll (expandMacro macros room stack) macros location isLineStart tokens
      = .ok (outputOf location emissions) := by
  induction h with
  | nil => rfl
  | definition definition later ih => rw [expandAll_definition definition, ih]
  | copied copied later ih =>
      rw [expandAll_copied copied.ordinary copied.plain, ih]
      rfl
  | invocation invocation fresh arguments inner later ihInner ihLater =>
      rw [expandAll_invocation invocation.ordinary invocation.id invocation.found,
        expandMacro_succ, require_of fresh, ok_bind, arguments, ok_bind, ihInner, ok_bind, ihLater]
      rfl

/-- What the code returns has a derivation: by induction on the room and, for one room, on the
length of the range. -/
theorem exists_expands : ∀ (room n : ℕ) {stack : List Macro} {location : Option Token}
    {isLineStart : Bool} {tokens output : List Token}, tokens.length ≤ n →
      expandAll (expandMacro macros room stack) macros location isLineStart tokens = .ok output →
        ∃ emissions, Expands macros room stack location isLineStart tokens emissions
  | _, _, _, _, _, [], _, _, _ => ⟨[], .nil⟩
  | room, n + 1, stack, location, isLineStart, token :: rest, output, hlength, h => by
      rw [List.length_cons, Nat.add_le_add_iff_right] at hlength
      cases atToken macros isLineStart token with
      | definition hdefinition =>
          have hskip : (skipMacroDefinition (token :: rest)).length ≤ rest.length :=
            skipMacroDefinition_length_lt hdefinition
          rw [expandAll_definition hdefinition] at h
          obtain ⟨emissions, hlater⟩ := exists_expands room n (Nat.le_trans hskip hlength) h
          exact ⟨emissions, .definition hdefinition hlater⟩
      | invocation ordinary start id found =>
          subst start
          rw [expandAll_invocation ordinary id found] at h
          obtain ⟨expansion, hexpansion, h⟩ := bind_eq_ok.mp h
          obtain ⟨later, hlater, -⟩ := bind_eq_ok.mp h
          obtain ⟨emissions, hlater⟩ :=
            exists_expands room n (Nat.le_trans (nextLine_length_le rest) hlength) hlater
          cases room with
          | zero =>
              rw [expandMacro_zero] at hexpansion
              obtain ⟨-, -, hexpansion⟩ := bind_eq_ok.mp hexpansion
              cases hexpansion
          | succ room =>
              rw [expandMacro_succ] at hexpansion
              simp only [bind_eq_ok, require_eq_ok] at hexpansion
              obtain ⟨-, hfresh, values, hvalues, hinner⟩ := hexpansion
              obtain ⟨inside, hinside⟩ := exists_expands room _ (Nat.le_refl _) hinner
              exact ⟨_, .invocation ⟨ordinary, id, found⟩ hfresh hvalues hinside hlater⟩
      | undefined ordinary start id missing explicit =>
          subst start
          rw [expandAll_undefined ordinary id missing explicit] at h
          cases h
      | copied ordinary plain =>
          rw [expandAll_copied ordinary plain] at h
          obtain ⟨later, hlater, -⟩ := bind_eq_ok.mp h
          obtain ⟨emissions, hlater⟩ := exists_expands room n hlength hlater
          exact ⟨_, .copied ⟨ordinary, plain⟩ hlater⟩
termination_by room n => (room, n)

theorem expands_iff :
    expandAll (expandMacro macros room stack) macros location isLineStart tokens = .ok output ↔
      ∃ emissions, Expands macros room stack location isLineStart tokens emissions ∧
        output = outputOf location emissions := by
  constructor
  · intro h
    obtain ⟨emissions, hexpands⟩ := exists_expands room _ (Nat.le_refl _) h
    exact ⟨emissions, hexpands, Except.ok.inj (h.symm.trans hexpands.expandAll_eq)⟩
  · rintro ⟨emissions, hexpands, rfl⟩
    exact hexpands.expandAll_eq

end Derivations

/-! ## Places -/

section Places

variable {macros stack : List Macro} {room : ℕ} {location : Option Token} {isLineStart : Bool}
  {tokens output : List Token} {emissions : List Emission}

theorem substitute_location (m : Macro) (values : List Token) (invocation : Token) :
    ∀ t ∈ m.body.map (substitute m values invocation), t.location = invocation.location := by
  rw [List.forall_mem_map]
  intro token _
  exact substitute_in (P := fun place => place = invocation.location) rfl token

/-- **A range at one place** is expanded at that place: the invocations in it lie there too, and
what they put out lies where they lie. -/
theorem Expands.located (h : Expands macros room stack location isLineStart tokens emissions)
    {place : Token} (hlocation : location = some place)
    (htokens : ∀ t ∈ tokens, t.location = place.location) :
    ∀ t ∈ outputOf location emissions, t.location = place.location := by
  induction h generalizing place with
  | nil => simp [outputOf]
  | definition definition later ih =>
      exact ih hlocation fun t ht => htokens t (skipMacroDefinition_subset _ ht)
  | copied copied later ih =>
      intro t ht
      rw [outputOf_cons, List.mem_append] at ht
      rcases ht with ht | ht
      · rw [List.mem_singleton.mp ht, hlocation]
        rfl
      · exact ih hlocation (fun t ht => htokens t (List.mem_cons_of_mem _ ht)) t ht
  | @invocation room stack location token rest values inside emissions m invocation fresh arguments
      inner later ihInner ihLater =>
      intro t ht
      rw [outputOf_cons, List.mem_append] at ht
      rcases ht with ht | ht
      · rw [ihInner rfl (substitute_location m values token) t ht]
        exact htokens token List.mem_cons_self
      · exact ihLater hlocation
          (fun t ht => htokens t (List.mem_cons_of_mem _ (nextLine_subset _ ht))) t ht

/-- An expansion lies at its invocation. -/
theorem Expands.expanded_located
    (h : Expands macros room stack location isLineStart tokens emissions) :
    ∀ invocation expansion, .expanded invocation expansion ∈ emissions →
      ∀ t ∈ expansion, t.location = invocation.location := by
  induction h with
  | nil => simp
  | definition definition later ih => exact ih
  | copied copied later ih =>
      intro invocation expansion hmem
      rcases List.mem_cons.mp hmem with heq | hmem
      · cases heq
      · exact ih invocation expansion hmem
  | @invocation room stack location token rest values inside emissions m invocation fresh arguments
      inner later ihInner ihLater =>
      intro invocation expansion hmem
      rcases List.mem_cons.mp hmem with heq | hmem
      · obtain ⟨rfl, rfl⟩ := Emission.expanded.inj heq
        exact inner.located rfl (substitute_location m values _)
      · exact ihLater invocation expansion hmem

/-- The emissions are in the order of the tokens. -/
theorem Expands.origins_sublist
    (h : Expands macros room stack location isLineStart tokens emissions) :
    (emissions.map Emission.origin).Sublist tokens := by
  induction h with
  | nil => exact .slnil
  | definition definition later ih =>
      exact ih.trans ((skipMacroDefinition_suffix definition).sublist.cons _)
  | copied copied later ih => exact ih.cons_cons _
  | invocation invocation fresh arguments inner later ihInner ihLater =>
      exact (ihLater.trans (nextLine_suffix _).sublist).cons_cons _

/-- At the top level, what a token puts out lies at that token. -/
theorem Expands.emission_located (h : Expands macros room stack none isLineStart tokens emissions)
    {emission : Emission} (hmem : emission ∈ emissions) :
    ∀ t ∈ emission.tokens none, t.location = emission.origin.location := by
  cases emission with
  | copied token =>
      intro t ht
      rw [List.mem_singleton.mp ht]
      rfl
  | expanded invocation expansion => exact h.expanded_located invocation expansion hmem

theorem Expands.output_ordered (h : Expands macros room stack none isLineStart tokens emissions)
    (hpos : tokens.Pairwise (·.pos ≤ ·.pos)) :
    (outputOf none emissions).Pairwise (·.pos ≤ ·.pos) := by
  have hsame : ∀ emission ∈ emissions, ∀ t ∈ emission.tokens none, t.pos = emission.origin.pos :=
    fun emission hmem t ht => congrArg SourceLocation.byteOffset (h.emission_located hmem t ht)
  have horigins := List.pairwise_map.mp (hpos.sublist h.origins_sublist)
  rw [outputOf, List.pairwise_flatMap]
  constructor
  · intro emission hmem
    refine List.pairwise_of_forall_mem_list fun t ht t' ht' => ?_
    rw [hsame emission hmem t ht, hsame emission hmem t' ht']
  · refine horigins.imp_of_mem fun {emission emission'} hmem hmem' hle t ht t' ht' => ?_
    rw [hsame emission hmem t ht, hsame emission' hmem' t' ht']
    exact hle

end Places

/-! ## The output of a source -/

/-- A copied token is put out as it is, and every token of an expansion has the position of the
invocation. -/
def Emission.Placed : Emission → Prop
  | .copied token => (Emission.copied token).tokens none = [token]
  | .expanded invocation expansion => ∀ t ∈ expansion, t.pos = invocation.pos ∧
      t.line = invocation.line ∧ t.col = invocation.col ∧ t.sourceSize = invocation.sourceSize

/-- The output consists of copies and of expansions of invocations, in the order of the tokens; each
keeps its place, and the positions do not go back. -/
structure PositionsKept (tokens output : List Token) : Prop where
  emissions : ∃ macros emissions, captureMacros tokens.length [] tokens = .ok macros ∧
    Expands macros 64 [] none true tokens emissions ∧ output = outputOf none emissions ∧
    (emissions.map Emission.origin).Sublist tokens ∧ ∀ emission ∈ emissions, emission.Placed
  ordered : output.Pairwise (·.pos ≤ ·.pos)

/-- What `macros_expand` does, as a derivation. -/
theorem macrosExpand_expands {tokens output : List Token} (h : macrosExpand tokens = .ok output) :
    ∃ macros emissions, captureMacros tokens.length [] tokens = .ok macros ∧
      Expands macros 64 [] none true tokens emissions ∧ output = outputOf none emissions := by
  rw [macrosExpand_eq, bind_eq_ok] at h
  obtain ⟨macros, hcapture, h⟩ := h
  obtain ⟨emissions, hexpands, houtput⟩ := expands_iff.mp h
  exact ⟨macros, emissions, hcapture, hexpands, houtput⟩

/-- **Positions of expanded tokens.** -/
theorem positionsKept {tokens output : List Token} (hpos : tokens.Pairwise (·.pos ≤ ·.pos))
    (h : macrosExpand tokens = .ok output) : PositionsKept tokens output := by
  obtain ⟨macros, emissions, hcapture, hexpands, rfl⟩ := macrosExpand_expands h
  refine ⟨⟨macros, emissions, hcapture, hexpands, rfl, hexpands.origins_sublist, ?_⟩,
    hexpands.output_ordered hpos⟩
  intro emission hmem
  cases emission with
  | copied token => rfl
  | expanded invocation expansion =>
      intro t ht
      have hplace := hexpands.expanded_located invocation expansion hmem t ht
      exact ⟨congrArg SourceLocation.byteOffset hplace, congrArg SourceLocation.line hplace,
        congrArg SourceLocation.column hplace, congrArg SourceLocation.byteLength hplace⟩

/-- A definition and an invocation, one token behind the other. -/
def putTokens : List Token :=
  (putDefinition ++ plainToken .id "put" :: putInvocation).zipIdx.map fun entry =>
    { entry.1 with pos := entry.2, col := entry.2 + 1 }

/-- The tokens that the invocation puts out. -/
def putOutput : List Token :=
  [plainToken .directive "word", plainToken .intDec "7", plainToken .newline "\n"].map
    fun token => { token with pos := 9, col := 10, sourceSize := 3 }

theorem positionsKept_put : PositionsKept putTokens putOutput :=
  positionsKept (by decide) (by decide)

end Zlvm
