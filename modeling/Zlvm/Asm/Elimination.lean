import Zlvm.Asm.Origins
import Zlvm.Asm.Spans

/-!
# What is left of macro directives

`capture_macros` looks at every token, the loop of `expand_range` jumps over the lines of
invocations.  A definition that begins on such a line is captured, but not skipped, and neither
function minds an `.endmacro` that comes as an argument.

* `CopiesAt` — a pass of the loop that copies a token, at any depth, and the token at which the
  outermost loop stands; `Expands.copiesAt` and `CopiesAt.exists_output` — the output is made of
  them.
* `Settled` — a list in which every token is copied where no macro is defined;
  `Expands.settled` — every output is one.
* `StrayFree` — no copied token is a stray `.endmacro`, and none belongs to a captured body.
* `strayFree_of_plain` — so it is if no invocation has a definition directive for an argument.
* **`directivesEliminated_iff`** — exactly then nothing is left of the directives.
-/

namespace Zlvm

open Loop

variable {macros : List Macro}

/-! ## Passes of the loop -/

/-- A position of the loop of `expand_range`, with `room` and `stack` of `expand_macro`. -/
structure RangePosition where
  room : ℕ
  stack : List Macro
  isLineStart : Bool
  tokens : List Token

/-- One pass of the loop. -/
inductive Passes (macros : List Macro) : RangePosition → RangePosition → Prop
  | definition {room : ℕ} {stack : List Macro} {isLineStart : Bool} {token : Token}
      {rest : List Token} (definition : isDirective token "macro" = true) :
      Passes macros ⟨room, stack, isLineStart, token :: rest⟩
        ⟨room, stack, true, skipMacroDefinition (token :: rest)⟩
  | copied {room : ℕ} {stack : List Macro} {isLineStart : Bool} {token : Token}
      {rest : List Token} (copied : IsCopied macros isLineStart token) :
      Passes macros ⟨room, stack, isLineStart, token :: rest⟩
        ⟨room, stack, nextLineStart isLineStart token, rest⟩
  | invocation {room : ℕ} {stack : List Macro} {token : Token} {rest values : List Token}
      {m : Macro} (invocation : IsInvocation macros token m)
      (arguments : readArguments m (lineTokens rest) token = .ok values) :
      Passes macros ⟨room, stack, true, token :: rest⟩ ⟨room, stack, true, nextLine rest⟩

/-- The call of a nested `expand_range`. -/
inductive Enters (macros : List Macro) : RangePosition → RangePosition → Prop
  | invocation {room : ℕ} {stack : List Macro} {token : Token} {rest values : List Token}
      {m : Macro} (invocation : IsInvocation macros token m)
      (arguments : readArguments m (lineTokens rest) token = .ok values) :
      Enters macros ⟨room + 1, stack, true, token :: rest⟩
        ⟨room, m :: stack, true, m.body.map (substitute m values token)⟩

/-- The loop copies `token`, at any depth below the position, and it does so while the loop of the
position itself stands at `origin`. -/
inductive CopiesAt (macros : List Macro) : RangePosition → Token → Token → Prop
  | here {room : ℕ} {stack : List Macro} {isLineStart : Bool} {token : Token} {rest : List Token}
      (copied : IsCopied macros isLineStart token) :
      CopiesAt macros ⟨room, stack, isLineStart, token :: rest⟩ token token
  | inside {room : ℕ} {stack : List Macro} {isLineStart : Bool} {origin origin' token : Token}
      {rest : List Token} {nested : RangePosition}
      (enters : Enters macros ⟨room, stack, isLineStart, origin :: rest⟩ nested)
      (copies : CopiesAt macros nested origin' token) :
      CopiesAt macros ⟨room, stack, isLineStart, origin :: rest⟩ origin token
  | later {position next : RangePosition} {origin token : Token}
      (passes : Passes macros position next) (copies : CopiesAt macros next origin token) :
      CopiesAt macros position origin token

section Output

variable {stack : List Macro} {room : ℕ} {location : Option Token} {isLineStart : Bool}
  {tokens : List Token} {emissions : List Emission}

theorem mem_outputOf {t : Token} :
    t ∈ outputOf location emissions ↔ ∃ emission ∈ emissions, t ∈ emission.tokens location :=
  List.mem_flatMap

/-- **Every output token was copied** by some pass. -/
theorem Expands.copiesAt (h : Expands macros room stack location isLineStart tokens emissions) :
    ∀ emission ∈ emissions, ∀ t ∈ emission.tokens location, ∃ token,
      CopiesAt macros ⟨room, stack, isLineStart, tokens⟩ emission.origin token ∧ t.Alike token := by
  induction h with
  | nil => simp
  | definition definition later ih =>
      intro emission hmem t ht
      obtain ⟨token, hcopies, halike⟩ := ih emission hmem t ht
      exact ⟨token, .later (.definition definition) hcopies, halike⟩
  | @copied room stack location isLineStart token rest emissions copied later ih =>
      intro emission hmem t ht
      rcases List.mem_cons.mp hmem with rfl | hmem
      · rw [List.mem_singleton.mp ht]
        exact ⟨token, .here copied, by cases location <;> exact ⟨rfl, rfl⟩⟩
      · obtain ⟨token, hcopies, halike⟩ := ih emission hmem t ht
        exact ⟨token, .later (.copied copied) hcopies, halike⟩
  | invocation invocation fresh arguments inner later ihInner ihLater =>
      intro emission hmem t ht
      rcases List.mem_cons.mp hmem with rfl | hmem
      · obtain ⟨nested, hnested, ht⟩ := mem_outputOf.mp ht
        obtain ⟨token, hcopies, halike⟩ := ihInner nested hnested t ht
        exact ⟨token, .inside (.invocation invocation arguments) hcopies, halike⟩
      · obtain ⟨token, hcopies, halike⟩ := ihLater emission hmem t ht
        exact ⟨token, .later (.invocation invocation arguments) hcopies, halike⟩

/-- An invocation is not copied. -/
theorem IsInvocation.not_copied {token : Token} {m : Macro} (h : IsInvocation macros token m) :
    ¬IsCopied macros true token := by
  intro hcopied
  have hmissing := (hcopied.plain rfl h.id).1
  rw [h.found] at hmissing
  cases hmissing

/-- A definition is neither copied nor an invocation. -/
theorem ordinary_ne_definition {token : Token} {P : Prop}
    (ordinary : isDirective token "macro" = false)
    (definition : isDirective token "macro" = true) : P := by
  rw [definition] at ordinary
  cases ordinary

theorem CopiesAt.ordinary {position : RangePosition} {origin token : Token}
    (h : CopiesAt macros position origin token) : isDirective token "macro" = false := by
  induction h with
  | here copied => exact copied.ordinary
  | inside _ _ ih => exact ih
  | later _ _ ih => exact ih

/-- **Every copied token is put out**, by the token at which the loop stands. -/
theorem CopiesAt.exists_output {position : RangePosition} {origin token : Token}
    (h : CopiesAt macros position origin token) :
    ∀ {location : Option Token} {emissions : List Emission},
      Expands macros position.room position.stack location position.isLineStart position.tokens
        emissions →
      ∃ emission ∈ emissions, emission.origin = origin ∧
        ∃ t ∈ emission.tokens location, t.Alike token := by
  induction h with
  | @here room stack isLineStart token rest copied =>
      intro location emissions hexpands
      cases hexpands with
      | definition definition _ => exact ordinary_ne_definition copied.ordinary definition
      | copied _ later =>
          exact ⟨_, List.mem_cons_self, rfl, cloneToken token location, List.mem_singleton_self _,
            by cases location <;> exact ⟨rfl, rfl⟩⟩
      | invocation invocation _ _ _ _ => exact absurd copied invocation.not_copied
  | inside enters copies ih =>
      intro location emissions hexpands
      cases enters with
      | invocation invocation arguments =>
          cases hexpands with
          | definition definition _ => exact ordinary_ne_definition invocation.ordinary definition
          | copied copied _ => exact absurd copied invocation.not_copied
          | invocation invocation' _ arguments' inner _ =>
              obtain rfl := Option.some.inj (invocation.found.symm.trans invocation'.found)
              obtain rfl := Except.ok.inj (arguments.symm.trans arguments')
              obtain ⟨emission, hmem, -, t, ht, halike⟩ := ih inner
              exact ⟨_, List.mem_cons_self, rfl, t, mem_outputOf.mpr ⟨emission, hmem, ht⟩, halike⟩
  | later passes copies ih =>
      intro location emissions hexpands
      cases passes with
      | definition definition =>
          cases hexpands with
          | definition _ later => exact ih later
          | copied copied _ => exact ordinary_ne_definition copied.ordinary definition
          | invocation invocation _ _ _ _ =>
              exact ordinary_ne_definition invocation.ordinary definition
      | copied copied =>
          cases hexpands with
          | definition definition _ => exact ordinary_ne_definition copied.ordinary definition
          | copied _ later =>
              obtain ⟨emission, hmem, houtput⟩ := ih later
              exact ⟨emission, List.mem_cons_of_mem _ hmem, houtput⟩
          | invocation invocation _ _ _ _ => exact absurd copied invocation.not_copied
      | invocation invocation arguments =>
          cases hexpands with
          | definition definition _ => exact ordinary_ne_definition invocation.ordinary definition
          | copied copied _ => exact absurd copied invocation.not_copied
          | invocation _ _ _ _ later =>
              obtain ⟨emission, hmem, houtput⟩ := ih later
              exact ⟨emission, List.mem_cons_of_mem _ hmem, houtput⟩

end Output

/-! ## Lists without macros -/

/-- Every token of the list is copied where no macro is defined. -/
def Settled : Bool → List Token → Prop
  | _, [] => True
  | isLineStart, token :: rest =>
      IsCopied [] isLineStart token ∧ Settled (nextLineStart isLineStart token) rest

section Settled

variable {isLineStart : Bool} {l l' : List Token}

/-- The start of a line asks for more than any other place. -/
theorem Settled.of_start : ∀ {isLineStart : Bool} {l : List Token}, Settled true l →
    Settled isLineStart l
  | _, [], _ => trivial
  | true, _ :: _, h => h
  | false, token :: rest, h => by
      refine ⟨⟨h.1.ordinary, fun hstart => by cases hstart⟩, ?_⟩
      cases hnewline : token.type == .newline with
      | true =>
          have hrest := h.2
          rw [nextLineStart, hnewline, Bool.true_or] at hrest ⊢
          exact hrest
      | false =>
          rw [nextLineStart, hnewline, Bool.false_and, Bool.or_false]
          cases hlabel : token.type == .labelInit with
          | true =>
              have hrest := h.2
              rw [nextLineStart, hlabel, Bool.true_and, Bool.or_true] at hrest
              exact hrest.of_start
          | false =>
              have hrest := h.2
              rw [nextLineStart, hnewline, hlabel, Bool.and_false, Bool.or_false] at hrest
              exact hrest

theorem Settled.append (h : Settled isLineStart l) (h' : Settled true l') :
    Settled isLineStart (l ++ l') := by
  induction l generalizing isLineStart with
  | nil => exact h'.of_start
  | cons token rest ih => exact ⟨h.1, ih h.2⟩

/-- A settled list is its own expansion. -/
theorem Settled.expandTop_eq (h : Settled isLineStart l) : expandTop [] isLineStart l = .ok l := by
  induction l generalizing isLineStart with
  | nil => rfl
  | cons token rest ih =>
      rw [expandTop, expandAll_copied h.1.ordinary h.1.plain, ← expandTop, ih h.2]
      rfl

/-- **Every output is settled.**  Where a token is copied at the start of a line of the output, the
loop was at the start of a line, too. -/
theorem Expands.settled {stack : List Macro} {room : ℕ} {location : Option Token}
    {tokens : List Token} {emissions : List Emission}
    (h : Expands macros room stack location isLineStart tokens emissions) :
    Settled isLineStart (outputOf location emissions) := by
  induction h with
  | nil => trivial
  | definition definition later ih => exact ih.of_start
  | @copied room stack location isLineStart token rest emissions copied later ih =>
      have htoken : IsCopied [] isLineStart (cloneToken token location) := by
        refine ⟨?_, fun hstart hid => ⟨rfl, ?_⟩⟩
        · cases location <;> exact copied.ordinary
        · cases location <;> exact (copied.plain hstart hid).2
      refine ⟨htoken, ?_⟩
      have htype : nextLineStart isLineStart (cloneToken token location)
          = nextLineStart isLineStart token := by cases location <;> rfl
      rw [htype]
      exact ih
  | invocation invocation fresh arguments inner later ihInner ihLater =>
      exact ihInner.append ihLater

/-- **Expanding again** changes nothing, unless a definition directive is left. -/
theorem macrosExpand_of_settled (h : Settled true l)
    (hplain : ∀ t ∈ l, isDefinitionDirective t = false) : macrosExpand l = .ok l := by
  have hscan := scans_plain hplain []
  rw [List.append_nil] at hscan
  exact macrosExpand_eq_ok.mpr ⟨[], hscan, distinctNames_nil, h.expandTop_eq⟩

end Settled

/-! ## Captured bodies -/

section Bodies

variable {token : Token} {tokens rest l l' : List Token} {found : List Macro}

/-- A body is captured from what the scan passes. -/
theorem captureMacro_passed {definition : Token} {m : Macro} {after : List Token}
    (h : captureMacro macros definition l = .ok (m, after)) :
    ∃ passed, l = passed ++ after ∧ ∀ b ∈ m.body, b ∈ passed := by
  obtain ⟨-, -, -, -, -, hbody, -, ending, r, hdrop, -, rfl⟩ := captureMacro_eq_ok.mp h
  obtain ⟨header, hheader⟩ := nextLine_suffix l
  obtain ⟨line, hline⟩ := nextLine_suffix (ending :: r)
  have hsplit := List.takeWhile_append_dropWhile (p := (!isDirective · "endmacro"))
    (l := nextLine l)
  rw [← hbody, hdrop, ← hline] at hsplit
  refine ⟨header ++ (m.body ++ line), ?_, fun b hb => by simp [hb]⟩
  conv_lhs => rw [← hheader, ← hsplit]
  simp only [List.append_assoc]

theorem Scans.passed (h : Scans l found l') :
    ∃ passed, l = passed ++ l' ∧ ∀ m ∈ found, ∀ b ∈ m.body, b ∈ passed := by
  induction h with
  | refl l => exact ⟨[], rfl, by simp⟩
  | @definition token rest after l' m found definition captured later ih =>
      obtain ⟨before, rfl, hbefore⟩ := captureMacro_passed captured
      obtain ⟨passed, rfl, hpassed⟩ := ih
      refine ⟨token :: (before ++ passed), by simp, ?_⟩
      rw [List.forall_mem_cons]
      constructor
      · exact fun b hb => by simp [hbefore b hb]
      · exact fun m hm b hb => by simp [hpassed m hm b hb]
  | @other token rest l' found ordinary inside later ih =>
      obtain ⟨passed, rfl, hpassed⟩ := ih
      exact ⟨token :: passed, rfl, fun m hm b hb => List.mem_cons_of_mem _ (hpassed m hm b hb)⟩

/-- The bodies of what is captured from a position on lie behind its first token. -/
theorem Scans.bodies_behind (h : Scans (token :: rest) found []) :
    ∀ m ∈ found, ∀ b ∈ m.body, b ∈ rest := by
  cases h with
  | definition definition captured later =>
      obtain ⟨before, rfl, hbefore⟩ := captureMacro_passed captured
      obtain ⟨passed, rfl, hpassed⟩ := later.passed
      rw [List.forall_mem_cons]
      constructor
      · exact fun b hb => by simp [hbefore b hb]
      · exact fun m hm b hb => by simp [hpassed m hm b hb]
  | other ordinary inside later =>
      obtain ⟨passed, rfl, hpassed⟩ := later.passed
      exact fun m hm b hb => by simp [hpassed m hm b hb]

/-- A token to which the scan comes stands in no body. -/
theorem Scans.head_not_mem {found' : List Macro} (hpos : tokens.Pairwise (·.pos < ·.pos))
    (h : Scans tokens found (token :: rest)) (hlater : Scans (token :: rest) found' []) :
    ∀ m ∈ found ++ found', token ∉ m.body := by
  obtain ⟨passed, rfl, hpassed⟩ := h.passed
  obtain ⟨-, hrest, hacross⟩ := List.pairwise_append.mp hpos
  intro m hm htoken
  rcases List.mem_append.mp hm with hm | hm
  · have hlt := hacross token (hpassed m hm token htoken) token List.mem_cons_self
    omega
  · have hlt := (List.pairwise_cons.mp hrest).1 token (hlater.bodies_behind m hm token htoken)
    omega

theorem Scans.head_not_ending (h : Scans (token :: rest) found []) :
    isDirective token "endmacro" = false := by
  cases h with
  | definition definition _ _ => exact not_ending_of_definition definition
  | other _ inside _ => exact inside

end Bodies

/-! ## Stray directives -/

/-- Where `macros_expand` begins. -/
def topPosition (tokens : List Token) : RangePosition where
  room := 64
  stack := []
  isLineStart := true
  tokens

/-- Whenever the loop copies a token, at any depth, that token is no `.endmacro`, and the token at
which the outermost loop stands belongs to no captured body. -/
def StrayFree (macros : List Macro) (tokens : List Token) : Prop :=
  ∀ origin token, CopiesAt macros (topPosition tokens) origin token →
    isDirective token "endmacro" = false ∧ ∀ m ∈ macros, origin ∉ m.body

/-- The expansion comes from one position to another, at any depth. -/
def Comes (macros : List Macro) : RangePosition → RangePosition → Prop :=
  Relation.ReflTransGen fun position next =>
    Passes macros position next ∨ Enters macros position next

/-- No invocation to which the expansion comes has a definition directive for an argument. -/
def PlainInvocations (macros : List Macro) (position : RangePosition) : Prop :=
  ∀ room stack token rest m values, Comes macros position ⟨room, stack, true, token :: rest⟩ →
    IsInvocation macros token m → readArguments m (lineTokens rest) token = .ok values →
      ∀ v ∈ values, isDefinitionDirective v = false

section Plain

variable {position next : RangePosition} {origin token : Token} {tokens : List Token}
  {found : List Macro}

theorem PlainInvocations.pass (h : PlainInvocations macros position)
    (hpasses : Passes macros position next) : PlainInvocations macros next :=
  fun room stack token rest m values hcomes =>
    h room stack token rest m values (.head (.inl hpasses) hcomes)

theorem PlainInvocations.enter (h : PlainInvocations macros position)
    (henters : Enters macros position next) : PlainInvocations macros next :=
  fun room stack token rest m values hcomes =>
    h room stack token rest m values (.head (.inr henters) hcomes)

/-- A nested range holds no definition directive. -/
theorem PlainInvocations.enter_plain (h : PlainInvocations macros position)
    (hbodies : ∀ m ∈ macros, ∀ t ∈ m.body, isDefinitionDirective t = false)
    (henters : Enters macros position next) :
    ∀ t ∈ next.tokens, isDefinitionDirective t = false := by
  cases henters with
  | invocation invocation arguments =>
      have hvalues := h _ _ _ _ _ _ .refl invocation arguments
      rw [List.forall_mem_map]
      exact fun t ht => substitute_plain_directive hvalues
        (hbodies _ (mem_of_findMacro invocation.found) t ht)

/-- In a range without definition directives no `.endmacro` is copied. -/
theorem CopiesAt.not_ending (h : CopiesAt macros position origin token)
    (hbodies : ∀ m ∈ macros, ∀ t ∈ m.body, isDefinitionDirective t = false)
    (hplain : PlainInvocations macros position)
    (htokens : ∀ t ∈ position.tokens, isDefinitionDirective t = false) :
    isDirective token "endmacro" = false := by
  induction h with
  | here copied => exact (isDefinitionDirective_eq_false.mp (htokens _ List.mem_cons_self)).2
  | inside enters copies ih => exact ih (hplain.enter enters) (hplain.enter_plain hbodies enters)
  | later passes copies ih =>
      refine ih (hplain.pass passes) fun t ht => htokens t ?_
      cases passes with
      | definition definition => exact skipMacroDefinition_subset _ ht
      | copied copied => exact List.mem_cons_of_mem _ ht
      | invocation invocation arguments => exact List.mem_cons_of_mem _ (nextLine_subset _ ht)

/-- **One pass of the outermost loop** leads to a position of the scan, too. -/
theorem Passes.scans (h : Passes macros position next) (hplain : PlainInvocations macros position)
    (hcomments : CommentsLast position.tokens) (hscan : Scans position.tokens found []) :
    ∃ found', Scans position.tokens found' next.tokens := by
  cases h with
  | definition definition =>
      exact hscan.pass_definition (hcomments.suffix (List.suffix_cons _ _)) definition
  | copied copied => exact ⟨[], hscan.pass_ordinary copied.ordinary⟩
  | invocation invocation arguments =>
      have hvalues := hplain _ _ _ _ _ _ .refl invocation arguments
      have hline := readArguments_line (hcomments.suffix (List.suffix_cons _ _)) arguments hvalues
      exact ⟨_, (hscan.pass_ordinary invocation.ordinary).trans (scans_line hline)⟩

/-- **The outermost loop** copies nothing stray, by induction on the passes that lead to the copy:
each of them stops at a position of the scan. -/
theorem CopiesAt.strayFree (h : CopiesAt macros position origin token)
    (hpos : tokens.Pairwise (·.pos < ·.pos)) (hcomments : CommentsLast tokens)
    (hscan : Scans tokens found []) (hmacros : ∀ m ∈ macros, m ∈ found)
    (hreached : ∃ found', Scans tokens found' position.tokens)
    (hplain : PlainInvocations macros position) :
    isDirective token "endmacro" = false ∧ ∀ m ∈ macros, origin ∉ m.body := by
  have hbodies : ∀ m ∈ macros, ∀ t ∈ m.body, isDefinitionDirective t = false :=
    fun m hm => hscan.body_plain m (hmacros m hm)
  induction h with
  | here copied =>
      obtain ⟨found', hreached⟩ := hreached
      obtain ⟨later, rfl, hlater⟩ := hreached.split hscan (Nat.zero_le _)
      exact ⟨hlater.head_not_ending, fun m hm => hreached.head_not_mem hpos hlater m (hmacros m hm)⟩
  | inside enters copies ih =>
      obtain ⟨found', hreached⟩ := hreached
      obtain ⟨later, rfl, hlater⟩ := hreached.split hscan (Nat.zero_le _)
      exact ⟨copies.not_ending hbodies (hplain.enter enters) (hplain.enter_plain hbodies enters),
        fun m hm => hreached.head_not_mem hpos hlater m (hmacros m hm)⟩
  | later passes copies ih =>
      refine ih ?_ (hplain.pass passes)
      obtain ⟨found', hreached⟩ := hreached
      obtain ⟨later, rfl, hlater⟩ := hreached.split hscan (Nat.zero_le _)
      obtain ⟨passed, hpassed, -⟩ := hreached.passed
      have hsuffix := hcomments.suffix ⟨passed, hpassed.symm⟩
      obtain ⟨_, hpass⟩ := passes.scans hplain hsuffix hlater
      exact ⟨_, hreached.trans hpass⟩

end Plain

/-! ## The output of a source -/

/-- Nothing is left of the directives: none is put out, another expansion changes nothing, and no
output token has the position of a token of a captured body, that is, none was put out by one. -/
structure DirectivesEliminated (tokens output : List Token) : Prop where
  plain : ∀ t ∈ output, isDefinitionDirective t = false
  again : macrosExpand output = .ok output
  bodies : ∀ macros, captureMacros tokens.length [] tokens = .ok macros →
    ∀ m ∈ macros, ∀ b ∈ m.body, ∀ t ∈ output, t.pos ≠ b.pos

/-- The tokens of a source lie one behind the other. -/
theorem lexSource_pos_lt {source : CString} {tokens : List Token}
    (h : lexSource source = .ok tokens) : tokens.Pairwise (·.pos < ·.pos) := by
  have hreads := readsAll_lexRest (lexerInit source)
  rw [← lexSource_eq, h] at hreads
  have hlossless := hreads.losslessFrom source.nulFree (lexerInit_at source) rfl
  refine hlossless.ordered.imp_of_mem fun {token other} htoken _ hle => ?_
  have hpositive := hlossless.nonempty token htoken
  omega

theorem eq_of_pos_eq {tokens : List Token} (hpos : tokens.Pairwise (·.pos < ·.pos)) {a b : Token}
    (ha : a ∈ tokens) (hb : b ∈ tokens) (h : a.pos = b.pos) : a = b := by
  have hnodup : (tokens.map (·.pos)).Nodup := List.pairwise_map.mpr (hpos.imp Nat.ne_of_lt)
  exact List.inj_on_of_nodup_map hnodup ha hb h

/-- What is left of the directives, read off the passes of the loop. -/
theorem eliminated_iff_strayFree {tokens : List Token} {emissions : List Emission}
    (hpos : tokens.Pairwise (·.pos < ·.pos))
    (hcapture : captureMacros tokens.length [] tokens = .ok macros)
    (hexpands : Expands macros 64 [] none true tokens emissions) :
    DirectivesEliminated tokens (outputOf none emissions) ↔ StrayFree macros tokens := by
  obtain ⟨found, hscan, hfound, -⟩ := captureAll_eq_ok.mp hcapture
  constructor
  · intro h origin token hcopies
    obtain ⟨emission, hmem, rfl, t, ht, halike⟩ := hcopies.exists_output hexpands
    have houtput := mem_outputOf.mpr ⟨emission, hmem, ht⟩
    refine ⟨?_, fun m hm hbody => ?_⟩
    · rw [← halike.isDirective_eq]
      exact (isDefinitionDirective_eq_false.mp (h.plain t houtput)).2
    · have hplace := hexpands.emission_located hmem t ht
      exact h.bodies macros hcapture m hm _ hbody t houtput
        (congrArg SourceLocation.byteOffset hplace)
  · intro h
    have hplain : ∀ t ∈ outputOf none emissions, isDefinitionDirective t = false := by
      intro t ht
      obtain ⟨emission, hmem, ht⟩ := mem_outputOf.mp ht
      obtain ⟨token, hcopies, halike⟩ := hexpands.copiesAt emission hmem t ht
      rw [isDefinitionDirective_eq_false, halike.isDirective_eq, halike.isDirective_eq]
      exact ⟨hcopies.ordinary, (h _ token hcopies).1⟩
    refine ⟨hplain, macrosExpand_of_settled hexpands.settled hplain, ?_⟩
    intro macros' hcapture' m hm b hb t ht hpos'
    obtain rfl := Except.ok.inj (hcapture.symm.trans hcapture')
    obtain ⟨emission, hmem, ht⟩ := mem_outputOf.mp ht
    obtain ⟨token, hcopies, -⟩ := hexpands.copiesAt emission hmem t ht
    have hplace := congrArg SourceLocation.byteOffset (hexpands.emission_located hmem t ht)
    have horigin : emission.origin ∈ tokens :=
      hexpands.origins_sublist.subset (List.mem_map_of_mem hmem)
    have hbody : b ∈ tokens := by
      obtain ⟨passed, hpassed, hbodies⟩ := hscan.passed
      rw [hpassed]
      exact List.mem_append_left _ (hbodies m (by simpa [hfound] using hm) b hb)
    have heq := eq_of_pos_eq hpos horigin hbody (hplace.symm.trans hpos')
    exact (h _ token hcopies).2 m hm (heq ▸ hb)

/-- Without such arguments nothing stray is copied. -/
theorem strayFree_of_plain {source : CString} {tokens : List Token}
    (hlex : lexSource source = .ok tokens)
    (hcapture : captureMacros tokens.length [] tokens = .ok macros)
    (hplain : PlainInvocations macros (topPosition tokens)) : StrayFree macros tokens := by
  obtain ⟨found, hscan, rfl, -⟩ := captureAll_eq_ok.mp hcapture
  intro origin token hcopies
  exact hcopies.strayFree (lexSource_pos_lt hlex) (lexSource_commentsLast hlex) hscan
    (fun m hm => List.mem_reverse.mp hm) ⟨[], .refl tokens⟩ hplain

/-- **Macro directives are eliminated** if and only if nothing stray is copied, and so they are
whenever no invocation has a definition directive for an argument. -/
theorem directivesEliminated_iff {source : CString} {tokens output : List Token}
    (hlex : lexSource source = .ok tokens) (h : macrosExpand tokens = .ok output) :
    (DirectivesEliminated tokens output ↔
      ∀ macros, captureMacros tokens.length [] tokens = .ok macros → StrayFree macros tokens) ∧
    ((∀ macros, captureMacros tokens.length [] tokens = .ok macros →
      PlainInvocations macros (topPosition tokens)) → DirectivesEliminated tokens output) := by
  obtain ⟨macros, emissions, hcapture, hexpands, rfl⟩ := macrosExpand_expands h
  have hiff := eliminated_iff_strayFree (lexSource_pos_lt hlex) hcapture hexpands
  refine ⟨?_, fun hplain => hiff.mpr (strayFree_of_plain hlex hcapture (hplain macros hcapture))⟩
  rw [hiff]
  constructor
  · intro hfree macros' hcapture'
    exact Except.ok.inj (hcapture.symm.trans hcapture') ▸ hfree
  · intro hfree
    exact hfree macros hcapture

/-- A definition and an invocation of it. -/
def putSource : CString := CString.lit ".macro put value\n.word value\n.endmacro\nput 7\n"

theorem directivesEliminated_iff_putSource : ∃ tokens output,
    lexSource putSource = .ok tokens ∧ macrosExpand tokens = .ok output ∧ output.length = 3 ∧
      (DirectivesEliminated tokens output ↔ ∀ macros,
        captureMacros tokens.length [] tokens = .ok macros → StrayFree macros tokens) := by
  have hrun : (do
      let tokens ← lexSource putSource
      let output ← macrosExpand tokens
      return output.length) = .ok 3 := by
    decide +kernel
  simp only [bind_eq_ok] at hrun
  obtain ⟨tokens, htokens, output, houtput, hrun⟩ := hrun
  exact ⟨tokens, output, htokens, houtput, Except.ok.inj hrun,
    (directivesEliminated_iff htokens houtput).1⟩

/-- An invocation with a `.macro` for an argument, which begins a definition. -/
def swallowedSource : CString :=
  CString.lit ".macro pair first, second\n.endmacro\npair .macro inner\nnop\n.endmacro\n"

theorem swallowedSource_not_eliminated : ∃ tokens output,
    lexSource swallowedSource = .ok tokens ∧ macrosExpand tokens = .ok output ∧
      ¬DirectivesEliminated tokens output := by
  have hrun : (do
      let tokens ← lexSource swallowedSource
      let output ← macrosExpand tokens
      return output.any isDefinitionDirective) = .ok true := by
    decide +kernel
  simp only [bind_eq_ok] at hrun
  obtain ⟨tokens, htokens, output, houtput, hrun⟩ := hrun
  refine ⟨tokens, output, htokens, houtput, fun h => ?_⟩
  obtain ⟨t, ht, hdirective⟩ := List.any_eq_true.mp (Except.ok.inj hrun)
  rw [h.plain t ht] at hdirective
  cases hdirective

end Zlvm
