import Zlvm.Asm.AlikeExpansion
import Zlvm.Asm.Comments

/-!
# Inlining macros

An invocation at the top level may be replaced by the body of its macro, with the arguments in place
of the parameters.

* `Visits` — the outermost loop of `expand_range` from one position to a later one, and the output
  on the way; `Visits.append_right` — what comes behind does not matter.
* `IsInvocation`, `PlainArguments` — the invocation, and what is asked of those of a token list.
* `Visits.scans` — the two scans of such a list go together.
* **`macrosExpand_inlined`** — the expansion stays the same.
-/

namespace Zlvm

open Loop

variable {macros : List Macro} {isLineStart isLineStart' : Bool} {token : Token}
  {l l' rest output : List Token} {m : Macro}

/-- A token at the start of a line that invokes a macro. -/
structure IsInvocation (macros : List Macro) (token : Token) (m : Macro) : Prop where
  ordinary : isDirective token "macro" = false
  id : token.type = .id
  found : findMacro macros (invocationName token) = some m

/-- The outermost loop of `expand_range` gets from one position to another and outputs some tokens
on the way. -/
inductive Visits (macros : List Macro) :
    Bool → List Token → List Token → Bool → List Token → Prop
  | refl (isLineStart : Bool) (l : List Token) : Visits macros isLineStart l [] isLineStart l
  | definition {isLineStart isLineStart' : Bool} {token : Token} {rest output l' : List Token}
      (definition : isDirective token "macro" = true)
      (later : Visits macros true (skipMacroDefinition (token :: rest)) output isLineStart' l') :
      Visits macros isLineStart (token :: rest) output isLineStart' l'
  | copied {isLineStart isLineStart' : Bool} {token : Token} {rest output l' : List Token}
      (ordinary : isDirective token "macro" = false)
      (plain : isLineStart = true → token.type = .id →
        findMacro macros (invocationName token) = none ∧
          token.value.bytes.headD 0 ≠ invocationMark)
      (later : Visits macros (nextLineStart isLineStart token) rest output isLineStart' l') :
      Visits macros isLineStart (token :: rest) (token :: output) isLineStart' l'
  | invocation {isLineStart' : Bool} {token : Token} {rest expansion output l' : List Token}
      {m : Macro} (invocation : IsInvocation macros token m)
      (expanded : expandMacro macros 64 [] m (lineTokens rest) token = .ok expansion)
      (later : Visits macros true (nextLine rest) output isLineStart' l') :
      Visits macros true (token :: rest) (expansion ++ output) isLineStart' l'

theorem Visits.length_le (h : Visits macros isLineStart l output isLineStart' l') :
    l'.length ≤ l.length := by
  induction h with
  | refl _ _ => exact Nat.le_refl _
  | definition definition _ ih =>
      exact Nat.le_trans ih (Nat.le_succ_of_le (skipMacroDefinition_length_lt definition))
  | copied _ _ _ ih => exact Nat.le_succ_of_le ih
  | invocation _ _ _ ih => exact Nat.le_succ_of_le (Nat.le_trans ih (nextLine_length_le _))

/-- **The expansion from the later position** completes the output. -/
theorem Visits.expandTop_eq (h : Visits macros isLineStart l output isLineStart' l') :
    expandTop macros isLineStart l = do
      return output ++ (← expandTop macros isLineStart' l') := by
  induction h with
  | refl isLineStart l => cases expandTop macros isLineStart l <;> rfl
  | definition definition _ ih =>
      rw [expandTop, expandAll_definition definition]
      exact ih
  | @copied isLineStart isLineStart' token rest output l' ordinary plain _ ih =>
      rw [expandTop, expandAll_copied ordinary plain, ← expandTop, ih]
      cases expandTop macros isLineStart' l' <;> rfl
  | @invocation isLineStart' token rest expansion output l' m invocation expanded _ ih =>
      rw [expandTop, expandAll_invocation invocation.ordinary invocation.id invocation.found,
        expanded, ok_bind, ← expandTop, ih]
      cases expandTop macros isLineStart' l' with
      | error failure => rfl
      | ok later =>
          show Except.ok _ = Except.ok _
          rw [List.append_assoc]

/-! ## What comes behind -/

/-- A line that does not reach into `l'` ends before it. -/
theorem hasNewline_of_length (hl' : l' ≠ []) (h : l'.length ≤ (nextLine (l ++ l')).length) :
    HasNewline l := by
  by_contra hnot
  rw [nextLine_append_of_not hnot] at h
  have hlt := nextLine_length_lt hl'
  omega

/-- A definition that does not reach into `l'` is skipped whatever `l'` is. -/
theorem skipMacroDefinition_before (hl' : l' ≠ [])
    (h : l'.length ≤ (skipMacroDefinition (l ++ l')).length) :
    ∃ after, ∀ l'', skipMacroDefinition (l ++ l'') = after ++ l'' := by
  have hinside : ∃ t ∈ l, (!isDirective t "endmacro") = false := by
    by_contra hnot
    push Not at hnot
    rw [skipMacroDefinition, List.dropWhile_append_of_pos fun t ht => by simpa using hnot t ht] at h
    by_cases hnil : l'.dropWhile (!isDirective · "endmacro") = []
    · rw [hnil] at h
      exact hl' (List.length_eq_zero_iff.mp (Nat.le_zero.mp h))
    · have hlt := nextLine_length_lt hnil
      have hle := (List.dropWhile_suffix (!isDirective · "endmacro") (l := l')).length_le
      omega
  rw [skipMacroDefinition, dropWhile_append_of_exists hinside] at h
  have hnewline := hasNewline_of_length hl' h
  refine ⟨nextLine (l.dropWhile (!isDirective · "endmacro")), fun l'' => ?_⟩
  rw [skipMacroDefinition, dropWhile_append_of_exists hinside, nextLine_append hnewline]

/-- **What comes behind does not matter** to the expansion of the tokens before it. -/
theorem Visits.append_right (hl' : l' ≠ [])
    (h : Visits macros isLineStart (l ++ l') output isLineStart' l') (l'' : List Token) :
    Visits macros isLineStart (l ++ l'') output isLineStart' l'' := by
  generalize hsplit : l ++ l' = whole at h
  induction h generalizing l with
  | refl isLineStart l' =>
      obtain rfl : l = [] := by simpa using hsplit
      exact .refl isLineStart l''
  | @definition isLineStart isLineStart' token rest output l' definition later ih =>
      have hle := later.length_le
      obtain ⟨tail, rfl, rfl⟩ :=
        exists_cons_of_append hsplit (Nat.le_trans hle (skipMacroDefinition_length_lt definition))
      obtain ⟨after, hafter⟩ := skipMacroDefinition_before (l := token :: tail) hl' hle
      rw [List.cons_append]
      refine .definition definition ?_
      rw [← List.cons_append, hafter]
      exact ih hl' (hafter l').symm
  | @copied isLineStart isLineStart' token rest output l' ordinary plain later ih =>
      obtain ⟨tail, rfl, rfl⟩ := exists_cons_of_append hsplit later.length_le
      exact .copied ordinary plain (ih hl' rfl)
  | @invocation isLineStart' token rest expansion output l' m invocation expanded later ih =>
      have hle := later.length_le
      obtain ⟨tail, rfl, rfl⟩ :=
        exists_cons_of_append hsplit (Nat.le_trans hle (nextLine_length_le rest))
      have hnewline := hasNewline_of_length hl' hle
      rw [List.cons_append]
      refine .invocation invocation ?_ ?_
      · rwa [lineTokens_append hnewline] at expanded ⊢
      · rw [nextLine_append hnewline]
        exact ih hl' (nextLine_append hnewline l').symm

/-! ## Bodies and invocations -/

/-- The body of a macro holds no definition. -/
theorem Scans.body_plain {found : List Macro} (h : Scans l found l') :
    ∀ m ∈ found, ∀ t ∈ m.body, isDefinitionDirective t = false := by
  induction h with
  | refl _ => nofun
  | definition _ captured _ ih =>
      rw [List.forall_mem_cons]
      refine ⟨fun t ht => ?_, ih⟩
      obtain ⟨-, -, -, -, -, hbody, hnested, -⟩ := captureMacro_eq_ok.mp captured
      refine isDefinitionDirective_eq_false.mpr ⟨?_, ?_⟩
      · simpa using List.find?_eq_none.mp hnested t ht
      · rw [hbody] at ht
        simpa using List.mem_takeWhile_imp ht
  | other _ _ _ ih => exact ih

/-- A value is not lost when another one is put into a free place. -/
theorem mem_set_of_isNone {t : Token} {values : List (Option Token)} {i : ℕ} (h : some t ∈ values)
    (hfree : (values.getD i none).isNone = true) (value : Option Token) :
    some t ∈ values.set i value := by
  obtain ⟨j, hj⟩ := List.mem_iff_getElem?.mp h
  refine List.mem_iff_getElem?.mpr ⟨j, ?_⟩
  rw [List.getElem?_set_ne, hj]
  rintro rfl
  rw [List.getD_eq_getElem?_getD, hj] at hfree
  cases hfree

/-- **A positional argument** is the value of some parameter: a named one needs a free place, and
positional ones come in order. -/
theorem readArguments_positional {tokens values : List Token} {invocation : Token}
    (h : readArguments m tokens invocation = .ok values) :
    ∀ t ∈ argumentTokens tokens, t.type ≠ .id → t ∈ values := by
  obtain ⟨state, hfold, hsome⟩ := readArguments_eq_ok.mp h
  have hstate := foldlM_induction (fun done (state : ArgumentState) =>
    state.arguments.length = m.parameters.length ∧
      (∀ t ∈ done, t.type ≠ .id → some t ∈ state.arguments) ∧
      (state.hasNamedArgument = false →
        ∀ i ≥ state.positionalIndex, (state.arguments.getD i none).isNone = true)) hfold ?_ ?_
  · intro t ht htype
    have hmem := hstate.2.1 t ht htype
    rw [hsome] at hmem
    simpa using hmem
  · exact ⟨List.length_replicate, by simp, fun _ i _ => by simp [argumentInit]⟩
  · rintro done argument rest state state' - ⟨hlength, hdone, hfree⟩ hread
    unfold readArgument at hread
    split at hread
    · rename_i hnamed
      simp only [bind_eq_ok, require_eq_ok] at hread
      obtain ⟨-, -, -, ⟨-, hplace⟩, token, -, hread⟩ := hread
      obtain rfl := Except.ok.inj hread
      refine ⟨by rw [List.length_set, hlength], fun t ht htype => ?_, by simp⟩
      rcases List.mem_append.mp ht with ht | ht
      · exact mem_set_of_isNone (hdone t ht htype) hplace _
      · exact absurd (List.mem_singleton.mp ht ▸ hnamed.1) htype
    · simp only [bind_eq_ok, require_eq_ok] at hread
      obtain ⟨-, ⟨hpositional, hindex⟩, hread⟩ := hread
      obtain rfl := Except.ok.inj hread
      have hplace := hfree hpositional
      refine ⟨by rw [List.length_set, hlength], fun t ht htype => ?_, fun _ i hi => ?_⟩
      · rcases List.mem_append.mp ht with ht | ht
        · exact mem_set_of_isNone (hdone t ht htype) (hplace _ (Nat.le_refl _)) _
        · rw [List.mem_singleton.mp ht]
          exact List.mem_set (by omega) _
      · dsimp only at hi ⊢
        have hlater := hplace i (by omega)
        rw [List.getD_eq_getElem?_getD, List.getElem?_set_ne (by omega),
          ← List.getD_eq_getElem?_getD]
        exact hlater

/-- The line of an invocation. -/
theorem readArguments_line {token : Token} {values : List Token} (hcomments : CommentsLast l)
    (hvalues : readArguments m (lineTokens l) token = .ok values)
    (hplain : ∀ v ∈ values, isDefinitionDirective v = false) :
    ∀ t ∈ lineTokens l, isDefinitionDirective t = false := by
  refine hcomments.line fun t ht => ?_
  by_cases hid : t.type = .id
  · exact isDefinitionDirective_of_type (by simp [hid])
  by_cases hcomma : t.type = .comma
  · exact isDefinitionDirective_of_type (by simp [hcomma])
  exact hplain t (readArguments_positional hvalues t
    (List.mem_filter.mpr ⟨ht, by simpa using hcomma⟩) hid)

/-- What an invocation that succeeds returns. -/
theorem expandMacro_eq_ok {room : ℕ} {stack : List Macro} {arguments expansion : List Token}
    {invocation : Token}
    (h : expandMacro macros (room + 1) stack m arguments invocation = .ok expansion) :
    ∃ values, readArguments m arguments invocation = .ok values ∧
      expandAll (expandMacro macros room (m :: stack)) macros (some invocation) true
        (m.body.map (substitute m values invocation)) = .ok expansion := by
  rw [expandMacro_succ] at h
  simp only [bind_eq_ok] at h
  obtain ⟨-, -, values, hvalues, h⟩ := h
  exact ⟨values, hvalues, h⟩

/-! ## Both scans -/

/-- No argument of an invocation to which the outermost loop comes is a definition directive. -/
def PlainArguments (macros : List Macro) (isLineStart : Bool) (l : List Token) : Prop :=
  ∀ output token rest m values, Visits macros isLineStart l output true (token :: rest) →
    IsInvocation macros token m → readArguments m (lineTokens rest) token = .ok values →
      ∀ v ∈ values, isDefinitionDirective v = false

/-- The scan of `capture_macros` passes a definition that `expand_range` skips. -/
theorem Scans.pass_definition {found : List Macro} (hscan : Scans (token :: rest) found [])
    (hcomments : CommentsLast rest) (definition : isDirective token "macro" = true) :
    ∃ found', Scans (token :: rest) found' (skipMacroDefinition (token :: rest)) := by
  cases hscan with
  | @definition _ _ after _ m _ _ captured _ =>
      have hheader := captureMacro_header hcomments captured
      have hskip := skipMacroDefinition_of_capture captured definition fun t ht =>
        (isDefinitionDirective_eq_false.mp (hheader t ht)).2
      rw [hskip]
      exact ⟨[m], .definition definition captured (.refl after)⟩
  | other ordinary _ _ =>
      rw [definition] at ordinary
      cases ordinary

/-- It passes a token that is no `.macro`. -/
theorem Scans.pass_ordinary {found : List Macro} (hscan : Scans (token :: rest) found [])
    (ordinary : isDirective token "macro" = false) : Scans (token :: rest) [] rest := by
  cases hscan with
  | definition definition _ _ =>
      rw [definition] at ordinary
      cases ordinary
  | other _ inside _ => exact .other ordinary inside (.refl rest)

/-- **The two scans go together**: the scan of `capture_macros` comes to every position of the
outermost loop of `expand_range`. -/
theorem Visits.scans {found : List Macro}
    (h : Visits macros isLineStart l output isLineStart' l') (hscan : Scans l found [])
    (hcomments : CommentsLast l) (harguments : PlainArguments macros isLineStart l) :
    ∃ found', Scans l found' l' := by
  induction h generalizing found with
  | refl _ l => exact ⟨[], .refl l⟩
  | @definition isLineStart isLineStart' token rest output l' definition later ih =>
      have hrest := hcomments.suffix (List.suffix_cons _ _)
      obtain ⟨found₁, hpass⟩ := hscan.pass_definition hrest definition
      obtain ⟨_, -, hscan⟩ := hpass.split hscan (Nat.zero_le _)
      obtain ⟨found₂, hlater⟩ := ih hscan (hrest.suffix (skipMacroDefinition_suffix definition))
        fun output' token' rest' m values hvisits =>
          harguments output' token' rest' m values (.definition definition hvisits)
      exact ⟨_, hpass.trans hlater⟩
  | @copied isLineStart isLineStart' token rest output l' ordinary plain later ih =>
      have hpass := hscan.pass_ordinary ordinary
      obtain ⟨_, -, hscan⟩ := hpass.split hscan (Nat.zero_le _)
      obtain ⟨found', hlater⟩ := ih hscan (hcomments.suffix (List.suffix_cons _ _))
        fun output' token' rest' m values hvisits =>
          harguments _ token' rest' m values (.copied ordinary plain hvisits)
      exact ⟨_, hpass.trans hlater⟩
  | @invocation isLineStart' token rest expansion output l' m invocation expanded later ih =>
      have hrest := hcomments.suffix (List.suffix_cons _ _)
      obtain ⟨values, hvalues, -⟩ := expandMacro_eq_ok expanded
      have hplain := harguments [] token rest m values (.refl _ _) invocation hvalues
      have hpass := (hscan.pass_ordinary invocation.ordinary).trans
        (scans_line (readArguments_line hrest hvalues hplain))
      obtain ⟨_, -, hscan⟩ := hpass.split hscan (Nat.zero_le _)
      obtain ⟨found', hlater⟩ := ih hscan (hrest.suffix (nextLine_suffix _))
        fun output' token' rest' m values hvisits =>
          harguments _ token' rest' m values (.invocation invocation expanded hvisits)
      exact ⟨_, hpass.trans hlater⟩

/-! ## Inlining -/

/-- A substituted body holds no definition. -/
theorem substitute_plain_directive {values : List Token} {invocation t : Token}
    (hvalues : ∀ v ∈ values, isDefinitionDirective v = false)
    (ht : isDefinitionDirective t = false) :
    isDefinitionDirective (substitute m values invocation t) = false := by
  unfold substitute
  dsimp only
  split
  · exact ht
  · rename_i value hvalue
    split
    · exact isDefinitionDirective_of_type (by simp)
    · exact hvalues value (List.mem_of_getElem? hvalue)

theorem plain_alike (h : TokensAlike l l') (hl' : ∀ t ∈ l', isDefinitionDirective t = false) :
    ∀ t ∈ l, isDefinitionDirective t = false := by
  induction h with
  | nil => exact hl'
  | cons head _ ih =>
      rw [List.forall_mem_cons] at hl' ⊢
      refine ⟨?_, ih hl'.2⟩
      rw [isDefinitionDirective, head.isDirective_eq, head.isDirective_eq]
      exact hl'.1

theorem endsLine_alike (h : TokensAlike l l') (hl' : EndsLine l') : EndsLine l := by
  intro t ht
  have hreverse := List.forall₂_reverse_iff.mpr h
  rw [List.getLast?_eq_head?_reverse] at ht
  generalize l.reverse = r at ht hreverse
  generalize hr' : l'.reverse = r' at hreverse
  cases hreverse with
  | nil => cases ht
  | @cons _ t' _ rest' head _ =>
      obtain rfl := Option.some.inj ht
      rw [head.type]
      refine hl' t' ?_
      rw [List.getLast?_eq_head?_reverse, hr']
      rfl

/-- A body that ends its line does so with its arguments. -/
theorem endsLine_substitute {values : List Token} {invocation : Token}
    (hlength : values.length = m.parameters.length) (h : EndsLine m.body) :
    EndsLine (m.body.map (substitute m values invocation)) := by
  intro t ht
  rw [List.getLast?_map] at ht
  obtain ⟨last, hlast, rfl⟩ := Option.map_eq_some_iff.mp ht
  have hnewline := h last hlast
  rw [substitute_of_endsLine hlength (by simp [endsLine, hnewline])]
  exact hnewline

/-- **Macro inlining preserves the expansion.**  An invocation at the top level is replaced, from
its name to the end of its line, by the body of its macro with the arguments in place of the
parameters. -/
theorem macrosExpand_inlined {tokens before expansion : List Token}
    (hcapture : captureAll [] tokens = .ok macros) (hrun : macrosExpand tokens = .ok expansion)
    (hcomments : CommentsLast tokens) (harguments : PlainArguments macros true tokens)
    (htokens : tokens = before ++ token :: rest)
    (hvisits : Visits macros true tokens output true (token :: rest))
    (hinvocation : IsInvocation macros token m) (hbody : EndsLine m.body) :
    ∃ values, readArguments m (lineTokens rest) token = .ok values ∧
      ∀ inlined, TokensAlike inlined (m.body.map (substitute m values token)) →
        ∃ expansion', macrosExpand (before ++ (inlined ++ nextLine rest)) = .ok expansion' ∧
          TokensAlike expansion expansion' := by
  obtain ⟨found, hscan, rfl, hnames⟩ := captureAll_eq_ok.mp hcapture
  have hexpand : expandTop found.reverse true tokens = .ok expansion := by
    rw [macrosExpand_eq, ← captureAll, hcapture] at hrun
    exact hrun
  -- the expansion of the tokens before the invocation, of the invocation, and of those behind it
  rw [hvisits.expandTop_eq, expandTop,
    expandAll_invocation hinvocation.ordinary hinvocation.id hinvocation.found] at hexpand
  simp only [bind_eq_ok] at hexpand
  obtain ⟨_, ⟨invoked, hinvoked, later, hlater, hbehind⟩, hexpand⟩ := hexpand
  obtain rfl := Except.ok.inj hbehind
  obtain rfl := Except.ok.inj hexpand
  obtain ⟨values, hvalues, hnested⟩ := expandMacro_eq_ok hinvoked
  refine ⟨values, hvalues, fun inlined halike => ?_⟩
  have hplain := harguments _ _ _ _ _ hvisits hinvocation hvalues
  have hbodies := hscan.body_plain m (List.mem_reverse.mp (mem_of_findMacro hinvocation.found))
  have hinlined := plain_alike halike (List.forall_mem_map.mpr fun t ht =>
    substitute_plain_directive hplain (hbodies t ht))
  have hlines := endsLine_alike halike (endsLine_substitute (readArguments_length hvalues) hbody)
  -- the inlined tokens are expanded with one macro less on the stack
  obtain ⟨invoked', hinvoked', halike'⟩ := expandAll_alike
    (expandMacro_alike (Nat.le_succ 63) (List.nil_subset [m])) (some token) none _ (Nat.le_refl _)
    (tokensAlike_symm halike) hnested
  have hafter : expandTop found.reverse true (inlined ++ nextLine rest)
      = .ok (invoked' ++ later) := by
    rw [expandTop, expandAll_append _ (Nat.le_refl _)
      (ended_of_ordinary fun t ht => (isDefinitionDirective_eq_false.mp (hinlined t ht)).1) hlines
      (fun _ => rfl), hinvoked', ok_bind, hlater]
    rfl
  subst htokens
  -- what stands before the invocation is passed by both scans as before
  have hbefore := hvisits.append_right (List.cons_ne_nil token rest) (inlined ++ nextLine rest)
  obtain ⟨found₁, hscan₁⟩ := hvisits.scans hscan hcomments harguments
  obtain ⟨found₂, rfl, hscan₂⟩ := hscan₁.split hscan (Nat.zero_le _)
  have hsuffix := (List.suffix_cons token rest).trans (List.suffix_append before _)
  have hline := scans_line (readArguments_line (hcomments.suffix hsuffix) hvalues hplain)
  have hnext : Scans (nextLine rest) found₂ [] := by
    cases hscan₂ with
    | definition definition _ _ =>
        rw [hinvocation.ordinary] at definition
        cases definition
    | other _ _ hscan₂ =>
        obtain ⟨_, rfl, hnext⟩ := hline.split hscan₂ (Nat.zero_le _)
        exact hnext
  have hscan' := (hscan₁.append_right (absurd · (List.cons_ne_nil _ _)) _).trans
    ((scans_plain hinlined (nextLine rest)).trans hnext)
  refine ⟨output ++ (invoked' ++ later), macrosExpand_eq_ok.mpr
    ⟨found₁ ++ found₂, hscan', hnames, ?_⟩, ?_⟩
  · rw [hbefore.expandTop_eq, hafter]
    rfl
  · exact List.rel_append (tokensAlike_refl _) (List.rel_append halike' (tokensAlike_refl _))

/-- A macro with a parameter. -/
def putDefinition : List Token :=
  [plainToken .directive "macro", plainToken .id "put", plainToken .id "value",
    plainToken .newline "\n", plainToken .directive "word", plainToken .id "value",
    plainToken .newline "\n", plainToken .directive "endmacro", plainToken .newline "\n"]

/-- The line that invokes it. -/
def putInvocation : List Token := [plainToken .intDec "7", plainToken .newline "\n"]

def putMacro : Macro where
  name := plainToken .id "put"
  parameters := [plainToken .id "value"]
  body := [plainToken .directive "word", plainToken .id "value", plainToken .newline "\n"]

theorem putInvocation_isInvocation : IsInvocation [putMacro] (plainToken .id "put") putMacro :=
  ⟨rfl, rfl, rfl⟩

theorem putInvocation_visits : Visits [putMacro] true
    (putDefinition ++ plainToken .id "put" :: putInvocation) [] true
    (plainToken .id "put" :: putInvocation) :=
  .definition rfl (.refl _ _)

theorem putInvocation_commentsLast :
    CommentsLast (putDefinition ++ plainToken .id "put" :: putInvocation) := by
  intro comment rest hsuffix hcomment
  have hnone : ∀ t ∈ putDefinition ++ plainToken .id "put" :: putInvocation,
      t.type ≠ .comment := by decide
  exact absurd hcomment (hnone comment (hsuffix.subset List.mem_cons_self))

theorem putInvocation_plainArguments : PlainArguments [putMacro] true
    (putDefinition ++ plainToken .id "put" :: putInvocation) := by
  intro output token rest m values hvisits hinvocation hvalues
  have hput : ∀ {output rest : List Token} {token : Token}, Visits [putMacro] true
      (plainToken .id "put" :: putInvocation) output true (token :: rest) →
        token = plainToken .id "put" ∧ rest = putInvocation := by
    intro output rest token hvisits
    cases hvisits with
    | refl => exact ⟨rfl, rfl⟩
    | definition definition _ => cases definition
    | copied _ plain _ => cases (plain rfl rfl).1
    | invocation _ _ later => cases later
  cases hvisits with
  | refl => cases hinvocation.ordinary
  | copied ordinary _ _ => cases ordinary
  | invocation invocation _ _ => cases invocation.ordinary
  | definition _ later =>
      obtain ⟨rfl, rfl⟩ := hput later
      obtain rfl := Option.some.inj hinvocation.found
      obtain rfl := Except.ok.inj hvalues
      decide

theorem macrosExpand_inlined_put :
    ∃ expansion,
      macrosExpand (putDefinition ++ plainToken .id "put" :: putInvocation) = .ok expansion ∧
      ∃ values,
        readArguments putMacro (lineTokens putInvocation) (plainToken .id "put") = .ok values ∧
        ∀ inlined, TokensAlike inlined
            (putMacro.body.map (substitute putMacro values (plainToken .id "put"))) →
          ∃ expansion', macrosExpand (putDefinition ++ (inlined ++ nextLine putInvocation))
            = .ok expansion' ∧ TokensAlike expansion expansion' :=
  ⟨_, rfl, @macrosExpand_inlined [putMacro] _ _ _ _ _ _ _ rfl rfl putInvocation_commentsLast
    putInvocation_plainArguments rfl putInvocation_visits putInvocation_isInvocation
    fun _ h => Option.some.inj h ▸ rfl⟩

/-! ## A definition behind a comment -/

/-- A macro without a body. -/
def emptyDefinition : List Token :=
  [plainToken .directive "macro", plainToken .id "inner", plainToken .newline "\n",
    plainToken .directive "endmacro", plainToken .newline "\n"]

/-- What stands behind its invocation: a definition behind a comment. -/
def strayLine : List Token :=
  [plainToken .comment ";", plainToken .directive "macro", plainToken .id "other",
    plainToken .newline "\n", plainToken .directive "endmacro", plainToken .newline "\n"]

/-- The macros of such a list. -/
def strayMacros : List Macro :=
  [⟨plainToken .id "other", [], []⟩, ⟨plainToken .id "inner", [], []⟩]

theorem strayMacros_plainArguments {l : List Token} : PlainArguments strayMacros true l := by
  intro output token rest m values _ hinvocation hvalues v hv
  have hparameters : ∀ m ∈ strayMacros, m.parameters = [] := by decide
  have hlength := readArguments_length hvalues
  rw [hparameters m (mem_of_findMacro hinvocation.found)] at hlength
  obtain rfl := List.length_eq_zero_iff.mp hlength
  cases hv

/-- The scan finds a definition on the line of the invocation, and only its end is left when the
invocation is replaced. -/
theorem strayLine_not_inlined :
    captureAll [] (emptyDefinition ++ plainToken .id "inner" :: strayLine) = .ok strayMacros ∧
    (∀ m ∈ strayMacros, EndsLine m.body) ∧
    PlainArguments strayMacros true (emptyDefinition ++ plainToken .id "inner" :: strayLine) ∧
    ∃ m expansion failure,
      macrosExpand (emptyDefinition ++ plainToken .id "inner" :: strayLine) = .ok expansion ∧
      Visits strayMacros true (emptyDefinition ++ plainToken .id "inner" :: strayLine) [] true
        (plainToken .id "inner" :: strayLine) ∧
      IsInvocation strayMacros (plainToken .id "inner") m ∧
      readArguments m (lineTokens strayLine) (plainToken .id "inner") = .ok [] ∧
      macrosExpand (emptyDefinition ++ (m.body.map (substitute m [] (plainToken .id "inner"))
        ++ nextLine strayLine)) = .error failure := by
  refine ⟨rfl, ?_, strayMacros_plainArguments, _, _, _, rfl, .definition rfl (.refl _ _),
    ⟨rfl, rfl, rfl⟩, rfl, rfl⟩
  have hbodies : ∀ m ∈ strayMacros, m.body = [] := by decide
  intro m hm
  rw [hbodies m hm]
  exact endsLine_nil

end Zlvm
