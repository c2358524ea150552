import Mathlib.Computability.StateTransition
import Zlvm.Asm.Definitions

/-!
# The expansion, step by step

`macros_expand` with nothing to bound its loops and its recursion: a machine that takes one pass of
a loop, one call or one return at a time, and writes to the memory at `stack` wherever the source
does.

* `macrosStep` — one step; `Expander` — the memory, the activations of `expand_range`, the output.
* `Expander.Bounded` — what holds of the stack; `Bounded.step` — a step keeps it.
* `Returns`, `expander_returns` — an activation does what `expandAll` returns.
* **`macrosExpand_terminates`** — the machine stops with the result of `macrosExpand`, and its stack
  is bounded in every state on the way.
-/

namespace Zlvm

open Loop StateTransition

/-- An activation of `expand_range`: its parameters, and what its loop has left of the range. -/
structure Activation where
  stackCount : ℕ
  location : Option Token
  isLineStart : Bool
  tokens : List Token

/-- The memory at `stack`, with nothing where nothing has been written; the activations of
`expand_range`, the innermost first; the output. -/
structure Expander where
  stack : ℕ → Option Macro
  activations : List Activation
  output : List Token

/-- The number of macros being expanded. -/
def Expander.depth (s : Expander) : ℕ := s.activations.length - 1

/-- `is_expanding`. -/
def isExpanding (m : Macro) (stack : ℕ → Option Macro) (stackCount : ℕ) : Bool :=
  (List.range stackCount).any (stack · == some m)

/-- What the innermost activation does next: the return at the end of its range, a pass of its loop
or, at an invocation, the call of `expand_macro` up to that of the nested `expand_range`. -/
def expanderStep (macros : List Macro) (s : Expander) (active : Activation)
    (callers : List Activation) : Except AsmFailure Expander :=
  match active.tokens with
  | [] => .ok { s with activations := callers }
  | token :: rest =>
      let resumed (isLineStart : Bool) (tokens : List Token) :=
        { active with isLineStart, tokens } :: callers
      let copied := { s with
        activations := resumed (nextLineStart active.isLineStart token) rest
        output := s.output ++ [cloneToken token active.location] }
      if isDirective token "macro" then
        .ok { s with activations := resumed true (skipMacroDefinition (token :: rest)) }
      else if active.isLineStart ∧ token.type = .id then
        match findMacro macros (invocationName token) with
        | some m => do
            require (¬isExpanding m s.stack active.stackCount)
              (asmTokenFail .macroRecursion "Recursive macro expansion" token)
            require (active.stackCount ≠ 64)
              (asmTokenFail .macroRecursion "Macro expansion depth exceeds 64" token)
            let values ← readArguments m (lineTokens rest) token
            return { s with
              stack := Function.update s.stack active.stackCount (some m)
              activations :=
                { stackCount := active.stackCount + 1
                  location := some token
                  isLineStart := true
                  tokens := m.body.map (substitute m values token) }
                :: resumed true (nextLine rest) }
        | none =>
            if token.value.bytes.headD 0 = invocationMark then
              .error (asmTokenFail .macroUndefined "Undefined macro" token)
            else .ok copied
      else .ok copied

/-- Where `macros_expand` stands: in `capture_macros`, in `expand_range`, or at its end. -/
inductive MacrosState
  | capturing (macros : List Macro) (current : List Token)
  | expanding (macros : List Macro) (s : Expander)
  | stopped (result : Except AsmFailure (List Token))

/-- The outermost activation of `expand_range`, before its loop. -/
def expanderInit (tokens : List Token) : Expander where
  stack _ := none
  activations := [{ stackCount := 0, location := none, isLineStart := true, tokens }]
  output := []

/-- One step of `macros_expand`. -/
def macrosStep (tokens : List Token) : MacrosState → Option MacrosState
  | .capturing macros [] => some (.expanding macros (expanderInit tokens))
  | .capturing macros (token :: rest) =>
      if isDirective token "macro" then
        match captureMacro macros token rest with
        | .ok (m, after) => some (.capturing (m :: macros) after)
        | .error failure => some (.stopped (.error failure))
      else if isDirective token "endmacro" then
        some (.stopped (.error (asmTokenFail .macroInvalidArgument
          ".endmacro without a matching .macro" token)))
      else some (.capturing macros rest)
  | .expanding macros s =>
      match s.activations with
      | [] => some (.stopped (.ok s.output))
      | active :: callers =>
          match expanderStep macros s active callers with
          | .ok s' => some (.expanding macros s')
          | .error failure => some (.stopped (.error failure))
  | .stopped _ => none

/-! ## The stack -/

/-- What holds of the stack.  The activations count their macros, the counted entries are distinct
macros of the table, and nothing has been written behind the 64 entries. -/
structure Expander.Bounded (macros : List Macro) (s : Expander) : Prop where
  counts : s.activations.map (·.stackCount) = (List.range s.activations.length).reverse
  shallow : s.depth ≤ 64
  defined : ∀ i < s.depth, ∃ m ∈ macros, s.stack i = some m
  distinct : ∀ i j, i < j → j < s.depth → s.stack i ≠ s.stack j
  written : ∀ i, s.stack i ≠ none → i < 64

theorem isExpanding_eq_false {m : Macro} {stack : ℕ → Option Macro} {stackCount : ℕ} :
    isExpanding m stack stackCount = false ↔ ∀ i < stackCount, stack i ≠ some m := by
  simp [isExpanding]

theorem bounded_init (macros : List Macro) (tokens : List Token) :
    (expanderInit tokens).Bounded macros where
  counts := rfl
  shallow := Nat.zero_le _
  defined := fun _ hi => absurd hi (Nat.not_lt_zero _)
  distinct := fun _ _ _ hj => absurd hj (Nat.not_lt_zero _)
  written := fun _ hi => absurd rfl hi

section Bounded

variable {macros : List Macro} {s s' : Expander} {active : Activation} {callers : List Activation}

/-- The number of activations of a caller is its count. -/
theorem Expander.Bounded.stackCount_eq (h : s.Bounded macros)
    (hactive : s.activations = active :: callers) : active.stackCount = s.depth := by
  have hcounts := h.counts
  rw [hactive, List.length_cons, List.range_succ, List.reverse_append] at hcounts
  rw [Expander.depth, hactive]
  exact (List.cons.inj hcounts).1

/-- **No more macros are being expanded than there are.** -/
theorem Expander.Bounded.depth_le (h : s.Bounded macros) : s.depth ≤ macros.length := by
  have hnodup : ((List.range s.depth).map s.stack).Nodup := by
    rw [List.Nodup, List.pairwise_map]
    refine List.pairwise_lt_range.imp_of_mem fun _ hj hlt => ?_
    exact h.distinct _ _ hlt (List.mem_range.mp hj)
  have hsubset : (List.range s.depth).map s.stack ⊆ macros.map some := by
    intro entry hentry
    obtain ⟨i, hi, rfl⟩ := List.mem_map.mp hentry
    obtain ⟨m, hm, heq⟩ := h.defined i (List.mem_range.mp hi)
    exact heq ▸ List.mem_map_of_mem hm
  simpa using (hnodup.subperm hsubset).length_le

/-- What a step can do. -/
theorem expanderStep_cases (h : expanderStep macros s active callers = .ok s') :
    (active.tokens = [] ∧ s' = { s with activations := callers }) ∨
    (∃ active' output, s' = { s with activations := active' :: callers, output } ∧
      active'.stackCount = active.stackCount) ∨
    (∃ m ∈ macros, ∃ nested resumed, isExpanding m s.stack active.stackCount = false ∧
      active.stackCount ≠ 64 ∧ nested.stackCount = active.stackCount + 1 ∧
      resumed.stackCount = active.stackCount ∧
      s' = { s with
        stack := Function.update s.stack active.stackCount (some m)
        activations := nested :: resumed :: callers }) := by
  rw [expanderStep] at h
  split at h
  · rename_i hend
    obtain rfl := Except.ok.inj h
    exact .inl ⟨hend, rfl⟩
  · dsimp only at h
    split at h
    · obtain rfl := Except.ok.inj h
      exact .inr (.inl ⟨_, _, rfl, rfl⟩)
    · split at h
      · split at h
        · rename_i m hfound
          simp only [bind_eq_ok, require_eq_ok] at h
          obtain ⟨-, hfresh, -, hroom, values, -, h⟩ := h
          obtain rfl := Except.ok.inj h
          refine .inr (.inr ⟨m, mem_of_findMacro hfound, _, _, ?_, hroom, rfl, ?_, rfl⟩)
          · exact Bool.eq_false_iff.mpr hfresh
          · rfl
        · split at h
          · cases h
          · obtain rfl := Except.ok.inj h
            exact .inr (.inl ⟨_, _, rfl, rfl⟩)
      · obtain rfl := Except.ok.inj h
        exact .inr (.inl ⟨_, _, rfl, rfl⟩)

theorem Expander.Bounded.pop (h : s.Bounded macros) (hactive : s.activations = active :: callers) :
    Expander.Bounded macros { s with activations := callers } := by
  have hdepth : callers.length - 1 ≤ s.depth := by
    rw [Expander.depth, hactive, List.length_cons]
    omega
  have hcounts := h.counts
  rw [hactive, List.length_cons, List.range_succ, List.reverse_append] at hcounts
  exact
    { counts := (List.cons.inj hcounts).2
      shallow := Nat.le_trans hdepth h.shallow
      defined := fun i hi => h.defined i (Nat.lt_of_lt_of_le hi hdepth)
      distinct := fun i j hij hj => h.distinct i j hij (Nat.lt_of_lt_of_le hj hdepth)
      written := h.written }

theorem Expander.Bounded.resume (h : s.Bounded macros) (hactive : s.activations = active :: callers)
    {active' : Activation} (hcount : active'.stackCount = active.stackCount) (output : List Token) :
    Expander.Bounded macros { s with activations := active' :: callers, output } := by
  have hdepth : (active' :: callers).length - 1 = s.depth := by
    rw [Expander.depth, hactive, List.length_cons, List.length_cons]
  have hcounts := h.counts
  rw [hactive] at hcounts
  exact
    { counts := by
        rw [List.map_cons, hcount]
        exact hcounts
      shallow := Nat.le_trans (Nat.le_of_eq hdepth) h.shallow
      defined := fun i hi => h.defined i (Nat.lt_of_lt_of_eq hi hdepth)
      distinct := fun i j hij hj => h.distinct i j hij (Nat.lt_of_lt_of_eq hj hdepth)
      written := h.written }

/-- **A macro is put on the stack** below its 64th entry, and is not on it yet. -/
theorem Expander.Bounded.push (h : s.Bounded macros) (hactive : s.activations = active :: callers)
    {m : Macro} (hm : m ∈ macros) {nested resumed : Activation}
    (hfresh : isExpanding m s.stack active.stackCount = false) (hroom : active.stackCount ≠ 64)
    (hnested : nested.stackCount = active.stackCount + 1)
    (hresumed : resumed.stackCount = active.stackCount) :
    Expander.Bounded macros { s with
      stack := Function.update s.stack active.stackCount (some m)
      activations := nested :: resumed :: callers } := by
  have hcount := h.stackCount_eq hactive
  have hlength : s.depth = callers.length := by rw [Expander.depth, hactive, List.length_cons]; rfl
  have hcounts := h.counts
  have hshallow := h.shallow
  rw [isExpanding_eq_false, hcount] at hfresh
  rw [hcount] at hroom hnested hresumed ⊢
  rw [hactive, List.map_cons, List.length_cons, hcount] at hcounts
  have hdepth : (nested :: resumed :: callers).length - 1 = s.depth + 1 := by
    simp [hlength]
  have hbelow : ∀ {i}, i < s.depth → Function.update s.stack s.depth (some m) i = s.stack i :=
    fun hi => Function.update_of_ne (Nat.ne_of_lt hi) _ _
  refine ⟨?_, ?_, ?_, ?_, ?_⟩
  · show List.map _ (nested :: resumed :: callers) = (List.range (callers.length + 1 + 1)).reverse
    rw [List.map_cons, List.map_cons, hnested, hresumed, hcounts, List.range_succ (n := _ + 1),
      List.reverse_append, hlength]
    rfl
  · show (nested :: resumed :: callers).length - 1 ≤ 64
    omega
  · intro i hi
    change i < (nested :: resumed :: callers).length - 1 at hi
    rw [hdepth] at hi
    rcases Nat.lt_succ_iff_lt_or_eq.mp hi with hi | rfl
    · obtain ⟨m', hm', heq⟩ := h.defined i hi
      exact ⟨m', hm', (hbelow hi).trans heq⟩
    · exact ⟨m, hm, Function.update_self _ _ _⟩
  · intro i j hij hj
    change j < (nested :: resumed :: callers).length - 1 at hj
    rw [hdepth] at hj
    rcases Nat.lt_succ_iff_lt_or_eq.mp hj with hj | rfl
    · dsimp only
      rw [hbelow hj, hbelow (Nat.lt_trans hij hj)]
      exact h.distinct i j hij hj
    · dsimp only
      rw [hbelow hij, Function.update_self]
      exact hfresh i hij
  · intro i hi
    by_cases heq : i = s.depth
    · omega
    · refine h.written i fun hnone => hi ?_
      exact (Function.update_of_ne heq _ _).trans hnone

/-- **A step keeps the stack bounded.** -/
theorem Expander.Bounded.step (h : s.Bounded macros) (hactive : s.activations = active :: callers)
    (hstep : expanderStep macros s active callers = .ok s') : s'.Bounded macros := by
  rcases expanderStep_cases hstep with ⟨-, rfl⟩ | ⟨active', output, rfl, hcount⟩ |
    ⟨m, hm, nested, resumed, hfresh, hroom, hnested, hresumed, rfl⟩
  · exact h.pop hactive
  · exact h.resume hactive hcount output
  · exact h.push hactive hm hfresh hroom hnested hresumed

end Bounded

/-- **The stack is bounded in every state** of a run. -/
theorem reaches_bounded {tokens : List Token} {state : MacrosState}
    (h : Reaches (macrosStep tokens) (.capturing [] tokens) state) :
    ∀ macros s, state = .expanding macros s → s.Bounded macros := by
  induction h with
  | refl => nofun
  | @tail state next _ hstep ih =>
      rintro macros s rfl
      change macrosStep tokens state = some _ at hstep
      cases state with
      | capturing captured current =>
          cases current with
          | nil =>
              cases hstep
              exact bounded_init _ _
          | cons token rest =>
              rw [macrosStep] at hstep
              split at hstep
              · split at hstep <;> cases hstep
              · split at hstep <;> cases hstep
      | expanding macros' s' =>
          rw [macrosStep] at hstep
          split at hstep
          · cases hstep
          · rename_i active callers hactive
            split at hstep
            · rename_i next hnext
              cases hstep
              exact (ih _ _ rfl).step hactive hnext
            · cases hstep
      | stopped result => cases hstep

/-! ## The result -/

section Result

variable {tokens : List Token} {macros : List Macro} {memory : ℕ → Option Macro}

/-- The entries at the bottom of the memory are the macros of a stack, whose top comes first. -/
def Holds (memory : ℕ → Option Macro) : List Macro → Prop
  | [] => True
  | m :: stack => memory stack.length = some m ∧ Holds memory stack

theorem Holds.congr {memory' : ℕ → Option Macro} : ∀ {stack : List Macro}, Holds memory stack →
    (∀ i < stack.length, memory' i = memory i) → Holds memory' stack
  | [], _, _ => trivial
  | _ :: _, ⟨hm, h⟩, heq => ⟨(heq _ (Nat.lt_succ_self _)).trans hm,
      h.congr fun i hi => heq i (Nat.lt_succ_of_lt hi)⟩

/-- The entries are compared as the names are. -/
theorem isExpanding_eq (hnames : DistinctNames macros) {m : Macro} (hm : m ∈ macros) :
    ∀ {stack : List Macro}, stack ⊆ macros → Holds memory stack →
      isExpanding m memory stack.length = stack.any (·.name.value == m.name.value)
  | [], _, _ => rfl
  | top :: stack, hstack, ⟨htop, h⟩ => by
      obtain ⟨hmem, hstack⟩ := List.cons_subset.mp hstack
      have hsame : (some top == some m) = (top.name.value == m.name.value) := by
        rw [Bool.eq_iff_iff, beq_iff_eq, beq_iff_eq, Option.some_inj]
        exact ⟨fun heq => heq ▸ rfl, hnames.eq hmem hm⟩
      have hrest := isExpanding_eq hnames hm hstack h
      rw [isExpanding] at hrest ⊢
      rw [List.length_cons, List.range_succ, List.any_append, hrest, List.any_cons, List.any_nil,
        Bool.or_false, htop, hsame, List.any_cons, Bool.or_comm]

/-- The machine gets from some activations to others with the tokens of a result behind its output,
and leaves the lowest entries of the memory as they are; or it stops with the diagnostic. -/
def Returns (tokens : List Token) (macros : List Macro) (stackCount : ℕ) (memory : ℕ → Option Macro)
    (output : List Token) (activations activations' : List Activation) :
    Except AsmFailure (List Token) → Prop
  | .ok expansion => ∃ memory', (∀ i < stackCount, memory' i = memory i) ∧
      Reaches (macrosStep tokens) (.expanding macros ⟨memory, activations, output⟩)
        (.expanding macros ⟨memory', activations', output ++ expansion⟩)
  | .error failure => Reaches (macrosStep tokens)
      (.expanding macros ⟨memory, activations, output⟩) (.stopped (.error failure))

section Steps

variable {active : Activation} {callers activations after : List Activation} {s' : Expander}
  {output : List Token} {stackCount : ℕ} {result : Except AsmFailure (List Token)}

theorem macrosStep_ok
    (h : expanderStep macros ⟨memory, active :: callers, output⟩ active callers = .ok s') :
    macrosStep tokens (.expanding macros ⟨memory, active :: callers, output⟩)
      = some (.expanding macros s') := by
  rw [macrosStep]
  dsimp only
  rw [h]

theorem macrosStep_error {failure : AsmFailure}
    (h : expanderStep macros ⟨memory, active :: callers, output⟩ active callers = .error failure) :
    macrosStep tokens (.expanding macros ⟨memory, active :: callers, output⟩)
      = some (.stopped (.error failure)) := by
  rw [macrosStep]
  dsimp only
  rw [h]

/-- A step that stops the machine. -/
theorem Returns.error {failure : AsmFailure}
    (h : expanderStep macros ⟨memory, active :: callers, output⟩ active callers = .error failure) :
    Returns tokens macros stackCount memory output (active :: callers) after (.error failure) :=
  .single (macrosStep_error h)

/-- A step that leaves the lowest entries as they are. -/
theorem Returns.head {stackCount' : ℕ} {memory' : ℕ → Option Macro}
    (hstep : expanderStep macros ⟨memory, active :: callers, output⟩ active callers
      = .ok ⟨memory', activations, output⟩)
    (hcount : stackCount ≤ stackCount') (hmemory : ∀ i < stackCount, memory' i = memory i)
    (h : Returns tokens macros stackCount' memory' output activations after result) :
    Returns tokens macros stackCount memory output (active :: callers) after result := by
  cases result with
  | error failure => exact .head (macrosStep_ok hstep) h
  | ok expansion =>
      obtain ⟨memory'', hmemory', hreaches⟩ := h
      refine ⟨memory'', fun i hi => ?_, .head (macrosStep_ok hstep) hreaches⟩
      exact (hmemory' i (Nat.lt_of_lt_of_le hi hcount)).trans (hmemory i hi)

/-- **One after the other.** -/
theorem Returns.append {before : List Activation} {later : Except AsmFailure (List Token)}
    (h : Returns tokens macros stackCount memory output before activations result)
    (hlater : ∀ memory' output', (∀ i < stackCount, memory' i = memory i) →
      Returns tokens macros stackCount memory' output' activations after later) :
    Returns tokens macros stackCount memory output before after
      (do let expansion ← result; return expansion ++ (← later)) := by
  cases result with
  | error failure => exact h
  | ok expansion =>
      obtain ⟨memory', hmemory, hreaches⟩ := h
      have hafter := hlater memory' (output ++ expansion) hmemory
      cases later with
      | error failure => exact hreaches.trans hafter
      | ok expansion' =>
          obtain ⟨memory'', hmemory', hreaches'⟩ := hafter
          refine ⟨memory'', fun i hi => (hmemory' i hi).trans (hmemory i hi), ?_⟩
          rw [List.append_assoc] at hreaches'
          exact hreaches.trans hreaches'

/-- A step of the loop that copies `expansion` to the output. -/
theorem Returns.copied {active' : Activation} {expansion : List Token}
    (hstep : expanderStep macros ⟨memory, active :: callers, output⟩ active callers
      = .ok ⟨memory, active' :: callers, output ++ expansion⟩) :
    Returns tokens macros stackCount memory output (active :: callers) (active' :: callers)
      (.ok expansion) :=
  ⟨memory, fun _ _ => rfl, .single (macrosStep_ok hstep)⟩

end Steps

section Passes

variable {stackCount : ℕ} {location : Option Token} {isLineStart : Bool} {token : Token}
  {rest output : List Token} {callers : List Activation}

theorem expanderStep_definition (h : isDirective token "macro" = true) :
    expanderStep macros
        ⟨memory, ⟨stackCount, location, isLineStart, token :: rest⟩ :: callers, output⟩
        ⟨stackCount, location, isLineStart, token :: rest⟩ callers
      = .ok ⟨memory, ⟨stackCount, location, true, skipMacroDefinition (token :: rest)⟩ :: callers,
          output⟩ := by
  rw [expanderStep]
  exact if_pos h

theorem expanderStep_undefined (ordinary : isDirective token "macro" = false)
    (id : token.type = .id) (missing : findMacro macros (invocationName token) = none)
    (explicit : token.value.bytes.headD 0 = invocationMark) :
    expanderStep macros ⟨memory, ⟨stackCount, location, true, token :: rest⟩ :: callers, output⟩
        ⟨stackCount, location, true, token :: rest⟩ callers
      = .error (asmTokenFail .macroUndefined "Undefined macro" token) := by
  rw [expanderStep]
  dsimp only
  rw [if_neg (by simp [ordinary]), if_pos ⟨rfl, id⟩, missing]
  exact if_pos explicit

theorem expanderStep_copied (ordinary : isDirective token "macro" = false)
    (plain : isLineStart = true → token.type = .id →
      findMacro macros (invocationName token) = none ∧
        token.value.bytes.headD 0 ≠ invocationMark) :
    expanderStep macros
        ⟨memory, ⟨stackCount, location, isLineStart, token :: rest⟩ :: callers, output⟩
        ⟨stackCount, location, isLineStart, token :: rest⟩ callers
      = .ok ⟨memory, ⟨stackCount, location, nextLineStart isLineStart token, rest⟩ :: callers,
          output ++ [cloneToken token location]⟩ := by
  rw [expanderStep]
  dsimp only
  rw [if_neg (by simp [ordinary])]
  split
  · rename_i hstart
    obtain ⟨hmissing, hexplicit⟩ := plain hstart.1 hstart.2
    rw [hmissing]
    exact if_neg hexplicit
  · rfl

theorem expanderStep_invocation {m : Macro} (ordinary : isDirective token "macro" = false)
    (id : token.type = .id) (found : findMacro macros (invocationName token) = some m) :
    expanderStep macros ⟨memory, ⟨stackCount, location, true, token :: rest⟩ :: callers, output⟩
        ⟨stackCount, location, true, token :: rest⟩ callers = (do
      require (¬isExpanding m memory stackCount)
        (asmTokenFail .macroRecursion "Recursive macro expansion" token)
      require (stackCount ≠ 64)
        (asmTokenFail .macroRecursion "Macro expansion depth exceeds 64" token)
      let values ← readArguments m (lineTokens rest) token
      return ⟨Function.update memory stackCount (some m),
        ⟨stackCount + 1, some token, true, m.body.map (substitute m values token)⟩
          :: ⟨stackCount, location, true, nextLine rest⟩ :: callers, output⟩) := by
  rw [expanderStep]
  dsimp only
  rw [if_neg (by simp [ordinary]), if_pos ⟨rfl, id⟩, found]

end Passes

/-- What `expand_macro` returns is what the machine makes of an invocation. -/
def Invokes (tokens : List Token) (macros : List Macro) (room : ℕ) (stack : List Macro) : Prop :=
  ∀ (m : Macro) (token : Token) (rest : List Token) (memory : ℕ → Option Macro)
    (location : Option Token) (callers : List Activation) (output : List Token),
    Holds memory stack → isDirective token "macro" = false → token.type = .id →
    findMacro macros (invocationName token) = some m →
    Returns tokens macros stack.length memory output
      (⟨stack.length, location, true, token :: rest⟩ :: callers)
      (⟨stack.length, location, true, nextLine rest⟩ :: callers)
      (expandMacro macros room stack m (lineTokens rest) token)

/-- **An activation of `expand_range`**, by the length of its range. -/
theorem Invokes.returns {room : ℕ} {stack : List Macro}
    (hinvokes : Invokes tokens macros room stack) {location : Option Token}
    {callers : List Activation} :
    ∀ (n : ℕ) {memory : ℕ → Option Macro} {isLineStart : Bool} {l output : List Token},
      l.length ≤ n → Holds memory stack →
        Returns tokens macros stack.length memory output
          (⟨stack.length, location, isLineStart, l⟩ :: callers) callers
          (expandAll (expandMacro macros room stack) macros location isLineStart l)
  | _, memory, isLineStart, [], output, _, _ => by
      have hstep : macrosStep tokens
          (.expanding macros ⟨memory, ⟨stack.length, location, isLineStart, []⟩ :: callers, output⟩)
          = some (.expanding macros ⟨memory, callers, output ++ []⟩) := by
        rw [List.append_nil]
        rfl
      exact ⟨memory, fun _ _ => rfl, .single hstep⟩
  | n + 1, memory, isLineStart, token :: rest, output, hlength, hmemory => by
      rw [List.length_cons, Nat.add_le_add_iff_right] at hlength
      cases atToken macros isLineStart token with
      | definition definition =>
          have hle := @skipMacroDefinition_length_lt _ rest definition
          rw [expandAll_definition definition]
          exact .head (expanderStep_definition definition) (Nat.le_refl _) (fun _ _ => rfl)
            (hinvokes.returns n (Nat.le_trans hle hlength) hmemory)
      | undefined ordinary start id missing explicit =>
          subst start
          rw [expandAll_undefined ordinary id missing explicit]
          exact .error (expanderStep_undefined ordinary id missing explicit)
      | copied ordinary plain =>
          rw [expandAll_copied ordinary plain]
          have hcopied : Returns tokens macros stack.length memory output
              (⟨stack.length, location, isLineStart, token :: rest⟩ :: callers) _
              (.ok [cloneToken token location]) :=
            .copied (expanderStep_copied ordinary plain)
          exact hcopied.append fun memory' output' hmemory' =>
            hinvokes.returns n hlength (hmemory.congr hmemory')
      | invocation ordinary start id found =>
          subst start
          have hle := Nat.le_trans (nextLine_length_le rest) hlength
          rw [expandAll_invocation ordinary id found]
          have hinvoked :=
            hinvokes _ _ rest memory location callers output hmemory ordinary id found
          exact hinvoked.append fun memory' output' hmemory' =>
            hinvokes.returns n hle (hmemory.congr hmemory')

/-- An invocation of a macro that is being expanded. -/
theorem expandMacro_expanding {room : ℕ} {stack : List Macro} {m : Macro} {arguments : List Token}
    {invocation : Token} (h : stack.any (·.name.value == m.name.value) = true) :
    expandMacro macros room stack m arguments invocation
      = .error (asmTokenFail .macroRecursion "Recursive macro expansion" invocation) := by
  cases room with
  | zero =>
      rw [expandMacro_zero, require, if_neg (not_not_intro h)]
      rfl
  | succ room =>
      rw [expandMacro_succ, require, if_neg (not_not_intro h)]
      rfl

/-- **An invocation**, by the room that is left on the stack. -/
theorem invokes (hnames : DistinctNames macros) : ∀ (room : ℕ) {stack : List Macro},
    stack.length + room = 64 → stack ⊆ macros → Invokes tokens macros room stack
  | room, stack, hroom, hstack => by
      intro m token rest memory location callers output hmemory ordinary id found
      have hm := mem_of_findMacro found
      have hstep := @expanderStep_invocation macros memory stack.length location token rest output
        callers m ordinary id found
      rw [isExpanding_eq hnames hm hstack hmemory] at hstep
      by_cases hfresh : stack.any (·.name.value == m.name.value) = true
      · rw [expandMacro_expanding hfresh]
        refine .error (hstep.trans ?_)
        rw [require, if_neg (not_not_intro hfresh)]
        rfl
      rw [require_of hfresh, ok_bind] at hstep
      cases room with
      | zero =>
          rw [expandMacro_zero, require_of hfresh]
          refine .error (hstep.trans ?_)
          rw [require, if_neg (by omega)]
          rfl
      | succ room =>
          rw [require_of (by omega), ok_bind] at hstep
          rw [expandMacro_succ, require_of hfresh, ok_bind]
          cases hvalues : readArguments m (lineTokens rest) token with
          | error failure =>
              rw [hvalues] at hstep
              exact .error hstep
          | ok values =>
              rw [hvalues] at hstep
              have hbelow : ∀ i < stack.length,
                  Function.update memory stack.length (some m) i = memory i := fun i hi =>
                Function.update_of_ne (Nat.ne_of_lt hi) _ _
              have hnested : Holds (Function.update memory stack.length (some m)) (m :: stack) :=
                ⟨Function.update_self _ _ _, hmemory.congr hbelow⟩
              have hinvokes : Invokes tokens macros room (m :: stack) :=
                invokes hnames room (by rw [List.length_cons]; omega)
                  (List.cons_subset.mpr ⟨hm, hstack⟩)
              exact .head hstep (Nat.le_succ _) hbelow
                (hinvokes.returns _ (Nat.le_refl _) hnested)

end Result

/-! ## The scan of the definitions -/

/-- **`capture_macros`** ends with its table or with a diagnostic. -/
theorem reaches_captureAll {tokens : List Token} : ∀ (n : ℕ) {macros : List Macro} {l : List Token},
    l.length ≤ n → Reaches (macrosStep tokens) (.capturing macros l)
      (match captureAll macros l with
        | .ok captured => .expanding captured (expanderInit tokens)
        | .error failure => .stopped (.error failure))
  | _, macros, [], _ => .single rfl
  | n + 1, macros, token :: rest, hlength => by
      rw [List.length_cons, Nat.add_le_add_iff_right] at hlength
      cases hdefinition : isDirective token "macro" with
      | true =>
          rw [captureAll_definition hdefinition]
          cases hcapture : captureMacro macros token rest with
          | error failure =>
              refine .single ?_
              show macrosStep tokens _ = some _
              rw [macrosStep, if_pos hdefinition, hcapture]
              rfl
          | ok captured =>
              obtain ⟨m, after⟩ := captured
              refine .head ?_ (reaches_captureAll n
                (Nat.le_trans (captureMacro_length_le hcapture) hlength))
              show macrosStep tokens _ = some _
              rw [macrosStep, if_pos hdefinition, hcapture]
      | false =>
          cases hending : isDirective token "endmacro" with
          | true =>
              rw [captureAll_ending hdefinition hending]
              refine .single ?_
              show macrosStep tokens _ = some _
              rw [macrosStep, if_neg (by simp [hdefinition]), if_pos hending]
          | false =>
              rw [captureAll_other hdefinition hending]
              refine .head ?_ (reaches_captureAll n hlength)
              show macrosStep tokens _ = some _
              rw [macrosStep, if_neg (by simp [hdefinition]), if_neg (by simp [hending])]

/-- **The machine stops** with the result of `macrosExpand`. -/
theorem reaches_macrosExpand (tokens : List Token) :
    Reaches (macrosStep tokens) (.capturing [] tokens) (.stopped (macrosExpand tokens)) := by
  have hcapture := @reaches_captureAll tokens _ [] tokens (Nat.le_refl _)
  rw [macrosExpand_eq, ← captureAll]
  cases hmacros : captureAll [] tokens with
  | error failure =>
      rw [hmacros] at hcapture
      exact hcapture
  | ok macros =>
      rw [hmacros] at hcapture
      refine hcapture.trans ?_
      obtain ⟨-, -, -, hnames⟩ := captureAll_eq_ok.mp hmacros
      have hinvokes : Invokes tokens macros 64 [] := invokes hnames 64 rfl (List.nil_subset _)
      have hreturns : Returns tokens macros 0 (fun _ => none) [] [⟨0, none, true, tokens⟩] [] _ :=
        hinvokes.returns _ (Nat.le_refl _) trivial
      rw [ok_bind]
      generalize expandAll _ macros none true tokens = result at hreturns
      cases result with
      | error failure => exact hreturns
      | ok expansion =>
          obtain ⟨memory', -, hreaches⟩ := hreturns
          exact hreaches.tail rfl

/-- **Macro expansion terminates within its stack.**  On every token list the machine comes to a
stop, with an expanded list or a diagnostic, and in every state on the way the macros on the stack
are distinct and neither more than 64 nor more than there are. -/
theorem macrosExpand_terminates (tokens : List Token) :
    .stopped (macrosExpand tokens) ∈ eval (macrosStep tokens) (.capturing [] tokens) ∧
    ∀ macros s, Reaches (macrosStep tokens) (.capturing [] tokens) (.expanding macros s) →
      s.Bounded macros ∧ s.depth ≤ min 64 macros.length := by
  refine ⟨mem_eval.mpr ⟨reaches_macrosExpand tokens, rfl⟩, fun macros s h => ?_⟩
  have hbounded := reaches_bounded h macros s rfl
  exact ⟨hbounded, Nat.le_min.mpr ⟨hbounded.shallow, hbounded.depth_le⟩⟩

/-- A macro and its invocation. -/
def invocationTokens : List Token :=
  [plainToken .directive "macro", plainToken .id "inner", plainToken .newline "\n",
    plainToken .directive "endmacro", plainToken .newline "\n", plainToken .id "inner"]

theorem macrosExpand_terminates_invocation :
    .stopped (macrosExpand invocationTokens)
      ∈ eval (macrosStep invocationTokens) (.capturing [] invocationTokens) ∧
    ∃ (macros : List Macro) (s : Expander), s.depth = 1 ∧ s.Bounded macros ∧
      s.depth ≤ min 64 macros.length := by
  obtain ⟨hstops, hbounded⟩ := macrosExpand_terminates invocationTokens
  refine ⟨hstops, _, _, ?_,
    hbounded _ _ (.head rfl (.head rfl (.head rfl (.head rfl (.head rfl .refl)))))⟩
  rfl

end Zlvm
