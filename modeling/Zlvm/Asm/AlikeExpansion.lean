import Zlvm.Asm.Segments
import Zlvm.Asm.Spread

/-!
# An expansion elsewhere

An expansion that succeeds does so with the same types and values at another place: for tokens of
other locations, reported elsewhere, with fewer macros on the stack and more room on it.

* `takeWhile_alike`, `dropWhile_alike`, `substitute_alike` — the lists that an expansion is made of.
* `expandAll_alike`, **`expandMacro_alike`** — a range, by its length, and an invocation, by the
  room.
-/

namespace Zlvm

open Loop

section Lists

variable {t t' : Token} {l l' : List Token}

theorem tokensAlike_refl (l : List Token) : TokensAlike l l :=
  List.forall₂_same.mpr fun _ _ => ⟨rfl, rfl⟩

theorem tokensAlike_symm (h : TokensAlike l l') : TokensAlike l' l :=
  h.flip.imp fun _ _ ht => ⟨ht.type.symm, ht.value.symm⟩

theorem Token.Alike.isDirective_eq (h : t.Alike t') (name : String) :
    isDirective t name = isDirective t' name := by
  rw [isDirective, isDirective, h.type, h.value]

theorem Token.Alike.clone (h : t.Alike t') (location location' : Option Token) :
    (cloneToken t location).Alike (cloneToken t' location') := by
  cases location <;> cases location' <;> exact ⟨h.type, h.value⟩

theorem Token.Alike.invocationName_eq (h : t.Alike t') : invocationName t = invocationName t' := by
  rw [invocationName, invocationName, h.value]

theorem takeWhile_alike {p : Token → Bool} (hp : ∀ t t' : Token, t.Alike t' → p t = p t')
    (h : TokensAlike l l') : TokensAlike (l.takeWhile p) (l'.takeWhile p) := by
  induction h with
  | nil => exact .nil
  | cons head _ ih =>
      rw [List.takeWhile_cons, List.takeWhile_cons, hp _ _ head]
      split
      · exact .cons head ih
      · exact .nil

theorem dropWhile_alike {p : Token → Bool} (hp : ∀ t t' : Token, t.Alike t' → p t = p t')
    (h : TokensAlike l l') : TokensAlike (l.dropWhile p) (l'.dropWhile p) := by
  induction h with
  | nil => exact .nil
  | cons head tail ih =>
      rw [List.dropWhile_cons, List.dropWhile_cons, hp _ _ head]
      split
      · exact ih
      · exact .cons head tail

theorem lineTokens_alike (h : TokensAlike l l') : TokensAlike (lineTokens l) (lineTokens l') :=
  takeWhile_alike (fun t t' ht => by rw [ht.type]) h

theorem nextLine_alike (h : TokensAlike l l') : TokensAlike (nextLine l) (nextLine l') :=
  List.forall₂_drop 1 (dropWhile_alike (fun t t' ht => by rw [ht.type]) h)

theorem skipMacroDefinition_alike (h : TokensAlike l l') :
    TokensAlike (skipMacroDefinition l) (skipMacroDefinition l') :=
  nextLine_alike (dropWhile_alike (fun t t' ht => by rw [ht.isDirective_eq]) h)

end Lists

/-! ## Invocations -/

section Invocations

variable {m : Macro} {l l' values values' : List Token}

theorem Marked.refl {allows : Token → Bool} {final : Prop} : ∀ {start : Bool} (l : List Token),
    Marked (fun _ => false) allows final start l l
  | _, [] => .nil
  | _, _ :: l => .cons rfl ⟨rfl, fun _ => rfl⟩ (Marked.refl l)

theorem Macro.marked_refl (m : Macro) : m.Marked (fun _ => false) m :=
  ⟨rfl, tokensAlike_refl _, .refl _⟩

theorem tokensPlain_none : TokensPlain (fun _ => false) l l' ↔ TokensAlike l l' := by
  constructor
  · exact fun h => h.imp fun _ _ ht => ht.alike
  · exact fun h => h.imp fun _ _ ht => ⟨ht, rfl⟩

/-- **The arguments of an invocation**, elsewhere. -/
theorem readArguments_alike (h : TokensAlike l l') (invocation invocation' : Token) :
    Lockstep TokensAlike (readArguments m l invocation) (readArguments m l' invocation') := by
  have harguments : TokensPlain (fun _ => false) (argumentTokens l) (argumentTokens l') :=
    tokensPlain_none.mpr (List.rel_filter (fun t t' ht => by simp [ht.type])
      (takeWhile_alike (fun t t' ht => by rw [ht.type]) h))
  exact (readArguments_plain marking_none m.marked_refl invocation invocation' harguments).mono
    fun _ _ => tokensPlain_none.mp

theorem substitute_alike (h : TokensAlike values values') (invocation invocation' t : Token) :
    (substitute m values invocation t).Alike (substitute m values' invocation' t) := by
  unfold substitute
  dsimp only
  generalize (if t.type = .id ∨ t.type = .labelUse ∨ t.type = .labelInit then
    parameterIndex m t.value else m.parameters.length) = index
  have hvalue := getElem?_plain (tokensPlain_none.mpr h) index
  generalize values[index]? = value at hvalue ⊢
  generalize values'[index]? = value' at hvalue ⊢
  cases hvalue with
  | none => exact ⟨rfl, rfl⟩
  | some hvalue =>
      dsimp only
      split
      · exact ⟨rfl, hvalue.alike.value⟩
      · exact ⟨hvalue.alike.type, hvalue.alike.value⟩

theorem body_alike (h : TokensAlike values values') (invocation invocation' : Token)
    (body : List Token) :
    TokensAlike (body.map (substitute m values invocation))
      (body.map (substitute m values' invocation')) :=
  List.forall₂_map_left_iff.mpr (List.forall₂_map_right_iff.mpr
    (List.forall₂_same.mpr fun t _ => substitute_alike h invocation invocation' t))

end Invocations

/-! ## Ranges -/

/-- What the first way to expand a macro returns, the second returns with the same types and
values. -/
def ExpandAlike (expand expand' : Macro → List Token → Token → Except AsmFailure (List Token)) :
    Prop :=
  ∀ (m : Macro) (arguments arguments' : List Token) (invocation invocation' : Token)
    (expansion : List Token), TokensAlike arguments arguments' →
      expand m arguments invocation = .ok expansion →
      ∃ expansion', expand' m arguments' invocation' = .ok expansion' ∧
        TokensAlike expansion expansion'

section Ranges

variable {macros : List Macro}
  {expand expand' : Macro → List Token → Token → Except AsmFailure (List Token)}

/-- **A range of tokens**, by the number of the tokens. -/
theorem expandAll_alike (hexpand : ExpandAlike expand expand') (location location' : Option Token) :
    ∀ (n : ℕ) {isLineStart : Bool} {l l' expansion : List Token}, l.length ≤ n → TokensAlike l l' →
      expandAll expand macros location isLineStart l = .ok expansion →
        ∃ expansion', expandAll expand' macros location' isLineStart l' = .ok expansion' ∧
          TokensAlike expansion expansion'
  | _, _, [], l', expansion, _, h, hrun => by
      cases h
      obtain rfl := Except.ok.inj hrun
      exact ⟨[], rfl, .nil⟩
  | n + 1, isLineStart, token :: rest, l', expansion, hlength, h, hrun => by
      rw [List.length_cons, Nat.add_le_add_iff_right] at hlength
      cases h with
      | @cons _ token' _ rest' head tail =>
      have hordinary := head.isDirective_eq "macro"
      have hname := head.invocationName_eq
      cases atToken macros isLineStart token with
      | definition hdefinition =>
          have hle := @skipMacroDefinition_length_lt _ rest hdefinition
          rw [expandAll_definition hdefinition] at hrun
          rw [expandAll_definition (hordinary.symm.trans hdefinition)]
          exact expandAll_alike hexpand location location' n (Nat.le_trans hle hlength)
            (skipMacroDefinition_alike (.cons head tail)) hrun
      | undefined ordinary start id missing explicit =>
          subst start
          rw [expandAll_undefined ordinary id missing explicit] at hrun
          cases hrun
      | copied ordinary plain =>
          rw [expandAll_copied ordinary plain] at hrun
          simp only [bind_eq_ok] at hrun
          obtain ⟨later, hlater, hrun⟩ := hrun
          obtain rfl := Except.ok.inj hrun
          obtain ⟨later', hlater', halike⟩ :=
            expandAll_alike hexpand location location' n hlength tail hlater
          refine ⟨cloneToken token' location' :: later', ?_, .cons (head.clone _ _) halike⟩
          rw [nextLineStart, head.type, ← nextLineStart] at hlater'
          rw [expandAll_copied (hordinary.symm.trans ordinary)
            (by rwa [← head.type, ← head.value, ← hname]), hlater']
          rfl
      | invocation ordinary start id found =>
          subst start
          have hle := Nat.le_trans (nextLine_length_le rest) hlength
          rw [expandAll_invocation ordinary id found] at hrun
          simp only [bind_eq_ok] at hrun
          obtain ⟨invoked, hinvoked, later, hlater, hrun⟩ := hrun
          obtain rfl := Except.ok.inj hrun
          obtain ⟨invoked', hinvoked', halike⟩ :=
            hexpand _ _ _ token token' _ (lineTokens_alike tail) hinvoked
          obtain ⟨later', hlater', halike'⟩ :=
            expandAll_alike hexpand location location' n hle (nextLine_alike tail) hlater
          refine ⟨invoked' ++ later', ?_, List.rel_append halike halike'⟩
          rw [expandAll_invocation (hordinary.symm.trans ordinary) (head.type.symm.trans id)
            (hname ▸ found), hinvoked', ok_bind, hlater']
          rfl

/-- **An invocation** with more room and fewer macros on the stack, by the room. -/
theorem expandMacro_alike : ∀ {room room' : ℕ} {stack stack' : List Macro}, room ≤ room' →
    stack' ⊆ stack → ExpandAlike (expandMacro macros room stack) (expandMacro macros room' stack')
  | 0, _, stack, stack', _, _ => by
      intro m arguments arguments' invocation invocation' expansion _ hrun
      rw [expandMacro_zero] at hrun
      simp only [bind_eq_ok] at hrun
      obtain ⟨-, -, hrun⟩ := hrun
      cases hrun
  | room + 1, room' + 1, stack, stack', hroom, hstack => by
      intro m arguments arguments' invocation invocation' expansion harguments hrun
      rw [expandMacro_succ] at hrun
      simp only [bind_eq_ok, require_eq_ok] at hrun
      obtain ⟨-, hfresh, values, hvalues, hrun⟩ := hrun
      obtain ⟨values', hvalues', halike⟩ :=
        (readArguments_alike harguments invocation invocation').exists_of_ok hvalues
      have hfresh' : ¬stack'.any (·.name.value == m.name.value) = true := fun hany => by
        rw [List.any_eq_true] at hfresh hany
        obtain ⟨top, htop, hname⟩ := hany
        exact hfresh ⟨top, hstack htop, hname⟩
      have hexpand := @expandMacro_alike room room' (m :: stack) (m :: stack')
        (Nat.le_of_succ_le_succ hroom) (List.cons_subset_cons m hstack)
      rw [expandMacro_succ, require_of hfresh', ok_bind, hvalues', ok_bind]
      exact expandAll_alike hexpand _ _ _ (Nat.le_refl _)
        (body_alike halike invocation invocation' m.body) hrun

end Ranges

end Zlvm
