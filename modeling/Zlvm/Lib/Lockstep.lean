import Zlvm.Lib.Loop

/-!
# Computations that fail together

Two programs over the same data, related step by step.

* `Lockstep R x y` — both `x` and `y` fail, or both succeed with values that `R` relates.
* `Lockstep.bind`, `Lockstep.require_bind`, `Lockstep.foldlM` — the rules for sequences, guards and
  loops.
* `Lockstep.mapM`, `Lockstep.foldlM_related` — loops over lists that are related entry by entry.
* `Lockstep.of_toOption_eq`, `Lockstep.toOption_eq` — the same value.
* `Lockstep.exists_iff`, `Lockstep.value` — one succeeds exactly if the other does, and `R` relates
  what they return.
-/

namespace Loop

variable {ε ε' α β γ β' γ' : Type}

/-- Both fail, or both succeed with related values. -/
inductive Lockstep (R : β → γ → Prop) : Except ε β → Except ε' γ → Prop
  | ok {b : β} {c : γ} (related : R b c) : Lockstep R (.ok b) (.ok c)
  | error (e : ε) (e' : ε') : Lockstep R (.error e) (.error e')

section Rules

variable {R : β → γ → Prop} {S : β' → γ' → Prop} {x : Except ε β} {y : Except ε' γ}

theorem Lockstep.exists_iff (h : Lockstep R x y) : (∃ b, x = .ok b) ↔ ∃ c, y = .ok c := by
  cases h with
  | ok _ => exact iff_of_true ⟨_, rfl⟩ ⟨_, rfl⟩
  | error e e' =>
      refine iff_of_false ?_ ?_
      · rintro ⟨b, hb⟩
        cases hb
      · rintro ⟨c, hc⟩
        cases hc

theorem Lockstep.value (h : Lockstep R x y) {b : β} {c : γ} (hx : x = .ok b) (hy : y = .ok c) :
    R b c := by
  cases h with
  | ok related =>
      obtain rfl := Except.ok.inj hx
      obtain rfl := Except.ok.inj hy
      exact related
  | error e e' => cases hx

theorem Lockstep.mono {R' : β → γ → Prop} (h : Lockstep R x y) (himp : ∀ b c, R b c → R' b c) :
    Lockstep R' x y := by
  cases h with
  | ok related => exact .ok (himp _ _ related)
  | error e e' => exact .error e e'

/-- The values are those of the two programs. -/
theorem Lockstep.values (h : Lockstep R x y) :
    Lockstep (fun b c => R b c ∧ x = .ok b ∧ y = .ok c) x y := by
  cases h with
  | ok related => exact .ok ⟨related, rfl, rfl⟩
  | error e e' => exact .error e e'

/-- Only the values of the first program matter. -/
theorem Lockstep.congr_left {x' : Except ε β} (h : Lockstep R x' y)
    (hok : ∀ b, x = .ok b ↔ x' = .ok b) : Lockstep R x y := by
  cases h with
  | ok related =>
      rw [(hok _).mpr rfl]
      exact .ok related
  | error e e' =>
      cases x with
      | ok b => cases (hok b).mp rfl
      | error e'' => exact .error e'' e'

/-- A program and itself. -/
theorem Lockstep.refl {R : β → β → Prop} (x : Except ε β) (h : ∀ b, R b b) : Lockstep R x x := by
  cases x with
  | ok b => exact .ok (h b)
  | error e => exact .error e e

/-- **Sequences.** -/
theorem Lockstep.bind {f : β → Except ε β'} {g : γ → Except ε' γ'} (h : Lockstep R x y)
    (hnext : ∀ b c, R b c → Lockstep S (f b) (g c)) : Lockstep S (x >>= f) (y >>= g) := by
  cases h with
  | ok related => exact hnext _ _ related
  | error e e' => exact .error e e'

/-- The same value on both sides. -/
theorem Lockstep.same_bind {x : Except ε β} {f : β → Except ε β'} {g : β → Except ε γ'}
    (hnext : ∀ b, x = .ok b → Lockstep S (f b) (g b)) : Lockstep S (x >>= f) (x >>= g) := by
  cases x with
  | ok b => exact hnext b rfl
  | error e => exact .error e e

/-- **A guard that always holds.** -/
theorem Lockstep.require_bind_left {p : Prop} [Decidable p] {e : ε} {f : Unit → Except ε β}
    (hp : p) (h : Lockstep R (f ()) y) : Lockstep R (require p e >>= f) y := by
  rw [require_of hp]
  exact h

theorem Lockstep.require_bind_right {p : Prop} [Decidable p] {e : ε'} {g : Unit → Except ε' γ}
    (hp : p) (h : Lockstep R x (g ())) : Lockstep R x (require p e >>= g) := by
  rw [require_of hp]
  exact h

end Rules

theorem Lockstep.foldlM_aux {l : List α} {f : β → α → Except ε β} {g : γ → α → Except ε' γ}
    (P : List α → β → γ → Prop)
    (step : ∀ done x rest b c, l = done ++ x :: rest → P done b c →
      Lockstep (P (done ++ [x])) (f b x) (g c x)) :
    ∀ (rest done : List α) (b : β) (c : γ), l = done ++ rest → P done b c →
      Lockstep (P l) (rest.foldlM f b) (rest.foldlM g c)
  | [], done, b, c, hl, hP => by
      rw [List.append_nil] at hl
      exact .ok (hl ▸ hP)
  | x :: rest, done, b, c, hl, hP => by
      rw [List.foldlM_cons, List.foldlM_cons]
      refine (step done x rest b c hl hP).bind fun b' c' hP' => ?_
      exact Lockstep.foldlM_aux P step rest (done ++ [x]) b' c' (by simp [hl]) hP'

/-- **Two loops over the same list.** -/
theorem Lockstep.foldlM {l : List α} {f : β → α → Except ε β} {g : γ → α → Except ε' γ} {b : β}
    {c : γ} (P : List α → β → γ → Prop) (init : P [] b c)
    (step : ∀ done x rest b c, l = done ++ x :: rest → P done b c →
      Lockstep (P (done ++ [x])) (f b x) (g c x)) :
    Lockstep (P l) (l.foldlM f b) (l.foldlM g c) :=
  Lockstep.foldlM_aux P step l [] b c rfl init

/-! ## Related inputs -/

section Related

variable {R : β → γ → Prop} {S : β' → γ' → Prop}

theorem Lockstep.exists_of_ok {x : Except ε β} {y : Except ε' γ} (h : Lockstep R x y) {b : β}
    (hx : x = .ok b) : ∃ c, y = .ok c ∧ R b c := by
  subst hx
  cases h with
  | ok related => exact ⟨_, rfl, related⟩

theorem Lockstep.map {x : Except ε β} {y : Except ε' γ} {f : β → β'} {g : γ → γ'}
    (h : Lockstep R x y) (hfg : ∀ b c, R b c → S (f b) (g c)) : Lockstep S (x.map f) (y.map g) := by
  cases h with
  | ok related => exact .ok (hfg _ _ related)
  | error e e' => exact .error e e'

/-- **Guards** on the same condition. -/
theorem Lockstep.require {p q : Prop} [Decidable p] [Decidable q] {e : ε} {e' : ε'} (h : p ↔ q) :
    Lockstep (fun _ _ => p) (require p e) (require q e') := by
  by_cases hp : p
  · rw [require_of hp, require_of (h.mp hp)]
    exact .ok hp
  · rw [Loop.require, Loop.require, if_neg hp, if_neg fun hq => hp (h.mpr hq)]
    exact .error e e'

/-- **Two table loops** over related lists. -/
theorem Lockstep.mapM {α α' : Type} {T : α → α' → Prop} {f : α → Except ε β}
    {g : α' → Except ε' γ} {l : List α} {l' : List α'} (hl : List.Forall₂ T l l')
    (hfg : ∀ a a', T a a' → Lockstep R (f a) (g a')) :
    Lockstep (List.Forall₂ R) (l.mapM f) (l'.mapM g) := by
  induction hl with
  | nil => exact .ok .nil
  | cons head _ ih =>
      rw [List.mapM_cons, List.mapM_cons]
      refine (hfg _ _ head).bind fun b c hbc => ih.bind fun bs cs hbcs => ?_
      exact .ok (.cons hbc hbcs)

/-- **Two loops** over related lists. -/
theorem Lockstep.foldlM_related {α α' : Type} {T : α → α' → Prop} {f : β → α → Except ε β}
    {g : γ → α' → Except ε' γ} {l : List α} {l' : List α'} (hl : List.Forall₂ T l l')
    (hfg : ∀ a a' b c, T a a' → R b c → Lockstep R (f b a) (g c a')) :
    ∀ {b : β} {c : γ}, R b c → Lockstep R (l.foldlM f b) (l'.foldlM g c) := by
  induction hl with
  | nil => exact fun hbc => .ok hbc
  | cons head _ ih =>
      intro b c hbc
      rw [List.foldlM_cons, List.foldlM_cons]
      exact (hfg _ _ b c head hbc).bind fun b' c' hbc' => ih hbc'

end Related

/-! ## The same value

`x.toOption = y.toOption` says that `x` and `y` return the same, whatever they report when they
fail.  The lemmas turn a chain into one whose errors are gone.
-/

section Value

@[simp] theorem toOption_ok (b : β) : (Except.ok b : Except ε β).toOption = some b := rfl

@[simp] theorem toOption_error (e : ε) : (Except.error e : Except ε β).toOption = none := rfl

theorem toOption_eq_some {x : Except ε β} {b : β} : x.toOption = some b ↔ x = .ok b := by
  cases x with
  | error e => simp
  | ok a => simp

@[simp] theorem toOption_require {p : Prop} [Decidable p] {e : ε} :
    (require p e).toOption = if p then some () else none := by
  rw [Loop.require]
  split <;> rfl

@[simp] theorem toOption_bind {x : Except ε β} {f : β → Except ε β'} :
    (x >>= f).toOption = x.toOption.bind fun b => (f b).toOption := by
  cases x <;> rfl

@[simp] theorem toOption_map {x : Except ε β} {f : β → β'} :
    (x.map f).toOption = x.toOption.map f := by
  cases x <;> rfl

theorem Lockstep.of_toOption_eq {x : Except ε β} {y : Except ε' β} (h : x.toOption = y.toOption) :
    Lockstep Eq x y := by
  cases x with
  | ok b =>
      cases y with
      | ok c => exact .ok (Option.some.inj h)
      | error e => cases h
  | error e =>
      cases y with
      | ok c => cases h
      | error e' => exact .error e e'

theorem Lockstep.toOption_eq {x : Except ε β} {y : Except ε' β} (h : Lockstep Eq x y) :
    x.toOption = y.toOption := by
  cases h with
  | ok related => exact congrArg some related
  | error e e' => rfl

end Value

end Loop
