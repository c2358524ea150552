import Mathlib.Data.List.Basic
import Mathlib.Data.List.Forall2

/-!
# Loops that may fail

A C function that runs through a table and returns early on the first bad entry is a chain of
`Except` binds with `List.foldlM` and `List.mapM` for its loops.  The rules here take such a chain
apart and carry an invariant through such a loop.

* `require` — a guard that fails with a given error; `bind_eq_ok` — a chain that succeeds succeeds
  at every link.
* `foldl_induction`, `foldlM_induction`, `foldlM_progress` — invariants indexed by the part of the
  list already consumed.
* `mapM_eq_ok_iff`, `mapM_range_eq_ok` — loops that fill a table; `pairwise_getElem?` — two entries
  of a table.
* `Ensures` — what holds of the result of a computation that succeeds and of the error of one that
  fails, with a rule for each way of building a computation.
-/

namespace Loop

universe v w

variable {α : Type w} {β γ : Type} {ε : Type v}

/-- A guard: fail with `e` unless the condition holds. -/
def require (c : Prop) [Decidable c] (e : ε) : Except ε Unit :=
  if c then .ok () else .error e

@[simp] theorem require_eq_ok {c : Prop} [Decidable c] {e : ε} {u : Unit} :
    require c e = .ok u ↔ c := by
  by_cases h : c <;> simp [require, h]

theorem require_of {c : Prop} [Decidable c] {e : ε} (h : c) : require c e = .ok () := if_pos h

theorem require_eq_error {c : Prop} [Decidable c] {e e' : ε} :
    require c e = .error e' ↔ ¬c ∧ e = e' := by
  by_cases h : c <;> simp [require, h]

/-! ## Chains -/

theorem bind_eq_ok {x : Except ε γ} {f : γ → Except ε β} {b : β} :
    (x >>= f) = .ok b ↔ ∃ a, x = .ok a ∧ f a = .ok b := by
  cases x with
  | error e => simp [bind, Except.bind]
  | ok a => simp [bind, Except.bind]

theorem bind_eq_error {x : Except ε γ} {f : γ → Except ε β} {e : ε} :
    (x >>= f) = .error e ↔ x = .error e ∨ ∃ a, x = .ok a ∧ f a = .error e := by
  cases x with
  | error e => simp [bind, Except.bind]
  | ok a => simp [bind, Except.bind]

theorem map_eq_ok {x : Except ε γ} {f : γ → β} {b : β} :
    x.map f = .ok b ↔ ∃ a, x = .ok a ∧ f a = b := by
  cases x with
  | error e => simp [Except.map]
  | ok a => simp [Except.map]

@[simp] theorem ok_bind (a : γ) (f : γ → Except ε β) : (Except.ok a >>= f) = f a := rfl

@[simp] theorem error_bind (e : ε) (f : γ → Except ε β) :
    ((Except.error e : Except ε γ) >>= f) = .error e := rfl

@[simp] theorem pure_eq_ok (a : γ) : (pure a : Except ε γ) = .ok a := rfl

@[simp] theorem throw_eq_error (e : ε) : (throw e : Except ε γ) = .error e := rfl

/-! ## Loops with an accumulator

The invariant `P done b` relates the accumulator to the part of the list already consumed; the
step may use how the whole list splits around the current element.
-/

theorem foldl_induction_aux {l : List α} {f : β → α → β} (P : List α → β → Prop)
    (step : ∀ done x rest b, l = done ++ x :: rest → P done b → P (done ++ [x]) (f b x)) :
    ∀ (rest done : List α) (b : β), l = done ++ rest → P done b → P l (rest.foldl f b)
  | [], done, b, hl, hP => by
      rw [List.append_nil] at hl
      exact hl ▸ hP
  | x :: rest, done, b, hl, hP => by
      refine foldl_induction_aux P step rest (done ++ [x]) (f b x) (by simp [hl]) ?_
      exact step done x rest b hl hP

/-- **Invariant of a loop.** -/
theorem foldl_induction {l : List α} {f : β → α → β} {b : β} (P : List α → β → Prop)
    (init : P [] b)
    (step : ∀ done x rest b, l = done ++ x :: rest → P done b → P (done ++ [x]) (f b x)) :
    P l (l.foldl f b) :=
  foldl_induction_aux P step l [] b rfl init

theorem foldlM_induction_aux {l : List α} {f : β → α → Except ε β} (P : List α → β → Prop)
    (step : ∀ done x rest b b', l = done ++ x :: rest → P done b → f b x = .ok b' →
      P (done ++ [x]) b') :
    ∀ (rest done : List α) (b r : β), l = done ++ rest → P done b → rest.foldlM f b = .ok r → P l r
  | [], done, b, r, hl, hP, h => by
      rw [List.append_nil] at hl
      obtain rfl : b = r := by simpa using h
      exact hl ▸ hP
  | x :: rest, done, b, r, hl, hP, h => by
      rw [List.foldlM_cons, bind_eq_ok] at h
      obtain ⟨b', hb', h⟩ := h
      exact foldlM_induction_aux P step rest (done ++ [x]) b' r (by simp [hl])
        (step done x rest b b' hl hP hb') h

/-- **Invariant of a loop that may fail**, read off a run that did not. -/
theorem foldlM_induction {l : List α} {f : β → α → Except ε β} {b r : β}
    (P : List α → β → Prop) (h : l.foldlM f b = .ok r) (init : P [] b)
    (step : ∀ done x rest b b', l = done ++ x :: rest → P done b → f b x = .ok b' →
      P (done ++ [x]) b') :
    P l r :=
  foldlM_induction_aux P step l [] b r rfl init h

theorem foldlM_progress_aux {l : List α} {f : β → α → Except ε β} (P : List α → β → Prop)
    (step : ∀ done x rest b, l = done ++ x :: rest → P done b →
      ∃ b', f b x = .ok b' ∧ P (done ++ [x]) b') :
    ∀ (rest done : List α) (b : β), l = done ++ rest → P done b →
      ∃ r, rest.foldlM f b = .ok r ∧ P l r
  | [], done, b, hl, hP => by
      rw [List.append_nil] at hl
      exact ⟨b, rfl, hl ▸ hP⟩
  | x :: rest, done, b, hl, hP => by
      obtain ⟨b', hb', hP'⟩ := step done x rest b hl hP
      obtain ⟨r, hr, hPr⟩ := foldlM_progress_aux P step rest (done ++ [x]) b' (by simp [hl]) hP'
      exact ⟨r, by rw [List.foldlM_cons, hb', ok_bind, hr], hPr⟩

/-- **Progress of a loop that may fail**: it succeeds when its invariant makes every step
succeed. -/
theorem foldlM_progress {l : List α} {f : β → α → Except ε β} {b : β} (P : List α → β → Prop)
    (init : P [] b)
    (step : ∀ done x rest b, l = done ++ x :: rest → P done b →
      ∃ b', f b x = .ok b' ∧ P (done ++ [x]) b') :
    ∃ r, l.foldlM f b = .ok r ∧ P l r :=
  foldlM_progress_aux P step l [] b rfl init

/-- A loop whose every step succeeds is the plain loop over the results. -/
theorem foldlM_eq_ok_foldl {f : β → α → Except ε β} {g : β → α → β} : ∀ {l : List α} {b : β},
    (∀ x ∈ l, ∀ b, f b x = .ok (g b x)) → l.foldlM f b = .ok (l.foldl g b)
  | [], _, _ => rfl
  | x :: l, b, h => by
      rw [List.foldlM_cons, h x (by simp), ok_bind, List.foldl_cons]
      exact foldlM_eq_ok_foldl fun y hy => h y (by simp [hy])

/-! ## Loops that fill a table -/

theorem mapM_eq_ok_iff {f : α → Except ε β} : ∀ {l : List α} {l' : List β},
    l.mapM f = .ok l' ↔ List.Forall₂ (fun a b => f a = .ok b) l l'
  | [], l' => by simp [eq_comm]
  | a :: l, l' => by
      rw [List.mapM_cons, bind_eq_ok]
      constructor
      · rintro ⟨b, hb, h⟩
        rw [bind_eq_ok] at h
        obtain ⟨bs, hbs, h⟩ := h
        obtain rfl : b :: bs = l' := by simpa using h
        exact .cons hb (mapM_eq_ok_iff.mp hbs)
      · rintro (_ | ⟨hb, hbs⟩)
        exact ⟨_, hb, by rw [mapM_eq_ok_iff.mpr hbs]; rfl⟩

theorem mapM_length {f : α → Except ε β} {l : List α} {l' : List β} (h : l.mapM f = .ok l') :
    l.length = l'.length := (mapM_eq_ok_iff.mp h).length_eq

/-- A table loop over `0 … n - 1` yields `l` when entry `i` yields `l[i]`. -/
theorem mapM_range_eq_ok {f : ℕ → Except ε β} {l : List β}
    (h : ∀ (i : ℕ) (hi : i < l.length), f i = .ok l[i]) :
    (List.range l.length).mapM f = .ok l := by
  rw [mapM_eq_ok_iff, List.forall₂_iff_get]
  refine ⟨by simp, fun i h₁ h₂ => ?_⟩
  simpa using h i h₂

/-! ## Tables -/

/-- Two entries of a table whose entries are pairwise related, in one order or the other. -/
theorem pairwise_getElem? {R : α → α → Prop} {l : List α} (h : l.Pairwise R) {i j : ℕ} {a b : α}
    (ha : l[i]? = some a) (hb : l[j]? = some b) (hne : i ≠ j) : R a b ∨ R b a := by
  obtain ⟨hi, rfl⟩ := List.getElem?_eq_some_iff.mp ha
  obtain ⟨hj, rfl⟩ := List.getElem?_eq_some_iff.mp hb
  rcases Nat.lt_or_gt_of_ne hne with hlt | hgt
  · exact .inl (List.pairwise_iff_getElem.mp h i j hi hj hlt)
  · exact .inr (List.pairwise_iff_getElem.mp h j i hj hi hgt)

/-- How a list with one more element splits. -/
theorem concat_eq_append_cons {done before after : List α} {x y : α}
    (h : done ++ [x] = before ++ y :: after) :
    (after = [] ∧ before = done ∧ y = x) ∨
      ∃ after', after = after' ++ [x] ∧ done = before ++ y :: after' := by
  rcases List.append_eq_append_iff.mp h with ⟨rest, rfl, hrest⟩ | ⟨rest, rfl, hrest⟩
  · cases rest with
    | nil =>
        obtain ⟨rfl, rfl⟩ := List.cons.inj hrest
        exact .inl ⟨rfl, List.append_nil _, rfl⟩
    | cons z rest => simp at hrest
  · cases rest with
    | nil =>
        obtain ⟨rfl, rfl⟩ := List.cons.inj hrest
        exact .inl ⟨rfl, (List.append_nil _).symm, rfl⟩
    | cons z rest =>
        obtain ⟨rfl, rfl⟩ := List.cons.inj hrest
        exact .inr ⟨rest, rfl, rfl⟩

/-! ## Postconditions

`Ensures x Q E` says that `x` either succeeds with a result in `Q` or fails with an error in `E`.
-/

/-- The result satisfies `Q`, or the error satisfies `E`. -/
def Ensures (x : Except ε β) (Q : β → Prop) (E : ε → Prop) : Prop :=
  match x with
  | .ok a => Q a
  | .error e => E e

section Ensures

variable {Q : β → Prop} {E : ε → Prop}

@[simp] theorem ensures_ok {a : β} : Ensures (.ok a : Except ε β) Q E ↔ Q a := Iff.rfl

@[simp] theorem ensures_error {e : ε} : Ensures (.error e : Except ε β) Q E ↔ E e := Iff.rfl

theorem Ensures.of_eq_ok {x : Except ε β} (h : Ensures x Q E) {a : β} (hx : x = .ok a) : Q a := by
  subst hx
  exact h

theorem Ensures.of_eq_error {x : Except ε β} (h : Ensures x Q E) {e : ε} (hx : x = .error e) :
    E e := by
  subst hx
  exact h

theorem Ensures.mono {Q' : β → Prop} {E' : ε → Prop} {x : Except ε β} (h : Ensures x Q E)
    (hQ : ∀ a, Q a → Q' a) (hE : ∀ e, E e → E' e) : Ensures x Q' E' := by
  cases x with
  | ok a => exact hQ a h
  | error e => exact hE e h

/-- **Sequencing.**  The intermediate result meets what the rest needs. -/
theorem Ensures.bind {x : Except ε γ} {f : γ → Except ε β} {R : γ → Prop} (hx : Ensures x R E)
    (hf : ∀ a, R a → Ensures (f a) Q E) : Ensures (x >>= f) Q E := by
  cases x with
  | ok a => exact hf a hx
  | error e => exact hx

/-- **A guard** gives its condition to the rest. -/
theorem Ensures.require_bind {c : Prop} [Decidable c] {e : ε} {f : Unit → Except ε β}
    (he : ¬c → E e) (hf : c → Ensures (f ()) Q E) : Ensures (require c e >>= f) Q E := by
  by_cases h : c
  · rw [require_of h]
    exact hf h
  · rw [require, if_neg h]
    exact he h

/-- **A table loop**: what each entry ensures holds entry by entry. -/
theorem Ensures.mapM {f : α → Except ε β} {R : α → β → Prop} : ∀ {l : List α},
    (∀ a ∈ l, Ensures (f a) (R a) E) → Ensures (l.mapM f) (fun bs => List.Forall₂ R l bs) E
  | [], _ => .nil
  | a :: l, h => by
      rw [List.mapM_cons]
      refine (h a (by simp)).bind fun b hb => ?_
      refine (Ensures.mapM (l := l) fun a' ha' => h a' (by simp [ha'])).bind fun bs hbs => ?_
      exact .cons hb hbs

end Ensures

end Loop
