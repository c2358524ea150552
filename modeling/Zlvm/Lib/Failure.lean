import Zlvm.Lib.Loop

/-!
# How a computation may fail

`FailsWith E x` says of a computation only what its errors are like.  Each way of building a
computation has an equivalence, so that a chain of guards and calls is taken apart into one
condition for every place at which it may fail.

* `failsWith_require`, `failsWith_bind`, `failsWith_map` — guards and chains.
* `FailsWith.foldlM`, `FailsWith.mapM` — loops.
* `failingPass`, `foldlM_eq_error_iff` — the pass at which a loop fails.
* `Ensures.failsWith`, `FailsWith.ensures` — with a postcondition.
* `mapError_bind`, `mapError_require`, `mapError_foldlM` — the same computation with other errors.
-/

namespace Loop

universe v w

variable {α : Type w} {β γ : Type} {ε : Type v} {E : ε → Prop}

/-- Every error satisfies `E`. -/
def FailsWith (E : ε → Prop) (x : Except ε β) : Prop := ∀ e, x = .error e → E e

@[simp] theorem failsWith_ok (a : β) : FailsWith E (.ok a : Except ε β) := fun _ h => nomatch h

@[simp] theorem failsWith_error {e : ε} : FailsWith E (.error e : Except ε β) ↔ E e :=
  ⟨fun h => h e rfl, fun he _ h => Except.error.inj h ▸ he⟩

@[simp] theorem failsWith_require {c : Prop} [Decidable c] {e : ε} :
    FailsWith E (require c e) ↔ (¬c → E e) := by
  by_cases hc : c <;> simp [require, hc]

/-- **Chains.**  What follows is reached only after a success. -/
@[simp] theorem failsWith_bind {x : Except ε γ} {f : γ → Except ε β} :
    FailsWith E (x >>= f) ↔ FailsWith E x ∧ ∀ a, x = .ok a → FailsWith E (f a) := by
  cases x with
  | error e => simp
  | ok a => simp

@[simp] theorem failsWith_map {x : Except ε γ} {f : γ → β} :
    FailsWith E (x.map f) ↔ FailsWith E x := by
  cases x with
  | error e => exact failsWith_error.trans failsWith_error.symm
  | ok a => exact iff_of_true (failsWith_ok _) (failsWith_ok _)

/-- **A loop** whose every pass fails with such an error. -/
theorem FailsWith.foldlM {f : β → α → Except ε β} : ∀ {l : List α} {b : β},
    (∀ x ∈ l, ∀ b, FailsWith E (f b x)) → FailsWith E (l.foldlM f b)
  | [], _, _ => failsWith_ok _
  | x :: l, b, h => by
      rw [List.foldlM_cons, failsWith_bind]
      exact ⟨h x List.mem_cons_self b,
        fun b' _ => FailsWith.foldlM fun y hy => h y (List.mem_cons_of_mem x hy)⟩

/-- **A table loop** whose every entry fails with such an error. -/
theorem FailsWith.mapM {f : α → Except ε β} : ∀ {l : List α},
    (∀ x ∈ l, FailsWith E (f x)) → FailsWith E (l.mapM f)
  | [], _ => failsWith_ok _
  | x :: l, h => by
      rw [List.mapM_cons, failsWith_bind]
      refine ⟨h x List.mem_cons_self, fun b _ => ?_⟩
      rw [failsWith_bind]
      exact ⟨FailsWith.mapM fun y hy => h y (List.mem_cons_of_mem x hy), fun bs _ => failsWith_ok _⟩

/-- The pass at which a loop fails: what it carries there, and the element it is at. -/
def failingPass (f : β → α → Except ε β) : β → List α → Option (β × α)
  | _, [] => none
  | b, x :: l =>
      match f b x with
      | .ok b' => failingPass f b' l
      | .error _ => some (b, x)

/-- **A loop fails** with the error of the pass at which it does. -/
theorem foldlM_eq_error_iff {f : β → α → Except ε β} {e : ε} : ∀ {l : List α} {b : β},
    l.foldlM f b = .error e ↔ ∃ b' x, failingPass f b l = some (b', x) ∧ f b' x = .error e
  | [], b => by simp [failingPass]
  | x :: l, b => by
      rw [List.foldlM_cons, failingPass]
      cases hx : f b x with
      | ok b' =>
          rw [ok_bind]
          exact foldlM_eq_error_iff
      | error e' =>
          rw [error_bind]
          constructor
          · intro h
            exact ⟨b, x, rfl, hx.trans h⟩
          · rintro ⟨_, _, hpass, h⟩
            obtain ⟨rfl, rfl⟩ := Prod.mk.inj (Option.some.inj hpass)
            exact hx.symm.trans h

theorem Ensures.map {Q : β → Prop} {Q' : γ → Prop} {x : Except ε β} {f : β → γ}
    (h : Ensures x Q E) (hf : ∀ a, Q a → Q' (f a)) : Ensures (x.map f) Q' E := by
  cases x with
  | ok a => exact hf a h
  | error e => exact h

theorem Ensures.foldlM_aux {l : List α} {f : β → α → Except ε β} (P : List α → β → Prop)
    (step : ∀ done x rest b, l = done ++ x :: rest → P done b →
      Ensures (f b x) (P (done ++ [x])) E) :
    ∀ (rest done : List α) (b : β), l = done ++ rest → P done b →
      Ensures (rest.foldlM f b) (P l) E
  | [], done, b, hl, hP => by
      rw [List.append_nil] at hl
      exact hl ▸ hP
  | x :: rest, done, b, hl, hP => by
      rw [List.foldlM_cons]
      refine (step done x rest b hl hP).bind fun b' hb' => ?_
      exact Ensures.foldlM_aux P step rest (done ++ [x]) b' (by simp [hl]) hb'

/-- **Invariant of a loop**, with what holds when it fails. -/
theorem Ensures.foldlM {l : List α} {f : β → α → Except ε β} {b : β} (P : List α → β → Prop)
    (init : P [] b)
    (step : ∀ done x rest b, l = done ++ x :: rest → P done b →
      Ensures (f b x) (P (done ++ [x])) E) :
    Ensures (l.foldlM f b) (P l) E :=
  Ensures.foldlM_aux P step l [] b rfl init

/-- The result is that of the computation. -/
theorem Ensures.and_eq {Q : β → Prop} {x : Except ε β} (h : Ensures x Q E) :
    Ensures x (fun a => Q a ∧ x = .ok a) E := by
  cases x with
  | ok a => exact ⟨h, rfl⟩
  | error e => exact h

theorem Ensures.failsWith {Q : β → Prop} {x : Except ε β} (h : Ensures x Q E) : FailsWith E x :=
  fun _ hx => h.of_eq_error hx

/-- The errors of a computation, with what holds of its result. -/
theorem FailsWith.ensures {Q : β → Prop} {x : Except ε β} (h : FailsWith E x)
    (hQ : ∀ a, x = .ok a → Q a) : Ensures x Q E := by
  cases x with
  | ok a => exact hQ a rfl
  | error e => exact h e rfl

/-! ## Other errors -/

section MapError

variable {ε' : Type v} {g : ε → ε'}

@[simp] theorem mapError_ok (a : β) : (Except.ok a : Except ε β).mapError g = .ok a := rfl

@[simp] theorem mapError_error (e : ε) :
    (Except.error e : Except ε β).mapError g = .error (g e) := rfl

theorem mapError_require {c : Prop} [Decidable c] {e : ε} :
    (require c e).mapError g = require c (g e) := by
  by_cases hc : c <;> simp [require, hc]

theorem mapError_bind {x : Except ε γ} {f : γ → Except ε β} :
    (x >>= f).mapError g = x.mapError g >>= fun a => (f a).mapError g := by
  cases x <;> rfl

theorem mapError_foldlM {f : β → α → Except ε β} : ∀ {l : List α} {b : β},
    (l.foldlM f b).mapError g = l.foldlM (fun b x => (f b x).mapError g) b
  | [], _ => rfl
  | x :: l, b => by
      rw [List.foldlM_cons, List.foldlM_cons, mapError_bind]
      exact congrArg _ (funext fun b' => mapError_foldlM)

end MapError

end Loop
