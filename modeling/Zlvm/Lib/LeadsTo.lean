import Mathlib.Data.Nat.Basic
import Mathlib.Logic.Relation

/-!
# Pre- and postconditions of programs with jumps

Machine code has no blocks that a triple could be about: control goes from address to address.  So a
triple speaks of all steps between two sets of states, and where control stands is part of these.

* `LeadsTo step P Q` — from every state in `P`, some steps lead to a state in `Q`.
* **`LeadsTo.loop`** — the rule of loops: a pass ends it or makes a variant smaller.
* `Endless step P` — a set of states in which the steps go on; **`Endless.reached`** — the rule of
  loops that do not end.
-/

namespace Hoare

variable {σ : Type*} {step : σ → σ → Prop} {P Q : σ → Prop}

/-- From every state in `P`, some steps lead to a state in `Q`. -/
def LeadsTo (step : σ → σ → Prop) (P Q : σ → Prop) : Prop :=
  ∀ s, P s → ∃ t, Relation.ReflTransGen step s t ∧ Q t

/-- **Loops.**  A pass from the invariant `P` leads out of the loop, or back to the invariant with a
smaller variant. -/
theorem LeadsTo.loop (variant : σ → ℕ)
    (pass : ∀ n, LeadsTo step (fun s => P s ∧ variant s = n)
      (fun s => Q s ∨ P s ∧ variant s < n)) : LeadsTo step P Q := by
  have hall : ∀ n s, P s → variant s = n → ∃ t, Relation.ReflTransGen step s t ∧ Q t := by
    intro n
    induction n using Nat.strong_induction_on with
    | _ n ih =>
        intro s hs hn
        obtain ⟨t, hst, hQ | ⟨ht, hlt⟩⟩ := pass n s ⟨hs, hn⟩
        · exact ⟨t, hst, hQ⟩
        · obtain ⟨u, htu, hu⟩ := ih (variant t) hlt t ht rfl
          exact ⟨u, hst.trans htu, hu⟩
  intro s hs
  exact hall _ s hs rfl

/-- From every state in `P` there is a step, and every state that is reached is again in `P`. -/
def Endless (step : σ → σ → Prop) (P : σ → Prop) : Prop :=
  ∀ s, P s → (∃ t, step s t) ∧ ∀ t, step s t → P t

/-- **Loops that do not end.**  Whatever is reached from the invariant is in it and goes on. -/
theorem Endless.reached (h : Endless step P) {s t : σ} (hs : P s)
    (hst : Relation.ReflTransGen step s t) : P t ∧ ∃ u, step t u := by
  have ht : P t := by
    induction hst with
    | refl => exact hs
    | tail _ hstep ih => exact (h _ ih).2 _ hstep
  exact ⟨ht, (h t ht).1⟩

end Hoare
