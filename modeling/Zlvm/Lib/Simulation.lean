/-!
# Running until a fault

Two ways to describe a device that is fed a list of inputs and stops at the first that fails.

* `runLive` — an implementation: a step always returns a state, and the run goes on while the state
  is live.
* `runFault` — a specification: a step succeeds with a state and an output, or faults.
* `RunsMatch` — the two runs agree.
* `runLive_simulates` — a step-by-step correspondence extends to whole runs.
-/

namespace Simulation

variable {σ τ ι ο ε : Type}

/-- Feed the inputs to the implementation while it is live; the outputs are those of the steps that
left it live. -/
def runLive (live : σ → Bool) (step : σ → ι → σ × ο) : List ι → σ → σ × List ο
  | [], s => (s, [])
  | i :: is, s =>
      let (s', o) := step s i
      if live s' then
        let (final, os) := runLive live step is s'
        (final, o :: os)
      else (s', [])

/-- Feed the inputs to the specification until it faults; the state is the last one before the
fault. -/
def runFault (step : τ → ι → Except ε (τ × ο)) : List ι → τ → τ × List ο × Option ε
  | [], t => (t, [], none)
  | i :: is, t =>
      match step t i with
      | .error e => (t, [], some e)
      | .ok (t', o) =>
          let (final, os, fault) := runFault step is t'
          (final, o :: os, fault)

/-- One step of the implementation against one of the specification: either both go on with the
same output and related states, or the specification faults and the implementation is no longer
live. -/
def StepMatches (live : σ → Bool) (R : σ → τ → Prop) (F : ε → σ → τ → Prop)
    (after : σ × ο) (before : τ) : Except ε (τ × ο) → Prop
  | .ok (t', o) => live after.1 = true ∧ after.2 = o ∧ R after.1 t'
  | .error e => live after.1 = false ∧ F e after.1 before

/-- A run of the implementation against one of the specification: the same outputs, and either
related states at the end or what a fault leaves. -/
def RunsMatch (R : σ → τ → Prop) (F : ε → σ → τ → Prop) (run : σ × List ο)
    (spec : τ × List ο × Option ε) : Prop :=
  run.2 = spec.2.1 ∧
    match spec.2.2 with
    | none => R run.1 spec.1
    | some e => F e run.1 spec.1

/-- **Simulation of runs.**  `R` relates the states that go on, `F` what is left after a fault. -/
theorem runLive_simulates {live : σ → Bool} {step : σ → ι → σ × ο}
    {step' : τ → ι → Except ε (τ × ο)} (R : σ → τ → Prop) (F : ε → σ → τ → Prop)
    (valid : ι → Prop)
    (hstep : ∀ s t i, R s t → valid i → StepMatches live R F (step s i) t (step' t i)) :
    ∀ (is : List ι) (s : σ) (t : τ), (∀ i ∈ is, valid i) → R s t →
      RunsMatch R F (runLive live step is s) (runFault step' is t)
  | [], _, _, _, hR => ⟨rfl, hR⟩
  | i :: is, s, t, hvalid, hR => by
      have hmatch := hstep s t i hR (hvalid i (by simp))
      rw [RunsMatch, runLive, runFault]
      cases ht : step' t i with
      | error e =>
          rw [ht] at hmatch
          obtain ⟨hdead, hF⟩ := hmatch
          simp only [hdead]
          exact ⟨rfl, hF⟩
      | ok r =>
          rw [ht] at hmatch
          obtain ⟨hlive, hout, hR'⟩ := hmatch
          obtain ⟨houts, hfinal⟩ := runLive_simulates R F valid hstep is (step s i).1 r.1
            (fun j hj => hvalid j (by simp [hj])) hR'
          simp only [hlive, if_true]
          exact ⟨by rw [hout, houts], hfinal⟩

end Simulation
