import Zlvm.Vm.Frame
import Zlvm.Vm.Reachable

/-!
# How a run ends

* `vmTrace` — the instructions that a run hands to `vm_run_instruction`.
* `vmRunInstruction_halted_iff` — the one instruction that halts the machine.
* `RunState`, `runState` — what the trace says about the state after any number of passes.
* **`vmRun_outcome`** — a run that returns has halted, by that instruction, or has failed.
-/

namespace Zlvm

open VirtualMachine

/-! ## Executed instructions -/

/-- An instruction reaches the case of `op` in the switch.  One whose condition does not hold is
skipped, and one with an invalid field is rejected, before the switch. -/
structure Executes (vm : VirtualMachine) (instruction : Instruction) (op : Opcode) : Prop where
  condition : ∃ c, Condition.ofWord instruction.condition = some c ∧ c.holds vm.cpsr = true
  register1 : instruction.register1.toNat < 32
  register2 : instruction.register2.toNat < 32
  opcode : Opcode.ofWord instruction.opcode = some op

/-- An instruction together with the machine it is run on. -/
structure Event where
  vm : VirtualMachine
  instruction : Instruction

/-- `INT 0xFF` with its condition satisfied. -/
def Event.Halts (event : Event) : Prop :=
  Executes event.vm event.instruction .int ∧ event.instruction.immediate = 0xFF

/-- The machine after an instruction. -/
def Event.result (event : Event) : VirtualMachine := vmRunInstruction event.vm event.instruction

/-- What one pass of the loop runs: nothing if it has stopped or if the fetch fails. -/
def vmEvents (vm : VirtualMachine) : List Event :=
  let (vm', instruction) := vmFetchInstruction vm
  if vmLive vm && vmHasNoError vm' then [⟨vm', instruction⟩] else []

/-- What the first `n` passes run. -/
def vmTrace : ℕ → VirtualMachine → List Event
  | 0, _ => []
  | n + 1, vm => vmTrace n vm ++ vmEvents (vmSteps n vm)

theorem vmTrace_of_stopped {vm : VirtualMachine} {k : ℕ} (h : vmLive (vmSteps k vm) = false) :
    ∀ m, vmTrace (k + m) vm = vmTrace k vm
  | 0 => rfl
  | m + 1 => by
      have hevents : vmEvents (vmSteps (k + m) vm) = [] := by
        rw [vmSteps_add, vmSteps_of_stopped h, vmEvents, h]
        rfl
      rw [← Nat.add_assoc, vmTrace, hevents, List.append_nil, vmTrace_of_stopped h m]

/-! ## States -/

theorem vmLive_of_normal {vm : VirtualMachine} (h : vm.cpsr.ST = .normal) : vmLive vm = true := by
  rw [vmLive, vmHasNoError, vmHasState, h]
  rfl

theorem vmLive_of_halted {vm : VirtualMachine} (h : vm.cpsr.ST = .halted) :
    vmLive vm = false := by
  rw [vmLive, vmHasNoError, vmHasState, h]
  rfl

theorem vmHasNoError_of_halted {vm : VirtualMachine} (h : vm.cpsr.ST = .halted) :
    vmHasNoError vm = true := by
  rw [vmHasNoError, h]
  rfl

theorem vmLive_of_isError {vm : VirtualMachine} (h : vm.cpsr.ST.isError = true) :
    vmLive vm = false := by
  rw [vmLive, vmHasNoError, h]
  rfl

/-- Setting a state never leaves the concrete states. -/
theorem cpuClosed_state : CpuClosed fun cpsr _ => cpsr.ST.isConcrete = true where
  state hst _ := hst
  operation _ _ h := h

/-- A concrete state. -/
theorem State.isConcrete_cases {state : State} (h : state.isConcrete = true) :
    state = .normal ∨ state = .halted ∨ state.isError = true ∧ state.isConcrete = true := by
  cases state
  case normal => exact .inl rfl
  case halted => exact .inr (.inl rfl)
  case total => cases h
  all_goals exact .inr (.inr ⟨rfl, h⟩)

/-! ## One instruction -/

/-- An instruction that halts the machine has reached the switch. -/
theorem executes_of_halted {event : Event} (hnormal : event.vm.cpsr.ST = .normal)
    (hhalted : event.result.cpsr.ST = .halted) : event.Halts := by
  have hvm : vmHasNoError (event.vm.setRegister Register.zero 0) = true :=
    vmHasNoError_of_normal hnormal
  have herror : ∀ {vm : VirtualMachine} {state : State}, state.isError = true →
      (vmSetState vm state).cpsr.ST ≠ .halted := by
    intro vm state hstate h
    have hno : vmHasNoError (vmSetState vm state) = false := vmHasNoError_vmSetState hstate
    rw [vmHasNoError, h] at hno
    cases hno
  rw [Event.result] at hhalted
  cases hcond : Condition.ofWord event.instruction.condition with
  | none =>
      rw [vmRunInstruction_invalidCondition hcond] at hhalted
      exact absurd hhalted (herror rfl)
  | some c =>
      cases hrun : c.holds event.vm.cpsr with
      | false =>
          rw [vmRunInstruction_skip hcond hrun] at hhalted
          cases hnormal.symm.trans hhalted
      | true =>
          by_cases hregs : event.instruction.register1.toNat < 32 ∧ event.instruction.register2.toNat < 32
          · rw [vmRunInstruction_eq hcond hrun hregs.1 hregs.2, vmAfterSwitch_cpsr, vmSwitch]
              at hhalted
            cases hop : Opcode.ofWord event.instruction.opcode with
            | none =>
                rw [hop] at hhalted
                exact absurd hhalted (herror rfl)
            | some op =>
                simp only [hop] at hhalted
                by_cases hint : op = .int ∧ event.instruction.immediate = 0xFF
                · exact ⟨⟨⟨c, hcond, hrun⟩, hregs.1, hregs.2, hint.1 ▸ hop⟩, hint.2⟩
                · -- any other opcode keeps the state
                  have hok := vmHasNoError_of_halted hhalted
                  have hstate := (vmDispatch_within hvm op hok).state hint
                  cases hnormal.symm.trans (hstate.symm.trans hhalted)
          · rw [vmRunInstruction_invalidRegister hcond hrun hregs] at hhalted
            exact absurd hhalted (herror rfl)

/-- **Only `INT 0xFF` halts the machine**, if its condition holds. -/
theorem vmRunInstruction_halted_iff {event : Event} (hnormal : event.vm.cpsr.ST = .normal) :
    event.result.cpsr.ST = .halted ↔ event.Halts := by
  refine ⟨executes_of_halted hnormal, ?_⟩
  rintro ⟨⟨⟨c, hcond, hrun⟩, h1, h2, hop⟩, himm⟩
  have hok : vmHasNoError (event.vm.setRegister Register.zero 0) = true :=
    vmHasNoError_of_normal hnormal
  rw [Event.result, vmRunInstruction_eq hcond hrun h1 h2, vmAfterSwitch_cpsr]
  simp only [vmSwitch, hop, vmDispatch, himm]
  show (vmSetState (event.vm.setRegister Register.zero 0) .halted).cpsr.ST = .halted
  rw [vmSetState_cpsr, if_pos hok]

/-! ## The whole run -/

/-- What the trace says about the state after `n` passes. -/
inductive RunState (start : VirtualMachine) (n : ℕ) : Prop
  | running (state : (vmSteps n start).cpsr.ST = .normal)
      (trace : ∀ event ∈ vmTrace n start, ¬event.Halts ∧ vmHasNoError event.result = true)
  | halted (state : (vmSteps n start).cpsr.ST = .halted) {before : List Event} {last : Event}
      (trace : vmTrace n start = before ++ [last]) (halts : last.Halts)
      (earlier : ∀ event ∈ before, vmHasNoError event.result = true)
  | failed (state : (vmSteps n start).cpsr.ST.isError = true)
      (concrete : (vmSteps n start).cpsr.ST.isConcrete = true)
      (trace : ∀ event ∈ vmTrace n start, ¬event.Halts)

/-- A pass whose fetch fails. -/
theorem vmStep_of_fetch_error {vm : VirtualMachine}
    (h : vmHasNoError (vmFetchInstruction vm).1 = false) :
    vmStep vm = (vmFetchInstruction vm).1 := by
  unfold vmStep
  revert h
  generalize vmFetchInstruction vm = fetched
  intro h
  exact if_neg (ne_true_of_eq_false h)

/-- A pass of a loop that has stopped. -/
theorem vmSteps_succ_of_stopped {start : VirtualMachine} {n : ℕ}
    (h : vmLive (vmSteps n start) = false) :
    vmSteps (n + 1) start = vmSteps n start ∧ vmTrace (n + 1) start = vmTrace n start := by
  refine ⟨?_, vmTrace_of_stopped h 1⟩
  rw [vmSteps_succ, h, if_neg Bool.false_ne_true]

/-- A pass of a loop that goes on. -/
theorem vmSteps_succ_of_running {start : VirtualMachine} {n : ℕ}
    (h : vmLive (vmSteps n start) = true) :
    vmSteps (n + 1) start = vmStep (vmSteps n start) ∧
      vmTrace (n + 1) start = vmTrace n start ++
        (if vmHasNoError (vmFetchInstruction (vmSteps n start)).1
          then [⟨(vmFetchInstruction (vmSteps n start)).1,
            (vmFetchInstruction (vmSteps n start)).2⟩] else []) := by
  rw [vmSteps_succ, vmTrace, vmEvents, h, if_pos rfl]
  exact ⟨rfl, rfl⟩

/-- A pass that runs an instruction. -/
theorem RunState.of_event {start : VirtualMachine} {n : ℕ} {value : Word}
    {instruction : Instruction} (state : (vmSteps n start).cpsr.ST = .normal)
    (trace : ∀ event ∈ vmTrace n start, ¬event.Halts ∧ vmHasNoError event.result = true)
    (hfetch : vmFetchInstruction (vmSteps n start)
      = ((vmSteps n start).setRegister Register.pc value, instruction)) :
    RunState start (n + 1) := by
  have hnormal : ((vmSteps n start).setRegister Register.pc value).cpsr.ST = .normal := state
  have hok := vmHasNoError_of_normal hnormal
  obtain ⟨hsteps, htrace⟩ := vmSteps_succ_of_running (vmLive_of_normal state)
  rw [vmStep, hfetch] at hsteps
  rw [hfetch] at htrace
  simp only [hok, if_true] at hsteps htrace
  generalize hevent : Event.mk ((vmSteps n start).setRegister Register.pc value) instruction
    = event at htrace
  have hresult : vmSteps (n + 1) start = event.result := by
    rw [hsteps, ← hevent]
    rfl
  have hiff : event.result.cpsr.ST = .halted ↔ event.Halts :=
    vmRunInstruction_halted_iff (by rw [← hevent]; exact hnormal)
  have hconcrete : event.result.cpsr.ST.isConcrete = true := by
    obtain ⟨-, h, -⟩ := cpuClosed_state.runInstruction hok (by rw [hnormal]; rfl) instruction
    rw [← hevent]
    exact h
  have hmem : ∀ {e}, e ∈ vmTrace (n + 1) start → e ∈ vmTrace n start ∨ e = event := by
    intro e he
    rw [htrace, List.mem_append, List.mem_singleton] at he
    exact he
  rcases State.isConcrete_cases hconcrete with hst | hst | hst
  · refine .running (hresult ▸ hst) fun e he => ?_
    rcases hmem he with he | rfl
    · exact trace e he
    · refine ⟨fun hhalts => ?_, vmHasNoError_of_normal hst⟩
      cases hst.symm.trans (hiff.mpr hhalts)
  · exact .halted (hresult ▸ hst) htrace (hiff.mp hst) fun e he => (trace e he).2
  · refine .failed (hresult ▸ hst.1) (hresult ▸ hst.2) fun e he => ?_
    rcases hmem he with he | rfl
    · exact (trace e he).1
    · intro hhalts
      rw [hiff.mpr hhalts] at hst
      cases hst.1

/-- **Every number of passes.** -/
theorem runState {start : VirtualMachine} (hnormal : start.cpsr.ST = .normal) (n : ℕ) :
    RunState start n := by
  induction n with
  | zero => exact .running hnormal fun _ h => absurd h List.not_mem_nil
  | succ n ih =>
      cases ih with
      | halted state trace halts earlier =>
          obtain ⟨hsteps, htrace⟩ := vmSteps_succ_of_stopped (vmLive_of_halted state)
          exact .halted (hsteps ▸ state) (htrace.trans trace) halts earlier
      | failed state concrete trace =>
          obtain ⟨hsteps, htrace⟩ := vmSteps_succ_of_stopped (vmLive_of_isError state)
          exact .failed (hsteps ▸ state) (hsteps ▸ concrete) (htrace ▸ trace)
      | running state trace =>
          have hok : vmHasNoError (vmSteps n start) = true := vmHasNoError_of_normal state
          obtain ⟨hsteps, htrace⟩ := vmSteps_succ_of_running (vmLive_of_normal state)
          obtain ⟨instruction, -, hfetch⟩ := @vmFetchInstruction_eq (vmSteps n start)
          by_cases hacc : (vmSteps n start).Accessible
              ((vmSteps n start).registers Register.pc).toNat instructionSize
          · rw [if_pos hacc] at hfetch
            exact RunState.of_event state trace hfetch
          · rw [if_neg hacc] at hfetch
            have hstate : (vmSetState (vmSteps n start) .errOutOfMemory).cpsr.ST
                = .errOutOfMemory := by
              rw [vmSetState_cpsr, if_pos hok]
            have hno : vmHasNoError (vmSetState (vmSteps n start) .errOutOfMemory) = false :=
              vmHasNoError_vmSetState rfl
            rw [vmStep, hfetch] at hsteps
            rw [hfetch] at htrace
            simp only [hno, Bool.false_eq_true, if_false, List.append_nil] at hsteps htrace
            refine .failed ?_ ?_ fun event hevent => (trace event (htrace ▸ hevent)).1
            · rw [hsteps, hstate]
              rfl
            · rw [hsteps, hstate]
              rfl

/-- What a run that returns says about itself. -/
structure RunOutcome (start : VirtualMachine) (n : ℕ) (state : State) : Prop where
  /-- The state is halted or an error, and no bound of the error range. -/
  stopped : state = .halted ∨ state.isError = true ∧ state.isConcrete = true
  /-- It is halted just when the last instruction halts and no earlier one failed. -/
  halted : state = .halted ↔ ∃ before last, vmTrace n start = before ++ [last] ∧
    Event.Halts last ∧ ∀ event ∈ before, vmHasNoError (Event.result event) = true
  /-- A fetch that fails ends its pass. -/
  fetch : ∀ k, vmLive (vmSteps k start) = true →
    vmHasNoError (vmFetchInstruction (vmSteps k start)).1 = false →
    vmSteps (k + 1) start = (vmFetchInstruction (vmSteps k start)).1 ∧
      vmTrace (k + 1) start = vmTrace k start
  /-- After an error the machine stays as it is and runs nothing. -/
  sticky : ∀ k, vmHasNoError (vmSteps k start) = false → ∀ m,
    vmSteps (k + m) start = vmSteps k start ∧ vmTrace (k + m) start = vmTrace k start

/-- **Success means an explicit halt.** -/
theorem vmRun_outcome {vm final : VirtualMachine} {state : State} {n : ℕ}
    (hnormal : vm.cpsr.ST = .normal) (hrun : vmRun n vm = some (final, state)) :
    RunOutcome (vmStart vm) n state := by
  unfold vmRun at hrun
  dsimp only at hrun
  split at hrun
  · cases hrun
  · rename_i hlive
    obtain ⟨-, rfl⟩ := Prod.mk.inj (Option.some.inj hrun)
    have hstart : (vmStart vm).cpsr.ST = .normal := hnormal
    refine ⟨?_, ?_, fun k hk hfetch => ?_, fun k hk m => ?_⟩
    · cases runState hstart n with
      | running state => exact absurd (vmLive_of_normal state) hlive
      | halted state => exact .inl state
      | failed state concrete => exact .inr ⟨state, concrete⟩
    · constructor
      · intro hhalted
        cases runState hstart n with
        | running state => exact absurd (vmLive_of_normal state) hlive
        | halted _ trace halts earlier => exact ⟨_, _, trace, halts, earlier⟩
        | failed state =>
            rw [hhalted] at state
            cases state
      · rintro ⟨before, last, htrace, hhalts, -⟩
        have hlast : last ∈ vmTrace n (vmStart vm) := by
          rw [htrace]
          exact List.mem_append_right _ List.mem_cons_self
        cases runState hstart n with
        | running _ trace => exact absurd hhalts (trace last hlast).1
        | halted state => exact state
        | failed _ _ trace => exact absurd hhalts (trace last hlast)
    · obtain ⟨hsteps, htrace⟩ := vmSteps_succ_of_running hk
      have hno : ¬vmHasNoError (vmFetchInstruction (vmSteps k (vmStart vm))).1 = true :=
        ne_true_of_eq_false hfetch
      rw [if_neg hno, List.append_nil] at htrace
      exact ⟨hsteps.trans (vmStep_of_fetch_error hfetch), htrace⟩
    · have hstopped : vmLive (vmSteps k (vmStart vm)) = false := by
        rw [vmLive, hk, Bool.false_and]
      exact ⟨by rw [vmSteps_add, vmSteps_of_stopped hstopped], vmTrace_of_stopped hstopped m⟩

/-- A machine that halts at once. -/
def haltingMachine : VirtualMachine :=
  vmLoadDump (vmInitialize 0) [Opcode.int.toWord.toUInt8, 0, 0, 0, 0xFF, 0, 0, 0]

theorem vmRun_outcome_haltingMachine : RunOutcome (vmStart haltingMachine) 1 .halted :=
  have hlive : vmLive (vmSteps 1 (vmStart haltingMachine)) = false := by decide +kernel
  have hstate : (vmSteps 1 (vmStart haltingMachine)).cpsr.ST = .halted := by decide +kernel
  have hrun : vmRun 1 haltingMachine = some (vmSteps 1 (vmStart haltingMachine), .halted) := by
    rw [vmRun, hstate]
    exact if_neg (ne_true_of_eq_false hlive)
  vmRun_outcome rfl hrun

end Zlvm
