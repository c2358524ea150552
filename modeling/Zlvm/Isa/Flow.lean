import Zlvm.Isa.Semantics

/-!
# Destinations, faults and control flow

* `Effect.destinations` — the registers that an effect writes to; no other one changes
  (`perform_registers`).
* `perform_pc`, `perform_lp` — where control goes, and where a return goes.
* `Effect.faults` — the errors that an effect can end in; an effect ends in one of these, or halted,
  or in the state before it (`perform_state`).
-/

namespace Zlvm

namespace Effect

/-- The register operand is written to. -/
def writes : Effect → Bool
  | move _ | load _ => true
  | compute _ _ keeps | pop keeps => keeps
  | _ => false

/-- The registers that an effect writes to. -/
def destinations (rd : Register) : Effect → List Register
  | nothing | store _ => []
  | move _ | load _ => [rd]
  | compute _ _ keeps => if keeps then [rd] else []
  | pushRegister | pushImmediate | duplicate => [Register.sp]
  | pop keeps => if keeps then [Register.sp, rd] else [Register.sp]
  | interrupt => [Register.v0]
  | jump | ret => [Register.pc]
  | call => [Register.lp, Register.pc]

/-- The errors that an effect can end in. -/
def faults : Effect → List State
  | compute op _ _ => if op.divides then [.errDivisionByZero] else []
  | load _ | store _ => [.errOutOfMemory]
  | pushRegister | pushImmediate => [.errStackOverflow, .errOutOfMemory]
  | pop _ => [.errStackUnderflow, .errOutOfMemory]
  | duplicate => [.errStackUnderflow, .errStackOverflow, .errOutOfMemory]
  | _ => []

end Effect

namespace IsaMachine

section Registers

variable {m : IsaMachine} {r : Register}

theorem write_registers (hr : r ≠ Register.zero) {r' : Register} (h : r ≠ r') (value : Word) :
    (m.write r' value).registers r = m.registers r := by
  simp only [write, clearZero, Function.update_of_ne hr, Function.update_of_ne h]

theorem write_registers_self (hr : r ≠ Register.zero) (value : Word) :
    (m.write r value).registers r = value := by
  simp only [write, clearZero, Function.update_of_ne hr, Function.update_self]

theorem within_registers {address size : ℕ} {next : IsaMachine}
    (h : next.registers r = m.registers r) :
    (m.within address size next).registers r = m.registers r := by
  unfold within
  split
  · exact h
  · rfl

theorem push_registers (hr : r ≠ Register.zero) (h : r ≠ Register.sp) (value : Word) :
    (m.push value).registers r = m.registers r := by
  unfold push
  dsimp only
  split
  · refine within_registers ((write_registers hr h _).trans rfl)
  · rfl

theorem top_registers {next : Word → IsaMachine}
    (h : ∀ value, (next value).registers r = m.registers r) :
    (m.top next).registers r = m.registers r := by
  unfold top
  dsimp only
  split
  · exact within_registers (h _)
  · rfl

theorem interrupt_registers (hr : r ≠ Register.zero) (h : r ≠ Register.v0) (code : Word) :
    (m.interrupt code).registers r = m.registers r := by
  unfold interrupt
  dsimp only
  split
  · rfl
  · split
    · rfl
    · split
      · exact write_registers hr h _
      · split <;> rfl

/-- **An effect changes its destinations only.** -/
theorem perform_registers {effect : Effect} {rd rs : Register} {imm : Word}
    (hr : r ≠ Register.zero) (h : r ∉ effect.destinations rd) :
    (m.perform rd rs imm effect).registers r = m.registers r := by
  cases effect with
  | nothing => rfl
  | move source => exact write_registers hr (List.ne_of_not_mem_cons h) _
  | compute op source keeps =>
      unfold perform
      dsimp only
      split
      · rfl
      · cases keeps with
        | true => exact (write_registers hr (List.ne_of_not_mem_cons h) _).trans rfl
        | false => rfl
  | load width => exact within_registers (write_registers hr (List.ne_of_not_mem_cons h) _)
  | store width => exact within_registers rfl
  | pushRegister => exact push_registers hr (List.ne_of_not_mem_cons h) _
  | pushImmediate => exact push_registers hr (List.ne_of_not_mem_cons h) _
  | pop keeps =>
      refine top_registers fun value => ?_
      cases keeps with
      | true =>
          have hrd : r ≠ rd := fun heq => h (List.mem_cons_of_mem _ (heq ▸ List.mem_cons_self))
          exact (write_registers hr hrd _).trans (write_registers hr (List.ne_of_not_mem_cons h) _)
      | false => exact write_registers hr (List.ne_of_not_mem_cons h) _
  | duplicate => exact top_registers fun value => push_registers hr (List.ne_of_not_mem_cons h) _
  | interrupt => exact interrupt_registers hr (List.ne_of_not_mem_cons h) _
  | jump => exact write_registers hr (List.ne_of_not_mem_cons h) _
  | call =>
      have hpc : r ≠ Register.pc := fun heq =>
        h (List.mem_cons_of_mem _ (heq ▸ List.mem_cons_self))
      exact (write_registers hr hpc _).trans (write_registers hr (List.ne_of_not_mem_cons h) _)
  | ret => exact write_registers hr (List.ne_of_not_mem_cons h) _

/-- `$pc` and `$lp` are written to by their own instructions and as register operands only. -/
theorem not_mem_destinations {effect : Effect} {rd : Register}
    (hrd : effect.writes = true → rd ≠ r) (hr : r = Register.pc ∨ r = Register.lp)
    (hcall : effect ≠ .call) (hpc : r = Register.pc → effect ≠ .jump ∧ effect ≠ .ret) :
    r ∉ effect.destinations rd := by
  have hsp : Register.sp ≠ r := by rcases hr with rfl | rfl <;> decide
  have hv0 : Register.v0 ≠ r := by rcases hr with rfl | rfl <;> decide
  intro hmem
  cases effect
  case call => exact hcall rfl
  case jump => exact (hpc (List.mem_singleton.mp hmem)).1 rfl
  case ret => exact (hpc (List.mem_singleton.mp hmem)).2 rfl
  case move source => exact hrd rfl (List.mem_singleton.mp hmem).symm
  case load width => exact hrd rfl (List.mem_singleton.mp hmem).symm
  case compute op source keeps =>
    cases keeps with
    | true => exact hrd rfl (List.mem_singleton.mp hmem).symm
    | false => cases hmem
  case pop keeps =>
    cases keeps with
    | true =>
        rcases List.mem_cons.mp hmem with h | h
        · exact hsp h.symm
        · exact hrd rfl (List.mem_singleton.mp h).symm
    | false => exact hsp (List.mem_singleton.mp hmem).symm
  case pushRegister => exact hsp (List.mem_singleton.mp hmem).symm
  case pushImmediate => exact hsp (List.mem_singleton.mp hmem).symm
  case duplicate => exact hsp (List.mem_singleton.mp hmem).symm
  case interrupt => exact hv0 (List.mem_singleton.mp hmem).symm
  case nothing => cases hmem
  case store width => cases hmem

variable {effect : Effect} {rd rs : Register} {imm : Word}

/-- **Where control goes.** -/
theorem perform_pc (hrd : effect.writes = true → rd ≠ Register.pc) :
    (m.perform rd rs imm effect).registers Register.pc
      = if effect = .jump ∨ effect = .call then imm
        else if effect = .ret then m.registers Register.lp else m.registers Register.pc := by
  by_cases hjump : effect = .jump
  · rw [if_pos (.inl hjump), hjump]
    exact write_registers_self (by decide) _
  · by_cases hcall : effect = .call
    · rw [if_pos (.inr hcall), hcall]
      exact write_registers_self (by decide) _
    · rw [if_neg (not_or.mpr ⟨hjump, hcall⟩)]
      by_cases hret : effect = .ret
      · rw [if_pos hret, hret]
        exact write_registers_self (by decide) _
      · rw [if_neg hret]
        exact perform_registers (by decide)
          (not_mem_destinations hrd (.inl rfl) hcall fun _ => ⟨hjump, hret⟩)

/-- **Where a return goes.** -/
theorem perform_lp (hrd : effect.writes = true → rd ≠ Register.lp) :
    (m.perform rd rs imm effect).registers Register.lp
      = if effect = .call then m.registers Register.pc else m.registers Register.lp := by
  by_cases hcall : effect = .call
  · rw [if_pos hcall, hcall]
    exact (write_registers (by decide) (by decide) _).trans (write_registers_self (by decide) _)
  · rw [if_neg hcall]
    exact perform_registers (by decide)
      (not_mem_destinations hrd (.inr rfl) hcall fun h => absurd h (by decide))

end Registers

/-! ## Faults -/

section States

variable {m : IsaMachine} {rd rs : Register} {imm : Word}

theorem within_state {address size : ℕ} {next : IsaMachine} {states : List State}
    (h : next.cpsr.ST = m.cpsr.ST ∨ next.cpsr.ST ∈ states) (hmem : .errOutOfMemory ∈ states) :
    (m.within address size next).cpsr.ST = m.cpsr.ST ∨
      (m.within address size next).cpsr.ST ∈ states := by
  unfold within
  split
  · exact h
  · exact .inr hmem

theorem push_state {value : Word} {states : List State} (hoverflow : .errStackOverflow ∈ states)
    (hmem : .errOutOfMemory ∈ states) :
    (m.push value).cpsr.ST = m.cpsr.ST ∨ (m.push value).cpsr.ST ∈ states := by
  unfold push
  dsimp only
  split
  · exact within_state (.inl rfl) hmem
  · exact .inr hoverflow

theorem top_state {next : Word → IsaMachine} {states : List State}
    (h : ∀ value, (next value).cpsr.ST = m.cpsr.ST ∨ (next value).cpsr.ST ∈ states)
    (hunderflow : .errStackUnderflow ∈ states) (hmem : .errOutOfMemory ∈ states) :
    (m.top next).cpsr.ST = m.cpsr.ST ∨ (m.top next).cpsr.ST ∈ states := by
  unfold top
  dsimp only
  split
  · exact within_state (h _) hmem
  · exact .inr hunderflow

/-- **An effect ends as it began, halted, or in one of its errors.** -/
theorem perform_state (effect : Effect) :
    (m.perform rd rs imm effect).cpsr.ST = m.cpsr.ST ∨
      (m.perform rd rs imm effect).cpsr.ST ∈ .halted :: effect.faults := by
  cases effect with
  | compute op source keeps =>
      unfold perform
      dsimp only
      split
      · rename_i hdivides
        right
        rw [Effect.faults, if_pos hdivides.1]
        exact List.mem_cons_of_mem _ List.mem_cons_self
      · cases keeps <;> exact .inl rfl
  | load width => exact within_state (.inl rfl) (by simp [Effect.faults])
  | store width => exact within_state (.inl rfl) (by simp [Effect.faults])
  | pushRegister => exact push_state (by simp [Effect.faults]) (by simp [Effect.faults])
  | pushImmediate => exact push_state (by simp [Effect.faults]) (by simp [Effect.faults])
  | pop keeps =>
      refine top_state (fun value => ?_) (by simp [Effect.faults]) (by simp [Effect.faults])
      cases keeps <;> exact .inl rfl
  | duplicate =>
      refine top_state (fun value => ?_) (by simp [Effect.faults]) (by simp [Effect.faults])
      exact push_state (by simp [Effect.faults]) (by simp [Effect.faults])
  | interrupt =>
      unfold perform interrupt
      dsimp only
      split
      · exact .inl rfl
      · split
        · exact .inl rfl
        · split
          · exact .inl rfl
          · split
            · exact .inr List.mem_cons_self
            · exact .inl rfl
  | nothing => exact .inl rfl
  | move source => exact .inl rfl
  | jump => exact .inl rfl
  | call => exact .inl rfl
  | ret => exact .inl rfl

/-- No effect ends in an error of the decoder. -/
theorem not_mem_faults {effect : Effect} {state : State}
    (h : state = .errInvalidOpcode ∨ state = .errInvalidCondition) :
    state ∉ .halted :: effect.faults := by
  rcases h with rfl | rfl <;> cases effect
  case inl.compute op source keeps =>
    simp only [Effect.faults]
    split <;> decide
  case inr.compute op source keeps =>
    simp only [Effect.faults]
    split <;> decide
  all_goals
    simp only [Effect.faults]
    decide

end States

end IsaMachine

end Zlvm
