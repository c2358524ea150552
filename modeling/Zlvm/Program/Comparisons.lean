import Zlvm.Asm.Assembler
import Zlvm.Vm.Arithmetic
import Zlvm.Vm.Frame
import Zlvm.Vm.Run

/-!
# Comparisons and conditions

What the conditions of the assembler mean after a comparison.

* `flags_vmDispatch`, `flags_vmRunInstruction` — only arithmetic, logic and comparisons change the
  flags, whether an instruction raises an error or not.
* `Undisturbed` — any number of other instructions.
* `Compares` — an instruction that compares two words; `comparisonMeanings` — the documented
  conditions.
* **`Compares.conditions`** — a conditional instruction executes exactly if the words are related as
  its condition says.
-/

namespace Zlvm

open Signed

/-! ## Flags -/

/-- The flags, without the execution state. -/
def Cpsr.flags (cpsr : Cpsr) : AluFlags := ⟨cpsr.N, cpsr.Z, cpsr.V, cpsr.C, cpsr.S⟩

section Flags

variable {vm : VirtualMachine}

@[simp] theorem flags_vmSetState (vm : VirtualMachine) (state : State) :
    (vmSetState vm state).cpsr.flags = vm.cpsr.flags := by
  unfold vmSetState
  split <;> rfl

@[simp] theorem flags_setRegister (r : Register) (value : Word) :
    (vm.setRegister r value).cpsr.flags = vm.cpsr.flags := rfl

theorem flags_vmReadScalar (address : ℕ) {size : ℕ} (hsize : size ≤ 8) :
    (vmReadScalar vm address size).1.cpsr.flags = vm.cpsr.flags := by
  by_cases hacc : vm.Accessible address size
  · rw [vmReadScalar_eq hacc hsize]
  · rw [vmReadScalar_eq_fail hacc]
    exact flags_vmSetState _ _

theorem flags_vmWriteScalar (address : ℕ) (value : DWord) {size : ℕ} (hsize : size ≤ 8) :
    (vmWriteScalar vm address value size).cpsr.flags = vm.cpsr.flags := by
  by_cases hacc : vm.Accessible address size
  · rw [vmWriteScalar_eq hacc hsize]
    rfl
  · rw [vmWriteScalar_eq_fail hacc]
    exact flags_vmSetState _ _

theorem flags_vmReadByte (address : ℕ) : (vmReadByte vm address).1.cpsr.flags = vm.cpsr.flags := by
  by_cases hacc : vm.Accessible address 1
  · rw [vmReadByte_eq hacc]
  · rw [vmReadByte, vmValidateRange_eq, if_neg hacc]
    exact flags_vmSetState _ _

theorem flags_vmWriteByte (address : ℕ) (value : Byte) :
    (vmWriteByte vm address value).cpsr.flags = vm.cpsr.flags := by
  by_cases hacc : vm.Accessible address 1
  · rw [vmWriteByte_eq hacc]
    rfl
  · rw [vmWriteByte, vmValidateRange_eq, if_neg hacc]
    exact flags_vmSetState _ _

theorem flags_vmPopWord : (vmPopWord vm).1.cpsr.flags = vm.cpsr.flags := by
  rw [vmPopWord]
  dsimp only
  split
  · exact flags_vmSetState _ _
  · have hread := @flags_vmReadScalar vm
      (vm.registers Register.sp - wordSize).toNat 4 (by omega)
    rw [vmReadWord]
    dsimp only
    split
    · exact hread
    · exact hread

theorem flags_vmPushWord (value : Word) : (vmPushWord vm value).1.cpsr.flags = vm.cpsr.flags := by
  have hwrite := @flags_vmWriteScalar vm (vm.registers Register.sp).toNat value.toUInt64 4
    (by omega)
  rw [vmPushWord]
  dsimp only
  split
  · exact flags_vmSetState _ _
  · rw [vmValidateRange_eq]
    split
    · dsimp only
      rw [vmWriteWord]
      split
      · rename_i hfalse
        cases hfalse
      · split
        · exact hwrite
        · exact hwrite
    · exact flags_vmSetState _ _

theorem flags_vmLoad {α : Type} {reg1 reg2 : Register} {imm : Word} {size : ℕ}
    {read : VirtualMachine → ℕ → VirtualMachine × α} {merge : Word → α → Word}
    (hread : ∀ address, (read vm address).1.cpsr.flags = vm.cpsr.flags) :
    (vmLoad vm reg1 reg2 imm size read merge).cpsr.flags = vm.cpsr.flags := by
  by_cases hacc : vm.Accessible ((vm.registers reg2).toNat + imm.toNat) size
  · rw [vmLoad, vmEffectiveAddress_eq, if_pos hacc]
    exact hread _
  · rw [vmLoad_eq_fail hacc]
    exact flags_vmSetState _ _

theorem flags_vmStore {reg1 reg2 : Register} {imm : Word} {size : ℕ}
    {write : VirtualMachine → ℕ → Word → VirtualMachine}
    (hwrite : ∀ address value, (write vm address value).cpsr.flags = vm.cpsr.flags) :
    (vmStore vm reg1 reg2 imm size write).cpsr.flags = vm.cpsr.flags := by
  by_cases hacc : vm.Accessible ((vm.registers reg2).toNat + imm.toNat) size
  · rw [vmStore_eq hacc]
    exact hwrite _ _
  · rw [vmStore_eq_fail hacc]
    exact flags_vmSetState _ _

theorem getByte_cpsr (vm : VirtualMachine) : vm.getByte.1.cpsr = vm.cpsr := by
  unfold VirtualMachine.getByte
  split <;> rfl

theorem flags_vmInterrupt (code : Word) : (vmInterrupt vm code).cpsr.flags = vm.cpsr.flags := by
  unfold vmInterrupt
  split
  · rfl
  · split
    · rfl
    · split
      · exact congrArg Cpsr.flags (getByte_cpsr vm)
      · split
        · exact flags_vmSetState _ _
        · rfl

/-- Only arithmetic, logic and comparisons change the flags. -/
def Opcode.keepsFlags (op : Opcode) : Bool := !op.isOperation && !op.isComparison

theorem flags_vmDispatch {reg1 reg2 : Register} {imm : Word} {op : Opcode}
    (h : op.keepsFlags = true) :
    (vmDispatch vm reg1 reg2 imm op).1.cpsr.flags = vm.cpsr.flags := by
  cases op
  case pop => exact flags_vmPopWord
  case popr =>
    have hpop := @flags_vmPopWord vm
    simp only [vmDispatch]
    split
    · rename_i heq
      rw [heq] at hpop
      exact hpop
    · rename_i heq
      rw [heq] at hpop
      exact hpop
  case pushr => exact flags_vmPushWord _
  case pushi => exact flags_vmPushWord _
  case dup =>
    have hpop := @flags_vmPopWord vm
    simp only [vmDispatch]
    split
    · rename_i heq
      rw [heq] at hpop
      exact hpop
    · rename_i heq
      rw [heq] at hpop
      exact (flags_vmPushWord _).trans ((flags_vmPushWord _).trans hpop)
  case loadb => exact flags_vmLoad flags_vmReadByte
  case loadh => exact flags_vmLoad fun address => flags_vmReadScalar address (by omega)
  case loadw => exact flags_vmLoad fun address => flags_vmReadScalar address (by omega)
  case storeb => exact flags_vmStore fun address _ => flags_vmWriteByte address _
  case storeh => exact flags_vmStore fun address _ => flags_vmWriteScalar address _ (by omega)
  case storew => exact flags_vmStore fun address _ => flags_vmWriteScalar address _ (by omega)
  case int => exact flags_vmInterrupt _
  all_goals first | rfl | cases h

/-- **The flags after an instruction** that is no arithmetic, no logic and no comparison. -/
theorem flags_vmRunInstruction {instruction : Instruction}
    (h : ∀ op, Opcode.ofWord instruction.opcode = some op → op.keepsFlags = true) :
    (vmRunInstruction vm instruction).cpsr.flags = vm.cpsr.flags := by
  cases hcond : Condition.ofWord instruction.condition with
  | none =>
      rw [vmRunInstruction_invalidCondition hcond]
      exact flags_vmSetState _ _
  | some c =>
      cases hrun : c.holds vm.cpsr with
      | false =>
          rw [vmRunInstruction_skip hcond hrun]
          rfl
      | true =>
          by_cases hregs : instruction.register1.toNat < 32 ∧ instruction.register2.toNat < 32
          · rw [vmRunInstruction_eq hcond hrun hregs.1 hregs.2, vmAfterSwitch_cpsr, vmSwitch]
            split
            · rename_i op hop
              exact flags_vmDispatch (h op hop)
            · exact flags_vmSetState _ _
          · rw [vmRunInstruction_invalidRegister hcond hrun hregs]
            exact flags_vmSetState _ _

theorem flags_vmFetchInstruction : (vmFetchInstruction vm).1.cpsr.flags = vm.cpsr.flags := by
  obtain ⟨instruction, -, hfetch⟩ := @vmFetchInstruction_eq vm
  rw [hfetch]
  split
  · rfl
  · exact flags_vmSetState _ _

end Flags

/-- Any number of instructions that are no arithmetic, no logic and no comparison, and any number
of fetches between them. -/
inductive Undisturbed (vm : VirtualMachine) : VirtualMachine → Prop
  | refl : Undisturbed vm vm
  | instruction {vm' : VirtualMachine} {instruction : Instruction} (earlier : Undisturbed vm vm')
      (keeps : ∀ op, Opcode.ofWord instruction.opcode = some op → op.keepsFlags = true) :
      Undisturbed vm (vmRunInstruction vm' instruction)
  | fetch {vm' : VirtualMachine} (earlier : Undisturbed vm vm') :
      Undisturbed vm (vmFetchInstruction vm').1

/-- **The flags after any number of instructions.** -/
theorem Undisturbed.flags_eq {vm vm' : VirtualMachine} (h : Undisturbed vm vm') :
    vm'.cpsr.flags = vm.cpsr.flags := by
  induction h with
  | refl => rfl
  | instruction _ keeps ih => rw [flags_vmRunInstruction keeps, ih]
  | fetch _ ih => rw [flags_vmFetchInstruction, ih]

/-! ## Comparisons -/

/-- `vm_run_instruction` gets past its check of the condition. -/
def Permitted (vm : VirtualMachine) (instruction : Instruction) : Prop :=
  (vmCheckCondition (vm.setRegister Register.zero 0) instruction.condition).2 = true

/-- The value of a register for an instruction, which reads zero in `$zero`. -/
def operand (vm : VirtualMachine) (r : Register) : Word :=
  (vm.setRegister Register.zero 0).registers r

/-- The comparisons of two registers, and of a register and an immediate. -/
def compareOpcodes (signed : Bool) : Opcode × Opcode :=
  if signed then (.cmpsr, .cmpsi) else (.cmpr, .cmpi)

/-- The instruction executes, and compares the words `a` and `b`. -/
structure Compares (vm : VirtualMachine) (instruction : Instruction) (signed : Bool) (a b : Word) :
    Prop where
  permitted : Permitted vm instruction
  operands : ∃ rd rs : Register, instruction.register1.toNat = rd ∧
    instruction.register2.toNat = rs ∧ operand vm rd = a ∧
    (Opcode.ofWord instruction.opcode = some (compareOpcodes signed).1 ∧ operand vm rs = b ∨
      Opcode.ofWord instruction.opcode = some (compareOpcodes signed).2 ∧ instruction.immediate = b)

/-- What the conditions say about two words that have been compared, under the names that the
assembler accepts. -/
def comparisonMeanings (signed : Bool) (a b : Word) : List (String × Bool) :=
  if signed then
    [("lt", Word.signed a < Word.signed b), ("le", Word.signed a ≤ Word.signed b),
     ("gt", Word.signed a > Word.signed b), ("ge", Word.signed a ≥ Word.signed b),
     ("eq", Word.signed a = Word.signed b), ("ne", Word.signed a ≠ Word.signed b)]
  else
    [("eq", a.toNat = b.toNat), ("ne", a.toNat ≠ b.toNat),
     ("cs", a.toNat ≥ b.toNat), ("hs", a.toNat ≥ b.toNat),
     ("cc", a.toNat < b.toNat), ("lo", a.toNat < b.toNat),
     ("uh", a.toNat > b.toNat), ("ul", a.toNat ≤ b.toNat)]

/-- The operation of a comparison. -/
def compareOperation (signed : Bool) : Operation := if signed then .ssub else .sub

section Compares

variable {vm vm' : VirtualMachine} {instruction : Instruction} {signed : Bool} {a b : Word}

theorem permitted_iff {c : Condition} (h : instruction.condition = c.toWord) :
    Permitted vm instruction ↔ c.holds vm.cpsr = true := by
  rw [Permitted, vmCheckCondition, h, Condition.ofWord_toWord]
  rfl

/-- A condition that holds is one of the documented ones. -/
theorem Permitted.exists_condition (h : Permitted vm instruction) :
    ∃ c, Condition.ofWord instruction.condition = some c ∧ c.holds vm.cpsr = true := by
  rw [Permitted, vmCheckCondition] at h
  cases hcond : Condition.ofWord instruction.condition with
  | none =>
      rw [hcond] at h
      cases h
  | some c =>
      rw [hcond] at h
      exact ⟨c, rfl, h⟩

/-- **The flags after a comparison** describe the difference. -/
theorem Compares.describe (h : Compares vm instruction signed a b) :
    ∃ result : Word, (vmRunInstruction vm instruction).cpsr.flags.Describe (compareOperation signed)
        a b result ∧
      (result.toNat : ℤ) = exactResult (compareOperation signed) a b % 2 ^ 32 := by
  obtain ⟨hpermitted, rd, rs, hrd, hrs, ha, hop⟩ := h
  obtain ⟨c, hcond, hholds⟩ := hpermitted.exists_condition
  have h1 : instruction.register1.toNat < 32 := hrd ▸ rd.isLt
  have h2 : instruction.register2.toNat < 32 := hrs ▸ rs.isLt
  have hreg1 : (⟨_, h1⟩ : Register) = rd := Fin.ext hrd
  have hreg2 : (⟨_, h2⟩ : Register) = rs := Fin.ext hrs
  have hne : compareOperation signed ≠ .noop := by cases signed <;> decide
  have hdivides : (compareOperation signed).divides = false := by cases signed <;> rfl
  let alu : Alu := { vm.alu with op := compareOperation signed, left := a, right := b }
  have hflags : (vmRunInstruction vm instruction).cpsr.flags = (aluCompute alu).flags := by
    have hdo : ∀ right, right = b → (vmDoOperation (vm.setRegister Register.zero 0)
        (compareOperation signed) (operand vm rd) right).cpsr.flags = (aluCompute alu).flags := by
      rintro right rfl
      rw [vmDoOperation, if_neg (by simp [hdivides]), ha]
      rfl
    rw [vmRunInstruction_eq hcond hholds h1 h2, vmAfterSwitch_cpsr, hreg1, hreg2, vmSwitch]
    rcases hop with ⟨hop, hb⟩ | ⟨hop, hb⟩
    · rw [hop]
      cases signed
      · exact hdo _ hb
      · exact hdo _ hb
    · rw [hop]
      cases signed
      · exact hdo _ hb
      · exact hdo _ hb
  have hdivisor : alu.op.divides = true → alu.right ≠ 0 := fun hd => by
    rw [hdivides] at hd
    cases hd
  rw [hflags]
  exact ⟨_, aluCompute_describe hne hdivisor, (aluCompute_result hne hdivisor).1⟩

end Compares

section Meanings

variable {cpsr : Cpsr} {a b result : Word}

/-- Two flags as one bit. -/
theorem bool_eq_decide {x : Bool} {p : Prop} [Decidable p] (h : x = true ↔ p) : x = decide p := by
  rw [Bool.eq_iff_iff, h, decide_eq_true_iff]

/-- **The unsigned conditions.** -/
theorem holds_unsigned (h : cpsr.flags.Describe .sub a b result)
    (hresult : (result.toNat : ℤ) = exactResult .sub a b % 2 ^ 32) :
    ∀ entry ∈ comparisonMeanings false a b, ∃ c, conditionNames.lookup (CString.lit entry.1) = some c ∧
      c.holds cpsr = entry.2 := by
  have ha := a.toNat_lt
  have hb := b.toNat_lt
  have hzero : cpsr.Z = decide (a.toNat = b.toNat) := by
    refine bool_eq_decide (h.zero.trans ?_)
    rw [← UInt32.toNat_inj]
    simp only [exactResult, UInt32.reduceToNat] at hresult ⊢
    omega
  have hcarry : cpsr.C = decide (a.toNat ≥ b.toNat) := by
    refine bool_eq_decide (h.carry.trans ?_)
    rw [or_iff_right (by rintro ⟨h | h | h, -⟩ <;> cases h), and_iff_right (.inl rfl)]
    simp only [exactResult]
    omega
  simp only [comparisonMeanings, Bool.false_eq_true, if_false, List.forall_mem_cons]
  refine ⟨⟨.zeroSet, by decide +kernel, hzero⟩, ⟨.zeroClear, by decide +kernel, ?_⟩,
    ⟨.carrySet, by decide +kernel, hcarry⟩, ⟨.carrySet, by decide +kernel, hcarry⟩,
    ⟨.carryClear, by decide +kernel, ?_⟩, ⟨.carryClear, by decide +kernel, ?_⟩,
    ⟨.unsignedHigher, by decide +kernel, ?_⟩, ⟨.unsignedLowerOrSame, by decide +kernel, ?_⟩,
    fun _ hmem => absurd hmem List.not_mem_nil⟩
  all_goals
    simp only [Condition.holds, hzero, hcarry]
    rw [Bool.eq_iff_iff]
    simp
    try omega

/-- **The signed conditions.** -/
theorem holds_signed (h : cpsr.flags.Describe .ssub a b result)
    (hresult : (result.toNat : ℤ) = exactResult .ssub a b % 2 ^ 32) :
    ∀ entry ∈ comparisonMeanings true a b, ∃ c, conditionNames.lookup (CString.lit entry.1) = some c ∧
      c.holds cpsr = entry.2 := by
  obtain ⟨ha, ha'⟩ := signed_bounds a
  obtain ⟨hb, hb'⟩ := signed_bounds b
  have hsigned : Word.signed result
      = if result.toNat < 2 ^ 31 then (result.toNat : ℤ) else (result.toNat : ℤ) - 2 ^ 32 :=
    toInt_word result
  simp only [exactResult] at hresult
  have hzero : cpsr.Z = decide (Word.signed a = Word.signed b) := by
    refine bool_eq_decide (h.zero.trans ?_)
    rw [← UInt32.toNat_inj]
    simp only [UInt32.reduceToNat]
    omega
  have hless : (cpsr.N ^^ cpsr.V) = decide (Word.signed a < Word.signed b) := by
    have hnegative : cpsr.N = decide (Word.signed result < 0) := bool_eq_decide h.negative
    have hoverflow : cpsr.V = decide (¬(-2 ^ 31 ≤ Word.signed a - Word.signed b ∧
        Word.signed a - Word.signed b < 2 ^ 31)) :=
      bool_eq_decide (h.overflow.trans (and_iff_right rfl))
    rw [hnegative, hoverflow, hsigned, Bool.eq_iff_iff, Bool.xor_iff_ne, ne_eq, decide_eq_decide,
      decide_eq_true_iff]
    split <;> omega
  simp only [comparisonMeanings, if_true, List.forall_mem_cons]
  refine ⟨⟨.less, by decide +kernel, hless⟩, ⟨.lessOrEquals, by decide +kernel, ?_⟩,
    ⟨.greater, by decide +kernel, ?_⟩, ⟨.greaterOrEquals, by decide +kernel, ?_⟩,
    ⟨.zeroSet, by decide +kernel, hzero⟩, ⟨.zeroClear, by decide +kernel, ?_⟩,
    fun _ hmem => absurd hmem List.not_mem_nil⟩
  all_goals
    simp only [Condition.holds, hzero, hless]
    rw [Bool.eq_iff_iff]
    simp
    try omega

end Meanings

section Conditional

variable {vm vm' : VirtualMachine} {comparison : Instruction} {signed : Bool} {a b : Word}

/-- **Conditions after a comparison.**  After any number of instructions that are no arithmetic, no
logic and no comparison, an instruction with one of the documented conditions executes exactly if
the compared words are related as the condition says, and clears nothing but `$zero` otherwise. -/
theorem Compares.conditions (h : Compares vm comparison signed a b)
    (hundisturbed : Undisturbed (vmRunInstruction vm comparison) vm') :
    ∀ entry ∈ comparisonMeanings signed a b, ∃ c,
      conditionNames.lookup (CString.lit entry.1) = some c ∧
        ∀ instruction : Instruction, instruction.condition = c.toWord →
          (Permitted vm' instruction ↔ entry.2 = true) ∧
            (entry.2 = false →
              vmRunInstruction vm' instruction = vm'.setRegister Register.zero 0) := by
  obtain ⟨result, hdescribe, hresult⟩ := h.describe
  rw [← hundisturbed.flags_eq] at hdescribe
  have hholds : ∀ entry ∈ comparisonMeanings signed a b, ∃ c,
      conditionNames.lookup (CString.lit entry.1) = some c ∧ c.holds vm'.cpsr = entry.2 := by
    cases signed
    · exact holds_unsigned hdescribe hresult
    · exact holds_signed hdescribe hresult
  intro entry hentry
  obtain ⟨c, hname, hc⟩ := hholds entry hentry
  refine ⟨c, hname, fun instruction hcondition => ⟨?_, fun hfalse => ?_⟩⟩
  · rw [permitted_iff hcondition, hc]
  · refine vmRunInstruction_skip (c := c) ?_ (hc.trans hfalse)
    rw [hcondition, Condition.ofWord_toWord]

/-- A machine with the smallest and the largest number in two registers: their difference
overflows. -/
def overflowingMachine (r r' : Register) : VirtualMachine :=
  ((vmInitialize 0).setRegister r 0x80000000).setRegister r' 0x7FFFFFFF

theorem overflowingMachine_compares :
    Compares (overflowingMachine 10 11) (.unconditional .cmpsr 10 11 0) true 0x80000000 0x7FFFFFFF :=
  ⟨rfl, 10, 11, rfl, rfl, rfl, .inl ⟨rfl, rfl⟩⟩

/-- After a jump, `lt` still says that the smallest number is less. -/
theorem overflowingMachine_conditions : ∃ c, conditionNames.lookup (CString.lit "lt") = some c ∧
    Permitted (vmRunInstruction (vmRunInstruction (overflowingMachine 10 11)
      (.unconditional .cmpsr 10 11 0)) (.unconditional .jmp 0 0 64))
      { opcode := 0, condition := c.toWord, register1 := 0, register2 := 0, immediate := 0 } := by
  have hjump : Undisturbed
      (vmRunInstruction (overflowingMachine 10 11) (.unconditional .cmpsr 10 11 0))
      (vmRunInstruction (vmRunInstruction (overflowingMachine 10 11)
        (.unconditional .cmpsr 10 11 0)) (.unconditional .jmp 0 0 64)) := .instruction .refl fun op hop => by
    obtain rfl : op = .jmp := by simpa [Instruction.unconditional] using hop.symm
    rfl
  obtain ⟨c, hname, hc⟩ := overflowingMachine_compares.conditions hjump ("lt", true) (.head _)
  exact ⟨c, hname, (hc _ rfl).1.mpr rfl⟩

end Conditional

end Zlvm
