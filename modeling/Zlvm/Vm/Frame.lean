import Zlvm.Vm.Atomic

/-!
# What an instruction may change

The documented destinations of every opcode, and the frame law: an instruction that raises no error
changes nothing else.

* `Footprint`, `Opcode.footprint` — the destinations; `Within` — nothing outside them differs.
* `vmPushWord_within`, `vmStore_within`, … — the helpers of the switch, one by one.
* `vmDispatch_within`, `vmAfterSwitch_within` — the switch and what follows it.
* **`vmRunInstruction_frame`** — the frame law.
-/

namespace Zlvm

open Buffer VirtualMachine Opcode

/-! ## Destinations -/

/-- What may change. -/
structure Footprint where
  registers : Register → Prop
  bytes : ℕ → Prop
  flags : Prop
  state : Prop

namespace Opcode

/-- Arithmetic and logical opcodes, whose result goes to the first register. -/
def isOperation : Opcode → Bool
  | addr | subr | mulr | divr | modr | addi | subi | muli | divi | modi | addsr | subsr | mulsr
  | divsr | modsr | addsi | subsi | mulsi | divsi | modsi | not | andr | orr | xorr | nandr | norr
  | andi | ori | xori | nandi | nori | inc | dec => true
  | _ => false

/-- Comparisons. -/
def isComparison : Opcode → Bool
  | cmpr | cmpi | cmpsr | cmpsi => true
  | _ => false

/-- The other opcodes with a destination register. -/
def isTransfer : Opcode → Bool
  | movr | movi | popr | loadb | loadh | loadw => true
  | _ => false

/-- Opcodes that move the stack pointer. -/
def isStack : Opcode → Bool
  | pop | popr | pushr | pushi | dup => true
  | _ => false

/-- Opcodes that push a word. -/
def isPush : Opcode → Bool
  | pushr | pushi | dup => true
  | _ => false

/-- The number of bytes that a store writes. -/
def storeSize : Opcode → ℕ
  | storeb => 1
  | storeh => 2
  | storew => 4
  | _ => 0

/-- The documented destinations of an opcode, for the machine it is executed on. -/
def footprint (op : Opcode) (vm : VirtualMachine) (rd rs : Register) (imm : Word) : Footprint where
  registers r :=
    (op.isOperation ∨ op.isTransfer) ∧ r = rd ∨ op.isStack ∧ r = Register.sp ∨
      op = jmpal ∧ (r = Register.lp ∨ r = Register.pc) ∨ (op = jmp ∨ op = ret) ∧ r = Register.pc ∨
      op = int ∧ imm = 0x10 ∧ r = Register.v0
  bytes address :=
    (vm.registers rs).toNat + imm.toNat ≤ address ∧
        address < (vm.registers rs).toNat + imm.toNat + op.storeSize ∨
      op.isPush ∧ (vm.registers Register.sp).toNat ≤ address ∧
        address < (vm.registers Register.sp).toNat + 4
  flags := op.isOperation ∨ op.isComparison
  state := op = int ∧ imm = 0xFF

section Footprint

variable {op : Opcode} {vm : VirtualMachine} {rd rs : Register} {imm : Word}

theorem footprint_rd (h : op.isOperation = true ∨ op.isTransfer = true) :
    (op.footprint vm rd rs imm).registers rd := .inl ⟨h, rfl⟩

theorem footprint_sp (h : op.isStack = true) :
    (op.footprint vm rd rs imm).registers Register.sp := .inr (.inl ⟨h, rfl⟩)

theorem footprint_store {size : ℕ} (h : op.storeSize = size) (i : ℕ)
    (hlow : (vm.registers rs).toNat + imm.toNat ≤ i)
    (hhigh : i < (vm.registers rs).toNat + imm.toNat + size) :
    (op.footprint vm rd rs imm).bytes i := .inl ⟨hlow, h ▸ hhigh⟩

theorem footprint_push (h : op.isPush = true) (i : ℕ)
    (hlow : (vm.registers Register.sp).toNat ≤ i)
    (hhigh : i < (vm.registers Register.sp).toNat + 4) :
    (op.footprint vm rd rs imm).bytes i := .inr ⟨h, hlow, hhigh⟩

theorem footprint_flags (h : op.isOperation = true ∨ op.isComparison = true) :
    (op.footprint vm rd rs imm).flags := h

end Footprint

end Opcode

/-- Nothing outside a footprint differs. -/
structure Within (f : Footprint) (vm vm' : VirtualMachine) : Prop where
  registers : ∀ r, ¬f.registers r → vm'.registers r = vm.registers r
  bytes : ∀ address, ¬f.bytes address → vm'.flat[address]? = vm.flat[address]?
  flags : ¬f.flags → vm'.cpsr = { vm.cpsr with ST := vm'.cpsr.ST }
  state : ¬f.state → vm'.cpsr.ST = vm.cpsr.ST
  entryPoint : vm'.entryPoint = vm.entryPoint

section Within

variable {f : Footprint} {vm vm' : VirtualMachine}

theorem Within.refl (f : Footprint) (vm : VirtualMachine) : Within f vm vm :=
  ⟨fun _ _ => rfl, fun _ _ => rfl, fun _ => rfl, fun _ => rfl, rfl⟩

/-- Assigning a destination register. -/
theorem Within.setRegister (h : Within f vm vm') {r : Register} (hr : f.registers r)
    (value : Word) : Within f vm (vm'.setRegister r value) := by
  refine ⟨fun r' hr' => ?_, h.bytes, h.flags, h.state, h.entryPoint⟩
  have hne : r' ≠ r := by
    rintro rfl
    exact hr' hr
  rw [setRegister_of_ne _ _ _ hne, h.registers r' hr']

/-- Writing destination bytes. -/
theorem within_poke {address : ℕ} {data : Bytes}
    (hbytes : ∀ i, address ≤ i → i < address + data.length → f.bytes i) :
    Within f vm (vm.poke address data) := by
  refine ⟨fun _ _ => rfl, fun i hi => ?_, fun _ => rfl, fun _ => rfl, rfl⟩
  rw [flat_poke, getElem?_overlay, if_neg]
  rintro ⟨hlow, hhigh, -⟩
  exact hi (hbytes i hlow hhigh)

end Within

/-! ## The helpers of the switch -/

section Helpers

variable {f : Footprint} {vm : VirtualMachine} {reg1 reg2 : Register} {imm : Word}

/-- An operation that does not fail sets the flags. -/
theorem vmDoOperation_within (hflags : f.flags) {op : Operation} {left right : Word}
    (hok : vmHasNoError (vmDoOperation vm op left right) = true) :
    Within f vm (vmDoOperation vm op left right) := by
  unfold vmDoOperation at hok ⊢
  split at hok
  · rw [vmHasNoError_vmSetState rfl] at hok
    cases hok
  · rename_i hdivides
    rw [if_neg hdivides]
    exact ⟨fun _ _ => rfl, fun _ _ => rfl, fun h => absurd hflags h, fun _ => rfl, rfl⟩

/-- A pop that does not fail moves the stack pointer. -/
theorem vmPopWord_within (hsp : f.registers Register.sp) (hvm : vmHasNoError vm = true)
    (hok : vmHasNoError (vmPopWord vm).1 = true) :
    Poppable vm ∧ vm.Accessible (vm.registers Register.sp - 4).toNat 4 ∧
      Within f vm (vmPopWord vm).1 := by
  by_cases hpop : Poppable vm
  · by_cases hacc : vm.Accessible (vm.registers Register.sp - 4).toNat 4
    · rw [vmPopWord_eq hvm hpop hacc]
      exact ⟨hpop, hacc, (Within.refl f vm).setRegister hsp _⟩
    · rw [vmPopWord_outside hpop hacc, vmHasNoError_vmSetState rfl] at hok
      cases hok
  · rw [vmPopWord_underflow hpop, vmHasNoError_vmSetState rfl] at hok
    cases hok

/-- A push that does not fail writes a word and moves the stack pointer. -/
theorem vmPushWord_within (hsp : f.registers Register.sp)
    (hbytes : ∀ i, (vm.registers Register.sp).toNat ≤ i →
      i < (vm.registers Register.sp).toNat + 4 → f.bytes i)
    (hvm : vmHasNoError vm = true) {value : Word}
    (hok : vmHasNoError (vmPushWord vm value).1 = true) : Within f vm (vmPushWord vm value).1 := by
  by_cases hpush : Pushable vm
  · by_cases hacc : vm.Accessible (vm.registers Register.sp).toNat 4
    · rw [vmPushWord_eq hvm hpush hacc]
      refine (within_poke ?_).setRegister hsp _
      rw [LittleEndian.length_bytes]
      exact hbytes
    · rw [vmPushWord_outside hpush hacc, vmHasNoError_vmSetState rfl] at hok
      cases hok
  · rw [vmPushWord_overflow hpush, vmHasNoError_vmSetState rfl] at hok
    cases hok

/-- A load that does not fail assigns the register. -/
theorem vmLoad_within {α : Type} {size : ℕ} (hreg : f.registers reg1)
    {read : VirtualMachine → ℕ → VirtualMachine × α} {merge : Word → α → Word}
    (hread : ∀ address, vm.Accessible address size → (read vm address).1 = vm)
    (hok : vmHasNoError (vmLoad vm reg1 reg2 imm size read merge) = true) :
    Within f vm (vmLoad vm reg1 reg2 imm size read merge) := by
  by_cases hacc : vm.Accessible ((vm.registers reg2).toNat + imm.toNat) size
  · rw [vmLoad_eq hacc (Prod.ext (hread _ hacc) rfl)]
    exact (Within.refl f vm).setRegister hreg _
  · rw [vmLoad_eq_fail hacc, vmHasNoError_vmSetState rfl] at hok
    cases hok

/-- A store that does not fail writes its bytes. -/
theorem vmStore_within {size : ℕ} {write : VirtualMachine → ℕ → Word → VirtualMachine}
    (hbytes : ∀ i, (vm.registers reg2).toNat + imm.toNat ≤ i →
      i < (vm.registers reg2).toNat + imm.toNat + size → f.bytes i)
    (hwrite : ∀ address value, vm.Accessible address size →
      ∃ data : Bytes, data.length = size ∧ write vm address value = vm.poke address data)
    (hok : vmHasNoError (vmStore vm reg1 reg2 imm size write) = true) :
    Within f vm (vmStore vm reg1 reg2 imm size write) := by
  by_cases hacc : vm.Accessible ((vm.registers reg2).toNat + imm.toNat) size
  · obtain ⟨data, hlength, hdata⟩ :=
      hwrite ((vm.registers reg2).toNat + imm.toNat) (vm.registers reg1) hacc
    rw [vmStore_eq hacc, hdata]
    refine within_poke ?_
    rw [hlength]
    exact hbytes
  · rw [vmStore_eq_fail hacc, vmHasNoError_vmSetState rfl] at hok
    cases hok

/-- An interrupt that does not fail. -/
theorem vmInterrupt_within (hregisters : imm = 0x10 → f.registers Register.v0)
    (hstate : imm = 0xFF → f.state) : Within f vm (vmInterrupt vm imm) := by
  unfold vmInterrupt
  split
  · exact ⟨fun _ _ => rfl, fun _ _ => rfl, fun _ => rfl, fun _ => rfl, rfl⟩
  · split
    · exact ⟨fun _ _ => rfl, fun _ _ => rfl, fun _ => rfl, fun _ => rfl, rfl⟩
    · split
      · rename_i hcode
        refine Within.setRegister ?_ (hregisters hcode) _
        split
        · exact Within.refl f vm
        · exact ⟨fun _ _ => rfl, fun _ _ => rfl, fun _ => rfl, fun _ => rfl, rfl⟩
      · split
        · rename_i hcode
          refine ⟨fun _ _ => ?_, fun _ _ => ?_, fun _ => ?_, fun h => absurd (hstate hcode) h, ?_⟩
          · rw [vmSetState_registers]
          · rw [flat, vmSetState_rom, vmSetState_memory, flat]
          · rw [vmSetState_cpsr]
            split <;> rfl
          · unfold vmSetState
            split <;> rfl
        · exact Within.refl f vm

end Helpers

/-! ## The switch -/

section Dispatch

variable {vm : VirtualMachine} {reg1 reg2 : Register} {imm : Word}

/-- **Every case of the switch** that does not fail stays within its footprint. -/
theorem vmDispatch_within (hvm : vmHasNoError vm = true) (op : Opcode)
    (hok : vmHasNoError (vmDispatch vm reg1 reg2 imm op).1 = true) :
    Within (op.footprint vm reg1 reg2 imm) vm (vmDispatch vm reg1 reg2 imm op).1 := by
  have hrefl := Within.refl (op.footprint vm reg1 reg2 imm) vm
  cases op
  case nop => exact hrefl
  case syscall => exact hrefl
  case movr => exact hrefl.setRegister (footprint_rd (.inr rfl)) _
  case movi => exact hrefl.setRegister (footprint_rd (.inr rfl)) _
  case pop => exact (vmPopWord_within (footprint_sp rfl) hvm hok).2.2
  case popr =>
    simp only [vmDispatch] at hok ⊢
    by_cases hpop : Poppable vm
    · by_cases hacc : vm.Accessible (vm.registers Register.sp - 4).toNat 4
      · rw [vmPopWord_eq hvm hpop hacc]
        exact (hrefl.setRegister (footprint_sp rfl) _).setRegister (footprint_rd (.inr rfl)) _
      · rw [vmPopWord_outside hpop hacc] at hok
        rw [vmHasNoError_vmSetState rfl] at hok
        cases hok
    · rw [vmPopWord_underflow hpop] at hok
      rw [vmHasNoError_vmSetState rfl] at hok
      cases hok
  case pushr => exact vmPushWord_within (footprint_sp rfl) (footprint_push rfl) hvm hok
  case pushi => exact vmPushWord_within (footprint_sp rfl) (footprint_push rfl) hvm hok
  case dup =>
    simp only [vmDispatch] at hok ⊢
    by_cases hpop : Poppable vm
    · by_cases hacc : vm.Accessible (vm.registers Register.sp - 4).toNat 4
      · -- the first push puts the popped word back
        rw [vmPopWord_eq hvm hpop hacc] at hok ⊢
        simp only [vmPushWord_vmPopWord hvm hpop hacc] at hok ⊢
        exact vmPushWord_within (footprint_sp rfl) (footprint_push rfl) hvm hok
      · rw [vmPopWord_outside hpop hacc] at hok
        rw [vmHasNoError_vmSetState rfl] at hok
        cases hok
    · rw [vmPopWord_underflow hpop] at hok
      rw [vmHasNoError_vmSetState rfl] at hok
      cases hok
  case loadb =>
    simp only [vmDispatch] at hok ⊢
    exact vmLoad_within (footprint_rd (.inr rfl)) (fun _ hacc => by rw [vmReadByte_eq hacc]) hok
  case loadh =>
    simp only [vmDispatch] at hok ⊢
    exact vmLoad_within (footprint_rd (.inr rfl))
      (fun _ hacc => by rw [vmReadHword, vmReadScalar_eq hacc (by omega)]) hok
  case loadw =>
    simp only [vmDispatch] at hok ⊢
    exact vmLoad_within (footprint_rd (.inr rfl)) (fun _ hacc => by rw [vmReadWord_eq hacc]) hok
  case storeb =>
    simp only [vmDispatch] at hok ⊢
    exact vmStore_within (footprint_store rfl) (fun _ _ hacc => ⟨_, rfl, vmWriteByte_eq hacc _⟩) hok
  case storeh =>
    simp only [vmDispatch] at hok ⊢
    exact vmStore_within (footprint_store rfl)
      (fun _ _ hacc => ⟨_, LittleEndian.length_bytes _ _, vmWriteScalar_eq hacc (by omega) _⟩) hok
  case storew =>
    simp only [vmDispatch] at hok ⊢
    exact vmStore_within (footprint_store rfl)
      (fun _ _ hacc => ⟨_, LittleEndian.length_bytes _ _, vmWriteWord_eq hacc _⟩) hok
  case int =>
    exact vmInterrupt_within (fun himm => .inr (.inr (.inr (.inr ⟨rfl, himm, rfl⟩))))
      fun himm => ⟨rfl, himm⟩
  case jmpal =>
    exact (hrefl.setRegister (.inr (.inr (.inl ⟨rfl, .inl rfl⟩))) _).setRegister
      (.inr (.inr (.inl ⟨rfl, .inr rfl⟩))) _
  case jmp => exact hrefl.setRegister (.inr (.inr (.inr (.inl ⟨.inl rfl, rfl⟩)))) _
  case ret => exact hrefl.setRegister (.inr (.inr (.inr (.inl ⟨.inr rfl, rfl⟩)))) _
  case cmpi => exact vmDoOperation_within (footprint_flags (.inr rfl)) hok
  case cmpr => exact vmDoOperation_within (footprint_flags (.inr rfl)) hok
  case cmpsi => exact vmDoOperation_within (footprint_flags (.inr rfl)) hok
  case cmpsr => exact vmDoOperation_within (footprint_flags (.inr rfl)) hok
  -- the arithmetic and logical opcodes
  all_goals exact vmDoOperation_within (footprint_flags (.inl rfl)) hok

/-- Only the result of an arithmetic or logical opcode is written back. -/
theorem isOperation_of_vmDispatch {op : Opcode} (h : (vmDispatch vm reg1 reg2 imm op).2 = true) :
    op.isOperation = true := by
  cases op
  case popr =>
    simp only [vmDispatch] at h
    split at h <;> cases h
  case dup =>
    simp only [vmDispatch] at h
    split at h <;> cases h
  all_goals first | rfl | cases h

end Dispatch

/-- **What follows the switch** clears `$zero` and may write the result back. -/
theorem vmAfterSwitch_within {f : Footprint} {vm vm' : VirtualMachine} {reg1 : Register}
    {writeAluResult : Bool} (h : Within f vm vm') (hzero : vm.registers Register.zero = 0)
    (hwrite : writeAluResult = true → f.registers reg1) :
    Within f vm (vmAfterSwitch vm' reg1 writeAluResult) := by
  have hback : Within f vm (if writeAluResult && vmHasNoError vm'
      then vm'.setRegister reg1 vm'.alu.result.toUInt32 else vm') := by
    split
    · rename_i hcond
      exact h.setRegister (hwrite (Bool.and_eq_true_iff.mp hcond).1) _
    · exact h
  have hclear : Within f vm ((if writeAluResult && vmHasNoError vm'
      then vm'.setRegister reg1 vm'.alu.result.toUInt32 else vm').setRegister Register.zero 0) := by
    refine ⟨fun r hr => ?_, hback.bytes, hback.flags, hback.state, hback.entryPoint⟩
    by_cases hr' : r = Register.zero
    · rw [hr', setRegister_self, hzero]
    · rw [setRegister_of_ne _ _ _ hr', hback.registers r hr]
  rw [vmAfterSwitch_eq]
  exact ⟨hclear.registers, hclear.bytes, hclear.flags, hclear.state, hclear.entryPoint⟩

/-! ## The instruction -/

/-- The frame law of an instruction. -/
structure FrameLaw (vm : VirtualMachine) (instruction : Instruction) (vm' : VirtualMachine) :
    Prop where
  zero : vm'.registers Register.zero = 0
  /-- An instruction whose condition does not hold clears `$zero` and does nothing else. -/
  skipped : ∀ c, Condition.ofWord instruction.condition = some c → c.holds vm.cpsr = false →
    vm' = vm.setRegister Register.zero 0
  /-- Any other instruction changes its destinations only. -/
  executed : ∀ c, Condition.ofWord instruction.condition = some c → c.holds vm.cpsr = true →
    ∃ (op : Opcode) (rd rs : Register), Opcode.ofWord instruction.opcode = some op ∧
      (rd : ℕ) = instruction.register1.toNat ∧ (rs : ℕ) = instruction.register2.toNat ∧
      Within (op.footprint (vm.setRegister Register.zero 0) rd rs instruction.immediate)
        (vm.setRegister Register.zero 0) vm'
  /-- The condition is one of the documented ones. -/
  condition : Condition.ofWord instruction.condition ≠ none

/-- **The frame law.**  An instruction run in the normal state that raises no error changes its
documented destinations only. -/
theorem vmRunInstruction_frame {vm : VirtualMachine} (hnormal : vm.cpsr.ST = .normal)
    (instruction : Instruction) (hok : vmHasNoError (vmRunInstruction vm instruction) = true) :
    FrameLaw vm instruction (vmRunInstruction vm instruction) := by
  have hvm : vmHasNoError (vm.setRegister Register.zero 0) = true := vmHasNoError_of_normal hnormal
  cases hcond : Condition.ofWord instruction.condition with
  | none =>
      rw [vmRunInstruction_invalidCondition hcond, vmHasNoError_vmSetState rfl] at hok
      cases hok
  | some c =>
      have hne : Condition.ofWord instruction.condition ≠ none := by
        rw [hcond]
        exact Option.some_ne_none c
      cases hrun : c.holds vm.cpsr with
      | false =>
          rw [vmRunInstruction_skip hcond hrun]
          refine ⟨setRegister_self _ _ _, fun _ _ _ => rfl, fun c' hc' hholds => ?_, hne⟩
          obtain rfl := Option.some.inj (hcond.symm.trans hc')
          rw [hrun] at hholds
          cases hholds
      | true =>
          by_cases hregs : instruction.register1.toNat < 32 ∧ instruction.register2.toNat < 32
          · rw [vmRunInstruction_eq hcond hrun hregs.1 hregs.2] at hok ⊢
            refine ⟨vmAfterSwitch_zero _ _ _, fun c' hc' hholds => ?_, fun _ _ _ => ?_, hne⟩
            · obtain rfl := Option.some.inj (hcond.symm.trans hc')
              rw [hrun] at hholds
              cases hholds
            · rw [vmHasNoError, vmAfterSwitch_cpsr, ← vmHasNoError] at hok
              cases hop : Opcode.ofWord instruction.opcode with
              | none =>
                  rw [vmSwitch, hop, vmHasNoError_vmSetState rfl] at hok
                  cases hok
              | some op =>
                  simp only [vmSwitch, hop] at hok ⊢
                  refine ⟨op, ⟨_, hregs.1⟩, ⟨_, hregs.2⟩, rfl, rfl, rfl, ?_⟩
                  exact vmAfterSwitch_within (vmDispatch_within hvm op hok) (setRegister_self _ _ _)
                    fun hwrite => .inl ⟨.inl (isOperation_of_vmDispatch hwrite), rfl⟩
          · rw [vmRunInstruction_invalidRegister hcond hrun hregs, vmHasNoError_vmSetState rfl]
              at hok
            cases hok

/-- A push in the middle of the stack. -/
theorem vmRunInstruction_frame_push :
    FrameLaw ((vmInitialize 512).setRegister Register.bp 4096 |>.setRegister Register.sp 4100)
      (.unconditional .pushi 0 0 7)
      (vmRunInstruction
        ((vmInitialize 512).setRegister Register.bp 4096 |>.setRegister Register.sp 4100)
        (.unconditional .pushi 0 0 7)) :=
  vmRunInstruction_frame rfl _ (by decide +kernel)

end Zlvm
