import Zlvm.Lib.BoundedStack
import Zlvm.Lib.Simulation
import Zlvm.Vm.Atomic

/-!
# The stack is a bounded stack of words

The stack instructions of a machine whose stack pointer lies above its base pointer, against a
last-in-first-out stack of at most 64 words.

* `StackInstruction` — the unconditional stack instructions.
* `StackMachine`, `stackStep` — the specification.
* `Represents` — the words of the stack lie between base pointer and stack pointer.
* `represents_push`, `represents_pop` — the two operations of the machine.
* **`vmRunInstruction_refines_stack`** — every sequence of stack instructions.
-/

namespace Zlvm

open Buffer VirtualMachine Simulation

/-! ## Instructions -/

/-- The stack opcodes. -/
inductive StackOp
  | pushi
  | pushr
  | pop
  | popr
  | dup
deriving DecidableEq

/-- The opcode of a stack operation. -/
def StackOp.opcode : StackOp → Opcode
  | pushi => .pushi
  | pushr => .pushr
  | pop => .pop
  | popr => .popr
  | dup => .dup

/-- An unconditional stack instruction that does not pop into the stack registers. -/
structure StackInstruction where
  op : StackOp
  reg1 : Register
  reg2 : Register
  imm : Word
  destination : op = .popr → reg1 ≠ Register.sp ∧ reg1 ≠ Register.bp

/-- The instruction itself. -/
def StackInstruction.instruction (i : StackInstruction) : Instruction :=
  .unconditional i.op.opcode i.reg1 i.reg2 i.imm

/-! ## The specification -/

/-- The number of words that fit the stack. -/
def stackWords : ℕ := 64

/-- A stack of words that starts at the address `base`, and the registers. -/
structure StackMachine where
  base : ℕ
  registers : Register → Word
  stack : BoundedStack Word stackWords

/-- The value of a register; the stack pointer follows the depth. -/
def StackMachine.value (m : StackMachine) (r : Register) : Word :=
  if r = Register.sp then UInt32.ofNat (m.base + 4 * m.stack.depth)
  else if r = Register.zero then 0
  else m.registers r

/-- One instruction of the specification. -/
def stackStep (m : StackMachine) (i : StackInstruction) :
    Except BoundedStack.Fault (StackMachine × Unit) :=
  match i.op with
  | .pushi => do
      let stack ← m.stack.push i.imm
      return ({ m with stack }, ())
  | .pushr => do
      let stack ← m.stack.push (m.value i.reg1)
      return ({ m with stack }, ())
  | .pop => do
      let (_, stack) ← m.stack.pop
      return ({ m with stack }, ())
  | .popr => do
      let (value, stack) ← m.stack.pop
      return ({ m with stack, registers := Function.update m.registers i.reg1 value }, ())
  | .dup => do
      let (value, _) ← m.stack.pop
      let stack ← m.stack.push value
      return ({ m with stack }, ())

/-- One instruction of the machine. -/
def vmStackStep (vm : VirtualMachine) (i : StackInstruction) : VirtualMachine × Unit :=
  (vmRunInstruction vm i.instruction, ())

/-- The error state of a fault. -/
def faultState : BoundedStack.Fault → State
  | .overflow => .errStackOverflow
  | .underflow => .errStackUnderflow

/-! ## The representation -/

/-- Words as they lie in memory, the last one first. -/
def stackBytes : List Word → Bytes
  | [] => []
  | v :: vs => stackBytes vs ++ LittleEndian.bytes 4 v.toNat

@[simp] theorem length_stackBytes : ∀ vs : List Word, (stackBytes vs).length = 4 * vs.length
  | [] => rfl
  | v :: vs => by
      rw [stackBytes, List.length_append, length_stackBytes vs, LittleEndian.length_bytes,
        List.length_cons]
      omega

/-- The machine holds the stack, up to `$zero`: the registers have the values of the
specification, the words lie from `base` upward, and no byte outside the stack differs from
`initial`. -/
structure Represents (initial : Bytes) (vm : VirtualMachine) (m : StackMachine) : Prop where
  registers : ∀ r, r ≠ Register.zero → vm.registers r = m.value r
  base : (m.registers Register.bp).toNat = m.base
  words : slice vm.flat m.base (4 * m.stack.depth) = stackBytes m.stack.items
  outside : ∀ i, i < m.base ∨ m.base + 256 ≤ i → vm.flat[i]? = initial[i]?
  room : m.base + 256 ≤ vm.memoryEnd
  small : vm.memoryEnd < 0x100000000

/-- The machine runs normally and holds the stack. -/
structure Runs (initial : Bytes) (vm : VirtualMachine) (m : StackMachine) : Prop where
  normal : vm.cpsr.ST = .normal
  zero : vm.registers Register.zero = 0
  represents : Represents initial vm m

/-- The machine has stopped at a fault and still holds the stack. -/
structure Stopped (initial : Bytes) (fault : BoundedStack.Fault) (vm : VirtualMachine)
    (m : StackMachine) : Prop where
  state : vm.cpsr.ST = faultState fault
  zero : vm.registers Register.zero = 0
  represents : Represents initial vm m

section Representation

variable {initial : Bytes} {vm : VirtualMachine} {m : StackMachine}

theorem Represents.depth_le (_h : Represents initial vm m) : m.stack.depth ≤ 64 := m.stack.bounded

/-- The stack pointer is `base + 4 * depth`. -/
theorem Represents.sp (h : Represents initial vm m) :
    (vm.registers Register.sp).toNat = m.base + 4 * m.stack.depth := by
  have hdepth := h.depth_le
  have hroom := h.room
  have hsmall := h.small
  rw [h.registers _ (by decide), StackMachine.value, if_pos rfl, UInt32.toNat_ofNat',
    Nat.mod_eq_of_lt (by omega)]

theorem Represents.bp (h : Represents initial vm m) :
    (vm.registers Register.bp).toNat = m.base := by
  rw [h.registers _ (by decide), StackMachine.value, if_neg (by decide), if_neg (by decide), h.base]

/-- A push is possible exactly below the capacity. -/
theorem Represents.pushable_iff (h : Represents initial vm m) :
    Pushable vm ↔ m.stack.depth < stackWords := by
  have hdepth := h.depth_le
  have hwords : stackWords = 64 := rfl
  rw [Zlvm.pushable_iff, h.sp, h.bp]
  omega

/-- A pop is possible exactly when the stack is not empty. -/
theorem Represents.poppable_iff (h : Represents initial vm m) :
    Poppable vm ↔ 0 < m.stack.depth := by
  have hdepth := h.depth_le
  rw [Zlvm.poppable_iff, h.sp, h.bp]
  omega

/-- Every word of the stack's room can be accessed. -/
theorem Represents.accessible (h : Represents initial vm m) {k : ℕ} (hk : k < 64) :
    vm.Accessible (m.base + 4 * k) 4 := by
  have hroom := h.room
  have hsmall := h.small
  refine ⟨?_, by omega⟩
  rw [sizeMax]
  omega

/-- Assigning a register other than those of the stack. -/
theorem Represents.setRegister (h : Represents initial vm m) {r : Register}
    (hsp : r ≠ Register.sp) (hbp : r ≠ Register.bp) (value : Word) :
    Represents initial (vm.setRegister r value)
      { m with registers := Function.update m.registers r value } where
  registers := by
    intro r' hr'
    by_cases hr : r' = r
    · subst hr
      rw [setRegister_self, StackMachine.value, if_neg hsp, if_neg hr']
      dsimp only
      rw [Function.update_self]
    · rw [setRegister_of_ne _ _ _ hr, h.registers _ hr']
      simp only [StackMachine.value, Function.update_of_ne hr]
  base := by
    dsimp only
    rw [Function.update_of_ne (Ne.symm hbp), h.base]
  words := h.words
  outside := h.outside
  room := h.room
  small := h.small

/-- **A push** below the capacity. -/
theorem represents_push (h : Represents initial vm m) (hok : vmHasNoError vm = true)
    (hlt : m.stack.depth < stackWords) (v : Word) :
    Represents initial (vmPushWord vm v).1 { m with stack := ⟨v :: m.stack.items, hlt⟩ } ∧
      (vmPushWord vm v).1.cpsr = vm.cpsr := by
  have hacc : vm.Accessible (vm.registers Register.sp).toNat 4 := by
    rw [h.sp]
    exact h.accessible hlt
  have hend : m.base + 4 * m.stack.depth + 4 ≤ vm.flat.length := by
    rw [length_flat]
    exact (h.accessible hlt).2
  have hwords : stackWords = 64 := rfl
  have hbytes := LittleEndian.length_bytes 4 v.toNat
  rw [vmPushWord_eq hok (h.pushable_iff.mpr hlt) hacc, h.sp]
  refine ⟨⟨fun r hr => ?_, h.base, ?_, fun i hi => ?_, ?_, ?_⟩, rfl⟩
  · by_cases hsp : r = Register.sp
    · subst hsp
      rw [setRegister_self, h.registers _ hr]
      simp only [StackMachine.value, if_true, BoundedStack.depth, List.length_cons]
      rw [Nat.mul_add, ← Nat.add_assoc, UInt32.ofNat_add _ (4 * 1)]
      rfl
    · rw [setRegister_of_ne _ _ _ hsp, poke_registers, h.registers _ hr]
      simp only [StackMachine.value, if_neg hsp]
  · dsimp only
    rw [flat_setRegister, flat_poke]
    have hdepth : 4 * (⟨v :: m.stack.items, hlt⟩ : BoundedStack Word stackWords).depth
        = 4 * m.stack.depth + 4 := by
      simp only [BoundedStack.depth, List.length_cons]
      omega
    have htop : slice (overlay vm.flat (m.base + 4 * m.stack.depth)
        (LittleEndian.bytes 4 v.toNat)) (m.base + 4 * m.stack.depth)
        (LittleEndian.bytes 4 v.toNat).length = LittleEndian.bytes 4 v.toNat :=
      slice_overlay_self (by omega)
    rw [hbytes] at htop
    rw [hdepth, slice_add, slice_overlay_of_disjoint (by omega), h.words, htop, stackBytes]
  · dsimp only at hi
    rw [flat_setRegister, flat_poke, getElem?_overlay, if_neg (by omega)]
    exact h.outside i hi
  · exact (memoryEnd_poke vm _ _).symm ▸ h.room
  · exact (memoryEnd_poke vm _ _).symm ▸ h.small

/-- **A pop** of a stack that is not empty; pushing the word back undoes it. -/
theorem represents_pop (h : Represents initial vm m) (hok : vmHasNoError vm = true) {v : Word}
    {vs : List Word} {hb : (v :: vs).length ≤ stackWords} (hstack : m.stack = ⟨v :: vs, hb⟩) :
    ∃ vm', vmPopWord vm = (vm', some v) ∧ (vmPushWord vm' v).1 = vm ∧
      Represents initial vm' { m with stack := ⟨vs, Nat.le_of_succ_le hb⟩ } ∧
      vm'.cpsr = vm.cpsr := by
  have hdepth : m.stack.depth = vs.length + 1 := by rw [hstack]; rfl
  have hlen : vs.length < 64 := hb
  have hsp : (vm.registers Register.sp - 4).toNat = m.base + 4 * vs.length := by
    rw [UInt32.toNat_sub_of_le _ _ (UInt32.le_iff_toNat_le.mpr (by rw [h.sp]; simp; omega)), h.sp,
      hdepth]
    simp only [UInt32.reduceToNat]
    omega
  -- the words below the top, and the top
  have hwords := h.words
  rw [hdepth, hstack, Nat.mul_add, slice_add, stackBytes] at hwords
  obtain ⟨hrest, htop⟩ := List.append_inj hwords (by
    rw [length_slice_of_le, length_stackBytes]
    rw [length_flat]
    have := h.room
    omega)
  have hacc : vm.Accessible (vm.registers Register.sp - 4).toNat 4 := by
    rw [hsp]
    exact h.accessible hlen
  have hpoppable := h.poppable_iff.mpr (by omega)
  have hv : UInt32.ofNat (LittleEndian.value
      (slice vm.flat (vm.registers Register.sp - 4).toNat 4)) = v := by
    rw [hsp, htop, LittleEndian.value_bytes_of_lt v.toNat_lt, UInt32.ofNat_toNat]
  refine ⟨vm.setRegister Register.sp (vm.registers Register.sp - 4), ?_, ?_, ?_, rfl⟩
  · rw [vmPopWord_eq hok hpoppable hacc, hv]
  · rw [← hv]
    exact vmPushWord_vmPopWord hok hpoppable hacc
  · refine ⟨fun r hr => ?_, h.base, hrest, h.outside, h.room, h.small⟩
    by_cases hr' : r = Register.sp
    · subst hr'
      have hroom := h.room
      have hsmall := h.small
      rw [setRegister_self, StackMachine.value, if_pos rfl, ← UInt32.toNat_inj, hsp,
        UInt32.toNat_ofNat', Nat.mod_eq_of_lt]
      · rfl
      · simp only [BoundedStack.depth]
        omega
    · rw [setRegister_of_ne _ _ _ hr', h.registers _ hr]
      simp only [StackMachine.value, if_neg hr']

/-- A pop of an empty stack. -/
theorem represents_pop_empty (h : Represents initial vm m) (hempty : m.stack.items = []) :
    vmPopWord vm = (vmSetState vm .errStackUnderflow, none) := by
  refine vmPopWord_underflow fun hpop => ?_
  have hdepth := h.poppable_iff.mp hpop
  rw [BoundedStack.depth, hempty] at hdepth
  exact absurd hdepth (by simp)

/-- A push onto a full stack. -/
theorem represents_push_full (h : Represents initial vm m) (hfull : ¬m.stack.depth < stackWords)
    (v : Word) : vmPushWord vm v = (vmSetState vm .errStackOverflow, false) :=
  vmPushWord_overflow (fun hpush => hfull (h.pushable_iff.mp hpush)) v

/-- What follows the switch touches `$zero` only. -/
theorem Represents.vmAfterSwitch (h : Represents initial vm m) (reg1 : Register) :
    Represents initial (vmAfterSwitch vm reg1 false) m := by
  have hflat : (Zlvm.vmAfterSwitch vm reg1 false).flat = vm.flat := by
    rw [VirtualMachine.flat, vmAfterSwitch_rom, vmAfterSwitch_memory, VirtualMachine.flat]
  have hend : (Zlvm.vmAfterSwitch vm reg1 false).memoryEnd = vm.memoryEnd := by
    rw [← length_flat, hflat, length_flat]
  refine ⟨fun r hr => ?_, h.base, ?_, ?_, ?_, ?_⟩
  · rw [vmAfterSwitch_registers rfl, Function.update_of_ne hr, h.registers r hr]
  · rw [hflat]
    exact h.words
  · rw [hflat]
    exact h.outside
  · rw [hend]
    exact h.room
  · rw [hend]
    exact h.small

/-- An execution state is no part of the representation. -/
theorem Represents.vmSetState (h : Represents initial vm m) (state : State) :
    Represents initial (vmSetState vm state) m := by
  have hflat : (Zlvm.vmSetState vm state).flat = vm.flat := by
    rw [VirtualMachine.flat, vmSetState_rom, vmSetState_memory, VirtualMachine.flat]
  have hend : (Zlvm.vmSetState vm state).memoryEnd = vm.memoryEnd := by
    rw [← length_flat, hflat, length_flat]
  refine ⟨fun r hr => ?_, h.base, ?_, ?_, ?_, ?_⟩
  · rw [vmSetState_registers, h.registers r hr]
  · rw [hflat]
    exact h.words
  · rw [hflat]
    exact h.outside
  · rw [hend]
    exact h.room
  · rw [hend]
    exact h.small

end Representation

/-! ## Runs of stack instructions -/

section Step

variable {initial : Bytes} {vm : VirtualMachine} {m : StackMachine} {reg1 : Register}

/-- The end of a step that succeeds. -/
theorem stackStep_ok {vm' : VirtualMachine} {m' : StackMachine} (h : Runs initial vm m)
    (h' : Represents initial vm' m') (hcpsr : vm'.cpsr = vm.cpsr) :
    StepMatches vmHasNoError (Runs initial) (Stopped initial) (vmAfterSwitch vm' reg1 false, ())
      m (.ok (m', ())) := by
  have hnormal : (vmAfterSwitch vm' reg1 false).cpsr.ST = .normal := by
    rw [vmAfterSwitch_cpsr, hcpsr]
    exact h.normal
  refine ⟨vmHasNoError_of_normal hnormal, rfl, hnormal, ?_, h'.vmAfterSwitch reg1⟩
  rw [vmAfterSwitch_registers rfl, Function.update_self]

/-- The end of a step that faults. -/
theorem stackStep_fault (h : Runs initial vm m) (fault : BoundedStack.Fault) :
    StepMatches vmHasNoError (Runs initial) (Stopped initial)
      (vmAfterSwitch (vmSetState vm (faultState fault)) reg1 false, ()) m (.error fault) := by
  have hstate : (vmAfterSwitch (vmSetState vm (faultState fault)) reg1 false).cpsr.ST
      = faultState fault := by
    rw [vmAfterSwitch_cpsr, vmSetState_cpsr, if_pos (vmHasNoError_of_normal h.normal)]
  refine ⟨?_, hstate, ?_, (h.represents.vmSetState _).vmAfterSwitch reg1⟩
  · rw [vmHasNoError, hstate]
    cases fault <;> rfl
  · rw [vmAfterSwitch_registers rfl, Function.update_self]

/-- The registers before the switch are those of the specification, `$zero` included. -/
theorem Runs.value (h : Runs initial vm m) (r : Register) : vm.registers r = m.value r := by
  by_cases hr : r = Register.zero
  · subst hr
    exact h.zero
  · exact h.represents.registers r hr

/-- **One stack instruction.** -/
theorem vmStackStep_matches (h : Runs initial vm m) (i : StackInstruction) :
    StepMatches vmHasNoError (Runs initial) (Stopped initial) (vmStackStep vm i) m
      (stackStep m i) := by
  have hok := vmHasNoError_of_normal h.normal
  have hzero : vm.setRegister Register.zero 0 = vm := by
    refine VirtualMachine.ext rfl rfl ?_ rfl rfl rfl rfl
    rw [setRegister_registers, ← h.zero, Function.update_eq_self]
  -- a push of any word
  have hpush : ∀ (v : Word) (reg1 : Register), StepMatches vmHasNoError (Runs initial)
      (Stopped initial) (vmAfterSwitch (vmPushWord vm v).1 reg1 false, ()) m (do
        let stack ← m.stack.push v
        return ({ m with stack }, ())) := by
    intro v reg1
    by_cases hlt : m.stack.depth < stackWords
    · obtain ⟨hrep, hcpsr⟩ := represents_push h.represents hok hlt v
      rw [BoundedStack.push_of_lt hlt]
      exact stackStep_ok h hrep hcpsr
    · rw [represents_push_full h.represents hlt, BoundedStack.push, dif_neg hlt]
      exact stackStep_fault h .overflow
  obtain ⟨op, reg1, reg2, imm, hdest⟩ := i
  simp only [vmStackStep, StackInstruction.instruction, vmRunInstruction_unconditional, hzero]
  cases op with
  | pushi => exact hpush imm reg1
  | pushr =>
      simp only [stackStep, ← h.value]
      exact hpush (vm.registers reg1) reg1
  | pop =>
      simp only [StackOp.opcode, vmDispatch, stackStep]
      obtain ⟨base, registers, ⟨items, hb⟩⟩ := m
      cases items with
      | nil =>
          rw [represents_pop_empty h.represents rfl]
          exact stackStep_fault h .underflow
      | cons v vs =>
          obtain ⟨vm', hpop, -, hrep, hcpsr⟩ := represents_pop h.represents hok rfl
          rw [hpop]
          exact stackStep_ok h hrep hcpsr
  | popr =>
      simp only [StackOp.opcode, vmDispatch, stackStep]
      obtain ⟨base, registers, ⟨items, hb⟩⟩ := m
      cases items with
      | nil =>
          rw [represents_pop_empty h.represents rfl]
          exact stackStep_fault h .underflow
      | cons v vs =>
          obtain ⟨vm', hpop, -, hrep, hcpsr⟩ := represents_pop h.represents hok rfl
          obtain ⟨hsp, hbp⟩ := hdest rfl
          rw [hpop]
          exact stackStep_ok h (hrep.setRegister hsp hbp v) hcpsr
  | dup =>
      simp only [StackOp.opcode, vmDispatch, stackStep]
      obtain ⟨base, registers, ⟨items, hb⟩⟩ := m
      cases items with
      | nil =>
          rw [represents_pop_empty h.represents rfl]
          exact stackStep_fault h .underflow
      | cons v vs =>
          -- the first push undoes the pop
          obtain ⟨vm', hpop, hback, -, -⟩ := represents_pop h.represents hok rfl
          rw [hpop]
          simp only [hback]
          exact hpush v reg1

end Step

/-- The words that lie from `base` upward, the last one first. -/
def wordsFrom (bytes : Bytes) (base : ℕ) : ℕ → List Word
  | 0 => []
  | n + 1 =>
      UInt32.ofNat (LittleEndian.value (slice bytes (base + 4 * n) 4)) :: wordsFrom bytes base n

@[simp] theorem length_wordsFrom (bytes : Bytes) (base : ℕ) :
    ∀ n : ℕ, (wordsFrom bytes base n).length = n
  | 0 => rfl
  | n + 1 => by rw [wordsFrom, List.length_cons, length_wordsFrom bytes base n]

/-- The words that lie somewhere are represented there. -/
theorem stackBytes_wordsFrom (bytes : Bytes) (base : ℕ) :
    ∀ n : ℕ, base + 4 * n ≤ bytes.length →
      slice bytes base (4 * n) = stackBytes (wordsFrom bytes base n)
  | 0, _ => rfl
  | n + 1, h => by
      rw [wordsFrom, stackBytes, ← stackBytes_wordsFrom bytes base n (by omega),
        LittleEndian.bytes_value_word (length_slice_of_le (by omega)), Nat.mul_add, slice_add]

/-- The stack machine that a machine with `n` words on its stack holds. -/
def stackOf (vm : VirtualMachine) {n : ℕ} (hn : n ≤ stackWords) : StackMachine where
  base := (vm.registers Register.bp).toNat
  registers := vm.registers
  stack := ⟨wordsFrom vm.flat (vm.registers Register.bp).toNat n, by
    rw [length_wordsFrom]
    exact hn⟩

/-- A machine and a stack answer a sequence of stack instructions alike: in the end the machine
either runs and holds the stack, or both have stopped at the same fault. -/
def AnswersStack (vm : VirtualMachine) {n : ℕ} (hn : n ≤ stackWords)
    (instructions : List StackInstruction) : Prop :=
  RunsMatch (Runs vm.flat) (Stopped vm.flat)
    (runLive vmHasNoError vmStackStep instructions vm)
    (runFault stackStep instructions (stackOf vm hn))

/-- **The stack refines a bounded stack of 64 words**, for every sequence of stack instructions. -/
theorem vmRunInstruction_refines_stack {vm : VirtualMachine} {n : ℕ}
    (hnormal : vm.cpsr.ST = .normal) (hzero : vm.registers Register.zero = 0)
    (hn : n ≤ stackWords)
    (hsp : (vm.registers Register.sp).toNat = (vm.registers Register.bp).toNat + 4 * n)
    (hroom : (vm.registers Register.bp).toNat + 256 ≤ vm.memoryEnd)
    (hsmall : vm.memoryEnd < 0x100000000) (instructions : List StackInstruction) :
    AnswersStack vm hn instructions := by
  have hwords : stackWords = 64 := rfl
  have hruns : Runs vm.flat vm (stackOf vm hn) := by
    refine ⟨hnormal, hzero, ⟨fun r hr => ?_, rfl, ?_, fun _ _ => rfl, hroom, hsmall⟩⟩
    · rw [StackMachine.value, if_neg hr]
      split
      · rename_i hr'
        subst hr'
        rw [← UInt32.toNat_inj, hsp]
        simp only [stackOf, BoundedStack.depth, length_wordsFrom]
        rw [UInt32.toNat_ofNat', Nat.mod_eq_of_lt (by omega)]
      · rfl
    · simp only [stackOf, BoundedStack.depth, length_wordsFrom]
      exact stackBytes_wordsFrom _ _ _ (by rw [length_flat]; omega)
  exact runLive_simulates (Runs vm.flat) (Stopped vm.flat) (fun _ => True)
    (fun _ _ i hR _ => vmStackStep_matches hR i) instructions vm _ (fun _ _ => trivial) hruns

/-- A machine with one word on a stack that straddles the end of the ROM. -/
def straddlingStack : VirtualMachine :=
  ((vmInitialize 512).setRegister Register.bp 4094).setRegister Register.sp 4098

/-- Push, duplicate, pop into a register, and pop one word more than there is. -/
theorem vmRunInstruction_refines_stack_straddling :
    AnswersStack straddlingStack (n := 1) (by decide)
      [⟨.pushi, 0, 0, 0x11223344, by simp⟩, ⟨.dup, 0, 0, 0, by simp⟩,
        ⟨.popr, 3, 0, 0, fun _ => by decide⟩, ⟨.pop, 0, 0, 0, by simp⟩,
        ⟨.pop, 0, 0, 0, by simp⟩, ⟨.pop, 0, 0, 0, by simp⟩] :=
  vmRunInstruction_refines_stack rfl rfl (by decide) rfl (by decide +kernel) (by decide +kernel) _

end Zlvm
