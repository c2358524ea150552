import Zlvm.Isa.Flow
import Zlvm.Isa.Refinement
import Zlvm.Lib.LeadsTo

/-!
# Code in memory

Programs of the instruction set as triples: a listing of instructions lies in memory, and control
stands at one of them.

* `IsaMachine.Step`, `Reaches` — a step of a machine that runs, and several ones;
  `exists_vmSteps_of_reaches`, `reaches_vmSteps` — these are the passes of the emulator.
* `Opcode.instruction`, `listing` — an instruction as the assembler writes it, and a sequence of
  them at an address.
* `IsaMachine.At` — a machine that runs, holds a text and stands at an address of it;
  `At.step` — what it does there.
* `Keeps` — the registers that a piece of code leaves alone, with the memory and the state.
-/

namespace Zlvm

open Buffer VirtualMachine Hoare

namespace IsaMachine

/-! ## Steps -/

/-- A step of a machine that runs. -/
def Step (m m' : IsaMachine) : Prop := m.cpsr.ST = .normal ∧ m' = m.step

/-- A machine has one step at most. -/
theorem Step.unique {m m' m'' : IsaMachine} (h : Step m m') (h' : Step m m'') : m' = m'' :=
  h.2.trans h'.2.symm

/-- Some steps. -/
abbrev Reaches : IsaMachine → IsaMachine → Prop := Relation.ReflTransGen Step

/-- Steps are passes of the emulator. -/
theorem exists_vmSteps_of_reaches {vm : VirtualMachine} (hsize : vm.memoryEnd ≤ sizeMax)
    {m : IsaMachine} (h : Reaches (isa vm) m) : ∃ n, isa (vmSteps n vm) = m := by
  induction h with
  | refl => exact ⟨0, rfl⟩
  | @tail m m' _ hstep ih =>
      obtain ⟨n, rfl⟩ := ih
      obtain ⟨hnormal, rfl⟩ := hstep
      have hlive : vmLive (vmSteps n vm) = true := vmLive_of_normal hnormal
      refine ⟨n + 1, ?_⟩
      rw [vmSteps_succ, if_pos hlive]
      exact isa_vmStep (Bool.and_eq_true_iff.mp hlive).1 ((memoryEnd_vmSteps vm n).trans_le hsize)

/-- The passes of the emulator are steps. -/
theorem reaches_vmSteps {vm : VirtualMachine} (hconcrete : vm.cpsr.ST.isConcrete = true)
    (hsize : vm.memoryEnd ≤ sizeMax) (n : ℕ) : Reaches (isa vm) (isa (vmSteps n vm)) := by
  refine (vmSteps_induction (fun vm' => vm'.memoryEnd ≤ sizeMax ∧
    vm'.cpsr.ST.isConcrete = true ∧ Reaches (isa vm) (isa vm')) (fun vm' h hlive => ?_)
    ⟨hsize, hconcrete, .refl⟩ n).2.2
  obtain ⟨hend, hconcrete', hreaches⟩ := h
  have hok := (Bool.and_eq_true_iff.mp hlive).1
  refine ⟨((machineClosed_memoryEnd _).step hok rfl).trans_le hend,
    isConcrete_vmStep hok hconcrete', hreaches.tail ⟨?_, isa_vmStep hok hend⟩⟩
  exact (vmLive_iff_normal hconcrete').mp hlive

/-! ## Listings -/

/-- Go on to the next instruction. -/
def next (m : IsaMachine) : IsaMachine := m.write Register.pc (m.registers Register.pc + 8)

/-- A machine that holds a text in the part of its memory that `$pc` reaches. -/
structure Holds (m : IsaMachine) (text : Text) : Prop where
  inside : ∀ {address instruction}, text address instruction →
    address + instructionSize ≤ m.memory.length
  reachable : ∀ {address instruction}, text address instruction →
    address + instructionSize ≤ 2 ^ 32
  decodes : ∀ {address instruction}, text address instruction →
    instructionDecode (slice m.memory address instructionSize) = some instruction

/-- A machine that runs, holds a text and stands at an address. -/
structure At (m : IsaMachine) (text : Text) (address : ℕ) : Prop where
  normal : m.cpsr.ST = .normal
  holds : m.Holds text
  pc : (m.registers Register.pc).toNat = address

end IsaMachine

/-- The instruction that an opcode with its operands stands for. -/
def Opcode.instruction (op : Opcode) (condition : Condition) (rd rs : Register) (imm : Word) :
    Instruction :=
  ⟨op.toWord, condition.toWord, UInt8.ofNat rd, UInt8.ofNat rs, imm⟩

/-- Instructions one after the other, from an address on. -/
def listing (base : ℕ) (code : List Instruction) : Text := fun address instruction =>
  ∃ k, code[k]? = some instruction ∧ address = base + instructionSize * k

/-- A part of a listing. -/
theorem listing_le (base : ℕ) (before code after : List Instruction) :
    listing (base + instructionSize * before.length) code
      ≤ listing base (before ++ code ++ after) := by
  rintro _ instruction ⟨k, hk, rfl⟩
  refine ⟨before.length + k, ?_, by rw [Nat.mul_add, Nat.add_assoc]⟩
  rw [List.append_assoc, List.getElem?_append_right (Nat.le_add_right _ _),
    Nat.add_sub_cancel_left, List.getElem?_append_left (List.getElem?_eq_some_iff.mp hk).1, hk]

/-- What is written beside a listing spares it. -/
theorem spares_listing {base : ℕ} {code : List Instruction} {writes : List ℕ}
    (h : ∀ i ∈ writes, i < base ∨ base + instructionSize * code.length ≤ i) :
    Spares (listing base code) writes := by
  rintro i hi _ instruction ⟨k, hk, rfl⟩ ⟨hlow, hhigh⟩
  have hlt := (List.getElem?_eq_some_iff.mp hk).1
  have hapart := h i hi
  rw [instructionSize] at hlow hhigh hapart
  omega

namespace IsaMachine

section Code

variable {m m' : IsaMachine} {text : Text} {address : ℕ}

/-- The machine of the emulator holds what the one of the specification does. -/
theorem holds_isa {vm : VirtualMachine} (h : HoldsText vm text) : (isa vm).Holds text where
  inside here := by
    have hacc := (h.accessible here).2
    rwa [← length_flat] at hacc
  reachable := h.reachable
  decodes := h.decodes

/-- The machine of the specification holds what the one of the emulator does. -/
theorem holdsText_of_isa {vm : VirtualMachine} (hsize : vm.memoryEnd ≤ sizeMax)
    (h : (isa vm).Holds text) : HoldsText vm text where
  accessible here := ⟨hsize, (h.inside here).trans_eq (length_flat vm)⟩
  reachable := h.reachable
  decodes := h.decodes

/-- A text with fewer instructions. -/
theorem Holds.mono {text' : Text} (h : m.Holds text)
    (hsub : ∀ address instruction, text' address instruction → text address instruction) :
    m.Holds text' where
  inside here := h.inside (hsub _ _ here)
  reachable here := h.reachable (hsub _ _ here)
  decodes here := h.decodes (hsub _ _ here)

/-- A memory that holds the code of a listing. -/
theorem holds_listing {base : ℕ} {code : List Instruction}
    (hinside : base + instructionSize * code.length ≤ m.memory.length)
    (hreach : base + instructionSize * code.length ≤ 2 ^ 32)
    (hdecodes : ∀ k < code.length,
      instructionDecode (slice m.memory (base + instructionSize * k) instructionSize) = code[k]?) :
    m.Holds (listing base code) := by
  have hlt : ∀ {k instruction}, code[k]? = some instruction → k < code.length :=
    fun hk => (List.getElem?_eq_some_iff.mp hk).1
  rw [instructionSize] at hinside hreach
  constructor
  · rintro _ instruction ⟨k, hk, rfl⟩
    have hk' := hlt hk
    rw [instructionSize]
    omega
  · rintro _ instruction ⟨k, hk, rfl⟩
    have hk' := hlt hk
    rw [instructionSize]
    omega
  · rintro _ instruction ⟨k, hk, rfl⟩
    rw [hdecodes k (hlt hk), hk]

/-- A text stays where the bytes of its instructions do. -/
theorem Holds.of_memory (h : m.Holds text) (hlength : m'.memory.length = m.memory.length)
    (hbytes : ∀ address instruction, text address instruction →
      ∀ i, address ≤ i → i < address + instructionSize → m'.memory[i]? = m.memory[i]?) :
    m'.Holds text where
  inside here := by
    rw [hlength]
    exact h.inside here
  reachable := h.reachable
  decodes {address instruction} here := by
    have hslice : slice m'.memory address instructionSize
        = slice m.memory address instructionSize := by
      refine List.ext_getElem? fun i => ?_
      rw [getElem?_slice, getElem?_slice]
      split
      · exact hbytes address instruction here _ (by omega) (by omega)
      · rfl
    rw [hslice]
    exact h.decodes here

theorem Holds.of_eq (h : m.Holds text) (hmemory : m'.memory = m.memory) : m'.Holds text :=
  h.of_memory (by rw [hmemory]) fun _ _ _ i _ _ => by rw [hmemory]

/-- **A fetch from the text.** -/
theorem Holds.step_eq (h : m.Holds text) {instruction : Instruction}
    (here : text (m.registers Register.pc).toNat instruction) :
    m.step = m.next.execute instruction := by
  have hinside := h.inside here
  have hreach := h.reachable here
  rw [instructionSize] at hinside hreach
  have hbytes : m.instructionBytes
      = slice m.memory (m.registers Register.pc).toNat instructionSize := by
    refine List.ext_getElem? fun i => ?_
    rw [instructionBytes, List.getElem?_map, getElem?_slice]
    by_cases hi : i < instructionSize
    · rw [if_pos hi, List.getElem?_range hi, Option.map_some]
      rw [instructionSize] at hi
      have haddress : (m.registers Register.pc + UInt32.ofNat i).toNat
          = (m.registers Register.pc).toNat + i := by
        rw [UInt32.toNat_add, UInt32.toNat_ofNat']
        omega
      rw [haddress, List.getD_eq_getElem?_getD, List.getElem?_eq_getElem (by omega)]
      rfl
    · rw [if_neg hi, List.getElem?_eq_none (by simpa using hi)]
      rfl
  rw [IsaMachine.step, within, if_pos (h.inside here), hbytes, h.decodes here]
  rfl

/-- **What an instruction does**: nothing if its condition does not hold. -/
theorem execute_instruction (op : Opcode) (condition : Condition) (rd rs : Register)
    (imm : Word) : m.execute (op.instruction condition rd rs imm)
      = if condition.holds m.cpsr = true then m.perform rd rs imm op.effect else m := by
  have hregister : ∀ r : Register, (UInt8.ofNat (r : ℕ)).toNat = r := by
    intro r
    have hlt := r.isLt
    rw [UInt8.toNat_ofNat']
    omega
  unfold execute Opcode.instruction
  simp only [Condition.ofWord_toWord, Opcode.ofWord_toWord, hregister, Nat.max_lt, Fin.is_lt,
    and_self, dif_pos, Fin.eta]

/-- **A step at an instruction.** -/
theorem At.step (h : m.At text address) {op : Opcode} {condition : Condition} {rd rs : Register}
    {imm : Word} (here : text address (op.instruction condition rd rs imm)) :
    Step m (if condition.holds m.cpsr = true then m.next.perform rd rs imm op.effect
      else m.next) := by
  refine ⟨h.normal, ?_⟩
  rw [h.holds.step_eq (by rw [h.pc]; exact here), execute_instruction]
  rfl

/-- A step at an instruction that is executed in any case. -/
theorem At.step_always (h : m.At text address) {op : Opcode} {rd rs : Register} {imm : Word}
    (here : text address (op.instruction .unconditional rd rs imm)) :
    Step m (m.next.perform rd rs imm op.effect) := h.step here

/-- Control stands at the next instruction. -/
theorem At.succ (h : m.At text address) (hmemory : m'.memory = m.memory)
    (hstate : m'.cpsr.ST = m.cpsr.ST)
    (hpc : m'.registers Register.pc = m.registers Register.pc + 8)
    (hreach : address + 8 < 2 ^ 32) : m'.At text (address + 8) where
  normal := hstate.trans h.normal
  holds := h.holds.of_eq hmemory
  pc := by
    have haddress := h.pc
    rw [hpc, UInt32.toNat_add]
    simp only [UInt32.reduceToNat]
    omega

/-- Control stands at the target of a jump. -/
theorem At.jump (h : m.At text address) {target : Word}
    (hpc : m'.registers Register.pc = target) (hmemory : m'.memory = m.memory)
    (hstate : m'.cpsr.ST = m.cpsr.ST) : m'.At text target.toNat where
  normal := hstate.trans h.normal
  holds := h.holds.of_eq hmemory
  pc := by rw [hpc]

end Code

/-- Set the flags of an operation. -/
def flag (m : IsaMachine) (op : Operation) (left right : Word) : IsaMachine :=
  { m with cpsr := m.cpsr.withFlags (exactFlags op left right) }

/-! ## What code leaves alone -/

/-- Of the registers only those of a list change, and neither the memory nor the state does. -/
structure Keeps (changed : List Register) (m m' : IsaMachine) : Prop where
  registers : ∀ r, r ≠ Register.zero → r ∉ changed → m'.registers r = m.registers r
  memory : m'.memory = m.memory
  state : m'.cpsr.ST = m.cpsr.ST

section Keeps

variable {changed : List Register} {m m' m'' : IsaMachine} {text : Text}

theorem Keeps.refl (changed : List Register) (m : IsaMachine) : Keeps changed m m where
  registers _ _ _ := rfl
  memory := rfl
  state := rfl

theorem Keeps.trans (h : Keeps changed m m') (h' : Keeps changed m' m'') :
    Keeps changed m m'' where
  registers r hzero hr := (h'.registers r hzero hr).trans (h.registers r hzero hr)
  memory := h'.memory.trans h.memory
  state := h'.state.trans h.state

theorem Keeps.mono {changed' : List Register} (h : Keeps changed m m')
    (hsub : changed ⊆ changed') : Keeps changed' m m' where
  registers r hzero hr := h.registers r hzero fun hmem => hr (hsub hmem)
  memory := h.memory
  state := h.state

theorem Keeps.write {r : Register} (hr : r ∈ changed) (m : IsaMachine) (value : Word) :
    Keeps changed m (m.write r value) where
  registers _ hzero hr' := write_registers hzero (fun heq => hr' (heq ▸ hr)) value
  memory := rfl
  state := rfl

theorem Keeps.flag (changed : List Register) (m : IsaMachine) (op : Operation)
    (left right : Word) : Keeps changed m (m.flag op left right) where
  registers _ _ _ := rfl
  memory := rfl
  state := rfl

theorem Keeps.next (hpc : Register.pc ∈ changed) (m : IsaMachine) : Keeps changed m m.next :=
  .write hpc m _

end Keeps

/-! ## Instructions -/

/-- A step to an address of the text, which changes some registers at most. -/
structure Goes (text : Text) (target : ℕ) (changed : List Register) (m m' : IsaMachine) :
    Prop where
  step : Step m m'
  stands : m'.At text target
  keeps : Keeps (Register.pc :: changed) m m'

section Instructions

variable {m m' : IsaMachine} {text : Text} {address : ℕ} {op : Opcode} {condition : Condition}
  {rd rs r : Register} {imm : Word}

theorem next_registers (hr : r ≠ Register.zero) (h : r ≠ Register.pc) :
    m.next.registers r = m.registers r := write_registers hr h _

theorem next_pc : m.next.registers Register.pc = m.registers Register.pc + 8 :=
  write_registers_self (by decide) _

/-- A register that an instruction may use as any other. -/
def Plain (r : Register) : Prop := r ≠ Register.zero ∧ r ≠ Register.pc

instance (r : Register) : Decidable (Plain r) := inferInstanceAs (Decidable (_ ∧ _))

theorem operand_next {source : Operand} (h : source = .rs → Plain rs) :
    m.next.operand rs imm source = m.operand rs imm source := by
  cases source with
  | rs => exact next_registers (h rfl).1 (h rfl).2
  | imm => rfl
  | none => rfl

/-- An instruction that writes to some registers only. -/
theorem At.goes (h : m.At text address)
    (here : text address (op.instruction .unconditional rd rs imm)) {changed : List Register}
    (hkeeps : Keeps changed m.next (m.next.perform rd rs imm op.effect))
    (hpc : Register.pc ∉ changed) (hreach : address + 8 < 2 ^ 32) :
    Goes text (address + 8) changed m (m.next.perform rd rs imm op.effect) where
  step := h.step_always here
  stands := h.succ (hkeeps.memory.trans rfl) (hkeeps.state.trans rfl)
    ((hkeeps.registers _ (by decide) hpc).trans next_pc) hreach
  keeps := (Keeps.next (by simp) m).trans (hkeeps.mono (List.subset_cons_self _ _))

/-- `MOVR` and `MOVI`. -/
theorem At.move (h : m.At text address) {source : Operand} (hop : op.effect = .move source)
    (here : text address (op.instruction .unconditional rd rs imm)) (hrd : Plain rd)
    (hrs : source = .rs → Plain rs) (hreach : address + 8 < 2 ^ 32) :
    ∃ m', Goes text (address + 8) [rd] m m' ∧ m'.host = m.host ∧
      m'.registers rd = m.operand rs imm source := by
  refine ⟨_, h.goes here (hop ▸ Keeps.write (by simp) _ _)
    (fun hmem => hrd.2 (List.mem_singleton.mp hmem).symm) hreach, ?_, ?_⟩
  · rw [hop]
    rfl
  · rw [hop, ← operand_next hrs]
    exact write_registers_self hrd.1 _

/-- The operations without a division. -/
theorem At.compute (h : m.At text address) {operation : Operation} {source : Operand}
    (hop : op.effect = .compute operation source true) (hdivides : operation.divides = false)
    (here : text address (op.instruction .unconditional rd rs imm)) (hrd : Plain rd)
    (hrs : source = .rs → Plain rs) (hreach : address + 8 < 2 ^ 32) :
    ∃ m', Goes text (address + 8) [rd] m m' ∧ m'.host = m.host ∧
      m'.registers rd
        = wrap (exactResult operation (m.registers rd) (m.operand rs imm source)) ∧
      m'.cpsr = m.cpsr.withFlags
        (exactFlags operation (m.registers rd) (m.operand rs imm source)) := by
  have heffect : m.next.perform rd rs imm op.effect
      = (m.next.flag operation (m.registers rd) (m.operand rs imm source)).write rd
          (wrap (exactResult operation (m.registers rd) (m.operand rs imm source))) := by
    rw [hop, ← operand_next hrs, ← next_registers hrd.1 hrd.2]
    simp [perform, flag, hdivides]
  have hgoes := h.goes here (heffect ▸ (Keeps.flag _ _ _ _ _).trans (Keeps.write (by simp) _ _))
    (fun hmem => hrd.2 (List.mem_singleton.mp hmem).symm) hreach
  rw [heffect] at hgoes
  exact ⟨_, hgoes, rfl, write_registers_self hrd.1 _, rfl⟩

/-- The comparisons. -/
theorem At.compare (h : m.At text address) {operation : Operation} {source : Operand}
    (hop : op.effect = .compute operation source false) (hdivides : operation.divides = false)
    (here : text address (op.instruction .unconditional rd rs imm)) (hrd : Plain rd)
    (hrs : source = .rs → Plain rs) (hreach : address + 8 < 2 ^ 32) :
    ∃ m', Goes text (address + 8) [] m m' ∧ m'.host = m.host ∧
      m'.cpsr = m.cpsr.withFlags
        (exactFlags operation (m.registers rd) (m.operand rs imm source)) := by
  have heffect : m.next.perform rd rs imm op.effect
      = m.next.flag operation (m.registers rd) (m.operand rs imm source) := by
    rw [hop, ← operand_next hrs, ← next_registers hrd.1 hrd.2]
    simp [perform, flag, hdivides]
  have hgoes := h.goes here (heffect ▸ Keeps.flag [] _ _ _ _) (by simp) hreach
  rw [heffect] at hgoes
  exact ⟨_, hgoes, rfl, rfl⟩

/-- `LOADB` from inside the memory. -/
theorem At.loadb (h : m.At text address) (hop : op.effect = .load .byte)
    (here : text address (op.instruction .unconditional rd rs imm)) (hrd : Plain rd)
    (hrs : Plain rs) (hreach : address + 8 < 2 ^ 32) {b : Byte}
    (hbyte : m.memory[(m.registers rs).toNat + imm.toNat]? = some b) :
    ∃ m', Goes text (address + 8) [rd] m m' ∧ m'.host = m.host ∧
      m'.registers rd = replaceLow 1 (m.registers rd) b.toNat := by
  obtain ⟨hlt, hget⟩ := List.getElem?_eq_some_iff.mp hbyte
  have hvalue : LittleEndian.value (slice m.memory ((m.registers rs).toNat + imm.toNat) 1)
      = b.toNat := by
    rw [show slice m.memory ((m.registers rs).toNat + imm.toNat) 1 = [b] from ?_]
    · simp [LittleEndian.value]
    · rw [slice, List.drop_eq_getElem_cons hlt, hget]
      rfl
  have heffect : m.next.perform rd rs imm op.effect
      = m.next.write rd (replaceLow 1 (m.registers rd) b.toNat) := by
    rw [hop, perform, next_registers hrs.1 hrs.2, next_registers hrd.1 hrd.2]
    refine (if_pos ?_).trans ?_
    · exact hlt
    · exact congrArg (fun n => m.next.write rd (replaceLow 1 (m.registers rd) n)) hvalue
  have hgoes := h.goes here (heffect ▸ Keeps.write (by simp) _ _)
    (fun hmem => hrd.2 (List.mem_singleton.mp hmem).symm) hreach
  rw [heffect] at hgoes
  exact ⟨_, hgoes, rfl, write_registers_self hrd.1 _⟩

/-- `INT 0x02` -/
theorem At.print (h : m.At text address)
    (here : text address (Opcode.int.instruction .unconditional rd rs 2))
    (hreach : address + 8 < 2 ^ 32) :
    ∃ m', Goes text (address + 8) [] m m' ∧
      m'.host = { m.host with output := m.host.output ++ [(m.registers Register.a0).toUInt8] } := by
  have hkeeps : Keeps [] m.next (m.next.perform rd rs 2 Opcode.int.effect) :=
    ⟨fun _ _ _ => rfl, rfl, rfl⟩
  exact ⟨_, h.goes here hkeeps (by simp) hreach, rfl⟩

/-- `NOP` -/
theorem At.nop (h : m.At text address)
    (here : text address (Opcode.nop.instruction .unconditional rd rs imm))
    (hreach : address + 8 < 2 ^ 32) :
    ∃ m', Goes text (address + 8) [] m m' ∧ m'.host = m.host :=
  ⟨_, h.goes here (Keeps.refl [] _) (by simp) hreach, rfl⟩

/-- `INT 0xFF` -/
theorem At.halt (h : m.At text address)
    (here : text address (Opcode.int.instruction .unconditional rd rs 0xFF)) :
    ∃ m', Step m m' ∧ m'.cpsr.ST = .halted ∧ m'.registers = m.next.registers ∧
      m'.memory = m.memory ∧ m'.host = m.host :=
  ⟨_, h.step_always here, rfl, rfl, rfl, rfl⟩

/-- An instruction whose condition does not hold. -/
theorem At.skip (h : m.At text address)
    (here : text address (op.instruction condition rd rs imm))
    (hcondition : condition.holds m.cpsr = false) (hreach : address + 8 < 2 ^ 32) :
    ∃ m', Goes text (address + 8) [] m m' ∧ m'.host = m.host := by
  have hstep := h.step here
  rw [hcondition] at hstep
  exact ⟨m.next, ⟨hstep, h.succ rfl rfl next_pc hreach, Keeps.next (by simp) m⟩, rfl⟩

/-- `JMP` whose condition holds. -/
theorem At.jmp (h : m.At text address)
    (here : text address (Opcode.jmp.instruction condition rd rs imm))
    (hcondition : condition.holds m.cpsr = true) :
    ∃ m', Goes text imm.toNat [] m m' ∧ m'.host = m.host := by
  have hstep := h.step here
  rw [if_pos hcondition] at hstep
  have hpc : (m.next.perform rd rs imm Opcode.jmp.effect).registers Register.pc = imm :=
    write_registers_self (by decide) _
  exact ⟨_, ⟨hstep, h.jump hpc rfl rfl,
    (Keeps.next (by simp) m).trans (Keeps.write (by simp) _ _)⟩, rfl⟩

/-- `JMPAL` -/
theorem At.call (h : m.At text address)
    (here : text address (Opcode.jmpal.instruction .unconditional rd rs imm)) :
    ∃ m', Goes text imm.toNat [Register.lp] m m' ∧ m'.host = m.host ∧
      m'.registers Register.lp = m.registers Register.pc + 8 := by
  have hpc : (m.next.perform rd rs imm Opcode.jmpal.effect).registers Register.pc = imm :=
    write_registers_self (by decide) _
  refine ⟨_, ⟨h.step_always here, h.jump hpc rfl rfl,
    ((Keeps.next (by simp) m).trans (Keeps.write (by simp) _ _)).trans
      (Keeps.write (by simp) _ _)⟩, rfl, ?_⟩
  refine (write_registers (by decide) (by decide) _).trans ?_
  exact (write_registers_self (by decide) _).trans next_pc

/-- `RET` -/
theorem At.ret (h : m.At text address)
    (here : text address (Opcode.ret.instruction .unconditional rd rs imm)) :
    ∃ m', Goes text (m.registers Register.lp).toNat [] m m' ∧ m'.host = m.host ∧
      m'.registers Register.pc = m.registers Register.lp := by
  have hpc : (m.next.perform rd rs imm Opcode.ret.effect).registers Register.pc
      = m.registers Register.lp :=
    (write_registers_self (by decide) _).trans (next_registers (by decide) (by decide))
  exact ⟨_, ⟨h.step_always here, h.jump hpc rfl rfl,
    (Keeps.next (by simp) m).trans (Keeps.write (by simp) _ _)⟩, rfl, hpc⟩

/-! ## Results -/

/-- The sum of two words. -/
theorem toNat_sum (a b : Word) : (wrap (exactResult .add a b)).toNat
    = (a.toNat + b.toNat) % 2 ^ 32 := by
  rw [exactResult, wrap, UInt32.toNat_ofNat']
  omega

/-- A sum has a carry if it has no room in a word. -/
theorem exactFlags_sum_C (a b : Word) :
    (exactFlags .add a b).C = decide (2 ^ 32 ≤ a.toNat + b.toNat) := by
  have hiff : (2 ^ 32 - 1 < (a.toNat + b.toNat : ℤ)) ↔ 2 ^ 32 ≤ a.toNat + b.toNat := by omega
  have hsub : (Operation.add == Operation.sub) = false := rfl
  have hdec : (Operation.add == Operation.dec) = false := rfl
  simp only [exactFlags, exactResult, hiff, hsub, hdec, BEq.rfl, Bool.true_or, Bool.true_and,
    Bool.false_and, Bool.or_false]

/-- A word that is compared with zero sets `Z` if it is zero. -/
theorem exactFlags_compare_zero_Z (a : Word) : (exactFlags .sub a 0).Z = (a == 0) := by
  have hword : wrap (exactResult .sub a 0) = a := by
    have hlt := a.toNat_lt
    rw [exactResult, wrap]
    refine UInt32.toNat_inj.mp ?_
    rw [UInt32.toNat_ofNat']
    simp only [UInt32.reduceToNat]
    omega
  rw [exactFlags, hword]

/-- The next number. -/
theorem toNat_successor (a : Word) :
    (wrap (exactResult .inc a 0)).toNat = (a.toNat + 1) % 2 ^ 32 := by
  rw [exactResult, wrap, UInt32.toNat_ofNat']
  omega

/-- A word is cleared. -/
theorem wrap_xor_self (a : Word) : wrap (exactResult .xor a a) = 0 := by
  rw [exactResult, Nat.xor_self]
  rfl

/-- A byte in a word that holds no more. -/
theorem replaceLow_byte {a : Word} (ha : a.toNat < 256) (b : Byte) :
    replaceLow 1 a b.toNat = b.toUInt32 := by
  have hlt := b.toNat_lt
  refine UInt32.toNat_inj.mp ?_
  rw [replaceLow, UInt32.toNat_ofNat', UInt8.toNat_toUInt32]
  omega

end Instructions

end IsaMachine

end Zlvm
