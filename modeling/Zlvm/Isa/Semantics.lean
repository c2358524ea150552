import Zlvm.Vm.Arithmetic
import Zlvm.Vm.FlatMemory
import Zlvm.Vm.Reachable

/-!
# The instruction set

What the instructions mean, in the terms of `ISA.md` and without the helpers of the emulator: exact
integers instead of an arithmetic unit, one array of bytes instead of a ROM and a RAM, a number of
words instead of two stack pointers.

* `IsaMachine` — the machine that the documentation speaks of.
* `Effect`, `Opcode.effect` — the table of the instructions.
* `IsaMachine.execute`, `IsaMachine.step`, `IsaMachine.run` — an instruction, a pass and a run.
-/

namespace Zlvm

open Buffer

/-! ## The machine -/

/-- Registers, of which `$zero` is clear, one array of bytes, flags and state, and the streams. -/
@[ext] structure IsaMachine where
  registers : Register → Word
  memory : Bytes
  cpsr : Cpsr
  host : Host

namespace IsaMachine

/-- Write to a register; `$zero` stays clear. -/
def write (m : IsaMachine) (r : Register) (value : Word) : IsaMachine :=
  { m with registers := clearZero (Function.update m.registers r value) }

/-- Stop, or go on, in a state. -/
def enter (m : IsaMachine) (state : State) : IsaMachine :=
  { m with cpsr := { m.cpsr with ST := state } }

/-- Go on if `size` bytes at `address` lie in the memory. -/
def within (m : IsaMachine) (address size : ℕ) (next : IsaMachine) : IsaMachine :=
  if address + size ≤ m.memory.length then next else m.enter .errOutOfMemory

/-! ## The stack -/

/-- The most words that the stack holds: `ZLVM_STACK_SIZE` bytes. -/
def stackCapacity : ℕ := 64

/-- How many words are on the stack between `$bp` and `$sp`, if these bound one. -/
def stackDepth (m : IsaMachine) : Option ℕ :=
  let base := (m.registers Register.bp).toNat
  let top := (m.registers Register.sp).toNat
  if base ≤ top ∧ (top - base) % 4 = 0 ∧ (top - base) / 4 ≤ stackCapacity
    then some ((top - base) / 4) else none

/-- Push a word onto a stack with room. -/
def push (m : IsaMachine) (value : Word) : IsaMachine :=
  let top := m.registers Register.sp
  if m.stackDepth.any (· < stackCapacity) then
    m.within top.toNat 4
      ({ m with memory := overlay m.memory top.toNat (LittleEndian.bytes 4 value.toNat) }.write
        Register.sp (top + 4))
  else m.enter .errStackOverflow

/-- Go on with the word on top of a stack that is not empty. -/
def top (m : IsaMachine) (next : Word → IsaMachine) : IsaMachine :=
  let address := (m.registers Register.sp - 4).toNat
  if m.stackDepth.any (0 < ·) then
    m.within address 4 (next (UInt32.ofNat (LittleEndian.value (slice m.memory address 4))))
  else m.enter .errStackUnderflow

end IsaMachine

/-! ## Arithmetic -/

/-- The word for an integer, modulo `2 ^ 32`. -/
def wrap (value : ℤ) : Word := UInt32.ofNat (value % 2 ^ 32).toNat

/-- The flags of an operation: of its word `N` and `Z`, of its exact result `V` and `C`. -/
def exactFlags (op : Operation) (left right : Word) : AluFlags :=
  let exact := exactResult op left right
  { N := decide (Word.signed (wrap exact) < 0)
    Z := wrap exact == 0
    V := op.isSigned && !decide (-2 ^ 31 ≤ exact ∧ exact < 2 ^ 31)
    C := (op == .add || op == .mul || op == .inc) && decide (2 ^ 32 - 1 < exact) ||
      (op == .sub || op == .dec) && decide (0 ≤ exact)
    S := op.isSigned }

/-! ## The table -/

/-- The second operand of an instruction. -/
inductive Operand
  | rs
  | imm
  | none
deriving DecidableEq

/-- What an instruction does. -/
inductive Effect
  | nothing
  | move (source : Operand)
  /-- `keeps` is false for a comparison. -/
  | compute (op : Operation) (source : Operand) (keeps : Bool)
  | load (width : Width)
  | store (width : Width)
  | pushRegister
  | pushImmediate
  /-- `keeps` is false if the word is discarded. -/
  | pop (keeps : Bool)
  | duplicate
  | interrupt
  | jump
  | call
  | ret
deriving DecidableEq

/-- The instructions of `ISA.md`. -/
def Opcode.effect : Opcode → Effect
  | .nop => .nothing
  | .pop => .pop false
  | .popr => .pop true
  | .pushr => .pushRegister
  | .pushi => .pushImmediate
  | .dup => .duplicate
  | .movr => .move .rs
  | .movi => .move .imm
  | .addr => .compute .add .rs true
  | .subr => .compute .sub .rs true
  | .mulr => .compute .mul .rs true
  | .divr => .compute .div .rs true
  | .modr => .compute .mod .rs true
  | .addi => .compute .add .imm true
  | .subi => .compute .sub .imm true
  | .muli => .compute .mul .imm true
  | .divi => .compute .div .imm true
  | .modi => .compute .mod .imm true
  | .int => .interrupt
  | .syscall => .nothing
  | .jmp => .jump
  | .not => .compute .not .none true
  | .andr => .compute .and .rs true
  | .orr => .compute .or .rs true
  | .xorr => .compute .xor .rs true
  | .nandr => .compute .nand .rs true
  | .norr => .compute .nor .rs true
  | .andi => .compute .and .imm true
  | .ori => .compute .or .imm true
  | .xori => .compute .xor .imm true
  | .nandi => .compute .nand .imm true
  | .nori => .compute .nor .imm true
  | .inc => .compute .inc .none true
  | .dec => .compute .dec .none true
  | .loadb => .load .byte
  | .storeb => .store .byte
  | .loadh => .load .hword
  | .storeh => .store .hword
  | .loadw => .load .word
  | .storew => .store .word
  | .jmpal => .call
  | .ret => .ret
  | .cmpr => .compute .sub .rs false
  | .cmpi => .compute .sub .imm false
  | .cmpsr => .compute .ssub .rs false
  | .cmpsi => .compute .ssub .imm false
  | .addsr => .compute .sadd .rs true
  | .subsr => .compute .ssub .rs true
  | .mulsr => .compute .smul .rs true
  | .divsr => .compute .sdiv .rs true
  | .modsr => .compute .smod .rs true
  | .addsi => .compute .sadd .imm true
  | .subsi => .compute .ssub .imm true
  | .mulsi => .compute .smul .imm true
  | .divsi => .compute .sdiv .imm true
  | .modsi => .compute .smod .imm true

namespace IsaMachine

/-! ## Execution -/

/-- The value of an operand. -/
def operand (m : IsaMachine) (rs : Register) (imm : Word) : Operand → Word
  | .rs => m.registers rs
  | .imm => imm
  | .none => 0

/-- The services of `INT`. -/
def interrupt (m : IsaMachine) (code : Word) : IsaMachine :=
  let character := (m.registers Register.a0).toUInt8
  if code = 0x01 then
    { m with host := { m.host with output := m.host.output ++ [character + 0x60] } }
  else if code = 0x02 then
    { m with host := { m.host with output := m.host.output ++ [character] } }
  else if code = 0x10 then
    { m with host := { m.host with input := m.host.input.tail } }.write Register.v0
      ((m.host.input.head?.map UInt8.toUInt32).getD 0xFFFFFFFF)
  else if code = 0xFF then m.enter .halted
  else m

/-- What an effect does with the registers `rd` and `rs` and the immediate. -/
def perform (m : IsaMachine) (rd rs : Register) (imm : Word) : Effect → IsaMachine
  | .nothing => m
  | .move source => m.write rd (m.operand rs imm source)
  | .compute op source keeps =>
      let left := m.registers rd
      let right := m.operand rs imm source
      if op.divides ∧ right = 0 then m.enter .errDivisionByZero
      else
        let flagged := { m with cpsr := m.cpsr.withFlags (exactFlags op left right) }
        if keeps then flagged.write rd (wrap (exactResult op left right)) else flagged
  | .load width =>
      let address := (m.registers rs).toNat + imm.toNat
      m.within address width.size (m.write rd (replaceLow width.size (m.registers rd)
        (LittleEndian.value (slice m.memory address width.size))))
  | .store width =>
      let address := (m.registers rs).toNat + imm.toNat
      m.within address width.size { m with
        memory := overlay m.memory address
          (LittleEndian.bytes width.size (m.registers rd).toNat) }
  | .pushRegister => m.push (m.registers rd)
  | .pushImmediate => m.push imm
  | .pop keeps => m.top fun value =>
      let popped := m.write Register.sp (m.registers Register.sp - 4)
      if keeps then popped.write rd value else popped
  | .duplicate => m.top fun value => m.push value
  | .interrupt => m.interrupt imm
  | .jump => m.write Register.pc imm
  | .call => (m.write Register.lp (m.registers Register.pc)).write Register.pc imm
  | .ret => m.write Register.pc (m.registers Register.lp)

/-- An instruction, if its condition holds. -/
def execute (m : IsaMachine) (instruction : Instruction) : IsaMachine :=
  match Condition.ofWord instruction.condition with
  | none => m.enter .errInvalidCondition
  | some condition =>
      if condition.holds m.cpsr then
        if h : max instruction.register1.toNat instruction.register2.toNat < 32 then
          match Opcode.ofWord instruction.opcode with
          | some op =>
              m.perform ⟨_, (Nat.max_lt.mp h).1⟩ ⟨_, (Nat.max_lt.mp h).2⟩ instruction.immediate
                op.effect
          | none => m.enter .errInvalidOpcode
        else m.enter .errInvalidOpcode
      else m

/-- The eight bytes from `$pc` on, at addresses of 32 bits. -/
def instructionBytes (m : IsaMachine) : Bytes :=
  (List.range instructionSize).map fun index =>
    m.memory.getD (m.registers Register.pc + UInt32.ofNat index).toNat 0

/-- Fetch the instruction at `$pc`, move on and execute it. -/
def step (m : IsaMachine) : IsaMachine :=
  let pc := m.registers Register.pc
  m.within pc.toNat instructionSize
    (((instructionDecode m.instructionBytes).map (m.write Register.pc (pc + 8)).execute).getD m)

/-- At most `n` steps, until the machine has stopped. -/
def run : ℕ → IsaMachine → IsaMachine
  | 0, m => m
  | n + 1, m => if m.cpsr.ST = .normal then run n m.step else m

end IsaMachine

end Zlvm
